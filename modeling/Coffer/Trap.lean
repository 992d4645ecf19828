/-
# Trap entry and exit

`trap_handler` of `emod_manager/entry.S` as a program over the general
registers, `sscratch` and the memory: one code sequence serves traps from U mode
(`sscratch` holds the S-mode stack pointer) and from S mode (`sscratch` is 0),
and decides which it is by comparing the swapped `sp` with zero, at entry and
again at exit.

At entry the test is on `sscratch`, which U mode cannot write. At exit it is on
the saved stack pointer, which U mode chooses: with `sp = 0` a user trap leaves
like a kernel trap, with the S-mode stack pointer in `sp` and 0 in `sscratch`
(`trap_leaks`). For every other register file the trap is transparent
(`trap_transparent_iff`).

`Handler` is what `exception_handler` may do between entry and exit: run any
code that leaves the saved context alone and be interrupted, on a free part of
the stack, by traps that do the same, to any depth.
-/
import Coffer.Lib.Mem

namespace Coffer
namespace Trap

open Lib

variable {base r : ℕ} {keep : ℕ → Prop}

/-- What the trap code reads and writes. `reg` is indexed by the register
number, which is also its index in the saved context (`CTX_INDEX_*`). -/
structure TrapState where
  reg : ℕ → BitVec 64
  sscratch : BitVec 64
  sepc : BitVec 64
  scause : BitVec 64
  stval : BitVec 64
  mem : Mem

/-- The CSRs the handler gets as arguments. -/
inductive Csr
  | sepc
  | scause
  | stval
deriving DecidableEq, Repr

/-- The registers the code names. -/
abbrev x0 : ℕ := 0
@[inherit_doc x0] abbrev sp : ℕ := 2
@[inherit_doc x0] abbrev t1 : ℕ := 6
@[inherit_doc x0] abbrev a0 : ℕ := 10
@[inherit_doc x0] abbrev a1 : ℕ := 11
@[inherit_doc x0] abbrev a2 : ℕ := 12
@[inherit_doc x0] abbrev a3 : ℕ := 13

/-- The instructions of `trap_handler`. `csrrw` is on `sscratch`; `mv` and
`csrw` are `addi` and `csrrw` with `x0`; a `bnez` always jumps over the one
instruction that follows it. -/
inductive Instr
  | csrrw (rd rs : ℕ)
  | bnezOver (rs : ℕ) (i : Instr)
  | addi (rd rs : ℕ) (imm : BitVec 64)
  | sd (rs off base : ℕ)
  | ld (rd off base : ℕ)
  | csrr (rd : ℕ) (c : Csr)

namespace TrapState

/-- Register `r`; `x0` reads 0. -/
def get (s : TrapState) (r : ℕ) : BitVec 64 := if r = 0 then 0 else s.reg r

/-- Writes register `r`; a write to `x0` is dropped. -/
def set (s : TrapState) (r : ℕ) (v : BitVec 64) : TrapState :=
  if r = 0 then s else { s with reg := Function.update s.reg r v }

/-- Writes `sscratch`. -/
def setSscratch (s : TrapState) (v : BitVec 64) : TrapState := { s with sscratch := v }

/-- Stores the eight bytes of `v` at `a`. -/
def store (s : TrapState) (a : ℕ) (v : BitVec 64) : TrapState :=
  { s with mem := s.mem.store a 8 v.toNat }

/-- A CSR of the trap. -/
def csr (s : TrapState) : Csr → BitVec 64
  | .sepc => s.sepc
  | .scause => s.scause
  | .stval => s.stval

/-- The address `off(base)`. -/
def addr (s : TrapState) (off base : ℕ) : ℕ := (s.get base + BitVec.ofNat 64 off).toNat

@[simp] theorem set_mem (s : TrapState) (r : ℕ) (v : BitVec 64) : (s.set r v).mem = s.mem := by
  unfold set; split <;> rfl

@[simp] theorem set_sscratch (s : TrapState) (r : ℕ) (v : BitVec 64) :
    (s.set r v).sscratch = s.sscratch := by
  unfold set; split <;> rfl

@[simp] theorem setSscratch_get (s : TrapState) (v : BitVec 64) (r : ℕ) :
    (s.setSscratch v).get r = s.get r := rfl

@[simp] theorem setSscratch_mem (s : TrapState) (v : BitVec 64) : (s.setSscratch v).mem = s.mem := rfl

@[simp] theorem setSscratch_sscratch (s : TrapState) (v : BitVec 64) :
    (s.setSscratch v).sscratch = v := rfl

@[simp] theorem store_get (s : TrapState) (a : ℕ) (v : BitVec 64) (r : ℕ) :
    (s.store a v).get r = s.get r := rfl

@[simp] theorem store_mem (s : TrapState) (a : ℕ) (v : BitVec 64) :
    (s.store a v).mem = s.mem.store a 8 v.toNat := rfl

@[simp] theorem store_sscratch (s : TrapState) (a : ℕ) (v : BitVec 64) :
    (s.store a v).sscratch = s.sscratch := rfl

@[simp] theorem get_set (s : TrapState) (r r' : ℕ) (v : BitVec 64) :
    (s.set r v).get r' = if r' = r ∧ r ≠ 0 then v else s.get r' := by
  unfold set get
  by_cases h : r = 0
  · simp [h]
  · by_cases h' : r' = r
    · simp [h, h']
    · simp [h, h']

end TrapState

/-- One instruction. -/
def Instr.step : Instr → TrapState → TrapState
  | .csrrw rd rs, s => (s.set rd s.sscratch).setSscratch (s.get rs)
  | .bnezOver rs i, s => if s.get rs ≠ 0 then s else i.step s
  | .addi rd rs imm, s => s.set rd (s.get rs + imm)
  | .sd rs off base, s => s.store (s.addr off base) (s.get rs)
  | .ld rd off base, s => s.set rd (BitVec.ofNat 64 (s.mem.load (s.addr off base) 8))
  | .csrr rd c, s => s.set rd (s.csr c)

/-- A straight run of instructions. -/
def exec (is : List Instr) (s : TrapState) : TrapState := is.foldl (fun s i => i.step s) s

/-- The registers `SAVE_CONTEXT` and `RESTORE_CONTEXT` go through, in their
order: all of them but `x0` and `sp`. -/
def ctxRegs : List ℕ := 1 :: List.range' 3 29

/-- `SAVE_CONTEXT`: `EAPP_CTX_SIZE` is 256, a register's slot 8 bytes. -/
def saveContext : List Instr := .addi sp sp (-256) :: ctxRegs.map fun r => .sd r (8 * r) sp

def restoreContext : List Instr := (ctxRegs.map fun r => .ld r (8 * r) sp) ++ [.addi sp sp 256]

/-- `trap_handler`, up to the call of `exception_handler`. -/
def trapEntry : List Instr :=
  [.csrrw sp sp, .bnezOver sp (.csrrw sp sp)] ++ saveContext ++
    [.csrrw t1 x0, .sd t1 (8 * sp) sp, .addi a0 sp 0, .csrr a1 .sepc, .csrr a2 .scause,
      .csrr a3 .stval]

/-- `trap_handler`, from the return of `exception_handler` to `sret`. -/
def trapExit : List Instr :=
  [.ld t1 (8 * sp) sp, .csrrw x0 t1] ++ restoreContext ++
    [.csrrw sp sp, .bnezOver sp (.csrrw sp sp)]

/-- The bytes of the context saved at `base`. -/
def Frame (base x : ℕ) : Prop := base ≤ x ∧ x < base + 256

/-- The context saved at `base`, less the slot of `a0`. -/
def FrameButA0 (base x : ℕ) : Prop := Frame base x ∧ ¬ (base + 80 ≤ x ∧ x < base + 88)

theorem frame_slot {x : ℕ} (hr : r < 32) (h : base + 8 * r ≤ x) (h' : x < base + 8 * r + 8) :
    Frame base x := ⟨by omega, by omega⟩

theorem frameButA0_slot {x : ℕ} (hr : r < 32) (ha : r ≠ a0) (h : base + 8 * r ≤ x)
    (h' : x < base + 8 * r + 8) : FrameButA0 base x := by
  unfold a0 at ha
  exact ⟨frame_slot hr h h', by omega⟩

/-- What S-mode code does from the entry of `exception_handler` to its return.
It may compute anything but leaves `sscratch` and the bytes of `keep` (the saved
contexts) alone; and wherever 256 bytes of free stack lie below `sp`, it may be
interrupted by a trap whose handler does the same and returns with the `sp` it
was called with. -/
inductive Handler : (ℕ → Prop) → TrapState → TrapState → Prop
  | ret {keep : ℕ → Prop} (s : TrapState) : Handler keep s s
  | code {keep : ℕ → Prop} {s t u : TrapState} : t.sscratch = s.sscratch →
      (∀ x, keep x → t.mem x = s.mem x) → Handler keep t u → Handler keep s u
  | trap {keep : ℕ → Prop} {s h u : TrapState} : 256 ≤ (s.get sp).toNat →
      (∀ x, Frame ((s.get sp).toNat - 256) x → ¬ keep x) →
      Handler (fun x => keep x ∨ Frame ((s.get sp).toNat - 256) x) (exec trapEntry s) h →
      h.get sp = (exec trapEntry s).get sp → Handler keep (exec trapExit h) u → Handler keep s u

/-- A trap: entry, a handler that leaves `keep` alone and returns with a
balanced stack, exit. -/
def Traps (keep : ℕ → Prop) (s t : TrapState) : Prop :=
  ∃ h, Handler keep (exec trapEntry s) h ∧ h.get sp = (exec trapEntry s).get sp ∧
    t = exec trapExit h

/-- The stack a trap runs on: the interrupted one when `sscratch` is 0, the one
in `sscratch` otherwise. -/
def stackTop (s : TrapState) : BitVec 64 := if s.sscratch = 0 then s.get sp else s.sscratch

/-- A trap from U mode: the handler may change the saved `a0`. -/
def UserTrap (s t : TrapState) : Prop := Traps (FrameButA0 ((stackTop s).toNat - 256)) s t

/-- A trap from S mode: the handler changes nothing of the saved context. -/
def SupervisorTrap (s t : TrapState) : Prop := Traps (Frame ((stackTop s).toNat - 256)) s t

/-- A run of the payload from one U-mode state to another: user code, which
cannot write `sscratch`, and traps. The list holds the states traps are taken
in. -/
inductive UserRun : TrapState → List TrapState → TrapState → Prop
  | done (s : TrapState) : UserRun s [] s
  | code {s t u : TrapState} {l : List TrapState} : t.sscratch = s.sscratch → UserRun t l u →
      UserRun s l u
  | trap {s t u : TrapState} {l : List TrapState} : UserTrap s t → UserRun t l u →
      UserRun s (s :: l) u

/-! ### Entry and exit -/

theorem exec_append (is js : List Instr) (s : TrapState) : exec (is ++ js) s = exec js (exec is s) :=
  List.foldl_append

theorem exec_cons (i : Instr) (is : List Instr) (s : TrapState) :
    exec (i :: is) s = exec is (i.step s) := rfl

/-- `csrrw sp, sscratch, sp; bnez sp, 1f; csrrw sp, sscratch, sp; 1:` exchanges
`sp` and `sscratch` unless `sscratch` is 0. -/
def swapSp (s : TrapState) : TrapState :=
  if s.sscratch = 0 then s else (s.set sp s.sscratch).setSscratch (s.get sp)

theorem exec_swap (s : TrapState) : exec [.csrrw sp sp, .bnezOver sp (.csrrw sp sp)] s = swapSp s := by
  simp only [exec, List.foldl_cons, List.foldl_nil, Instr.step, swapSp]
  by_cases h : s.sscratch = 0
  · cases s
    simp_all [TrapState.set, TrapState.get, TrapState.setSscratch]
  · rw [if_pos (by simpa [sp] using h), if_neg h]

/-- The memory once the registers of `l` are stored in their slots at `base`. -/
def saved (s : TrapState) (base : ℕ) (l : List ℕ) (m : Mem) : Mem :=
  l.foldl (fun m r => m.store (base + 8 * r) 8 (s.get r).toNat) m

theorem saved_out (s : TrapState) (base : ℕ) : ∀ (l : List ℕ) (m : Mem), (∀ r ∈ l, r < 32) →
    ∀ x, ¬ Frame base x → saved s base l m x = m x
  | [], _, _, _, _ => rfl
  | r :: l, m, hl, x, hx => by
    have hr : r < 32 := hl r List.mem_cons_self
    have h1 := saved_out s base l (m.store (base + 8 * r) 8 (s.get r).toNat)
      (fun r hr => hl r (List.mem_cons_of_mem _ hr)) x hx
    unfold Frame at hx
    exact h1.trans (Mem.store_out m (by omega))

theorem saved_other (s : TrapState) (base r : ℕ) : ∀ (l : List ℕ) (m : Mem), r ∉ l →
    (saved s base l m).load (base + 8 * r) 8 = m.load (base + 8 * r) 8
  | [], _, _ => rfl
  | r' :: l, m, hr => by
    simp only [List.mem_cons, not_or] at hr
    have h1 := saved_other s base r l (m.store (base + 8 * r') 8 (s.get r').toNat) hr.2
    exact h1.trans (Mem.load_store_disj m (by omega))

theorem saved_slot (s : TrapState) (base r : ℕ) : ∀ (l : List ℕ) (m : Mem), r ∈ l →
    (saved s base l m).load (base + 8 * r) 8 = (s.get r).toNat
  | [], _, hr => by cases hr
  | r' :: l, m, hr => by
    by_cases hl : r ∈ l
    · exact saved_slot s base r l _ hl
    · obtain rfl : r = r' := (List.mem_cons.mp hr).resolve_right hl
      have h1 := saved_other s base r l (m.store (base + 8 * r) 8 (s.get r).toNat) hl
      refine h1.trans ?_
      rw [Mem.load_store_self]
      exact Nat.mod_eq_of_lt (s.get r).isLt

theorem addr_eq {s : TrapState} {off b : ℕ} (hs : (s.get b).toNat = base)
    (h : base + off < 2 ^ 64) : s.addr off b = base + off := by
  rw [TrapState.addr, BitVec.toNat_add, BitVec.toNat_ofNat, hs, Nat.mod_eq_of_lt (by omega : off < 2 ^ 64),
    Nat.mod_eq_of_lt h]

theorem exec_stores (hb : base + 256 ≤ 2 ^ 64) : ∀ (l : List ℕ) (s : TrapState),
    (∀ r ∈ l, r < 32) → (s.get sp).toNat = base →
    exec (l.map fun r => .sd r (8 * r) sp) s = { s with mem := saved s base l s.mem }
  | [], _, _, _ => rfl
  | r :: l, s, hl, hs => by
    have hr : r < 32 := hl r List.mem_cons_self
    have ha : s.addr (8 * r) sp = base + 8 * r := addr_eq hs (by omega)
    rw [List.map_cons, exec_cons]
    simp only [Instr.step, ha]
    exact exec_stores hb l _ (fun r hr => hl r (List.mem_cons_of_mem _ hr)) hs

/-- The registers once those of `l` are loaded from their slots at `base`. -/
theorem exec_loads (hb : base + 256 ≤ 2 ^ 64) : ∀ (l : List ℕ) (s : TrapState),
    (∀ r ∈ l, r < 32 ∧ r ≠ 0 ∧ r ≠ sp) → (s.get sp).toNat = base →
    ∀ t, t = exec (l.map fun r => .ld r (8 * r) sp) s →
    t.mem = s.mem ∧ t.sscratch = s.sscratch ∧
      ∀ r, t.get r = if r ∈ l then BitVec.ofNat 64 (s.mem.load (base + 8 * r) 8) else s.get r
  | [], _, _, _, _, rfl => by simp [exec]
  | r :: l, s, hl, hs, _, rfl => by
    obtain ⟨hr, hr0, hr2⟩ := hl r List.mem_cons_self
    have ha : s.addr (8 * r) sp = base + 8 * r := addr_eq hs (by omega)
    rw [List.map_cons, exec_cons]
    simp only [Instr.step, ha]
    have hs' : ((s.set r (BitVec.ofNat 64 (s.mem.load (base + 8 * r) 8))).get sp).toNat = base := by
      rw [TrapState.get_set, if_neg (by omega), hs]
    obtain ⟨h1, h2, h3⟩ := exec_loads hb l _ (fun r hr => hl r (List.mem_cons_of_mem _ hr)) hs' _ rfl
    refine ⟨h1.trans (s.set_mem _ _), h2.trans (s.set_sscratch _ _), fun q => ?_⟩
    rw [h3 q, TrapState.get_set, TrapState.set_mem]
    by_cases hq : q ∈ l <;> by_cases hqr : q = r <;> simp [hq, hqr, hr0]

theorem ctxRegs_mem : r ∈ ctxRegs ↔ r = 1 ∨ (3 ≤ r ∧ r < 32) := by
  simp [ctxRegs, List.mem_range'_1]

theorem ctxRegs_lt : ∀ r ∈ ctxRegs, r < 32 ∧ r ≠ 0 ∧ r ≠ sp := fun r hr => by
  rw [ctxRegs_mem] at hr
  unfold sp
  omega

/-- The stack pointer `trap_handler` saves: 0 when `sscratch` is 0. -/
def userSp (s : TrapState) : BitVec 64 := if s.sscratch = 0 then 0 else s.get sp

theorem swapSp_spec (s : TrapState) : (∀ r, (swapSp s).get r = if r = sp then stackTop s else s.get r) ∧
    (swapSp s).sscratch = userSp s ∧ (swapSp s).mem = s.mem := by
  unfold swapSp stackTop userSp
  by_cases h : s.sscratch = 0
  · rw [if_pos h, if_pos h, if_pos h]
    refine ⟨fun r => ?_, h, rfl⟩
    split
    · rename_i hr
      rw [hr]
    · rfl
  · rw [if_neg h, if_neg h, if_neg h]
    exact ⟨fun r => by simp [sp], rfl, s.set_mem _ _⟩

/-- `SAVE_CONTEXT` puts the registers in the frame below `sp`. -/
theorem exec_saveContext {s t : TrapState} (hb : base + 256 = (s.get sp).toNat)
    (ht : t = exec saveContext s) :
    (t.get sp).toNat = base ∧ t.sscratch = s.sscratch ∧
      (∀ r ∈ ctxRegs, t.mem.load (base + 8 * r) 8 = (s.get r).toNat) ∧
      ∀ x, ¬ Frame base x → t.mem x = s.mem x := by
  have htop := (s.get sp).isLt
  set u := s.set sp (s.get sp + -256) with hu
  have hsp : (u.get sp).toNat = base := by
    rw [hu, TrapState.get_set, if_pos ⟨rfl, by decide⟩, BitVec.toNat_add,
      show (-256 : BitVec 64).toNat = 2 ^ 64 - 256 by decide]
    omega
  have hreg : ∀ r ∈ ctxRegs, u.get r = s.get r := fun r hr => by
    have := ctxRegs_lt r hr
    rw [hu, TrapState.get_set, if_neg (by omega)]
  have hlt : ∀ r ∈ ctxRegs, r < 32 := fun r hr => (ctxRegs_lt r hr).1
  have he : t = { u with mem := saved u base ctxRegs u.mem } := by
    rw [ht, saveContext, exec_cons, ← exec_stores (by omega) ctxRegs u hlt hsp]
    rfl
  have hmem : u.mem = s.mem := s.set_mem _ _
  subst he
  refine ⟨hsp, s.set_sscratch _ _, fun r hr => ?_, fun x hx => ?_⟩
  · rw [← hreg r hr]
    exact saved_slot u base r ctxRegs _ hr
  · rw [← hmem]
    exact saved_out u base ctxRegs _ hlt x hx

/-- What holds when `exception_handler` is called: the interrupted context is in
the frame at `base`, `sp` points to it and `sscratch` is 0. -/
structure Entered (s t : TrapState) (base : ℕ) : Prop where
  sp_eq : (t.get sp).toNat = base
  sscratch_eq : t.sscratch = 0
  slot : ∀ r ∈ ctxRegs, t.mem.load (base + 8 * r) 8 = (s.get r).toNat
  slot_sp : t.mem.load (base + 8 * sp) 8 = (userSp s).toNat
  outside : ∀ x, ¬ Frame base x → t.mem x = s.mem x

theorem trapEntry_spec {s : TrapState} (hb : base + 256 = (stackTop s).toNat) :
    Entered s (exec trapEntry s) base := by
  have htop := (stackTop s).isLt
  obtain ⟨w1, w2, w3⟩ := swapSp_spec s
  have hsp : base + 256 = ((swapSp s).get sp).toNat := by rw [w1, if_pos rfl, hb]
  obtain ⟨v1, v2, v3, v4⟩ := exec_saveContext hsp rfl
  rw [trapEntry, exec_append, exec_append, exec_swap]
  generalize exec saveContext (swapSp s) = u at v1 v2 v3 v4 ⊢
  rw [w2] at v2
  have ha : ((u.set t1 u.sscratch).setSscratch (u.get x0)).addr (8 * sp) sp = base + 8 * sp :=
    addr_eq (by simpa [sp, t1] using v1) (by unfold sp; omega)
  simp only [exec, List.foldl_cons, List.foldl_nil, Instr.step, ha]
  refine ⟨?_, ?_, fun r hr => ?_, ?_, fun x hx => ?_⟩
  · simpa [sp, t1, a0, a1, a2, a3] using v1
  · simp [TrapState.get]
  · have := ctxRegs_lt r hr
    have h1 := v3 r hr
    rw [w1, if_neg (by omega)] at h1
    simp only [TrapState.set_mem, TrapState.store_mem, TrapState.setSscratch_mem]
    rw [Mem.load_store_disj _ (by unfold sp at *; omega), h1]
  · simp only [TrapState.set_mem, TrapState.store_mem, TrapState.setSscratch_mem,
      TrapState.setSscratch_get]
    rw [Mem.load_store_self, TrapState.get_set, if_pos ⟨rfl, by decide⟩, v2]
    exact Nat.mod_eq_of_lt (userSp s).isLt
  · have h1 := v4 x hx
    rw [w3] at h1
    unfold Frame at hx
    simp only [TrapState.set_mem, TrapState.store_mem, TrapState.setSscratch_mem]
    rw [Mem.store_out _ (by unfold sp; omega), h1]

/-- What holds after `sret`: the registers are the slots of the frame at `base`,
and `sp` and `sscratch` are exchanged unless the saved `sp` is 0. -/
structure Left (h t : TrapState) (base : ℕ) : Prop where
  slot : ∀ r ∈ ctxRegs, t.get r = BitVec.ofNat 64 (h.mem.load (base + 8 * r) 8)
  sp_eq : (t.get sp).toNat =
    if h.mem.load (base + 8 * sp) 8 = 0 then base + 256 else h.mem.load (base + 8 * sp) 8
  sscratch_eq : t.sscratch.toNat = if h.mem.load (base + 8 * sp) 8 = 0 then 0 else base + 256
  mem_eq : t.mem = h.mem

theorem trapExit_spec {h : TrapState} (hsp : (h.get sp).toNat = base)
    (hb : base + 256 < 2 ^ 64) : Left h (exec trapExit h) base := by
  set v := BitVec.ofNat 64 (h.mem.load (base + 8 * sp) 8) with hv
  have hvn : v.toNat = h.mem.load (base + 8 * sp) 8 := by
    rw [hv, BitVec.toNat_ofNat]
    exact Nat.mod_eq_of_lt (h.mem.load_lt 8 _)
  have hv0 : v = 0 ↔ h.mem.load (base + 8 * sp) 8 = 0 := by
    rw [← hvn, ← BitVec.toNat_inj]
    rfl
  have ha : h.addr (8 * sp) sp = base + 8 * sp := addr_eq hsp (by unfold sp; omega)
  -- `sscratch` gets the saved `sp`, then the registers are loaded
  obtain ⟨w1, w2, w3⟩ := exec_loads (show base + 256 ≤ 2 ^ 64 by omega) ctxRegs
    ((h.set t1 v).setSscratch v) ctxRegs_lt (by simpa [sp, t1] using hsp) _ rfl
  have hsp' : sp ∉ ctxRegs := fun hm => (ctxRegs_lt sp hm).2.2 rfl
  have he : exec trapExit h = swapSp (Instr.step (.addi sp sp 256)
      (exec (ctxRegs.map fun r => .ld r (8 * r) sp) ((h.set t1 v).setSscratch v))) := by
    rw [trapExit, exec_append, exec_append, exec_swap, restoreContext, exec_append, exec_cons,
      exec_cons]
    simp only [Instr.step, ha, ← hv]
    simp [exec, Instr.step, TrapState.set, TrapState.get]
  generalize exec (ctxRegs.map fun r => .ld r (8 * r) sp) ((h.set t1 v).setSscratch v) = u at *
  have hu : (u.get sp).toNat = base := by
    rw [w3, if_neg hsp']
    simpa [sp, t1] using hsp
  have hu' : (u.get sp + 256).toNat = base + 256 := by
    rw [BitVec.toNat_add, hu]
    exact Nat.mod_eq_of_lt hb
  obtain ⟨x1, x2, x3⟩ := swapSp_spec (Instr.step (.addi sp sp 256) u)
  have hscr : (Instr.step (.addi sp sp 256) u).sscratch = v := (u.set_sscratch _ _).trans w2
  have hnew : (Instr.step (.addi sp sp 256) u).get sp = u.get sp + 256 := by
    simp [Instr.step, sp]
  rw [he]
  refine ⟨fun r hr => ?_, ?_, ?_, ?_⟩
  · have := ctxRegs_lt r hr
    rw [x1, if_neg (by omega), Instr.step, TrapState.get_set, if_neg (by omega), w3, if_pos hr]
    simp
  · rw [x1, if_pos rfl, stackTop, hscr, hnew]
    by_cases h0 : v = 0
    · rw [if_pos h0, if_pos (hv0.mp h0), hu']
    · rw [if_neg h0, if_neg (fun h => h0 (hv0.mpr h)), hvn]
  · rw [x2, userSp, hscr, hnew]
    by_cases h0 : v = 0
    · rw [if_pos h0, if_pos (hv0.mp h0)]
      rfl
    · rw [if_neg h0, if_neg (fun h => h0 (hv0.mpr h)), hu']
  · rw [x3, Instr.step, TrapState.set_mem, w1]
    simp

/-! ### The handler in between -/

/-- Whatever the nesting, a handler returns with `sscratch` 0 and the saved
contexts untouched. -/
theorem handler_keeps {s t : TrapState} (h : Handler keep s t) :
    s.sscratch = 0 → t.sscratch = 0 ∧ ∀ x, keep x → t.mem x = s.mem x := by
  induction h with
  | ret s => exact fun h0 => ⟨h0, fun _ _ => rfl⟩
  | code hscr hmem _ ih =>
    intro h0
    obtain ⟨h1, h2⟩ := ih (hscr.trans h0)
    exact ⟨h1, fun x hx => (h2 x hx).trans (hmem x hx)⟩
  | @trap keep s h u hroom hfree _ hbal _ ihIn ihOut =>
    intro h0
    set base := (s.get sp).toNat - 256 with hbase
    have htop : base + 256 = (stackTop s).toNat := by
      rw [stackTop, if_pos h0]
      omega
    have hlt := (stackTop s).isLt
    have hE := trapEntry_spec htop
    obtain ⟨i1, i2⟩ := ihIn hE.sscratch_eq
    have hsp : (h.get sp).toNat = base := by rw [hbal, hE.sp_eq]
    have hL := trapExit_spec hsp (by omega)
    -- the nested handler kept its own frame, so the saved `sp` is still 0
    have hslot : h.mem.load (base + 8 * sp) 8 = 0 := by
      rw [Mem.load_congr fun x hx hx' => i2 x (Or.inr (frame_slot (by decide) hx hx')), hE.slot_sp,
        userSp, if_pos h0]
      rfl
    have hscr : (exec trapExit h).sscratch = 0 := by
      have := hL.sscratch_eq
      rw [if_pos hslot] at this
      exact BitVec.eq_of_toNat_eq this
    obtain ⟨o1, o2⟩ := ihOut hscr
    refine ⟨o1, fun x hx => ?_⟩
    rw [o2 x hx, hL.mem_eq, i2 x (Or.inl hx), hE.outside x fun hf => hfree x hf hx]

/-! ### Transparency -/

/-- A trap whose handler keeps the slot of `r` restores `r`. -/
theorem traps_reg {s t : TrapState}
    (hb : base + 256 = (stackTop s).toNat) (ht : Traps keep s t) (hr : r ∈ ctxRegs)
    (hk : ∀ x, base + 8 * r ≤ x → x < base + 8 * r + 8 → keep x) : t.get r = s.get r := by
  obtain ⟨h, hh, hbal, rfl⟩ := ht
  have hlt := (stackTop s).isLt
  have hE := trapEntry_spec hb
  have hsp : (h.get sp).toNat = base := by rw [hbal, hE.sp_eq]
  have hL := trapExit_spec hsp (by omega)
  have hkeep := (handler_keeps hh hE.sscratch_eq).2
  rw [hL.slot r hr, Mem.load_congr fun x hx hx' => hkeep x (hk x hx hx'), hE.slot r hr]
  exact (BitVec.ofNat_toNat _ _).trans (BitVec.setWidth_eq _)

/-- A trap whose handler keeps the slot of `sp` leaves the stack and `sscratch`
according to the stack pointer that was saved. -/
theorem traps_sp {s t : TrapState}
    (hb : base + 256 = (stackTop s).toNat) (ht : Traps keep s t)
    (hk : ∀ x, base + 8 * sp ≤ x → x < base + 8 * sp + 8 → keep x) :
    t.get sp = (if userSp s = 0 then stackTop s else userSp s) ∧
      t.sscratch = if userSp s = 0 then 0 else stackTop s := by
  obtain ⟨h, hh, hbal, rfl⟩ := ht
  have hlt := (stackTop s).isLt
  have hE := trapEntry_spec hb
  have hsp : (h.get sp).toNat = base := by rw [hbal, hE.sp_eq]
  have hL := trapExit_spec hsp (by omega)
  have hkeep := (handler_keeps hh hE.sscratch_eq).2
  have hslot : h.mem.load (base + 8 * sp) 8 = (userSp s).toNat := by
    rw [Mem.load_congr fun x hx hx' => hkeep x (hk x hx hx'), hE.slot_sp]
  have h0 : userSp s = 0 ↔ (userSp s).toNat = 0 := by
    rw [← BitVec.toNat_inj]
    rfl
  refine ⟨BitVec.eq_of_toNat_eq ?_, BitVec.eq_of_toNat_eq ?_⟩
  · rw [hL.sp_eq, hslot, hb]
    by_cases hu : userSp s = 0
    · rw [if_pos hu, if_pos (h0.mp hu)]
    · rw [if_neg hu, if_neg (fun h => hu (h0.mpr h))]
  · rw [hL.sscratch_eq, hslot, hb]
    by_cases hu : userSp s = 0
    · rw [if_pos hu, if_pos (h0.mp hu)]
      rfl
    · rw [if_neg hu, if_neg (fun h => hu (h0.mpr h))]

/-- The registers of a context: `x0`, `sp` and those `SAVE_CONTEXT` names. -/
theorem reg_cases (hr : r < 32) : r = 0 ∨ r = sp ∨ r ∈ ctxRegs := by
  rw [ctxRegs_mem]
  unfold sp
  omega

section User

variable {K : BitVec 64} {s t : TrapState}

theorem user_stackTop (hK : 256 ≤ K.toNat) (hs : s.sscratch = K) :
    stackTop s = K ∧ userSp s = s.get sp := by
  have hK0 : K ≠ 0 := by
    rintro rfl
    exact absurd hK (by decide)
  rw [stackTop, userSp, hs, if_neg hK0, if_neg hK0]
  exact ⟨rfl, rfl⟩

/-- A U-mode trap restores every register but `a0`, except that with `sp = 0` it
leaves with the S-mode stack pointer in `sp` and 0 in `sscratch`. -/
theorem userTrap_spec (hK : 256 ≤ K.toNat) (hs : s.sscratch = K) (ht : UserTrap s t) :
    (∀ r < 32, r ≠ a0 → r ≠ sp → t.get r = s.get r) ∧
      t.get sp = (if s.get sp = 0 then K else s.get sp) ∧
      t.sscratch = if s.get sp = 0 then 0 else K := by
  obtain ⟨h1, h2⟩ := user_stackTop hK hs
  have hb : (stackTop s).toNat - 256 + 256 = (stackTop s).toNat := by
    rw [h1]
    omega
  refine ⟨fun r hr ha hsp => ?_, ?_⟩
  · rcases reg_cases hr with rfl | rfl | hm
    · rfl
    · exact absurd rfl hsp
    · exact traps_reg hb ht hm fun x => frameButA0_slot hr ha
  · rw [← h1, ← h2]
    exact traps_sp hb ht fun x => frameButA0_slot (by decide) (by decide)

theorem userTrap_iff (hK : 256 ≤ K.toNat) (hs : s.sscratch = K) (ht : UserTrap s t) :
    ((∀ r < 32, r ≠ a0 → t.get r = s.get r) ∧ t.sscratch = K) ↔ s.get sp ≠ 0 := by
  obtain ⟨h1, h2, h3⟩ := userTrap_spec hK hs ht
  constructor
  · rintro ⟨-, hscr⟩ h0
    rw [if_pos h0, hscr] at h3
    rw [h3] at hK
    exact absurd hK (by decide)
  · intro h0
    rw [if_neg h0] at h2 h3
    refine ⟨fun r hr ha => ?_, h3⟩
    by_cases hsp : r = sp
    · rw [hsp, h2]
    · exact h1 r hr ha hsp

end User

/-- An S-mode trap restores every register and the 0 in `sscratch`. -/
theorem supervisorTrap_spec {s t : TrapState} (hroom : 256 ≤ (s.get sp).toNat)
    (hs : s.sscratch = 0) (ht : SupervisorTrap s t) :
    (∀ r < 32, t.get r = s.get r) ∧ t.sscratch = 0 := by
  have h1 : stackTop s = s.get sp := if_pos hs
  have h2 : userSp s = 0 := if_pos hs
  have hb : (stackTop s).toNat - 256 + 256 = (stackTop s).toNat := by
    rw [h1]
    omega
  obtain ⟨h3, h4⟩ := traps_sp hb ht fun x => frame_slot (by decide)
  rw [if_pos h2] at h3 h4
  refine ⟨fun r hr => ?_, h4⟩
  rcases reg_cases hr with rfl | rfl | hm
  · rfl
  · rw [h3, h1]
  · exact traps_reg hb ht hm fun x => frame_slot hr

/-- Once `sscratch` is 0 in U mode, the next trap finds it 0. -/
theorem UserRun.lost {K : BitVec 64} (hK : K ≠ 0) {s u : TrapState} {l : List TrapState}
    (h : UserRun s l u) (hs : s.sscratch = 0) :
    ¬ ((∀ x ∈ l, x.sscratch = K) ∧ u.sscratch = K) := by
  induction h with
  | done s => exact fun hc => hK (hc.2.symm.trans hs)
  | code hcode _ ih => exact ih (hcode.trans hs)
  | trap _ _ _ => exact fun hc => hK ((hc.1 _ List.mem_cons_self).symm.trans hs)

theorem userRun_iff {K : BitVec 64} (hK : 256 ≤ K.toNat) {s u : TrapState} {l : List TrapState}
    (h : UserRun s l u) (hs : s.sscratch = K) :
    ((∀ x ∈ l, x.sscratch = K) ∧ u.sscratch = K) ↔ ∀ x ∈ l, x.get sp ≠ 0 := by
  have hK0 : K ≠ 0 := by
    rintro rfl
    exact absurd hK (by decide)
  induction h with
  | done s => simpa using hs
  | code hcode _ ih => exact ih (hcode.trans hs)
  | @trap s t u l ht hrun ih =>
    have hscr := (userTrap_spec hK hs ht).2.2
    by_cases h0 : s.get sp = 0
    · rw [if_pos h0] at hscr
      refine ⟨fun hc => ?_, fun hc => absurd h0 (hc s List.mem_cons_self)⟩
      exact absurd ⟨fun x hx => hc.1 x (List.mem_cons_of_mem _ hx), hc.2⟩ (hrun.lost hK0 hscr)
    · rw [if_neg h0] at hscr
      simp only [List.forall_mem_cons, hs, h0, ne_eq, not_false_iff, true_and]
      exact ih hscr

/-- **Traps are transparent exactly when the user `sp` is not 0.** A trap from U
mode entered with the S-mode stack pointer `K` in `sscratch` restores every
register but `a0` and leaves `K` in `sscratch` if and only if the user `sp` is
not 0; a trap from S mode always restores all registers and the 0; and in a run
of the payload every trap finds `K` in `sscratch` (so runs on the stack of the
manager), to the end of the run, if and only if no trap is taken with
`sp = 0`. -/
theorem trap_transparent_iff (K : BitVec 64) (hK : 256 ≤ K.toNat) :
    (∀ s t, s.sscratch = K → UserTrap s t →
      (((∀ r < 32, r ≠ a0 → t.get r = s.get r) ∧ t.sscratch = K) ↔ s.get sp ≠ 0)) ∧
    (∀ s t, 256 ≤ (s.get sp).toNat → s.sscratch = 0 → SupervisorTrap s t →
      (∀ r < 32, t.get r = s.get r) ∧ t.sscratch = 0) ∧
    ∀ s l u, s.sscratch = K → UserRun s l u →
      (((∀ x ∈ l, x.sscratch = K ∧ stackTop x = K) ∧ u.sscratch = K) ↔ ∀ x ∈ l, x.get sp ≠ 0) := by
  refine ⟨fun s t hs ht => userTrap_iff hK hs ht,
    fun s t hroom hs ht => supervisorTrap_spec hroom hs ht, fun s l u hs h => ?_⟩
  rw [← userRun_iff hK h hs]
  have hx : ∀ x : TrapState, x.sscratch = K ∧ stackTop x = K ↔ x.sscratch = K := fun x =>
    ⟨And.left, fun h => ⟨h, (user_stackTop hK h).1⟩⟩
  simp only [hx]

/-- U-mode state with every register 0 but `sp`, and `sscratch` the S-mode
stack pointer `0x1000`. -/
def userState (userSp : BitVec 64) : TrapState :=
  ⟨Function.update (fun _ => 0) sp userSp, 0x1000, 0, 8, 0, fun _ => 0⟩

theorem userState_traps (v : BitVec 64) :
    UserTrap (userState v) (exec trapExit (exec trapEntry (userState v))) :=
  ⟨_, .ret _, rfl, rfl⟩

theorem trap_transparent_iff_call :
    (∀ r < 32, r ≠ a0 → (exec trapExit (exec trapEntry (userState 0x3fff000000))).get r =
        (userState 0x3fff000000).get r) ∧
      (exec trapExit (exec trapEntry (userState 0x3fff000000))).sscratch = 0x1000 :=
  ((trap_transparent_iff 0x1000 (by decide)).1 _ _ rfl (userState_traps 0x3fff000000)).mpr (by decide)

/-- **A zero stack pointer breaks the exit.** A trap taken with `sp = 0`, whose
handler changes nothing, leaves U mode with the S-mode stack pointer in `sp` and
0 in `sscratch`: the next trap runs on whatever `sp` U mode has then. -/
theorem trap_leaks : UserTrap (userState 0) (exec trapExit (exec trapEntry (userState 0))) ∧
    (exec trapExit (exec trapEntry (userState 0))).get sp = 0x1000 ∧
    (userState 0).get sp = 0 ∧
    (exec trapExit (exec trapEntry (userState 0))).sscratch = 0 := by
  obtain ⟨-, h1, h2⟩ := userTrap_spec (K := 0x1000) (by decide) rfl (userState_traps 0)
  rw [if_pos (by decide)] at h1 h2
  exact ⟨userState_traps 0, h1, by decide, h2⟩

end Trap
end Coffer
