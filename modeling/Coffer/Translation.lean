/-
# What the page table translates

The memory is seen as a family of tables by page number (`tables`), and
`Sys.leaf` is the leaf an address finds there. The mask-and-shift walker
computes it (`walkPageTable_eq`), so `get_pa` is a function of it.

`PtInv` is the invariant of the tables: a tree rooted at `page_table_root`
whose other tables are pages of the S-mode pool, with zero words for absent
entries and the pool's unused pages zero. Under it `map_page` and `unmap_page`
change `Sys.leaf` on the addresses of their own page and nowhere else
(`mapPage_spec`, `unmapPage_spec`), and change no byte outside the root table
and the S-mode pool (`PtFrame`).
-/
import Coffer.PageTable

namespace Coffer

open Lib

variable {deep path us : List (Fin 512)} {flags n p pa q table va va' x : ℕ}
  {i last vpn : Fin 512} {level : Level} {m : Mem} {pte : Pte} {s' s'' : Sys}

/-! ### The memory as a family of tables -/

/-- The entry of the table in page `p`. -/
def pteAt (m : Mem) (p : ℕ) (i : Fin 512) : Pte := .ofNat (m.load (0x1000 * p + 8 * i) 8)

/-- What an entry means to a walker. -/
def Pte.entry (pte : Pte) : Radix.Entry ℕ Pte :=
  if pte.v = false then .empty else if pte.isLeaf then .leaf pte else .ptr pte.ppn.toNat

/-- The tables in memory, by page number. -/
def tables (m : Mem) : Radix.Tables ℕ (Fin 512) Pte := fun p i => (pteAt m p i).entry

theorem Pte.entry_empty (h : pte.v = false) : pte.entry = .empty := if_pos h

theorem Pte.entry_leaf (h : pte.v = true) (hl : pte.isLeaf = true) :
    pte.entry = .leaf pte := by
  simp [Pte.entry, h, hl]

theorem Pte.entry_ptr (h : pte.v = true) (hl : pte.isLeaf = false) :
    pte.entry = .ptr pte.ppn.toNat := by
  simp [Pte.entry, h, hl]

theorem tables_empty (h : (pteAt m p i).v = false) :
    tables m p i = .empty := by rw [tables, Pte.entry_empty h]

theorem tables_leaf (h : (pteAt m p i).v = true)
    (hl : (pteAt m p i).isLeaf = true) : tables m p i = .leaf (pteAt m p i) := by
  rw [tables, Pte.entry_leaf h hl]

theorem tables_ptr (h : (pteAt m p i).v = true)
    (hl : (pteAt m p i).isLeaf = false) : tables m p i = .ptr (pteAt m p i).ppn.toNat := by
  rw [tables, Pte.entry_ptr h hl]

theorem tables_eq_empty (h : tables m p i = .empty) :
    (pteAt m p i).v = false := by
  by_contra hv
  have hv' : (pteAt m p i).v = true := by simpa using hv
  cases hl : (pteAt m p i).isLeaf with
  | false =>
    rw [tables_ptr hv' hl] at h
    cases h
  | true =>
    rw [tables_leaf hv' hl] at h
    cases h

theorem tables_eq_leaf (h : tables m p i = .leaf pte) :
    pteAt m p i = pte ∧ (pteAt m p i).v = true := by
  unfold tables Pte.entry at h
  split at h
  · cases h
  · rename_i hv
    split at h
    · simp only [Radix.Entry.leaf.injEq] at h
      exact ⟨h, by simpa using hv⟩
    · cases h

theorem tables_eq_ptr (h : tables m p i = .ptr q) :
    (pteAt m p i).ppn.toNat = q ∧ (pteAt m p i).v = true := by
  unfold tables Pte.entry at h
  split at h
  · cases h
  · rename_i hv
    split at h
    · cases h
    · simp only [Radix.Entry.ptr.injEq] at h
      exact ⟨h, by simpa using hv⟩

theorem pteAt_store_self (m : Mem) (p : ℕ) (i : Fin 512) (pte : Pte) :
    pteAt (m.store (0x1000 * p + 8 * i) 8 pte.toNat) p i = pte := by
  unfold pteAt
  rw [Mem.load_store_self, Nat.mod_eq_of_lt (by exact pte.toNat_lt), Pte.ofNat_toNat]

theorem pteAt_store_other (m : Mem) {j : Fin 512} (v : ℕ) (h : q ≠ p ∨ j ≠ i) :
    pteAt (m.store (0x1000 * p + 8 * i) 8 v) q j = pteAt m q j := by
  have hi := i.isLt
  have hj := j.isLt
  have hne : q ≠ p ∨ (j : ℕ) ≠ i := h.imp_right fun hji hv => hji (Fin.ext hv)
  unfold pteAt
  rw [Mem.load_store_disj _ (by omega)]

/-- Writing an entry writes one entry of one table. -/
theorem tables_store (m : Mem) (p : ℕ) (i : Fin 512) (pte : Pte) :
    tables (m.store (0x1000 * p + 8 * i) 8 pte.toNat) = Radix.write (tables m) p i pte.entry := by
  funext q j
  by_cases h : q = p ∧ j = i
  · obtain ⟨rfl, rfl⟩ := h
    rw [Radix.write_self, tables, pteAt_store_self]
  · have h' : q ≠ p ∨ j ≠ i := by tauto
    rw [Radix.write_other _ h', tables, pteAt_store_other m _ h', tables]

/-- The indices of an address, from the root down. -/
def vpns (va : ℕ) : List (Fin 512) := [getVpn va 2, getVpn va 1, getVpn va 0]

/-- The level of a leaf that leaves `n` indices unused. -/
def Level.ofRest : ℕ → Level
  | 0 => .page
  | 1 => .mega
  | _ => .giga

namespace Sys

/-- The page of the root table. -/
def rootPage (s : Sys) : ℕ := s.tableRoot / 0x1000

/-- The leaf that translates `va`, and its level. -/
def leaf (s : Sys) (va : ℕ) : Option (Level × Pte) :=
  (Radix.walk (tables s.mem) s.rootPage (vpns va)).map fun (rest, pte) =>
    (Level.ofRest rest.length, pte)

/-- The leaf of `va` at a given level. -/
def leafAt (s : Sys) (va : ℕ) (level : Level) : Option Pte :=
  match s.leaf va with
  | some (l, pte) => if l = level then some pte else none
  | none => none

/-! ### The walker for reads -/

theorem walkLoop_eq (s : Sys) (is : List (Fin 512)) (p i : ℕ) :
    (s.walkLoop (0x1000 * p) (is.map Fin.val) i).2 =
      (Radix.walk (tables s.mem) p is).map fun (rest, pte) =>
        (i + is.length - 1 - rest.length, pte) := by
  induction is generalizing p i with
  | nil => rfl
  | cons j is ih =>
    have hr : s.readPte (0x1000 * p + 8 * (j : ℕ)) = pteAt s.mem p j := by rw [readPte, pteAt]
    simp only [List.map_cons, walkLoop, hr]
    by_cases hv : (pteAt s.mem p j).v = false
    · rw [if_pos hv, Radix.walk_empty (tables_empty hv)]
      rfl
    · have hv' : (pteAt s.mem p j).v = true := by simpa using hv
      rw [if_neg hv]
      by_cases hl : (pteAt s.mem p j).isLeaf = true
      · rw [if_pos hl, Radix.walk_leaf (tables_leaf hv' hl)]
        simp
      · have hl' : (pteAt s.mem p j).isLeaf = false := by simpa using hl
        rw [if_neg hl, Radix.walk_ptr (tables_ptr hv' hl'), ih, List.length_cons,
          show i + 1 + is.length = i + (is.length + 1) by omega]

/-- The walk prints nothing when it finds a leaf. -/
theorem walkLoop_out (s : Sys) (offsets : List ℕ) (root i : ℕ) (x : ℕ × Pte)
    (h : (s.walkLoop root offsets i).2 = some x) : (s.walkLoop root offsets i).1 = [] := by
  induction offsets generalizing root i with
  | nil => rfl
  | cons offset offsets ih =>
    simp only [walkLoop] at h ⊢
    generalize s.readPte (root + 8 * offset) = entry at h ⊢
    by_cases hv : entry.v = false
    · simp only [if_pos hv] at h
      cases h
    · rw [if_neg hv] at h ⊢
      by_cases hl : entry.isLeaf = true
      · simp only [if_pos hl]
      · rw [if_neg hl] at h ⊢
        exact ih _ _ h

end Sys

/-- The two ways of cutting an address into indices agree. -/
theorem layerOffset_eq (va : ℕ) : layerOffset va = (vpns va).map Fin.val := by
  have h : ∀ k, (va &&& (511 <<< k)) >>> k = va / 2 ^ k % 512 := fun k => by
    rw [Nat.shiftRight_and_distrib, Nat.shiftLeft_shiftRight, Nat.shiftRight_eq_div_pow]
    exact Nat.and_two_pow_sub_one_eq_mod _ 9
  have h2 := h 30
  have h1 := h 21
  have h0 := h 12
  simp only [Nat.reduceShiftLeft] at h2 h1 h0
  simp only [layerOffset, vpns, getVpn, List.map_cons, List.map_nil, h2, h1, h0]
  rfl

namespace Sys

theorem walkPageTable_eq {s : Sys} (hs : s.tableRoot % 0x1000 = 0) (va : ℕ) :
    (s.walkPageTable va).2 = (s.leaf va).map fun (level, pte) => (level.toNat, pte) := by
  have hroot : s.tableRoot = 0x1000 * s.rootPage := by
    unfold rootPage
    omega
  rw [walkPageTable, layerOffset_eq, hroot, walkLoop_eq, leaf, Option.map_map]
  cases hw : Radix.walk (tables s.mem) s.rootPage (vpns va) with
  | none => rfl
  | some x =>
    obtain ⟨rest, pte⟩ := x
    have hlt := Radix.walk_rest_length hw
    simp only [vpns, List.length_cons, List.length_nil, Option.map_some, Function.comp] at hlt ⊢
    interval_cases rest.length <;> rfl

theorem getPa_leaf {s : Sys} (hs : s.tableRoot % 0x1000 = 0)
    (h : s.leaf va = some (level, pte)) :
    s.getPa va = ([], add64 (0x1000 * pte.ppn.toNat % 2 ^ 44) (va % level.size)) := by
  have h1 := walkPageTable_eq hs va
  rw [h, Option.map_some] at h1
  have h2 : (s.walkPageTable va).1 = [] := walkLoop_out s _ _ _ _ h1
  have hm : (2 ^ (12 + (2 - level.toNat) * 9) - 1) &&& va = va % level.size := by
    rw [Nat.and_comm, Nat.and_two_pow_sub_one_eq_mod]
    cases level <;> rfl
  unfold getPa
  split
  · rename_i hw
    rw [hw] at h1
    cases h1
  · rename_i hw
    rw [hw] at h1 h2
    cases h1
    cases h2
    simp only [hm]

theorem getPa_none {s : Sys} (hs : s.tableRoot % 0x1000 = 0) (h : s.leaf va = none) :
    (s.getPa va).2 = 0 ∧ getPa.notValid va ∈ (s.getPa va).1 := by
  have h1 := walkPageTable_eq hs va
  rw [h, Option.map_none] at h1
  unfold getPa
  split
  · simp
  · rename_i hw
    rw [hw] at h1
    cases h1

end Sys

/-! ### The invariant -/

/-- Where table entries can be: the root table and the S-mode pool. -/
def Sys.TableRange (s : Sys) (x : ℕ) : Prop :=
  (s.tableRoot ≤ x ∧ x < s.tableRoot + 0x1000) ∨
    (s.poolStart .smode ≤ x ∧ x < s.poolStart .smode + s.smodePool.size)

/-- The S-mode pool and the root table are page-aligned and apart, and what the
pool has not handed out is zero. -/
structure PtEnv (s : Sys) : Prop where
  root_aligned : s.tableRoot % 0x1000 = 0
  pool_aligned : s.poolStart .smode % 0x1000 = 0
  pool_end : s.poolStart .smode + s.smodePool.size ≤ 2 ^ 56
  apart : s.tableRoot + 0x1000 ≤ s.poolStart .smode ∨
    s.poolStart .smode + s.smodePool.size ≤ s.tableRoot
  used_le : 0x1000 * s.smodePool.usedPageCount ≤ s.smodePool.size
  fresh : ∀ x, s.poolStart .smode + 0x1000 * s.smodePool.usedPageCount ≤ x →
    x < s.poolStart .smode + s.smodePool.size → s.mem x = 0

/-- The tables form a tree with the ghost paths `owner`: they are the root and
pages of the pool, and each of their entries is zero, a leaf, or a pointer as
`get_leaf_pte` writes it. -/
structure PtShape (s : Sys) (owner : ℕ → Option (List (Fin 512))) : Prop extends PtEnv s where
  shape : Radix.Shape (tables s.mem) s.rootPage owner
  entries : ∀ p path, owner p = some path → ∀ i, pteAt s.mem p i = Pte.zero ∨
    ((pteAt s.mem p i).v = true ∧ (pteAt s.mem p i).isLeaf = true) ∨
    ∃ q, pteAt s.mem p i = Pte.pointer q
  owned : ∀ p path, owner p = some path → p = s.rootPage ∨
    (s.poolStart .smode ≤ 0x1000 * p ∧
      0x1000 * p + 0x1000 ≤ s.poolStart .smode + 0x1000 * s.smodePool.usedPageCount)

/-- The page table is in order. -/
def PtInv (s : Sys) : Prop := ∃ owner, PtShape s owner

/-- What the page-table code leaves alone: all but the bytes of tables and the
count of used pages of the S-mode pool. -/
structure PtFrame (s s' : Sys) : Prop where
  rest : s' = { s with mem := s'.mem, smodePool := s'.smodePool }
  offset : s'.smodePool.offset = s.smodePool.offset
  size : s'.smodePool.size = s.smodePool.size
  mem : ∀ x, ¬ s.TableRange x → s'.mem x = s.mem x

namespace PtFrame

theorem refl (s : Sys) : PtFrame s s := ⟨rfl, rfl, rfl, fun _ _ => rfl⟩

theorem poolStart {s : Sys} (h : PtFrame s s') : s'.poolStart .smode = s.poolStart .smode := by
  rw [h.rest]
  simp only [Sys.poolStart, Sys.getEmodManagerPaStart, h.offset]

theorem tableRoot {s : Sys} (h : PtFrame s s') : s'.tableRoot = s.tableRoot := by rw [h.rest]

theorem rootPage {s : Sys} (h : PtFrame s s') : s'.rootPage = s.rootPage := by
  rw [Sys.rootPage, h.tableRoot, Sys.rootPage]

theorem tableRange {s : Sys} (h : PtFrame s s') (x : ℕ) : s'.TableRange x ↔ s.TableRange x := by
  rw [Sys.TableRange, h.tableRoot, h.poolStart, h.size, Sys.TableRange]

theorem trans {s : Sys} (h : PtFrame s s') (h' : PtFrame s' s'') : PtFrame s s'' := by
  refine ⟨?_, h'.offset.trans h.offset, h'.size.trans h.size, fun x hx => ?_⟩
  · rw [h'.rest, h.rest]
  · rw [h'.mem x (by rwa [h.tableRange]), h.mem x hx]

end PtFrame

/-- The tables in use are the root and pages the pool has handed out. -/
structure PtOwned (s : Sys) (owner : ℕ → Option (List (Fin 512))) : Prop extends PtEnv s where
  owned : ∀ p path, owner p = some path → p = s.rootPage ∨
    (s.poolStart .smode ≤ 0x1000 * p ∧
      0x1000 * p + 0x1000 ≤ s.poolStart .smode + 0x1000 * s.smodePool.usedPageCount)

theorem PtEnv.root_eq {s : Sys} (h : PtEnv s) : s.tableRoot = 0x1000 * s.rootPage := by
  have := h.root_aligned
  unfold Sys.rootPage
  omega

namespace PtOwned

variable {s : Sys} {owner : ℕ → Option (List (Fin 512))}

/-- The bytes of a table in use are in the range of tables, and not among the
pages the pool still has. -/
theorem owned_range (h : PtOwned s owner) (hp : owner p = some path)
    (hx : 0x1000 * p ≤ x) (hx' : x < 0x1000 * p + 0x1000) : s.TableRange x ∧
      ¬ (s.poolStart .smode + 0x1000 * s.smodePool.usedPageCount ≤ x ∧
        x < s.poolStart .smode + s.smodePool.size) := by
  have hr := h.root_eq
  have hu := h.used_le
  have ha := h.apart
  rcases h.owned p path hp with rfl | ⟨h1, h2⟩
  · refine ⟨Or.inl ⟨by omega, by omega⟩, ?_⟩
    omega
  · refine ⟨Or.inr ⟨by omega, by omega⟩, ?_⟩
    omega

theorem store_frame (h : PtOwned s owner) (hp : owner p = some path)
    (i : Fin 512) (v : ℕ) :
    PtFrame s { s with mem := s.mem.store (0x1000 * p + 8 * i) 8 v } := by
  have hi := i.isLt
  refine ⟨rfl, rfl, rfl, fun x hx => ?_⟩
  refine Mem.store_out _ ?_
  by_contra hc
  exact hx (h.owned_range hp (x := x) (by omega) (by omega)).1

/-- A word is written into a table in use. -/
theorem write (h : PtOwned s owner) (hp : owner p = some path)
    (i : Fin 512) (v : ℕ) : PtOwned { s with mem := s.mem.store (0x1000 * p + 8 * i) 8 v } owner := by
  have hi := i.isLt
  refine { h with fresh := fun x hx hx' => ?_ }
  rw [← h.fresh x hx hx']
  refine Mem.store_out _ ?_
  by_contra hc
  exact (h.owned_range hp (x := x) (by omega) (by omega)).2 ⟨hx, hx'⟩

/-- The page the pool hands out next. -/
theorem alloc (h : PtOwned s owner) {s1 : Sys} (ha : s.allocSmodePage 1 = .ok (pa, s1)) :
    ∃ q, pa = 0x1000 * q ∧ pa = s.poolStart .smode + 0x1000 * s.smodePool.usedPageCount ∧
      pa + 0x1000 ≤ s.poolStart .smode + s.smodePool.size ∧
      s1 = s.setUsedPageCount (s.smodePool.usedPageCount + 1) .smode ∧ owner q = none ∧
      ∀ j, pteAt s.mem q j = Pte.zero := by
  obtain ⟨hp, hpa, hs1⟩ := Sys.allocPage_ok ha
  have hu := h.used_le
  have he := h.pool_end
  have hal := h.pool_aligned
  have hap := h.apart
  have hw : s.getUsedPageCount .smode = s.smodePool.usedPageCount := rfl
  have hpool : (s.pool .smode).size = s.smodePool.size := rfl
  rw [Sys.outOfPages_iff (by omega), hw, hpool] at hp
  rw [hw, add64_eq (by omega)] at hs1
  rw [Sys.getPoolTop, hw, mul64_eq (by omega), add64_eq (by omega)] at hpa
  refine ⟨pa / 0x1000, by omega, hpa, by omega, hs1, ?_, fun j => ?_⟩
  · cases ho : owner (pa / 0x1000) with
    | none => rfl
    | some path =>
      exfalso
      have h1 := h.root_eq
      rcases h.owned _ _ ho with h2 | ⟨h2, h3⟩ <;> omega
  · have hj := j.isLt
    unfold pteAt
    rw [Mem.load_zero, Pte.ofNat_zero]
    intro x hx hx'
    exact h.fresh x (by omega) (by omega)

/-- With one more page handed out and a word written into a table in use, the
pool is still in order. -/
theorem env_grow (h : PtOwned s owner) {v : ℕ} (hp : owner p = some path)
    (i : Fin 512) (hs' : s' = { s.setUsedPageCount (s.smodePool.usedPageCount + 1) .smode with
      mem := s.mem.store (0x1000 * p + 8 * i) 8 v })
    (hle : 0x1000 * (s.smodePool.usedPageCount + 1) ≤ s.smodePool.size) :
    PtEnv s' ∧ PtFrame s s' ∧ s'.smodePool.usedPageCount = s.smodePool.usedPageCount + 1 := by
  have hil := i.isLt
  have hframe : PtFrame s s' := by
    subst hs'
    exact ⟨rfl, rfl, rfl, (h.store_frame hp i v).mem⟩
  have hused : s'.smodePool.usedPageCount = s.smodePool.usedPageCount + 1 := by
    rw [hs']
    rfl
  refine ⟨⟨?_, ?_, ?_, ?_, ?_, fun x => ?_⟩, hframe, hused⟩
  · rw [hframe.tableRoot]
    exact h.root_aligned
  · rw [hframe.poolStart]
    exact h.pool_aligned
  · rw [hframe.poolStart, hframe.size]
    exact h.pool_end
  · rw [hframe.poolStart, hframe.size, hframe.tableRoot]
    exact h.apart
  · rw [hframe.size, hused]
    exact hle
  · rw [hframe.poolStart, hframe.size, hused]
    intro hx hx'
    rw [← h.fresh x (by omega) hx', hs']
    refine Mem.store_out _ ?_
    by_contra hc
    exact (h.owned_range hp (x := x) (by omega) (by omega)).2 ⟨by omega, hx'⟩

/-- The page handed out is a table too. -/
theorem grow (h : PtOwned s owner) {v : ℕ} (hp : owner p = some path)
    (i : Fin 512) (path' : List (Fin 512)) (hs' : s' = { s.setUsedPageCount (s.smodePool.usedPageCount + 1) .smode with
      mem := s.mem.store (0x1000 * p + 8 * i) 8 v })
    (hq : 0x1000 * q = s.poolStart .smode + 0x1000 * s.smodePool.usedPageCount)
    (hle : 0x1000 * q + 0x1000 ≤ s.poolStart .smode + s.smodePool.size) :
    PtOwned s' (Function.update owner q (some path')) ∧ PtFrame s s' := by
  obtain ⟨henv, hframe, hused⟩ := h.env_grow hp i hs' (by omega)
  refine ⟨{ toPtEnv := henv, owned := fun r ρ hr => ?_ }, hframe⟩
  rw [hframe.poolStart, hframe.rootPage, hused]
  by_cases hrq : r = q
  · subst hrq
    right
    omega
  · rw [Function.update_of_ne hrq] at hr
    rcases h.owned r ρ hr with h1 | ⟨h1, h2⟩
    · exact Or.inl h1
    · right
      omega

end PtOwned

namespace PtShape

variable {s : Sys} {owner : ℕ → Option (List (Fin 512))}

theorem toOwned (h : PtShape s owner) : PtOwned s owner := { h.toPtEnv with owned := h.owned }

/-- Writing zero or a leaf into a table. -/
theorem write_end (h : PtShape s owner) (hp : owner p = some path)
    (i : Fin 512) (hpte : pte = Pte.zero ∨ (pte.v = true ∧ pte.isLeaf = true)) :
    PtShape (s.writePte (0x1000 * p + 8 * i) pte) owner := by
  have he : ∀ q, pte.entry ≠ .ptr q := by
    intro q
    rcases hpte with rfl | ⟨h1, h2⟩
    · rw [Pte.entry_empty rfl]
      simp
    · rw [Pte.entry_leaf h1 h2]
      simp
  refine { h.toOwned.write hp i pte.toNat with shape := ?_, entries := ?_ }
  · rw [Sys.writePte, tables_store]
    exact h.shape.write_end p i he
  · intro q path' hq j
    by_cases hc : q = p ∧ j = i
    · obtain ⟨rfl, rfl⟩ := hc
      rw [Sys.writePte, pteAt_store_self]
      exact hpte.imp id Or.inl
    · rw [Sys.writePte, pteAt_store_other _ _ (by tauto)]
      exact h.entries q path' hq j

/-- Hanging the next page of the pool into an entry. -/
theorem write_fresh (h : PtShape s owner) (hp : owner p = some path)
    (i : Fin 512) {s1 : Sys} (ha : s.allocSmodePage 1 = .ok (pa, s1))
    (hs' : s' = s1.writePte (0x1000 * p + 8 * i) (Pte.pointer (BitVec.ofNat 44 (pa / 0x1000)))) :
    ∃ q, pa = 0x1000 * q ∧ PtShape s' (Function.update owner q (some (path ++ [i]))) ∧
      PtFrame s s' ∧ tables s'.mem = Radix.write (tables s.mem) p i (.ptr q) ∧ owner q = none ∧
      ∀ j, tables s.mem q j = .empty := by
  obtain ⟨q, hpa, hpa', hle, hs1, ho, hz⟩ := h.toOwned.alloc ha
  have he := h.pool_end
  have hq : (BitVec.ofNat 44 (pa / 0x1000)).toNat = q := by
    rw [BitVec.toNat_ofNat, Nat.mod_eq_of_lt (by omega)]
    omega
  have hempty : ∀ j, tables s.mem q j = .empty := fun j => by
    refine tables_empty ?_
    rw [hz j]
    rfl
  rw [hs1, Sys.writePte, Sys.mem_setUsedPageCount] at hs'
  obtain ⟨hown, hframe⟩ := h.toOwned.grow (q := q) hp i (path ++ [i]) hs' (by omega) (by omega)
  have htab : tables s'.mem = Radix.write (tables s.mem) p i (.ptr q) := by
    rw [hs', tables_store, Pte.entry_ptr rfl rfl, ← hq]
    rfl
  refine ⟨q, hpa, { hown with shape := ?_, entries := ?_ }, hframe, htab, ho, hempty⟩
  · rw [htab, hframe.rootPage]
    exact h.shape.write_fresh hp ho hempty
  · intro r path' hr j
    rw [hs']
    by_cases hc : r = p ∧ j = i
    · obtain ⟨rfl, rfl⟩ := hc
      rw [pteAt_store_self]
      exact Or.inr (Or.inr ⟨_, rfl⟩)
    · rw [pteAt_store_other _ _ (by tauto)]
      by_cases hrq : r = q
      · subst hrq
        exact Or.inl (hz j)
      · rw [Function.update_of_ne hrq] at hr
        exact h.entries r path' hr j

end PtShape

/-- The U-mode pool and the break are no business of the page table. -/
theorem PtInv.of_eq {s : Sys} (h : PtInv s) (hm : s'.mem = s.mem) (ht : s'.tableRoot = s.tableRoot)
    (hp : s'.smodePool = s.smodePool) (hst : s'.poolStart .smode = s.poolStart .smode) : PtInv s' := by
  obtain ⟨owner, hS⟩ := h
  have hroot : s'.rootPage = s.rootPage := by rw [Sys.rootPage, ht, Sys.rootPage]
  refine ⟨owner, { toPtEnv := ?_, shape := ?_, entries := ?_, owned := ?_ }⟩
  · refine ⟨?_, ?_, ?_, ?_, ?_, ?_⟩
    · rw [ht]
      exact hS.root_aligned
    · rw [hst]
      exact hS.pool_aligned
    · rw [hst, hp]
      exact hS.pool_end
    · rw [hst, hp, ht]
      exact hS.apart
    · rw [hp]
      exact hS.used_le
    · rw [hst, hp, hm]
      exact hS.fresh
  · rw [hm, hroot]
    exact hS.shape
  · rw [hm]
    exact hS.entries
  · rw [hst, hp, hroot]
    exact hS.owned

theorem Sys.leaf_of_eq {s : Sys} (hm : s'.mem = s.mem) (ht : s'.tableRoot = s.tableRoot) (x : ℕ) :
    s'.leaf x = s.leaf x := by
  rw [Sys.leaf, Sys.leaf, Sys.rootPage, Sys.rootPage, hm, ht]

theorem Sys.tableRange_of_eq {s : Sys} (ht : s'.tableRoot = s.tableRoot)
    (hp : s'.smodePool = s.smodePool) (hst : s'.poolStart .smode = s.poolStart .smode) (x : ℕ) :
    s'.TableRange x ↔ s.TableRange x := by
  rw [Sys.TableRange, Sys.TableRange, ht, hp, hst]

/-- Memory outside the tables is no business of theirs. -/
theorem PtInv.of_mem {s : Sys} (h : PtInv s) (hs' : s' = { s with mem := s'.mem })
    (hm : ∀ x, s.TableRange x → s'.mem x = s.mem x) :
    PtInv s' ∧ ∀ va, s'.leaf va = s.leaf va := by
  obtain ⟨owner, hS⟩ := h
  have hroot : s'.rootPage = s.rootPage := by rw [hs']; rfl
  have hpool : s'.smodePool = s.smodePool := by rw [hs']
  have hstart : s'.poolStart .smode = s.poolStart .smode := by rw [hs']; rfl
  have htab : s'.tableRoot = s.tableRoot := by rw [hs']
  have hpte : ∀ p path, owner p = some path → ∀ i, pteAt s'.mem p i = pteAt s.mem p i := by
    intro p path hp i
    have hi := i.isLt
    unfold pteAt
    rw [Mem.load_congr]
    intro x hx hx'
    exact hm x (hS.toOwned.owned_range hp (x := x) (by omega) (by omega)).1
  have hT : ∀ p path, owner p = some path → ∀ i, tables s'.mem p i = tables s.mem p i :=
    fun p path hp i => by rw [tables, hpte p path hp i, tables]
  refine ⟨⟨owner, { toPtEnv := ?_, shape := ?_, entries := ?_, owned := ?_ }⟩, fun va => ?_⟩
  · refine ⟨?_, ?_, ?_, ?_, ?_, fun x hx hx' => ?_⟩
    · rw [htab]
      exact hS.root_aligned
    · rw [hstart]
      exact hS.pool_aligned
    · rw [hstart, hpool]
      exact hS.pool_end
    · rw [hstart, hpool, htab]
      exact hS.apart
    · rw [hpool]
      exact hS.used_le
    · rw [hstart, hpool] at hx hx'
      rw [hm x (Or.inr ⟨by omega, hx'⟩), hS.fresh x hx hx']
  · rw [hroot]
    refine ⟨hS.shape.root_owner, fun {p} {q} {path} {i} hp hE => ?_⟩
    rw [hT p path hp i] at hE
    exact hS.shape.ptr_owner hp hE
  · intro p path hp i
    rw [hpte p path hp i]
    exact hS.entries p path hp i
  · intro p path hp
    rw [hroot, hstart, hpool]
    exact hS.owned p path hp
  · rw [Sys.leaf, hroot, Radix.walk_congr hS.shape hS.shape.root_owner
      (fun q ρ i hq _ => hT q ρ hq i), Sys.leaf]

/-! ### The walker for writes -/

/-- What the descent of `get_leaf_pte` keeps: the table it has reached is the
one `path` leads to, and no address translates differently. -/
structure Descent (s s' : Sys) (path : List (Fin 512)) (p : ℕ) : Prop where
  inv : ∃ owner, PtShape s' owner
  frame : PtFrame s s'
  reach : Radix.descend (tables s'.mem) s.rootPage path = some p
  same : ∀ is, Radix.walk (tables s'.mem) s.rootPage is = Radix.walk (tables s.mem) s.rootPage is

theorem Descent.refl {s : Sys} (h : PtInv s) : Descent s s [] s.rootPage :=
  ⟨h, PtFrame.refl s, rfl, fun _ => rfl⟩

/-- One round of the loop, where the walker does not run into a leaf: it follows a pointer, or
hangs the next page of the pool into an empty entry. -/
theorem PtShape.nextTable {s : Sys} {owner : ℕ → Option (List (Fin 512))} (hS : PtShape s owner)
    (hp : owner p = some path)
    (hn : ∀ pte, tables s.mem p vpn ≠ .leaf pte)
    (hr : s.nextTable (0x1000 * p) vpn true = .ok (table, s')) :
    ∃ q, table = 0x1000 * q ∧
      ((tables s.mem p vpn = .ptr q ∧ s' = s) ∨
        (tables s.mem p vpn = .empty ∧ owner q = none ∧ (∀ j, tables s.mem q j = .empty) ∧
          PtShape s' (Function.update owner q (some (path ++ [vpn]))) ∧ PtFrame s s' ∧
          tables s'.mem = Radix.write (tables s.mem) p vpn (.ptr q))) := by
  have he : s.readPte (0x1000 * p + 8 * (vpn : ℕ)) = pteAt s.mem p vpn := by
    rw [Sys.readPte, pteAt]
  simp only [Sys.nextTable, he] at hr
  by_cases hv : (pteAt s.mem p vpn).v = false
  · -- an invalid entry: a page of the pool becomes the table
    rw [if_pos hv, if_neg (by simp)] at hr
    obtain ⟨⟨pa, s1⟩, ha, hr⟩ := Res.bind_ok hr
    have hz : pteAt s.mem p vpn = Pte.zero := by
      rcases hS.entries p path hp vpn with h1 | ⟨h1, -⟩ | ⟨q, h1⟩
      · exact h1
      · rw [hv] at h1
        cases h1
      · rw [h1] at hv
        cases hv
    have hs1 : s1.mem = s.mem := by
      obtain ⟨-, -, -, -, hs1, -⟩ := hS.toOwned.alloc ha
      rw [hs1, Sys.mem_setUsedPageCount]
    have he1 : s1.readPte (0x1000 * p + 8 * (vpn : ℕ)) = Pte.zero := by
      rw [Sys.readPte, hs1, ← hz, pteAt]
    simp only [he1, Except.ok.injEq, Prod.mk.injEq] at hr
    obtain ⟨rfl, hs'⟩ := hr
    obtain ⟨q, hq, hS', hF, htab, ho, hempty⟩ := hS.write_fresh hp vpn ha hs'.symm
    exact ⟨q, hq, Or.inr ⟨tables_empty hv, ho, hempty, hS', hF, htab⟩⟩
  · -- a valid entry is a pointer
    rw [if_neg hv] at hr
    have hv' : (pteAt s.mem p vpn).v = true := by simpa using hv
    have hl : (pteAt s.mem p vpn).isLeaf = false := by
      by_contra hl
      exact hn _ (tables_leaf hv' (by simpa using hl))
    obtain ⟨rfl, rfl⟩ := Res.ok_pair hr
    exact ⟨_, rfl, Or.inl ⟨tables_ptr hv' hl, rfl⟩⟩

/-- One more table, where the walker does not run into a leaf. -/
theorem Descent.next {s : Sys}
    (h : Descent s s' path p) (hn : ∀ pte, tables s'.mem p vpn ≠ .leaf pte)
    (hr : s'.nextTable (0x1000 * p) vpn true = .ok (table, s'')) :
    ∃ q, table = 0x1000 * q ∧ Descent s s'' (path ++ [vpn]) q := by
  obtain ⟨owner, hS⟩ := h.inv
  have hreach := h.reach
  rw [← h.frame.rootPage] at hreach
  have hp : owner p = some path := by
    simpa using hS.shape.descend_owner hS.shape.root_owner hreach
  obtain ⟨q, hq, ⟨hptr, rfl⟩ | ⟨hi, ho, hempty, hS', hF, htab⟩⟩ := hS.nextTable hp hn hr
  · exact ⟨q, hq, h.inv, h.frame, Radix.descend_snoc h.reach hptr, h.same⟩
  · refine ⟨q, hq, ⟨_, hS'⟩, h.frame.trans hF, ?_, fun is => ?_⟩
    · rw [← h.frame.rootPage, htab]
      exact Radix.descend_snoc (Radix.descend_write_self hS.shape vpn _ hreach)
        (Radix.write_self _ _ _ _)
    · rw [← h.same is, ← h.frame.rootPage, htab]
      exact Radix.walk_write_fresh hS.shape hreach hi ho hempty is

/-- The walker does not run into a leaf on the way to an entry with no leaf above it. -/
theorem Descent.not_leaf {s : Sys} {u : Fin 512}
    (h : Descent s s' path p)
    (hn : ∀ rest pte, Radix.walk (tables s.mem) s.rootPage (path ++ u :: us ++ last :: deep) =
      some (rest, pte) → rest.length ≤ deep.length) (pte : Pte) : tables s'.mem p u ≠ .leaf pte := by
  intro hl
  have hw := h.same (path ++ u :: us ++ last :: deep)
  rw [List.append_assoc, Radix.walk_descend _ h.reach, List.cons_append, Radix.walk_leaf hl] at hw
  have := hn _ _ (by rw [List.append_assoc]; exact hw.symm)
  simp only [List.length_append, List.length_cons] at this
  omega

/-- The loop of `get_leaf_pte`, where no leaf lies above the entry it looks for. -/
theorem Descent.loop {s : Sys}
    (h : Descent s s' path p)
    (hn : ∀ rest pte, Radix.walk (tables s.mem) s.rootPage (path ++ us ++ last :: deep) =
      some (rest, pte) → rest.length ≤ deep.length)
    (hr : s'.descendTables (0x1000 * p) true us = .ok (table, s'')) :
    ∃ q, table = 0x1000 * q ∧ Descent s s'' (path ++ us) q := by
  induction us generalizing path s' p with
  | nil =>
    simp only [Sys.descendTables, Except.ok.injEq, Prod.mk.injEq] at hr
    obtain ⟨rfl, rfl⟩ := hr
    exact ⟨p, rfl, by simpa using h⟩
  | cons u us ih =>
    simp only [Sys.descendTables] at hr
    obtain ⟨⟨t, s1⟩, hr1, hr2⟩ := Res.bind_ok hr
    obtain ⟨q, rfl, h'⟩ := h.next (h.not_leaf hn) hr1
    obtain ⟨q', hq', h''⟩ := ih h' (by simpa using hn) hr2
    exact ⟨q', hq', by simpa using h''⟩

/-- Two addresses in one page of a level; only bits 0 to 38 count. -/
def SamePage (level : Level) (va va' : ℕ) : Prop :=
  va % 2 ^ 39 / level.size = va' % 2 ^ 39 / level.size

instance (level : Level) (va va' : ℕ) : Decidable (SamePage level va va') :=
  inferInstanceAs (Decidable (_ = _))

/-- The indices below the entry of a level. -/
def lowerVpns (va : ℕ) : Level → List (Fin 512)
  | .giga => [getVpn va 1, getVpn va 0]
  | .mega => [getVpn va 0]
  | .page => []

theorem vpns_split (va : ℕ) (level : Level) :
    vpns va = upperVpns va level ++ lastVpn va level :: lowerVpns va level := by
  cases level <;> rfl

theorem getVpn_eq_iff {i : ℕ} :
    getVpn va i = getVpn va' i ↔ va / 2 ^ (12 + 9 * i) % 512 = va' / 2 ^ (12 + 9 * i) % 512 := by
  rw [Fin.ext_iff]
  rfl

theorem samePage_iff (level : Level) (va va' : ℕ) :
    upperVpns va level ++ [lastVpn va level] <+: vpns va' ↔ SamePage level va va' := by
  cases level <;>
    simp only [upperVpns, lastVpn, vpns, SamePage, Level.toNat, Level.size, List.nil_append,
      List.cons_append, List.cons_prefix_cons, List.nil_prefix, and_true, getVpn_eq_iff] <;>
    omega

theorem SamePage.vpns (h : SamePage level va va') :
    vpns va' = upperVpns va level ++ lastVpn va level :: lowerVpns va' level := by
  obtain ⟨rest, hrest⟩ := (samePage_iff level va va').mpr h
  have h1 := vpns_split va' level
  rw [← hrest]
  rw [← hrest, List.append_assoc, List.singleton_append] at h1
  have h2 : (upperVpns va level).length = (upperVpns va' level).length := by cases level <;> rfl
  obtain ⟨-, h3⟩ := List.append_inj h1 h2
  rw [List.append_assoc, List.singleton_append]
  simp only [List.cons.injEq] at h3
  rw [h3.2]

theorem SamePage.symm {y : ℕ} (h : SamePage level x y) : SamePage level y x :=
  Eq.symm h

theorem SamePage.trans {y z : ℕ} (h : SamePage level x y) (h' : SamePage level y z) :
    SamePage level x z := Eq.trans h h'

theorem Level.ofRest_lower (level : Level) (va : ℕ) :
    Level.ofRest (lowerVpns va level).length = level := by
  cases level <;> rfl

/-- The flags of a mapping have at least one of R, W and X. -/
def HasPerm (flags : ℕ) : Prop := flags.testBit 1 ∨ flags.testBit 2 ∨ flags.testBit 3

theorem Pte.map_isLeaf (pte : Pte) (pa : ℕ) (h : HasPerm flags) :
    (pte.map flags pa).v = true ∧ (pte.map flags pa).isLeaf = true := by
  refine ⟨rfl, ?_⟩
  simp only [Pte.isLeaf, Pte.map, Bool.or_eq_true]
  rcases h with h | h | h <;> simp [h]

/-- The translation after writing the entry of `va` at `level`. -/
theorem Descent.write {s : Sys}
    (h : Descent s s' (upperVpns va level) p)
    (hpte : pte = Pte.zero ∨ (pte.v = true ∧ pte.isLeaf = true)) :
    PtInv (s'.writePte (0x1000 * p + 8 * lastVpn va level) pte) ∧
      PtFrame s (s'.writePte (0x1000 * p + 8 * lastVpn va level) pte) ∧
      ∀ va', (s'.writePte (0x1000 * p + 8 * lastVpn va level) pte).leaf va' =
        if SamePage level va va' then (if pte.v = false then none else some (level, pte))
        else s.leaf va' := by
  obtain ⟨owner, hS⟩ := h.inv
  have hreach := h.reach
  rw [← h.frame.rootPage] at hreach
  have hp : owner p = some (upperVpns va level) := by
    simpa using hS.shape.descend_owner hS.shape.root_owner hreach
  refine ⟨⟨owner, hS.write_end hp _ hpte⟩, h.frame.trans (hS.toOwned.store_frame hp _ _), fun va' => ?_⟩
  have hroot : (s'.writePte (0x1000 * p + 8 * lastVpn va level) pte).rootPage = s'.rootPage := rfl
  have htab : tables (s'.writePte (0x1000 * p + 8 * lastVpn va level) pte).mem =
      Radix.write (tables s'.mem) p (lastVpn va level) pte.entry := tables_store _ _ _ _
  rw [Sys.leaf, htab, hroot]
  by_cases hsame : SamePage level va va'
  · rw [if_pos hsame, hsame.vpns]
    rcases hpte with rfl | ⟨h1, h2⟩
    · rw [Pte.entry_empty rfl, Radix.walk_write_empty hS.shape _ hreach]
      rfl
    · rw [Pte.entry_leaf h1 h2, Radix.walk_write_leaf hS.shape _ _ hreach, if_neg (by simp [h1])]
      simp only [Option.map_some, Level.ofRest_lower]
  · rw [if_neg hsame, Radix.walk_write hS.shape _ hp (by rwa [samePage_iff]), h.frame.rootPage,
      h.same, Sys.leaf]

/-- No leaf lies above the entry of `va` at `level`. -/
def Sys.NoLeafAbove (s : Sys) (va : ℕ) (level : Level) : Prop :=
  ∀ l pte, s.leaf va = some (l, pte) → level.toNat ≤ l.toNat

theorem ofRest_toNat (h : n < 3) : (Level.ofRest n).toNat = 2 - n := by
  interval_cases n <;> rfl

theorem lowerVpns_length (va : ℕ) (level : Level) :
    (lowerVpns va level).length = 2 - level.toNat := by
  cases level <;> rfl

/-- A path above an entry has no leaf on it if the address has none. -/
theorem Sys.NoLeafAbove.walk {s : Sys} (hn : s.NoLeafAbove va level)
    (rest : List (Fin 512)) (pte : Pte) (hw : Radix.walk (tables s.mem) s.rootPage
      (upperVpns va level ++ lastVpn va level :: lowerVpns va level) = some (rest, pte)) :
    rest.length ≤ (lowerVpns va level).length := by
  rw [← vpns_split] at hw
  have h1 := Radix.walk_rest_length hw
  have h2 := hn (Level.ofRest rest.length) pte (by rw [Sys.leaf, hw]; rfl)
  simp only [vpns, List.length_cons, List.length_nil] at h1
  rw [ofRest_toNat h1] at h2
  rw [lowerVpns_length]
  omega

/-- `get_leaf_pte` with allocation returns the entry of `va` at `level`. -/
theorem Sys.getLeafPte_alloc {s : Sys} {addr : ℕ} (h : PtInv s)
    (hn : s.NoLeafAbove va level) (hr : s.getLeafPte va level true = .ok (addr, s')) :
    ∃ p, addr = 0x1000 * p + 8 * lastVpn va level ∧ Descent s s' (upperVpns va level) p := by
  unfold Sys.getLeafPte at hr
  obtain ⟨⟨table, s1⟩, hr1, hr2⟩ := Res.bind_ok hr
  simp only [Bool.true_eq_false, and_false, if_false, Except.ok.injEq, Prod.mk.injEq] at hr2
  obtain ⟨rfl, rfl⟩ := hr2
  have hroot : s.tableRoot = 0x1000 * s.rootPage := by
    obtain ⟨owner, hS⟩ := h
    exact hS.root_eq
  rw [hroot] at hr1
  obtain ⟨p, rfl, hD⟩ := Descent.loop (Descent.refl h) hn.walk hr1
  exact ⟨p, rfl, hD⟩

/-- The entry that `map_page` overwrites adds nothing to the flags unless a leaf
of the same level was there. -/
theorem Descent.old_entry {s : Sys} (flags pa : ℕ)
    (h : Descent s s' (upperVpns va level) p) :
    (pteAt s'.mem p (lastVpn va level)).map flags pa =
      ((s.leafAt va level).getD Pte.zero).map flags pa := by
  obtain ⟨owner, hS⟩ := h.inv
  have hreach := h.reach
  rw [← h.frame.rootPage] at hreach
  have hp : owner p = some (upperVpns va level) := by
    simpa using hS.shape.descend_owner hS.shape.root_owner hreach
  have hw := h.same (vpns va)
  rw [vpns_split va level, Radix.walk_descend _ h.reach] at hw
  rcases hS.entries p _ hp (lastVpn va level) with hz | ⟨h1, h2⟩ | ⟨q, hq⟩
  · rw [Radix.walk_empty (tables_empty (by rw [hz]; rfl))] at hw
    rw [Sys.leafAt, Sys.leaf, vpns_split va level, ← hw, hz]
    rfl
  · rw [Radix.walk_leaf (tables_leaf h1 h2)] at hw
    rw [Sys.leafAt, Sys.leaf, vpns_split va level, ← hw]
    simp [Level.ofRest_lower]
  · rw [Radix.walk_ptr (tables_ptr (by rw [hq]; rfl) (by rw [hq]; rfl))] at hw
    have hnone : s.leafAt va level = none := by
      rw [Sys.leafAt, Sys.leaf, vpns_split va level]
      cases hw' : Radix.walk (tables s.mem) s.rootPage
          (upperVpns va level ++ lastVpn va level :: lowerVpns va level) with
      | none => rfl
      | some x =>
        obtain ⟨rest, pte⟩ := x
        rw [hw'] at hw
        have hlt := Radix.walk_rest_length hw
        rw [lowerVpns_length] at hlt
        refine if_neg fun hc => ?_
        have := congrArg Level.toNat hc
        rw [ofRest_toNat (by omega)] at this
        omega
    rw [hnone, hq]
    rfl

/-- **What `map_page` does.** Where no larger page is in the way, the addresses
of the page, and no others, translate to `pa`; the flags are those asked for, on
top of those of the leaf that was there. -/
theorem Sys.mapPage_spec {s : Sys} (h : PtInv s)
    (hn : s.NoLeafAbove va level) (hf : HasPerm flags)
    (hr : s.mapPage va pa flags level = .ok s') :
    PtInv s' ∧ PtFrame s s' ∧ ∀ va', s'.leaf va' =
      if SamePage level va va' then some (level, ((s.leafAt va level).getD Pte.zero).map flags pa)
      else s.leaf va' := by
  unfold Sys.mapPage at hr
  obtain ⟨⟨addr, s1⟩, hr1, hr2⟩ := Res.bind_ok hr
  obtain ⟨p, rfl, hD⟩ := Sys.getLeafPte_alloc h hn hr1
  have he : s1.readPte (0x1000 * p + 8 * (lastVpn va level : ℕ)) = pteAt s1.mem p (lastVpn va level) := by
    rw [Sys.readPte, pteAt]
  simp only [he, hD.old_entry, Except.ok.injEq] at hr2
  subst hr2
  have hleaf := Pte.map_isLeaf ((s.leafAt va level).getD Pte.zero) pa hf
  obtain ⟨h1, h2, h3⟩ := hD.write (Or.inr hleaf)
  exact ⟨h1, h2, fun va' => by simp only [h3 va', hleaf.1, Bool.true_eq_false, if_false]⟩

/-- The state outside the tables and the S-mode pool. -/
def Sys.SameRest (s s' : Sys) : Prop := s' = { s with mem := s'.mem, smodePool := s'.smodePool }

theorem Sys.SameRest.trans {s : Sys} (h : s.SameRest s') (h' : s'.SameRest s'') :
    s.SameRest s'' := by
  unfold Sys.SameRest at *
  rw [h', h]

theorem Sys.SameRest.getPoolTop {s : Sys} (h : s.SameRest s') :
    s'.getPoolTop .umode = s.getPoolTop .umode := by
  have h1 : s'.umodePool = s.umodePool := by rw [h]
  have h2 : s'.umodePoolPaAligned = s.umodePoolPaAligned := by rw [h]
  simp only [Sys.getPoolTop, Sys.poolStart, Sys.getUmodePoolPaAligned, Sys.getUsedPageCount, Sys.pool,
    h1, h2]

theorem Sys.nextTable_rest {s : Sys} {t : ℕ} {alloc : Bool}
    (h : s.nextTable table vpn alloc = .ok (t, s')) : s.SameRest s' := by
  simp only [Sys.nextTable] at h
  split at h
  · split at h
    · cases h
    · obtain ⟨⟨pa, s1⟩, ha, h⟩ := Res.bind_ok h
      obtain ⟨-, -, rfl⟩ := Sys.allocPage_ok ha
      cases h
      rfl
  · cases h
    rfl

theorem Sys.descendTables_rest {alloc : Bool} {s : Sys} {t : ℕ}
    (h : s.descendTables table alloc us = .ok (t, s')) : s.SameRest s' := by
  induction us generalizing s table with
  | nil =>
    cases h
    rfl
  | cons u us ih =>
    rw [Sys.descendTables] at h
    obtain ⟨⟨t1, s1⟩, h1, h2⟩ := Res.bind_ok h
    exact (Sys.nextTable_rest h1).trans (ih h2)

/-- `map_page` touches nothing but tables and the S-mode pool. -/
theorem Sys.mapPage_rest {s : Sys}
    (h : s.mapPage va pa flags level = .ok s') : s.SameRest s' := by
  rw [Sys.mapPage, Sys.getLeafPte] at h
  obtain ⟨⟨addr, s1⟩, h1, h2⟩ := Res.bind_ok h
  obtain ⟨⟨table, s2⟩, h3, h4⟩ := Res.bind_ok h1
  simp only [Bool.true_eq_false, and_false, if_false, Except.ok.injEq, Prod.mk.injEq] at h4
  obtain ⟨rfl, rfl⟩ := h4
  refine (Sys.descendTables_rest h3).trans ?_
  cases h2
  rfl

theorem Sys.mapRange_rest {s : Sys}
    (h : s.mapRange va pa flags level n = .ok s') : s.SameRest s' := by
  induction n generalizing s' with
  | zero =>
    cases h
    rfl
  | succ n ih =>
    rw [Sys.mapRange] at h
    obtain ⟨s1, h1, h2⟩ := Res.bind_ok h
    exact (ih h1).trans (Sys.mapPage_rest h2)

theorem Sys.nextTable_error {s : Sys} {e : Halt}
    (h : s.nextTable table vpn true = .error e) : e = .panic "Pool out of pages!\n" := by
  simp only [Sys.nextTable, Bool.true_eq_false, if_false] at h
  split at h
  · simp only [Sys.allocSmodePage, Sys.allocPage] at h
    split at h
    · cases h
      rfl
    · cases h
  · cases h

/-- `map_page` fails only where the pool is out of pages. -/
theorem Sys.mapPage_error {s : Sys} {e : Halt}
    (h : s.mapPage va pa flags level = .error e) : e = .panic "Pool out of pages!\n" := by
  have hloop : ∀ (us : List (Fin 512)) (s : Sys) (table : ℕ), s.descendTables table true us = .error e →
      e = .panic "Pool out of pages!\n" := by
    intro us
    induction us with
    | nil =>
      intro s table h
      cases h
    | cons u us ih =>
      intro s table h
      rw [Sys.descendTables] at h
      cases hn : s.nextTable table u true with
      | error e' =>
        rw [hn] at h
        cases h
        exact Sys.nextTable_error hn
      | ok x =>
        rw [hn] at h
        exact ih _ _ h
  rw [Sys.mapPage, Sys.getLeafPte] at h
  cases hd : s.descendTables s.tableRoot true (upperVpns va level) with
  | error e' =>
    rw [hd] at h
    cases h
    exact hloop _ _ _ hd
  | ok x =>
    obtain ⟨table, s1⟩ := x
    rw [hd] at h
    simp only [Res.ok_bind, Bool.true_eq_false, and_false, if_false] at h
    cases h

/-! ### Pages for tables -/

/-- The S-mode pool has `n` pages left. -/
def Sys.HasPages (s : Sys) (n : ℕ) : Prop :=
  0x1000 * (s.smodePool.usedPageCount + n) ≤ s.smodePool.size ∧ s.smodePool.size < 2 ^ 64

theorem Sys.HasPages.mono {s : Sys} {m : ℕ} (h : s.HasPages n) (hm : m ≤ n) : s.HasPages m :=
  ⟨le_trans (Nat.mul_le_mul_left _ (Nat.add_le_add_left hm _)) h.1, h.2⟩

theorem Sys.nextTable_ok {s : Sys} (h : s.HasPages (n + 1)) (table : ℕ) (vpn : Fin 512) :
    ∃ t s', s.nextTable table vpn true = .ok (t, s') ∧ s'.HasPages n := by
  obtain ⟨h1, h2⟩ := h
  simp only [Sys.nextTable, Bool.true_eq_false, if_false]
  split
  · have hout : ¬ s.outOfPages 1 .smode := by
      have hw : s.getUsedPageCount .smode = s.smodePool.usedPageCount := rfl
      have hpool : (s.pool .smode).size = s.smodePool.size := rfl
      rw [Sys.outOfPages_iff (by omega), hw, hpool]
      omega
    rw [Sys.allocSmodePage, Sys.allocPage, if_neg hout, Res.ok_bind]
    refine ⟨_, _, rfl, ?_, h2⟩
    have hused : add64 (s.getUsedPageCount .smode) 1 = s.smodePool.usedPageCount + 1 :=
      add64_eq (show s.smodePool.usedPageCount + 1 < 2 ^ 64 by omega)
    rw [hused]
    show 0x1000 * (s.smodePool.usedPageCount + 1 + n) ≤ s.smodePool.size
    omega
  · exact ⟨_, _, rfl, by omega, h2⟩

theorem Sys.descendTables_ok {s : Sys} (h : s.HasPages (us.length + n))
    (table : ℕ) : ∃ t s', s.descendTables table true us = .ok (t, s') ∧ s'.HasPages n := by
  induction us generalizing s table with
  | nil => exact ⟨table, s, rfl, by simpa using h⟩
  | cons u us ih =>
    rw [List.length_cons, Nat.add_right_comm] at h
    obtain ⟨t1, s1, h1, h2⟩ := Sys.nextTable_ok h table u
    obtain ⟨t2, s2, h3, h4⟩ := ih h2 t1
    refine ⟨t2, s2, ?_, h4⟩
    rw [Sys.descendTables, h1, Res.ok_bind]
    exact h3

/-- Two pages are enough for `map_page`. -/
theorem Sys.mapPage_ok {s : Sys} (h : s.HasPages (2 + n)) (va pa flags : ℕ) (level : Level) :
    ∃ s', s.mapPage va pa flags level = .ok s' ∧ s'.HasPages n := by
  have hlen : (upperVpns va level).length + n ≤ 2 + n := by
    cases level <;> simp [upperVpns]
  obtain ⟨t, s1, h1, h2⟩ := Sys.descendTables_ok (h.mono hlen) s.tableRoot
  refine ⟨s1.writePte (t + 8 * lastVpn va level) ((s1.readPte (t + 8 * lastVpn va level)).map flags pa),
    ?_, h2⟩
  rw [Sys.mapPage, Sys.getLeafPte, h1, Res.ok_bind]
  simp only [Bool.true_eq_false, and_false, if_false, Res.ok_bind]

/-- What `alloc_page` says of an exhausted pool. -/
def poolPanic : Halt := .panic "Pool out of pages!\n"

/-- From `s` the run takes at most `c` pages for tables and ends as `P` says. It fails only
where the pool does not have them. -/
def Served {α : Type} (s : Sys) (c : ℕ) (r : Res α) (sys : α → Sys) (P : α → Prop) : Prop :=
  (∃ a, r = .ok a ∧ P a ∧ ∀ k, s.HasPages (c + k) → (sys a).HasPages k) ∨
    (r = .error poolPanic ∧ ¬ s.HasPages c)

namespace Served

variable {α β : Type} {s : Sys} {c k : ℕ} {r : Res α} {sys : α → Sys} {P : α → Prop}

theorem of_ne (h : Served s c r sys P) (hr : r ≠ .error poolPanic) : ∃ a, r = .ok a ∧ P a := by
  rcases h with ⟨a, h1, h2, -⟩ | ⟨h1, -⟩
  · exact ⟨a, h1, h2⟩
  · exact absurd h1 hr

theorem of_pages (h : Served s c r sys P) (hs : s.HasPages (c + k)) :
    ∃ a, r = .ok a ∧ P a ∧ (sys a).HasPages k := by
  rcases h with ⟨a, h1, h2, h3⟩ | ⟨-, h1⟩
  · exact ⟨a, h1, h2, h3 k hs⟩
  · exact absurd (hs.mono (Nat.le_add_right c k)) h1

theorem pure {a : α} (h : P a) (hs : (sys a).smodePool = s.smodePool) :
    Served s 0 (.ok a) sys P := by
  refine Or.inl ⟨a, rfl, h, fun k hk => ?_⟩
  rw [Nat.zero_add] at hk
  rw [Sys.HasPages, hs]
  exact hk

theorem mono {c' : ℕ} {Q : α → Prop} (h : Served s c r sys P) (hc : c ≤ c') (hPQ : ∀ a, P a → Q a) :
    Served s c' r sys Q := by
  rcases h with ⟨a, h1, h2, h3⟩ | ⟨h1, h2⟩
  · exact Or.inl ⟨a, h1, hPQ a h2, fun k hk => h3 k (hk.mono (by omega))⟩
  · exact Or.inr ⟨h1, fun hk => h2 (hk.mono hc)⟩

theorem bind {d : ℕ} {f : α → Res β} {sys' : β → Sys} {Q : β → Prop} (h : Served s c r sys P)
    (hf : ∀ a, r = .ok a → P a → Served (sys a) d (f a) sys' Q) :
    Served s (c + d) (r >>= f) sys' Q := by
  rcases h with ⟨a, rfl, ha, h1⟩ | ⟨rfl, h1⟩
  · rcases hf a rfl ha with ⟨b, h2, hb, h3⟩ | ⟨h2, h3⟩
    · exact Or.inl ⟨b, h2, hb, fun k hk => h3 k (h1 _ (by rwa [← Nat.add_assoc]))⟩
    · exact Or.inr ⟨h2, fun hk => h3 (h1 _ hk)⟩
  · exact Or.inr ⟨rfl, fun hk => h1 (hk.mono (Nat.le_add_right _ _))⟩

end Served

theorem Sys.mapPage_served (s : Sys) (va pa flags : ℕ) (level : Level) :
    Served s 2 (s.mapPage va pa flags level) id fun _ => True := by
  cases h : s.mapPage va pa flags level with
  | ok s' =>
    refine Or.inl ⟨s', rfl, trivial, fun k hk => ?_⟩
    obtain ⟨s1, h1, h2⟩ := Sys.mapPage_ok hk va pa flags level
    rw [h, Except.ok.injEq] at h1
    exact h1 ▸ h2
  | error e =>
    refine Or.inr ⟨by rw [Sys.mapPage_error h]; rfl, fun hk => ?_⟩
    obtain ⟨s1, h1, -⟩ := Sys.mapPage_ok (n := 0) hk va pa flags level
    rw [h] at h1
    cases h1

theorem Sys.mapRange_served (s : Sys) (va pa flags n : ℕ) (level : Level) :
    Served s (2 * n) (s.mapRange va pa flags level n) id fun _ => True := by
  induction n with
  | zero => exact Served.pure trivial rfl
  | succ n ih => exact ih.bind fun s1 _ _ => Sys.mapPage_served s1 _ _ _ _

/-- Where `va` has a leaf at `level`, the descent follows pointers only: no table is
allocated. -/
theorem descendTables_noAlloc {s : Sys}
    (alloc : Bool)
    (hw : Radix.walk (tables s.mem) p (us ++ last :: deep) = some (deep, pte)) :
    ∃ q, s.descendTables (0x1000 * p) alloc us = .ok (0x1000 * q, s) ∧
      Radix.descend (tables s.mem) p us = some q ∧ tables s.mem q last = .leaf pte := by
  induction us generalizing p with
  | nil =>
    refine ⟨p, rfl, rfl, ?_⟩
    rw [List.nil_append] at hw
    cases hE : tables s.mem p last with
    | empty =>
      rw [Radix.walk_empty hE] at hw
      cases hw
    | leaf l =>
      rw [Radix.walk_leaf hE] at hw
      cases hw
      rfl
    | ptr q =>
      rw [Radix.walk_ptr hE] at hw
      exact absurd (Radix.walk_rest_length hw) (lt_irrefl _)
  | cons u us ih =>
    have he : s.readPte (0x1000 * p + 8 * (u : ℕ)) = pteAt s.mem p u := by
      rw [Sys.readPte, pteAt]
    rw [List.cons_append] at hw
    by_cases hv : (pteAt s.mem p u).v = false
    · rw [Radix.walk_empty (tables_empty hv)] at hw
      cases hw
    · have hv' : (pteAt s.mem p u).v = true := by simpa using hv
      by_cases hl : (pteAt s.mem p u).isLeaf = true
      · rw [Radix.walk_leaf (tables_leaf hv' hl)] at hw
        simp only [Option.some.injEq, Prod.mk.injEq] at hw
        have := congrArg List.length hw.1
        simp only [List.length_append, List.length_cons] at this
        omega
      · have hl' : (pteAt s.mem p u).isLeaf = false := by simpa using hl
        rw [Radix.walk_ptr (tables_ptr hv' hl')] at hw
        obtain ⟨q, h1, h2, h3⟩ := ih hw
        refine ⟨q, ?_, ?_, h3⟩
        · simp only [Sys.descendTables, Sys.nextTable, he, if_neg hv, Res.ok_bind]
          exact h1
        · simp only [Radix.descend, tables_ptr hv' hl']
          exact h2

/-- A leaf of `va` at `level` is found at the entry of that level. -/
theorem Sys.walk_of_leaf {s : Sys}
    (hl : s.leaf va = some (level, pte)) :
    Radix.walk (tables s.mem) s.rootPage (upperVpns va level ++ lastVpn va level ::
      lowerVpns va level) = some (lowerVpns va level, pte) := by
  rw [← vpns_split]
  simp only [Sys.leaf, Option.map_eq_some_iff] at hl
  obtain ⟨⟨rest, pte'⟩, hw, heq⟩ := hl
  simp only [Prod.mk.injEq] at heq
  obtain ⟨h1, rfl⟩ := heq
  obtain ⟨used, -, hu⟩ := Radix.walk_rest hw
  have hlt := Radix.walk_rest_length hw
  simp only [vpns, List.length_cons, List.length_nil] at hlt
  have hlen : rest.length = (lowerVpns va level).length := by
    have := congrArg Level.toNat h1
    rw [ofRest_toNat hlt] at this
    rw [lowerVpns_length]
    omega
  have hsplit := vpns_split va level
  rw [hu, ← List.singleton_append, ← List.append_assoc] at hsplit
  rw [hw, (List.append_inj' hsplit hlen).2]

/-- **What `unmap_page` does.** A page mapped at `level` is removed, and nothing
else. -/
theorem Sys.unmapPage_spec {s : Sys} (h : PtInv s)
    (hl : s.leaf va = some (level, pte)) :
    ∃ s', s.unmapPage va level = .ok s' ∧ PtInv s' ∧ PtFrame s s' ∧
      ∀ va', s'.leaf va' = if SamePage level va va' then none else s.leaf va' := by
  have hroot : s.tableRoot = 0x1000 * s.rootPage := by
    obtain ⟨owner, hS⟩ := h
    exact hS.root_eq
  obtain ⟨q, h1, h2, h3⟩ := descendTables_noAlloc false (Sys.walk_of_leaf hl)
  have hv : (pteAt s.mem q (lastVpn va level)).v = true := by
    by_contra hv
    rw [tables_empty (by simpa using hv)] at h3
    cases h3
  have he : s.readPte (0x1000 * q + 8 * (lastVpn va level : ℕ)) = pteAt s.mem q (lastVpn va level) := by
    rw [Sys.readPte, pteAt]
  have hD : Descent s s (upperVpns va level) q := ⟨h, PtFrame.refl s, h2, fun _ => rfl⟩
  obtain ⟨h4, h5, h6⟩ := hD.write (Or.inl rfl)
  refine ⟨_, ?_, h4, h5, fun va' => by rw [h6 va']; rfl⟩
  have hg : s.getLeafPte va level false = .ok (0x1000 * q + 8 * (lastVpn va level : ℕ), s) := by
    simp only [Sys.getLeafPte, hroot, h1, Res.ok_bind, he, hv, Bool.true_eq_false, false_and,
      if_false]
  simp only [Sys.unmapPage, hg, Res.ok_bind, Sys.writePte, Pte.zero_toNat]

/-! ### The U-mode pool -/

/-- The U-mode pool lies in memory and is not overdrawn. -/
structure PoolOk (s : Sys) : Prop where
  aligned : s.poolStart .umode % 0x1000 = 0
  fits : s.poolStart .umode + s.umodePool.size ≤ 2 ^ 55
  used_le : 0x1000 * s.umodePool.usedPageCount ≤ s.umodePool.size

/-- `k` pages have been taken from the U-mode pool. -/
structure PoolTaken (s s' : Sys) (k : ℕ) : Prop where
  start : s'.poolStart .umode = s.poolStart .umode
  size : s'.umodePool.size = s.umodePool.size
  used : s'.umodePool.usedPageCount = s.umodePool.usedPageCount + k

theorem PoolTaken.trans {s : Sys} {k k' : ℕ} (h : PoolTaken s s' k) (h' : PoolTaken s' s'' k') :
    PoolTaken s s'' (k + k') :=
  ⟨h'.start.trans h.start, h'.size.trans h.size, by rw [h'.used, h.used]; omega⟩

theorem Sys.SameRest.poolTaken {s : Sys} (h : s.SameRest s') : PoolTaken s s' 0 := by
  have h1 : s'.umodePool = s.umodePool := by rw [h]
  have h2 : s'.umodePoolPaAligned = s.umodePoolPaAligned := by rw [h]
  refine ⟨?_, by rw [h1], by rw [h1]; omega⟩
  simp only [Sys.poolStart, Sys.getUmodePoolPaAligned, h1, h2]

theorem PoolOk.of_taken {s : Sys} (h : PoolOk s) (ht : PoolTaken s s' 0) : PoolOk s' :=
  ⟨by rw [ht.start]; exact h.aligned, by rw [ht.start, ht.size]; exact h.fits,
    by rw [ht.used, ht.size]; exact h.used_le⟩

theorem PoolOk.getPoolTop {s : Sys} (h : PoolOk s) :
    s.getPoolTop .umode = s.poolStart .umode + 0x1000 * s.umodePool.usedPageCount := by
  have h1 := h.fits
  have h2 := h.used_le
  simp only [Sys.getPoolTop, Sys.getUsedPageCount, Sys.pool, add64, mul64]
  omega

theorem PoolOk.top_eq {s : Sys} {k : ℕ} (h : PoolOk s) (h' : PoolOk s') (ht : PoolTaken s s' k) :
    s'.getPoolTop .umode = s.getPoolTop .umode + 0x1000 * k := by
  rw [h.getPoolTop, h'.getPoolTop, ht.start, ht.used]
  omega

theorem PoolOk.top_le {s : Sys} {k : ℕ} (h : PoolOk s) (h' : PoolOk s') (ht : PoolTaken s s' k) :
    s.getPoolTop .umode + 0x1000 * k ≤ s.poolStart .umode + s.umodePool.size := by
  have hused := h'.used_le
  rw [ht.used, ht.size] at hused
  rw [h.getPoolTop]
  omega

/-- A request that is granted. -/
theorem PoolOk.alloc {s : Sys} (h : PoolOk s) (hn : n < 2 ^ 40)
    (hr : s.allocUmodePage n = .ok (pa, s')) :
    pa = s.getPoolTop .umode ∧ PoolOk s' ∧ PoolTaken s s' n ∧ s'.mem = s.mem ∧
      s'.tableRoot = s.tableRoot ∧ s'.smodePool = s.smodePool ∧
      s'.poolStart .smode = s.poolStart .smode := by
  obtain ⟨h1, h2, h3⟩ := Sys.allocPage_ok hr
  have hfits := h.fits
  have hused := h.used_le
  have hcount : add64 (s.getUsedPageCount .umode) n = s.umodePool.usedPageCount + n :=
    add64_eq (by simp only [Sys.getUsedPageCount, Sys.pool]; omega)
  unfold Sys.outOfPages at h1
  rw [hcount] at h1 h3
  rw [mul64_eq (by omega)] at h1
  have hpool : s'.umodePool = { s.umodePool with usedPageCount := s.umodePool.usedPageCount + n } := by
    rw [h3]
    rfl
  have hstart : s'.poolStart .umode = s.poolStart .umode := by
    rw [h3, Sys.poolStart_setUsedPageCount]
  refine ⟨h2, ⟨?_, ?_, ?_⟩, ⟨hstart, by rw [hpool], by rw [hpool]⟩, ?_, ?_, ?_, ?_⟩
  · rw [hstart]
    exact h.aligned
  · rw [hstart, hpool]
    exact hfits
  · rw [hpool]
    simp only [Sys.pool] at h1
    simp only
    omega
  · rw [h3, Sys.mem_setUsedPageCount]
  · rw [h3, Sys.tableRoot_setUsedPageCount]
  · rw [h3, Sys.smodePool_setUsedPageCount]
  · rw [h3, Sys.poolStart_setUsedPageCount]

/-! ### Ranges of pages -/

/-- A leaf translates its whole page. -/
theorem Sys.leaf_congr {s : Sys} {l : Level}
    (h : s.leaf va = some (l, pte)) (hs : SamePage l va va') : s.leaf va' = some (l, pte) := by
  obtain ⟨q, -, h2, h3⟩ := descendTables_noAlloc false (Sys.walk_of_leaf h)
  rw [Sys.leaf, hs.vpns, Radix.walk_descend _ h2, Radix.walk_leaf h3]
  simp only [Option.map_some, Level.ofRest_lower]

theorem Sys.leafAt_eq_some {s : Sys} :
    s.leafAt va level = some pte ↔ s.leaf va = some (level, pte) := by
  unfold Sys.leafAt
  constructor
  · intro h
    split at h
    · rename_i hl
      split at h
      · rename_i heq
        cases h
        rw [hl, heq]
      · cases h
    · cases h
  · intro h
    rw [h]
    exact if_pos rfl

theorem Sys.leafAt_congr {s : Sys} (hs : SamePage level va va') :
    s.leafAt va level = s.leafAt va' level := by
  refine Option.ext fun pte => ?_
  rw [Sys.leafAt_eq_some, Sys.leafAt_eq_some]
  exact ⟨fun h => Sys.leaf_congr h hs, fun h => Sys.leaf_congr h hs.symm⟩

theorem samePage_range (level : Level) (x : ℕ) (hal : va % level.size = 0)
    (hlt : va + level.size ≤ 2 ^ 39) :
    SamePage level va x ↔ va ≤ x % 2 ^ 39 ∧ x % 2 ^ 39 < va + level.size := by
  cases level <;> simp only [SamePage, Level.size] at * <;> omega

/-- A new leaf of `level`, over what was there. -/
def Sys.newLeaf (s : Sys) (x pa flags : ℕ) (level : Level) : Option (Level × Pte) :=
  some (level, ((s.leafAt x level).getD Pte.zero).map flags pa)

/-- **What a loop over `map_page` does.** The `n` pages from `va` translate to
those from `pa`, and nothing else changes. -/
theorem Sys.mapRange_spec {s : Sys} (h : PtInv s)
    (hal : va % level.size = 0) (hf : HasPerm flags) (hlt : va + level.size * n ≤ 2 ^ 39)
    (hn : ∀ i < n, s.NoLeafAbove (va + level.size * i) level)
    (hr : s.mapRange va pa flags level n = .ok s') :
    PtInv s' ∧ PtFrame s s' ∧ ∀ x, s'.leaf x =
      if va ≤ x % 2 ^ 39 ∧ x % 2 ^ 39 < va + level.size * n then
        s.newLeaf x (add64 pa (level.size * ((x % 2 ^ 39 - va) / level.size))) flags level
      else s.leaf x := by
  induction n generalizing s' with
  | zero =>
    cases hr
    refine ⟨h, PtFrame.refl s, fun x => ?_⟩
    rw [if_neg (by omega)]
  | succ n ih =>
    rw [Sys.mapRange] at hr
    obtain ⟨s1, hr1, hr2⟩ := Res.bind_ok hr
    have hsz : 0 < level.size ∧ level.size * (n + 1) = level.size * n + level.size :=
      ⟨by cases level <;> decide, Nat.mul_succ _ _⟩
    obtain ⟨h1, h2, h3⟩ := ih (by omega) (fun i hi => hn i (by omega)) hr1
    have hva : add64 va (level.size * n) = va + level.size * n := add64_eq (by omega)
    have hal' : (va + level.size * n) % level.size = 0 := by
      rw [Nat.add_mul_mod_self_left, hal]
    rw [hva] at hr2
    have hmod : (va + level.size * n) % 2 ^ 39 = va + level.size * n := Nat.mod_eq_of_lt (by omega)
    have hold : s1.leaf (va + level.size * n) = s.leaf (va + level.size * n) := by
      rw [h3, if_neg (by omega)]
    have hn1 : s1.NoLeafAbove (va + level.size * n) level := by
      intro l pte hl
      rw [hold] at hl
      exact hn n (by omega) l pte hl
    obtain ⟨h4, h5, h6⟩ := Sys.mapPage_spec h1 hn1 hf hr2
    refine ⟨h4, h2.trans h5, fun x => ?_⟩
    rw [h6 x]
    by_cases hs : SamePage level (va + level.size * n) x
    · have hx := (samePage_range _ x hal' (by omega)).mp hs
      have hidx : (x % 2 ^ 39 - va) / level.size = n := by
        refine Nat.div_eq_of_lt_le ?_ ?_
        · rw [Nat.mul_comm]
          omega
        · rw [Nat.add_mul, Nat.mul_comm n, Nat.one_mul]
          omega
      rw [if_pos hs, if_pos (by omega), hidx, Sys.newLeaf, ← Sys.leafAt_congr hs]
      rw [Sys.leafAt, hold, ← Sys.leafAt]
    · have hx := mt (samePage_range _ x hal' (by omega)).mpr hs
      rw [if_neg hs, h3 x]
      by_cases hin : va ≤ x % 2 ^ 39 ∧ x % 2 ^ 39 < va + level.size * n
      · rw [if_pos hin, if_pos (by omega)]
      · rw [if_neg hin, if_neg (by omega)]

/-- Beside a page that is mapped, `map_page` finds its table. -/
theorem Sys.mapPage_beside {s : Sys} (h : PtInv s)
    (hl : s.leaf va = some (level, pte)) (hup : upperVpns va' level = upperVpns va level)
    (pa flags : ℕ) : ∃ s', s.mapPage va' pa flags level = .ok s' ∧ s'.smodePool = s.smodePool := by
  have hroot : s.tableRoot = 0x1000 * s.rootPage := by
    obtain ⟨owner, hS⟩ := h
    exact hS.root_eq
  obtain ⟨q, hq, -⟩ := descendTables_noAlloc true (Sys.walk_of_leaf hl)
  refine ⟨s.writePte (0x1000 * q + 8 * lastVpn va' level)
    ((s.readPte (0x1000 * q + 8 * lastVpn va' level)).map flags pa), ?_, rfl⟩
  rw [Sys.mapPage, Sys.getLeafPte, hup, hroot, hq, Res.ok_bind]
  simp only [Bool.true_eq_false, and_false, if_false, Res.ok_bind]

/-- Two pages are enough for a loop over `map_page` whose pages share their tables. -/
theorem Sys.mapRange_beside {s : Sys} {k : ℕ} (h : PtInv s)
    (hal : va % level.size = 0) (hf : HasPerm flags) (hlt : va + level.size * n ≤ 2 ^ 39)
    (hn : ∀ i < n, s.NoLeafAbove (va + level.size * i) level)
    (hup : ∀ i < n, upperVpns (va + level.size * i) level = upperVpns va level)
    (hk : s.HasPages (2 + k)) (pa : ℕ) :
    ∃ s', s.mapRange va pa flags level n = .ok s' ∧ s'.HasPages k := by
  induction n with
  | zero => exact ⟨s, rfl, hk.mono (by omega)⟩
  | succ n ih =>
    have hsz : 0 < level.size ∧ level.size * (n + 1) = level.size * n + level.size :=
      ⟨by cases level <;> decide, Nat.mul_succ _ _⟩
    have hva : add64 va (level.size * n) = va + level.size * n := add64_eq (by omega)
    rw [Sys.mapRange, hva]
    rcases Nat.eq_zero_or_pos n with rfl | hpos
    · exact Sys.mapPage_ok hk _ _ flags level
    · have hin : level.size * 1 ≤ level.size * n := Nat.mul_le_mul_left _ hpos
      have hn' : ∀ i < n, s.NoLeafAbove (va + level.size * i) level := fun i hi => hn i (by omega)
      obtain ⟨s1, hr1, hk1⟩ := ih (by omega) hn' fun i hi => hup i (by omega)
      obtain ⟨h1, -, h3⟩ := Sys.mapRange_spec h hal hf (by omega) hn' hr1
      have hl := h3 va
      rw [Nat.mod_eq_of_lt (by omega), if_pos (by omega), Sys.newLeaf] at hl
      obtain ⟨s2, hr2, hp⟩ := Sys.mapPage_beside h1 hl (hup n (by omega))
        (add64 pa (level.size * n)) flags
      refine ⟨s2, by rw [hr1, Res.ok_bind, hr2], ?_⟩
      rw [Sys.HasPages, hp]
      exact hk1

/-! ### The first page table -/

theorem PtEnv.root_empty {s : Sys} (h : PtEnv s)
    (hroot : ∀ x, s.tableRoot ≤ x → x < s.tableRoot + 0x1000 → s.mem x = 0) (i : Fin 512) :
    pteAt s.mem s.rootPage i = Pte.zero ∧ tables s.mem s.rootPage i = .empty := by
  have hr : s.tableRoot = 0x1000 * s.rootPage := by
    have := h.root_aligned
    unfold Sys.rootPage
    omega
  have hi := i.isLt
  have hz : pteAt s.mem s.rootPage i = Pte.zero := by
    unfold pteAt
    rw [Mem.load_zero, Pte.ofNat_zero]
    intro x hx hx'
    exact hroot x (by omega) (by omega)
  exact ⟨hz, tables_empty (by rw [hz]; rfl)⟩

/-- An empty root table translates nothing. -/
theorem PtEnv.boot {s : Sys} (h : PtEnv s)
    (hroot : ∀ x, s.tableRoot ≤ x → x < s.tableRoot + 0x1000 → s.mem x = 0) :
    PtInv s ∧ ∀ va, s.leaf va = none := by
  have hz := fun i => (h.root_empty hroot i).1
  have he := fun i => (h.root_empty hroot i).2
  have hshape : PtShape s fun p => if p = s.rootPage then some [] else none := by
    refine { toPtEnv := h, shape := ?_, entries := ?_, owned := ?_ }
    · refine ⟨if_pos rfl, fun {p} {q} {path} {i} hp hi => ?_⟩
      split at hp
      · rename_i hpr
        rw [hpr, he i] at hi
        cases hi
      · cases hp
    · intro p path hp i
      split at hp
      · rename_i hpr
        rw [hpr]
        exact Or.inl (hz i)
      · cases hp
    · intro p path hp
      split at hp
      · rename_i hpr
        exact Or.inl hpr
      · cases hp
  refine ⟨⟨_, hshape⟩, fun va => ?_⟩
  rw [Sys.leaf, vpns, Radix.walk_empty (he _)]
  rfl

/-- A root table at `0x80000`, an S-mode pool of sixteen pages at `0x100000` and a
U-mode pool of two pages at `0x200000`. -/
def Sys.smallBoot : Sys :=
  { Sys.blank with
    tableRoot := 0x80000, smodePool := ⟨0x100000, 0x10000, 0⟩, umodePool := ⟨0x200000, 0x2000, 0⟩ }

theorem Sys.smallBoot_env : PtEnv Sys.smallBoot :=
  ⟨by decide, by decide, by decide, by decide, by decide, fun _ _ _ => rfl⟩

theorem Sys.smallBoot_inv : PtInv Sys.smallBoot ∧ ∀ va, Sys.smallBoot.leaf va = none :=
  Sys.smallBoot_env.boot fun _ _ _ => rfl

end Coffer
