/-
# The accounts of the descriptor table

`open`, `close` and `F_DUPFD`, with the host answering that a file does not exist. A call keeps the accounts (`Accounts`)
if afterwards the count of every file is the number of slots that hold it, a descriptor it returns was free and holds the
file, and with an error nothing has changed.

A full table breaks them. `fdalloc` returns `-ENFILE` as its error, the handlers negate it once more, and 23 looks like a
descriptor; the references `fdalloc` and `fget` took are not given back. `accounts_iff`: this and a descriptor outside the
table for which a bit is read as set are the only ways.

Key definitions: `TableCall`, `Accounted`, `Accounts`, `TableCall.Room`.
Key theorem: `accounts_iff`.
-/
import Coffer.Vfs.Removed

namespace Coffer
namespace Fs

open Lib Lib.Cmd

variable {fd r : ℤ} {pathname : Str}

variable {s t : Fs} {U : Set ℕ} {f : ℕ} {x : VFile}

/-- The calls on the table; the host has no file. -/
inductive TableCall
  | open (pathname : Str) (flags : Flags)
  | close (fd : ℤ)
  | dupfd (fd : ℤ) (cloexec : Bool)

def TableCall.call : TableCall → Call
  | .open pathname flags => .open pathname flags [.missing]
  | .close fd => .close fd
  | .dupfd fd cloexec => .fcntl fd (if cloexec then 1030 else 0) 0

/-- The count of every file is the number of slots that hold it, and those are there. The console keeps its references. -/
structure Accounted (s : Fs) : Prop where
  count : ∀ {f x}, s.files f = some x → f ≠ 3 → x.fCount = held s.slots fdtableMaxFiles f ∧ 1 ≤ x.fCount
  slot : ∀ {fd f}, s.slots fd = some f → (s.files f).isSome

/-- The file a call makes a descriptor for: a new one with the name, or that of the descriptor. -/
def TableCall.Gets (s t : Fs) (f : ℕ) : TableCall → Prop
  | .open pathname _ => s.files f = none ∧
      ∃ x d y, t.files f = some x ∧ x.fDentry = some d ∧ t.dentries d = some y ∧ y.dPath = pathOf (nameOf pathname)
  | .close _ => True
  | .dupfd fd _ => s.slots fd.toNat = some f

/-- The call makes a descriptor. -/
def TableCall.Makes : TableCall → Prop
  | .close _ => False
  | _ => True

/-- What a call may return, and leave. -/
structure Balanced (c : TableCall) (s : Fs) (r : ℤ) (t : Fs) : Prop where
  accounted : Accounted t
  made : c.Makes → 0 ≤ r → s.slots r.toNat = none ∧ s.bitmap r.toNat = false ∧
    ∃ f, c.Gets s t f ∧ t.slots = Function.update s.slots r.toNat (some f) ∧
      t.bitmap = Function.update s.bitmap r.toNat true
  failed : r < 0 → t.bitmap = s.bitmap ∧ t.slots = s.slots ∧ t.files = s.files

/-- The call keeps the accounts. It does not stop either, but for the panic of a path lookup without memory. -/
def Accounts (c : TableCall) (s : Fs) : Prop :=
  wp (exec c.call) (Balanced c s) (fun e => e = .panic ∧ ¬ Plenty s) s

/-- One of the two calls of `sys_open` finds the file or makes it. -/
def Opens (s : Fs) (pathname : Str) (flags : Flags) : Prop :=
  ∃ path f t, taskConv pathname s = .ok (.ok path, s) ∧ (sysOpen path flags s = .ok (.ok f, t) ∨
    ∃ e u, sysOpen path flags s = .ok (.error e, u) ∧ sysOpen path flags u = .ok (.ok f, t))

/-- There is a slot for a file that gets one, and no bit is read outside the table. -/
def TableCall.Room (s : Fs) : TableCall → Prop
  | .open pathname flags => ¬ (s.freeFd = none ∧ Opens s pathname flags)
  | .close fd => ¬ StrayBit s fd
  | .dupfd fd _ => ¬ StrayBit s fd ∧ ¬ (s.freeFd = none ∧ IsOpen s fd)

/-- The console is in the slots of the standard streams. -/
theorem Wf.inSlots_eq {T : ℕ → ℕ} (h : Wf s T U) (hf : f ≠ 3) : s.inSlots f = held s.slots fdtableMaxFiles f := by
  rw [inSlots, held, held]
  refine congrArg Finset.card (Finset.filter_congr fun fd _ => ?_)
  rw [slotOwn]
  split
  · exact Iff.rfl
  · have hstd := h.stdio (not_le.mp ‹_›)
    rw [hstd]
    simpa using Ne.symm hf

theorem Wf.accounted (h : Wf s (fun _ => 0) U) : Accounted s where
  count := by
    intro f x hx hf
    refine ⟨?_, h.pos hx⟩
    have hcount : x.fCount = (if f = 3 then 2 else 0) + (s.inSlots f + 0 : ℕ) := h.count hx
    rw [if_neg hf, zero_add, Nat.add_zero, h.inSlots_eq hf] at hcount
    exact hcount
  slot := h.slot

theorem Balanced.same (h : Wf s (fun _ => 0) U) {c : TableCall} (hr : c.Makes → r < 0) : Balanced c s r s :=
  ⟨h.accounted, fun hm h0 => absurd (hr hm) (not_lt.mpr h0), fun _ => ⟨rfl, rfl, rfl⟩⟩

theorem Accounts.returned {c : TableCall} (h : Accounts c s) (hr : exec c.call s = .ok (r, t)) :
    Balanced c s r t := of_wp h hr

theorem Accounts.not_stray {c : TableCall} (h : Accounts c s) : exec c.call s ≠ .error .stray := by
  intro hr
  have := fault_of_wp h hr
  cases this.1

/-- With a full table no call that makes a descriptor may return a value. -/
theorem Accounts.not_enfile {c : TableCall} (h : Accounts c s) (hm : c.Makes) (hfull : s.freeFd = none)
    (h0 : 0 ≤ r) (hlt : r < fdtableMaxFiles) (hr : exec c.call s = .ok (r, t)) : False := by
  have hbit := freeFd_none hfull ((Int.toNat_lt h0).mpr hlt)
  have := ((h.returned hr).made hm h0).2.1
  rw [hbit] at this
  cases this

/-! ### `close` and `F_DUPFD` -/

theorem StrayBit.getFile (h : StrayBit s fd) : vfscoreGetFile fd s = .error .stray := by
  rw [vfscoreGetFile, bind_get, if_neg (by rw [h.1]; decide), if_neg h.2]
  rfl

theorem close_accounts_iff (h : Wf s (fun _ => 0) U) (fd : ℤ) :
    Accounts (.close fd) s ↔ TableCall.Room s (.close fd) := by
  constructor
  · intro ha hstray
    refine ha.not_stray ?_
    have hne : ¬ (fd = 0 ∨ fd = 1 ∨ fd = 2) := by
      rintro (rfl | rfl | rfl)
      all_goals exact hstray.2 (by decide)
    show syscallHandlerClose fd s = _
    rw [syscallHandlerClose, if_neg hne]
    exact bind_of_error hstray.getFile
  · intro hroom
    refine wp_mono_fault (close_wf h fd) (fun r t ht => ?_) fun e he => absurd he.2 hroom
    cases ht with
    | stdio _ => exact Balanced.same h fun hm => hm.elim
    | closed _ => exact Balanced.same h fun hm => hm.elim
    | done _ _ hwf => exact ⟨hwf.accounted, fun hm => hm.elim, fun h0 => absurd h0 (lt_irrefl 0)⟩

theorem exec_dupfd (fd : ℤ) (cloexec : Bool) : exec (TableCall.dupfd fd cloexec).call = syscallHandlerDupfd fd cloexec := by
  cases cloexec <;> rfl

theorem Balanced.new {c : TableCall} {i : ℕ} (h : Wf s (fun _ => 0) U) (hfree : s.freeFd = some i)
    (hwf : Wf t (fun _ => 0) U) (hgets : c.Gets s t f) (hslots : t.slots = Function.update s.slots i (some f))
    (hbitmap : t.bitmap = Function.update s.bitmap i true) : Balanced c s i t := by
  obtain ⟨-, hbit⟩ := freeFd_some hfree
  refine ⟨hwf.accounted, fun _ _ => ?_, fun h0 => absurd h0 (not_lt.mpr (Int.natCast_nonneg i))⟩
  rw [Int.toNat_natCast]
  exact ⟨h.tableOk i hbit, hbit, f, hgets, hslots, hbitmap⟩

theorem dupfd_accounts_iff (h : Wf s (fun _ => 0) U) (fd : ℤ) (cloexec : Bool) :
    Accounts (.dupfd fd cloexec) s ↔ TableCall.Room s (.dupfd fd cloexec) := by
  constructor
  · intro ha
    refine ⟨fun hstray => ha.not_stray ?_, ?_⟩
    · rw [exec_dupfd, syscallHandlerDupfd]
      exact bind_of_error hstray.getFile
    · rintro ⟨hfull, h0, hlt, hbit, -⟩
      have hdup := dupfd_wf h fd cloexec
      rcases hr : syscallHandlerDupfd fd cloexec s with e | ⟨r, t⟩
      · exact (fault_of_wp hdup hr).2.2 ⟨h0, hlt⟩
      rcases of_wp hdup hr with hb | ⟨-, hn⟩
      · rw [testBit_inside s h0 hlt, hbit] at hb
        cases hb
      · cases hn with
        | free hfree =>
          rw [hfull] at hfree
          cases hfree
        | full =>
          exact ha.not_enfile trivial hfull (by decide) (by decide) ((congrFun (exec_dupfd fd cloexec) s).trans hr)
  · rintro ⟨hstray, hroom⟩
    rw [Accounts, exec_dupfd]
    refine wp_mono_fault (dupfd_wf h fd cloexec) (fun r t ht => ?_) fun e he => absurd he.2 hstray
    cases ht with
    | closed _ => exact Balanced.same h fun _ => by decide
    | done hx hn =>
      cases hn with
      | free hfree hwf _ _ hslots hbitmap => exact Balanced.new h hfree hwf hx.slot hslots hbitmap
      | full hfull => exact absurd ⟨hfull, hx.nonneg, hx.lt, hx.bit, _, hx.slot⟩ hroom

/-! ### `open` -/

/-- What `open` says after it. -/
inductive OpenFdPost (s : Fs) (U : Set ℕ) (pathname : Str) (flags : Flags) : ℤ → Fs → Prop
  | failed {e : Errno} {t : Fs} : Wf t (fun _ => 0) U → Framed s t → t.files = s.files →
      OpenFdPost s U pathname flags (-e.code) t
  | free {i f : ℕ} {t : Fs} : s.freeFd = some i → Wf t (fun _ => 0) U →
      TableCall.Gets s t f (.open pathname flags) → t.slots = Function.update s.slots i (some f) →
      t.bitmap = Function.update s.bitmap i true → OpenFdPost s U pathname flags i t
  | full {t : Fs} : s.freeFd = none → OpenFdPost s U pathname flags 23 t

theorem freeFd_framed (h : Framed s t) : t.freeFd = s.freeFd := by
  unfold freeFd
  rw [h.bitmap]

/-- `sys_open`, then a descriptor; `s` is the state of the call, `u` that of its last `sys_open`. -/
theorem openFd_after {u : Fs} {path : Str} {fl : Flags} (flags : Flags) (h : Wf u (fun _ => 0) U) (hst : Framed s u)
    (hfiles : u.files = s.files) (ho : OpenResult u u.openRefs U path (nameOf pathname) fl (.ok f) t) {E : FsFault → Prop} :
    wp (openFd f) (OpenFdPost s U pathname flags) E t := by
  obtain ⟨d, fl', hself, -, hp, -, hnone, -, hwf⟩ := h.open_ok ho
  have hst' := hst.trans ho.1
  rcases hfree : t.freeFd with _ | i
  · rw [wp_ok (openFd_full hself (le_refl _) hfree)]
    rw [freeFd_framed hst'] at hfree
    exact .full hfree
  · obtain ⟨hlt, hbit⟩ := freeFd_some hfree
    have hwf' := hwf.install (give_pos ..) (hwf.tableOk i hbit) hlt
    rw [take_give] at hwf'
    have hstate : (t.addFd i f).setFile f ⟨fl', 1, 0, some d⟩ = t.addFd i f := setFile_eq (s := t.addFd i f) hself
    rw [wp_ok (openFd_free hwf.tableOk hself (le_refl _) hfree), hstate]
    rw [freeFd_framed hst'] at hfree
    obtain ⟨y, hy, hpath⟩ := hp.path
    refine .free hfree hwf' ⟨hfiles ▸ hnone, _, d, y, hself, rfl, hy, hpath⟩ ?_ ?_
    · rw [← hst'.slots]
      rfl
    · rw [← hst'.bitmap]
      rfl

theorem exec_open_missing (pathname : Str) (flags : Flags) : exec (TableCall.open pathname flags).call =
    (do let r ← openWith pathname flags (pure []); pure r.1) := by
  show (do let r ← syscallHandlerOpen [.missing] pathname flags; pure r.1) = _
  rw [syscallHandlerOpen, fetchFromHost_missing pathname rfl]

theorem open_missing_wf (h : Wf s (fun _ => 0) U) (pathname : Str) (flags : Flags) :
    wp (exec (TableCall.open pathname flags).call)
      (fun r t => OpenFdPost s U pathname flags r t ∧ (0 ≤ r → Opens s pathname flags))
      (fun e => e = .panic ∧ ¬ Plenty s) s := by
  rw [exec_open_missing, wp_bind, openWith, wp_bind]
  refine wp_mono (wp_run (taskConv_wp h pathname)) fun r t ht => ?_
  obtain ⟨hconv, rfl, ht⟩ := ht
  have hneg {e : Errno} (h0 : 0 ≤ -e.code) : Opens t pathname flags := by
    have := e.code_pos
    omega
  cases r with
  | error e => exact ⟨.failed h (Framed.refl _) rfl, hneg⟩
  | ok path =>
    rw [wp_bind]
    refine wp_mono (wp_run (sysOpen_wp ht h.cache h.fresh flags)) fun r u hu => ?_
    obtain ⟨hrun, hu⟩ := hu
    cases r with
    | ok f =>
      rw [wp_bind]
      refine wp_mono (openFd_after flags h (Framed.refl _) rfl hu) fun r v hv => ?_
      exact ⟨hv, fun _ => ⟨path, f, u, hconv, Or.inl hrun⟩⟩
    | error e =>
      have hwf := h.open_error hu
      rw [wp_bind, wp_pure, wp_bind]
      refine wp_mono_fault (wp_run (sysOpen_wp ht hwf.cache hwf.fresh flags)) (fun r v hv => ?_) fun e he =>
        ⟨he.1, fun hp => he.2 (hu.1.plenty hp)⟩
      obtain ⟨hrun', hv⟩ := hv
      cases r with
      | error e' => exact ⟨.failed (hwf.open_error hv) (hu.1.trans hv.1) (hv.2.2.1.trans hu.2.2.1), hneg⟩
      | ok f =>
        rw [wp_bind]
        refine wp_mono (openFd_after flags hwf hu.1 hu.2.2.1 hv) fun r w hw => ?_
        exact ⟨hw, fun _ => ⟨path, f, v, hconv, Or.inr ⟨e, u, hrun, hrun'⟩⟩⟩

/-- With a full table, an `open` that finds the file or makes it returns 23. -/
theorem open_full (h : Wf s (fun _ => 0) U) {flags : Flags} (hopens : Opens s pathname flags)
    (hfull : s.freeFd = none) : ∃ t, exec (TableCall.open pathname flags).call s = .ok (23, t) := by
  obtain ⟨path, f, t, hconv, hopens⟩ := hopens
  have hpath := (of_wp (taskConv_wp (E := fun _ => True) h pathname) hconv).2
  have hend {u : Fs} (hst : Framed s t) (hwf : Wf u (fun _ => 0) U) (ho : OpenResult u u.openRefs U path (nameOf pathname)
      (vfscoreFflags flags) (.ok f) t) : openFd f t = .ok (23, t) := by
    obtain ⟨d, fl', hself, -⟩ := hwf.open_ok ho
    exact openFd_full hself (le_refl _) ((freeFd_framed hst).trans hfull)
  refine ⟨t, ?_⟩
  rw [exec_open_missing]
  have hopen : openWith pathname flags (pure []) s = .ok ((23, []), t) := by
    rw [openWith, bind_of_ok hconv]
    rcases hopens with hrun | ⟨e, u, hrun, hrun'⟩
    · have ho := of_wp (sysOpen_wp hpath h.cache h.fresh flags) hrun
      refine (bind_of_ok hrun).trans ?_
      exact bind_of_ok (hend ho.1 h ho)
    · have ho := of_wp (sysOpen_wp hpath h.cache h.fresh flags) hrun
      have hwf := h.open_error ho
      have ho' := of_wp (sysOpen_wp hpath hwf.cache hwf.fresh flags) hrun'
      refine (bind_of_ok hrun).trans ((bind_of_ok (m := (pure [] : FsM (List FileWrite))) rfl).trans ?_)
      refine (bind_of_ok hrun').trans ?_
      exact bind_of_ok (hend (ho.1.trans ho'.1) hwf ho')
  exact bind_of_ok hopen

theorem open_accounts_iff (h : Wf s (fun _ => 0) U) (pathname : Str) (flags : Flags) :
    Accounts (.open pathname flags) s ↔ TableCall.Room s (.open pathname flags) := by
  constructor
  · rintro ha ⟨hfull, hopens⟩
    obtain ⟨t, hr⟩ := open_full h hopens hfull
    exact ha.not_enfile trivial hfull (by decide) (by decide) hr
  · intro hroom
    refine wp_mono (open_missing_wf h pathname flags) fun r t ht => ?_
    obtain ⟨ht, hopens⟩ := ht
    cases ht with
    | @failed e _ hwf hst hfiles =>
      have hneg : -e.code < 0 := by
        have := e.code_pos
        omega
      exact ⟨hwf.accounted, fun _ h0 => absurd hneg (not_lt.mpr h0), fun _ => ⟨hst.bitmap, hst.slots, hfiles⟩⟩
    | free hfree hwf hgets hslots hbitmap => exact Balanced.new h hfree hwf hgets hslots hbitmap
    | full hfull => exact absurd ⟨hfull, hopens (by decide)⟩ hroom

/-! ### Runs -/

/-- The state is in order and no call is under way. -/
def Settled (s : Fs) : Prop := ∃ U, Wf s (fun _ => 0) U

theorem accounts_iff_room (h : Settled s) (c : TableCall) : Accounts c s ↔ TableCall.Room s c := by
  obtain ⟨U, h⟩ := h
  cases c with
  | «open» pathname flags => exact open_accounts_iff h pathname flags
  | close fd => exact close_accounts_iff h fd
  | dupfd fd cloexec => exact dupfd_accounts_iff h fd cloexec

theorem Settled.step (h : Settled s) {c : TableCall} (ha : Accounts c s) (hr : exec c.call s = .ok (r, t)) :
    Settled t := by
  obtain ⟨U, hwf⟩ := id h
  have hroom := (accounts_iff_room h c).mp ha
  cases c with
  | «open» pathname flags =>
    obtain ⟨hp, hopens⟩ := of_wp (open_missing_wf hwf pathname flags) hr
    cases hp with
    | failed hwf' => exact ⟨U, hwf'⟩
    | free _ hwf' => exact ⟨U, hwf'⟩
    | full hfull => exact absurd ⟨hfull, hopens (by decide)⟩ hroom
  | close fd => exact ⟨U, ((of_wp (close_wf hwf fd) hr).wf hwf).1⟩
  | dupfd fd cloexec =>
    rw [exec_dupfd] at hr
    cases of_wp (dupfd_wf hwf fd cloexec) hr with
    | closed => exact h
    | done hx hn =>
      cases hn with
      | free _ hwf' => exact ⟨U, hwf'⟩
      | full hfull => exact absurd ⟨hfull, hx.nonneg, hx.lt, hx.bit, _, hx.slot⟩ hroom.2

/-- **The accounts of the descriptor table.** In every run of `open`, `close` and `F_DUPFD` from the state after `vfs_init`,
whatever the allocator answers, with a host that has no file: every call keeps the accounts, if and only if no `open` finds
or makes its file and no `F_DUPFD` has an open descriptor while the table is full, and no `close` or `F_DUPFD` is of a
number outside the table at which a bit is read as set. -/
theorem accounts_iff (mem : ℕ → Answer) (addr : ℕ → ℕ) (around : ℤ → Bool) (calls : List TableCall) :
    EachStep (fun c : TableCall => exec c.call) Accounts calls (Fs.init mem addr around) ↔
      EachStep (fun c : TableCall => exec c.call) (fun c s => c.Room s) calls (Fs.init mem addr around) := by
  refine eachStep_iff (I := Settled) (fun c s hs => accounts_iff_room hs c) ?_ calls _ ⟨∅, wf_init mem addr around⟩
  intro c s r t hs ha hr
  exact hs.step ha hr

/-- The descriptors that are free. -/
def freeFds (s : Fs) : Finset ℕ := (Finset.range fdtableMaxFiles).filter fun fd => s.bitmap fd = false

theorem freeFd_eq_none (h : s.freeFds = ∅) : s.freeFd = none := by
  unfold freeFd
  refine List.find?_eq_none.mpr fun fd hfd hb => ?_
  have hmem : fd ∈ s.freeFds :=
    Finset.mem_filter.mpr ⟨Finset.mem_range.mpr (List.mem_range.mp hfd), of_decide_eq_true hb⟩
  rw [h] at hmem
  exact absurd hmem (Finset.notMem_empty fd)

theorem Settled.isOpen (h : Settled s) (h0 : 0 ≤ fd) (hs : s.slots fd.toNat = some f) : IsOpen s fd := by
  obtain ⟨U, h⟩ := h
  obtain ⟨x, hx⟩ := h.opened h0 hs
  exact ⟨hx.nonneg, hx.lt, hx.bit, f, hs⟩

theorem IsOpen.not_stray (h : IsOpen s fd) : ¬ StrayBit s fd := fun hs => hs.2 ⟨h.1, h.2.1⟩

/-- `F_DUPFD` of an open descriptor takes a free one, if there is one. -/
theorem dupfd_free (h : Settled s) (h0 : 0 ≤ fd) (hs : s.slots fd.toNat = some f) {i : ℕ}
    (hfree : s.freeFd = some i) : ∃ t, exec (TableCall.dupfd fd false).call s = .ok ((i : ℤ), t) ∧ Settled t ∧
      t.slots fd.toNat = some f ∧ t.freeFds = s.freeFds.erase i := by
  obtain ⟨U, hwf⟩ := id h
  have hopen := h.isOpen h0 hs
  obtain ⟨hlt, hbit⟩ := freeFd_some hfree
  have hdup := dupfd_wf hwf fd false
  rw [exec_dupfd]
  rcases hr : syscallHandlerDupfd fd false s with e | ⟨r, t⟩
  · exact absurd (fault_of_wp hdup hr).2 hopen.not_stray
  cases of_wp hdup hr with
  | closed hb =>
    rw [testBit_inside s hopen.1 hopen.2.1, hopen.2.2.1] at hb
    cases hb
  | done hx hn =>
    cases hn with
    | full hfull =>
      rw [hfree] at hfull
      cases hfull
    | free hfree' hwf' _ _ hslots hbitmap =>
      obtain rfl := Option.some.inj (hfree.symm.trans hfree')
      obtain rfl := Option.some.inj (hs.symm.trans hx.slot)
      have hne : fd.toNat ≠ i := by
        intro he
        rw [← he, hopen.2.2.1] at hbit
        cases hbit
      refine ⟨t, rfl, ⟨U, hwf'⟩, ?_, ?_⟩
      · rw [hslots, Function.update_of_ne hne, hs]
      · ext j
        rw [freeFds, freeFds, hbitmap, Finset.mem_filter, Finset.mem_erase, Finset.mem_filter]
        by_cases hj : j = i
        · simp [hj]
        · simp [hj]

/-- Enough of them fill the table. The induction is on the number of descriptors that are free. -/
theorem dupfd_fill (h0 : 0 ≤ fd) (n : ℕ) (h : Settled s) (hs : s.slots fd.toNat = some f)
    (hn : s.freeFds.card = n) : ∃ rs t, (List.replicate n (TableCall.dupfd fd false)).mapM (fun c => exec c.call) s
      = .ok (rs, t) ∧ Settled t ∧ t.slots fd.toNat = some f ∧ t.freeFd = none := by
  induction n generalizing s with
  | zero => exact ⟨[], s, rfl, h, hs, freeFd_eq_none (Finset.card_eq_zero.mp hn)⟩
  | succ n ih =>
    rcases hfree : s.freeFd with _ | i
    · have hempty : s.freeFds = ∅ := by
        refine Finset.filter_eq_empty_iff.mpr fun j hj => ?_
        rw [freeFd_none hfree (Finset.mem_range.mp hj)]
        decide
      rw [hempty] at hn
      cases hn
    · obtain ⟨hlt, hbit⟩ := freeFd_some hfree
      obtain ⟨t, hr, ht, hst, hfds⟩ := dupfd_free h h0 hs hfree
      have hmem : i ∈ s.freeFds := Finset.mem_filter.mpr ⟨Finset.mem_range.mpr hlt, hbit⟩
      obtain ⟨rs, u, hrs, hu⟩ := ih ht hst (by rw [hfds, Finset.card_erase_of_mem hmem, hn]; rfl)
      refine ⟨i :: rs, u, ?_, hu⟩
      rw [List.replicate_succ, List.mapM_cons, bind_of_ok hr, bind_of_ok hrs]
      rfl

/-- The new file `/f` is opened, as the descriptor 3. -/
def tableOpenF : TableCall := .open ['/', 'f'] (2 ||| oCreat)

/-- `F_DUPFD` of an open descriptor with a full table. -/
theorem dupfd_full (h : Settled s) (h0 : 0 ≤ fd) (hs : s.slots fd.toNat = some f) (hf : f ≠ 3)
    (hfull : s.freeFd = none) :
    ∃ t x, exec (TableCall.dupfd fd false).call s = .ok (23, t) ∧ t.slots = s.slots ∧ t.files f = some x ∧
      x.fCount = held t.slots fdtableMaxFiles f + 2 := by
  obtain ⟨U, hwf⟩ := id h
  have hopen := h.isOpen h0 hs
  have hdup := dupfd_wf hwf fd false
  rw [exec_dupfd]
  rcases hr : syscallHandlerDupfd fd false s with e | ⟨r, t⟩
  · exact absurd (fault_of_wp hdup hr).2 hopen.not_stray
  cases of_wp hdup hr with
  | closed hb =>
    rw [testBit_inside s hopen.1 hopen.2.1, hopen.2.2.1] at hb
    cases hb
  | done hx hn =>
    cases hn with
    | free hfree =>
      rw [hfull] at hfree
      cases hfree
    | full _ hwf' _ hst =>
      obtain rfl := Option.some.inj (hs.symm.trans hx.slot)
      obtain ⟨x, hx'⟩ := Option.isSome_iff_exists.mp (hwf'.temp (give_pos ..))
      refine ⟨t, x, rfl, hst.slots, hx', ?_⟩
      have hcount := hwf'.count hx'
      rw [if_neg hf, hwf'.inSlots_eq hf] at hcount
      have hgive : give (give (fun _ => 0) f) f f = 2 := by simp [give]
      rw [hgive] at hcount
      rw [hcount]
      push_cast
      ring

/-- What an `open` with a free descriptor leaves. -/
theorem OpenFdPost.made {flags : Flags} (h : OpenFdPost s U pathname flags r t) (h0 : 0 ≤ r)
    (hfree : s.freeFd ≠ none) : Wf t (fun _ => 0) U ∧ ∃ f, s.files f = none ∧ t.slots = Function.update s.slots r.toNat (some f) ∧
      t.bitmap = Function.update s.bitmap r.toNat true := by
  cases h with
  | @failed e =>
    have := e.code_pos
    omega
  | free _ hwf hgets hslots hbitmap =>
    rw [Int.toNat_natCast]
    exact ⟨hwf, _, hgets.1, hslots, hbitmap⟩
  | full hfull => exact absurd hfull hfree

/-- **A full table.** The new file `/f` is opened and its descriptor 3 duplicated until the table is full. One more
`F_DUPFD` returns 23, which is open already, and leaves the file with a count that is two more than the slots that hold
it. -/
theorem accounts_full : ∃ rs s t f x,
    (tableOpenF :: List.replicate 1020 (TableCall.dupfd 3 false)).mapM (fun c => exec c.call) boot = .ok (rs, s) ∧
      exec (TableCall.dupfd 3 false).call s = .ok (23, t) ∧ IsOpen s 23 ∧ t.slots = s.slots ∧ s.slots 3 = some f ∧
      t.files f = some x ∧ x.fCount = held t.slots fdtableMaxFiles f + 2 := by
  have hrun : exec tableOpenF.call boot = .ok (3, stateAfter tableOpenF.call boot) := exec_stateAfter (by decide +kernel)
  have hpost := (of_wp (open_missing_wf (wf_init ..) ['/', 'f'] (2 ||| oCreat)) hrun).1
  obtain ⟨hwf, f, hnew, hslots, hbitmap⟩ := hpost.made (by decide) boot_freeFd
  have hf : f ≠ 3 := by
    rintro rfl
    cases hnew
  have hs : (stateAfter tableOpenF.call boot).slots (3 : ℤ).toNat = some f := by
    rw [hslots]
    exact Function.update_self ..
  have hcard : (stateAfter tableOpenF.call boot).freeFds.card = 1020 := by
    rw [freeFds, hbitmap]
    decide +kernel
  obtain ⟨rs, s, hfill, hset, hs', hfull⟩ := dupfd_fill (by decide) 1020 ⟨_, hwf⟩ hs hcard
  obtain ⟨t, x, hdup, hst, hx, hcount⟩ := dupfd_full hset (by decide) hs' hf hfull
  refine ⟨3 :: rs, s, t, f, x, ?_, hdup, ?_, hst, hs', hx, hcount⟩
  · rw [List.mapM_cons, bind_of_ok hrun, bind_of_ok hfill]
    rfl
  · have hbit := freeFd_none hfull (show 23 < fdtableMaxFiles by decide)
    obtain ⟨U, hwf'⟩ := id hset
    have hsome := hwf'.bit 23
    rw [hbit] at hsome
    obtain ⟨g, hg⟩ := Option.isSome_iff_exists.mp hsome.symm
    exact hset.isOpen (by decide) hg

end Fs
end Coffer
