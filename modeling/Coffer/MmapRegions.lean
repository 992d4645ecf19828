/-
# The list of regions

`mmap` appends a region to `mmap_addr`, and `munmap` is to take one out of it. It walks the list
with a pointer `prev` that it never moves, so the entry it finds is unlinked as if it were the
first, and the entries before it are lost.

`mmap_regions_iff`: the list is what it should be in every state of a run exactly if every
`munmap` that is to remove a region finds it at the head of the list. `munmap_loses` is the
smallest run where it is not.
-/
import Coffer.MmapFrames

namespace Coffer

/-- `munmap(addr, len)` is to remove this region: it contains `addr` and has the length `len`. -/
def Matches (addr len : ℕ) (r : ℕ × ℕ) : Prop := MmapState.Hit addr r ∧ len = sub64 r.2 r.1

instance (addr len : ℕ) (r : ℕ × ℕ) : Decidable (Matches addr len r) :=
  inferInstanceAs (Decidable (_ ∧ _))

/-- The regions `mmap` has returned between two states. -/
def MmapState.newRegions (st st' : MmapState) : List (ℕ × ℕ) :=
  (st'.returned.take (st'.returned.length - st.returned.length)).map fun r => (r.1, add64 r.1 r.2)

/-- The list as it should be after a call from `st` to `st'`: a region returned is added, a region
that matches is removed, and nothing else happens. -/
def MmapCall.regions (st st' : MmapState) (l : List (ℕ × ℕ)) : MmapCall → List (ℕ × ℕ)
  | .mmap _ _ _ _ _ _ => l ++ st.newRegions st'
  | .munmap addr len => l.eraseP fun r => Matches addr len r

/-- In every state of the run the list is what it should be; `l` is what it should be at the
start. -/
def MmapState.RegionsExact (st : MmapState) (l : List (ℕ × ℕ)) (rs : List SmReply) : List MmapCall → Prop
  | [] => st.mmapAddr = l
  | c :: cs => st.mmapAddr = l ∧
      ∀ st' rs', st.call rs c = .ok (st', rs') → st'.RegionsExact (c.regions st st' l) rs' cs

/-- If there is a region to remove, then the first one of the list is. -/
def MmapCall.RemovesFirst (st : MmapState) : MmapCall → Prop
  | .mmap _ _ _ _ _ _ => True
  | .munmap addr len => (∃ r ∈ st.mmapAddr, Matches addr len r) →
      addr ≠ 0 ∧ len ≠ 0 ∧ ∃ r rest, st.mmapAddr = r :: rest ∧ Matches addr len r

namespace MmapState

variable {st st' : MmapState} {rs rs' : List SmReply}

theorem munmap_first {addr len : ℕ} {r : ℕ × ℕ} {rest : List (ℕ × ℕ)} (ha : addr ≠ 0) (hl : len ≠ 0)
    (hlist : st.mmapAddr = r :: rest) (hm : Matches addr len r) : (st.munmap addr len).2.mmapAddr = rest := by
  have hdrop : (st.mmapAddr.dropWhile fun r => ¬ Hit addr r) = r :: rest := by
    rw [hlist, List.dropWhile_cons_of_neg (by simpa using hm.1)]
  unfold munmap
  rw [if_neg hl, if_neg ha, hdrop]
  dsimp only
  rw [if_neg (not_not.mpr hm.2)]
  split <;> rfl

theorem munmap_zero {addr len : ℕ} (h : addr = 0 ∨ len = 0) :
    (st.munmap addr len).2.mmapAddr = st.mmapAddr := by
  unfold munmap
  split
  · rfl
  · rename_i hl
    rw [if_pos (h.resolve_right hl)]

/-- One call of `munmap` does to the list what it should exactly if it removes the first entry or
has none to remove. -/
theorem munmap_list_iff (st : MmapState) (addr len : ℕ) :
    (st.munmap addr len).2.mmapAddr = (st.mmapAddr.eraseP fun r => Matches addr len r) ↔
      (MmapCall.munmap addr len).RemovesFirst st := by
  by_cases hm : ∃ r ∈ st.mmapAddr, Matches addr len r
  · obtain ⟨r, hr, hmr⟩ := hm
    have hlen : (st.mmapAddr.eraseP fun r => Matches addr len r).length = st.mmapAddr.length - 1 :=
      List.length_eraseP_of_mem hr (by simpa using hmr)
    have hpos : 0 < st.mmapAddr.length := List.length_pos_of_mem hr
    constructor
    · intro he _
      -- the list has one entry less, so that nothing was lost with it
      have hz : addr ≠ 0 ∧ len ≠ 0 := by
        by_contra hc
        have hsame : (st.munmap addr len).2.mmapAddr = st.mmapAddr := munmap_zero (by tauto)
        rw [← he, hsame] at hlen
        omega
      rcases st.munmap_cases addr len with ⟨e, hc⟩ | ⟨before, r', rest, hlist, -, hhit, hle, hc⟩
      · rw [hc] at he
        rw [← he] at hlen
        simp only at hlen
        omega
      · have hrest : (st.munmap addr len).2.mmapAddr = rest := by
          rw [hc]
          split <;> rfl
        have hb : before = [] := by
          rw [← he, hrest, hlist] at hlen
          simp only [List.length_append, List.length_cons] at hlen
          exact List.length_eq_zero_iff.mp (by omega)
        exact ⟨hz.1, hz.2, r', rest, by rw [hlist, hb, List.nil_append], hhit, hle⟩
    · intro h
      obtain ⟨ha, hl, r', rest, hlist, hm'⟩ := h ⟨r, hr, hmr⟩
      rw [munmap_first ha hl hlist hm', hlist, List.eraseP_cons_of_pos (by simpa using hm')]
  · have hno : ∀ r ∈ st.mmapAddr, ¬ Matches addr len r := fun r hr hmr => hm ⟨r, hr, hmr⟩
    refine iff_of_true ?_ fun h => absurd h hm
    rw [List.eraseP_of_forall_not fun r hr => by simpa using hno r hr]
    rcases st.munmap_cases addr len with ⟨e, hc⟩ | ⟨before, r', rest, hlist, -, hhit, hle, -⟩
    · rw [hc]
    · exact absurd ⟨hhit, hle⟩ (hno r' (by rw [hlist]; simp))

/-- One call of `mmap` does to the list what it should. -/
theorem mmap_list {addr len prot flags fildes off ret : ℕ}
    (hr : st.mmap addr len prot flags fildes off rs = .ok (ret, st', rs')) :
    st'.mmapAddr = st.mmapAddr ++ st.newRegions st' := by
  rcases mmap_cases hr with ⟨-, e, rfl⟩ | ⟨-, st1, hr1, rfl⟩
  · simp [newRegions]
  · have h := (allocRegion_moves hr1).1
    simp only [newRegions, List.length_cons, h.returned, h.addr, Nat.add_sub_cancel_left,
      List.take_succ_cons, List.take_zero, List.map_cons, List.map_nil]

theorem call_list_iff {c : MmapCall} (hr : st.call rs c = .ok (st', rs')) :
    st'.mmapAddr = c.regions st st' st.mmapAddr ↔ c.RemovesFirst st := by
  cases c with
  | mmap addr len prot flags fildes off =>
    obtain ⟨⟨ret, st1, rs1⟩, hr1, hr2⟩ := Res.bind_ok hr
    obtain ⟨rfl, rfl⟩ := Res.ok_pair hr2
    exact iff_of_true (mmap_list hr1) trivial
  | munmap addr len =>
    simp only [call, Except.ok.injEq, Prod.mk.injEq] at hr
    obtain ⟨rfl, rfl⟩ := hr
    exact munmap_list_iff st addr len

theorem RegionsExact.list {l : List (ℕ × ℕ)} {cs : List MmapCall} (h : st.RegionsExact l rs cs) :
    st.mmapAddr = l := by
  cases cs with
  | nil => exact h
  | cons c cs => exact h.1

theorem removesFirst_of_call (rs : List SmReply) {c : MmapCall}
    (h : ∀ st' rs', st.call rs c = .ok (st', rs') → c.RemovesFirst st) : c.RemovesFirst st := by
  cases c with
  | mmap addr len prot flags fildes off => trivial
  | munmap addr len => exact h _ rs rfl

theorem regionsExact_iff {cs : List MmapCall} {l : List (ℕ × ℕ)} (hl : st.mmapAddr = l) :
    st.RegionsExact l rs cs ↔ st.RunMeets (fun st _ c => c.RemovesFirst st) rs cs := by
  induction cs generalizing st l rs with
  | nil => exact iff_of_true hl trivial
  | cons c cs ih =>
    subst hl
    constructor
    · intro h
      refine ⟨removesFirst_of_call rs fun st' rs' hr => ?_, fun st' rs' hr => ?_⟩
      · exact (call_list_iff hr).mp (h.2 st' rs' hr).list
      · exact (ih (h.2 st' rs' hr).list).mp (h.2 st' rs' hr)
    · rintro ⟨hfirst, hrest⟩
      refine ⟨rfl, fun st' rs' hr => ?_⟩
      exact (ih ((call_list_iff hr).mpr hfirst)).mpr (hrest st' rs' hr)

end MmapState

/-- **The list of regions is exact exactly if only first entries are removed.** In every run of
`mmap` and `munmap` calls, whatever the security monitor answers: the list has in every state the
regions that `mmap` has returned, in their order, less those that a `munmap` was to remove, if
and only if every `munmap` that is to remove a region finds it first in the list. -/
theorem mmap_regions_iff (sys : Sys) (rs : List SmReply) (cs : List MmapCall) :
    (MmapState.init sys).RegionsExact [] rs cs ↔
      (MmapState.init sys).RunMeets (fun st _ c => c.RemovesFirst st) rs cs :=
  MmapState.regionsExact_iff rfl

/-- **A region lost.** Two regions of one partition each; the second is unmapped, and the list is
empty. -/
theorem munmap_loses :
    (do
      let (st, _) ← (MmapState.init Sys.smallBoot).run [⟨0, 0x90000000⟩, ⟨0, 0xa0000000⟩]
        [.mmap 0 0x200000 3 0x22 (2 ^ 32 - 1) 0, .mmap 0 0x200000 3 0x22 (2 ^ 32 - 1) 0]
      .ok (st.mmapAddr, (st.munmap 0x1000200000 0x200000).2.mmapAddr) : Res _).toOption =
    some ([(0x1000000000, 0x1000200000), (0x1000200000, 0x1000400000)], []) := by
  decide +kernel

end Coffer
