/-
# What init functions do to memory

Besides acquiring other modules, an init function works on memory: `alloc` sets up its heap, and
the allocations of `vfs` and `net` may grow it. All that reaches the manager of this is
`map_page`, for megapages of the lower half, where the images are not. `EmodSpace` is what the
images need, and `Tame` says of a piece of work that it keeps it; the work of the repository's
modules does (`tame_initHeap`, `tame_expand`).
-/
import Coffer.Emodule
import Coffer.Heap.Expand

namespace Coffer

open Lib

/-- The images lie in order, and the lower half has no gigapage, which `map_page` would take for a
table. -/
structure EmodSpace (s : Sys) (is : List Image) : Prop extends Images s emodInitBrk is where
  low : ∀ x < 2 ^ 38, ∀ pte, s.leaf x ≠ some (.giga, pte)

/-- Work that leaves the images where they are. -/
def Tame (f : Sys → Res Sys) : Prop :=
  ∀ s s' is, EmodSpace s is → f s = .ok s' → EmodSpace s' is ∧ s'.smodePool.size = s.smodePool.size

/-- Images stay, wherever their addresses translate as before. -/
theorem Images.of_frame {s s' : Sys} {is : List Image} (h : Images s emodInitBrk is) (hinv : PtInv s')
    (hframe : PtFrame s s') (hgrow : PoolGrows s s')
    (hleaf : ∀ x, emodInitBrk ≤ x → x < 2 ^ 64 → s'.leaf x = s.leaf x) : Images s' emodInitBrk is := by
  have hbrk : s'.emoduleBrk = s.emoduleBrk := by rw [hframe.rest]
  have hstart := hframe.poolStart
  have hused := hgrow.used
  have hlo := h.init_le
  have hlt := h.brk_lt
  refine { inv := hinv, aligned := ?_, init_le := ?_, brk_lt := ?_, free := fun x hx hx' => ?_,
           base_le := h.base_le, tiled := ?_, maps := fun i hi x hx hx' => ?_,
           pool := fun i hi => ?_, apart := h.apart }
  · rw [hbrk]
    exact h.aligned
  · rw [hbrk]
    exact hlo
  · rw [hbrk]
    exact hlt
  · rw [hbrk] at hx
    rw [hleaf x (by omega) hx']
    exact h.free x hx hx'
  · rw [hbrk]
    exact h.tiled
  · obtain ⟨h1, h2⟩ := h.tiled.mem hi
    exact (h.maps i hi x hx hx').of_leaf (hleaf x (by omega) (by omega))
  · obtain ⟨h1, h2⟩ := h.pool i hi
    rw [hstart]
    exact ⟨h1, by omega⟩

theorem EmodSpace.mapPage {s s' : Sys} {is : List Image} {va pa flags : ℕ} (h : EmodSpace s is)
    (hal : va % 0x200000 = 0) (hva : va < 2 ^ 38) (hf : HasPerm flags)
    (hr : s.mapPage va pa flags .mega = .ok s') :
    EmodSpace s' is ∧ s'.smodePool.size = s.smodePool.size := by
  have hinit : emodInitBrk = 0xfffffff000000000 := rfl
  have hn : s.NoLeafAbove va .mega := by
    intro l pte hl
    cases l with
    | giga => exact absurd hl (h.low va hva pte)
    | mega => exact le_rfl
    | page => decide
  obtain ⟨h1, h2, h3⟩ := Sys.mapPage_spec h.inv hn hf hr
  obtain ⟨-, hend, hused⟩ := h.inv.pool_bounds
  have hgrow := Sys.mapPage_grows hused (by omega) hr
  have hsame : ∀ x, SamePage .mega va x ↔ va ≤ x % 2 ^ 39 ∧ x % 2 ^ 39 < va + 0x200000 := fun x =>
    samePage_range .mega x hal (by simp only [Level.size]; omega)
  refine ⟨{ h.toImages.of_frame h1 h2 hgrow fun x hx hx' => ?_ with low := fun x hx pte => ?_ }, h2.size⟩
  · rw [h3 x, if_neg (by rw [hsame]; omega)]
  · rw [h3 x]
    split
    · rw [ne_eq, Option.some.injEq, Prod.mk.injEq]
      exact fun hc => Level.noConfusion hc.1
    · exact h.low x hx pte

/-- The calls of `map_page` are for megapages of the lower half. -/
def LowMaps (evs : List MapEvent) : Prop :=
  ∀ va pa, .map va pa ∈ evs → va % 0x200000 = 0 ∧ va < 2 ^ 38

theorem LowMaps.append {evs evs' : List MapEvent} (h : LowMaps evs) (h' : LowMaps evs') :
    LowMaps (evs ++ evs') := fun va pa hm =>
  (List.mem_append.mp hm).elim (h va pa) (h' va pa)

theorem LowMaps.grant {va pa n k : ℕ} (hal : va % 0x200000 = 0) (hlt : va + 0x200000 * n ≤ 2 ^ 38) :
    LowMaps (.grant pa k :: mapCalls va pa n) := by
  intro va' pa' hm
  rcases List.mem_cons.mp hm with hm | hm
  · cases hm
  · obtain ⟨i, hi, he⟩ := List.mem_map.mp hm
    simp only [MapEvent.map.injEq] at he
    have hi := List.mem_range.mp hi
    rw [← he.1, slot, add64_eq (by omega)]
    omega

theorem tame_execCalls {evs : List MapEvent} (h : LowMaps evs) :
    Tame fun s => s.execCalls (pteR + pteW + pteX) evs := by
  induction evs with
  | nil =>
    intro s s' is hs hr
    cases hr
    exact ⟨hs, rfl⟩
  | cons e evs ih =>
    have ih := ih fun va pa hm => h va pa (List.mem_cons_of_mem _ hm)
    intro s s' is hs hr
    cases e with
    | grant pa k => exact ih s s' is hs hr
    | map va pa =>
      obtain ⟨s1, hr1, hr2⟩ := Res.bind_ok hr
      obtain ⟨hal, hva⟩ := h va pa List.mem_cons_self
      obtain ⟨h1, h2⟩ := hs.mapPage hal hva Heap.hasPerm_rwx hr1
      obtain ⟨h3, h4⟩ := ih s1 s' is h1 hr2
      exact ⟨h3, h4.trans h2⟩

/-! ### The heap -/

namespace Heap

/-- The loop of `init_heap`, for at most `left` partitions at a time. -/
theorem initLoop_low {startVa : ℕ} {rs : List SmReply} {left sug : ℕ} (hs : Splits rs left sug)
    (hle : sug ≤ left) (hal : startVa % 0x200000 = 0) (hlt : startVa + 0x200000 * left ≤ 2 ^ 38) :
    LowMaps (initLoop startVa rs left sug).1 := by
  induction rs generalizing left sug with
  | nil => cases left <;> exact fun va pa hm => absurd hm List.not_mem_nil
  | cons r rs ih =>
    cases left with
    | zero => exact fun va pa hm => absurd hm List.not_mem_nil
    | succ left =>
      simp only [Splits] at hs
      simp only [initLoop]
      by_cases hr : r.Refused
      · rw [if_pos hr] at hs ⊢
        exact ih hs.2 hs.1 hlt
      · rw [if_neg hr] at hs ⊢
        rw [sub64_eq hle (by omega)]
        exact (LowMaps.grant hal (by omega)).append (ih hs le_rfl (by omega))

theorem partitionLoop_low {va : ℕ} {rs : List SmReply} {left sug : ℕ} (hs : Splits rs left sug)
    (hle : sug ≤ left) (hal : va % 0x200000 = 0) (hlt : va + 0x200000 * left ≤ 2 ^ 38) :
    LowMaps (partitionLoop id rs left sug va).1 := by
  induction rs generalizing left sug va with
  | nil => cases left <;> exact fun va pa hm => absurd hm List.not_mem_nil
  | cons r rs ih =>
    cases left with
    | zero => exact fun va pa hm => absurd hm List.not_mem_nil
    | succ left =>
      simp only [Splits] at hs
      simp only [partitionLoop]
      by_cases hr : r.Refused
      · rw [if_pos hr] at hs ⊢
        exact ih hs.2 hs.1 hal hlt
      · rw [if_neg hr] at hs ⊢
        have hmul : mul64 sug 0x200000 = 0x200000 * sug := by rw [mul64_eq (by omega), Nat.mul_comm]
        rw [sub64_eq hle (by omega), hmul, add64_eq (by omega)]
        exact (LowMaps.grant hal (by simp only [id]; omega)).append (ih hs le_rfl (by omega) (by omega))

theorem binAdd_sys {h h' : Heap} {index node : ℕ} (hr : h.binAdd index node = .ok h') : h'.sys = h.sys := by
  obtain ⟨x, -, hx⟩ := Res.bind_ok hr
  cases hx
  rfl

theorem binRemove_sys {h h' : Heap} {index node : ℕ} (hr : h.binRemove index node = .ok h') :
    h'.sys = h.sys := by
  obtain ⟨x, -, hx⟩ := Res.bind_ok hr
  cases hx
  rfl

/-- `init_heap`, as work on the memory of the manager. -/
def initWork (m : Mem) (replies : List SmReply) (s : Sys) : Res Sys := do
  let h ← initHeap m s replies
  .ok h.sys

/-- `expand`, likewise. -/
def expandWork (h : Heap) (sz : ℕ) (s : Sys) : Res Sys := do
  let r ← { h with sys := s }.expand sz
  .ok r.2.sys

end Heap

open Heap

/-- `init_heap` is tame, with a monitor that suggests no more than was asked for. -/
theorem tame_initHeap (m : Mem) {replies : List SmReply} (hs : Splits replies 1 1) :
    Tame (initWork m replies) := by
  intro s s' is h hr
  obtain ⟨h₂, hinit, hres⟩ := Res.bind_ok hr
  cases hres
  obtain ⟨h₁, hmap, hrest⟩ := Res.bind_ok hinit
  obtain ⟨sys, rest, hx, -, rfl⟩ := mapGrants_ok hmap
  obtain ⟨h₃, hadd, hres⟩ := Res.bind_ok hrest
  cases hres
  have hsys : h₃.sys = sys := by
    unfold addNodeToBin at hadd
    split at hadd
    · cases hadd
    · exact binAdd_sys hadd
  have hlow : LowMaps (initLoop poolVaStart replies 1 1).1 := initLoop_low hs le_rfl
    (by rw [poolVaStart_eq]) (by rw [poolVaStart_eq]; norm_num)
  show EmodSpace h₃.sys is ∧ h₃.sys.smodePool.size = s.smodePool.size
  rw [hsys]
  exact tame_execCalls hlow s sys is h hx

/-- So is every growth of the heap in the lower half. -/
theorem tame_expand {h : Heap} {sz : ℕ} (hsz : h.stop + sz + 0x200000 < 2 ^ 64)
    (hend : partitionUp (h.stop + sz) ≤ 2 ^ 38) (hs : Splits h.replies (h.nrPart sz) (h.nrPart sz)) :
    Tame (h.expandWork sz) := by
  intro s s' is hspace hr
  obtain ⟨r, hexp, hres⟩ := Res.bind_ok hr
  cases hres
  obtain ⟨h₁, hmap, hgrow⟩ := Res.bind_ok hexp
  obtain ⟨sys, rest, hx, -, rfl⟩ := mapGrants_ok hmap
  obtain ⟨h₂, hrem, hrest⟩ := Res.bind_ok hgrow
  obtain ⟨h₃, hadd, hres⟩ := Res.bind_ok hrest
  cases hres
  have hsys : h₃.sys = sys := (binAdd_sys hadd).trans (binRemove_sys hrem)
  have hlow : LowMaps (partitionLoop id h.replies (h.nrPart sz) (h.nrPart sz) (partitionUp h.stop)).1 :=
    partitionLoop_low hs le_rfl (partitionUp_aligned _) (by rw [nrPart_eq hsz]; exact hend)
  show EmodSpace h₃.sys is ∧ h₃.sys.smodePool.size = s.smodePool.size
  rw [hsys]
  exact tame_execCalls hlow s sys is hspace hx

end Coffer
