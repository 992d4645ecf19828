/-
# The frames behind mmap

Frames come from the security monitor with a partition and circulate: they back the
pages of a region, go to `free_page` or `free_mega` with `munmap`, and are found again
through the page table, by the address they were last mapped at (`get_pa`). `Holds` ties
a list of pages to the list of their frames; every step of the allocators says what it
does to the two lists, and that is all that is needed to follow the frames through a run.

What `munmap` puts on `free_page` is computed from its own arguments, so a frame can end
up in two regions (`mmap_shares`). Where every `munmap` frees pages of the region it
removes, no frame backs two regions (`mmap_exclusive`). Frames also get lost: `munmap`
frees one megapage of a larger region, and forgets the regions listed before the one it
removes (`mmap_leaks`). Where it does neither, every frame granted is held by a region or
by a list, exactly once (`mmap_conserves`).
-/
import Coffer.Mmap

namespace Coffer

open Lib

variable {addr f p pa va x : ℕ} {s1 : Sys}

/-! ### Frames -/

/-- All addresses of a page are mapped to its frame. -/
theorem Sys.frameOf_page {s : Sys} (hx : x < 2 ^ 38) (h : s.frameOf x = some f) :
    s.frameOf (pageDown x) = some f := by
  simp only [Sys.frameOf, Option.map_eq_some_iff] at h
  obtain ⟨⟨level, pte⟩, hl, rfl⟩ := h
  have hs : SamePage level x (pageDown x) := by
    unfold SamePage pageDown
    cases level <;> simp only [Level.size] <;> omega
  rw [Sys.frameOf, Sys.leaf_congr hl hs, Option.map_some, Option.some.injEq]
  simp only [Sys.leafPa, pageDown]
  cases level <;> simp only [Level.size] <;> omega

theorem Sys.getPa_frame {s : Sys} (h : PtInv s) (hva : va < 2 ^ 38)
    (hf : s.frameOf (pageDown va) = some f) (hlt : f < 2 ^ 32) : (s.getPa va).2 / 0x1000 = f := by
  simp only [Sys.frameOf, Option.map_eq_some_iff] at hf
  obtain ⟨⟨level, pte⟩, hl, hpa⟩ := hf
  have hs : SamePage level (pageDown va) va := by
    unfold SamePage pageDown
    cases level <;> simp only [Level.size] <;> omega
  have hroot : s.tableRoot % 0x1000 = 0 := by
    obtain ⟨owner, hS⟩ := h
    exact hS.root_aligned
  rw [getPa_leaf hroot (Sys.leaf_congr hl hs)]
  simp only [Sys.leafPa, pageDown] at hpa
  simp only [add64]
  cases level <;> simp only [Level.size] at * <;> omega

/-- The frames of the grants. -/
def grantFrames (log : List (ℕ × ℕ)) : List ℕ :=
  log.flatMap fun g => (List.range (512 * g.2)).map fun i => g.1 / 0x1000 + i

theorem mem_grantFrames {log : List (ℕ × ℕ)} :
    f ∈ grantFrames log ↔ ∃ g ∈ log, g.1 / 0x1000 ≤ f ∧ f < g.1 / 0x1000 + 512 * g.2 := by
  simp only [grantFrames, List.mem_flatMap, List.mem_map, List.mem_range]
  constructor
  · rintro ⟨g, hg, i, hi, rfl⟩
    exact ⟨g, hg, by omega, by omega⟩
  · rintro ⟨g, hg, h1, h2⟩
    exact ⟨g, hg, f - g.1 / 0x1000, by omega, by omega⟩

theorem grantFrames_append (log log' : List (ℕ × ℕ)) :
    grantFrames (log ++ log') = grantFrames log ++ grantFrames log' :=
  List.flatMap_append

theorem grantFrames_range (top pa k : ℕ) :
    ((List.range (512 * k)).map fun i => (pa + (top + 0x1000 * i - top)) / 0x1000) =
      grantFrames [(pa, k)] := by
  rw [grantFrames, List.flatMap_cons, List.flatMap_nil, List.append_nil]
  exact List.map_congr_left fun i _ => by simp only; omega

/-- The grants are partitions in memory, apart from each other and from the tables `T`. -/
structure FreshLog (T : ℕ → Prop) (log : List (ℕ × ℕ)) : Prop where
  aligned : ∀ g ∈ log, g.1 % 0x200000 = 0
  fits : ∀ g ∈ log, g.1 + 0x200000 * g.2 ≤ 2 ^ 44
  tables : ∀ g ∈ log, ∀ y, g.1 ≤ y → y < g.1 + 0x200000 * g.2 → ¬ T y
  apart : log.Pairwise fun g g' => ∀ y, g.1 ≤ y → y < g.1 + 0x200000 * g.2 →
    ¬ (g'.1 ≤ y ∧ y < g'.1 + 0x200000 * g'.2)

section
variable {T : ℕ → Prop}

namespace FreshLog

variable {log log' : List (ℕ × ℕ)}

theorem of_sublist (h : FreshLog T log) (hs : log'.Sublist log) : FreshLog T log' :=
  ⟨fun g hg => h.aligned g (hs.subset hg), fun g hg => h.fits g (hs.subset hg),
    fun g hg => h.tables g (hs.subset hg), h.apart.sublist hs⟩

/-- A frame granted can be named by an entry of the page table, and is no table. -/
theorem frame (h : FreshLog T log) (hf : f ∈ grantFrames log) :
    f < 2 ^ 32 ∧ ∀ i < 0x1000, ¬ T (0x1000 * f + i) := by
  obtain ⟨g, hg, h1, h2⟩ := mem_grantFrames.mp hf
  have h3 := h.fits g hg
  have h4 := h.aligned g hg
  exact ⟨by omega, fun i hi => h.tables g hg _ (by omega) (by omega)⟩

theorem nodup (h : FreshLog T log) : (grantFrames log).Nodup := by
  rw [grantFrames, List.nodup_flatMap]
  refine ⟨fun g _ => List.Nodup.map (fun i j hij => by simpa using hij) List.nodup_range, ?_⟩
  refine h.apart.imp_of_mem fun {g g'} hg hg' hap f hf hf' => ?_
  obtain ⟨i, hi, rfl⟩ := List.mem_map.mp hf
  obtain ⟨j, hj, he⟩ := List.mem_map.mp hf'
  have h1 := h.aligned g hg
  have h2 := h.aligned g' hg'
  rw [List.mem_range] at hi hj
  exact hap (0x1000 * (g.1 / 0x1000 + i)) (by omega) (by omega) ⟨by omega, by omega⟩

end FreshLog

/-! ### Pages at the top -/

/-- `n` pages from `p`. -/
def pagesFrom (p n : ℕ) : List ℕ := (List.range n).map fun i => p + 0x1000 * i

theorem mem_pagesFrom {n : ℕ} : x ∈ pagesFrom p n ↔ ∃ i < n, x = p + 0x1000 * i := by
  simp only [pagesFrom, List.mem_map, List.mem_range, eq_comm]

theorem pagesFrom_succ (p n : ℕ) : pagesFrom p (n + 1) = pagesFrom p n ++ [p + 0x1000 * n] := by
  simp only [pagesFrom, List.range_succ, List.map_append, List.map_cons, List.map_nil]

theorem map_pagesFrom {α : Type} (f : ℕ → α) (p n : ℕ) :
    (pagesFrom p n).map f = (List.range n).map fun i => f (p + 0x1000 * i) := by
  rw [pagesFrom, List.map_map]
  rfl

theorem pagesFrom_add (p n k : ℕ) :
    pagesFrom p (n + k) = pagesFrom p n ++ pagesFrom (p + 0x1000 * n) k := by
  induction k with
  | zero => simp [pagesFrom]
  | succ k ih =>
    rw [← Nat.add_assoc, pagesFrom_succ, ih, pagesFrom_succ, List.append_assoc]
    congr 3
    omega

/-- All addresses of `[lo, hi)` are mapped with the flags of `mmap`. -/
def Sys.UserRange (s : Sys) (lo hi : ℕ) : Prop := ∀ x, lo ≤ x → x < hi → ∃ pa, s.Maps mmapFlags x pa

theorem Sys.UserRange.of_leaf {s s' : Sys} {lo hi : ℕ} (h : s.UserRange lo hi)
    (hl : ∀ x, lo ≤ x → x < hi → s'.leaf x = s.leaf x) : s'.UserRange lo hi := by
  intro x h1 h2
  obtain ⟨pa, hpa⟩ := h x h1 h2
  exact ⟨pa, hpa.of_leaf (hl x h1 h2)⟩

theorem Sys.UserRange.append {s : Sys} {lo mid hi : ℕ} (h : s.UserRange lo mid)
    (h' : s.UserRange mid hi) : s.UserRange lo hi := by
  intro x h1 h2
  by_cases hx : x < mid
  · exact h x h1 hx
  · exact h' x (by omega) h2

/-- The only change between the two states: `n` pages are mapped from `top`, to the
frames `fr`. -/
structure NewPages (s s' : Sys) (top n : ℕ) (fr : ℕ → Option ℕ) : Prop where
  inv : PtInv s'
  user : s'.UserRange top (top + 0x1000 * n)
  range : ∀ y, s'.TableRange y ↔ s.TableRange y
  frames : ∀ i < n, s'.frameOf (top + 0x1000 * i) = fr i
  leaf : ∀ x < 2 ^ 38, ¬ (top ≤ x ∧ x < top + 0x1000 * n) → s'.leaf x = s.leaf x

namespace NewPages

variable {s s' s'' : Sys} {top n : ℕ} {fr : ℕ → Option ℕ}

theorem refl (h : PtInv s) (top : ℕ) (fr : ℕ → Option ℕ) : NewPages s s top 0 fr :=
  ⟨h, fun x h1 h2 => by omega, fun _ => Iff.rfl, fun i hi => absurd hi (Nat.not_lt_zero i), fun _ _ _ => rfl⟩

theorem of_mapped {lo hi : ℕ} {pa : ℕ → ℕ} (h : Mapped s s' lo hi mmapFlags pa)
    (hhi : hi = lo + 0x1000 * n) :
    NewPages s s' lo n fun i => some (pa (lo + 0x1000 * i) / 0x1000) := by
  refine ⟨h.inv, fun x h1 h2 => ⟨pa x, h.maps x h1 (by rwa [hhi])⟩, h.range, fun i hi => ?_,
    fun x h1 h2 => h.leaf x h1 (by rwa [hhi])⟩
  obtain ⟨level, pte, hl, hpa, -⟩ := h.maps (lo + 0x1000 * i) (by omega) (by omega)
  rw [Sys.frameOf, hl, Option.map_some, hpa]

theorem snoc {f : Option ℕ} (h : NewPages s s' top n fr)
    (h' : NewPages s' s'' (top + 0x1000 * n) 1 fun _ => f) (hf : fr n = f)
    (hlt : top + 0x1000 * n < 2 ^ 38) : NewPages s s'' top (n + 1) fr := by
  have hsucc : 0x1000 * (n + 1) = 0x1000 * n + 0x1000 := Nat.mul_succ _ _
  refine ⟨h'.inv, ?_, fun y => (h'.range y).trans (h.range y), fun i hi => ?_, fun x h1 h2 => ?_⟩
  · refine (h.user.of_leaf fun x h1 h2 => h'.leaf x (by omega) (by omega)).append ?_
    rw [hsucc, ← Nat.add_assoc]
    exact h'.user
  · by_cases hin : i = n
    · rw [hin, hf]
      exact h'.frames 0 Nat.one_pos
    · have hlt' : 0x1000 * i + 0x1000 ≤ 0x1000 * n := by omega
      rw [Sys.frameOf_congr (h'.leaf _ (by omega) (by omega)), h.frames i (by omega)]
  · rw [h'.leaf x h1 (by omega), h.leaf x h1 (by omega)]

end NewPages

theorem hasPerm_mmapFlags : HasPerm mmapFlags := by
  unfold HasPerm
  decide

/-- A page of a block, mapped again at `top`, has the frame it had. -/
theorem Sys.recycle_mapped {s : Sys} {top : ℕ} (hinv : PtInv s) (htop : top % 0x1000 = 0)
    (hlt : top + 0x1000 ≤ 2 ^ 38) (hfree : ∀ x, top ≤ x → x < top + 0x1000 → s.leaf x = none)
    (hva : va < 2 ^ 38) (hf : s.frameOf (pageDown va) = some f) (hf32 : f < 2 ^ 32)
    (hr : s.mapPage top (s.getPa va).2 mmapFlags .page = .ok s1) :
    Mapped s s1 top (top + 0x1000) mmapFlags fun x => 0x1000 * f + (x - top) := by
  have hpa := Sys.getPa_frame hinv hva hf hf32
  have hm := Sys.mapPage_mapped hinv htop hasPerm_mmapFlags hlt (by omega) hfree hr
  rwa [hpa] at hm

/-- It is zeroed then, and nothing else changes. -/
theorem Sys.recycle_spec {s s2 : Sys} {top : ℕ} (hlt : top + 0x1000 ≤ 2 ^ 38)
    (hm : Mapped s s1 top (top + 0x1000) mmapFlags fun x => 0x1000 * f + (x - top))
    (htab : ∀ i < 0x1000, ¬ s.TableRange (0x1000 * f + i))
    (hr : s1.memset top 0 0x1000 = .ok s2) : NewPages s s2 top 1 fun _ => some f := by
  have hn := NewPages.of_mapped (n := 1) hm rfl
  have hfr : ∀ i < 0x1000, ∀ pa, s1.storePa (add64 top i) = some pa → ¬ s1.TableRange pa := by
    intro i hi pa hpa'
    rw [add64_eq (by omega)] at hpa'
    rw [(hm.maps (top + i) (by omega) (by omega)).storePa hpa', Nat.add_sub_cancel_left]
    exact mt (hm.range _).mp (htab i hi)
  obtain ⟨e1, e2, -, -⟩ := Sys.memset_spec hm.inv hfr hr
  obtain ⟨e3, e4⟩ := hm.inv.of_mem e1 e2
  refine ⟨e3, hn.user.of_leaf fun x _ _ => e4 x, fun y => ?_, fun i hi => ?_,
    fun x h1 h2 => (e4 x).trans (hn.leaf x h1 h2)⟩
  · rw [Sys.tableRange_of_eq (by rw [e1]) (by rw [e1]) (by rw [e1])]
    exact hm.range y
  · rw [Sys.frameOf_congr (e4 _), hn.frames i hi]
    have h0 : 0x1000 * i = 0 := by omega
    rw [h0, Nat.add_zero, Nat.sub_self, Nat.add_zero, Nat.mul_div_cancel_left _ (by omega)]

/-! ### Who holds which frame -/

/-- The pages `H`, all below `top`, are mapped to the frames `F`, and nothing is mapped
from `top` up to the heap. -/
structure Holds (T : ℕ → Prop) (s : Sys) (top : ℕ) (H F : List ℕ) : Prop where
  inv : PtInv s
  range : ∀ y, s.TableRange y ↔ T y
  aligned : top % 0x1000 = 0
  base_le : mmapBase ≤ top
  top_le : top ≤ poolVaStart
  free : ∀ x, top ≤ x → x < poolVaStart → s.leaf x = none
  below : ∀ p ∈ H, p % 0x1000 = 0 ∧ p < top
  frames : (H.map s.frameOf).Perm (F.map some)

namespace Holds

variable {s s' : Sys} {top n : ℕ} {H H' F : List ℕ}

theorem perm (h : Holds T s top H F) (hp : H'.Perm H) : Holds T s top H' F :=
  { h with
    below := fun p hp' => h.below p (hp.subset hp')
    frames := (hp.map _).trans h.frames }

theorem of_subperm (h : Holds T s top H F) (hs : H'.Subperm H) :
    ∃ F', F'.Subperm F ∧ Holds T s top H' F' := by
  have h1 : (H'.map s.frameOf).Subperm (F.map some) := by
    obtain ⟨l, hl, hsub⟩ := hs
    exact (hl.map _).symm.subperm.trans ((hsub.map _).subperm.trans h.frames.subperm)
  obtain ⟨l, hl, hsub⟩ := h1
  obtain ⟨F', hF', rfl⟩ := List.sublist_map_iff.mp hsub
  exact ⟨F', hF'.subperm, { h with below := fun p hp => h.below p (hs.subset hp), frames := hl.symm }⟩

theorem raise (h : Holds T s top H F) {top' : ℕ} (hle : top ≤ top') (hlt : top' ≤ poolVaStart)
    (hal : top' % 0x1000 = 0) : Holds T s top' H F :=
  { h with
    aligned := hal
    base_le := le_trans h.base_le hle
    top_le := hlt
    free := fun x hx => h.free x (le_trans hle hx)
    below := fun p hp => ⟨(h.below p hp).1, lt_of_lt_of_le (h.below p hp).2 hle⟩ }

theorem map_old (h : Holds T s top H F) {fr : ℕ → Option ℕ} (hn : NewPages s s' top n fr) :
    H.map s'.frameOf = H.map s.frameOf := by
  have hpool := poolVaStart_eq
  have htop := h.top_le
  refine List.map_congr_left fun p hp => ?_
  have := (h.below p hp).2
  exact Sys.frameOf_congr (hn.leaf p (by omega) (by omega))

theorem map_new {fr : ℕ → Option ℕ} (hn : NewPages s s' top n fr) :
    (pagesFrom top n).map s'.frameOf = (List.range n).map fr := by
  rw [map_pagesFrom]
  exact List.map_congr_left fun i hi => hn.frames i (List.mem_range.mp hi)

/-- New pages at the top, whatever their frames. -/
theorem new (h : Holds T s top H F) {fr : ℕ → Option ℕ} (hn : NewPages s s' top n fr)
    (hlt : top + 0x1000 * n ≤ poolVaStart) {F' : List ℕ} (hH : H'.Sublist H)
    (hF : ((List.range n).map fr ++ H'.map s.frameOf).Perm (F'.map some)) :
    Holds T s' (top + 0x1000 * n) (pagesFrom top n ++ H') F' := by
  have hpool := poolVaStart_eq
  have hal := h.aligned
  refine ⟨hn.inv, fun y => (hn.range y).trans (h.range y), by omega,
    le_trans h.base_le (Nat.le_add_right _ _), hlt, fun x hx1 hx2 => ?_, fun p hp => ?_, ?_⟩
  · rw [hn.leaf x (by omega) (by omega)]
    exact h.free x (by omega) hx2
  · rcases List.mem_append.mp hp with hp | hp
    · obtain ⟨i, hi, rfl⟩ := mem_pagesFrom.mp hp
      omega
    · have := h.below p (hH.subset hp)
      omega
  · have hold : H'.map s'.frameOf = H'.map s.frameOf := by
      obtain ⟨F1, -, h1⟩ := h.of_subperm hH.subperm
      exact h1.map_old hn
    rwa [List.map_append, map_new hn, hold]

theorem extend (h : Holds T s top H F) {g : ℕ → ℕ} (hn : NewPages s s' top n fun i => some (g i))
    (hlt : top + 0x1000 * n ≤ poolVaStart) :
    Holds T s' (top + 0x1000 * n) (pagesFrom top n ++ H) ((List.range n).map g ++ F) := by
  refine h.new hn hlt (List.Sublist.refl H) ?_
  rw [List.map_append, List.map_map]
  exact List.Perm.append_left _ h.frames

theorem recycle (h : Holds T s top (pagesFrom p n ++ H) F)
    (hn : NewPages s s' top n fun i => s.frameOf (p + 0x1000 * i))
    (hlt : top + 0x1000 * n ≤ poolVaStart) :
    Holds T s' (top + 0x1000 * n) (pagesFrom top n ++ H) F := by
  refine h.new hn hlt (List.sublist_append_right _ _) ?_
  have h1 := h.frames
  rwa [List.map_append, map_pagesFrom] at h1

theorem frame_of_mem (h : Holds T s top H F) (hp : p ∈ H) : ∃ f ∈ F, s.frameOf p = some f := by
  have h1 := h.frames.subset (List.mem_map_of_mem hp)
  obtain ⟨f, hf, he⟩ := List.mem_map.mp h1
  exact ⟨f, hf, he.symm⟩

end Holds

/-! ### Small pages -/

/-- The pages of a block of `free_page`. -/
def blockPages (b : ℕ × ℕ) : List ℕ := pagesFrom (pageDown b.1) b.2

/-- The frames may be named by the page table and are no tables. -/
def Usable (T : ℕ → Prop) (F : List ℕ) : Prop := ∀ f ∈ F, f < 2 ^ 32 ∧ ∀ i < 0x1000, ¬ T (0x1000 * f + i)

theorem pageDown_add {k : ℕ} (hk : k % 0x1000 = 0) (hlt : va + k < 2 ^ 64) :
    pageDown (add64 va k) = pageDown va + k := by
  rw [add64_eq hlt]
  unfold pageDown
  omega

namespace MmapState

variable {st st' : MmapState} {rs rs' : List SmReply} {H F : List ℕ} {num : ℕ}

/-- After `n` pages of a block have moved, the next one still has its frame and there is
room for it. -/
theorem next_page {s : Sys} {top n : ℕ} {fr : ℕ → Option ℕ} (hp : pageDown va = p)
    (h : Holds T s top (pagesFrom p n ++ ((p + 0x1000 * n) :: H)) F) (hF : Usable T F)
    (hlt : top + 0x1000 * n + 0x1000 ≤ poolVaStart) (hn : NewPages s s1 top n fr) :
    ∃ f, s.frameOf (p + 0x1000 * n) = some f ∧ f < 2 ^ 32 ∧
      (∀ i < 0x1000, ¬ s1.TableRange (0x1000 * f + i)) ∧
      s1.frameOf (pageDown (add64 va (0x1000 * n))) = some f ∧ add64 va (0x1000 * n) < 2 ^ 38 ∧
      ∀ x, top + 0x1000 * n ≤ x → x < top + 0x1000 * n + 0x1000 → s1.leaf x = none := by
  have hpool := poolVaStart_eq
  have hmem : p + 0x1000 * n ∈ pagesFrom p n ++ ((p + 0x1000 * n) :: H) := by simp
  have hb := (h.below _ hmem).2
  obtain ⟨f, hfF, hf⟩ := h.frame_of_mem hmem
  obtain ⟨hf32, htab⟩ := hF f hfF
  have hva : va + 0x1000 * n < 2 ^ 38 := by
    unfold pageDown at hp
    omega
  refine ⟨f, hf, hf32, fun i hi => mt ((hn.range _).trans (h.range _)).mp (htab i hi), ?_, ?_, ?_⟩
  · rw [pageDown_add (by omega) (by omega), hp,
      Sys.frameOf_congr (hn.leaf _ (by omega) (by omega)), hf]
  · rw [add64_eq (by omega)]
    exact hva
  · intro x hx1 hx2
    rw [hn.leaf x (by omega) (by omega)]
    exact h.free x (by omega) (by omega)

/-- The pages of a block move to the top with their frames. -/
theorem recyclePages_new {n : ℕ} (hp : pageDown va = p)
    (h : Holds T st.sys st.mmapTop (pagesFrom p n ++ H) F) (hF : Usable T F)
    (hlt : st.mmapTop + 0x1000 * n ≤ poolVaStart) (hr : st.recyclePages va n = .ok st') :
    NewPages st.sys st'.sys st.mmapTop n (fun i => st.sys.frameOf (p + 0x1000 * i)) ∧
      st' = { st with
        sys := st'.sys
        mmapTop := st.mmapTop + 0x1000 * n
        mapped := pageCalls st.mmapTop n ++ st.mapped } := by
  have hpool := poolVaStart_eq
  induction n generalizing st' H with
  | zero =>
    cases hr
    exact ⟨NewPages.refl h.inv _ _, rfl⟩
  | succ n ih =>
    rw [recyclePages] at hr
    obtain ⟨st1, hr1, hr2⟩ := Res.bind_ok hr
    obtain ⟨sys1, hr3, hr4⟩ := Res.bind_ok hr2
    obtain ⟨sys2, hr5, hr6⟩ := Res.bind_ok hr4
    simp only [Except.ok.injEq] at hr6
    simp only [pagesFrom_succ, List.append_assoc, List.singleton_append] at h
    rw [Nat.mul_succ, ← Nat.add_assoc] at hlt
    obtain ⟨h1, h2⟩ := ih h (by omega) hr1
    have htop1 : st1.mmapTop = st.mmapTop + 0x1000 * n := by rw [h2]
    obtain ⟨f, hf, hf32, htab, hf1, hva, hfree⟩ := next_page hp h hF hlt h1
    have hal := h.aligned
    rw [htop1] at hr3 hr5
    have hm := Sys.recycle_mapped h1.inv (by omega) (by omega) hfree hva hf1 hf32 hr3
    have h3 := Sys.recycle_spec (by omega) hm htab hr5
    have hsys : st'.sys = sys2 := by rw [← hr6]
    rw [hsys]
    refine ⟨h1.snoc h3 hf (by omega), ?_⟩
    rw [← hr6, htop1, add64_eq (by omega), h2, pageCalls_succ, add64_eq (by omega), Nat.mul_succ,
      ← Nat.add_assoc]
    rfl

theorem recyclePages_holds {n : ℕ}
    (h : Holds T st.sys st.mmapTop (blockPages (va, n) ++ H) F) (hF : Usable T F)
    (hlt : st.mmapTop + 0x1000 * n ≤ poolVaStart) (hr : st.recyclePages va n = .ok st') :
    Holds T st'.sys st'.mmapTop (pagesFrom st.mmapTop n ++ H) F ∧
      st'.mmapTop = st.mmapTop + 0x1000 * n ∧ st'.granted = st.granted ∧ st'.freeMega = st.freeMega := by
  obtain ⟨h1, h2⟩ := recyclePages_new rfl h hF hlt hr
  have htop : st'.mmapTop = st.mmapTop + 0x1000 * n := by rw [h2]
  refine ⟨?_, htop, by rw [h2], by rw [h2]⟩
  rw [htop]
  exact h.recycle h1 hlt

theorem smallFromPartition_holds (h : Holds T st.sys st.mmapTop H F) (hlog : FreshLog T st'.granted)
    (hlt : st.mmapTop + 0x200000 ≤ poolVaStart) (hg : FirstGranted rs)
    (hr : st.smallFromPartition num rs = .ok (st', rs')) :
    ∃ new, st'.granted = new ++ st.granted ∧ st'.freeMega = st.freeMega ∧
      Holds T st'.sys st'.mmapTop (pagesFrom st.mmapTop num ++ (st'.freePage.flatMap blockPages ++ H))
        (grantFrames new ++ F) := by
  have hpool := poolVaStart_eq
  cases rs with
  | nil => cases hr
  | cons r rs =>
    have hnr : ¬ r.Refused := hg
    simp only [smallFromPartition, if_neg hnr] at hr
    obtain ⟨sys, hr1, hr2⟩ := Res.bind_ok hr
    split at hr2
    · rename_i hnum
      obtain ⟨rfl, rfl⟩ := Res.ok_pair hr2
      have hal := h.aligned
      have hral : r.paddr % 0x200000 = 0 := hlog.aligned _ List.mem_cons_self
      have hfit : r.paddr + 0x200000 * 1 ≤ 2 ^ 44 := hlog.fits _ List.mem_cons_self
      have hsz : Level.page.size * 512 = 0x200000 := rfl
      have hm := Sys.mapRange_mapped h.inv (by simp only [Level.size]; omega)
        (by simp only [Level.size]; omega) hasPerm_mmapFlags (by rw [hsz]; omega) (by rw [hsz]; omega)
        (fun x h1 h2 => h.free x h1 (by rw [hsz] at h2; omega)) hr1
      rw [hsz] at hm
      have h1 := h.extend (NewPages.of_mapped (n := 512) hm rfl) (by omega)
      refine ⟨[(r.paddr, 1)], rfl, rfl, ?_⟩
      have htop : add64 st.mmapTop 0x200000 = st.mmapTop + 0x1000 * 512 := add64_eq (by omega)
      have hva : add64 st.mmapTop (0x1000 * num) = st.mmapTop + 0x1000 * num := add64_eq (by omega)
      have hdown : pageDown (st.mmapTop + 0x1000 * num) = st.mmapTop + 0x1000 * num := by
        unfold pageDown
        omega
      have hsplit : pagesFrom st.mmapTop 512 =
          pagesFrom st.mmapTop num ++ pagesFrom (st.mmapTop + 0x1000 * num) (512 - num) := by
        rw [← pagesFrom_add, show num + (512 - num) = 512 by omega]
      have hframes := grantFrames_range st.mmapTop r.paddr 1
      simp only [htop, hva, List.flatMap_cons, List.flatMap_nil, blockPages, hdown, List.append_nil]
      rwa [hsplit, List.append_assoc, hframes] at h1
    · cases hr2

/-- The pages on the list. -/
def freeCount (free : List (ℕ × ℕ)) : ℕ := (free.map Prod.snd).sum

theorem smallLoop_holds {free : List (ℕ × ℕ)}
    (h : Holds T st.sys st.mmapTop (free.flatMap blockPages ++ H) F) (hF : Usable T F)
    (hlog : FreshLog T st'.granted) (hlt : st.mmapTop + 0x1000 * num + 0x200000 ≤ poolVaStart)
    (hg : num ≤ freeCount free ∨ FirstGranted rs) (hr : smallLoop rs free st num = .ok (st', rs')) :
    ∃ new, st'.granted = new ++ st.granted ∧ st'.freeMega = st.freeMega ∧
      Holds T st'.sys st'.mmapTop (pagesFrom st.mmapTop num ++ (st'.freePage.flatMap blockPages ++ H))
        (grantFrames new ++ F) := by
  have hpool := poolVaStart_eq
  have hnil : pagesFrom st.mmapTop 0 = [] := rfl
  induction free generalizing st num H with
  | nil =>
    rw [smallLoop] at hr
    split at hr
    · rename_i h0
      obtain ⟨rfl, rfl⟩ := Res.ok_pair hr
      rw [h0, hnil]
      exact ⟨[], rfl, rfl, h⟩
    · rename_i h0
      have hg : FirstGranted rs := by
        rcases hg with hg | hg
        · simp only [freeCount, List.map_nil, List.sum_nil] at hg
          omega
        · exact hg
      exact smallFromPartition_holds h hlog (by omega) hg hr
  | cons b free ih =>
    obtain ⟨va, count⟩ := b
    rw [smallLoop] at hr
    rw [List.flatMap_cons, List.append_assoc] at h
    split at hr
    · rename_i h0
      obtain ⟨rfl, rfl⟩ := Res.ok_pair hr
      rw [h0, hnil]
      refine ⟨[], rfl, rfl, ?_⟩
      rw [List.flatMap_cons, List.append_assoc]
      exact h
    · split at hr
      · rename_i hle
        obtain ⟨st1, hr1, hr2⟩ := Res.bind_ok hr
        obtain ⟨h1, h2, h3, h4⟩ := recyclePages_holds h hF (by omega) hr1
        -- the block is used up; its pages are the region's now
        have h5 : Holds T st1.sys st1.mmapTop
            (free.flatMap blockPages ++ (pagesFrom st.mmapTop count ++ H)) F := by
          refine h1.perm ?_
          rw [← List.append_assoc, ← List.append_assoc]
          exact List.Perm.append_right H List.perm_append_comm
        have hg : num - count ≤ freeCount free ∨ FirstGranted rs := by
          rcases hg with hg | hg
          · simp only [freeCount, List.map_cons, List.sum_cons] at hg ⊢
            omega
          · exact Or.inr hg
        obtain ⟨new, h6, h7, h8⟩ := ih h5 (by omega) hg hr2 rfl
        refine ⟨new, by rw [h6, h3], h7.trans h4, h8.perm ?_⟩
        have hsplit : pagesFrom st.mmapTop num =
            pagesFrom st.mmapTop count ++ pagesFrom st1.mmapTop (num - count) := by
          rw [h2, ← pagesFrom_add, Nat.add_sub_of_le hle]
        rw [hsplit]
        refine List.perm_iff_count.mpr fun a => ?_
        simp only [List.count_append]
        omega
      · rename_i hle
        obtain ⟨st1, hr1, hr2⟩ := Res.bind_ok hr
        obtain ⟨rfl, rfl⟩ := Res.ok_pair hr2
        have hsplit : blockPages (va, count) =
            blockPages (va, num) ++ blockPages (add64 va (0x1000 * num), count - num) := by
          have hb : pageDown va + 0x1000 * num < st.mmapTop :=
            (h.below _ (List.mem_append_left _ (mem_pagesFrom.mpr ⟨num, by omega, rfl⟩))).2
          have htop := h.top_le
          have hva : pageDown (add64 va (0x1000 * num)) = pageDown va + 0x1000 * num := by
            refine pageDown_add (by omega) ?_
            unfold pageDown at hb
            omega
          simp only [blockPages, hva]
          rw [← pagesFrom_add, show num + (count - num) = count by omega]
        rw [hsplit, List.append_assoc] at h
        obtain ⟨h1, h2, h3, h4⟩ := recyclePages_holds h hF (by omega) hr1
        refine ⟨[], h3, h4, ?_⟩
        rw [List.flatMap_cons, List.append_assoc]
        exact h1

end MmapState

/-! ### Megapages -/

theorem grantsOf_append (evs evs' : List MapEvent) :
    grantsOf (evs ++ evs') = grantsOf evs' ++ grantsOf evs := by
  induction evs with
  | nil => simp [grantsOf]
  | cons e evs ih => cases e <;> simp [grantsOf, ih]

theorem grantsOf_mapCalls (va pa n : ℕ) : grantsOf (mapCalls va pa n) = [] := by
  induction n with
  | zero => rfl
  | succ n ih =>
    rw [mapCalls_succ, grantsOf_append, ih]
    rfl

theorem grantsOf_grant (va pa n : ℕ) (evs : List MapEvent) :
    grantsOf (.grant pa n :: mapCalls va pa n ++ evs) = grantsOf evs ++ [(pa, n)] := by
  rw [List.cons_append, grantsOf, grantsOf_append, grantsOf_mapCalls, List.append_nil]

/-- A grant of `k` partitions, mapped at the top. -/
theorem Holds.grant {s s' : Sys} {top k : ℕ} {H F : List ℕ} (h : Holds T s top H F)
    (hal : top % 0x200000 = 0) (hlog : FreshLog T [(pa, k)]) (hlt : top + 0x200000 * k ≤ poolVaStart)
    (hr : s.mapRange top pa mmapFlags .mega k = .ok s') :
    Holds T s' (top + 0x200000 * k) (pagesFrom top (512 * k) ++ H) (grantFrames [(pa, k)] ++ F) := by
  have hpool := poolVaStart_eq
  have hral : pa % 0x200000 = 0 := hlog.aligned _ List.mem_cons_self
  have hfit : pa + 0x200000 * k ≤ 2 ^ 44 := hlog.fits _ List.mem_cons_self
  have hsz : Level.mega.size * k = 0x200000 * k := rfl
  have hk : 0x1000 * (512 * k) = 0x200000 * k := by omega
  have hm := Sys.mapRange_mapped h.inv hal hral hasPerm_mmapFlags (by rw [hsz]; omega)
    (by rw [hsz]; omega) (fun x h1 h2 => h.free x h1 (by rw [hsz] at h2; omega)) hr
  rw [hsz] at hm
  have h1 := h.extend (NewPages.of_mapped (n := 512 * k) hm (by rw [hk])) (by rw [hk]; exact hlt)
  rwa [grantFrames_range, hk] at h1

/-- What each grant keeps, the loop of `alloc_mega_page` keeps. -/
theorem partitions_induct {P : ℕ → List (ℕ × ℕ) → Sys → Prop}
    (hstep : ∀ {top pa k : ℕ} {log : List (ℕ × ℕ)} {s s' : Sys}, P top log s → top % 0x200000 = 0 →
      top + 0x200000 * k ≤ poolVaStart → s.mapRange top pa mmapFlags .mega k = .ok s' →
      P (top + 0x200000 * k) ((pa, k) :: log) s')
    {rs rest : List SmReply} {left sug top : ℕ} (log : List (ℕ × ℕ)) {s s' : Sys} {evs : List MapEvent}
    (h : P top log s) (hal : top % 0x200000 = 0)
    (he : partitionLoop (fun allocated => allocated) rs left sug top = (evs, some rest))
    (hlt : top + 0x200000 * (mapsOf evs).length ≤ poolVaStart)
    (hr : s.execCalls mmapFlags evs = .ok s') :
    P (top + 0x200000 * (mapsOf evs).length) (grantsOf evs ++ log) s' := by
  have hpool := poolVaStart_eq
  induction rs generalizing left sug top s log evs with
  | nil =>
    cases left with
    | zero =>
      simp only [partitionLoop, Prod.mk.injEq] at he
      obtain ⟨rfl, -⟩ := he
      cases hr
      exact h
    | succ left => simp [partitionLoop] at he
  | cons r rs ih =>
    cases left with
    | zero =>
      simp only [partitionLoop, Prod.mk.injEq] at he
      obtain ⟨rfl, -⟩ := he
      cases hr
      exact h
    | succ left =>
      rw [partitionLoop] at he
      by_cases hrf : r.Refused
      · rw [if_pos hrf] at he
        exact ih _ h hal he hlt hr
      · rw [if_neg hrf] at he
        simp only [Prod.mk.injEq] at he
        obtain ⟨rfl, hrest⟩ := he
        generalize hnext : partitionLoop (fun allocated => allocated) rs (sub64 (left + 1) sug)
          (sub64 (left + 1) sug) (add64 top (mul64 sug 0x200000)) = next at hlt hr hrest ⊢
        obtain ⟨evs, rest'⟩ := next
        simp only at hlt hr hrest ⊢
        subst hrest
        rw [mapsOf_grant, List.length_append, length_mapsOf_mapCalls] at hlt ⊢
        have hva : add64 top (mul64 sug 0x200000) = top + 0x200000 * sug := by
          rw [mul64_eq (by omega), add64_eq (by omega), Nat.mul_comm]
        rw [hva] at hnext
        rw [List.cons_append, Sys.execCalls, Sys.execCalls_append, Sys.execCalls_mapCalls] at hr
        obtain ⟨s1, hr1, hr2⟩ := Res.bind_ok hr
        have h1 := ih _ (hstep h hal (by omega) hr1) (by omega) hnext (by omega) hr2
        rw [grantsOf_grant, List.append_assoc, List.singleton_append]
        have htop : top + 0x200000 * sug + 0x200000 * (mapsOf evs).length =
            top + 0x200000 * ((mapsOf evs).length + sug) := by omega
        rwa [htop] at h1

theorem Holds.partitions {rs rest : List SmReply} {left sug top : ℕ} {s s' : Sys} {H F : List ℕ}
    {evs : List MapEvent} (h : Holds T s top H F) (hal : top % 0x200000 = 0)
    (he : partitionLoop (fun allocated => allocated) rs left sug top = (evs, some rest))
    (hlt : top + 0x200000 * (mapsOf evs).length ≤ poolVaStart) (hlog : FreshLog T (grantsOf evs))
    (hr : s.execCalls mmapFlags evs = .ok s') :
    Holds T s' (top + 0x200000 * (mapsOf evs).length)
      (pagesFrom top (512 * (mapsOf evs).length) ++ H) (grantFrames (grantsOf evs) ++ F) := by
  have h1 := partitions_induct
    (P := fun t log s => ∃ n, t = top + 0x200000 * n ∧
      (FreshLog T log → Holds T s t (pagesFrom top (512 * n) ++ H) (grantFrames log ++ F)))
    (fun {t pa k log s s'} => ?_) [] ⟨0, rfl, fun _ => h⟩ hal he hlt hr
  · obtain ⟨n, hn, h1⟩ := h1
    rw [List.append_nil] at h1
    have hn' : n = (mapsOf evs).length := by omega
    subst hn'
    exact h1 hlog
  · rintro ⟨n, rfl, h1⟩ hal hlt hr
    refine ⟨n + k, by omega, fun hlog => ?_⟩
    have h2 := (h1 (hlog.of_sublist (List.sublist_cons_self _ _))).grant hal
      (hlog.of_sublist (List.Sublist.cons_cons _ (List.nil_sublist _))) hlt hr
    rw [← List.singleton_append, grantFrames_append, List.append_assoc]
    refine h2.perm ?_
    rw [Nat.mul_add, pagesFrom_add, show 0x1000 * (512 * n) = 0x200000 * n by omega, ← List.append_assoc]
    exact List.Perm.append_right H List.perm_append_comm

/-! ### Calls -/

/-- The pages that `mmap` takes for a length: whole pages, or whole partitions. -/
def regionCount (len : ℕ) : ℕ :=
  if 0x200000 ≤ len then 512 * ((len + 0x1fffff) / 0x200000) else (len + 0xfff) / 0x1000

/-- The pages of a region. -/
def regionPages (r : ℕ × ℕ) : List ℕ := pagesFrom r.1 (regionCount (r.2 - r.1))

namespace MmapState

/-- The pages of `free_mega`. -/
def megaPages (st : MmapState) : List ℕ := st.freeMega.flatMap fun va => pagesFrom va 512

/-- What an allocation must find: a length that can be rounded up, no megapage to use
again, a grant where the list of small pages does not suffice, and room below the heap. -/
def AllocOk (st : MmapState) (len : ℕ) (rs : List SmReply) : Prop :=
  if 0x200000 ≤ len then
    len ≤ 2 ^ 64 - 0x200000 ∧ st.freeMega = [] ∧
      st.alignTop.mmapTop +
        0x200000 * (mapsOf (st.alignTop.megaPartitions (partitionUp len / 0x200000) rs).1).length ≤
          poolVaStart
  else
    st.mmapTop + 0x400000 ≤ poolVaStart ∧
      (pageUp len / 0x1000 ≤ freeCount st.freePage ∨ FirstGranted rs)

variable {st st' : MmapState} {len mem : ℕ} {rs rs' : List SmReply} {H F : List ℕ}

theorem allocSmallPage_holds
    (h : Holds T st.sys st.mmapTop (st.freePage.flatMap blockPages ++ H) F) (hF : Usable T F)
    (hlog : FreshLog T st'.granted) (hlen : len < 0x200000) (hok : st.AllocOk len rs)
    (hr : st.allocSmallPage (pageUp len / 0x1000) rs = .ok (mem, st', rs')) :
    mem = st.mmapTop ∧ mem + len ≤ poolVaStart ∧ ∃ new, st'.granted = new ++ st.granted ∧
      st'.freeMega = st.freeMega ∧ Holds T st'.sys st'.mmapTop
        (pagesFrom mem (regionCount len) ++ (st'.freePage.flatMap blockPages ++ H))
        (grantFrames new ++ F) := by
  rw [AllocOk, if_neg (by omega)] at hok
  obtain ⟨hroom, hg⟩ := hok
  unfold allocSmallPage at hr
  split at hr
  · simp only [reduceCtorEq] at hr
  · obtain ⟨⟨st1, rs1⟩, hr1, hr2⟩ := Res.bind_ok hr
    simp only [Except.ok.injEq, Prod.mk.injEq] at hr2
    obtain ⟨rfl, rfl, rfl⟩ := hr2
    have hcount : pageUp len / 0x1000 = regionCount len := by
      rw [regionCount, if_neg (by omega), pageUp_eq (by omega)]
      omega
    rw [hcount] at hr1 hg
    have hle : 0x1000 * regionCount len + 0x200000 ≤ 0x400000 := by
      rw [regionCount, if_neg (by omega)]
      omega
    exact ⟨rfl, by omega, smallLoop_holds h hF hlog (by omega) hg hr1⟩

theorem allocMegaPage_holds
    (h : Holds T st.sys st.mmapTop (st.freePage.flatMap blockPages ++ H) F)
    (hlog : FreshLog T st'.granted) (hlen : 0x200000 ≤ len) (hok : st.AllocOk len rs)
    (hr : st.allocMegaPage (partitionUp len / 0x200000) rs = .ok (mem, st', rs')) :
    mem % 0x1000 = 0 ∧ st.mmapTop ≤ mem ∧ mem + len ≤ poolVaStart ∧
      ∃ new, st'.granted = new ++ st.granted ∧
      st'.freeMega = st.freeMega ∧ Holds T st'.sys st'.mmapTop
        (pagesFrom mem (regionCount len) ++ (st'.freePage.flatMap blockPages ++ H))
        (grantFrames new ++ F) := by
  have hpool := poolVaStart_eq
  rw [AllocOk, if_pos hlen] at hok
  obtain ⟨hle, hfree, hroom⟩ := hok
  unfold allocMegaPage at hr
  obtain ⟨⟨st1, rs1⟩, hr1, hr2⟩ := Res.bind_ok hr
  simp only [Except.ok.injEq, Prod.mk.injEq] at hr2
  obtain ⟨rfl, rfl, rfl⟩ := hr2
  -- at least one partition, so that the loop goes to the monitor
  have hcount : partitionUp len / 0x200000 = (len + 0x1fffff) / 0x200000 := by
    rw [partitionUp_eq hle, Nat.mul_div_cancel _ (by norm_num)]
  rw [hcount] at hr1 hroom
  obtain ⟨n, hn⟩ : ∃ n, (len + 0x1fffff) / 0x200000 = n + 1 :=
    ⟨(len + 0x1fffff) / 0x200000 - 1, by omega⟩
  rw [hn] at hr1 hroom
  have hal := alignTop_aligned st
  have htop : st.mmapTop ≤ st.alignTop.mmapTop := by
    rw [alignTop_mmapTop]
    have := h.top_le
    exact (partitionUp_spec (by omega)).1
  obtain ⟨hsys, hfp, hgr, -⟩ := alignTop_rest st
  generalize st.alignTop = sa at hr1 hroom hal htop hsys hfp hgr ⊢
  rw [hfree, megaLoop] at hr1
  obtain ⟨evs, sys, he, hx, rfl⟩ := megaFromPartitions_ok hr1
  rw [he] at hroom
  rw [megaPartitions] at he
  simp only at hroom
  have hmaps : (mapsOf evs).length = n + 1 := partitionLoop_length (by omega) he (by omega)
  simp only [hgr] at hlog
  rw [hsys] at hx
  have h0 := h.raise htop (by omega) (by omega)
  have h1 := h0.partitions hal he hroom (hlog.of_sublist (List.sublist_append_left _ _)) hx
  rw [hmaps] at h1 hroom
  refine ⟨by omega, htop, by omega, grantsOf evs, by simp only [hgr], hfree.symm, ?_⟩
  simp only [hmaps, hfp]
  rw [add64_eq (by omega), regionCount, if_pos hlen, hn]
  exact h1

end MmapState

/-- The frames `F` of the regions, of `free_page` and of the pages `H`. -/
structure Tracks (T : ℕ → Prop) (st : MmapState) (H F : List ℕ) : Prop where
  holds : Holds T st.sys st.mmapTop
    (st.mmapAddr.flatMap regionPages ++ (st.freePage.flatMap blockPages ++ H)) F
  regions : ∀ r ∈ st.mmapAddr, r.1 % 0x1000 = 0 ∧ mmapBase ≤ r.1 ∧ r.1 < r.2 ∧ r.2 ≤ poolVaStart

section
variable {st st' : MmapState} {rs rs' : List SmReply} {H F : List ℕ}

/-- A call of `mmap`: the frames that come with grants are added. -/
theorem Tracks.mmap {len prot flags fildes off ret : ℕ} (h : Tracks T st H F) (hF : Usable T F)
    (hlog : FreshLog T st'.granted)
    (hok : st.Allocates addr len prot flags fildes off → st.AllocOk len rs)
    (hr : st.mmap addr len prot flags fildes off rs = .ok (ret, st', rs')) :
    ∃ new, st'.granted = new ++ st.granted ∧ st'.freeMega = st.freeMega ∧
      Tracks T st' H (grantFrames new ++ F) := by
  have hpool := poolVaStart_eq
  rcases MmapState.mmap_cases hr with ⟨-, e, rfl⟩ | ⟨hyes, st1, hr1, rfl⟩
  · exact ⟨[], rfl, rfl, h.holds, h.regions⟩
  · have hok := hok hyes
    have haddr := (MmapState.allocRegion_moves hr1).1.addr
    have hlog1 : FreshLog T st1.granted := hlog
    have h0 : Holds T st.sys st.mmapTop
        (st.freePage.flatMap blockPages ++ (st.mmapAddr.flatMap regionPages ++ H)) F := by
      refine h.holds.perm ?_
      refine List.perm_iff_count.mpr fun a => ?_
      simp only [List.count_append]
      omega
    have hbase := h.holds.base_le
    -- the new region, whichever way its pages are found
    have hall : ret % 0x1000 = 0 ∧ st.mmapTop ≤ ret ∧ ret + len ≤ poolVaStart ∧
        ∃ new, st1.granted = new ++ st.granted ∧ st1.freeMega = st.freeMega ∧
          Holds T st1.sys st1.mmapTop (pagesFrom ret (regionCount len) ++
            (st1.freePage.flatMap blockPages ++ (st.mmapAddr.flatMap regionPages ++ H)))
            (grantFrames new ++ F) := by
      unfold MmapState.allocRegion at hr1
      split at hr1
      · rename_i hge
        exact MmapState.allocMegaPage_holds h0 hlog1 hge hok hr1
      · rename_i hge
        obtain ⟨rfl, h1, h2⟩ := MmapState.allocSmallPage_holds h0 hF hlog1 (by omega) hok hr1
        exact ⟨h.holds.aligned, le_refl _, h1, h2⟩
    obtain ⟨h1, h2, h3, new, h4, h5, h6⟩ := hall
    have hend : add64 ret len = ret + len := add64_eq (by omega)
    refine ⟨new, h4, h5, ?_, fun r hm => ?_⟩
    · refine h6.perm ?_
      simp only [haddr, hend, List.flatMap_append, List.flatMap_cons, List.flatMap_nil, List.append_nil,
        regionPages, Nat.add_sub_cancel_left]
      refine List.perm_iff_count.mpr fun a => ?_
      simp only [List.count_append]
      omega
    · simp only [haddr, hend] at hm
      rcases List.mem_append.mp hm with hm | hm
      · exact h.regions r hm
      · obtain rfl := List.mem_singleton.mp hm
        have hpos := hyes.1
        exact ⟨h1, le_trans hbase h2, by simp only; omega, h3⟩

/-- A call of `munmap` that finds a region removes it, with those before it. -/
theorem MmapState.munmap_cases (st : MmapState) (addr len : ℕ) :
    (∃ e, (st.munmap addr len).2 = { st with errno := e }) ∨
      ∃ before r rest, st.mmapAddr = before ++ r :: rest ∧
        (st.mmapAddr.dropWhile fun r => ¬ Hit addr r) = r :: rest ∧ Hit addr r ∧ len = sub64 r.2 r.1 ∧
        (st.munmap addr len).2 = if 0x200000 ≤ len then
          { st with mmapAddr := rest, freeMega := addr :: st.freeMega }
        else { st with mmapAddr := rest, freePage := (addr, len / 0x1000) :: st.freePage } := by
  unfold munmap
  by_cases h0 : len = 0
  · rw [if_pos h0]
    exact Or.inl ⟨22, rfl⟩
  · rw [if_neg h0]
    by_cases h1 : addr = 0
    · rw [if_pos h1]
      exact Or.inl ⟨st.errno, rfl⟩
    · rw [if_neg h1]
      cases hdrop : st.mmapAddr.dropWhile fun r => ¬ Hit addr r with
      | nil => exact Or.inl ⟨st.errno, rfl⟩
      | cons r rest =>
        by_cases h2 : len = sub64 r.2 r.1
        · refine Or.inr ⟨st.mmapAddr.takeWhile fun r => ¬ Hit addr r, r, rest, ?_, rfl, ?_, h2, ?_⟩
          · rw [← hdrop, List.takeWhile_append_dropWhile]
          · have h3 := List.head?_dropWhile_not (fun r => decide (¬ Hit addr r)) st.mmapAddr
            rw [hdrop] at h3
            simpa using h3
          · simp only [h2, ne_eq, not_true_eq_false, if_false]
            split <;> rfl
        · simp only [h2, ne_eq, not_false_eq_true, if_true]
          exact Or.inl ⟨st.errno, rfl⟩

/-- What `munmap` frees is part of the region it removes. -/
def MmapState.FreeOk (st : MmapState) (addr len : ℕ) : Prop :=
  ∀ r rest, (st.mmapAddr.dropWhile fun r => ¬ Hit addr r) = r :: rest → len = sub64 r.2 r.1 →
    len < 0x200000 → (addr - r.1) / 0x1000 + len / 0x1000 ≤ (len + 0xfff) / 0x1000

theorem Tracks.munmap_free {len : ℕ} (h : Tracks T st [] F) (hok : st.FreeOk addr len) :
    ∃ F', F'.Subperm F ∧ Tracks T (st.munmap addr len).2 [] F' := by
  have hpool := poolVaStart_eq
  rcases st.munmap_cases addr len with ⟨e, he⟩ | ⟨before, r, rest, hb, hdrop, hhit, hlen, he⟩
  · rw [he]
    exact ⟨F, List.Subperm.refl F, h.holds, h.regions⟩
  · have hreg : ∀ q ∈ rest, q.1 % 0x1000 = 0 ∧ mmapBase ≤ q.1 ∧ q.1 < q.2 ∧ q.2 ≤ poolVaStart :=
      fun q hq => h.regions q (by rw [hb]; simp [hq])
    obtain ⟨hr1, -, hr2, hr3⟩ := h.regions r (by rw [hb]; simp)
    have hholds := h.holds
    rw [hb] at hholds
    simp only [List.flatMap_append, List.flatMap_cons, List.append_assoc, List.append_nil] at hholds
    rw [he]
    split
    · obtain ⟨F', hF', h1⟩ := hholds.of_subperm
        ((List.sublist_append_right _ _).trans (List.sublist_append_right _ _)).subperm
      exact ⟨F', hF', by simpa using h1, hreg⟩
    · rename_i hsmall
      have hlt := hok r rest hdrop hlen (by omega)
      rw [sub64_eq (by omega) (by omega)] at hlen
      have hdown : pageDown addr = r.1 + 0x1000 * ((addr - r.1) / 0x1000) := by
        have := hhit.1
        unfold pageDown
        omega
      have hsub : (blockPages (addr, len / 0x1000)).Sublist (regionPages r) := by
        rw [blockPages, regionPages, hdown, ← hlen, regionCount, if_neg hsmall]
        obtain ⟨d, hd⟩ := Nat.exists_eq_add_of_le hlt
        rw [hd, pagesFrom_add, pagesFrom_add]
        exact (List.sublist_append_right _ _).trans (List.sublist_append_left _ _)
      have hperm : (rest.flatMap regionPages ++
          (blockPages (addr, len / 0x1000) ++ st.freePage.flatMap blockPages)).Subperm
          (before.flatMap regionPages ++ (regionPages r ++
            (rest.flatMap regionPages ++ st.freePage.flatMap blockPages))) := by
        refine List.Subperm.trans ?_ (List.sublist_append_right _ _).subperm
        refine List.Subperm.trans ?_ (hsub.append_right _).subperm
        refine (List.perm_iff_count.mpr fun a => ?_).subperm
        simp only [List.count_append]
        omega
      obtain ⟨F', hF', h1⟩ := hholds.of_subperm hperm
      exact ⟨F', hF', by simpa using h1, hreg⟩

/-- `munmap` is given the region that is first in the list, whole: whole pages, or one
partition. -/
def MmapState.ReturnOk (st : MmapState) (addr len : ℕ) : Prop :=
  (∃ rest, st.mmapAddr = (addr, addr + len) :: rest) ∧
    if 0x200000 ≤ len then len = 0x200000 else len % 0x1000 = 0

theorem munmap_head {len : ℕ} {rest : List (ℕ × ℕ)} (hrest : st.mmapAddr = (addr, addr + len) :: rest)
    (hreg : addr % 0x1000 = 0 ∧ mmapBase ≤ addr ∧ addr < addr + len ∧ addr + len ≤ poolVaStart) :
    (st.munmap addr len).2 = if 0x200000 ≤ len then
        { st with mmapAddr := rest, freeMega := addr :: st.freeMega }
      else { st with mmapAddr := rest, freePage := (addr, len / 0x1000) :: st.freePage } := by
  have hpool := poolVaStart_eq
  obtain ⟨-, hbase, hlt, hle⟩ := hreg
  unfold mmapBase at hbase
  have hhit : MmapState.Hit addr (addr, addr + len) := ⟨le_refl _, hlt⟩
  have hlen : sub64 (addr + len) addr = len := by
    rw [sub64_eq (by omega) (by omega), Nat.add_sub_cancel_left]
  rw [MmapState.munmap, if_neg (by omega), if_neg (by omega), hrest,
    List.dropWhile_cons_of_neg (by simpa using hhit)]
  simp only [hlen, ne_eq, not_true_eq_false, if_false]
  split <;> rfl

/-- The pages of the region become a block or a megapage. -/
theorem Tracks.munmap_return {len : ℕ} (h : Tracks T st st.megaPages F)
    (hok : st.ReturnOk addr len) :
    Tracks T (st.munmap addr len).2 (st.munmap addr len).2.megaPages F := by
  obtain ⟨⟨rest, hrest⟩, hwhole⟩ := hok
  have hreg := h.regions (addr, addr + len) (by rw [hrest]; simp)
  have hregs : ∀ q ∈ rest, q.1 % 0x1000 = 0 ∧ mmapBase ≤ q.1 ∧ q.1 < q.2 ∧ q.2 ≤ poolVaStart :=
    fun q hq => h.regions q (by rw [hrest]; simp [hq])
  have hholds := h.holds
  rw [hrest, List.flatMap_cons, List.append_assoc] at hholds
  rw [munmap_head hrest hreg]
  split
  · rename_i hge
    rw [if_pos hge] at hwhole
    have hpages : regionPages (addr, addr + len) = pagesFrom addr 512 := by
      rw [regionPages, regionCount, Nat.add_sub_cancel_left, if_pos hge, hwhole]
    rw [hpages] at hholds
    refine ⟨hholds.perm ?_, hregs⟩
    refine List.perm_iff_count.mpr fun a => ?_
    simp only [MmapState.megaPages, List.flatMap_cons, List.count_append]
    omega
  · rename_i hge
    rw [if_neg hge] at hwhole
    have hpages : regionPages (addr, addr + len) = blockPages (addr, len / 0x1000) := by
      have hal := hreg.1
      have hdown : pageDown addr = addr := by
        unfold pageDown
        simp only at hal
        omega
      rw [regionPages, regionCount, Nat.add_sub_cancel_left, if_neg hge, blockPages, hdown,
        show (len + 0xfff) / 0x1000 = len / 0x1000 by omega]
    rw [hpages] at hholds
    refine ⟨hholds.perm ?_, hregs⟩
    refine List.perm_iff_count.mpr fun a => ?_
    simp only [MmapState.megaPages, List.flatMap_cons, List.count_append]
    omega

end

/-! ### Runs -/

/-- Every call of the run meets a condition. -/
def MmapState.RunMeets (P : MmapState → List SmReply → MmapCall → Prop) (st : MmapState)
    (rs : List SmReply) : List MmapCall → Prop
  | [] => True
  | c :: cs => P st rs c ∧ ∀ st' rs', st.call rs c = .ok (st', rs') → st'.RunMeets P rs' cs

/-- What each call keeps, a run keeps. The grants of every state are among those of the
last one. -/
theorem MmapState.run_keeps {P : MmapState → List SmReply → MmapCall → Prop} {I : MmapState → Prop}
    (hstep : ∀ st rs c st' rs', I st → P st rs c → FreshLog T st'.granted →
      st.call rs c = .ok (st', rs') → I st')
    {cs : List MmapCall} {st st' : MmapState} {rs rs' : List SmReply} (h : I st)
    (hp : st.RunMeets P rs cs) (hr : st.run rs cs = .ok (st', rs')) (hlog : FreshLog T st'.granted) :
    I st' := by
  induction cs generalizing st rs with
  | nil =>
    simp only [run, Except.ok.injEq, Prod.mk.injEq] at hr
    rw [← hr.1]
    exact h
  | cons c cs ih =>
    obtain ⟨⟨st1, rs1⟩, hr1, hr2⟩ := Res.bind_ok hr
    obtain ⟨new, hnew⟩ := (run_record hr2).2
    have hlog1 : FreshLog T st1.granted :=
      hlog.of_sublist (by rw [hnew]; exact List.sublist_append_right _ _)
    exact ih (hstep st rs c st1 rs1 h hp.1 hlog1 hr1) (hp.2 st1 rs1 hr1) hr2

theorem Tracks.init {sys : Sys} (hinv : PtInv sys)
    (hfree : ∀ x, mmapBase ≤ x → x < poolVaStart → sys.leaf x = none) :
    Tracks sys.TableRange (MmapState.init sys) [] [] := by
  have hpool := poolVaStart_eq
  refine ⟨⟨hinv, fun _ => Iff.rfl, by simp only [MmapState.init, mmapBase], le_refl _, ?_, hfree, ?_, ?_⟩, ?_⟩
  · simp only [MmapState.init, mmapBase, hpool]
    norm_num
  · simp [MmapState.init]
  · simp [MmapState.init]
  · simp [MmapState.init]

/-- No frame backs bytes of both regions. -/
def FramesApart (s : Sys) (r r' : ℕ × ℕ) : Prop :=
  ∀ x y f, r.1 ≤ x → x < r.2 → r'.1 ≤ y → y < r'.2 → s.frameOf x = some f → s.frameOf y ≠ some f

/-- The condition for exclusive frames. -/
def ExclusiveOk (st : MmapState) (rs : List SmReply) : MmapCall → Prop
  | .mmap addr len prot flags fildes off =>
    st.Allocates addr len prot flags fildes off → st.AllocOk len rs
  | .munmap addr len => st.FreeOk addr len

/-- The frames of the regions and of `free_page` are among those granted. -/
theorem exclusive_call {st st' : MmapState} {rs rs' : List SmReply} {c : MmapCall}
    (h : ∃ F, F.Subperm (grantFrames st.granted) ∧ Tracks T st [] F) (hok : ExclusiveOk st rs c)
    (hlog : FreshLog T st'.granted) (hr : st.call rs c = .ok (st', rs')) :
    ∃ F, F.Subperm (grantFrames st'.granted) ∧ Tracks T st' [] F := by
  obtain ⟨F, hF, h⟩ := h
  cases c with
  | mmap addr len prot flags fildes off =>
    obtain ⟨new, hnew⟩ := (MmapState.call_record hr).2
    obtain ⟨⟨ret, st1, rs1⟩, hr1, hr2⟩ := Res.bind_ok hr
    obtain ⟨rfl, rfl⟩ := Res.ok_pair hr2
    have hold : FreshLog T st.granted :=
      hlog.of_sublist (by rw [hnew]; exact List.sublist_append_right _ _)
    obtain ⟨new, h1, -, h2⟩ := h.mmap (fun f hf => hold.frame (hF.subset hf)) hlog hok hr1
    refine ⟨_, ?_, h2⟩
    rw [h1, grantFrames_append]
    exact (List.subperm_append_left _).mpr hF
  | munmap addr len =>
    simp only [MmapState.call, Except.ok.injEq, Prod.mk.injEq] at hr
    obtain ⟨F', hF', h1⟩ := h.munmap_free hok
    obtain ⟨-, -, hgr, -, -⟩ := MmapState.munmap_rest st addr len
    rw [← hr.1]
    exact ⟨F', by rw [hgr]; exact hF'.trans hF, h1⟩

/-- **No frame backs two regions**, in every run in which no `munmap` frees pages beyond
the region it removes, no partition asked for small pages is refused, no freed megapage is
used again and the area stays below the heap. -/
theorem mmap_exclusive (sys : Sys) (hinv : PtInv sys)
    (hfree : ∀ x, mmapBase ≤ x → x < poolVaStart → sys.leaf x = none) (cs : List MmapCall)
    (rs rs' : List SmReply) (st : MmapState) (hrun : (MmapState.init sys).run rs cs = .ok (st, rs'))
    (hok : (MmapState.init sys).RunMeets ExclusiveOk rs cs)
    (hlog : FreshLog sys.TableRange st.granted) : st.mmapAddr.Pairwise (FramesApart st.sys) := by
  have hpool := poolVaStart_eq
  obtain ⟨F, hF, h⟩ := MmapState.run_keeps
    (I := fun st => ∃ F, F.Subperm (grantFrames st.granted) ∧ Tracks sys.TableRange st [] F)
    (fun st rs c st' rs' h hok hlog hr => exclusive_call h hok hlog hr)
    ⟨[], List.nil_subperm, Tracks.init hinv hfree⟩ hok hrun hlog
  have hnodup : (F.map some).Nodup := by
    obtain ⟨l, hl, hsub⟩ := hF
    exact (hl.nodup_iff.mp (hlog.nodup.sublist hsub)).map (Option.some_injective ℕ)
  have h1 := h.holds.frames.nodup_iff.mpr hnodup
  rw [List.map_append, List.map_flatMap] at h1
  have h2 := (List.nodup_flatMap.mp (List.nodup_append.mp h1).1).2
  refine h2.imp_of_mem fun {r r'} hr hr' hdisj x y f hx1 hx2 hy1 hy2 hfx hfy => ?_
  -- the page of an address is a page of its region
  have hpage : ∀ q ∈ st.mmapAddr, ∀ z, q.1 ≤ z → z < q.2 → st.sys.frameOf z = some f →
      some f ∈ (regionPages q).map st.sys.frameOf := by
    intro q hq z hz1 hz2 hfz
    obtain ⟨hal, -, hlt, hle⟩ := h.regions q hq
    refine List.mem_map.mpr ⟨pageDown z, ?_, Sys.frameOf_page (by omega) hfz⟩
    refine mem_pagesFrom.mpr ⟨(z - q.1) / 0x1000, ?_, ?_⟩
    · unfold regionCount
      split <;> omega
    · unfold pageDown
      omega
  exact hdisj (hpage r hr x hx1 hx2 hfx) (hpage r' hr' y hy1 hy2 hfy)

end

theorem Sys.smallBoot_range (h : Sys.smallBoot.TableRange x) : x < 0x110000 := by
  have hstart : Sys.smallBoot.poolStart .smode = 0x100000 := by decide
  rcases h with ⟨-, h⟩ | ⟨-, h⟩
  · have hroot : Sys.smallBoot.tableRoot = 0x80000 := rfl
    omega
  · have hsize : Sys.smallBoot.smodePool.size = 0x10000 := rfl
    omega

theorem freshLog_partition {T : ℕ → Prop} (hal : pa % 0x200000 = 0)
    (hlt : pa + 0x200000 ≤ 2 ^ 44) (hT : ∀ x, T x → x < pa) : FreshLog T [(pa, 1)] := by
  refine ⟨fun g hg => ?_, fun g hg => ?_, fun g hg y h1 h2 hy => ?_, List.pairwise_singleton _ _⟩
  all_goals obtain rfl := List.mem_singleton.mp hg
  · exact hal
  · exact hlt
  · exact absurd (hT y hy) (not_lt.mpr h1)

theorem allocOk_partition {st : MmapState} {top : ℕ} {rs : List SmReply} (htop : st.mmapTop = top)
    (hmega : st.freeMega = []) (hal : top % 0x200000 = 0) (hlt : top + 0x200000 ≤ poolVaStart)
    (hpa : pa ≠ 2 ^ 64 - 1) : st.AllocOk 0x200000 (⟨0, pa⟩ :: rs) := by
  have hpool := poolVaStart_eq
  have hone : partitionUp 0x200000 / 0x200000 = 1 := by decide
  have hup : partitionUp top = top := by
    have h1 := partitionUp_spec (a := top) (by omega)
    omega
  have hloop : ∀ r : List SmReply, partitionLoop (fun allocated => allocated) r 0 0
      (add64 top (mul64 1 0x200000)) = ([], some r) := fun r => by cases r <;> rfl
  have hnr : ¬ (⟨0, pa⟩ : SmReply).Refused := hpa
  rw [MmapState.AllocOk, if_pos (le_refl _)]
  refine ⟨by norm_num, hmega, ?_⟩
  rw [MmapState.megaPartitions, MmapState.alignTop_mmapTop, htop, hup, hone, partitionLoop, if_neg hnr]
  simp only [Nat.zero_add, sub64_eq (show 1 ≤ 1 by norm_num) (show 1 < 2 ^ 64 by norm_num), Nat.sub_self, hloop]
  exact hlt

/-- Two calls for a partition each: what the first one leaves. -/
theorem partition_call {st : MmapState} {rs : List SmReply}
    (hr : (MmapState.init Sys.smallBoot).call [⟨0, 0x90000000⟩, ⟨0, 0xa0000000⟩]
      (.mmap 0 0x200000 3 0x22 (2 ^ 32 - 1) 0) = .ok (st, rs)) :
    st.mmapTop = 0x1000200000 ∧ st.freeMega = [] ∧ st.mmapAddr = [(0x1000000000, 0x1000200000)] ∧
      rs = [⟨0, 0xa0000000⟩] := by
  have hval : ((MmapState.init Sys.smallBoot).call [⟨0, 0x90000000⟩, ⟨0, 0xa0000000⟩]
      (.mmap 0 0x200000 3 0x22 (2 ^ 32 - 1) 0)).toOption.map
        (fun p => (p.1.mmapTop, p.1.freeMega, p.1.mmapAddr, p.2)) =
      some (0x1000200000, [], [(0x1000000000, 0x1000200000)], [⟨0, 0xa0000000⟩]) := by decide +kernel
  rw [hr] at hval
  simpa only [Except.toOption, Option.map_some, Option.some.injEq, Prod.mk.injEq] using hval


/-- Two regions of one partition each have no frame in common. -/
theorem mmap_exclusive_partitions : ∃ (st : MmapState) (rs : List SmReply),
    (MmapState.init Sys.smallBoot).run [⟨0, 0x90000000⟩, ⟨0, 0xa0000000⟩]
      [.mmap 0 0x200000 3 0x22 (2 ^ 32 - 1) 0, .mmap 0 0x200000 3 0x22 (2 ^ 32 - 1) 0] = .ok (st, rs) ∧
    st.mmapAddr = [(0x1000000000, 0x1000200000), (0x1000200000, 0x1000400000)] ∧
    st.mmapAddr.Pairwise (FramesApart st.sys) := by
  have hpool := poolVaStart_eq
  have hval : (do
      let r ← (MmapState.init Sys.smallBoot).run [⟨0, 0x90000000⟩, ⟨0, 0xa0000000⟩]
        [.mmap 0 0x200000 3 0x22 (2 ^ 32 - 1) 0, .mmap 0 0x200000 3 0x22 (2 ^ 32 - 1) 0]
      .ok (r.1.mmapAddr, r.1.granted, r.2) : Res _) =
      .ok ([(0x1000000000, 0x1000200000), (0x1000200000, 0x1000400000)],
        [(0xa0000000, 1), (0x90000000, 1)], []) := Res.eq_ok_of_toOption (by decide +kernel)
  obtain ⟨⟨st, rs⟩, hrun, hres⟩ := Res.bind_ok hval
  simp only [Except.ok.injEq, Prod.mk.injEq] at hres
  obtain ⟨h1, h2, rfl⟩ := hres
  have hlog : FreshLog Sys.smallBoot.TableRange st.granted := by
    rw [h2]
    refine ⟨by simp, by simp, fun g hg y hy1 _ hy => ?_, ?_⟩
    · have := Sys.smallBoot_range hy
      simp only [List.mem_cons, List.not_mem_nil, or_false] at hg
      rcases hg with rfl | rfl <;> simp only at hy1 <;> omega
    · simp only [List.pairwise_cons, List.mem_singleton, forall_eq]
      exact ⟨fun y hy1 _ => by omega, fun _ h => absurd h List.not_mem_nil, List.Pairwise.nil⟩
  refine ⟨st, [], hrun, h1, mmap_exclusive Sys.smallBoot Sys.smallBoot_inv.1
    (fun x _ _ => Sys.smallBoot_inv.2 x) _ _ _ _ hrun ⟨fun _ => ?_, fun st1 rs1 hr1 => ?_⟩ hlog⟩
  · exact allocOk_partition rfl rfl (by decide) (by rw [hpool]; decide) (by norm_num)
  · obtain ⟨h3, h4, h5, rfl⟩ := partition_call hr1
    exact ⟨fun _ => allocOk_partition h3 h4 (by norm_num) (by rw [hpool]; norm_num) (by norm_num),
      fun _ _ _ => trivial⟩

/-! ### A frame in two regions -/

/-- The zero fill of a page that has just been mapped to a frame succeeds. -/
theorem Sys.recycle_fill {s : Sys} {top : ℕ} (hlt : top + 0x1000 ≤ 2 ^ 38)
    (hm : Mapped s s1 top (top + 0x1000) mmapFlags fun x => 0x1000 * f + (x - top))
    (htab : ∀ i < 0x1000, ¬ s.TableRange (0x1000 * f + i)) :
    ∃ s2, s1.memset top 0 0x1000 = .ok s2 ∧ s2.smodePool = s1.smodePool := by
  have hst : ∀ i < 0x1000, s1.storePa (add64 top i) = some (0x1000 * f + i) := by
    intro i hi
    have h1 := (hm.maps (top + i) (by omega) (by omega)).storePa_eq (Or.inl (by omega)) (by decide)
    rwa [Nat.add_sub_cancel_left, ← add64_eq (show top + i < 2 ^ 64 by omega)] at h1
  have hnt : ∀ i < 0x1000, ¬ s1.TableRange (0x1000 * f + i) := fun i hi => mt (hm.range _).mp (htab i hi)
  obtain ⟨s2, hr2⟩ := Sys.memset_ok 0 hm.inv fun i hi => ⟨_, hst i hi, hnt i hi⟩
  obtain ⟨e1, -⟩ := Sys.memset_spec hm.inv
    (fun i hi pa hpa => by rw [hst i hi, Option.some.injEq] at hpa; exact hpa ▸ hnt i hi) hr2
  exact ⟨s2, hr2, by rw [e1]⟩

/-- The pages of a listed block are mapped again, unless the pool is out of pages. -/
theorem MmapState.recyclePages_served {T : ℕ → Prop} {st : MmapState} {n : ℕ} {H F : List ℕ}
    (hp : pageDown va = p) (h : Holds T st.sys st.mmapTop (pagesFrom p n ++ H) F) (hF : Usable T F)
    (hlt : st.mmapTop + 0x1000 * n ≤ poolVaStart) :
    Served st.sys (2 * n) (st.recyclePages va n) MmapState.sys fun _ => True := by
  have hpool := poolVaStart_eq
  induction n generalizing H with
  | zero => exact Served.pure trivial rfl
  | succ n ih =>
    simp only [pagesFrom_succ, List.append_assoc, List.singleton_append] at h
    rw [Nat.mul_succ, ← Nat.add_assoc] at hlt
    rw [recyclePages]
    refine (ih h (by omega)).bind (d := 2) fun st1 hr1 _ => ?_
    obtain ⟨h1, h2⟩ := recyclePages_new hp h hF (by omega) hr1
    have htop1 : st1.mmapTop = st.mmapTop + 0x1000 * n := by rw [h2]
    obtain ⟨f, -, hf32, htab, hf1, hva, hfree⟩ := next_page hp h hF hlt h1
    have hal := h.aligned
    refine (Sys.mapPage_served st1.sys _ _ _ _).bind (d := 0) fun s1 hr2 _ => ?_
    rw [htop1] at hr2
    have hm := Sys.recycle_mapped h1.inv (by omega) (by omega) hfree hva hf1 hf32 hr2
    obtain ⟨s2, hr3, hs2⟩ := Sys.recycle_fill (by omega) hm htab
    rw [htop1, hr3, Res.ok_bind]
    exact Served.pure trivial hs2

theorem MmapState.call_small {st st' : MmapState} {rs rs' : List SmReply} {len num : ℕ} (h0 : len ≠ 0)
    (hlt : len < 0x200000) (hnum : pageUp len / 0x1000 = num) (hle : num ≤ 512)
    (hr : smallLoop rs st.freePage st num = .ok (st', rs')) :
    st.call rs (.mmap 0 len 3 0x22 (2 ^ 32 - 1) 0) = .ok ({ st' with
      mmapAddr := st'.mmapAddr ++ [(st.mmapTop, add64 st.mmapTop len)]
      returned := (st.mmapTop, len) :: st'.returned }, rs') := by
  have hmem : st.allocRegion len rs = .ok (st.mmapTop, st', rs') := by
    rw [allocRegion, if_neg (by omega), hnum, allocSmallPage, if_neg (by omega), hr, Res.ok_bind]
  rw [call, mmap, if_neg h0, if_neg (by decide), if_neg (by simp), hmem, Res.ok_bind, Res.ok_bind]

/-- The small state with a pool of 511 pages: boot leaves the manager less than a partition. -/
def Sys.wideBoot : Sys :=
  { Sys.blank with tableRoot := 0x80000, smodePool := ⟨0x100000, 0x1ff000, 0⟩ }

theorem Sys.wideBoot_inv : PtInv Sys.wideBoot ∧ ∀ va, Sys.wideBoot.leaf va = none :=
  PtEnv.boot ⟨by decide, by decide, by decide, by decide, by decide, fun _ _ _ => rfl⟩ fun _ _ _ => rfl

theorem Sys.wideBoot_range (h : Sys.wideBoot.TableRange x) : x < 0x300000 := by
  have hstart : Sys.wideBoot.poolStart .smode = 0x100000 := by decide
  rcases h with ⟨-, h⟩ | ⟨-, h⟩
  · have hroot : Sys.wideBoot.tableRoot = 0x80000 := rfl
    omega
  · have hsize : Sys.wideBoot.smodePool.size = 0x1ff000 := rfl
    omega

theorem Sys.wideBoot_partition (pa : ℕ) :
    ∃ s, Sys.wideBoot.mapRange 0x1000000000 pa mmapFlags .page 512 = .ok s ∧ s.HasPages 509 := by
  refine Sys.mapRange_beside Sys.wideBoot_inv.1 (by decide) hasPerm_mmapFlags (by decide)
    (fun i _ l pte hl => ?_) (fun i hi => ?_) ⟨by decide, by decide⟩ pa
  · rw [Sys.wideBoot_inv.2] at hl
    cases hl
  · simp only [upperVpns, List.cons.injEq, and_true, getVpn_eq_iff, Level.size]
    omega

/-- The state after a first region of two pages, with the rest of the partition as a block. -/
def firstRegion (s : Sys) : MmapState where
  sys := s
  mmapAddr := [(0x1000000000, 0x1000002000)]
  freePage := [(0x1000002000, 510)]
  freeMega := []
  mmapTop := 0x1000200000
  errno := 0
  granted := [(0x90000000, 1)]
  mapped := MmapState.pageCalls 0x1000000000 512
  returned := [(0x1000000000, 0x2000)]

theorem firstRegion_call : ∃ s, (MmapState.init Sys.wideBoot).call [⟨0, 0x90000000⟩]
      (.mmap 0 0x2000 3 0x22 (2 ^ 32 - 1) 0) = .ok (firstRegion s, []) ∧
    Holds Sys.wideBoot.TableRange s 0x1000200000 (pagesFrom 0x1000000000 512)
      (grantFrames [(0x90000000, 1)]) ∧
    s.frameOf 0x1000001000 = some 0x90001 ∧ s.frameOf 0x1000002000 = some 0x90002 ∧ s.HasPages 509 := by
  have hpool := poolVaStart_eq
  obtain ⟨s, hr, hk⟩ := Sys.wideBoot_partition 0x90000000
  have hsz : Level.page.size * 512 = 0x200000 := rfl
  have hm := Sys.mapRange_mapped Sys.wideBoot_inv.1 (by decide) (by decide) hasPerm_mmapFlags (by decide)
    (by decide) (fun x _ _ => Sys.wideBoot_inv.2 x) hr
  rw [hsz] at hm
  have hn := NewPages.of_mapped (n := 512) hm rfl
  have h0 := (Tracks.init Sys.wideBoot_inv.1 fun x _ _ => Sys.wideBoot_inv.2 x).holds
  have h1 := h0.extend hn (by rw [hpool]; decide)
  refine ⟨s, ?_, ?_, hn.frames 1 (by norm_num), hn.frames 2 (by norm_num), hk⟩
  · have hloop : MmapState.smallLoop [⟨0, 0x90000000⟩] (MmapState.init Sys.wideBoot).freePage
        (MmapState.init Sys.wideBoot) 2 =
        .ok ({ firstRegion s with mmapAddr := [], returned := [] }, []) := by
      have hnr : ¬ (⟨0, 0x90000000⟩ : SmReply).Refused := by decide
      rw [MmapState.init, MmapState.smallLoop, if_neg (by decide), MmapState.smallFromPartition]
      simp only [mmapBase, if_neg hnr]
      rw [hr, Res.ok_bind, if_pos (by decide), List.append_nil]
      have h1 : add64 0x1000000000 0x200000 = 0x1000200000 := by decide
      have h2 : add64 0x1000000000 (0x1000 * 2) = 0x1000002000 := by decide
      simp only [h1, h2, firstRegion]
    rw [MmapState.call_small (by norm_num) (by norm_num) (by decide) (by norm_num) hloop]
    have h1 : add64 (MmapState.init Sys.wideBoot).mmapTop 0x2000 = 0x1000002000 := by decide
    simp only [firstRegion, h1, List.nil_append]
    simp only [MmapState.init, mmapBase]
  · rw [grantFrames_range _ _ 1] at h1
    simpa only [MmapState.init, List.flatMap_nil, List.append_nil, mmapBase, Nat.reduceMul,
      Nat.reduceAdd] using h1

/-- The state after the first region has been removed by an address inside it. -/
def twoBlocks (s : Sys) : MmapState :=
  { firstRegion s with mmapAddr := [], freePage := [(0x1000001000, 2), (0x1000002000, 510)] }

/-- A second region takes the block that `munmap` has freed: its second page has the frame
of the first page of the other block. -/
theorem secondRegion_call {s : Sys} (h : Holds Sys.wideBoot.TableRange s 0x1000200000
      (pagesFrom 0x1000000000 512) (grantFrames [(0x90000000, 1)]))
    (hF : Usable Sys.wideBoot.TableRange (grantFrames [(0x90000000, 1)]))
    (hf1 : s.frameOf 0x1000001000 = some 0x90001) (hf2 : s.frameOf 0x1000002000 = some 0x90002)
    (hk : s.HasPages 509) :
    ∃ st s', (twoBlocks s).call [] (.mmap 0 0x2000 3 0x22 (2 ^ 32 - 1) 0) = .ok (st, []) ∧
      st.sys = s' ∧ st.mmapTop = 0x1000202000 ∧ st.freePage = [(0x1000002000, 510)] ∧
      st.granted = [(0x90000000, 1)] ∧ st.mmapAddr = [(0x1000200000, 0x1000202000)] ∧
      Holds Sys.wideBoot.TableRange s' 0x1000202000
        (pagesFrom 0x1000002000 1 ++ pagesFrom 0x1000200000 2) [0x90001, 0x90002, 0x90002] ∧
      s'.frameOf 0x1000201000 = some 0x90002 ∧ s'.frameOf 0x1000002000 = some 0x90002 ∧
      s'.HasPages 505 := by
  have hpool := poolVaStart_eq
  have hsplit : pagesFrom 0x1000000000 512 = pagesFrom 0x1000000000 1 ++
      (pagesFrom 0x1000001000 2 ++ pagesFrom 0x1000003000 509) := by
    rw [← pagesFrom_add _ 2 509, ← pagesFrom_add _ 1 511]
  have hdown : pageDown 0x1000001000 = 0x1000001000 := by decide
  have h1 : Holds Sys.wideBoot.TableRange s 0x1000200000
      (pagesFrom 0x1000001000 2 ++ (pagesFrom 0x1000000000 1 ++ pagesFrom 0x1000003000 509))
      (grantFrames [(0x90000000, 1)]) := by
    rw [hsplit] at h
    refine h.perm (List.perm_iff_count.mpr fun a => ?_)
    simp only [List.count_append]
    omega
  have h2 : Holds Sys.wideBoot.TableRange (twoBlocks s).sys (twoBlocks s).mmapTop
      (pagesFrom 0x1000001000 2 ++ (pagesFrom 0x1000000000 1 ++ pagesFrom 0x1000003000 509))
      (grantFrames [(0x90000000, 1)]) := h1
  have hlt : (twoBlocks s).mmapTop + 0x1000 * 2 ≤ poolVaStart := by
    rw [hpool]
    simp only [twoBlocks, firstRegion]
    norm_num
  obtain ⟨st, hr, -, hk'⟩ := (MmapState.recyclePages_served hdown h2 hF hlt).of_pages (k := 505) hk
  obtain ⟨hn, hst⟩ := MmapState.recyclePages_new hdown h2 hF hlt hr
  have htop : (twoBlocks s).mmapTop = 0x1000200000 := rfl
  have hrest : st.mmapTop = (twoBlocks s).mmapTop + 0x1000 * 2 ∧ st.granted = [(0x90000000, 1)] ∧
      st.mmapAddr = [] := by
    rw [hst]
    exact ⟨rfl, rfl, rfl⟩
  rw [htop, show (twoBlocks s).sys = s from rfl] at hn
  rw [htop] at hrest
  have hloop : MmapState.smallLoop [] (twoBlocks s).freePage (twoBlocks s) 2 =
      .ok ({ st with freePage := [(0x1000002000, 510)] }, []) := by
    rw [show (twoBlocks s).freePage = [(0x1000001000, 2), (0x1000002000, 510)] from rfl,
      MmapState.smallLoop, if_neg (by norm_num), if_pos (le_refl 2), hr, Res.ok_bind,
      MmapState.smallLoop, if_pos rfl]
  have hsub : (pagesFrom 0x1000002000 1).Sublist (pagesFrom 0x1000001000 2 ++
      (pagesFrom 0x1000000000 1 ++ pagesFrom 0x1000003000 509)) := by
    rw [pagesFrom_add _ 1 1]
    exact (List.sublist_append_right _ _).trans (List.sublist_append_left _ _)
  have hperm : (((List.range 2).map fun i => s.frameOf (0x1000001000 + 0x1000 * i)) ++
      (pagesFrom 0x1000002000 1).map s.frameOf).Perm ([0x90001, 0x90002, 0x90002].map some) := by
    rw [map_pagesFrom]
    simp only [List.range_succ, List.range_zero, List.nil_append, List.map_cons, List.map_nil,
      List.cons_append, Nat.mul_zero, Nat.add_zero, Nat.reduceMul, Nat.reduceAdd, hf1, hf2]
    exact List.Perm.refl _
  have h3 := (h1.new hn hlt hsub hperm).perm List.perm_append_comm
  rw [show 0x1000200000 + 0x1000 * 2 = 0x1000202000 by norm_num] at h3
  have h4 := hn.frames 1 (by norm_num)
  simp only [Nat.reduceMul, Nat.reduceAdd] at h4
  refine ⟨_, st.sys, MmapState.call_small (by norm_num) (by norm_num) (by decide) (by norm_num) hloop,
    rfl, hrest.1, rfl, hrest.2.1, ?_, h3, h4.trans hf2, ?_, hk'⟩
  · simp only [hrest.2.2, htop, List.nil_append]
    decide
  · rw [Sys.frameOf_congr (hn.leaf _ (by norm_num) (by norm_num)), hf2]

/-- **A frame in two regions.** A region of two pages is removed by an address inside it:
the block that `munmap` frees starts there, and its second page is the first of the block
that was free before. Both blocks are then used. -/
theorem mmap_shares : ∃ (st : MmapState) (rs : List SmReply),
    (MmapState.init Sys.wideBoot).run [⟨0, 0x90000000⟩]
      [.mmap 0 0x2000 3 0x22 (2 ^ 32 - 1) 0, .munmap 0x1000001000 0x2000,
        .mmap 0 0x2000 3 0x22 (2 ^ 32 - 1) 0, .mmap 0 0x1000 3 0x22 (2 ^ 32 - 1) 0] = .ok (st, rs) ∧
    FreshLog Sys.wideBoot.TableRange st.granted ∧ ¬ st.mmapAddr.Pairwise (FramesApart st.sys) := by
  have hpool := poolVaStart_eq
  have hlog : FreshLog Sys.wideBoot.TableRange [(0x90000000, 1)] :=
    freshLog_partition (by norm_num) (by norm_num) fun x hx => lt_trans (Sys.wideBoot_range hx)
      (by norm_num)
  have hF : Usable Sys.wideBoot.TableRange (grantFrames [(0x90000000, 1)]) := fun f hf => hlog.frame hf
  obtain ⟨s, e1, h1, hf1, hf2, hk⟩ := firstRegion_call
  have e2 : (firstRegion s).call [] (.munmap 0x1000001000 0x2000) = .ok (twoBlocks s, []) := rfl
  obtain ⟨st, s', e3, rfl, htop, hfree, hgr, haddr, h2, hA, hB, hk2⟩ :=
    secondRegion_call h1 hF hf1 hf2 hk
  have hF2 : Usable Sys.wideBoot.TableRange [0x90001, 0x90002, 0x90002] := fun f hf => by
    refine hF f (mem_grantFrames.mpr ⟨(0x90000000, 1), List.mem_singleton_self _, ?_⟩)
    simp only [List.mem_cons, List.not_mem_nil, or_false] at hf
    omega
  have hdown : pageDown 0x1000002000 = 0x1000002000 := by decide
  rw [← htop] at h2
  have hlt : st.mmapTop + 0x1000 * 1 ≤ poolVaStart := by
    rw [hpool, htop]
    norm_num
  obtain ⟨st', hr, -⟩ := (MmapState.recyclePages_served hdown h2 hF2 hlt).of_pages (k := 503) hk2
  obtain ⟨hn, hst'⟩ := MmapState.recyclePages_new hdown h2 hF2 hlt hr
  rw [htop] at hn
  have hloop : MmapState.smallLoop [] st.freePage st 1 =
      .ok ({ st' with freePage := [(0x1000003000, 509)] }, []) := by
    rw [hfree, MmapState.smallLoop, if_neg (by norm_num), if_neg (by norm_num), hr, Res.ok_bind]
    rfl
  obtain ⟨st6, e4, hsys6, hgr6, haddr6⟩ : ∃ st6 : MmapState,
      st.call [] (.mmap 0 0x1000 3 0x22 (2 ^ 32 - 1) 0) = .ok (st6, []) ∧ st6.sys = st'.sys ∧
      st6.granted = [(0x90000000, 1)] ∧
      st6.mmapAddr = [(0x1000200000, 0x1000202000), (0x1000202000, 0x1000203000)] := by
    refine ⟨_, MmapState.call_small (by norm_num) (by norm_num) (by decide) (by norm_num) hloop, rfl, ?_, ?_⟩
    · rw [hst']
      exact hgr
    · rw [hst', htop]
      simp only [haddr]
      decide
  refine ⟨st6, [], ?_, by rw [hgr6]; exact hlog, fun hap => ?_⟩
  · rw [MmapState.run, e1, Res.ok_bind]
    dsimp only
    rw [MmapState.run, e2, Res.ok_bind]
    dsimp only
    rw [MmapState.run, e3, Res.ok_bind]
    dsimp only
    rw [MmapState.run, e4, Res.ok_bind]
    rfl
  · have hA' : st6.sys.frameOf 0x1000201000 = some 0x90002 := by
      rw [hsys6, Sys.frameOf_congr (hn.leaf _ (by norm_num) (by norm_num)), hA]
    have hB' : st6.sys.frameOf 0x1000202000 = some 0x90002 := by
      rw [hsys6]
      exact (hn.frames 0 (by norm_num)).trans hB
    rw [haddr6] at hap
    simp only [List.pairwise_cons, List.mem_singleton, forall_eq] at hap
    exact hap.1 0x1000201000 0x1000202000 0x90002 (by norm_num) (by norm_num) (by norm_num)
      (by norm_num) hA' hB'

/-! ### What a free list saves -/

section
variable {T : ℕ → Prop}

/-- The condition for conservation. -/
def ConserveOk (st : MmapState) (rs : List SmReply) : MmapCall → Prop
  | .mmap addr len prot flags fildes off =>
    st.Allocates addr len prot flags fildes off → st.AllocOk len rs
  | .munmap addr len => st.ReturnOk addr len

theorem conserve_call {st st' : MmapState} {rs rs' : List SmReply} {c : MmapCall}
    (h : Tracks T st st.megaPages (grantFrames st.granted)) (hok : ConserveOk st rs c)
    (hlog : FreshLog T st'.granted) (hr : st.call rs c = .ok (st', rs')) :
    Tracks T st' st'.megaPages (grantFrames st'.granted) := by
  cases c with
  | mmap addr len prot flags fildes off =>
    obtain ⟨new, hnew⟩ := (MmapState.call_record hr).2
    obtain ⟨⟨ret, st1, rs1⟩, hr1, hr2⟩ := Res.bind_ok hr
    obtain ⟨rfl, rfl⟩ := Res.ok_pair hr2
    have hold : FreshLog T st.granted :=
      hlog.of_sublist (by rw [hnew]; exact List.sublist_append_right _ _)
    obtain ⟨new, h1, h2, h3⟩ := h.mmap (fun f hf => hold.frame hf) hlog hok hr1
    rw [h1, grantFrames_append, MmapState.megaPages, h2]
    exact h3
  | munmap addr len =>
    simp only [MmapState.call, Except.ok.injEq, Prod.mk.injEq] at hr
    obtain ⟨-, -, hgr, -, -⟩ := MmapState.munmap_rest st addr len
    rw [← hr.1, hgr]
    exact h.munmap_return hok

end


theorem MmapState.recyclePages_granted {st st' : MmapState} {n : ℕ}
    (hr : st.recyclePages va n = .ok st') : st'.granted = st.granted := by
  induction n generalizing st' with
  | zero =>
    cases hr
    rfl
  | succ n ih =>
    rw [recyclePages] at hr
    obtain ⟨st1, hr1, hr2⟩ := Res.bind_ok hr
    obtain ⟨sys1, -, hr3⟩ := Res.bind_ok hr2
    obtain ⟨sys2, -, hr4⟩ := Res.bind_ok hr3
    simp only [Except.ok.injEq] at hr4
    have h1 := ih hr1
    rw [← hr4]
    exact h1

/-- Where the list has the pages, no partition is asked for. -/
theorem MmapState.smallLoop_granted {free : List (ℕ × ℕ)} {st st' : MmapState} {num : ℕ}
    {rs rs' : List SmReply} (hnum : num ≤ freeCount free)
    (hr : smallLoop rs free st num = .ok (st', rs')) : st'.granted = st.granted := by
  induction free generalizing st num with
  | nil =>
    have h0 : num = 0 := Nat.le_zero.mp hnum
    rw [smallLoop, if_pos h0] at hr
    simp only [Except.ok.injEq, Prod.mk.injEq] at hr
    rw [← hr.1]
  | cons b free ih =>
    obtain ⟨va, count⟩ := b
    rw [smallLoop] at hr
    split at hr
    · simp only [Except.ok.injEq, Prod.mk.injEq] at hr
      rw [← hr.1]
    · split at hr
      · obtain ⟨st1, hr1, hr2⟩ := Res.bind_ok hr
        simp only [freeCount, List.map_cons, List.sum_cons] at hnum
        rw [ih (by unfold freeCount; omega) hr2, recyclePages_granted hr1]
      · obtain ⟨st1, hr1, hr2⟩ := Res.bind_ok hr
        simp only [Except.ok.injEq, Prod.mk.injEq] at hr2
        have h1 := recyclePages_granted hr1
        rw [← hr2.1]
        exact h1

/-- **Every frame granted is held exactly once**, by a region or by one of the lists, in
every run in which each `munmap` is given the first region of the list, of whole small
pages or of one partition, no partition asked for small pages is refused, no freed
megapage is used again and the area stays below the heap. A small region that is returned
is enough for the next one of its length. -/
theorem mmap_conserves (sys : Sys) (hinv : PtInv sys)
    (hfree : ∀ x, mmapBase ≤ x → x < poolVaStart → sys.leaf x = none) (cs : List MmapCall)
    (rs rs' : List SmReply) (st : MmapState) (hrun : (MmapState.init sys).run rs cs = .ok (st, rs'))
    (hok : (MmapState.init sys).RunMeets ConserveOk rs cs)
    (hlog : FreshLog sys.TableRange st.granted) :
    ((st.mmapAddr.flatMap regionPages ++ (st.freePage.flatMap blockPages ++ st.megaPages)).map
        st.sys.frameOf).Perm ((grantFrames st.granted).map some) ∧
      (grantFrames st.granted).Nodup ∧
      ∀ addr len, st.ReturnOk addr len → len < 0x200000 →
        ∀ addr' prot flags fildes off rs1 rs2 ret st',
          (st.munmap addr len).2.mmap addr' len prot flags fildes off rs1 = .ok (ret, st', rs2) →
          st'.granted = st.granted := by
  have h := MmapState.run_keeps
    (I := fun st => Tracks sys.TableRange st st.megaPages (grantFrames st.granted))
    (fun st rs c st' rs' h hok hlog hr => conserve_call h hok hlog hr)
    (Tracks.init hinv hfree) hok hrun hlog
  refine ⟨h.holds.frames, hlog.nodup, fun addr len hret hlt addr' prot flags fildes off rs1 rs2 ret st' hr => ?_⟩
  obtain ⟨⟨rest, hrest⟩, hwhole⟩ := hret
  rw [if_neg (by omega)] at hwhole
  have hreg := h.regions (addr, addr + len) (by rw [hrest]; simp)
  rw [munmap_head hrest hreg, if_neg (by omega)] at hr
  rcases MmapState.mmap_cases hr with ⟨-, e, rfl⟩ | ⟨-, st1, hr1, rfl⟩
  · rfl
  · rw [MmapState.allocRegion, if_neg (by omega), MmapState.allocSmallPage] at hr1
    split at hr1
    · simp only [reduceCtorEq] at hr1
    · obtain ⟨⟨st2, rs3⟩, hr2, hr3⟩ := Res.bind_ok hr1
      simp only [Except.ok.injEq, Prod.mk.injEq] at hr3
      obtain ⟨-, rfl, -⟩ := hr3
      have hcount : pageUp len / 0x1000 ≤
          MmapState.freeCount ((addr, len / 0x1000) :: st.freePage) := by
        simp only [MmapState.freeCount, List.map_cons, List.sum_cons]
        rw [pageUp_eq (by omega)]
        omega
      have h1 := MmapState.smallLoop_granted hcount hr2
      exact h1

/-- A region of one partition is returned, and its frames are those of the megapage on the
list. -/
theorem mmap_conserves_partition : ∃ (st : MmapState) (rs : List SmReply),
    (MmapState.init Sys.smallBoot).run [⟨0, 0x90000000⟩, ⟨0, 0xa0000000⟩]
      [.mmap 0 0x200000 3 0x22 (2 ^ 32 - 1) 0, .munmap 0x1000000000 0x200000] = .ok (st, rs) ∧
    st.mmapAddr = [] ∧ st.freePage = [] ∧
    (st.megaPages.map st.sys.frameOf).Perm ((grantFrames [(0x90000000, 1)]).map some) := by
  have hpool := poolVaStart_eq
  have hval : (do
      let r ← (MmapState.init Sys.smallBoot).run [⟨0, 0x90000000⟩, ⟨0, 0xa0000000⟩]
        [.mmap 0 0x200000 3 0x22 (2 ^ 32 - 1) 0, .munmap 0x1000000000 0x200000]
      .ok (r.1.mmapAddr, r.1.freePage, r.1.granted, r.2) : Res _) =
      .ok ([], [], [(0x90000000, 1)], [⟨0, 0xa0000000⟩]) := Res.eq_ok_of_toOption (by decide +kernel)
  obtain ⟨⟨st, rs⟩, hrun, hres⟩ := Res.bind_ok hval
  simp only [Except.ok.injEq, Prod.mk.injEq] at hres
  obtain ⟨h1, h2, h3, rfl⟩ := hres
  have hlog : FreshLog Sys.smallBoot.TableRange st.granted := by
    rw [h3]
    exact freshLog_partition (by norm_num) (by norm_num) fun x hx => lt_trans (Sys.smallBoot_range hx)
      (by norm_num)
  have h := mmap_conserves Sys.smallBoot Sys.smallBoot_inv.1 (fun x _ _ => Sys.smallBoot_inv.2 x) _ _ _ _
    hrun ⟨fun _ => ?_, fun st1 rs1 hr1 => ?_⟩ hlog
  · refine ⟨st, _, hrun, h1, h2, ?_⟩
    have h4 := h.1
    rwa [h1, h2, h3] at h4
  · exact allocOk_partition rfl rfl (by decide) (by rw [hpool]; decide) (by norm_num)
  · obtain ⟨-, -, h5, -⟩ := partition_call hr1
    exact ⟨⟨⟨[], h5⟩, rfl⟩, fun _ _ _ => trivial⟩

/-- **Frames lost.** A region of two partitions is returned whole, and half of its frames
are in no region and on no list. -/
theorem mmap_leaks : ∃ (st : MmapState) (rs : List SmReply),
    (MmapState.init Sys.smallBoot).run [⟨0, 0x90000000⟩]
      [.mmap 0 0x400000 3 0x22 (2 ^ 32 - 1) 0, .munmap 0x1000000000 0x400000] = .ok (st, rs) ∧
    ¬ ((st.mmapAddr.flatMap regionPages ++ (st.freePage.flatMap blockPages ++ st.megaPages)).map
        st.sys.frameOf).Perm ((grantFrames st.granted).map some) := by
  have hval : (do
      let r ← (MmapState.init Sys.smallBoot).run [⟨0, 0x90000000⟩]
        [.mmap 0 0x400000 3 0x22 (2 ^ 32 - 1) 0, .munmap 0x1000000000 0x400000]
      .ok (r.1.mmapAddr, r.1.freePage, r.1.freeMega, r.1.granted) : Res _) =
      .ok ([], [], [0x1000000000], [(0x90000000, 2)]) := Res.eq_ok_of_toOption (by decide +kernel)
  obtain ⟨⟨st, rs⟩, hrun, hres⟩ := Res.bind_ok hval
  simp only [Except.ok.injEq, Prod.mk.injEq] at hres
  obtain ⟨h1, h2, h3, h4⟩ := hres
  refine ⟨st, rs, hrun, fun hp => ?_⟩
  have hlen := hp.length_eq
  simp only [MmapState.megaPages, h1, h2, h3, h4, grantFrames, pagesFrom, List.length_map,
    List.flatMap_cons, List.flatMap_nil, List.append_nil, List.nil_append, List.length_range] at hlen
  omega

end Coffer
