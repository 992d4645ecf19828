/-
# Accesses through the page table

What the manager and the emodules write to user addresses goes through the page
table as it stands. An S-mode store needs a canonical address and a writable leaf
on its path (`sstatus.SUM` is set); anything else is a page fault, which ends in a
panic.

`Mapped` sums up a loop of `map_page` calls over addresses where nothing was
mapped, and `memset_spec` a fill that hits no table.
-/
import Coffer.Translation

namespace Coffer

open Lib

/-! ### Stores through the page table -/

/-- Bits 63 to 39 repeat bit 38. -/
def Canonical (va : ℕ) : Prop := va < 2 ^ 38 ∨ 2 ^ 64 - 2 ^ 38 ≤ va

instance (va : ℕ) : Decidable (Canonical va) := inferInstanceAs (Decidable (_ ∨ _))

namespace Sys

/-- Where a leaf of `level` puts `va`. -/
def leafPa (pte : Pte) (level : Level) (va : ℕ) : ℕ := 0x1000 * pte.ppn.toNat + va % level.size

/-- The physical address of a store to `va`; a megapage or gigapage must be
aligned. -/
def storePa (s : Sys) (va : ℕ) : Option ℕ :=
  if Canonical va then
    match s.leaf va with
    | some (level, pte) =>
      if pte.w = true ∧ 0x1000 * pte.ppn.toNat % level.size = 0 then some (leafPa pte level va)
      else none
    | none => none
  else none

/-- A store of one byte. -/
def storeByte (s : Sys) (va : ℕ) (b : UInt8) : Res Sys :=
  match s.storePa va with
  | some pa => .ok { s with mem := Function.update s.mem pa b }
  | none => .error (.fault va)

/-- `memset`. The source writes words of up to eight bytes, in order. -/
def memset (s : Sys) (va : ℕ) (b : UInt8) : ℕ → Res Sys
  | 0 => .ok s
  | i + 1 => do
    let s ← s.memset va b i
    s.storeByte (add64 va i) b

end Sys

/-! ### Mapped ranges -/

/-- The frame that an address is mapped to. -/
def Sys.frameOf (s : Sys) (x : ℕ) : Option ℕ :=
  (s.leaf x).map fun l => Sys.leafPa l.2 l.1 x / 0x1000

theorem Sys.frameOf_congr {s s' : Sys} {x : ℕ} (h : s'.leaf x = s.leaf x) :
    s'.frameOf x = s.frameOf x := by
  rw [Sys.frameOf, Sys.frameOf, h]

/-- `x` is mapped to `pa` with exactly the permissions of `flags`; a large page is
aligned. -/
def Sys.Maps (s : Sys) (flags x pa : ℕ) : Prop :=
  ∃ level pte, s.leaf x = some (level, pte) ∧ Sys.leafPa pte level x = pa ∧
    0x1000 * pte.ppn.toNat % level.size = 0 ∧ pte.r = flags.testBit 1 ∧ pte.w = flags.testBit 2 ∧
    pte.x = flags.testBit 3 ∧ pte.u = flags.testBit 4

theorem Sys.Maps.of_leaf {s s' : Sys} {flags x pa : ℕ} (h : s.Maps flags x pa)
    (hl : s'.leaf x = s.leaf x) : s'.Maps flags x pa := by
  obtain ⟨level, pte, h1, h2⟩ := h
  exact ⟨level, pte, hl.trans h1, h2⟩

theorem Sys.Maps.storePa {s : Sys} {flags x pa : ℕ} (h : s.Maps flags x pa) {pa' : ℕ}
    (hs : s.storePa x = some pa') : pa' = pa := by
  obtain ⟨level, pte, h1, h2, -⟩ := h
  unfold Sys.storePa at hs
  rw [h1] at hs
  split at hs
  · simp only at hs
    split at hs
    · rw [Option.some.injEq] at hs
      rw [← hs, h2]
    · cases hs
  · cases hs

theorem Sys.Maps.storePa_eq {s : Sys} {flags x pa : ℕ} (h : s.Maps flags x pa) (hc : Canonical x)
    (hw : flags.testBit 2 = true) : s.storePa x = some pa := by
  obtain ⟨level, pte, h1, h2, h3, -, h4, -⟩ := h
  rw [Sys.storePa, if_pos hc, h1]
  simp only [h4, hw, h3, and_self, if_true, h2]

/-- A new leaf where nothing was. -/
theorem newLeaf_maps {s s' : Sys} {va pa flags x : ℕ} {level : Level} (hal : va % level.size = 0)
    (hpal : pa % level.size = 0) (hpa : pa + (x - va) < 2 ^ 56) (hx : va ≤ x) (hfree : s.leaf x = none)
    (hl : s'.leaf x = s.newLeaf x (add64 pa (level.size * ((x - va) / level.size))) flags level) :
    s'.Maps flags x (pa + (x - va)) := by
  have hnone : s.leafAt x level = none := by rw [Sys.leafAt, hfree]
  rw [Sys.newLeaf, hnone, Option.getD_none] at hl
  refine ⟨level, _, hl, ?_, ?_, ?_, ?_, ?_, ?_⟩
  · unfold Sys.leafPa
    simp only [Pte.map, BitVec.toNat_ofNat]
    cases level <;> simp only [Level.size, add64] at * <;> omega
  · simp only [Pte.map, BitVec.toNat_ofNat]
    cases level <;> simp only [Level.size, add64] at * <;> omega
  all_goals simp only [Pte.map, Pte.zero, Bool.false_or]

/-- A stretch `[lo, hi)` of the user's half has been mapped, address by address,
and nothing else has happened. -/
structure Mapped (s s' : Sys) (lo hi flags : ℕ) (pa : ℕ → ℕ) : Prop where
  inv : PtInv s'
  range : ∀ x, s'.TableRange x ↔ s.TableRange x
  mem : ∀ y, ¬ s.TableRange y → s'.mem y = s.mem y
  maps : ∀ x, lo ≤ x → x < hi → s'.Maps flags x (pa x)
  leaf : ∀ x < 2 ^ 38, ¬ (lo ≤ x ∧ x < hi) → s'.leaf x = s.leaf x

theorem Mapped.refl {s : Sys} (h : PtInv s) (lo flags : ℕ) (pa : ℕ → ℕ) :
    Mapped s s lo lo flags pa :=
  ⟨h, fun _ => Iff.rfl, fun _ _ => rfl, fun x h1 h2 => by omega, fun _ _ _ => rfl⟩

theorem Mapped.trans {s s' s'' : Sys} {lo mid hi flags : ℕ} {pa : ℕ → ℕ}
    (h : Mapped s s' lo mid flags pa) (h' : Mapped s' s'' mid hi flags pa) (hlo : lo ≤ mid)
    (hhi : mid ≤ hi) (hlt : hi ≤ 2 ^ 38) : Mapped s s'' lo hi flags pa := by
  refine ⟨h'.inv, fun x => (h'.range x).trans (h.range x), fun y hy => ?_, fun x h1 h2 => ?_,
    fun x h1 h2 => ?_⟩
  · rw [h'.mem y (mt (h.range y).mp hy), h.mem y hy]
  · by_cases hx : x < mid
    · exact (h.maps x h1 hx).of_leaf (h'.leaf x (by omega) (by omega))
    · exact h'.maps x (by omega) h2
  · rw [h'.leaf x h1 (by omega), h.leaf x h1 (by omega)]

theorem Mapped.congr {s s' : Sys} {lo hi flags : ℕ} {pa pa' : ℕ → ℕ}
    (h : Mapped s s' lo hi flags pa) (hpa : ∀ x, lo ≤ x → x < hi → pa x = pa' x) :
    Mapped s s' lo hi flags pa' :=
  ⟨h.inv, h.range, h.mem, fun x h1 h2 => hpa x h1 h2 ▸ h.maps x h1 h2, h.leaf⟩

/-- A loop over `map_page` where nothing is mapped. -/
theorem Sys.mapRange_mapped {s s' : Sys} {va pa flags n : ℕ} {level : Level} (h : PtInv s)
    (hal : va % level.size = 0) (hpal : pa % level.size = 0) (hf : HasPerm flags)
    (hlt : va + level.size * n ≤ 2 ^ 38) (hpa : pa + level.size * n ≤ 2 ^ 56)
    (hfree : ∀ x, va ≤ x → x < va + level.size * n → s.leaf x = none)
    (hr : s.mapRange va pa flags level n = .ok s') :
    Mapped s s' va (va + level.size * n) flags fun x => pa + (x - va) := by
  have hn : ∀ i < n, s.NoLeafAbove (va + level.size * i) level := by
    intro i hi l pte hl
    have h1 : level.size * (i + 1) ≤ level.size * n := Nat.mul_le_mul_left _ hi
    have h2 : 0 < level.size := by cases level <;> decide
    rw [Nat.mul_succ] at h1
    rw [hfree _ (by omega) (by omega)] at hl
    cases hl
  obtain ⟨h1, h2, h3⟩ := Sys.mapRange_spec h hal hf (by omega) hn hr
  refine ⟨h1, h2.tableRange, h2.mem, fun x hx1 hx2 => ?_, fun x hx1 hx2 => ?_⟩
  · have hx := h3 x
    rw [Nat.mod_eq_of_lt (by omega), if_pos ⟨hx1, hx2⟩] at hx
    exact newLeaf_maps hal hpal (by omega) hx1 (hfree x hx1 hx2) hx
  · rw [h3 x, Nat.mod_eq_of_lt (by omega), if_neg hx2]

/-- `map_page` for one small page; the offset of the physical address in its page
does not matter. -/
theorem Sys.mapPage_mapped {s s' : Sys} {va pa flags : ℕ} (h : PtInv s) (hal : va % 0x1000 = 0)
    (hf : HasPerm flags) (hlt : va + 0x1000 ≤ 2 ^ 38) (hpa : pa < 2 ^ 56)
    (hfree : ∀ x, va ≤ x → x < va + 0x1000 → s.leaf x = none)
    (hr : s.mapPage va pa flags .page = .ok s') :
    Mapped s s' va (va + 0x1000) flags fun x => 0x1000 * (pa / 0x1000) + (x - va) := by
  have hmap : ∀ pte : Pte, pte.map flags pa = pte.map flags (0x1000 * (pa / 0x1000)) := fun pte => by
    simp only [Pte.map, Nat.mul_div_cancel_left _ (show 0 < 0x1000 by decide)]
  have hone : s.mapRange va (0x1000 * (pa / 0x1000)) flags .page 1 = .ok s' := by
    rw [Sys.mapRange, Sys.mapRange, Res.ok_bind, Nat.mul_zero, add64_eq (by omega), add64_eq (by omega),
      Nat.add_zero, Nat.add_zero, ← hr]
    simp only [Sys.mapPage, hmap]
  have hsz : Level.page.size * 1 = 0x1000 := rfl
  have hm := Sys.mapRange_mapped h hal (by simp only [Level.size]; omega) hf (by omega) (by omega)
    (by rwa [hsz]) hone
  rwa [hsz] at hm

/-! ### The zero fill -/

theorem Sys.storePa_congr {s s' : Sys} {x : ℕ} (h : s'.leaf x = s.leaf x) :
    s'.storePa x = s.storePa x := by
  rw [Sys.storePa, Sys.storePa, h]

/-- **What the zero fill does.** Every address was mapped for writing, and the
bytes there are written, if no table is among them. -/
theorem Sys.memset_spec {s s' : Sys} {va n : ℕ} {b : UInt8} (h : PtInv s)
    (hfr : ∀ i < n, ∀ pa, s.storePa (add64 va i) = some pa → ¬ s.TableRange pa)
    (hr : s.memset va b n = .ok s') :
    s' = { s with mem := s'.mem } ∧ (∀ y, s.TableRange y → s'.mem y = s.mem y) ∧
      (∀ i < n, ∃ pa, s.storePa (add64 va i) = some pa ∧ s'.mem pa = b) ∧
      ∀ y, (∀ i < n, s.storePa (add64 va i) ≠ some y) → s'.mem y = s.mem y := by
  induction n generalizing s' with
  | zero =>
    cases hr
    exact ⟨rfl, fun _ _ => rfl, fun i hi => by omega, fun _ _ => rfl⟩
  | succ n ih =>
    rw [Sys.memset] at hr
    obtain ⟨s1, hr1, hr2⟩ := Res.bind_ok hr
    obtain ⟨h1, h2, h3, h4⟩ := ih (fun i hi => hfr i (by omega)) hr1
    have hsame : s1.storePa (add64 va n) = s.storePa (add64 va n) :=
      Sys.storePa_congr ((h.of_mem h1 h2).2 _)
    unfold Sys.storeByte at hr2
    rw [hsame] at hr2
    cases hp : s.storePa (add64 va n) with
    | none =>
      rw [hp] at hr2
      cases hr2
    | some pa =>
      rw [hp] at hr2
      have hs' : s' = { s1 with mem := Function.update s1.mem pa b } := by
        simpa only [Except.ok.injEq, eq_comm] using hr2
      have hpa := hfr n (by omega) pa hp
      have hmem : s'.mem = Function.update s1.mem pa b := by rw [hs']
      refine ⟨?_, fun y hy => ?_, fun i hi => ?_, fun y hy => ?_⟩
      · rw [hs', h1]
      · rw [hmem, Function.update_of_ne (by rintro rfl; exact hpa hy), h2 y hy]
      · by_cases hin : i = n
        · subst hin
          exact ⟨pa, hp, by rw [hmem, Function.update_self]⟩
        · obtain ⟨pa', h5, h6⟩ := h3 i (by omega)
          refine ⟨pa', h5, ?_⟩
          rw [hmem]
          by_cases he : pa' = pa
          · rw [he, Function.update_self]
          · rw [Function.update_of_ne he, h6]
      · have hne : y ≠ pa := by
          rintro rfl
          exact hy n (by omega) hp
        rw [hmem, Function.update_of_ne hne, h4 y fun i hi => hy i (by omega)]

/-- The zero fill succeeds where every address is mapped for writing. -/
theorem Sys.memset_ok {s : Sys} {va n : ℕ} (b : UInt8) (h : PtInv s)
    (hst : ∀ i < n, ∃ pa, s.storePa (add64 va i) = some pa ∧ ¬ s.TableRange pa) :
    ∃ s', s.memset va b n = .ok s' := by
  induction n with
  | zero => exact ⟨s, rfl⟩
  | succ n ih =>
    obtain ⟨s1, h1⟩ := ih fun i hi => hst i (by omega)
    have hfr : ∀ i < n, ∀ pa, s.storePa (add64 va i) = some pa → ¬ s.TableRange pa := by
      intro i hi pa hpa
      obtain ⟨pa', h2, h3⟩ := hst i (by omega)
      rw [hpa, Option.some.injEq] at h2
      rwa [h2]
    obtain ⟨h2, h3, -⟩ := Sys.memset_spec h hfr h1
    obtain ⟨pa, h4, -⟩ := hst n (by omega)
    refine ⟨{ s1 with mem := Function.update s1.mem pa b }, ?_⟩
    rw [Sys.memset, h1, Res.ok_bind, Sys.storeByte, Sys.storePa_congr ((h.of_mem h2 h3).2 _), h4]

end Coffer
