/-
# Megapages for a region

`alloc_mega_page` maps a megapage of `free_mega` again, with no flags. To the walker an entry
without permissions is a pointer: the partition becomes a table of small pages, and the fill that
follows goes where the old contents of the partition say, page tables included.

A fill that returns has still emptied entries only (`Sys.memset_cleared`): it writes zeros in
ascending order, so an entry on its own path that it comes across loses the valid bit first, and
the next byte faults. `Loose` is what this leaves of the invariant of the page table. It says
that the first slot holds no megapage, whatever was in the partitions.

`MmapState.allocMegaPage_iff`: the call delivers exactly when the list is empty.
-/
import Coffer.MmapSmall

namespace Coffer

open Lib

variable {H : List ℕ} {m m' : Mem} {n pa top va x y : ℕ}

/-! ### Emptied entries -/

/-- Each word is as it was, or its low byte is zero. -/
def Cleared (m m' : Mem) : Prop := ∀ a, a % 8 = 0 → (∀ i < 8, m' (a + i) = m (a + i)) ∨ m' a = 0

theorem Cleared.trans {m'' : Mem} (h : Cleared m m') (h' : Cleared m' m'') : Cleared m m'' := by
  intro a ha
  rcases h' a ha with h1 | h1
  · rcases h a ha with h2 | h2
    · exact Or.inl fun i hi => (h1 i hi).trans (h2 i hi)
    · exact Or.inr ((h1 0 (by norm_num)).trans h2)
  · exact Or.inr h1

theorem Cleared.byte (h : ∀ z, y / 8 * 8 ≤ z → z < y → m z = 0) :
    Cleared m (Function.update m y 0) := by
  intro a ha
  by_cases hy : a ≤ y ∧ y < a + 8
  · right
    by_cases he : a = y
    · rw [he, Function.update_self]
    · rw [Function.update_of_ne he]
      exact h a (by omega) (by omega)
  · left
    intro i hi
    exact Function.update_of_ne (by omega) _ _

theorem Pte.ofNat_flags (h : n % 256 = 0) :
    (Pte.ofNat n).v = false ∧ (Pte.ofNat n).isLeaf = false := by
  simp only [Pte.ofNat, Pte.isLeaf, Bool.or_eq_false_iff, decide_eq_false_iff_not]
  omega

theorem Cleared.pte (h : Cleared m m') (p : ℕ) (i : Fin 512) :
    pteAt m' p i = pteAt m p i ∨ ((pteAt m' p i).v = false ∧ (pteAt m' p i).isLeaf = false) := by
  rcases h (0x1000 * p + 8 * i) (by omega) with h1 | h1
  · left
    unfold pteAt
    rw [Mem.load_congr]
    intro x hx hx'
    have h2 := h1 (x - (0x1000 * p + 8 * i)) (by omega)
    rwa [Nat.add_sub_of_le hx] at h2
  · right
    refine Pte.ofNat_flags ?_
    rw [Mem.load, h1]
    simp

theorem Cleared.tables (h : Cleared m m') (p : ℕ) (i : Fin 512) :
    tables m' p i = tables m p i ∨ tables m' p i = .empty := by
  rcases h.pte p i with h1 | h1
  · left
    rw [Coffer.tables, h1, Coffer.tables]
  · exact Or.inr (tables_empty h1.1)

/-! ### The fill -/

theorem vpns_congr (h : x / 0x1000 = y / 0x1000) : vpns x = vpns y := by
  have h0 : x / 2 ^ (12 + 9 * 0) = y / 2 ^ (12 + 9 * 0) := by omega
  have h1 : x / 2 ^ (12 + 9 * 1) = y / 2 ^ (12 + 9 * 1) := by omega
  have h2 : x / 2 ^ (12 + 9 * 2) = y / 2 ^ (12 + 9 * 2) := by omega
  simp only [vpns, getVpn, h0, h1, h2]

namespace Sys

theorem storePa_some {s : Sys} (h : s.storePa x = some y) :
    ∃ level pte, s.leaf x = some (level, pte) ∧ y = leafPa pte level x := by
  unfold storePa at h
  split at h
  · split at h
    · rename_i level pte hl
      split at h
      · exact ⟨level, pte, hl, (Option.some.inj h).symm⟩
      · cases h
    · cases h
  · cases h

theorem leafPa_mod (pte : Pte) (level : Level) (x : ℕ) : leafPa pte level x % 0x1000 = x % 0x1000 := by
  unfold leafPa
  cases level <;> simp only [Level.size] <;> omega

/-- The next byte of a small page, with entries emptied in between, is the next byte in memory. -/
theorem storePa_next {s s' : Sys} {y' : ℕ} (h : s.storePa x = some y)
    (h' : s'.storePa (x + 1) = some y') (hc : Cleared s.mem s'.mem)
    (hroot : s'.rootPage = s.rootPage) (hx : x % 0x1000 + 1 < 0x1000) : y' = y + 1 := by
  obtain ⟨level, pte, hl, rfl⟩ := storePa_some h
  obtain ⟨level', pte', hl', rfl⟩ := storePa_some h'
  have hv : vpns (x + 1) = vpns x := vpns_congr (by omega)
  have hsame : s.leaf x = some (level', pte') := by
    unfold leaf at hl' ⊢
    rw [hv, hroot] at hl'
    obtain ⟨r, hw, hr⟩ := Option.map_eq_some_iff.mp hl'
    rw [Radix.walk_of_emptied hc.tables hw, Option.map_some, hr]
  rw [hsame, Option.some.injEq, Prod.mk.injEq] at hl
  obtain ⟨rfl, rfl⟩ := hl
  unfold leafPa
  cases level' <;> simp only [Level.size] <;> omega

/-- A fill that returns has emptied entries, and has otherwise changed no table. In the middle of
a page it goes on where it is, behind zeros. -/
theorem memset_cleared {s s' : Sys} (hal : va % 0x1000 = 0) (hlt : va + n ≤ 2 ^ 38)
    (hr : s.memset va 0 n = .ok s') :
    s' = { s with mem := s'.mem } ∧ Cleared s.mem s'.mem ∧ (∀ y, s.mem y = 0 → s'.mem y = 0) ∧
      (n % 0x1000 ≠ 0 → ∃ pa, pa % 0x1000 = 0 ∧ (∀ j < n % 0x1000, s'.mem (pa + j) = 0) ∧
        ∀ y, s'.storePa (va + n) = some y → y = pa + n % 0x1000) := by
  induction n generalizing s' with
  | zero =>
    cases hr
    exact ⟨rfl, fun a _ => Or.inl fun _ _ => rfl, fun _ h => h, fun h => absurd rfl h⟩
  | succ n ih =>
    have hnext : (n + 1) % 0x1000 ≠ 0 →
        (va + n) % 0x1000 + 1 < 0x1000 ∧ (n + 1) % 0x1000 = n % 0x1000 + 1 := by omega
    rw [memset] at hr
    obtain ⟨s1, hr1, hr2⟩ := Res.bind_ok hr
    obtain ⟨h1, h2, h3, h4⟩ := ih (by omega) hr1
    rw [add64_eq (by omega), storeByte] at hr2
    split at hr2
    · rename_i y hy
      cases hr2
      obtain ⟨pa, hpa, hz, hy'⟩ : ∃ pa, pa % 0x1000 = 0 ∧ (∀ j < n % 0x1000, s1.mem (pa + j) = 0) ∧
          y = pa + n % 0x1000 := by
        by_cases h0 : n % 0x1000 = 0
        · obtain ⟨level, pte, -, he⟩ := storePa_some hy
          have hm := leafPa_mod pte level (va + n)
          rw [← he] at hm
          exact ⟨y, by omega, fun j hj => by omega, by omega⟩
        · obtain ⟨pa, h5, h6, h7⟩ := h4 h0
          exact ⟨pa, h5, h6, h7 y hy⟩
      have hc : Cleared s1.mem (Function.update s1.mem y 0) := by
        refine Cleared.byte fun z hz1 hz2 => ?_
        have h5 := hz (z - pa) (by omega)
        rwa [Nat.add_sub_of_le (by omega)] at h5
      have hzero : ∀ z, s1.mem z = 0 → Function.update s1.mem y 0 z = 0 := by
        intro z hz'
        by_cases he : z = y
        · rw [he, Function.update_self]
        · rw [Function.update_of_ne he, hz']
      refine ⟨by rw [h1], h2.trans hc, fun z hz' => hzero z (h3 z hz'), fun hne => ?_⟩
      obtain ⟨hx, hn⟩ := hnext hne
      rw [hn]
      refine ⟨pa, hpa, fun j hj => ?_, fun y' hy1 => ?_⟩
      · by_cases hj' : j < n % 0x1000
        · exact hzero _ (hz j hj')
        · rw [show pa + j = y by omega]
          exact Function.update_self _ _ _
      · rw [storePa_next hy hy1 hc rfl hx, hy', Nat.add_assoc]
    · cases hr2

end Sys

/-! ### What is left of the page table -/

/-- The root entry on the path of `x`. -/
def Sys.rootPte (s : Sys) (x : ℕ) : Pte := pteAt s.mem s.rootPage (getVpn x 2)

/-- A page that the S-mode pool has handed out. -/
def Sys.PoolPage (s : Sys) (p : ℕ) : Prop := s.poolStart .smode ≤ 0x1000 * p ∧
  0x1000 * p + 0x1000 ≤ s.poolStart .smode + 0x1000 * s.smodePool.usedPageCount

instance (s : Sys) (p : ℕ) : Decidable (s.PoolPage p) := inferInstanceAs (Decidable (_ ∧ _))

theorem Pte.isLeaf_point (p : Pte) (ppn : BitVec 44) :
    Pte.isLeaf { p with ppn := ppn, v := true } = p.isLeaf := rfl

theorem Pte.map_zero_isLeaf (p : Pte) (pa : ℕ) : (p.map 0 pa).isLeaf = p.isLeaf := by
  simp only [Pte.map, Pte.isLeaf, Nat.zero_testBit, Bool.or_false]

theorem Sys.rootPte_ptr {s : Sys} (hv : (s.rootPte x).v = true)
    (hl : (s.rootPte x).isLeaf = false) :
    tables s.mem s.rootPage (getVpn x 2) = .ptr (s.rootPte x).ppn.toNat := tables_ptr hv hl

/-- Above `lo`, the valid entries of the root are pointers to tables of their own, and the slot of
`lo` holds no leaf. -/
structure Loose (s : Sys) (lo : ℕ) : Prop extends PtEnv s where
  root : ∀ x, lo ≤ x → x < poolVaStart → (s.rootPte x).isLeaf = false ∧
    ((s.rootPte x).v = true → s.PoolPage (s.rootPte x).ppn.toNat)
  inj : ∀ x y, lo ≤ x → x < poolVaStart → lo ≤ y → y < poolVaStart → (s.rootPte x).v = true →
    (s.rootPte y).v = true → (s.rootPte x).ppn.toNat = (s.rootPte y).ppn.toNat → getVpn x 2 = getVpn y 2
  slot : (s.rootPte lo).v = true →
    (pteAt s.mem (s.rootPte lo).ppn.toNat (getVpn lo 1)).isLeaf = false

namespace Loose

variable {s s' : Sys} {lo : ℕ}

/-- A page table in order, with nothing mapped from `lo` on. -/
theorem of_inv (h : PtInv s) (hlo : lo < poolVaStart)
    (hfree : ∀ x, lo ≤ x → x < poolVaStart → s.leaf x = none) : Loose s lo := by
  obtain ⟨owner, hS⟩ := h
  have hroot := hS.shape.root_owner
  have hptr : ∀ x, (s.rootPte x).v = true → (s.rootPte x).isLeaf = false →
      owner (s.rootPte x).ppn.toNat = some [getVpn x 2] := fun x hv hl => by
    have h1 := hS.shape.ptr_owner hroot (Sys.rootPte_ptr hv hl)
    simpa using h1
  have hnl : ∀ x, lo ≤ x → x < poolVaStart → (s.rootPte x).isLeaf = false := by
    intro x h1 h2
    rcases hS.entries _ _ hroot (getVpn x 2) with h3 | ⟨h3, h4⟩ | ⟨q, h3⟩
    · rw [Sys.rootPte, h3]
      rfl
    · have h5 := hfree x h1 h2
      rw [Sys.leaf, vpns, Radix.walk_leaf (tables_leaf h3 h4)] at h5
      cases h5
    · rw [Sys.rootPte, h3]
      rfl
  refine { hS.toPtEnv with root := fun x h1 h2 => ⟨hnl x h1 h2, fun hv => ?_⟩, inj := ?_, slot := ?_ }
  · have h3 := hptr x hv (hnl x h1 h2)
    rcases hS.owned _ _ h3 with h4 | h4
    · rw [h4, hroot] at h3
      cases h3
    · exact h4
  · intro x y hx hx' hy hy' hvx hvy he
    have h3 := hptr x hvx (hnl x hx hx')
    rw [he, hptr y hvy (hnl y hy hy')] at h3
    simpa using h3.symm
  · intro hv
    have h1 := hnl lo (le_refl _) hlo
    have h2 := hptr lo hv h1
    rcases hS.entries _ _ h2 (getVpn lo 1) with h3 | ⟨h3, h4⟩ | ⟨q, h3⟩
    · rw [h3]
      rfl
    · have h5 := hfree lo (le_refl _) hlo
      rw [Sys.leaf, vpns, Radix.walk_ptr (Sys.rootPte_ptr hv h1), Radix.walk_leaf (tables_leaf h3 h4)] at h5
      cases h5
    · rw [h3]
      rfl

theorem not_mega (h : Loose s lo) (hlo : lo < poolVaStart) (pte : Pte) :
    s.leaf lo ≠ some (.mega, pte) := by
  intro hl
  rw [Sys.leaf, vpns] at hl
  by_cases hv : (s.rootPte lo).v = true
  · rw [Radix.walk_ptr (Sys.rootPte_ptr hv (h.root lo (le_refl _) hlo).1)] at hl
    by_cases hv' : (pteAt s.mem (s.rootPte lo).ppn.toNat (getVpn lo 1)).v = true
    · rw [Radix.walk_ptr (tables_ptr hv' (h.slot hv))] at hl
      obtain ⟨⟨rest, l⟩, hw, hr⟩ := Option.map_eq_some_iff.mp hl
      have hlen := Radix.walk_rest_length hw
      have h0 : rest.length = 0 := by simpa using hlen
      simp only [h0, Level.ofRest, Prod.mk.injEq, reduceCtorEq, false_and] at hr
    · rw [Radix.walk_empty (tables_empty (by simpa using hv'))] at hl
      cases hl
  · have hv' : (s.rootPte lo).v = false := by simpa using hv
    rw [Radix.walk_empty (tables_empty hv')] at hl
    cases hl

theorem env_of_zeros (h : PtEnv s) (hz : ∀ y, s.mem y = 0 → m y = 0) :
    PtEnv { s with mem := m } :=
  { h with fresh := fun x h1 h2 => hz x (h.fresh x h1 h2) }

theorem of_cleared (h : Loose s lo) (hs : s' = { s with mem := s'.mem }) (hc : Cleared s.mem s'.mem)
    (hz : ∀ y, s.mem y = 0 → s'.mem y = 0) : Loose s' lo := by
  have hpage : s'.rootPage = s.rootPage := by
    rw [hs]
    rfl
  have hpool : ∀ p, s'.PoolPage p ↔ s.PoolPage p := by
    rw [hs]
    exact fun p => Iff.rfl
  have hroot : ∀ x, s'.rootPte x = s.rootPte x ∨
      ((s'.rootPte x).v = false ∧ (s'.rootPte x).isLeaf = false) := by
    intro x
    rw [Sys.rootPte, hpage]
    exact hc.pte _ _
  have hv : ∀ x, (s'.rootPte x).v = true → s'.rootPte x = s.rootPte x := by
    intro x hx
    refine (hroot x).resolve_right fun h1 => ?_
    rw [h1.1] at hx
    cases hx
  have henv : PtEnv s' := by
    rw [hs]
    exact env_of_zeros h.toPtEnv hz
  refine { henv with root := fun x h1 h2 => ⟨?_, fun h3 => ?_⟩, inj := ?_, slot := fun h1 => ?_ }
  · rcases hroot x with h3 | h3
    · rw [h3]
      exact (h.root x h1 h2).1
    · exact h3.2
  · have h4 := hv x h3
    rw [h4] at h3 ⊢
    exact (hpool _).mpr ((h.root x h1 h2).2 h3)
  · intro x y hx hx' hy hy' hvx hvy he
    have h4 := hv x hvx
    have h5 := hv y hvy
    rw [h4] at hvx he
    rw [h5] at hvy he
    exact h.inj x y hx hx' hy hy' hvx hvy he
  · have h4 := hv lo h1
    rw [h4] at h1 ⊢
    rcases hc.pte (s.rootPte lo).ppn.toNat (getVpn lo 1) with h2 | h2
    · rw [h2]
      exact h.slot h1
    · exact h2.2

/-! ### `map_page` on what is left -/

theorem toOwned (h : Loose s lo) :
    PtOwned s fun p => if p = s.rootPage ∨ s.PoolPage p then some [] else none := by
  refine { h.toPtEnv with owned := fun p path hp => ?_ }
  split at hp
  · assumption
  · cases hp

theorem pool_ne_root (h : Loose s lo) {p : ℕ} (hp : s.PoolPage p) : p ≠ s.rootPage := by
  obtain ⟨h1, h2⟩ := hp
  have h3 := h.root_eq
  have h4 := h.apart
  have h5 := h.used_le
  rintro rfl
  omega

/-- An entry is written into the table of a slot; no leaf into the first. -/
theorem writeSlot (h : Loose s lo) (hlo : lo < poolVaStart) (hva : lo ≤ va)
    (hva' : va < poolVaStart) (hv : (s.rootPte va).v = true) {pte : Pte}
    (hpte : getVpn va 2 = getVpn lo 2 → getVpn va 1 = getVpn lo 1 → pte.isLeaf = false) :
    Loose (s.writePte (0x1000 * (s.rootPte va).ppn.toNat + 8 * getVpn va 1) pte) lo := by
  have hp := (h.root va hva hva').2 hv
  have hne := h.pool_ne_root hp
  have hroot : ∀ x, (s.writePte (0x1000 * (s.rootPte va).ppn.toNat + 8 * getVpn va 1) pte).rootPte x =
      s.rootPte x := fun x => pteAt_store_other s.mem _ (Or.inl hne.symm)
  have henv := (h.toOwned.write (if_pos (Or.inr hp)) (getVpn va 1) pte.toNat).toPtEnv
  refine { henv with root := ?_, inj := ?_, slot := ?_ }
  · intro x h1 h2
    rw [hroot]
    exact h.root x h1 h2
  · intro x y hx hx' hy hy'
    rw [hroot, hroot]
    exact h.inj x y hx hx' hy hy'
  · rw [hroot]
    intro hv0
    by_cases hs : (s.rootPte lo).ppn.toNat = (s.rootPte va).ppn.toNat ∧ getVpn lo 1 = getVpn va 1
    · rw [hs.1, hs.2, Sys.writePte, pteAt_store_self]
      exact hpte (h.inj va lo hva hva' (le_refl _) hlo hv hv0 hs.1.symm) hs.2.symm
    · rw [Sys.writePte, pteAt_store_other s.mem _ (not_and_or.mp hs)]
      exact h.slot hv0

/-- A new table for a slot: the root entry points to the next page of the pool. -/
theorem grow (h : Loose s lo) {q : ℕ} {pte : Pte} (hlo : lo < poolVaStart)
    (hs' : s' = { s.setUsedPageCount (s.smodePool.usedPageCount + 1) .smode with
      mem := s.mem.store (0x1000 * s.rootPage + 8 * getVpn va 2) 8 pte.toNat })
    (hq : 0x1000 * q = s.poolStart .smode + 0x1000 * s.smodePool.usedPageCount)
    (hle : 0x1000 * q + 0x1000 ≤ s.poolStart .smode + s.smodePool.size)
    (hzero : ∀ j, pteAt s.mem q j = Pte.zero) (hpte : pte.isLeaf = false) (hppn : pte.ppn.toNat = q) :
    Loose s' lo ∧ s'.rootPte va = pte := by
  obtain ⟨henv, hframe, hused⟩ := h.toOwned.env_grow (if_pos (Or.inl rfl)) (getVpn va 2) hs' (by omega)
  have hmem : s'.mem = s.mem.store (0x1000 * s.rootPage + 8 * getVpn va 2) 8 pte.toNat := by rw [hs']
  have hself : ∀ x, getVpn x 2 = getVpn va 2 → s'.rootPte x = pte := by
    intro x hx
    rw [Sys.rootPte, hframe.rootPage, hmem, hx, pteAt_store_self]
  have hother : ∀ x, getVpn x 2 ≠ getVpn va 2 → s'.rootPte x = s.rootPte x := by
    intro x hx
    rw [Sys.rootPte, hframe.rootPage, hmem, pteAt_store_other _ _ (Or.inr hx), Sys.rootPte]
  have hpool : ∀ p, s'.PoolPage p ↔ s.PoolPage p ∨ p = q := by
    intro p
    have h1 := h.pool_aligned
    rw [Sys.PoolPage, hframe.poolStart, hused, Sys.PoolPage]
    omega
  have hfresh : ∀ p, s.PoolPage p → p ≠ q := by
    rintro p ⟨-, h1⟩ rfl
    omega
  have hqroot : q ≠ s.rootPage := by
    have h1 := h.root_eq
    have h2 := h.apart
    rintro rfl
    omega
  have htab : ∀ p i, p ≠ s.rootPage → pteAt s'.mem p i = pteAt s.mem p i := by
    intro p i hp
    rw [hmem, pteAt_store_other _ _ (Or.inl hp)]
  refine ⟨{ henv with root := ?_, inj := ?_, slot := ?_ }, hself va rfl⟩
  · intro x h1 h2
    by_cases hx : getVpn x 2 = getVpn va 2
    · rw [hself x hx]
      exact ⟨hpte, fun _ => (hpool _).mpr (Or.inr hppn)⟩
    · rw [hother x hx]
      obtain ⟨h3, h4⟩ := h.root x h1 h2
      exact ⟨h3, fun hv => (hpool _).mpr (Or.inl (h4 hv))⟩
  · -- the new table is nobody else's
    intro x y hx hx' hy hy' hvx hvy he
    by_cases h1 : getVpn x 2 = getVpn va 2
    · by_cases h2 : getVpn y 2 = getVpn va 2
      · rw [h1, h2]
      · rw [hother y h2] at hvy he
        rw [hself x h1, hppn] at he
        exact absurd he.symm (hfresh _ ((h.root y hy hy').2 hvy))
    · rw [hother x h1] at hvx he
      by_cases h2 : getVpn y 2 = getVpn va 2
      · rw [hself y h2, hppn] at he
        exact absurd he (hfresh _ ((h.root x hx hx').2 hvx))
      · rw [hother y h2] at hvy he
        exact h.inj x y hx hx' hy hy' hvx hvy he
  · intro hv
    by_cases h1 : getVpn lo 2 = getVpn va 2
    · rw [hself lo h1, hppn, htab q _ hqroot, hzero]
      rfl
    · rw [hother lo h1] at hv ⊢
      rw [htab _ _ (h.pool_ne_root ((h.root lo (le_refl _) hlo).2 hv))]
      exact h.slot hv

/-- The table of a slot, which is allocated if there is none. -/
theorem nextTable (h : Loose s lo) {t : ℕ} {s1 : Sys} (hlo : lo < poolVaStart) (hva : lo ≤ va)
    (hva' : va < poolVaStart) (hr : s.nextTable s.tableRoot (getVpn va 2) true = .ok (t, s1)) :
    Loose s1 lo ∧ (s1.rootPte va).v = true ∧ t = 0x1000 * (s1.rootPte va).ppn.toNat := by
  have haddr := h.root_eq
  have hread : s.readPte (s.tableRoot + 8 * (getVpn va 2 : ℕ)) = s.rootPte va := by
    rw [Sys.readPte, Sys.rootPte, pteAt, haddr]
  simp only [Sys.nextTable, hread, Bool.true_eq_false, if_false] at hr
  split at hr
  · obtain ⟨⟨pa, s2⟩, ha, hr2⟩ := Res.bind_ok hr
    simp only [Except.ok.injEq, Prod.mk.injEq] at hr2
    obtain ⟨rfl, hs1⟩ := hr2
    obtain ⟨q, rfl, hq, hend, rfl, -, hzero⟩ := h.toOwned.alloc ha
    have hread' : (s.setUsedPageCount (s.smodePool.usedPageCount + 1) .smode).readPte
        (s.tableRoot + 8 * (getVpn va 2 : ℕ)) = s.rootPte va := by
      have hm : (s.setUsedPageCount (s.smodePool.usedPageCount + 1) .smode).mem = s.mem := rfl
      rw [Sys.readPte, hm, ← hread, Sys.readPte]
    rw [hread', haddr] at hs1
    have hq44 : q < 2 ^ 44 := by
      have h1 := h.pool_end
      omega
    have hppn : (BitVec.ofNat 44 (0x1000 * q / 0x1000)).toNat = q := by
      rw [Nat.mul_div_cancel_left _ (by norm_num), BitVec.toNat_ofNat, Nat.mod_eq_of_lt hq44]
    have hleaf := (Pte.isLeaf_point (s.rootPte va) (BitVec.ofNat 44 (0x1000 * q / 0x1000))).trans
      (h.root va hva hva').1
    obtain ⟨h1, h2⟩ := h.grow hlo hs1.symm hq hend hzero hleaf hppn
    rw [h2]
    exact ⟨h1, rfl, by rw [hppn]⟩
  · rename_i hv
    obtain ⟨rfl, rfl⟩ := Res.ok_pair hr
    exact ⟨h, by simpa using hv, rfl⟩

/-- `map_page` of a megapage, with no flags or above the first slot. -/
theorem mapPage (h : Loose s lo) {flags : ℕ} (hal : lo % 0x200000 = 0) (hlo : lo < poolVaStart)
    (hva : lo ≤ va) (hva' : va < poolVaStart) (hf : flags = 0 ∨ lo + 0x200000 ≤ va)
    (hr : s.mapPage va pa flags .mega = .ok s') : Loose s' lo := by
  have hpool := poolVaStart_eq
  unfold Sys.mapPage Sys.getLeafPte at hr
  obtain ⟨⟨addr, s1⟩, hr1, hr2⟩ := Res.bind_ok hr
  obtain ⟨⟨t, s2⟩, hr3, hr4⟩ := Res.bind_ok hr1
  obtain ⟨⟨t', s3⟩, hr5, hr6⟩ := Res.bind_ok hr3
  simp only [Sys.descendTables, Except.ok.injEq, Prod.mk.injEq] at hr6
  obtain ⟨rfl, rfl⟩ := hr6
  simp only [Bool.true_eq_false, and_false, if_false, Except.ok.injEq, Prod.mk.injEq] at hr4
  obtain ⟨rfl, rfl⟩ := hr4
  simp only [Except.ok.injEq] at hr2
  obtain ⟨h1, hv, rfl⟩ := h.nextTable hlo hva hva' hr5
  rw [← hr2]
  refine h1.writeSlot hlo hva hva' hv fun e2 e1 => ?_
  rcases hf with rfl | hf
  · have hroot : s3.rootPte va = s3.rootPte lo := by rw [Sys.rootPte, e2, Sys.rootPte]
    have hlast : lastVpn va .mega = getVpn va 1 := rfl
    rw [Pte.map_zero_isLeaf, hlast, e1, hroot]
    exact h1.slot (hroot ▸ hv)
  · exfalso
    rw [getVpn_eq_iff] at e2 e1
    omega

theorem mapRange (h : Loose s lo) {flags : ℕ} (hal : lo % 0x200000 = 0) (hva : lo + 0x200000 ≤ va)
    (hlt : va + 0x200000 * n ≤ poolVaStart) (hr : s.mapRange va pa flags .mega n = .ok s') :
    Loose s' lo := by
  have hpool := poolVaStart_eq
  induction n generalizing s' with
  | zero =>
    cases hr
    exact h
  | succ n ih =>
    rw [Sys.mapRange] at hr
    obtain ⟨s1, hr1, hr2⟩ := Res.bind_ok hr
    have hsz : Level.mega.size * n = 0x200000 * n := rfl
    rw [Nat.mul_succ, ← Nat.add_assoc] at hlt
    rw [hsz, add64_eq (by omega)] at hr2
    exact (ih (by omega) hr1).mapPage hal (by omega) (by omega) (by omega) (Or.inr (by omega)) hr2

end Loose

namespace MmapState

variable {st st' : MmapState} {rs rs' : List SmReply}

/-- With a megapage to use again, the first slot of the region gets no megapage. -/
theorem megaLoop_loose {free : List ℕ} {num lo : ℕ} {evs : List MapEvent} {rest : List SmReply}
    (h : Loose st.sys lo) (hlo : lo % 0x200000 = 0) (hal : st.mmapTop % 0x200000 = 0)
    (hle : lo ≤ st.mmapTop) (hfirst : free = [] → lo + 0x200000 ≤ st.mmapTop)
    (hroom : st.mmapTop + 0x200000 * num ≤ poolVaStart)
    (he : partitionLoop (fun allocated => allocated) rs (num - free.length) (num - free.length)
      (st.mmapTop + 0x200000 * free.length) = (evs, some rest))
    (hcount : (mapsOf evs).length = num - free.length)
    (hr : megaLoop rs free st num = .ok (st', rs')) : Loose st'.sys lo := by
  have hpool := poolVaStart_eq
  induction num generalizing free st with
  | zero =>
    rw [megaLoop] at hr
    obtain ⟨rfl, rfl⟩ := Res.ok_pair hr
    exact h
  | succ num ih =>
    cases free with
    | nil =>
      rw [megaLoop] at hr
      obtain ⟨evs', sys, he', hx, rfl⟩ := megaFromPartitions_ok hr
      simp only [List.length_nil, Nat.sub_zero, Nat.mul_zero, Nat.add_zero] at he hcount
      rw [megaPartitions, he] at he'
      obtain ⟨rfl, -⟩ := Prod.mk.inj he'
      have h1 := partitions_induct (P := fun t _ s => lo + 0x200000 ≤ t ∧ Loose s lo)
        (fun {t pa k log s s'} h hal hlt hr =>
          ⟨le_trans h.1 (Nat.le_add_right _ _), h.2.mapRange hlo h.1 hlt hr⟩)
        [] ⟨hfirst rfl, h⟩ hal he (by rw [hcount]; exact hroom) hx
      exact h1.2
    | cons va free =>
      rw [megaLoop] at hr
      obtain ⟨s1, hr1, hr2⟩ := Res.bind_ok hr
      obtain ⟨s2, hr3, hr4⟩ := Res.bind_ok hr2
      rw [Nat.mul_succ, ← Nat.add_assoc] at hroom
      have h1 := h.mapPage hlo (by omega) hle (by omega) (Or.inl rfl) hr1
      have hend : st.mmapTop + 0x200000 ≤ 2 ^ 38 := by omega
      obtain ⟨e1, e2, e3, -⟩ := Sys.memset_cleared (by omega) hend hr3
      have htop : add64 st.mmapTop 0x200000 = st.mmapTop + 0x200000 := add64_eq (by omega)
      have hnum : num + 1 - (va :: free).length = num - free.length := by
        rw [List.length_cons]
        omega
      rw [hnum, List.length_cons, Nat.mul_succ, Nat.add_comm (0x200000 * _), ← Nat.add_assoc] at he
      rw [hnum] at hcount
      refine ih (h1.of_cleared e1 e2 e3) ?_ ?_ ?_ ?_ ?_ hcount hr4
      · simp only [htop]
        omega
      · simp only [htop]
        omega
      · simp only [htop]
        omega
      · simp only [htop]
        omega
      · simp only [htop]
        exact he

end MmapState

/-! ### Fresh megapages -/

/-- All addresses of `[lo, hi)` are on megapages with the flags of `mmap`. -/
def Sys.MegaRange (s : Sys) (lo hi : ℕ) : Prop := ∀ x, lo ≤ x → x < hi →
  (∃ pa, s.Maps mmapFlags x pa) ∧ (s.leaf x).map Prod.fst = some .mega

theorem Sys.MegaRange.grant {T : ℕ → Prop} {s s' : Sys} {lo k : ℕ} {F : List ℕ}
    (hm : s.MegaRange lo top) (h : Holds T s top H F) (hal : top % 0x200000 = 0)
    (hlog : FreshLog T [(pa, k)]) (hlt : top + 0x200000 * k ≤ poolVaStart)
    (hr : s.mapRange top pa mmapFlags .mega k = .ok s') : s'.MegaRange lo (top + 0x200000 * k) := by
  have hpool := poolVaStart_eq
  have hral : pa % 0x200000 = 0 := hlog.aligned _ List.mem_cons_self
  have hfit : pa + 0x200000 * k ≤ 2 ^ 44 := hlog.fits _ List.mem_cons_self
  have hsz : Level.mega.size * k = 0x200000 * k := rfl
  have hfree : ∀ x, top ≤ x → x < top + Level.mega.size * k → s.leaf x = none :=
    fun x h1 h2 => h.free x h1 (by rw [hsz] at h2; omega)
  have hmap := Sys.mapRange_mapped h.inv hal hral hasPerm_mmapFlags (by rw [hsz]; omega)
    (by rw [hsz]; omega) hfree hr
  rw [hsz] at hmap hfree
  intro x h1 h2
  by_cases hx : x < top
  · obtain ⟨⟨pa', h3⟩, h4⟩ := hm x h1 hx
    have h5 := hmap.leaf x (by omega) (by omega)
    exact ⟨⟨pa', h3.of_leaf h5⟩, by rw [h5, h4]⟩
  · refine ⟨⟨_, hmap.maps x (by omega) h2⟩, ?_⟩
    have hn : ∀ i < k, s.NoLeafAbove (top + Level.mega.size * i) .mega := by
      intro i hi l pte hl
      rw [hfree _ (Nat.le_add_right _ _) (by simp only [Level.size]; omega)] at hl
      cases hl
    obtain ⟨-, -, h3⟩ := Sys.mapRange_spec h.inv hal hasPerm_mmapFlags (by rw [hsz]; omega) hn hr
    rw [h3, if_pos (by rw [hsz]; omega), Sys.newLeaf, Option.map_some]

/-- The loop of `alloc_mega_page` maps megapages. -/
theorem Holds.partitions_mega {T : ℕ → Prop} {rs rest : List SmReply} {left sug : ℕ} {s s' : Sys}
    {F : List ℕ} {evs : List MapEvent} (h : Holds T s top H F) (hal : top % 0x200000 = 0)
    (he : partitionLoop (fun allocated => allocated) rs left sug top = (evs, some rest))
    (hlt : top + 0x200000 * (mapsOf evs).length ≤ poolVaStart) (hlog : FreshLog T (grantsOf evs))
    (hr : s.execCalls mmapFlags evs = .ok s') :
    s'.MegaRange top (top + 0x200000 * (mapsOf evs).length) := by
  have h1 := partitions_induct
    (P := fun t log s => FreshLog T log → s.MegaRange top t ∧ ∃ H F, Holds T s t H F)
    (fun {t pa k log s s'} => ?_) []
    (fun _ => ⟨fun x h1 h2 => absurd h1 (not_le_of_gt h2), H, F, h⟩) hal he hlt hr
  · rw [List.append_nil] at h1
    exact (h1 hlog).1
  · intro h1 hal hlt hr hlog
    obtain ⟨h2, H, F, h3⟩ := h1 (hlog.of_sublist (List.sublist_cons_self _ _))
    have hlog1 := hlog.of_sublist (List.Sublist.cons_cons (pa, k) (List.nil_sublist log))
    exact ⟨h2.grant h3 hal hlog1 hlt hr, _, _, h3.grant hal hlog1 hlt hr⟩

/-! ### When the call delivers -/

/-- What the call finds: the list holds megapages with the distinct frames `F`, which come from
grants; the monitor serves what the list does not, with `evs`, by partitions that it has not
granted before; and the area above the top is free and large enough. -/
structure MegaEnv (st : MmapState) (num : ℕ) (rs rest : List SmReply) (F : List ℕ)
    (evs : List MapEvent) : Prop where
  holds : Holds st.sys.TableRange st.sys st.mmapTop st.megaPages F
  nodup : F.Nodup
  source : ∀ f ∈ F, f ∈ grantFrames st.granted
  listed : ∀ va ∈ st.freeMega, va % 0x200000 = 0 ∧ (st.sys.leaf va).map Prod.fst = some .mega
  served : partitionLoop (fun allocated => allocated) rs (num - st.freeMega.length)
    (num - st.freeMega.length) (st.alignTop.mmapTop + 0x200000 * st.freeMega.length) = (evs, some rest)
  count : (mapsOf evs).length = num - st.freeMega.length
  log : FreshLog st.sys.TableRange (grantsOf evs ++ st.granted)
  room : st.alignTop.mmapTop + 0x200000 * num ≤ poolVaStart

/-- What the call delivers: `num` megapages from `mem`, for the user to read and write, in distinct
partitions; those of them that come from the list read as zero. -/
structure MegaOk (st st' : MmapState) (num mem : ℕ) : Prop where
  maps : st'.sys.MegaRange mem (mem + 0x200000 * num)
  distinct : ((List.range num).map fun i => st'.sys.frameOf (mem + 0x200000 * i)).Nodup
  zero : ∀ va ∈ st.freeMega.take num, ∀ p ∈ pagesFrom va 512, ∀ f, st.sys.frameOf p = some f →
    ∀ i < 0x1000, st'.sys.mem (0x1000 * f + i) = 0

namespace MegaEnv

variable {st : MmapState} {num : ℕ} {rs rest : List SmReply} {F : List ℕ} {evs : List MapEvent}

theorem le_alignTop (h : MegaEnv st num rs rest F evs) : st.mmapTop ≤ st.alignTop.mmapTop := by
  have hpool := poolVaStart_eq
  have h1 := h.holds.top_le
  rw [MmapState.alignTop_mmapTop]
  exact (partitionUp_spec (by omega)).1

theorem loose (h : MegaEnv st num rs rest F evs) (hpos : 1 ≤ num) :
    Loose st.alignTop.sys st.alignTop.mmapTop := by
  have h1 := h.room
  have h2 := h.le_alignTop
  rw [(MmapState.alignTop_rest st).1]
  exact Loose.of_inv h.holds.inv (by omega) fun x hx hx' => h.holds.free x (by omega) hx'

theorem distinct (h : MegaEnv st num rs rest F evs) {s' : Sys}
    (hf : Holds st.sys.TableRange s' (top + 0x200000 * num) (pagesFrom top (512 * num) ++ H)
      (grantFrames (grantsOf evs) ++ F)) :
    ((List.range num).map fun i => s'.frameOf (top + 0x200000 * i)).Nodup := by
  have hnd : ((pagesFrom top (512 * num)).map s'.frameOf).Nodup := by
    have h1 : (grantFrames (grantsOf evs) ++ F).Nodup := by
      have h2 := h.log.nodup
      rw [grantFrames_append, List.nodup_append] at h2
      rw [List.nodup_append]
      exact ⟨h2.1, h.nodup, fun f hf f' hf' => h2.2.2 f hf f' (h.source f' hf')⟩
    have h2 := hf.frames.nodup_iff.mpr (h1.map (Option.some_injective _))
    rw [List.map_append] at h2
    exact (List.nodup_append.mp h2).1
  refine List.Nodup.map_on (fun i hi j hj hij => ?_) List.nodup_range
  have hmem : ∀ i ∈ List.range num, top + 0x200000 * i ∈ pagesFrom top (512 * num) := fun i hi =>
    mem_pagesFrom.mpr ⟨512 * i, by rw [List.mem_range] at hi; omega, by omega⟩
  have h1 := List.inj_on_of_nodup_map hnd (hmem i hi) (hmem j hj) hij
  omega

/-- With an empty list the partitions are mapped as they are granted. -/
theorem fresh (h : MegaEnv st num rs rest F evs) (hfree : st.freeMega = []) {s' : Sys}
    (htop : st.alignTop.mmapTop = top) (hx : st.sys.execCalls mmapFlags evs = .ok s') :
    s'.MegaRange top (top + 0x200000 * num) ∧
      ((List.range num).map fun i => s'.frameOf (top + 0x200000 * i)).Nodup := by
  have hserved := h.served
  have hcount := h.count
  have hroom := h.room
  have hal := MmapState.alignTop_aligned st
  have hle := h.le_alignTop
  rw [hfree, List.length_nil, Nat.sub_zero, Nat.mul_zero, Nat.add_zero] at hserved
  rw [hfree, List.length_nil, Nat.sub_zero] at hcount
  rw [htop] at hserved hroom hal hle
  have h0 := h.holds.raise hle (by omega) (by omega)
  have hlog : FreshLog st.sys.TableRange (grantsOf evs) :=
    h.log.of_sublist (List.sublist_append_left _ _)
  rw [← hcount] at hroom
  have h1 := h0.partitions_mega hal hserved hroom hlog hx
  have h2 := h0.partitions hal hserved hroom hlog hx
  rw [hcount] at h1 h2
  exact ⟨h1, h.distinct h2⟩

end MegaEnv

theorem MmapState.megaFromPartitions_eq {st : MmapState} {num : ℕ} {rs rest : List SmReply}
    {evs : List MapEvent} {s' : Sys} (he : st.megaPartitions num rs = (evs, some rest))
    (hx : st.sys.execCalls mmapFlags evs = .ok s') :
    ∃ st', st.megaFromPartitions num rs = .ok (st', rest) ∧ st'.sys = s' := by
  rw [megaFromPartitions, he]
  dsimp only
  rw [hx, Res.ok_bind]
  exact ⟨_, rfl, rfl⟩

/-- **`alloc_mega_page` delivers.** Unless the pool is out of pages for tables, exactly when there
is no megapage to use again: the call then returns, and its megapages are as specified. -/
theorem MmapState.allocMegaPage_iff {st : MmapState} {num : ℕ} {rs rest : List SmReply} {F : List ℕ}
    {evs : List MapEvent} (h : MegaEnv st num rs rest F evs) (hpos : 1 ≤ num)
    (hpanic : st.allocMegaPage num rs ≠ .error poolPanic) :
    (∃ mem st' rs', st.allocMegaPage num rs = .ok (mem, st', rs') ∧ MegaOk st st' num mem) ↔
      st.freeMega = [] := by
  have hal := alignTop_aligned st
  have hroom := h.room
  have hpool := poolVaStart_eq
  constructor
  · rintro ⟨mem, st', rs', hr, hok⟩
    by_contra hne
    obtain ⟨⟨st1, rs1⟩, hr1, hr2⟩ := Res.bind_ok hr
    simp only [Except.ok.injEq, Prod.mk.injEq] at hr2
    obtain ⟨rfl, rfl, rfl⟩ := hr2
    have hloose := megaLoop_loose (h.loose hpos) hal hal (le_refl _) (fun he => absurd he hne) hroom
      h.served h.count hr1
    have hmega := (hok.maps st.alignTop.mmapTop (le_refl _) (by omega)).2
    obtain ⟨⟨level, pte⟩, hl, rfl⟩ := Option.map_eq_some_iff.mp hmega
    exact hloose.not_mega (by omega) pte hl
  · intro hfree
    have hserved := h.served
    have hcount := h.count
    rw [hfree, List.length_nil, Nat.sub_zero, Nat.mul_zero, Nat.add_zero] at hserved
    rw [hfree, List.length_nil, Nat.sub_zero] at hcount
    obtain ⟨n, rfl⟩ : ∃ n, num = n + 1 := ⟨num - 1, by omega⟩
    have he : st.alignTop.megaPartitions (n + 1) rs = (evs, some rest) := by
      rw [megaPartitions, hserved]
    have hne : st.sys.execCalls mmapFlags evs ≠ .error poolPanic := fun hx => by
      rw [← (alignTop_rest st).1] at hx
      refine hpanic ?_
      rw [allocMegaPage, hfree, megaLoop, megaFromPartitions, he]
      dsimp only
      rw [hx]
      rfl
    obtain ⟨s', hx, -⟩ := (Sys.execCalls_served st.sys mmapFlags evs).of_ne hne
    obtain ⟨h1, h2⟩ := h.fresh hfree rfl hx
    rw [← (alignTop_rest st).1] at hx
    obtain ⟨st', hr, rfl⟩ := megaFromPartitions_eq he hx
    refine ⟨_, st', rest, ?_, MegaOk.mk h1 h2 ?_⟩
    · rw [allocMegaPage, hfree, megaLoop, hr, Res.ok_bind]
    · rw [hfree, List.take_nil]
      exact fun va hva => absurd hva List.not_mem_nil

/-- The first region is of one partition. -/
theorem MegaEnv.boot : MegaEnv (MmapState.init Sys.wideBoot) 1 [⟨0, 0x90000000⟩] [] []
    [.grant 0x90000000 1, .map 0x1000000000 0x90000000] where
  holds := (Tracks.init Sys.wideBoot_inv.1 fun x _ _ => Sys.wideBoot_inv.2 x).holds
  nodup := List.nodup_nil
  source := fun f hf => absurd hf List.not_mem_nil
  listed := fun va hva => absurd hva List.not_mem_nil
  served := by decide +kernel
  count := rfl
  log := freshLog_partition (by norm_num) (by norm_num) fun x hx => lt_trans (Sys.wideBoot_range hx)
    (by norm_num)
  room := by
    have hpool := poolVaStart_eq
    have htop : (MmapState.init Sys.wideBoot).alignTop.mmapTop = 0x1000000000 := by decide +kernel
    omega

theorem MmapState.allocMegaPage_iff_first :
    MegaEnv (init Sys.wideBoot) 1 [⟨0, 0x90000000⟩] [] []
        [.grant 0x90000000 1, .map 0x1000000000 0x90000000] ∧
      ∃ mem st' rs', (init Sys.wideBoot).allocMegaPage 1 [⟨0, 0x90000000⟩] = .ok (mem, st', rs') ∧
        MegaOk (init Sys.wideBoot) st' 1 mem :=
  ⟨MegaEnv.boot, (allocMegaPage_iff MegaEnv.boot (le_refl 1) fun hp => by
    have hok : ((init Sys.wideBoot).allocMegaPage 1 [⟨0, 0x90000000⟩]).toOption.isSome = true := by
      decide +kernel
    rw [hp] at hok
    cases hok).mpr rfl⟩

theorem Sys.memset_fault {s : Sys} (b : UInt8) (h : s.storePa va = none) (hlt : va < 2 ^ 64)
    (n : ℕ) : s.memset va b (n + 1) = .error (.fault va) := by
  induction n with
  | zero =>
    have h0 : add64 va 0 = va := add64_eq (by omega)
    rw [memset, memset, Res.ok_bind, storeByte, h0, h]
  | succ n ih =>
    rw [memset, ih]
    rfl

/-- A region of one partition is returned and asked for again: the fill of the recycled partition
faults at its first byte. -/
theorem MmapState.megapage_again_faults : ∃ (st : MmapState) (rs : List SmReply),
    (init Sys.smallBoot).run [⟨0, 0x90000000⟩]
      [.mmap 0 0x200000 3 0x22 (2 ^ 32 - 1) 0, .munmap 0x1000000000 0x200000] = .ok (st, rs) ∧
    st.freeMega = [0x1000000000] ∧ st.allocMegaPage 1 rs = .error (.fault 0x1000200000) := by
  have hval : (do
      let r ← (init Sys.smallBoot).run [⟨0, 0x90000000⟩]
        [.mmap 0 0x200000 3 0x22 (2 ^ 32 - 1) 0, .munmap 0x1000000000 0x200000]
      let s ← r.1.sys.mapPage 0x1000200000 (r.1.sys.getPa 0x1000000000).2 0 .mega
      .ok (r.1.freeMega, r.1.mmapTop, s.storePa 0x1000200000) : Res _) =
      .ok ([0x1000000000], 0x1000200000, none) := Res.eq_ok_of_toOption (by decide +kernel)
  obtain ⟨⟨st, rs⟩, hrun, hres⟩ := Res.bind_ok hval
  obtain ⟨s, hmap, hres⟩ := Res.bind_ok hres
  simp only [Except.ok.injEq, Prod.mk.injEq] at hres
  obtain ⟨hfree, htop, hstore⟩ := hres
  refine ⟨st, rs, hrun, hfree, ?_⟩
  have hup : partitionUp 0x1000200000 = 0x1000200000 := by decide
  rw [allocMegaPage, hfree, megaLoop, alignTop_mmapTop, (alignTop_rest st).1, htop, hup, hmap,
    Res.ok_bind, Sys.memset_fault 0 hstore (by norm_num) 0x1fffff]
  rfl

end Coffer
