/-
# The program break

`sys_brk_handler` of `memory/memory.c`. The break starts at
`EUSR_HEAP_START_ALIGNED` less what the U-mode pool has left, so that the pages
of the pool fill the room up to that address, and partitions serve the rest. The
pool never takes a page back: a break that shrinks and grows again uses new
pages for the same addresses, the pool runs out below
`EUSR_HEAP_START_ALIGNED`, and the pages it cannot supply are skipped.

`brk_covered_iff` says when a run of calls keeps the break covered: exactly when
at every growing call the pages that the pool can no longer supply are mapped
already. `brk_hole` is a run where they are not.
-/
import Coffer.Partition

namespace Coffer

open Lib

namespace Sys

def setProgBrk (s : Sys) (newBrk : ℕ) : Sys := { s with progBrk := newBrk }

def initProgBrk (s : Sys) : Sys :=
  s.setProgBrk (sub64 eusrHeapStartAligned s.getUmodePagePoolAvailSize)

def mapBrkFromPool (s : Sys) (alignedOldBrk size : ℕ) : Res Sys := do
  let numberOfPages := size / 0x1000
  let (paddr, s) ← s.allocUmodePage numberOfPages
  s.mapRange alignedOldBrk paddr (pteU + pteW + pteR) .page numberOfPages

def allocMapBrkOutsidePool (s : Sys) (partitionAlignedOldBrk size : ℕ) (rs : List SmReply) :
    Res (Sys × List SmReply) :=
  if size % 0x200000 ≠ 0 then .error (.panic "size is not aligned\n")
  else do
    let (evs, rest) := brkPartitions partitionAlignedOldBrk size rs
    let s ← s.execCalls (pteU + pteW + pteR) evs
    match rest with
    | none => .error .noReply
    | some rest => .ok (s, rest)

/-- The pool's part of a growing break: what the pool has is mapped, and the
address the partitions go on from is returned. -/
def growFromPool (s : Sys) (alignedOldBrk alignedNewBrk : ℕ) : Res (ℕ × Sys) :=
  let remainedUmodePoolSize := s.getUmodePagePoolAvailSize
  let requiredSize := sub64 alignedNewBrk alignedOldBrk
  if 0 < remainedUmodePoolSize then
    if requiredSize ≤ remainedUmodePoolSize then do
      let s ← s.mapBrkFromPool alignedOldBrk requiredSize
      .ok (alignedOldBrk, s)
    else do
      let s ← s.mapBrkFromPool alignedOldBrk remainedUmodePoolSize
      .ok (add64 alignedOldBrk remainedUmodePoolSize, s)
  else .ok (alignedOldBrk, s)

/-- The branch `aligned_new_brk > aligned_old_brk` of `sys_brk_handler`. -/
def growBrk (s : Sys) (alignedOldBrk alignedNewBrk : ℕ) (rs : List SmReply) :
    Res (Sys × List SmReply) := do
  let (alignedOldBrk, s) ← s.growFromPool alignedOldBrk alignedNewBrk
  let partitionAlignedNewBrk := partitionUp alignedNewBrk
  let partitionAlignedOldBrk := partitionUp alignedOldBrk
  if partitionAlignedOldBrk < partitionAlignedNewBrk then
    s.allocMapBrkOutsidePool partitionAlignedOldBrk
      (sub64 partitionAlignedNewBrk partitionAlignedOldBrk) rs
  else .ok (s, rs)

/-- The memory for a new break: nothing to do unless it grows. -/
def updateBrk (s : Sys) (alignedOldBrk alignedNewBrk : ℕ) (rs : List SmReply) :
    Res (Sys × List SmReply) :=
  if alignedOldBrk < alignedNewBrk then s.growBrk alignedOldBrk alignedNewBrk rs else .ok (s, rs)

/-- `sys_brk_handler`: the value returned, the state and the monitor's answers
that are left. -/
def sysBrkHandler (s : Sys) (newBrk : ℕ) (rs : List SmReply) : Res (ℕ × Sys × List SmReply) :=
  if newBrk = 0 then .ok (s.progBrk, s, rs)
  else do
    let (s, rs) ← s.updateBrk (pageUp s.progBrk) (pageUp newBrk) rs
    .ok (newBrk, s.setProgBrk newBrk, rs)

/-- `x` is mapped for the user to read and write. -/
def MappedURW (s : Sys) (x : ℕ) : Prop :=
  ∃ level pte, s.leaf x = some (level, pte) ∧ pte.u = true ∧ pte.r = true ∧ pte.w = true

theorem setProgBrk_progBrk (s : Sys) (b : ℕ) : (s.setProgBrk b).progBrk = b := rfl
theorem setProgBrk_leaf (s : Sys) (b x : ℕ) : (s.setProgBrk b).leaf x = s.leaf x := rfl
theorem setProgBrk_umodePool (s : Sys) (b : ℕ) : (s.setProgBrk b).umodePool = s.umodePool := rfl

theorem setProgBrk_avail (s : Sys) (b : ℕ) :
    (s.setProgBrk b).getUmodePagePoolAvailSize = s.getUmodePagePoolAvailSize := rfl

theorem setProgBrk_mapped (s : Sys) (b x : ℕ) : (s.setProgBrk b).MappedURW x ↔ s.MappedURW x := by
  simp only [MappedURW, setProgBrk_leaf]

end Sys

/-! ### Runs of calls -/

/-- A call: its argument, and the answers the monitor gives during it. -/
structure BrkCall where
  newBrk : ℕ
  replies : List SmReply

/-- The monitor grants every request of the call in full. -/
def BrkCall.Granted (c : BrkCall) : Prop := FirstGranted c.replies

/-- What a call must do: every address from `b0` to the new break is mapped, and
no address below both breaks is translated differently. -/
def BrkCall.Good (b0 : ℕ) (c : BrkCall) (s s' : Sys) : Prop :=
  c.newBrk ≠ 0 → (∀ x, b0 ≤ x → x < c.newBrk → s'.MappedURW x) ∧
    ∀ x, x < s.progBrk → x < c.newBrk → s'.leaf x = s.leaf x

/-- What a growing call needs: below `EUSR_HEAP_START_ALIGNED`, the addresses past
what the pool can still supply are mapped already. -/
def BrkCall.Supplied (c : BrkCall) (s : Sys) : Prop :=
  pageUp s.progBrk < pageUp c.newBrk →
    ∀ x, pageUp s.progBrk + s.getUmodePagePoolAvailSize ≤ x → x < pageUp c.newBrk →
      x < eusrHeapStartAligned → s.MappedURW x

/-- Every call of the run that returns does what it must. -/
def BrkGood (b0 : ℕ) (s : Sys) : List BrkCall → Prop
  | [] => True
  | c :: cs => ∀ v s' rest, s.sysBrkHandler c.newBrk c.replies = .ok (v, s', rest) →
    c.Good b0 s s' ∧ BrkGood b0 s' cs

/-- Every call of the run that returns has what it needs. -/
def BrkSupplied (s : Sys) : List BrkCall → Prop
  | [] => True
  | c :: cs => ∀ v s' rest, s.sysBrkHandler c.newBrk c.replies = .ok (v, s', rest) →
    c.Supplied s ∧ BrkSupplied s' cs

/-- What a run of calls keeps. `b0` is the first break. -/
structure BrkInv (b0 : ℕ) (s : Sys) : Prop where
  inv : PtInv s
  b0_page : b0 % 0x1000 = 0
  b0_slot : eusrHeapStartAligned - 0x200000 < b0
  b0_le : b0 ≤ s.progBrk
  brk_le : s.progBrk ≤ 2 ^ 38
  pool_size : s.umodePool.size < 0x200000
  pool_page : s.umodePool.size % 0x1000 = 0
  pool_used : 0x1000 * s.umodePool.usedPageCount ≤ s.umodePool.size
  pool_room : s.getUmodePagePoolAvailSize = 0 ∨
    pageUp s.progBrk + s.getUmodePagePoolAvailSize ≤ eusrHeapStartAligned
  covered : ∀ x, b0 ≤ x → x < pageUp s.progBrk → s.MappedURW x
  covered_above : eusrHeapStartAligned < pageUp s.progBrk → ∀ x, b0 ≤ x →
    x < partitionUp (pageUp s.progBrk) → s.MappedURW x
  no_giga : ∀ x < 2 ^ 38, ∀ pte, s.leaf x ≠ some (.giga, pte)
  no_mega : ∀ x, eusrHeapStartAligned - 0x200000 ≤ x → x < eusrHeapStartAligned →
    ∀ pte, s.leaf x ≠ some (.mega, pte)

/-! ### One call -/

/-- `x` has a leaf of `level` for the user to read and write, to the page of `pa`. -/
def Sys.HeapLeaf (s : Sys) (x : ℕ) (level : Level) (pa : ℕ) : Prop :=
  ∃ pte, s.leaf x = some (level, pte) ∧ pte.ppn = BitVec.ofNat 44 (pa / 0x1000) ∧ pte.u = true ∧
    pte.r = true ∧ pte.w = true

theorem Sys.HeapLeaf.mapped {s : Sys} {x pa : ℕ} {level : Level} (h : s.HeapLeaf x level pa) :
    s.MappedURW x := by
  obtain ⟨pte, h1, -, h2⟩ := h
  exact ⟨level, pte, h1, h2⟩

theorem Sys.HeapLeaf.of_leaf {s s' : Sys} {x pa : ℕ} {level : Level} (h : s.HeapLeaf x level pa)
    (hl : s'.leaf x = s.leaf x) : s'.HeapLeaf x level pa := by
  obtain ⟨pte, h1, h2⟩ := h
  exact ⟨pte, hl.trans h1, h2⟩

theorem Sys.HeapLeaf.of_newLeaf {s s' : Sys} {x pa : ℕ} {level : Level}
    (h : s'.leaf x = s.newLeaf x pa (pteU + pteW + pteR) level) : s'.HeapLeaf x level pa := by
  refine ⟨_, h, rfl, ?_, ?_, ?_⟩ <;> simp [Pte.map, pteU, pteW, pteR, Nat.testBit]

theorem hasPerm_urw : HasPerm (pteU + pteW + pteR) := Or.inl (by decide)

theorem Sys.mapBrkFromPool_spec {s s' : Sys} {va size : ℕ} (h : PtInv s) (hal : va % 0x1000 = 0)
    (hsz : size % 0x1000 = 0) (hlt : va + size ≤ 2 ^ 38)
    (hn : ∀ x, va ≤ x → x < va + size → ∀ l pte, s.leaf x = some (l, pte) → l = .page)
    (hr : s.mapBrkFromPool va size = .ok s') :
    PtInv s' ∧ s'.progBrk = s.progBrk ∧
      s'.umodePool = { s.umodePool with
        usedPageCount := add64 s.umodePool.usedPageCount (size / 0x1000) } ∧
      ∀ x < 2 ^ 38, if va ≤ x ∧ x < va + size then
          s'.HeapLeaf x .page (add64 (s.getPoolTop .umode) (0x1000 * ((x - va) / 0x1000)))
        else s'.leaf x = s.leaf x := by
  unfold Sys.mapBrkFromPool at hr
  obtain ⟨⟨paddr, s1⟩, ha, hr⟩ := Res.bind_ok hr
  obtain ⟨-, hpa, hs1⟩ := Sys.allocPage_ok ha
  have hleaf : ∀ x, s1.leaf x = s.leaf x := by
    subst hs1
    intro x
    rfl
  have h1 : PtInv s1 := by
    subst hs1
    exact h.of_eq rfl rfl rfl rfl
  have hsize : Level.page.size * (size / 0x1000) = size := by
    simp only [Level.size]
    omega
  obtain ⟨h2, h3, h4⟩ := Sys.mapRange_spec h1 hal hasPerm_urw (by rw [hsize]; omega) (fun i hi => by
    intro l pte hl
    rw [hleaf] at hl
    simp only [Level.size] at hl
    rw [hn _ (by omega) (by omega) l pte hl]) hr
  rw [hsize] at h4
  refine ⟨h2, ?_, ?_, fun x hx => ?_⟩
  · rw [h3.rest, hs1]
    rfl
  · rw [h3.rest, hs1]
    rfl
  · have hmod : x % 2 ^ 39 = x := Nat.mod_eq_of_lt (by omega)
    have hx4 := h4 x
    rw [hmod] at hx4
    split
    · rename_i hin
      rw [if_pos hin, hpa] at hx4
      exact Sys.HeapLeaf.of_newLeaf hx4
    · rename_i hin
      rw [if_neg hin] at hx4
      exact hx4.trans (hleaf x)

/-- The address the monitor's first answer gives. -/
def firstPaddr : List SmReply → ℕ
  | [] => 0
  | r :: _ => r.paddr

/-- `alloc_map_brk_outside_pool`, its request granted, maps `size` bytes from
`va`. -/
theorem Sys.allocMapBrkOutsidePool_spec {s s' : Sys} {va size : ℕ} {rs rest : List SmReply}
    (h : PtInv s) (hal : va % 0x200000 = 0) (hsz : 0 < size) (hlt : va + size ≤ 2 ^ 38)
    (hn : ∀ x < 2 ^ 38, ∀ pte, s.leaf x ≠ some (.giga, pte)) (hg : FirstGranted rs)
    (hr : s.allocMapBrkOutsidePool va size rs = .ok (s', rest)) :
    PtInv s' ∧ s'.progBrk = s.progBrk ∧ s'.umodePool = s.umodePool ∧
      ∀ x < 2 ^ 38, if va ≤ x ∧ x < va + size then
          s'.HeapLeaf x .mega (add64 (firstPaddr rs) (0x200000 * ((x - va) / 0x200000)))
        else s'.leaf x = s.leaf x := by
  cases rs with
  | nil => exact hg.elim
  | cons r rs =>
    unfold Sys.allocMapBrkOutsidePool at hr
    by_cases hm : size % 0x200000 ≠ 0
    · rw [if_pos hm] at hr
      cases hr
    · rw [if_neg hm] at hr
      have hpart : brkPartitions va size (r :: rs) = (.grant r.paddr (size / 0x200000) ::
          mapCalls va r.paddr (size / 0x200000), some rs) :=
        partitionLoop_full (by omega) (by omega) hg
      simp only [hpart, Sys.execCalls, Sys.execCalls_mapCalls] at hr
      obtain ⟨s1, hr1, hr2⟩ := Res.bind_ok hr
      obtain ⟨rfl, -⟩ := Res.ok_pair hr2
      have hsize : Level.mega.size * (size / 0x200000) = size := by
        simp only [Level.size]
        omega
      obtain ⟨h2, h3, h4⟩ := Sys.mapRange_spec h hal hasPerm_urw (by rw [hsize]; omega)
        (fun i hi => by
          intro l pte hl
          simp only [Level.size] at hl
          cases l with
          | giga => exact absurd hl (hn _ (by omega) pte)
          | mega => exact le_refl _
          | page => decide) hr1
      rw [hsize] at h4
      refine ⟨h2, by rw [h3.rest], by rw [h3.rest], fun x hx => ?_⟩
      have hmod : x % 2 ^ 39 = x := Nat.mod_eq_of_lt (by omega)
      have hx4 := h4 x
      rw [hmod] at hx4
      split
      · rename_i hin
        rw [if_pos hin] at hx4
        exact Sys.HeapLeaf.of_newLeaf hx4
      · rename_i hin
        rwa [if_neg hin] at hx4

namespace BrkInv

variable {b0 : ℕ} {s : Sys}

theorem avail (h : BrkInv b0 s) :
    s.getUmodePagePoolAvailSize = s.umodePool.size - 0x1000 * s.umodePool.usedPageCount := by
  have h1 := h.pool_used
  have h2 := h.pool_size
  rw [Sys.getUmodePagePoolAvailSize, mul64_eq (by omega), sub64_eq (by omega) (by omega)]

theorem pageUp_brk (h : BrkInv b0 s) :
    pageUp s.progBrk = (s.progBrk + 0xfff) / 0x1000 * 0x1000 ∧ pageUp s.progBrk ≤ 2 ^ 38 := by
  have h1 := h.brk_le
  have h2 := pageUp_eq (a := s.progBrk) (by omega)
  exact ⟨h2, by omega⟩

theorem growFromPool (h : BrkInv b0 s) {n a : ℕ} {s' : Sys} (ho : pageUp s.progBrk < n)
    (hn : n % 0x1000 = 0) (hn' : n ≤ 2 ^ 38)
    (hr : s.growFromPool (pageUp s.progBrk) n = .ok (a, s')) {m : ℕ}
    (hm : m = min (n - pageUp s.progBrk) s.getUmodePagePoolAvailSize) :
    PtInv s' ∧ s'.progBrk = s.progBrk ∧ s'.umodePool = { s.umodePool with
        usedPageCount := s.umodePool.usedPageCount + m / 0x1000 } ∧
      partitionUp a = partitionUp (pageUp s.progBrk + m) ∧
      ∀ x < 2 ^ 38, if pageUp s.progBrk ≤ x ∧ x < pageUp s.progBrk + m then
          s'.HeapLeaf x .page
            (add64 (s.getPoolTop .umode) (0x1000 * ((x - pageUp s.progBrk) / 0x1000)))
        else s'.leaf x = s.leaf x := by
  obtain ⟨hp1, hp2⟩ := h.pageUp_brk
  have hav := h.avail
  have hroom := h.pool_room
  have hb := h.b0_le
  have hslot := h.b0_slot
  have hps := h.pool_size
  have hpp := h.pool_page
  have hpu := h.pool_used
  generalize pageUp s.progBrk = o at *
  generalize hR : s.getUmodePagePoolAvailSize = R at *
  unfold eusrHeapStartAligned at hroom hslot
  -- the pages of the pool lie in the slot below `EUSR_HEAP_START_ALIGNED`
  have hpage : ∀ x, o ≤ x → x < o + m → ∀ l pte, s.leaf x = some (l, pte) → l = .page := by
    intro x hx hx' l pte hl
    cases l with
    | giga => exact absurd hl (h.no_giga x (by omega) pte)
    | mega => exact absurd hl (h.no_mega x (by unfold eusrHeapStartAligned; omega)
        (by unfold eusrHeapStartAligned; omega) pte)
    | page => rfl
  have hreq : sub64 n o = n - o := sub64_eq (by omega) (by omega)
  have hused : ∀ k, k ≤ R → add64 s.umodePool.usedPageCount (k / 0x1000) =
      s.umodePool.usedPageCount + k / 0x1000 := fun k hk => add64_eq (by omega)
  simp only [Sys.growFromPool, hR, hreq] at hr
  by_cases h0 : 0 < R
  · rw [if_pos h0] at hr
    by_cases h1 : n - o ≤ R
    · rw [if_pos h1] at hr
      obtain ⟨s1, hr1, hr2⟩ := Res.bind_ok hr
      obtain ⟨rfl, rfl⟩ := Res.ok_pair hr2
      obtain rfl : m = n - o := by omega
      obtain ⟨h2, h3, h4, h5⟩ := Sys.mapBrkFromPool_spec h.inv (by omega) (by omega) (by omega) hpage hr1
      rw [hused _ h1] at h4
      refine ⟨h2, h3, h4, ?_, h5⟩
      rw [partitionUp_eq (by omega), partitionUp_eq (by omega)]
      omega
    · rw [if_neg h1] at hr
      obtain ⟨s1, hr1, hr2⟩ := Res.bind_ok hr
      obtain ⟨rfl, rfl⟩ := Res.ok_pair hr2
      obtain rfl : m = R := by omega
      obtain ⟨h2, h3, h4, h5⟩ := Sys.mapBrkFromPool_spec h.inv (by omega) (by omega) (by omega) hpage hr1
      rw [hused _ (le_refl _)] at h4
      refine ⟨h2, h3, h4, ?_, h5⟩
      rw [add64_eq (by omega)]
  · rw [if_neg h0] at hr
    obtain ⟨rfl, rfl⟩ := Res.ok_pair hr
    obtain rfl : m = 0 := by omega
    refine ⟨h.inv, rfl, by simp, by simp, fun x hx => ?_⟩
    rw [if_neg (by omega)]

/-- A growing call: the pool's pages, then partitions. -/
theorem growBrk (h : BrkInv b0 s) {n : ℕ} {s' : Sys} {rs rest : List SmReply}
    (ho : pageUp s.progBrk < n) (hn : n % 0x1000 = 0) (hn' : n ≤ 2 ^ 38) (hg : FirstGranted rs)
    (hr : s.growBrk (pageUp s.progBrk) n rs = .ok (s', rest)) {m : ℕ}
    (hm : m = min (n - pageUp s.progBrk) s.getUmodePagePoolAvailSize) :
    PtInv s' ∧ s'.progBrk = s.progBrk ∧ s'.umodePool = { s.umodePool with
        usedPageCount := s.umodePool.usedPageCount + m / 0x1000 } ∧
      ∀ x < 2 ^ 38,
        if partitionUp (pageUp s.progBrk + m) ≤ x ∧ x < partitionUp n then
          s'.HeapLeaf x .mega (add64 (firstPaddr rs)
            (0x200000 * ((x - partitionUp (pageUp s.progBrk + m)) / 0x200000)))
        else if pageUp s.progBrk ≤ x ∧ x < pageUp s.progBrk + m then
          s'.HeapLeaf x .page
            (add64 (s.getPoolTop .umode) (0x1000 * ((x - pageUp s.progBrk) / 0x1000)))
        else s'.leaf x = s.leaf x := by
  unfold Sys.growBrk at hr
  obtain ⟨⟨a, s1⟩, hr1, hr2⟩ := Res.bind_ok hr
  obtain ⟨h1, h2, h3, h4, h5⟩ := h.growFromPool ho hn hn' hr1 hm
  obtain ⟨hp1, hp2⟩ := h.pageUp_brk
  have hmle : m ≤ n - pageUp s.progBrk := by omega
  have hnew := partitionUp_eq (a := n) (by omega)
  have hold := partitionUp_eq (a := pageUp s.progBrk + m) (by omega)
  simp only [h4] at hr2
  by_cases hlt : partitionUp (pageUp s.progBrk + m) < partitionUp n
  · rw [if_pos hlt, sub64_eq (by omega) (by omega)] at hr2
    have hgiga : ∀ x < 2 ^ 38, ∀ pte, s1.leaf x ≠ some (.giga, pte) := by
      intro x hx pte hl
      have h5x := h5 x hx
      split at h5x
      · obtain ⟨pte', h6, -⟩ := h5x
        rw [hl] at h6
        cases h6
      · rw [h5x] at hl
        exact h.no_giga x hx pte hl
    obtain ⟨h6, h7, h8, h9⟩ := Sys.allocMapBrkOutsidePool_spec h1 (by omega) (by omega) (by omega)
      hgiga hg hr2
    refine ⟨h6, h7.trans h2, h8.trans h3, fun x hx => ?_⟩
    have h9x := h9 x hx
    by_cases hin : partitionUp (pageUp s.progBrk + m) ≤ x ∧ x < partitionUp n
    · rw [if_pos hin]
      rwa [if_pos (by omega)] at h9x
    · rw [if_neg hin]
      rw [if_neg (by omega)] at h9x
      have h5x := h5 x hx
      split
      · rename_i hpool
        rw [if_pos hpool] at h5x
        exact h5x.of_leaf h9x
      · rename_i hpool
        rw [if_neg hpool] at h5x
        exact h9x.trans h5x
  · rw [if_neg hlt] at hr2
    obtain ⟨rfl, -⟩ := Res.ok_pair hr2
    refine ⟨h1, h2, h3, fun x hx => ?_⟩
    rw [if_neg (by omega)]
    exact h5 x hx

/-- The pool's pages end at or below `EUSR_HEAP_START_ALIGNED`, or the break is
above it and the pool is empty. -/
theorem pool_gap (h : BrkInv b0 s) {n m : ℕ} (ho : pageUp s.progBrk < n) (hn' : n ≤ 2 ^ 38)
    (hm : m = min (n - pageUp s.progBrk) s.getUmodePagePoolAvailSize) :
    ((pageUp s.progBrk + m ≤ eusrHeapStartAligned ∧
        (m = s.getUmodePagePoolAvailSize ∨ pageUp s.progBrk + m = n)) ∨
      (m = 0 ∧ eusrHeapStartAligned < pageUp s.progBrk)) ∧
    (pageUp s.progBrk + m ≤ eusrHeapStartAligned →
      partitionUp (pageUp s.progBrk + m) = eusrHeapStartAligned) := by
  have hroom := h.pool_room
  have hslot := h.b0_slot
  have hb := h.b0_le
  obtain ⟨h1, h2, -⟩ := pageUp_spec (a := s.progBrk) (by have := h.brk_le; omega)
  generalize pageUp s.progBrk = o at *
  obtain ⟨h3, h4, h5⟩ := partitionUp_spec (a := o + m) (by omega)
  unfold eusrHeapStartAligned at *
  constructor
  · clear h3 h4 h5
    omega
  · intro hle
    omega

/-- Where a growing call leaves a gap: nowhere, or past the pool's pages and
below `EUSR_HEAP_START_ALIGNED`, where nothing changed. -/
theorem growBrk_mapped (h : BrkInv b0 s) {n : ℕ} {s' : Sys} {rs rest : List SmReply}
    (ho : pageUp s.progBrk < n) (hn : n % 0x1000 = 0) (hn' : n ≤ 2 ^ 38) (hg : FirstGranted rs)
    (hr : s.growBrk (pageUp s.progBrk) n rs = .ok (s', rest)) {x : ℕ} (hx : b0 ≤ x)
    (hx' : x < n ∨ (eusrHeapStartAligned < n ∧ x < partitionUp n)) :
    s'.MappedURW x ∨ (pageUp s.progBrk + s.getUmodePagePoolAvailSize ≤ x ∧ x < n ∧
      x < eusrHeapStartAligned ∧ s'.leaf x = s.leaf x) := by
  obtain ⟨m, hm⟩ : ∃ m, m = min (n - pageUp s.progBrk) s.getUmodePagePoolAvailSize := ⟨_, rfl⟩
  obtain ⟨-, -, -, hleaf⟩ := h.growBrk ho hn hn' hg hr hm
  obtain ⟨hgap, hold⟩ := h.pool_gap ho hn' hm
  obtain ⟨hn1, hn2, hn3⟩ := partitionUp_spec (a := n) (by omega)
  have hxlt : x < 2 ^ 38 := by
    rcases hx' with hx' | ⟨-, hx'⟩ <;> omega
  have hlx := hleaf x hxlt
  by_cases h1 : partitionUp (pageUp s.progBrk + m) ≤ x ∧ x < partitionUp n
  · rw [if_pos h1] at hlx
    exact Or.inl hlx.mapped
  rw [if_neg h1] at hlx
  by_cases h2 : pageUp s.progBrk ≤ x ∧ x < pageUp s.progBrk + m
  · rw [if_pos h2] at hlx
    exact Or.inl hlx.mapped
  rw [if_neg h2] at hlx
  have hsame : s.MappedURW x → s'.MappedURW x := by
    rintro ⟨l, pte, h3⟩
    exact ⟨l, pte, by rw [hlx]; exact h3⟩
  by_cases h3 : x < pageUp s.progBrk
  · exact Or.inl (hsame (h.covered x hx h3))
  rcases hgap with ⟨hg1, hg2⟩ | ⟨hg1, hg2⟩
  · -- the pool's pages end below `EUSR_HEAP_START_ALIGNED`
    rw [hold hg1] at h1
    right
    refine ⟨?_, ?_, ?_, hlx⟩ <;> omega
  · -- above it the pool is empty and the last partition is mapped to its end
    subst hg1
    rw [Nat.add_zero] at h1
    exact Or.inl (hsame (h.covered_above hg2 x hx (by omega)))

end BrkInv

/-- Where the pool has no page and partitions do not begin, nothing changes. -/
theorem BrkInv.growBrk_gap {b0 : ℕ} {s : Sys} (h : BrkInv b0 s) {n : ℕ} {s' : Sys}
    {rs rest : List SmReply} (ho : pageUp s.progBrk < n) (hn : n % 0x1000 = 0) (hn' : n ≤ 2 ^ 38)
    (hg : FirstGranted rs) (hr : s.growBrk (pageUp s.progBrk) n rs = .ok (s', rest)) {x : ℕ}
    (hx : pageUp s.progBrk + s.getUmodePagePoolAvailSize ≤ x) (hx' : x < eusrHeapStartAligned) :
    s'.leaf x = s.leaf x := by
  obtain ⟨m, hm⟩ : ∃ m, m = min (n - pageUp s.progBrk) s.getUmodePagePoolAvailSize := ⟨_, rfl⟩
  obtain ⟨-, -, -, hleaf⟩ := h.growBrk ho hn hn' hg hr hm
  obtain ⟨hgap, hold⟩ := h.pool_gap ho hn' hm
  have hlt : x < 2 ^ 38 := by
    unfold eusrHeapStartAligned at hx'
    omega
  have hm' : m ≤ s.getUmodePagePoolAvailSize := by omega
  rcases hgap with ⟨hg1, -⟩ | ⟨-, hg2⟩
  · have hlx := hleaf x hlt
    rwa [hold hg1, if_neg (by omega), if_neg (by omega)] at hlx
  · omega

/-- A growing call keeps what does not depend on the break, and changes nothing
below the old one. -/
theorem BrkInv.growBrk_inv {b0 : ℕ} {s : Sys} (h : BrkInv b0 s) {n : ℕ} {s' : Sys}
    {rs rest : List SmReply} (ho : pageUp s.progBrk < n) (hn : n % 0x1000 = 0) (hn' : n ≤ 2 ^ 38)
    (hg : FirstGranted rs) (hr : s.growBrk (pageUp s.progBrk) n rs = .ok (s', rest)) :
    BrkInv b0 s' ∧ (∀ x < pageUp s.progBrk, s'.leaf x = s.leaf x) ∧
      (s'.getUmodePagePoolAvailSize = 0 ∨ n + s'.getUmodePagePoolAvailSize ≤ eusrHeapStartAligned) := by
  obtain ⟨m, hm⟩ : ∃ m, m = min (n - pageUp s.progBrk) s.getUmodePagePoolAvailSize := ⟨_, rfl⟩
  obtain ⟨h1, h2, h3, hleaf⟩ := h.growBrk ho hn hn' hg hr hm
  obtain ⟨hgap, hold⟩ := h.pool_gap ho hn' hm
  obtain ⟨ho1, ho2, ho3⟩ := pageUp_spec (a := s.progBrk) (by have := h.brk_le; omega)
  have hup : pageUp s.progBrk + m ≤ partitionUp (pageUp s.progBrk + m) :=
    (partitionUp_spec (by omega)).1
  have hslot : ∀ x, partitionUp (pageUp s.progBrk + m) ≤ x → eusrHeapStartAligned ≤ x := by
    intro x hx
    rcases hgap with ⟨hg1, -⟩ | ⟨-, hg2⟩
    · rwa [hold hg1] at hx
    · omega
  have hkeep : ∀ x < 2 ^ 38, s.MappedURW x → s'.MappedURW x := by
    rintro x hx ⟨l, pte, hp⟩
    have hlx := hleaf x hx
    split at hlx
    · exact hlx.mapped
    · split at hlx
      · exact hlx.mapped
      · exact ⟨l, pte, by rw [hlx]; exact hp⟩
  have hav := h.avail
  have hps := h.pool_size
  have hpp := h.pool_page
  have hpu := h.pool_used
  have hroom := h.pool_room
  have hav' : s'.getUmodePagePoolAvailSize = s.getUmodePagePoolAvailSize - m := by
    rw [Sys.getUmodePagePoolAvailSize, h3, mul64_eq (by simp only; omega),
      sub64_eq (by simp only; omega) (by simp only; omega)]
    simp only
    omega
  have hup' : partitionUp (pageUp s.progBrk) ≤ 2 ^ 38 := by
    have := partitionUp_spec (a := pageUp s.progBrk) (by omega)
    have := h.brk_le
    omega
  refine ⟨⟨h1, h.b0_page, h.b0_slot, by rw [h2]; exact h.b0_le, by rw [h2]; exact h.brk_le, ?_, ?_,
    ?_, ?_, ?_, ?_, ?_, ?_⟩, ?_, ?_⟩
  · rw [h3]
    exact hps
  · rw [h3]
    exact hpp
  · rw [h3]
    simp only
    omega
  · rw [h2, hav']
    omega
  · rw [h2]
    exact fun x hx hx' => hkeep x (by omega) (h.covered x hx hx')
  · rw [h2]
    exact fun ha x hx hx' => hkeep x (by omega) (h.covered_above ha x hx hx')
  · intro x hx pte hl
    have hlx := hleaf x hx
    split at hlx
    · obtain ⟨pte', h4, -⟩ := hlx
      rw [hl] at h4
      cases h4
    · split at hlx
      · obtain ⟨pte', h4, -⟩ := hlx
        rw [hl] at h4
        cases h4
      · rw [hlx] at hl
        exact h.no_giga x hx pte hl
  · intro x hx hx' pte hl
    have hlx := hleaf x (by unfold eusrHeapStartAligned at hx'; omega)
    split at hlx
    · rename_i hc
      have := hslot x hc.1
      omega
    · split at hlx
      · obtain ⟨pte', h4, -⟩ := hlx
        rw [hl] at h4
        cases h4
      · rw [hlx] at hl
        exact h.no_mega x hx hx' pte hl
  · intro x hx
    have hlx := hleaf x (by omega)
    rwa [if_neg (by omega), if_neg (by omega)] at hlx
  · rw [hav']
    omega

theorem Sys.MappedURW.page {s : Sys} {x y : ℕ} (h : s.MappedURW x) (hxy : x / 0x1000 = y / 0x1000) :
    s.MappedURW y := by
  obtain ⟨l, pte, h1, h2⟩ := h
  refine ⟨l, pte, Sys.leaf_congr h1 ?_, h2⟩
  cases l <;> simp only [SamePage, Level.size] <;> omega

theorem pageUp_zero : pageUp 0 = 0 := by decide

theorem BrkInv.setProgBrk {b0 b : ℕ} {s : Sys} (h : BrkInv b0 s) (hb : b0 ≤ b) (hb' : b ≤ 2 ^ 38)
    (hroom : s.getUmodePagePoolAvailSize = 0 ∨
      pageUp b + s.getUmodePagePoolAvailSize ≤ eusrHeapStartAligned)
    (hcov : ∀ x, b0 ≤ x → x < pageUp b → s.MappedURW x)
    (habove : eusrHeapStartAligned < pageUp b → ∀ x, b0 ≤ x → x < partitionUp (pageUp b) →
      s.MappedURW x) : BrkInv b0 (s.setProgBrk b) := by
  refine ⟨h.inv.of_eq rfl rfl rfl rfl, h.b0_page, h.b0_slot, hb, hb', h.pool_size, h.pool_page,
    h.pool_used, ?_, ?_, ?_, ?_, ?_⟩
  · rw [Sys.setProgBrk_progBrk, Sys.setProgBrk_avail]
    exact hroom
  · simpa only [Sys.setProgBrk_progBrk, Sys.setProgBrk_mapped] using hcov
  · simpa only [Sys.setProgBrk_progBrk, Sys.setProgBrk_mapped] using habove
  · simpa only [Sys.setProgBrk_leaf] using h.no_giga
  · simpa only [Sys.setProgBrk_leaf] using h.no_mega

/-- **One call.** It does what it must exactly if it has what it needs, and then
the invariant holds again. -/
theorem BrkInv.call {b0 : ℕ} {s : Sys} (h : BrkInv b0 s) {c : BrkCall}
    (hb : c.newBrk = 0 ∨ (b0 ≤ c.newBrk ∧ c.newBrk ≤ 2 ^ 38)) (hg : c.Granted) {v : ℕ} {s' : Sys}
    {rest : List SmReply} (hr : s.sysBrkHandler c.newBrk c.replies = .ok (v, s', rest)) :
    (c.Good b0 s s' ↔ c.Supplied s) ∧ (c.Supplied s → BrkInv b0 s') := by
  unfold Sys.sysBrkHandler at hr
  by_cases h0 : c.newBrk = 0
  · rw [if_pos h0] at hr
    simp only [Except.ok.injEq, Prod.mk.injEq] at hr
    obtain ⟨-, rfl, -⟩ := hr
    refine ⟨⟨fun _ hlt => ?_, fun _ hne => absurd h0 hne⟩, fun _ => h⟩
    rw [h0, pageUp_zero] at hlt
    exact absurd hlt (Nat.not_lt_zero _)
  obtain ⟨hb1, hb2⟩ := hb.resolve_left h0
  rw [if_neg h0] at hr
  obtain ⟨⟨s1, rs1⟩, hr1, hr2⟩ := Res.bind_ok hr
  simp only [Except.ok.injEq, Prod.mk.injEq] at hr2
  obtain ⟨-, rfl, -⟩ := hr2
  obtain ⟨hn1, hn2, hn3⟩ := pageUp_spec (a := c.newBrk) (by omega)
  obtain ⟨ho1, -, -⟩ := pageUp_spec (a := s.progBrk) (by have := h.brk_le; omega)
  have hroom := h.pool_room
  rw [Sys.updateBrk] at hr1
  by_cases hlt : pageUp s.progBrk < pageUp c.newBrk
  · rw [if_pos hlt] at hr1
    obtain ⟨hI, hframe, hroom'⟩ := h.growBrk_inv hlt hn3 (by omega) hg hr1
    have hmapped := fun x => h.growBrk_mapped hlt hn3 (by omega) hg hr1 (x := x)
    -- what is supplied is mapped after the call
    have hsup : c.Supplied s → ∀ x, b0 ≤ x → (x < pageUp c.newBrk ∨
        (eusrHeapStartAligned < pageUp c.newBrk ∧ x < partitionUp (pageUp c.newBrk))) →
        s1.MappedURW x := by
      intro hs x hx hx'
      rcases hmapped x hx hx' with h1 | ⟨h1, h2, h3, h4⟩
      · exact h1
      · obtain ⟨l, pte, h5⟩ := hs hlt x h1 h2 h3
        exact ⟨l, pte, by rw [h4]; exact h5⟩
    refine ⟨⟨fun hgood _ x hx1 hx2 hx3 => ?_, fun hs _ => ⟨fun x hx hx' => ?_, fun x hx _ => ?_⟩⟩,
      fun hs => ?_⟩
    · -- the page of `x` begins below the new break
      obtain ⟨hg1, -⟩ := hgood h0
      have hb0 := h.b0_page
      have hb0' := h.b0_le
      have hy := hg1 (x / 0x1000 * 0x1000) (by omega) (by omega)
      rw [Sys.setProgBrk_mapped] at hy
      obtain ⟨l, pte, h1⟩ := hy.page (y := x) (by omega)
      exact ⟨l, pte, by rw [← h.growBrk_gap hlt hn3 (by omega) hg hr1 hx1 hx3]; exact h1⟩
    · rw [Sys.setProgBrk_mapped]
      exact hsup hs x hx (Or.inl (by omega))
    · rw [Sys.setProgBrk_leaf]
      exact hframe x (by omega)
    · exact hI.setProgBrk hb1 hb2 hroom' (fun x hx hx' => hsup hs x hx (Or.inl hx'))
        fun ha x hx hx' => hsup hs x hx (Or.inr ⟨ha, hx'⟩)
  · rw [if_neg hlt] at hr1
    obtain ⟨rfl, -⟩ := Res.ok_pair hr1
    have hgood : c.Good b0 s (s.setProgBrk c.newBrk) := by
      intro _
      refine ⟨fun x hx hx' => ?_, fun x _ _ => Sys.setProgBrk_leaf _ _ _⟩
      rw [Sys.setProgBrk_mapped]
      exact h.covered x hx (by omega)
    refine ⟨⟨fun _ hc => absurd hc hlt, fun _ => hgood⟩, fun _ => ?_⟩
    have hle : partitionUp (pageUp c.newBrk) ≤ partitionUp (pageUp s.progBrk) :=
      partitionUp_mono (by omega) (by have := h.pageUp_brk.2; omega)
    exact h.setProgBrk hb1 hb2 (by omega) (fun x hx hx' => h.covered x hx (by omega))
      fun ha x hx hx' => h.covered_above (by omega) x hx (by omega)

/-- What `init_prog_brk` finds: the page table in order, a U-mode pool of whole
pages that fits in a partition, no gigapage in the user's half and no megapage
right below `EUSR_HEAP_START_ALIGNED`. -/
structure BrkBoot (s : Sys) : Prop where
  inv : PtInv s
  pool_size : s.umodePool.size < 0x200000
  pool_page : s.umodePool.size % 0x1000 = 0
  pool_used : 0x1000 * s.umodePool.usedPageCount ≤ s.umodePool.size
  no_giga : ∀ x < 2 ^ 38, ∀ pte, s.leaf x ≠ some (.giga, pte)
  no_mega : ∀ x, eusrHeapStartAligned - 0x200000 ≤ x → x < eusrHeapStartAligned →
    ∀ pte, s.leaf x ≠ some (.mega, pte)

theorem BrkBoot.brkInv {s : Sys} (h : BrkBoot s) : BrkInv s.initProgBrk.progBrk s.initProgBrk := by
  have h1 := h.pool_size
  have h2 := h.pool_page
  have h3 := h.pool_used
  have hav : s.getUmodePagePoolAvailSize = s.umodePool.size - 0x1000 * s.umodePool.usedPageCount := by
    rw [Sys.getUmodePagePoolAvailSize, mul64_eq (by omega), sub64_eq (by omega) (by omega)]
  have hb : s.initProgBrk.progBrk = 0x100000000 - s.getUmodePagePoolAvailSize := by
    rw [Sys.initProgBrk, Sys.setProgBrk_progBrk, eusrHeapStartAligned, sub64_eq (by omega) (by omega)]
  obtain ⟨h4, h5, h6⟩ := pageUp_spec (a := s.initProgBrk.progBrk) (by omega)
  have hup : pageUp s.initProgBrk.progBrk = s.initProgBrk.progBrk := by omega
  have hav' : s.initProgBrk.getUmodePagePoolAvailSize = s.getUmodePagePoolAvailSize :=
    Sys.setProgBrk_avail _ _
  refine ⟨h.inv.of_eq rfl rfl rfl rfl, by omega, by unfold eusrHeapStartAligned; omega, le_refl _,
    by omega, h1, h2, h3, ?_, ?_, ?_, ?_, ?_⟩
  · rw [hup, hav']
    unfold eusrHeapStartAligned
    omega
  · rw [hup]
    intro x hx hx'
    omega
  · rw [hup]
    intro ha
    unfold eusrHeapStartAligned at ha
    omega
  · simpa only [Sys.initProgBrk, Sys.setProgBrk_leaf] using h.no_giga
  · simpa only [Sys.initProgBrk, Sys.setProgBrk_leaf] using h.no_mega

theorem BrkInv.run {b0 : ℕ} {s : Sys} (h : BrkInv b0 s) (cs : List BrkCall)
    (hb : ∀ c ∈ cs, (c.newBrk = 0 ∨ (b0 ≤ c.newBrk ∧ c.newBrk ≤ 2 ^ 38)) ∧ c.Granted) :
    BrkGood b0 s cs ↔ BrkSupplied s cs := by
  induction cs generalizing s with
  | nil => exact Iff.rfl
  | cons c cs ih =>
    obtain ⟨hb1, hb2⟩ := hb c List.mem_cons_self
    have hrest : ∀ c ∈ cs, (c.newBrk = 0 ∨ (b0 ≤ c.newBrk ∧ c.newBrk ≤ 2 ^ 38)) ∧ c.Granted :=
      fun c hc => hb c (List.mem_cons_of_mem _ hc)
    refine forall_congr' fun v => forall_congr' fun s' => forall_congr' fun rest =>
      forall_congr' fun hr => ?_
    obtain ⟨h1, h2⟩ := h.call hb1 hb2 hr
    constructor
    · rintro ⟨hg, hgs⟩
      have hs := h1.mp hg
      exact ⟨hs, (ih (h2 hs) hrest).mp hgs⟩
    · rintro ⟨hs, hss⟩
      exact ⟨h1.mpr hs, (ih (h2 hs) hrest).mpr hss⟩

/-- **The break is covered exactly when the pool's pages suffice.** From the break
set by `init_prog_brk`, in a run of calls with argument 0 or from the first break
up to `2 ^ 38`, the monitor granting every request: every call that returns
leaves all addresses from the first break to the new one mapped U, R and W, and
those below both breaks as they were, if and only if at every growing call the
addresses below `EUSR_HEAP_START_ALIGNED` that the pool can no longer supply are
mapped already. -/
theorem brk_covered_iff (s : Sys) (h : BrkBoot s) (cs : List BrkCall)
    (hb : ∀ c ∈ cs, (c.newBrk = 0 ∨ (s.initProgBrk.progBrk ≤ c.newBrk ∧ c.newBrk ≤ 2 ^ 38)) ∧
      c.Granted) :
    BrkGood s.initProgBrk.progBrk s.initProgBrk cs ↔ BrkSupplied s.initProgBrk cs :=
  h.brkInv.run cs hb

theorem smallBoot_brkBoot : BrkBoot Sys.smallBoot :=
  ⟨Sys.smallBoot_inv.1, by decide, by decide, by decide,
    fun x _ pte h => by simp [Sys.smallBoot_inv.2 x] at h,
    fun x _ _ pte h => by simp [Sys.smallBoot_inv.2 x] at h⟩

/-- The first break of `Sys.smallBoot` is two pages below
`EUSR_HEAP_START_ALIGNED`; it grows past the pool into a partition. -/
theorem brk_covered_iff_grow : BrkGood Sys.smallBoot.initProgBrk.progBrk Sys.smallBoot.initProgBrk
    [⟨0x100001000, [⟨0, 0x90000000⟩]⟩] := by
  refine (brk_covered_iff Sys.smallBoot smallBoot_brkBoot _ fun c hc => ?_).mpr fun v s' rest _ => ?_
  · obtain rfl := List.mem_singleton.mp hc
    exact ⟨Or.inr (by decide), by simp [BrkCall.Granted, FirstGranted, SmReply.Refused]⟩
  · refine ⟨fun _ x hx _ hx' => ?_, trivial⟩
    have h1 : pageUp Sys.smallBoot.initProgBrk.progBrk +
        Sys.smallBoot.initProgBrk.getUmodePagePoolAvailSize = eusrHeapStartAligned := by decide
    omega

/-- The state after a run of calls. -/
def brkRun (s : Sys) : List BrkCall → Res Sys
  | [] => .ok s
  | c :: cs => do
    let (_, s, _) ← s.sysBrkHandler c.newBrk c.replies
    brkRun s cs

/-- The last call of a good run covers its argument. -/
theorem BrkGood.last {b0 : ℕ} {c : BrkCall} {s' : Sys} (hc : c.newBrk ≠ 0) : ∀ {cs : List BrkCall} {s : Sys},
    BrkGood b0 s (cs ++ [c]) → brkRun s (cs ++ [c]) = .ok s' →
    ∀ x, b0 ≤ x → x < c.newBrk → s'.MappedURW x
  | [], s, hg, hr => by
    obtain ⟨⟨v, s1, rest⟩, hr1, hr2⟩ := Res.bind_ok hr
    cases hr2
    exact ((hg _ _ _ hr1).1 hc).1
  | c' :: cs, s, hg, hr => by
    obtain ⟨⟨v, s1, rest⟩, hr1, hr2⟩ := Res.bind_ok hr
    exact BrkGood.last hc (hg _ _ _ hr1).2 hr2

/-- **A break that shrinks and grows again has a hole.** The pool has two pages:
one is used to grow by a page, the break goes back, and of the two pages asked
for next only the first is mapped. -/
theorem brk_hole : ¬ BrkGood Sys.smallBoot.initProgBrk.progBrk Sys.smallBoot.initProgBrk
    ([⟨0xfffff000, []⟩, ⟨0xffffe000, []⟩] ++ [⟨0x100000000, []⟩]) := by
  intro h
  have hrun : ((brkRun Sys.smallBoot.initProgBrk
      ([⟨0xfffff000, []⟩, ⟨0xffffe000, []⟩] ++ [⟨0x100000000, []⟩])).toOption.map
        fun s => s.leaf 0xfffff000) = some none := by decide +kernel
  cases hr : brkRun Sys.smallBoot.initProgBrk
      ([⟨0xfffff000, []⟩, ⟨0xffffe000, []⟩] ++ [⟨0x100000000, []⟩]) with
  | error e =>
    rw [hr] at hrun
    cases hrun
  | ok s' =>
    rw [hr] at hrun
    simp only [Except.toOption, Option.map_some, Option.some.injEq] at hrun
    obtain ⟨l, pte, hl, -⟩ := h.last (by decide) hr 0xfffff000 (by decide) (by decide)
    rw [hrun] at hl
    cases hl

end Coffer
