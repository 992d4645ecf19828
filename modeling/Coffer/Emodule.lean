/-
# Address ranges for emodules

`alloc_map_emodule` reserves memory for the image of an emodule, of the size that the host
reports: pages of the S-mode pool, mapped from `emodule_brk` on. The size goes through `PAGE_UP`,
which is 0 for the last 4095 values: then nothing is reserved, and the range that the host is
asked to fill is not the enclave's.

`Images` says that the ranges of all calls tile the addresses from the first break on, each
mapped in one piece to pages of its own. `emodRun_sound_iff`: a run of calls keeps that exactly
when the break never moves past the end of the address space.
-/
import Coffer.Access

namespace Coffer

open Lib

variable {base brk n size v : ℕ} {s s' : Sys}

/-! ### `memory.c` -/

/-- The flags of an image. -/
def emodFlags : ℕ := pteR ||| pteW ||| pteX

theorem hasPerm_emodFlags : HasPerm emodFlags := Or.inl (by decide)

namespace Sys

def allocMapEmodule (s : Sys) (emoduleSize : ℕ) : Res (ℕ × Sys) := do
  let allocSize := pageUp emoduleSize
  let numberOfPages := allocSize / 0x1000
  let (paddr, s) ← s.allocSmodePage numberOfPages
  let vaddr := s.emoduleBrk
  let s ← s.mapRange vaddr paddr emodFlags .page numberOfPages
  .ok (vaddr, { s with emoduleBrk := add64 s.emoduleBrk allocSize })

end Sys

/-! ### The upper half of the address space -/

theorem getVpn_mod (va : ℕ) {i : ℕ} (hi : i < 3) : getVpn (va % 2 ^ 39) i = getVpn va i := by
  rw [getVpn_eq_iff]
  interval_cases i <;> omega

theorem upperVpns_mod (va : ℕ) (level : Level) : upperVpns (va % 2 ^ 39) level = upperVpns va level := by
  cases level <;> simp only [upperVpns, getVpn_mod _ (show 2 < 3 by norm_num), getVpn_mod _ (show 1 < 3 by norm_num)]

theorem lastVpn_mod (va : ℕ) (level : Level) : lastVpn (va % 2 ^ 39) level = lastVpn va level :=
  getVpn_mod va (by omega)

/-- The tables see the low 39 bits of an address. -/
theorem Sys.mapPage_mod (s : Sys) (va pa flags : ℕ) (level : Level) :
    s.mapPage (va % 2 ^ 39) pa flags level = s.mapPage va pa flags level := by
  simp only [Sys.mapPage, Sys.getLeafPte, upperVpns_mod, lastVpn_mod]

theorem Sys.mapRange_mod (s : Sys) (va pa flags : ℕ) (level : Level) (n : ℕ) :
    s.mapRange (va % 2 ^ 39) pa flags level n = s.mapRange va pa flags level n := by
  induction n with
  | zero => rfl
  | succ n ih =>
    have hmod : add64 (va % 2 ^ 39) (level.size * n) % 2 ^ 39 = add64 va (level.size * n) % 2 ^ 39 := by
      unfold add64
      omega
    rw [Sys.mapRange, Sys.mapRange, ih]
    refine congrArg _ (funext fun s1 => ?_)
    rw [← Sys.mapPage_mod, hmod, Sys.mapPage_mod]

/-! ### Pages for images -/

/-- Pages handed out for other purposes than tables. -/
theorem PtInv.setUsed (h : PtInv s) {u : ℕ} (hu : s.smodePool.usedPageCount ≤ u)
    (hle : 0x1000 * u ≤ s.smodePool.size) : PtInv (s.setUsedPageCount u .smode) := by
  obtain ⟨owner, hS⟩ := h
  have hstart : (s.setUsedPageCount u .smode).poolStart .smode = s.poolStart .smode := rfl
  refine ⟨owner, { root_aligned := hS.root_aligned, pool_aligned := hS.pool_aligned,
                   pool_end := hS.pool_end, apart := hS.apart, used_le := hle, fresh := ?_,
                   shape := hS.shape, entries := hS.entries, owned := ?_ }⟩
  · intro x h1 h2
    refine hS.fresh x ?_ h2
    have h3 : s.poolStart .smode + 0x1000 * u ≤ x := h1
    omega
  · intro p path hp
    rcases hS.owned p path hp with h1 | ⟨h1, h2⟩
    · exact Or.inl h1
    · refine Or.inr ⟨h1, ?_⟩
      have h3 : (s.setUsedPageCount u .smode).smodePool.usedPageCount = u := rfl
      rw [hstart, h3]
      omega

/-- What `map_page` takes from the pool it does not give back. -/
structure PoolGrows (s s' : Sys) : Prop where
  used : s.smodePool.usedPageCount ≤ s'.smodePool.usedPageCount
  size : s'.smodePool.size = s.smodePool.size
  le : 0x1000 * s'.smodePool.usedPageCount ≤ s'.smodePool.size

theorem PoolGrows.trans {s'' : Sys} (h : PoolGrows s s') (h' : PoolGrows s' s'') :
    PoolGrows s s'' :=
  ⟨le_trans h.used h'.used, h'.size.trans h.size, h'.le⟩

namespace Sys

theorem nextTable_grows {table t : ℕ} {vpn : Fin 512}
    (hle : 0x1000 * s.smodePool.usedPageCount ≤ s.smodePool.size) (hlt : s.smodePool.size < 2 ^ 63)
    (h : s.nextTable table vpn true = .ok (t, s')) : PoolGrows s s' := by
  simp only [nextTable, Bool.true_eq_false, if_false] at h
  split at h
  · obtain ⟨⟨pa, s1⟩, ha, h1⟩ := Res.bind_ok h
    obtain ⟨-, rfl⟩ := Res.ok_pair h1
    obtain ⟨hp, -, rfl⟩ := allocPage_ok ha
    have hw : s.getUsedPageCount .smode = s.smodePool.usedPageCount := rfl
    have hsize : (s.pool .smode).size = s.smodePool.size := rfl
    rw [outOfPages_iff (by omega), hw, hsize] at hp
    have hused : add64 (s.getUsedPageCount .smode) 1 = s.smodePool.usedPageCount + 1 :=
      add64_eq (show s.smodePool.usedPageCount + 1 < 2 ^ 64 by omega)
    rw [hused]
    exact ⟨Nat.le_succ _, rfl, show 0x1000 * (s.smodePool.usedPageCount + 1) ≤ s.smodePool.size by omega⟩
  · obtain ⟨-, rfl⟩ := Res.ok_pair h
    exact ⟨le_refl _, rfl, hle⟩

theorem descendTables_grows {us : List (Fin 512)} {table t : ℕ}
    (hle : 0x1000 * s.smodePool.usedPageCount ≤ s.smodePool.size) (hlt : s.smodePool.size < 2 ^ 63)
    (h : s.descendTables table true us = .ok (t, s')) : PoolGrows s s' := by
  induction us generalizing s table with
  | nil =>
    cases h
    exact ⟨le_refl _, rfl, hle⟩
  | cons u us ih =>
    rw [descendTables] at h
    obtain ⟨⟨t1, s1⟩, h1, h2⟩ := Res.bind_ok h
    have h3 := nextTable_grows hle hlt h1
    exact h3.trans (ih h3.le (h3.size ▸ hlt) h2)

theorem mapPage_grows {va pa flags : ℕ} {level : Level}
    (hle : 0x1000 * s.smodePool.usedPageCount ≤ s.smodePool.size) (hlt : s.smodePool.size < 2 ^ 63)
    (h : s.mapPage va pa flags level = .ok s') : PoolGrows s s' := by
  unfold mapPage getLeafPte at h
  obtain ⟨⟨addr, s1⟩, h1, h2⟩ := Res.bind_ok h
  obtain ⟨⟨t, s2⟩, h3, h4⟩ := Res.bind_ok h1
  simp only [Bool.true_eq_false, and_false, if_false, Except.ok.injEq, Prod.mk.injEq] at h4
  obtain ⟨-, rfl⟩ := h4
  simp only [Except.ok.injEq] at h2
  subst h2
  have h5 := descendTables_grows hle hlt h3
  exact ⟨h5.used, h5.size, h5.le⟩

theorem mapRange_grows {va pa flags : ℕ} {level : Level}
    (hle : 0x1000 * s.smodePool.usedPageCount ≤ s.smodePool.size) (hlt : s.smodePool.size < 2 ^ 63)
    (h : s.mapRange va pa flags level n = .ok s') : PoolGrows s s' := by
  induction n generalizing s' with
  | zero =>
    cases h
    exact ⟨le_refl _, rfl, hle⟩
  | succ n ih =>
    rw [mapRange] at h
    obtain ⟨s1, h1, h2⟩ := Res.bind_ok h
    have h3 := ih h1
    exact h3.trans (mapPage_grows h3.le (h3.size ▸ hlt) h2)

end Sys

/-! ### The ranges -/

/-- The size of an image in whole pages. -/
def pageSize (size : ℕ) : ℕ := (size + 0xfff) / 0x1000 * 0x1000

/-- A range with the memory behind it. -/
structure Image where
  vaddr : ℕ
  size : ℕ
  paddr : ℕ
deriving DecidableEq, Repr

/-- The images, the latest first, lie one behind the other between `base` and `brk`. -/
def Tiled (base : ℕ) : ℕ → List Image → Prop
  | brk, [] => brk = base
  | brk, i :: is => i.vaddr + pageSize i.size = brk ∧ Tiled base i.vaddr is

/-- The page table is in order, with nothing mapped from the break on. -/
structure EmodEnv (s : Sys) : Prop where
  inv : PtInv s
  aligned : s.emoduleBrk % 0x1000 = 0
  init_le : emodInitBrk ≤ s.emoduleBrk
  brk_lt : s.emoduleBrk < 2 ^ 64
  free : ∀ x, s.emoduleBrk ≤ x → x < 2 ^ 64 → s.leaf x = none

/-- The images loaded since the break was at `base`: their ranges tile the addresses up to the
break, and each is mapped in one piece to pages of the S-mode pool that are its own. -/
structure Images (s : Sys) (base : ℕ) (is : List Image) : Prop extends EmodEnv s where
  base_le : emodInitBrk ≤ base
  tiled : Tiled base s.emoduleBrk is
  maps : ∀ i ∈ is, ∀ x, i.vaddr ≤ x → x < i.vaddr + pageSize i.size →
    s.Maps emodFlags x (i.paddr + (x - i.vaddr))
  pool : ∀ i ∈ is, s.poolStart .smode ≤ i.paddr ∧
    i.paddr + pageSize i.size ≤ s.poolStart .smode + 0x1000 * s.smodePool.usedPageCount
  apart : is.Pairwise fun i j => j.paddr + pageSize j.size ≤ i.paddr

theorem Tiled.le {is : List Image} (h : Tiled base brk is) : base ≤ brk := by
  induction is generalizing brk with
  | nil => exact le_of_eq h.symm
  | cons i is ih =>
    obtain ⟨h1, h2⟩ := h
    have := ih h2
    omega

theorem Tiled.mem {is : List Image} (h : Tiled base brk is) {i : Image} (hi : i ∈ is) :
    base ≤ i.vaddr ∧ i.vaddr + pageSize i.size ≤ brk := by
  induction is generalizing brk with
  | nil => exact absurd hi List.not_mem_nil
  | cons j is ih =>
    obtain ⟨h1, h2⟩ := h
    rcases List.mem_cons.mp hi with rfl | hi
    · exact ⟨h2.le, le_of_eq h1⟩
    · obtain ⟨h3, h4⟩ := ih h2 hi
      exact ⟨h3, by omega⟩

theorem Tiled.pairwise {is : List Image} (h : Tiled base brk is) :
    is.Pairwise fun i j => j.vaddr + pageSize j.size ≤ i.vaddr := by
  induction is generalizing brk with
  | nil => exact List.Pairwise.nil
  | cons i is ih => exact List.pairwise_cons.mpr ⟨fun j hj => (h.2.mem hj).2, ih h.2⟩

theorem Sys.leaf_mod (s : Sys) (x : ℕ) : s.leaf (x % 2 ^ 39) = s.leaf x := by
  unfold Sys.leaf vpns
  rw [getVpn_mod _ (by norm_num), getVpn_mod _ (by norm_num), getVpn_mod _ (by norm_num)]

theorem PtInv.pool_bounds (h : PtInv s) : s.poolStart .smode % 0x1000 = 0 ∧
    s.poolStart .smode + s.smodePool.size ≤ 2 ^ 56 ∧
    0x1000 * s.smodePool.usedPageCount ≤ s.smodePool.size := by
  obtain ⟨owner, hS⟩ := h
  exact ⟨hS.pool_aligned, hS.pool_end, hS.used_le⟩

/-- The pages for an image. -/
theorem PtInv.allocPages {s1 : Sys} {p : ℕ} (h : PtInv s) (hn : n < 2 ^ 51)
    (hr : s.allocSmodePage n = .ok (p, s1)) :
    s1 = s.setUsedPageCount (s.smodePool.usedPageCount + n) .smode ∧ PtInv s1 ∧
      p = s.poolStart .smode + 0x1000 * s.smodePool.usedPageCount ∧
      p + 0x1000 * n ≤ s.poolStart .smode + s.smodePool.size := by
  obtain ⟨hp, hpa, hs1⟩ := Sys.allocPage_ok hr
  obtain ⟨-, hend, hle⟩ := h.pool_bounds
  have hw : s.getUsedPageCount .smode = s.smodePool.usedPageCount := rfl
  have hsize : (s.pool .smode).size = s.smodePool.size := rfl
  rw [Sys.outOfPages_iff (by omega), hw, hsize] at hp
  rw [hw, add64_eq (by omega)] at hs1
  rw [Sys.getPoolTop, hw, mul64_eq (by omega), add64_eq (by omega)] at hpa
  refine ⟨hs1, ?_, hpa, by omega⟩
  rw [hs1]
  exact h.setUsed (by omega) (by omega)

/-- The pages of an image are mapped in one piece. -/
theorem EmodEnv.mapRange {p : ℕ} (h : EmodEnv s) (hp : p % 0x1000 = 0)
    (hpa : p + 0x1000 * n ≤ 2 ^ 56) (hlt : s.emoduleBrk + 0x1000 * n ≤ 2 ^ 64)
    (hr : s.mapRange s.emoduleBrk p emodFlags .page n = .ok s') :
    PtInv s' ∧ PtFrame s s' ∧
      (∀ x, s.emoduleBrk ≤ x → x < s.emoduleBrk + 0x1000 * n →
        s'.Maps emodFlags x (p + (x - s.emoduleBrk))) ∧
      (∀ x, emodInitBrk ≤ x → x < 2 ^ 64 →
        ¬ (s.emoduleBrk ≤ x ∧ x < s.emoduleBrk + 0x1000 * n) → s'.leaf x = s.leaf x) ∧
      ∀ x < 2 ^ 38, s'.leaf x = s.leaf x := by
  have hinit : emodInitBrk = 0xfffffff000000000 := rfl
  have hlo := h.init_le
  have hbrk := h.brk_lt
  have hal := h.aligned
  have hfree := h.free
  have hsz : Level.page.size = 0x1000 := rfl
  generalize s.emoduleBrk = brk at *
  have hmod : brk % 2 ^ 39 = brk - (2 ^ 64 - 2 ^ 39) := by omega
  rw [← Sys.mapRange_mod] at hr
  have hn : ∀ i < n, s.NoLeafAbove (brk % 2 ^ 39 + Level.page.size * i) .page := by
    intro i hi l pte hl
    have hx : brk % 2 ^ 39 + Level.page.size * i = (brk + 0x1000 * i) % 2 ^ 39 := by
      rw [hsz]
      omega
    rw [hx, Sys.leaf_mod, hfree _ (by omega) (by omega)] at hl
    cases hl
  obtain ⟨h1, h2, h3⟩ := Sys.mapRange_spec h.inv (by rw [hsz]; omega) hasPerm_emodFlags
    (by rw [hsz]; omega) hn hr
  rw [hsz] at h3
  refine ⟨h1, h2, fun x hx hx' => ?_, fun x hx hx' hout => ?_, fun x hx => ?_⟩
  · have hx39 : x % 2 ^ 39 - brk % 2 ^ 39 = x - brk := by omega
    have h4 := h3 x
    rw [if_pos (by omega), hx39] at h4
    exact newLeaf_maps (by rw [hsz]; exact hal) (by rw [hsz]; exact hp) (by omega) hx
      (hfree x hx (by omega)) h4
  · rw [h3 x, if_neg (by omega)]
  · rw [h3 x, if_neg (by omega)]

theorem pageUp_of_lt (h : emodInitBrk + pageSize size < 2 ^ 64) :
    pageUp size = pageSize size := by
  have hinit : emodInitBrk = 0xfffffff000000000 := rfl
  unfold pageSize at h
  rw [pageUp_eq (by omega), pageSize]

/-- What a call for an image of `size` bytes at `p` changes. -/
structure NewImage (s s' : Sys) (size p : ℕ) : Prop where
  inv : PtInv s'
  brk : s'.emoduleBrk = s.emoduleBrk + pageSize size
  paddr : p = s.poolStart .smode + 0x1000 * s.smodePool.usedPageCount
  start : s'.poolStart .smode = s.poolStart .smode
  used : p + pageSize size ≤ s.poolStart .smode + 0x1000 * s'.smodePool.usedPageCount
  maps : ∀ x, s.emoduleBrk ≤ x → x < s'.emoduleBrk → s'.Maps emodFlags x (p + (x - s.emoduleBrk))
  leaf : ∀ x, emodInitBrk ≤ x → x < 2 ^ 64 → ¬ (s.emoduleBrk ≤ x ∧ x < s'.emoduleBrk) →
    s'.leaf x = s.leaf x
  low : ∀ x < 2 ^ 38, s'.leaf x = s.leaf x

/-- `alloc_map_emodule`, as long as the break stays in the address space. -/
theorem EmodEnv.alloc (h : EmodEnv s)
    (hlt : s.emoduleBrk + pageSize size < 2 ^ 64) (hr : s.allocMapEmodule size = .ok (v, s')) :
    v = s.emoduleBrk ∧ ∃ p, NewImage s s' size p := by
  have hinit : emodInitBrk = 0xfffffff000000000 := rfl
  have hlo := h.init_le
  obtain ⟨hal, hend, hle⟩ := h.inv.pool_bounds
  unfold Sys.allocMapEmodule at hr
  obtain ⟨⟨p, s1⟩, hr1, hr2⟩ := Res.bind_ok hr
  obtain ⟨s2, hr3, hr4⟩ := Res.bind_ok hr2
  simp only [Except.ok.injEq, Prod.mk.injEq] at hr4
  obtain ⟨hv, hs'⟩ := hr4
  obtain ⟨n, hn⟩ : ∃ n, pageSize size = 0x1000 * n := ⟨(size + 0xfff) / 0x1000, Nat.mul_comm _ _⟩
  rw [pageUp_of_lt (by omega), hn] at hr1 hr3 hs'
  rw [Nat.mul_div_cancel_left _ (by norm_num)] at hr1 hr3
  rw [hn] at hlt
  -- the pages are taken from the pool before they are mapped
  obtain ⟨hs1, h1, hp, hfit⟩ := h.inv.allocPages (by omega) hr1
  have hbrk1 : s1.emoduleBrk = s.emoduleBrk := by rw [hs1]; rfl
  have hleaf1 : ∀ x, s1.leaf x = s.leaf x := Sys.leaf_of_eq (by rw [hs1]; rfl) (by rw [hs1]; rfl)
  have hstart1 : s1.poolStart .smode = s.poolStart .smode := by rw [hs1]; rfl
  have hsize1 : s1.smodePool.size = s.smodePool.size := by rw [hs1]; rfl
  have hused1 : s1.smodePool.usedPageCount = s.smodePool.usedPageCount + n := by rw [hs1]; rfl
  have henv : EmodEnv s1 := by
    refine ⟨h1, ?_, ?_, ?_, ?_⟩
    all_goals rw [hbrk1]
    · exact h.aligned
    · exact h.init_le
    · exact h.brk_lt
    · exact fun x hx hx' => (hleaf1 x).trans (h.free x hx hx')
  obtain ⟨h2, hframe, hmaps, hleaf, hlow⟩ := henv.mapRange (by omega) (by omega) (by omega) hr3
  have hgrow := Sys.mapRange_grows (by omega) (by omega) hr3
  rw [hbrk1] at hmaps hleaf hv
  have hbrk' : s'.emoduleBrk = s.emoduleBrk + 0x1000 * n := by
    have h3 : s2.emoduleBrk = s1.emoduleBrk := by rw [hframe.rest]
    rw [← hs', h3, hbrk1, add64_eq hlt]
  have hleaf' : ∀ x, s'.leaf x = s2.leaf x := Sys.leaf_of_eq (by rw [← hs']) (by rw [← hs'])
  have hpool' : s'.smodePool = s2.smodePool := by rw [← hs']
  have hstart' : s'.poolStart .smode = s2.poolStart .smode := by rw [← hs']; rfl
  refine ⟨hv.symm, p, ?_, ?_, hp, ?_, ?_, ?_, ?_, fun x hx => ?_⟩
  · exact h2.of_eq (by rw [← hs']) (by rw [← hs']) hpool' hstart'
  · rw [hbrk', hn]
  · rw [hstart', hframe.poolStart, hstart1]
  · have h3 := hgrow.used
    rw [hpool', hn]
    omega
  · rw [hbrk']
    exact fun x hx hx' => (hmaps x hx hx').of_leaf (hleaf' x)
  · rw [hbrk']
    exact fun x hx hx' hout => (hleaf' x).trans ((hleaf x hx hx' hout).trans (hleaf1 x))
  · exact (hleaf' x).trans ((hlow x hx).trans (hleaf1 x))

/-- **One image more.** As long as the break stays in the address space. -/
theorem Images.alloc {is : List Image} (h : Images s base is)
    (hlt : s.emoduleBrk + pageSize size < 2 ^ 64) (hr : s.allocMapEmodule size = .ok (v, s')) :
    v = s.emoduleBrk ∧ (∃ p, Images s' base (⟨v, size, p⟩ :: is)) ∧ ∀ x < 2 ^ 38, s'.leaf x = s.leaf x := by
  obtain ⟨rfl, p, hN⟩ := h.toEmodEnv.alloc hlt hr
  have hbrk := hN.brk
  have hal : pageSize size % 0x1000 = 0 := Nat.mul_mod_left _ _
  have hal' := h.aligned
  have hlo := h.init_le
  refine ⟨rfl, ⟨p, ⟨hN.inv, by omega, by omega, by omega, fun x hx hx' => ?_⟩, h.base_le, ?_, ?_, ?_, ?_⟩,
    hN.low⟩
  · rw [hN.leaf x (by omega) hx' (by omega)]
    exact h.free x (by omega) hx'
  · exact ⟨hN.brk.symm, h.tiled⟩
  · intro i hi x hx hx'
    rcases List.mem_cons.mp hi with rfl | hi
    · exact hN.maps x hx (by rw [hN.brk]; exact hx')
    · obtain ⟨h1, h2⟩ := h.tiled.mem hi
      have h3 := h.base_le
      have h4 := h.brk_lt
      exact (h.maps i hi x hx hx').of_leaf (hN.leaf x (by omega) (by omega) (by omega))
  · intro i hi
    rw [hN.start]
    rcases List.mem_cons.mp hi with rfl | hi
    · have h1 := hN.paddr
      exact ⟨by simp only; omega, hN.used⟩
    · obtain ⟨h1, h2⟩ := h.pool i hi
      have h3 := hN.used
      have h4 := hN.paddr
      exact ⟨h1, by omega⟩
  · refine List.pairwise_cons.mpr ⟨fun j hj => ?_, h.apart⟩
    rw [hN.paddr]
    exact (h.pool j hj).2

/-! ### Runs -/

/-- What the caller of `alloc_map_emodule` relies on: the range does not wrap, all of it is mapped
to the S-mode pool, and the break is not inside. -/
def Sys.RangeOk (s : Sys) (r : ℕ × ℕ) : Prop :=
  r.1 + r.2 < 2 ^ 64 ∧ r.1 + r.2 ≤ s.emoduleBrk ∧ ∀ x, r.1 ≤ x → x < r.1 + r.2 →
    ∃ pa, s.Maps emodFlags x pa ∧ s.poolStart .smode ≤ pa ∧ pa < s.poolStart .smode + s.smodePool.size

/-- All ranges are so, and no address is in two of them. -/
def RangesSound (s : Sys) (ranges : List (ℕ × ℕ)) : Prop :=
  (∀ r ∈ ranges, s.RangeOk r) ∧
    ranges.Pairwise fun r r' => ∀ x, ¬ (r.1 ≤ x ∧ x < r.1 + r.2 ∧ r'.1 ≤ x ∧ x < r'.1 + r'.2)

namespace Sys

/-- Calls for images of the given sizes, after those for `ranges`: each that returns leaves sound
ranges. -/
def EmodSound (s : Sys) : List ℕ → List (ℕ × ℕ) → Prop
  | [], _ => True
  | size :: sizes, ranges => ∀ v s', s.allocMapEmodule size = .ok (v, s') →
    RangesSound s' ((v, size) :: ranges) ∧ s'.EmodSound sizes ((v, size) :: ranges)

/-- No call that returns moves the break past the end of the address space. -/
def BrkFits (s : Sys) : List ℕ → Prop
  | [] => True
  | size :: sizes => ∀ v s', s.allocMapEmodule size = .ok (v, s') →
    s.emoduleBrk + pageSize size < 2 ^ 64 ∧ s'.BrkFits sizes

theorem setUsedPageCount_emoduleBrk (s : Sys) (c : ℕ) (mode : PoolMode) :
    (s.setUsedPageCount c mode).emoduleBrk = s.emoduleBrk := by
  cases mode <;> rfl

/-- The break moves by the size of the allocation, in any case. -/
theorem allocMapEmodule_brk (h : s.allocMapEmodule size = .ok (v, s')) :
    v = s.emoduleBrk ∧ s'.emoduleBrk = add64 s.emoduleBrk (pageUp size) := by
  unfold allocMapEmodule at h
  obtain ⟨⟨p, s1⟩, h1, h2⟩ := Res.bind_ok h
  obtain ⟨s2, h3, h4⟩ := Res.bind_ok h2
  simp only [Except.ok.injEq, Prod.mk.injEq] at h4
  obtain ⟨hv, hs'⟩ := h4
  obtain ⟨-, -, hs1⟩ := allocPage_ok h1
  have hbrk1 : s1.emoduleBrk = s.emoduleBrk := by rw [hs1, setUsedPageCount_emoduleBrk]
  have hbrk2 : s2.emoduleBrk = s1.emoduleBrk := by rw [mapRange_rest h3]
  exact ⟨by rw [← hv, hbrk1], by rw [← hs', hbrk2, hbrk1]⟩

/-- A range that wraps, or a break that does, is not sound. -/
theorem RangeOk.fits (hal : s.emoduleBrk % 0x1000 = 0)
    (hlo : emodInitBrk ≤ s.emoduleBrk) (hsize : size < 2 ^ 64)
    (hr : s.allocMapEmodule size = .ok (v, s')) (h : s'.RangeOk (v, size)) :
    s.emoduleBrk + pageSize size < 2 ^ 64 := by
  obtain ⟨rfl, hbrk⟩ := allocMapEmodule_brk hr
  obtain ⟨h1, h2, -⟩ := h
  have hinit : emodInitBrk = 0xfffffff000000000 := rfl
  simp only at h1 h2
  rw [hbrk, pageUp_eq (by omega), add64] at h2
  unfold pageSize
  omega

end Sys

theorem Images.sound {is : List Image} (h : Images s base is) :
    RangesSound s (is.map fun i => (i.vaddr, i.size)) := by
  have hbrk := h.brk_lt
  have hsize : ∀ i : Image, i.size ≤ pageSize i.size := fun i => by
    unfold pageSize
    omega
  obtain ⟨-, -, hused⟩ := h.inv.pool_bounds
  refine ⟨fun r hr => ?_, ?_⟩
  · obtain ⟨i, hi, rfl⟩ := List.mem_map.mp hr
    have h1 := hsize i
    obtain ⟨-, h2⟩ := h.tiled.mem hi
    obtain ⟨h3, h4⟩ := h.pool i hi
    refine ⟨by simp only; omega, by simp only; omega, fun x hx hx' => ?_⟩
    simp only at hx hx'
    exact ⟨_, h.maps i hi x hx (by omega), by omega, by omega⟩
  · rw [List.pairwise_map]
    refine h.tiled.pairwise.imp fun {i j} hij x hx => ?_
    have h1 := hsize j
    simp only at hx
    omega

theorem Images.sound_iff {is : List Image} {sizes : List ℕ} (h : Images s base is)
    (hsizes : ∀ size ∈ sizes, size < 2 ^ 64) :
    s.EmodSound sizes (is.map fun i => (i.vaddr, i.size)) ↔ s.BrkFits sizes := by
  induction sizes generalizing s is with
  | nil => exact Iff.rfl
  | cons size sizes ih =>
    have htail := fun z hz => hsizes z (List.mem_cons_of_mem _ hz)
    rw [Sys.EmodSound, Sys.BrkFits]
    refine forall_congr' fun v => forall_congr' fun s' => forall_congr' fun hr => ?_
    constructor
    · rintro ⟨h1, h2⟩
      have hlt := Sys.RangeOk.fits h.aligned h.init_le (hsizes size List.mem_cons_self) hr
        (h1.1 _ List.mem_cons_self)
      obtain ⟨-, ⟨p, h3⟩, -⟩ := h.alloc hlt hr
      exact ⟨hlt, (ih h3 htail).mp h2⟩
    · rintro ⟨hlt, h2⟩
      obtain ⟨-, ⟨p, h3⟩, -⟩ := h.alloc hlt hr
      exact ⟨h3.sound, (ih h3 htail).mpr h2⟩

/-- **Sound ranges.** Whatever sizes the host reports, every call that returns leaves sound ranges
exactly if no call that returns moves the break past the end of the address space. -/
theorem emodRun_sound_iff {sizes : List ℕ} (h : EmodEnv s)
    (hsizes : ∀ size ∈ sizes, size < 2 ^ 64) : s.EmodSound sizes [] ↔ s.BrkFits sizes := by
  have h0 : Images s s.emoduleBrk [] :=
    { h with
      base_le := h.init_le
      tiled := rfl
      maps := fun i hi => absurd hi List.not_mem_nil
      pool := fun i hi => absurd hi List.not_mem_nil
      apart := List.Pairwise.nil }
  exact h0.sound_iff hsizes

/-- A state before the first image. -/
def Sys.emodBoot : Sys := { Sys.smallBoot with emoduleBrk := emodInitBrk }

theorem EmodEnv.boot : EmodEnv Sys.emodBoot where
  inv := Sys.smallBoot_inv.1.of_eq rfl rfl rfl rfl
  aligned := by decide
  init_le := le_refl _
  brk_lt := by decide
  free := fun x _ _ => (Sys.leaf_of_eq rfl rfl x).trans (Sys.smallBoot_inv.2 x)

/-- Three images, of which the second takes several pages. -/
theorem emodRun_sound_first : EmodEnv Sys.emodBoot ∧
    Sys.emodBoot.EmodSound [0x1234, 0x3000, 1] [] ∧
    ∃ v s', Sys.emodBoot.allocMapEmodule 0x1234 = .ok (v, s') := by
  refine ⟨EmodEnv.boot, (emodRun_sound_iff EmodEnv.boot (by simp)).mpr ?_, ?_⟩
  · have hbrk : Sys.emodBoot.emoduleBrk = 0xfffffff000000000 := rfl
    refine fun v s₁ h₁ => ⟨?_, fun v₂ s₂ h₂ => ⟨?_, fun v₃ s₃ h₃ => ⟨?_, trivial⟩⟩⟩
    · rw [hbrk, pageSize]
      norm_num
    · rw [(Sys.allocMapEmodule_brk h₁).2, hbrk]
      decide
    · rw [(Sys.allocMapEmodule_brk h₂).2, (Sys.allocMapEmodule_brk h₁).2, hbrk]
      decide
  · obtain ⟨⟨v, s'⟩, hr⟩ := Option.isSome_iff_exists.mp
      (show (Sys.emodBoot.allocMapEmodule 0x1234).toOption.isSome = true by decide +kernel)
    exact ⟨v, s', Res.eq_ok_of_toOption hr⟩

/-- The host reports a size of `2 ^ 64 - 1`: the call returns a range of which nothing is mapped. -/
theorem allocMapEmodule_wraps : ∃ s', Sys.emodBoot.allocMapEmodule (2 ^ 64 - 1) = .ok (emodInitBrk, s') ∧
    s'.leaf emodInitBrk = none ∧ s'.emoduleBrk = emodInitBrk := by
  have hval : (do
      let (v, s') ← Sys.emodBoot.allocMapEmodule (2 ^ 64 - 1)
      .ok (v, (s'.leaf emodInitBrk).isNone, s'.emoduleBrk) : Res _) =
      .ok (emodInitBrk, true, emodInitBrk) := Res.eq_ok_of_toOption (by decide +kernel)
  obtain ⟨⟨v, s'⟩, hr, hres⟩ := Res.bind_ok hval
  simp only [Except.ok.injEq, Prod.mk.injEq, Option.isNone_iff_eq_none] at hres
  obtain ⟨rfl, h1, h2⟩ := hres
  exact ⟨s', hr, h1, h2⟩

end Coffer
