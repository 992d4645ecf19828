/-
# The two page pools of the manager

`memory/page_pool.c`: a bump allocator over what is left of the partition of
the manager (S mode) and of the partition of the payload (U mode). A request
moves `used_page_count` up and never comes back; the only check is
`expected_number_of_pages * PAGE_SIZE > pool_size`, in `u64` arithmetic.

That check is wrong by a wrap: a count of `2 ^ 52` pages is `0` bytes. A run of
requests hands out disjoint ranges inside the pool exactly when no accepted
request takes the count of used pages to `2 ^ 52` or beyond
(`allocRun_exclusive_iff`); `allocRun_wraps` is one that does.

`Sys` is the state the manager's memory code shares: the physical memory, the
root table, the pools and the two breaks.
-/
import Coffer.Lib.Mem
import Coffer.Memory

namespace Coffer

open Lib

/-- `UMODE_POOL`, `SMODE_POOL`. -/
inductive PoolMode
  | umode
  | smode
deriving DecidableEq, Repr

/-- `pool_desc_t`: `offset` is relative to the start of the partition. -/
structure PoolDesc where
  offset : ℕ
  size : ℕ
  usedPageCount : ℕ
deriving DecidableEq, Repr

/-- The state of the manager's memory code. `tableRoot` is the physical address
of `page_table_root`. -/
structure Sys where
  mem : Mem
  tableRoot : ℕ
  satp : ℕ
  emodManagerPaStart : ℕ
  umodePoolPaAligned : ℕ
  umodePool : PoolDesc
  smodePool : PoolDesc
  emoduleBrk : ℕ
  progBrk : ℕ

namespace Sys

/-! ### `page_pool.c` -/

/-- `get_emod_manager_pa_start`. `satp.ppn` is a 44-bit field, and so is its
shift: C11 gives a bit-field the type of its width. -/
def getEmodManagerPaStart (s : Sys) : ℕ :=
  if s.satp ≠ 0 then partitionDown (s.satp % 2 ^ 44 * 0x1000 % 2 ^ 44) else s.emodManagerPaStart

def getUmodePoolPaAligned (s : Sys) : ℕ := s.umodePoolPaAligned

/-- The descriptor of a pool. -/
def pool (s : Sys) : PoolMode → PoolDesc
  | .umode => s.umodePool
  | .smode => s.smodePool

def getUsedPageCount (s : Sys) (mode : PoolMode) : ℕ := (s.pool mode).usedPageCount

def setUsedPageCount (s : Sys) (count : ℕ) : PoolMode → Sys
  | .umode => { s with umodePool := { s.umodePool with usedPageCount := count } }
  | .smode => { s with smodePool := { s.smodePool with usedPageCount := count } }

def initSmodePagePool (s : Sys) (offset size : ℕ) : Sys :=
  { s with smodePool := ⟨offset, size, 0⟩ }

def initUmodePagePool (s : Sys) (offset size : ℕ) : Sys :=
  { s with umodePool := ⟨offset, size, 0⟩ }

/-- The first byte of a pool. -/
def poolStart (s : Sys) (mode : PoolMode) : ℕ :=
  match mode with
  | .smode => add64 s.getEmodManagerPaStart s.smodePool.offset
  | .umode => add64 s.getUmodePoolPaAligned s.umodePool.offset

def getPoolTop (s : Sys) (mode : PoolMode) : ℕ :=
  add64 (s.poolStart mode) (mul64 0x1000 (s.getUsedPageCount mode))

/-- The test of `alloc_page`: `expected_number_of_pages * PAGE_SIZE > pool_size`. -/
def outOfPages (s : Sys) (numberOfPages : ℕ) (mode : PoolMode) : Prop :=
  (s.pool mode).size < mul64 0x1000 (add64 (s.getUsedPageCount mode) numberOfPages)

instance (s : Sys) (n : ℕ) (mode : PoolMode) : Decidable (s.outOfPages n mode) := by
  unfold outOfPages; infer_instance

def allocPage (s : Sys) (numberOfPages : ℕ) (mode : PoolMode) : Res (ℕ × Sys) :=
  if s.outOfPages numberOfPages mode then .error (.panic "Pool out of pages!\n")
  else .ok (s.getPoolTop mode,
    s.setUsedPageCount (add64 (s.getUsedPageCount mode) numberOfPages) mode)

def allocSmodePage (s : Sys) (n : ℕ) : Res (ℕ × Sys) := s.allocPage n .smode

def allocUmodePage (s : Sys) (n : ℕ) : Res (ℕ × Sys) := s.allocPage n .umode

def getUmodePagePoolAvailSize (s : Sys) : ℕ :=
  sub64 s.umodePool.size (mul64 0x1000 s.umodePool.usedPageCount)

/-! ### What a request changes -/

@[simp] theorem pool_setUsedPageCount (s : Sys) (c : ℕ) (m m' : PoolMode) :
    (s.setUsedPageCount c m).pool m' =
      if m' = m then { s.pool m with usedPageCount := c } else s.pool m' := by
  cases m <;> cases m' <;> rfl

@[simp] theorem poolStart_setUsedPageCount (s : Sys) (c : ℕ) (m m' : PoolMode) :
    (s.setUsedPageCount c m).poolStart m' = s.poolStart m' := by
  cases m <;> cases m' <;> rfl

@[simp] theorem mem_setUsedPageCount (s : Sys) (c : ℕ) (m : PoolMode) :
    (s.setUsedPageCount c m).mem = s.mem := by cases m <;> rfl

@[simp] theorem tableRoot_setUsedPageCount (s : Sys) (c : ℕ) (m : PoolMode) :
    (s.setUsedPageCount c m).tableRoot = s.tableRoot := by cases m <;> rfl

@[simp] theorem smodePool_setUsedPageCount (s : Sys) (c : ℕ) :
    (s.setUsedPageCount c .umode).smodePool = s.smodePool := rfl

theorem allocPage_ok {s s' : Sys} {n p : ℕ} {mode : PoolMode} (h : s.allocPage n mode = .ok (p, s')) :
    ¬ s.outOfPages n mode ∧ p = s.getPoolTop mode ∧
      s' = s.setUsedPageCount (add64 (s.getUsedPageCount mode) n) mode := by
  unfold allocPage at h
  split at h
  · cases h
  · rename_i hp
    simp only [Except.ok.injEq, Prod.mk.injEq] at h
    exact ⟨hp, h.1.symm, h.2.symm⟩

end Sys

/-! ### Runs of requests -/

/-- What a request returned: `count` pages of the pool `mode` at `addr`. -/
structure PageRange where
  mode : PoolMode
  addr : ℕ
  count : ℕ
deriving DecidableEq, Repr

/-- The ranges a sequence of requests returns; a panic ends it. -/
def allocRun (s : Sys) : List (PoolMode × ℕ) → List PageRange
  | [] => []
  | (mode, n) :: rest =>
    match s.allocPage n mode with
    | .error _ => []
    | .ok (p, s') => ⟨mode, p, n⟩ :: allocRun s' rest

/-- The range is `count` whole pages of its pool: it starts `o` bytes into the
pool and ends within it. -/
def PageRange.Inside (s : Sys) (r : PageRange) : Prop :=
  ∃ o, r.addr = add64 (s.poolStart r.mode) o ∧ o + 0x1000 * r.count ≤ (s.pool r.mode).size

/-- No byte is in both ranges. -/
def PageRange.Apart (r r' : PageRange) : Prop :=
  ∀ i < 0x1000 * r.count, ∀ j < 0x1000 * r'.count, add64 r.addr i ≠ add64 r'.addr j

/-- Every range lies inside its pool, and ranges of one pool are disjoint. -/
def PoolExclusive (s : Sys) (rs : List PageRange) : Prop :=
  (∀ r ∈ rs, r.Inside s) ∧ rs.Pairwise fun r r' => r.mode = r'.mode → r.Apart r'

/-- No accepted request takes the used pages of its pool to `2 ^ 52`, where
their size in bytes no longer fits a `u64`. -/
def NoWrap (s : Sys) : List (PoolMode × ℕ) → Prop
  | [] => True
  | (mode, n) :: rest =>
    s.outOfPages n mode ∨ (s.getUsedPageCount mode + n < 2 ^ 52 ∧
      NoWrap (s.setUsedPageCount (add64 (s.getUsedPageCount mode) n) mode) rest)

/-- Without a wrap the test of `alloc_page` is the comparison it stands for. -/
theorem Sys.outOfPages_iff {s : Sys} {n : ℕ} {mode : PoolMode}
    (hw : s.getUsedPageCount mode + n < 2 ^ 52) :
    s.outOfPages n mode ↔ (s.pool mode).size < 0x1000 * (s.getUsedPageCount mode + n) := by
  unfold Sys.outOfPages
  rw [add64_eq (by omega), mul64_eq (by omega)]

/-- What a run keeps: the pools fit in the address space and the used pages in
the pool. -/
structure PoolInv (s : Sys) : Prop where
  size_lt : ∀ m, (s.pool m).size < 2 ^ 64
  used_le : ∀ m, 0x1000 * s.getUsedPageCount m ≤ (s.pool m).size

theorem PoolInv.step {s : Sys} (h : PoolInv s) {n : ℕ} {mode : PoolMode}
    (hp : ¬ s.outOfPages n mode) (hw : s.getUsedPageCount mode + n < 2 ^ 52) :
    PoolInv (s.setUsedPageCount (add64 (s.getUsedPageCount mode) n) mode) := by
  rw [Sys.outOfPages_iff hw] at hp
  rw [add64_eq (by omega)]
  refine ⟨fun m => ?_, fun m => ?_⟩
  · have := h.size_lt m
    by_cases hm : m = mode <;> simp_all
  · have := h.used_le m
    by_cases hm : m = mode <;> simp_all [Sys.getUsedPageCount]

theorem PoolInv.getPoolTop {s : Sys} (h : PoolInv s) (mode : PoolMode) :
    s.getPoolTop mode = add64 (s.poolStart mode) (0x1000 * s.getUsedPageCount mode) := by
  have h1 := h.used_le mode
  have h2 := h.size_lt mode
  unfold Sys.getPoolTop
  rw [mul64_eq (by omega)]

/-- A range that starts at or after the pool's used part. -/
def PageRange.From (s : Sys) (r : PageRange) : Prop :=
  ∃ o, r.addr = add64 (s.poolStart r.mode) o ∧ 0x1000 * s.getUsedPageCount r.mode ≤ o ∧
    o + 0x1000 * r.count ≤ (s.pool r.mode).size

theorem PageRange.From.inside {s : Sys} {r : PageRange} (h : r.From s) : r.Inside s := by
  obtain ⟨o, h1, -, h2⟩ := h
  exact ⟨o, h1, h2⟩

/-- An accepted request without a wrap returns the pages above the used part. -/
theorem PoolInv.from_top {s : Sys} (h : PoolInv s) {n : ℕ} {mode : PoolMode}
    (hp : ¬ s.outOfPages n mode) (hw : s.getUsedPageCount mode + n < 2 ^ 52) :
    PageRange.From s ⟨mode, s.getPoolTop mode, n⟩ := by
  rw [Sys.outOfPages_iff hw] at hp
  exact ⟨_, h.getPoolTop mode, le_refl _, by simp only; omega⟩

/-- What lies above the used part after a request lay `n` pages above it before. -/
theorem PageRange.From.of_set {s : Sys} {r : PageRange} {mode : PoolMode} {n : ℕ}
    (h : r.From (s.setUsedPageCount (s.getUsedPageCount mode + n) mode)) :
    ∃ o, r.addr = add64 (s.poolStart r.mode) o ∧
      0x1000 * (s.getUsedPageCount r.mode + if r.mode = mode then n else 0) ≤ o ∧
      o + 0x1000 * r.count ≤ (s.pool r.mode).size := by
  obtain ⟨o, h1, h2, h3⟩ := h
  refine ⟨o, by simpa using h1, ?_, ?_⟩
  · by_cases hm : r.mode = mode <;> simp_all [Sys.getUsedPageCount]
  · by_cases hm : r.mode = mode <;> simp_all

/-- A non-empty run without a wrap: its first request panics, or it is accepted
and the rest runs on. -/
theorem NoWrap.cases {s : Sys} {mode : PoolMode} {n : ℕ} {rest : List (PoolMode × ℕ)}
    (hw : NoWrap s ((mode, n) :: rest)) :
    allocRun s ((mode, n) :: rest) = [] ∨ (¬ s.outOfPages n mode ∧
      s.getUsedPageCount mode + n < 2 ^ 52 ∧
      NoWrap (s.setUsedPageCount (s.getUsedPageCount mode + n) mode) rest ∧
      allocRun s ((mode, n) :: rest) = ⟨mode, s.getPoolTop mode, n⟩ ::
        allocRun (s.setUsedPageCount (s.getUsedPageCount mode + n) mode) rest) := by
  by_cases hp : s.outOfPages n mode
  · left
    rw [allocRun, Sys.allocPage, if_pos hp]
  · right
    obtain ⟨hlt, hrest⟩ := hw.resolve_left hp
    rw [add64_eq (by omega)] at hrest
    refine ⟨hp, hlt, hrest, ?_⟩
    rw [allocRun, Sys.allocPage, if_neg hp, add64_eq (by omega)]

theorem PoolInv.step' {s : Sys} (h : PoolInv s) {n : ℕ} {mode : PoolMode}
    (hp : ¬ s.outOfPages n mode) (hw : s.getUsedPageCount mode + n < 2 ^ 52) :
    PoolInv (s.setUsedPageCount (s.getUsedPageCount mode + n) mode) := by
  have := h.step hp hw
  rwa [add64_eq (by omega)] at this

theorem allocRun_from : ∀ (reqs : List (PoolMode × ℕ)) (s : Sys), PoolInv s → NoWrap s reqs →
    ∀ r ∈ allocRun s reqs, r.From s
  | [], _, _, _ => by simp [allocRun]
  | (mode, n) :: rest, s, hI, hw => by
    rcases hw.cases with he | ⟨hp, hlt, hrest, he⟩
    · simp [he]
    · rw [he]
      intro r hr
      rcases List.mem_cons.mp hr with rfl | hr
      · exact hI.from_top hp hlt
      · obtain ⟨o, h1, h2, h3⟩ := (allocRun_from rest _ (hI.step' hp hlt) hrest r hr).of_set
        exact ⟨o, h1, by omega, h3⟩

theorem PageRange.apart_of_offsets {b o o' sz : ℕ} {r r' : PageRange} (hr : r.addr = add64 b o)
    (hr' : r'.addr = add64 b o') (h : o + 0x1000 * r.count ≤ o') (h' : o' + 0x1000 * r'.count ≤ sz)
    (hsz : sz < 2 ^ 64) : r.Apart r' := by
  intro i hi j hj
  simp only [hr, hr', add64]
  omega

theorem allocRun_pairwise : ∀ (reqs : List (PoolMode × ℕ)) (s : Sys), PoolInv s → NoWrap s reqs →
    (allocRun s reqs).Pairwise fun r r' => r.mode = r'.mode → r.Apart r'
  | [], _, _, _ => by simp [allocRun]
  | (mode, n) :: rest, s, hI, hw => by
    rcases hw.cases with he | ⟨hp, hlt, hrest, he⟩
    · simp [he]
    · rw [he]
      refine List.Pairwise.cons (fun r hr hm => ?_) (allocRun_pairwise rest _ (hI.step' hp hlt) hrest)
      obtain ⟨o, h1, h2, h3⟩ := (allocRun_from rest _ (hI.step' hp hlt) hrest r hr).of_set
      simp only at hm
      subst hm
      rw [if_pos rfl] at h2
      refine PageRange.apart_of_offsets (hI.getPoolTop r.mode) h1 ?_ h3 (hI.size_lt r.mode)
      simp only
      omega

theorem PageRange.inside_set {s : Sys} {c : ℕ} {m : PoolMode} {r : PageRange} :
    r.Inside (s.setUsedPageCount c m) ↔ r.Inside s := by
  unfold PageRange.Inside
  by_cases hm : r.mode = m <;> simp [hm]

/-- A run that stays inside its pools did not wrap: an accepted request that
does returns more bytes than the pool has left. -/
theorem noWrap_of_inside : ∀ (reqs : List (PoolMode × ℕ)) (s : Sys), PoolInv s →
    (∀ r ∈ allocRun s reqs, r.Inside s) → NoWrap s reqs
  | [], _, _, _ => trivial
  | (mode, n) :: rest, s, hI, hin => by
    by_cases hp : s.outOfPages n mode
    · exact Or.inl hp
    rw [allocRun, Sys.allocPage, if_neg hp] at hin
    have hused := hI.used_le mode
    have hsize := hI.size_lt mode
    have hlt : s.getUsedPageCount mode + n < 2 ^ 52 := by
      obtain ⟨o, ho, ho'⟩ := hin _ List.mem_cons_self
      simp only [hI.getPoolTop, add64] at ho ho'
      -- the range starts at the used part, so past `2 ^ 52` it ends past `2 ^ 64`
      have hoe : o = 0x1000 * s.getUsedPageCount mode := by omega
      omega
    refine Or.inr ⟨hlt, noWrap_of_inside rest _ (hI.step hp hlt) fun r hr => ?_⟩
    exact PageRange.inside_set.mpr (hin r (List.mem_cons_of_mem _ hr))

/-- **The pools are exclusive exactly without a wrap.** From freshly
initialised pools, the ranges that a sequence of requests with arbitrary counts
returns lie inside their pools and are pairwise disjoint if and only if no
accepted request takes the used pages of its pool to `2 ^ 52`. -/
theorem allocRun_exclusive_iff (s s0 : Sys) (offset size offset' size' : ℕ) (hs : size < 2 ^ 64)
    (hs' : size' < 2 ^ 64)
    (h0 : s0 = (s.initSmodePagePool offset size).initUmodePagePool offset' size')
    (reqs : List (PoolMode × ℕ)) : PoolExclusive s0 (allocRun s0 reqs) ↔ NoWrap s0 reqs := by
  have hI : PoolInv s0 := by
    subst h0
    refine ⟨fun m => ?_, fun m => ?_⟩
    · cases m
      · exact hs'
      · exact hs
    · cases m <;> simp [Sys.getUsedPageCount, Sys.pool, Sys.initSmodePagePool,
        Sys.initUmodePagePool]
  constructor
  · intro h
    exact noWrap_of_inside reqs s0 hI h.1
  · intro h
    exact ⟨fun r hr => (allocRun_from reqs s0 hI h r hr).inside, allocRun_pairwise reqs s0 hI h⟩

/-- A manager that has not booted: zero memory, no pools. -/
def Sys.blank : Sys :=
  ⟨fun _ => 0, 0, 0, 0, 0, ⟨0, 0, 0⟩, ⟨0, 0, 0⟩, 0, 0⟩

/-- The equivalence on an S-mode pool of one megabyte and a U-mode pool of one
page, for a run that panics at its third request. -/
theorem allocRun_exclusive_iff_boot :
    PoolExclusive ((Sys.blank.initSmodePagePool 0x80000 0x100000).initUmodePagePool 0x1000 0x1000)
      (allocRun ((Sys.blank.initSmodePagePool 0x80000 0x100000).initUmodePagePool 0x1000 0x1000)
        [(.smode, 16), (.umode, 1), (.umode, 1)]) := by
  rw [allocRun_exclusive_iff Sys.blank _ 0x80000 0x100000 0x1000 0x1000 (by norm_num) (by norm_num) rfl]
  refine Or.inr ⟨by decide, Or.inr ⟨by decide, Or.inl (by decide)⟩⟩

/-- **A wrapped count is accepted.** A request of `2 ^ 52` pages passes the test
of a pool of one megabyte, and the range returned is not inside it. -/
theorem allocRun_wraps :
    ¬ PoolExclusive ((Sys.blank.initSmodePagePool 0x80000 0x100000).initUmodePagePool 0x1000 0x1000)
      (allocRun ((Sys.blank.initSmodePagePool 0x80000 0x100000).initUmodePagePool 0x1000 0x1000)
        [(.smode, 2 ^ 52)]) := by
  intro h
  have hI : PoolInv ((Sys.blank.initSmodePagePool 0x80000 0x100000).initUmodePagePool 0x1000 0x1000) :=
    ⟨fun m => by cases m <;> decide, fun m => by cases m <;> decide⟩
  rcases noWrap_of_inside _ _ hI h.1 with hp | ⟨hlt, -⟩
  · exact absurd hp (by decide)
  · exact absurd hlt (by decide)

end Coffer
