/-
# Machine words, page and partition rounding

`u64` values are natural numbers below `2 ^ 64`; every sum, difference and
product of the C code is taken modulo `2 ^ 64` here as there (`add64`, `sub64`,
`mul64`). The rounding macros are those of `include/memory/memory.h`: a page is
`0x1000` bytes, a partition `0x200000`. `ROUNDUP` subtracts one first, so it
wraps at 0 (harmlessly: it returns 0) and above the last multiple (it returns 0
too, `pageUp_wrap`).

The addresses of `emod_manager/config.mk` and `emod_alloc/config.mk` are below
under their names.
-/
import Mathlib.Tactic

namespace Coffer

/-! ### Machine arithmetic -/

/-- `a + b` on `u64`. -/
def add64 (a b : ℕ) : ℕ := (a + b) % 2 ^ 64

/-- `a - b` on `u64`, for `b < 2 ^ 64`. -/
def sub64 (a b : ℕ) : ℕ := (a + (2 ^ 64 - b)) % 2 ^ 64

/-- `a * b` on `u64`. -/
def mul64 (a b : ℕ) : ℕ := (a * b) % 2 ^ 64

theorem add64_lt (a b : ℕ) : add64 a b < 2 ^ 64 := Nat.mod_lt _ (by norm_num)
theorem sub64_lt (a b : ℕ) : sub64 a b < 2 ^ 64 := Nat.mod_lt _ (by norm_num)

theorem add64_eq {a b : ℕ} (h : a + b < 2 ^ 64) : add64 a b = a + b := Nat.mod_eq_of_lt h

theorem sub64_eq {a b : ℕ} (h : b ≤ a) (ha : a < 2 ^ 64) : sub64 a b = a - b := by
  unfold sub64; omega

theorem mul64_eq {a b : ℕ} (h : a * b < 2 ^ 64) : mul64 a b = a * b := Nat.mod_eq_of_lt h

/-! ### Rounding -/

/-- `ROUNDUP(a, b)`: `(((a) - 1) / (b) + 1) * (b)`. -/
def roundup (a b : ℕ) : ℕ := mul64 (sub64 a 1 / b + 1) b

def pageUp (a : ℕ) : ℕ := roundup a 0x1000

/-- `PAGE_DOWN`: `a & ~(PAGE_SIZE - 1)`. -/
def pageDown (a : ℕ) : ℕ := a - a % 0x1000

def partitionUp (a : ℕ) : ℕ := roundup a 0x200000

def partitionDown (a : ℕ) : ℕ := a - a % 0x200000

theorem pageUp_eq {a : ℕ} (h : a ≤ 2 ^ 64 - 0x1000) : pageUp a = (a + 0xfff) / 0x1000 * 0x1000 := by
  unfold pageUp roundup mul64 sub64; omega

theorem partitionUp_eq {a : ℕ} (h : a ≤ 2 ^ 64 - 0x200000) :
    partitionUp a = (a + 0x1fffff) / 0x200000 * 0x200000 := by
  unfold partitionUp roundup mul64 sub64; omega

/-- Without a wrap `PAGE_UP` is the first page boundary at or above. -/
theorem pageUp_spec {a : ℕ} (h : a ≤ 2 ^ 64 - 0x1000) :
    a ≤ pageUp a ∧ pageUp a < a + 0x1000 ∧ pageUp a % 0x1000 = 0 := by
  rw [pageUp_eq h]; omega

/-- Without a wrap `PARTITION_UP` is the first partition boundary at or above. -/
theorem partitionUp_spec {a : ℕ} (h : a ≤ 2 ^ 64 - 0x200000) :
    a ≤ partitionUp a ∧ partitionUp a < a + 0x200000 ∧ partitionUp a % 0x200000 = 0 := by
  rw [partitionUp_eq h]; omega

theorem partitionUp_lt (a : ℕ) : partitionUp a < 2 ^ 64 := Nat.mod_lt _ (by norm_num)

theorem partitionUp_aligned (a : ℕ) : partitionUp a % 0x200000 = 0 := by
  unfold partitionUp roundup mul64
  omega

/-- Enough partitions for `a` bytes. -/
theorem le_partitions {a : ℕ} (h : a ≤ 2 ^ 64 - 0x200000) :
    a ≤ 0x200000 * (partitionUp a / 0x200000) := by
  have := partitionUp_spec h
  omega

/-- Enough pages for `a` bytes. -/
theorem le_pages {a : ℕ} (h : a ≤ 2 ^ 64 - 0x1000) : a ≤ 0x1000 * (pageUp a / 0x1000) := by
  have := pageUp_spec h
  omega

theorem partitionUp_mono {a b : ℕ} (h : a ≤ b) (hb : b ≤ 2 ^ 64 - 0x200000) :
    partitionUp a ≤ partitionUp b := by
  rw [partitionUp_eq hb, partitionUp_eq (by omega)]; omega

/-! ### The address map -/

def emodManagerVaStart : ℕ := 0xffffffe000000000

/-- `EMOD_INIT_BRK`: where emodule images are mapped. -/
def emodInitBrk : ℕ := 0xfffffff000000000

/-- `EUSR_HEAP_START_ALIGNED`: below it the user heap is served from the
U-mode pool, above it from partitions. -/
def eusrHeapStartAligned : ℕ := 0x100000000

/-- `EMOD_MANAGER_LINEAR_START`, `EMOD_MANAGER_LINEAR_SIZE` and
`EMOD_MANAGER_LINEAR_OFFSET`: the physical range the manager maps linearly. -/
def linearMapStart : ℕ := 0x140000000
@[inherit_doc linearMapStart] def linearMapSize : ℕ := 0x340000000
@[inherit_doc linearMapStart] def linearMapOffset : ℕ := 0xffffffc000000000

/-- `POOL_VA_START` of `emod_alloc`: where the S-mode heap begins. -/
@[irreducible] def poolVaStart : ℕ := 0x3000000000

theorem poolVaStart_eq : poolVaStart = 0x3000000000 := by rw [poolVaStart]

/-! ### How a call can fail to return -/

/-- Why a call does not return: `panic` prints a message and spins, an S-mode
page fault ends in the panic of `exception_handler`, and an `ecall` that the
security monitor or the host never answers blocks. -/
inductive Halt
  | panic (msg : String)
  | fault (va : ℕ)
  | noReply
deriving DecidableEq, Repr

/-- The result of a call that may not return. -/
abbrev Res (α : Type) := Except Halt α

@[simp] theorem Res.ok_bind {α β : Type} (a : α) (f : α → Res β) : (Except.ok a : Res α) >>= f = f a :=
  rfl

/-- A call that returned: its first part returned, then the rest. -/
theorem Res.bind_ok {α β : Type} {x : Res α} {f : α → Res β} {b : β} (h : x >>= f = .ok b) :
    ∃ a, x = .ok a ∧ f a = .ok b := by
  cases x with
  | error e => cases h
  | ok a => exact ⟨a, rfl, h⟩

theorem Res.ok_pair {α β ε : Type} {a c : α} {b d : β}
    (h : (.ok (a, b) : Except ε (α × β)) = .ok (c, d)) : a = c ∧ b = d :=
  Prod.mk.inj (Except.ok.inj h)

theorem Res.eq_ok_of_toOption {α : Type} {x : Res α} {a : α} (h : x.toOption = some a) : x = .ok a := by
  cases x with
  | error e => cases h
  | ok b => rw [Option.some.inj h]

theorem Res.exists_ok {α : Type} {x : Res α} (h : x.toOption.isSome = true) : ∃ a, x = .ok a := by
  cases x with
  | error e => cases h
  | ok a => exact ⟨a, rfl⟩

end Coffer
