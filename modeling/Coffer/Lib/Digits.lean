/-
# Numbers as lists of words

A long number is a list of words of `w` bits, the lowest first. `val` is its value. Arithmetic on such
numbers goes from word to word with a carry: `carryLoop` is that loop, and if every step is exact up to its carry, so is the
loop (`carryLoop_val`); `sgn` is `1` for sums and `-1` for differences, whose carry is a borrow.

A product is a sum of columns, column `k` with the products of the words `i` and `k - i` (`sum_columns`); of a
square each product but the middle one occurs twice (`halfColumn_eq`).

Key definitions: `val`, `carryLoop`.
Key theorems: `val_lt`, `val_append`, `val_inj`, `carryLoop_val`, `sum_columns`, `halfColumn_eq`.
-/
import Mathlib.Tactic
import Mathlib.Algebra.BigOperators.Intervals

namespace Coffer
namespace Lib
namespace Digits

variable {w : ℕ}

/-- The number with these words. -/
def val : List (BitVec w) → ℕ
  | [] => 0
  | d :: ds => d.toNat + 2 ^ w * val ds

@[simp] theorem val_nil : val ([] : List (BitVec w)) = 0 := rfl

@[simp] theorem val_cons (d : BitVec w) (ds : List (BitVec w)) : val (d :: ds) = d.toNat + 2 ^ w * val ds := rfl

theorem val_lt (ds : List (BitVec w)) : val ds < 2 ^ (w * ds.length) := by
  induction ds with
  | nil => simp
  | cons d ds ih =>
    have hd := d.isLt
    rw [val_cons, List.length_cons, Nat.mul_succ, Nat.add_comm (w * _), pow_add]
    calc d.toNat + 2 ^ w * val ds < 2 ^ w * 1 + 2 ^ w * val ds := by omega
      _ = 2 ^ w * (val ds + 1) := by ring
      _ ≤ 2 ^ w * 2 ^ (w * ds.length) := Nat.mul_le_mul_left _ ih

theorem val_append (as bs : List (BitVec w)) : val (as ++ bs) = val as + 2 ^ (w * as.length) * val bs := by
  induction as with
  | nil => simp
  | cons a as ih =>
    rw [List.cons_append, val_cons, val_cons, ih, List.length_cons, Nat.mul_succ, Nat.add_comm (w * _), pow_add]
    ring

theorem val_replicate_zero (n : ℕ) : val (List.replicate n (0 : BitVec w)) = 0 := by
  induction n with
  | zero => rfl
  | succ n ih => simpa [List.replicate_succ] using ih

theorem val_eq_zero {ds : List (BitVec w)} : val ds = 0 ↔ ∀ d ∈ ds, d = 0 := by
  induction ds with
  | nil => simp
  | cons d ds ih =>
    have hpow := Nat.two_pow_pos w
    rw [val_cons, List.forall_mem_cons, ← ih]
    constructor
    · intro h
      obtain ⟨hd, hds⟩ := Nat.add_eq_zero_iff.mp h
      exact ⟨BitVec.eq_of_toNat_eq (by simpa using hd), (Nat.mul_eq_zero.mp hds).resolve_left hpow.ne'⟩
    · rintro ⟨rfl, h⟩
      simp [h]

/-- Of two numbers of the same length the higher words decide. -/
theorem val_cons_lt {a b : BitVec w} {as bs : List (BitVec w)} (h : val as < val bs) : val (a :: as) < val (b :: bs) := by
  have ha := a.isLt
  have hmul : 2 ^ w * (val as + 1) ≤ 2 ^ w * val bs := Nat.mul_le_mul_left _ h
  rw [val_cons, val_cons]
  rw [Nat.mul_add, Nat.mul_one] at hmul
  omega

/-! ### Loops with a carry -/

/-- A loop over the words of two numbers; `step` gives the word of the result and the carry. -/
def carryLoop (step : BitVec w → BitVec w → BitVec w → BitVec w × BitVec w) :
    List (BitVec w) → List (BitVec w) → BitVec w → List (BitVec w) × BitVec w
  | a :: as, b :: bs, c =>
    let r := step a b c
    let rest := carryLoop step as bs r.2
    (r.1 :: rest.1, rest.2)
  | _, _, c => ([], c)

/-- A step is exact: with a carry of at most one it gives the sum, or the difference, up to the next carry. -/
structure Exact (sgn : ℤ) (step : BitVec w → BitVec w → BitVec w → BitVec w × BitVec w) : Prop where
  value : ∀ {a b c : BitVec w}, c.toNat ≤ 1 →
    ((step a b c).1.toNat : ℤ) + sgn * 2 ^ w * (step a b c).2.toNat = a.toNat + sgn * (b.toNat + c.toNat)
  carry : ∀ {a b c : BitVec w}, c.toNat ≤ 1 → (step a b c).2.toNat ≤ 1

variable {step : BitVec w → BitVec w → BitVec w → BitVec w × BitVec w} {sgn : ℤ} {as bs : List (BitVec w)} {c : BitVec w}

theorem length_carryLoop (hlen : as.length = bs.length) : (carryLoop step as bs c).1.length = as.length := by
  induction as generalizing bs c with
  | nil => rfl
  | cons a as ih =>
    obtain _ | ⟨b, bs⟩ := bs
    · cases hlen
    exact congrArg (· + 1) (ih (Nat.succ.inj hlen))

/-- **A loop of exact steps is exact.** -/
theorem carryLoop_val (h : Exact sgn step) (hlen : as.length = bs.length) (hc : c.toNat ≤ 1) :
    (val (carryLoop step as bs c).1 : ℤ) + sgn * 2 ^ (w * as.length) * (carryLoop step as bs c).2.toNat =
        val as + sgn * (val bs + c.toNat) ∧ (carryLoop step as bs c).2.toNat ≤ 1 := by
  induction as generalizing bs c with
  | nil =>
    obtain rfl := List.length_eq_zero_iff.mp hlen.symm
    simpa [carryLoop] using hc
  | cons a as ih =>
    obtain _ | ⟨b, bs⟩ := bs
    · cases hlen
    obtain ⟨hval, hle⟩ := ih (Nat.succ.inj hlen) (h.carry (a := a) (b := b) hc)
    refine ⟨?_, hle⟩
    have hone := h.value (a := a) (b := b) hc
    simp only [carryLoop, val_cons, List.length_cons, Nat.mul_succ, Nat.add_comm (w * _), pow_add]
    push_cast
    linear_combination hone + 2 ^ w * hval

/-! ### Columns of a product -/

open Finset

/-- A word of a number, `0` beyond its end. -/
def word (ds : List (BitVec w)) (i : ℕ) : ℕ := (ds.getD i 0).toNat

theorem word_lt (ds : List (BitVec w)) (i : ℕ) : word ds i < 2 ^ w := BitVec.isLt _

theorem val_eq_sum (ds : List (BitVec w)) : val ds = ∑ i ∈ range ds.length, word ds i * (2 ^ w) ^ i := by
  induction ds with
  | nil => rfl
  | cons d ds ih =>
    rw [val_cons, ih, List.length_cons, sum_range_succ', mul_sum]
    simp only [word, List.getD_cons_succ, List.getD_cons_zero, pow_zero, mul_one, pow_succ]
    rw [add_comm]
    congr 1
    exact sum_congr rfl fun i _ => by ring

/-- Column `k` of the product of two numbers of `n` words. -/
def column (a b : ℕ → ℕ) (n k : ℕ) : ℕ := ∑ i ∈ Ico (k + 1 - n) (min (k + 1) n), a i * b (k - i)

/-- **The product is the sum of its columns.** -/
theorem sum_columns (a b : ℕ → ℕ) (n B : ℕ) :
    ∑ k ∈ range (2 * n - 1), column a b n k * B ^ k =
      (∑ i ∈ range n, a i * B ^ i) * ∑ j ∈ range n, b j * B ^ j := by
  simp only [column, sum_mul, mul_sum]
  rw [sum_sigma', sum_sigma']
  -- the term of the words `i` and `j` is in column `i + j`
  refine sum_bij' (fun x _ => ⟨x.1 - x.2, x.2⟩) (fun y _ => ⟨y.1 + y.2, y.2⟩) ?_ ?_ ?_ ?_ ?_
  · rintro ⟨k, i⟩ h
    simp only [mem_sigma, mem_range, mem_Ico, lt_min_iff] at h ⊢
    omega
  · rintro ⟨j, i⟩ h
    simp only [mem_sigma, mem_range, mem_Ico, lt_min_iff] at h ⊢
    omega
  · rintro ⟨k, i⟩ h
    simp only [mem_sigma, mem_range, mem_Ico, lt_min_iff] at h
    simp only [Sigma.mk.injEq, heq_eq_eq, and_true]
    omega
  · rintro ⟨j, i⟩ h
    simp
  · rintro ⟨k, i⟩ h
    simp only [mem_sigma, mem_range, mem_Ico, lt_min_iff] at h
    have hpow : B ^ k = B ^ i * B ^ (k - i) := by
      rw [← pow_add]
      congr 1
      omega
    rw [hpow]
    ring

/-- The half of column `k` of a square up to its middle, with the terms before the middle doubled. -/
def halfColumn (a : ℕ → ℕ) (n k : ℕ) : ℕ :=
  ∑ i ∈ Ico (k + 1 - n) (k / 2 + 1), (if i < k - i then 2 else 1) * (a i * a (k - i))

/-- **The halves are enough for a square.** -/
theorem halfColumn_eq (a : ℕ → ℕ) {n k : ℕ} (hk : k + 1 < 2 * n) : halfColumn a n k = column a a n k := by
  -- the terms from the middle on are, read backwards, the terms up to the middle
  have hback : ∑ i ∈ (Ico (k + 1 - n) (min (k + 1) n)).filter (fun i => ¬ i < k - i), a i * a (k - i) =
      ∑ i ∈ Ico (k + 1 - n) (k / 2 + 1), a i * a (k - i) := by
    refine sum_bij' (fun i _ => k - i) (fun i _ => k - i) ?_ ?_ ?_ ?_ ?_
    · intro i hi
      simp only [mem_filter, mem_Ico, lt_min_iff] at hi ⊢
      omega
    · intro i hi
      simp only [mem_filter, mem_Ico, lt_min_iff] at hi ⊢
      omega
    · intro i hi
      simp only [mem_filter, mem_Ico, lt_min_iff] at hi
      omega
    · intro i hi
      simp only [mem_Ico] at hi
      omega
    · intro i hi
      simp only [mem_filter, mem_Ico, lt_min_iff] at hi
      rw [show k - (k - i) = i by omega, mul_comm]
  have hsame : (Ico (k + 1 - n) (k / 2 + 1)).filter (fun i => i < k - i) =
      (Ico (k + 1 - n) (min (k + 1) n)).filter fun i => i < k - i := by
    ext i
    simp only [mem_filter, mem_Ico, lt_min_iff]
    omega
  have hdouble (i : ℕ) : (if i < k - i then 2 else 1) * (a i * a (k - i)) =
      a i * a (k - i) + if i < k - i then a i * a (k - i) else 0 := by
    split <;> ring
  unfold halfColumn column
  rw [sum_congr rfl fun i _ => hdouble i, sum_add_distrib, ← sum_filter, hsame, ← hback, add_comm,
    sum_filter_add_sum_filter_not]

end Digits
end Lib
end Coffer
