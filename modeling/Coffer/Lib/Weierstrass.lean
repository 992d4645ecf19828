/-
# Points of a curve with a common denominator

On the curve `y ^ 2 = x ^ 3 - 3 * x + b` over a field, `(X, Y, Z)` with `Z ≠ 0` stands for the point `(X / Z ^ 2, Y / Z ^ 3)`, so
that points can be doubled and added without a division. The formulas below are those of coordinates with a shared `Z`: two
points with the same `Z` are added by their `X` and `Y` alone, and the sum has the old `Z` times the difference of the two `X`.
Where a formula does not hold (a point of order two is doubled, or the two `X` are equal) the new `Z` is zero.

`upTo` is the interleaved sum `u • P + v • Q`: from the highest bits on, the sum so far is doubled and nothing, `P`, `Q` or
`P + Q` is added.

Key definitions: `curve`, `Stands`, `upTo`, `term`, `RegularAt`.
Key theorems: `Stands.double`, `Stands.double_zero`, `Stands.add`, `Stands.eq_iff`, `Stands.affine`, `upTo_succ`.
-/
import Mathlib.Tactic
import Mathlib.Data.Nat.Size
import Mathlib.AlgebraicGeometry.EllipticCurve.Affine.Point

namespace Coffer
namespace Lib
namespace Weierstrass

open WeierstrassCurve.Affine

section Curve

variable {F : Type*} [Field F]

/-- The curve `y ^ 2 = x ^ 3 - 3 * x + b`. -/
def curve (b : F) : WeierstrassCurve.Affine F := ⟨0, 0, 0, -3, b⟩

variable {b X Y Z x y x₁ y₁ x₂ y₂ ℓ : F}

theorem curve_equation : (curve b).Equation x y ↔ y ^ 2 = x ^ 3 - 3 * x + b := by
  rw [equation_iff]
  simp only [curve, zero_mul, add_zero]
  rw [show x ^ 3 + -3 * x + b = x ^ 3 - 3 * x + b by ring]

theorem curve_negY : (curve b).negY x y = -y := by
  simp [negY, curve]

theorem curve_addX : (curve b).addX x₁ x₂ ℓ = ℓ ^ 2 - x₁ - x₂ := by
  simp [addX, curve]

theorem curve_addY : (curve b).addY x₁ x₂ y₁ ℓ = ℓ * (x₁ - (ℓ ^ 2 - x₁ - x₂)) - y₁ := by
  rw [addY, curve_negY, negAddY, curve_addX]
  ring

variable {P : (curve b).Point}

/-- `(X, Y, Z)` stands for the point `(X / Z ^ 2, Y / Z ^ 3)`. -/
structure Stands (X Y Z : F) (P : (curve b).Point) : Prop where
  ne : Z ≠ 0
  point : ∃ x y h, P = .some x y h ∧ X = x * Z ^ 2 ∧ Y = y * Z ^ 3

theorem Stands.ne_zero (h : Stands X Y Z P) : P ≠ 0 := by
  obtain ⟨-, x, y, hns, rfl, -, -⟩ := h
  exact Point.some_ne_zero hns

theorem Stands.of_affine (h : (curve b).Nonsingular x y) : Stands x y 1 (.some x y h) :=
  ⟨one_ne_zero, x, y, h, rfl, by ring, by ring⟩

/-- The two `X` are equal if the points are, up to a sign. -/
theorem Stands.eq_iff {hT : (curve b).Nonsingular x₁ y₁} (h : Stands X Y Z P) :
    X = x₁ * Z ^ 2 ↔ P = .some x₁ y₁ hT ∨ P = -.some x₁ y₁ hT := by
  obtain ⟨hZ, x, y, hns, rfl, rfl, rfl⟩ := h
  rw [← Point.X_eq_iff]
  exact mul_left_inj' (pow_ne_zero 2 hZ)

/-- The point is found with the inverse of `Z`. -/
theorem Stands.affine (h : Stands X Y Z P) : ∃ hP : (curve b).Nonsingular (X * Z⁻¹ ^ 2) (Y * Z⁻¹ ^ 3), P = .some _ _ hP := by
  obtain ⟨hZ, x, y, hns, rfl, rfl, rfl⟩ := h
  have hx : x * Z ^ 2 * Z⁻¹ ^ 2 = x := by
    rw [mul_assoc, ← mul_pow, mul_inv_cancel₀ hZ, one_pow, mul_one]
  have hy : y * Z ^ 3 * Z⁻¹ ^ 3 = y := by
    rw [mul_assoc, ← mul_pow, mul_inv_cancel₀ hZ, one_pow, mul_one]
  refine ⟨by rwa [hx, hy], ?_⟩
  simp only [hx, hy]

variable [DecidableEq F]

/-- **Doubling.** `B` is half of `3 * (X ^ 2 - Z ^ 4)`. -/
theorem Stands.double {B : F} (h2 : (2 : F) ≠ 0) (h : Stands X Y Z P) (hY : Y ≠ 0) (hB : 2 * B = 3 * (X ^ 2 - Z ^ 4)) :
    Stands (B ^ 2 - 2 * (X * Y ^ 2)) (B * (X * Y ^ 2 - (B ^ 2 - 2 * (X * Y ^ 2))) - Y ^ 4) (Y * Z) (P + P) := by
  obtain ⟨hZ, x, y, hns, rfl, rfl, rfl⟩ := h
  have hy : y ≠ 0 := left_ne_zero_of_mul hY
  have hneg : y ≠ (curve b).negY x y := by
    rw [curve_negY]
    intro h
    exact mul_ne_zero h2 hy (by linear_combination h)
  have hℓ : (curve b).slope x x y y * (2 * y) = 3 * x ^ 2 - 3 := by
    have hden : y - -y ≠ 0 := by
      rw [sub_neg_eq_add, ← two_mul]
      exact mul_ne_zero h2 hy
    rw [slope_of_Y_ne rfl hneg, curve_negY, show 2 * y = y - -y by ring, div_mul_cancel₀ _ hden]
    simp only [curve]
    ring
  have hB' : B = (curve b).slope x x y y * y * Z ^ 4 := by
    refine mul_left_cancel₀ h2 ?_
    linear_combination hB - Z ^ 4 * hℓ
  refine ⟨mul_ne_zero hY hZ, _, _, _, Point.add_self_of_Y_ne hneg, ?_, ?_⟩
  · rw [curve_addX, hB']
    ring
  · rw [curve_addY, hB']
    ring

theorem Stands.double_zero (h : Stands X 0 Z P) : P + P = 0 := by
  obtain ⟨hZ, x, y, hns, rfl, -, hY⟩ := h
  have hy : y = 0 := (mul_eq_zero.mp hY.symm).resolve_right (pow_ne_zero 3 hZ)
  refine Point.add_self_of_Y_eq ?_
  rw [curve_negY, hy, neg_zero]

/-- **Addition** of a point with the same `Z`. -/
theorem Stands.add {hT : (curve b).Nonsingular x₁ y₁} (h : Stands X Y Z P) (hne : X ≠ x₁ * Z ^ 2) :
    Stands ((Y - y₁ * Z ^ 3) ^ 2 - x₁ * Z ^ 2 * (X - x₁ * Z ^ 2) ^ 2 - X * (X - x₁ * Z ^ 2) ^ 2)
      ((Y - y₁ * Z ^ 3) * (x₁ * Z ^ 2 * (X - x₁ * Z ^ 2) ^ 2 -
          ((Y - y₁ * Z ^ 3) ^ 2 - x₁ * Z ^ 2 * (X - x₁ * Z ^ 2) ^ 2 - X * (X - x₁ * Z ^ 2) ^ 2)) -
        y₁ * Z ^ 3 * (X * (X - x₁ * Z ^ 2) ^ 2 - x₁ * Z ^ 2 * (X - x₁ * Z ^ 2) ^ 2))
      (Z * (X - x₁ * Z ^ 2)) (.some x₁ y₁ hT + P) := by
  obtain ⟨hZ, x, y, hns, rfl, rfl, rfl⟩ := h
  have hx : x₁ ≠ x := fun he => hne (by rw [he])
  have hdiff : x₁ - x ≠ 0 := sub_ne_zero.mpr hx
  have hℓ : (curve b).slope x₁ x y₁ y * (x₁ - x) = y₁ - y := by
    rw [slope_of_X_ne hx, div_mul_cancel₀ _ hdiff]
  have hy : y = y₁ - (curve b).slope x₁ x y₁ y * (x₁ - x) := by
    linear_combination hℓ
  refine ⟨mul_ne_zero hZ (sub_ne_zero.mpr hne), _, _, _, Point.add_of_X_ne hx, ?_, ?_⟩
  · rw [curve_addX]
    generalize (curve b).slope x₁ x y₁ y = ℓ at hy
    subst hy
    ring
  · rw [curve_addY]
    generalize (curve b).slope x₁ x y₁ y = ℓ at hy
    subst hy
    ring

end Curve

/-! ### Interleaved sums -/

section Group

variable {A : Type*} [AddCommGroup A] (u v : ℕ) (P Q : A)

/-- The sum with the bits from `i` on. -/
def upTo (i : ℕ) : A := (u >>> i) • P + (v >>> i) • Q

/-- What is added for the bits at `i`. -/
def term (i : ℕ) : A := (u.testBit i).toNat • P + (v.testBit i).toNat • Q

theorem shiftRight_split (i : ℕ) : u >>> i = 2 * (u >>> (i + 1)) + (u.testBit i).toNat := by
  have hbit : (u.testBit i).toNat = u >>> i % 2 := by
    rw [Nat.toNat_testBit, Nat.shiftRight_eq_div_pow]
  rw [hbit, Nat.shiftRight_succ]
  omega

/-- **A round of the interleaved sum.** -/
theorem upTo_succ (i : ℕ) : upTo u v P Q i = upTo u v P Q (i + 1) + upTo u v P Q (i + 1) + term u v P Q i := by
  unfold upTo term
  rw [shiftRight_split u i, shiftRight_split v i, add_smul, add_smul, mul_smul, mul_smul, two_smul, two_smul]
  abel

/-- The formulas of the round hold: the sum so far is not doubled to zero, and what is added is not the doubled sum, up to a sign. -/
def RegularAt (i : ℕ) : Prop :=
  upTo u v P Q (i + 1) + upTo u v P Q (i + 1) ≠ 0 ∧
    ((u.testBit i || v.testBit i) = true →
      upTo u v P Q (i + 1) + upTo u v P Q (i + 1) ≠ term u v P Q i ∧
        upTo u v P Q (i + 1) + upTo u v P Q (i + 1) ≠ -term u v P Q i)

theorem term_eq_zero {i : ℕ} (h : (u.testBit i || v.testBit i) = false) : term u v P Q i = 0 := by
  obtain ⟨hu, hv⟩ := Bool.or_eq_false_iff.mp h
  rw [term, hu, hv, Bool.toNat_false, zero_smul, zero_smul, add_zero]

theorem upTo_of_size {i : ℕ} (hu : u.size ≤ i) (hv : v.size ≤ i) : upTo u v P Q i = 0 := by
  rw [upTo, Nat.shiftRight_eq_div_pow, Nat.shiftRight_eq_div_pow, Nat.div_eq_of_lt (Nat.size_le.mp hu),
    Nat.div_eq_of_lt (Nat.size_le.mp hv), zero_smul, zero_smul, add_zero]

end Group

end Weierstrass
end Lib
end Coffer
