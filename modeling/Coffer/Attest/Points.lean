/-
# Points as the attestation computes with them

The formulas of `attest/ecc.c` for points, statement by statement, with what they write over on the way. `X1`, `Y1` and `Z1` are a
point with a denominator (`Coffer.Lib.Weierstrass`); `XYcZ_add` adds two points with the same denominator and does not compute
the new one, which its callers do.

On numbers that hold field elements the functions compute the formulas of the library. So a triple that stands for a point is
doubled, and added to a point, as in the group of the curve; where the formulas do not hold, the denominator becomes zero, and
stays zero.

Key definitions: `eccPointDoubleJacobian`, `applyZ`, `xYcZAdd`, `Live`, `Dead`.
Key theorems: `Holds.applyZ`, `doubleJacobian_holds`, `xYcZAdd_holds`, `Live.double`, `Live.add`, `Dead.double`, `Dead.add`.
-/
import Coffer.Attest.Curve

namespace Coffer
namespace Ecc

open Lib Lib.Digits

variable {S : p256.Point} {T : EccPoint} {X Y Z : Fp}

/-! ### The code -/

/-- A point with a denominator. -/
structure EccJacobian where
  x : Vli
  y : Vli
  z : Vli

/-- The lines of `EccPoint_double_jacobian` that halve `X1`. -/
def halfX (X1 : Vli) : Vli :=
  if vliTestBit X1 0 then
    let sum := vliAdd X1 curveP
    orTop (vliRshift1 sum.1) (sum.2 <<< 63)
  else vliRshift1 X1

def eccPointDoubleJacobian (P : EccJacobian) : EccJacobian :=
  if vliIsZero P.z then P
  else
    let X1 := P.x
    let Y1 := P.y
    let Z1 := P.z
    let t4 := vliModSquareFast Y1
    let t5 := vliModMultFast X1 t4
    let t4 := vliModSquareFast t4
    let Y1 := vliModMultFast Y1 Z1
    let Z1 := vliModSquareFast Z1
    let X1 := vliModAdd X1 Z1 curveP
    let Z1 := vliModAdd Z1 Z1 curveP
    let Z1 := vliModSub X1 Z1 curveP
    let X1 := vliModMultFast X1 Z1
    let Z1 := vliModAdd X1 X1 curveP
    let X1 := vliModAdd X1 Z1 curveP
    let X1 := halfX X1
    let Z1 := vliModSquareFast X1
    let Z1 := vliModSub Z1 t5 curveP
    let Z1 := vliModSub Z1 t5 curveP
    let t5 := vliModSub t5 Z1 curveP
    let X1 := vliModMultFast X1 t5
    let t4 := vliModSub X1 t4 curveP
    ⟨Z1, t4, Y1⟩

def applyZ (P : EccPoint) (Z : Vli) : EccPoint :=
  let t1 := vliModSquareFast Z
  let X1 := vliModMultFast P.x t1
  let t1 := vliModMultFast t1 Z
  let Y1 := vliModMultFast P.y t1
  ⟨X1, Y1⟩

/-- `XYcZ_add`: what it leaves of the first point, and the sum. -/
def xYcZAdd (P Q : EccPoint) : EccPoint × EccPoint :=
  let t5 := vliModSub Q.x P.x curveP
  let t5 := vliModSquareFast t5
  let X1 := vliModMultFast P.x t5
  let X2 := vliModMultFast Q.x t5
  let Y2 := vliModSub Q.y P.y curveP
  let t5 := vliModSquareFast Y2
  let t5 := vliModSub t5 X1 curveP
  let t5 := vliModSub t5 X2 curveP
  let X2 := vliModSub X2 X1 curveP
  let Y1 := vliModMultFast P.y X2
  let X2 := vliModSub X1 t5 curveP
  let Y2 := vliModMultFast Y2 X2
  let Y2 := vliModSub Y2 Y1 curveP
  (⟨X1, Y1⟩, ⟨t5, Y2⟩)

/-! ### The formulas -/

theorem halfX_eq {X1 : Vli} (h : IsVli X1) : halfX X1 = modHalf X1 curveP := by
  obtain ⟨hsum, hval, hle⟩ := h.add Reduced.isVli_curveP
  have hbit : vliTestBit X1 0 = !even X1 := by
    simp [vliTestBit, even]
  unfold halfX modHalf
  rw [hbit]
  cases he : even X1 with
  | true => simp
  | false =>
    simp only [Bool.not_false, if_true, Bool.false_eq_true, if_false, ne_eq]
    by_cases hc : (vliAdd X1 curveP).2 = 0
    · rw [if_neg (by simpa using hc), hc]
      exact orTop_zero hsum.rshift1
    · have hone : (vliAdd X1 curveP).2 = 1#64 := by
        refine BitVec.eq_of_toNat_eq ?_
        have := toNat_eq_zero.not.mp hc
        show _ = 1
        omega
      rw [if_pos hc, hone]
      rfl

theorem Holds.applyZ {P : EccPoint} {Z : Vli} {x y z : Fp} (hx : Holds P.x x) (hy : Holds P.y y) (hz : Holds Z z) :
    Holds (applyZ P Z).x (x * z ^ 2) ∧ Holds (applyZ P Z).y (y * z ^ 3) := by
  have h1 := hz.modSquare
  exact ⟨hx.modMult h1, (hy.modMult (h1.modMult hz)).of_eq (by ring)⟩

/-- **`XYcZ_add`** computes the sum of the library. -/
theorem xYcZAdd_holds {P Q : EccPoint} {x₁ y₁ x₂ y₂ : Fp} (h1 : Holds P.x x₁) (h2 : Holds P.y y₁) (h3 : Holds Q.x x₂)
    (h4 : Holds Q.y y₂) :
    (Holds (xYcZAdd P Q).1.x (x₁ * (x₂ - x₁) ^ 2) ∧
      Holds (xYcZAdd P Q).1.y (y₁ * (x₂ * (x₂ - x₁) ^ 2 - x₁ * (x₂ - x₁) ^ 2))) ∧
    Holds (xYcZAdd P Q).2.x ((y₂ - y₁) ^ 2 - x₁ * (x₂ - x₁) ^ 2 - x₂ * (x₂ - x₁) ^ 2) ∧
    Holds (xYcZAdd P Q).2.y ((y₂ - y₁) * (x₁ * (x₂ - x₁) ^ 2 -
        ((y₂ - y₁) ^ 2 - x₁ * (x₂ - x₁) ^ 2 - x₂ * (x₂ - x₁) ^ 2)) -
      y₁ * (x₂ * (x₂ - x₁) ^ 2 - x₁ * (x₂ - x₁) ^ 2)) := by
  have hA := (h3.modSub h1).modSquare
  have hB := h1.modMult hA
  have hC := h3.modMult hA
  have hD := h4.modSub h2
  have hx3 := (hD.modSquare.modSub hB).modSub hC
  have hy1 := h2.modMult (hC.modSub hB)
  simp only [xYcZAdd]
  exact ⟨⟨hB, hy1⟩, hx3, (hD.modMult (hB.modSub hx3)).modSub hy1⟩

/-- The numbers of a triple. -/
structure JacHolds (P : EccJacobian) (X Y Z : Fp) : Prop where
  x : Holds P.x X
  y : Holds P.y Y
  z : Holds P.z Z

theorem JacHolds.of {x y z : Vli} (hx : Holds x X) (hy : Holds y Y) (hz : Holds z Z) :
    JacHolds ⟨x, y, z⟩ X Y Z := ⟨hx, hy, hz⟩

/-- **`EccPoint_double_jacobian`** computes the doubling of the library. -/
theorem doubleJacobian_holds {P : EccJacobian} (h : JacHolds P X Y Z) (hz : Z ≠ 0) :
    ∃ B, 2 * B = 3 * (X ^ 2 - Z ^ 4) ∧
      JacHolds (eccPointDoubleJacobian P) (B ^ 2 - 2 * (X * Y ^ 2))
        (B * (X * Y ^ 2 - (B ^ 2 - 2 * (X * Y ^ 2))) - Y ^ 4) (Y * Z) := by
  have hz' : vliIsZero P.z = false := Bool.eq_false_iff.mpr (h.z.isZero_iff.not.mpr hz)
  have hY2 := h.y.modSquare
  have hA := h.x.modMult hY2
  have hY4 := hY2.modSquare
  have hZ3 := h.y.modMult h.z
  have hZ2 := h.z.modSquare
  have hsum := h.x.modAdd hZ2
  have hdiff := hsum.modSub (hZ2.modAdd hZ2)
  have hprod := hsum.modMult hdiff
  have hthree := hprod.modAdd (hprod.modAdd hprod)
  have hB := hthree.half.of_eq (b := 3 * (X ^ 2 - Z ^ 4) / 2) (by ring)
  rw [← halfX_eq hthree.isVli] at hB
  have hx3 := (hB.modSquare.modSub hA).modSub hA
  have hy3 := (hB.modMult (hA.modSub hx3)).modSub hY4
  simp only [eccPointDoubleJacobian, hz', Bool.false_eq_true, if_false]
  refine ⟨3 * (X ^ 2 - Z ^ 4) / 2, mul_div_cancel₀ _ two_ne_zero_fp, .of (hx3.of_eq ?_) (hy3.of_eq ?_) hZ3⟩
  · ring
  · ring

/-- The lines of `ecdsa_verify` that add a point of its table. -/
def addPoint (P : EccJacobian) (T : EccPoint) : EccJacobian :=
  let t := applyZ T P.z
  let tz := vliModSub P.x t.x curveP
  let s := xYcZAdd t ⟨P.x, P.y⟩
  ⟨s.2.x, s.2.y, vliModMultFast P.z tz⟩

/-! ### Points of the curve -/

/-- The two numbers of a point. -/
structure At (T : EccPoint) (S : p256.Point) : Prop where
  point : ∃ x y h, S = .some x y h ∧ Holds T.x x ∧ Holds T.y y

/-- The triple stands for the point. -/
structure Live (P : EccJacobian) (S : p256.Point) : Prop where
  stands : ∃ X Y Z, JacHolds P X Y Z ∧ Weierstrass.Stands X Y Z S

/-- The denominator is zero. -/
structure Dead (P : EccJacobian) : Prop where
  zero : ∃ X Y, JacHolds P X Y 0

theorem Live.of_at (h : At T S) : Live ⟨T.x, T.y, [1, 0, 0, 0]⟩ S := by
  obtain ⟨x, y, hS, rfl, hx, hy⟩ := h.point
  exact ⟨x, y, 1, ⟨hx, hy, .one⟩, .of_affine hS⟩

/-- **A doubling.** -/
theorem Live.double {P : EccJacobian} (h : Live P S) :
    (S + S ≠ 0 → Live (eccPointDoubleJacobian P) (S + S)) ∧ (S + S = 0 → Dead (eccPointDoubleJacobian P)) := by
  obtain ⟨X, Y, Z, hP, hS⟩ := h.stands
  obtain ⟨B, hB, hD⟩ := doubleJacobian_holds hP hS.ne
  by_cases hY : Y = 0
  · subst hY
    exact ⟨fun hne => absurd hS.double_zero hne, fun _ => ⟨_, _, zero_mul Z ▸ hD⟩⟩
  · have hSS := hS.double two_ne_zero_fp hY hB
    exact ⟨fun _ => ⟨_, _, _, hD, hSS⟩, fun h0 => absurd h0 hSS.ne_zero⟩

theorem Dead.double {P : EccJacobian} (h : Dead P) : Dead (eccPointDoubleJacobian P) := by
  obtain ⟨X, Y, hP⟩ := h.zero
  unfold eccPointDoubleJacobian
  rw [if_pos (hP.z.isZero_iff.mpr rfl)]
  exact ⟨X, Y, hP⟩

theorem addPoint_holds {P : EccJacobian} {x y : Fp} (hP : JacHolds P X Y Z) (hx : Holds T.x x)
    (hy : Holds T.y y) :
    JacHolds (addPoint P T)
      ((Y - y * Z ^ 3) ^ 2 - x * Z ^ 2 * (X - x * Z ^ 2) ^ 2 - X * (X - x * Z ^ 2) ^ 2)
      ((Y - y * Z ^ 3) * (x * Z ^ 2 * (X - x * Z ^ 2) ^ 2 -
          ((Y - y * Z ^ 3) ^ 2 - x * Z ^ 2 * (X - x * Z ^ 2) ^ 2 - X * (X - x * Z ^ 2) ^ 2)) -
        y * Z ^ 3 * (X * (X - x * Z ^ 2) ^ 2 - x * Z ^ 2 * (X - x * Z ^ 2) ^ 2))
      (Z * (X - x * Z ^ 2)) := by
  obtain ⟨htx, hty⟩ := Holds.applyZ hx hy hP.z
  obtain ⟨-, hsx, hsy⟩ := xYcZAdd_holds (Q := ⟨P.x, P.y⟩) htx hty hP.x hP.y
  exact .of hsx hsy (hP.z.modMult (hP.x.modSub htx))

/-- **An addition.** -/
theorem Live.add {P : EccJacobian} {U : p256.Point} (h : Live P S) (hT : At T U) :
    (S ≠ U ∧ S ≠ -U → Live (addPoint P T) (U + S)) ∧ (S = U ∨ S = -U → Dead (addPoint P T)) := by
  obtain ⟨X, Y, Z, hP, hS⟩ := h.stands
  obtain ⟨x, y, hU, rfl, hx, hy⟩ := hT.point
  have hadd := addPoint_holds hP hx hy
  constructor
  · intro hne
    refine ⟨_, _, _, hadd, hS.add fun he => ?_⟩
    exact (hS.eq_iff.mp he).elim hne.1 hne.2
  · intro heq
    have hX : X = x * Z ^ 2 := hS.eq_iff.mpr heq
    have hz : Z * (X - x * Z ^ 2) = 0 := by
      rw [hX, sub_self, mul_zero]
    exact ⟨_, _, hz ▸ hadd⟩

theorem Dead.add {P : EccJacobian} {U : p256.Point} (h : Dead P) (hT : At T U) : Dead (addPoint P T) := by
  obtain ⟨X, Y, hP⟩ := h.zero
  obtain ⟨x, y, -, -, hx, hy⟩ := hT.point
  exact ⟨_, _, zero_mul (X - x * 0 ^ 2) ▸ addPoint_holds hP hx hy⟩

end Ecc
end Coffer
