/-
# The curve of the attestation

The constants of `secp256r1`: the prime of the field and the order of the base point are primes, by certificates, and the base
point is on the curve `y ^ 2 = x ^ 3 - 3 * x + b`. So the points of the curve are a group, and numbers below the prime are a
field.

`Holds vli a`: the array holds the remainder `a`. The operations of `Coffer.Attest.Field` and `Coffer.Attest.Modular` are the
operations of the field: this is all that the formulas for points need of them.

Key definitions: `curveB`, `curveG`, `curveN`, `Fp`, `p256`, `Holds`.
Key theorems: `prime_fieldPrime`, `prime_order`, `Holds.modAdd`, `Holds.modSub`, `Holds.modMult`, `Holds.modSquare`,
`Holds.modInv`, `Holds.half`.
-/
import Coffer.Lib.Lucas
import Coffer.Lib.Weierstrass
import Coffer.Attest.Modular

namespace Coffer
namespace Ecc

open Lib Lib.Digits

/-! ### Constants -/

structure EccPoint where
  x : Vli
  y : Vli

def curveB : Vli := [0x3BCE3C3E27D2604B, 0x651D06B0CC53B0F6, 0xB3EBBD55769886BC, 0x5AC635D8AA3A93E7]

def curveG : EccPoint where
  x := [0xF4A13945D898C296, 0x77037D812DEB33A0, 0xF8BCE6E563A440F2, 0x6B17D1F2E12C4247]
  y := [0xCBB6406837BF51F5, 0x2BCE33576B315ECE, 0x8EE7EB4A7C0F9E16, 0x4FE342E2FE1A7F9B]

def curveN : Vli := [0xF3B9CAC2FC632551, 0xBCE6FAADA7179E84, 0xFFFFFFFFFFFFFFFF, 0xFFFFFFFF00000000]

/-- The number in `curve_n`. -/
def orderPrime : ℕ := 0xFFFFFFFF00000000FFFFFFFFFFFFFFFFBCE6FAADA7179E84F3B9CAC2FC632551

theorem val_curveN : val curveN = orderPrime := by decide

/-! ### Primes -/

/-- Small primes. -/
def smallPrimes : List ℕ :=
  [2, 3, 5, 7, 11, 17, 19, 23, 29, 41, 43, 53, 71, 107, 127, 131, 173, 197, 229, 257, 311, 373, 641, 1201, 1297, 1531, 2411, 3023,
   3407, 3677, 3769, 16879, 17449, 18169, 38189, 65537, 78283, 104471, 126241, 155317, 490463, 704251]

theorem prime_small : ∀ q ∈ smallPrimes, q.Prime := by
  simp only [smallPrimes, List.forall_mem_cons, List.not_mem_nil, false_implies, implies_true, and_true]
  norm_num

/-- The certificates up to the prime of the field and up to the order. -/
def certs : List Lucas.Cert :=
  [⟨6700417, 5, [2, 2, 2, 2, 2, 2, 2, 3, 17449]⟩,
   ⟨204061199, 11, [2, 11, 23, 107, 3769]⟩,
   ⟨34282281433, 17, [2, 2, 2, 3, 7, 204061199]⟩,
   ⟨66417393611, 6, [2, 5, 53, 173, 197, 3677]⟩,
   ⟨11290956913871, 13, [2, 5, 17, 66417393611]⟩,
   ⟨46076956964474543, 5, [2, 23, 18169, 78283, 704251]⟩,
   ⟨774023187263532362759620327192479577272145303, 3,
    [2, 3, 3, 2411, 34282281433, 11290956913871, 46076956964474543]⟩,
   ⟨835945042244614951780389953367877943453916927241, 11,
    [2, 2, 2, 3, 3, 3, 5, 774023187263532362759620327192479577272145303]⟩,
   ⟨fieldPrime, 6,
    [2, 3, 5, 5, 17, 257, 641, 1531, 65537, 490463, 6700417, 835945042244614951780389953367877943453916927241]⟩,
   ⟨9350987, 2, [2, 17, 229, 1201]⟩,
   ⟨187019741, 2, [2, 2, 5, 9350987]⟩,
   ⟨311245691, 2, [2, 5, 7, 17, 29, 29, 311]⟩,
   ⟨622491383, 5, [2, 311245691]⟩,
   ⟨3969899, 2, [2, 19, 104471]⟩,
   ⟨1002328039319, 19, [2, 126241, 3969899]⟩,
   ⟨191039911, 3, [2, 3, 5, 41, 155317]⟩,
   ⟨208150935158385979, 2, [2, 3, 11, 43, 127, 3023, 191039911]⟩,
   ⟨2624747550333869278416773953, 7, [2, 2, 2, 2, 2, 2, 3, 3, 1297, 16879, 208150935158385979]⟩,
   ⟨orderPrime, 7,
    [2, 2, 2, 2, 3, 71, 131, 373, 3407, 17449, 38189, 187019741, 622491383, 1002328039319, 2624747550333869278416773953]⟩]

theorem checks_certs : Lucas.checks smallPrimes certs = true := by decide +kernel

theorem prime_fieldPrime : fieldPrime.Prime := Lucas.prime_of_checks prime_small checks_certs _ (by simp [certs])

theorem prime_order : orderPrime.Prime := Lucas.prime_of_checks prime_small checks_certs _ (by simp [certs])

/-! ### The field and the curve -/

/-- The field of the curve. -/
abbrev Fp := ZMod fieldPrime

instance : Fact fieldPrime.Prime := ⟨prime_fieldPrime⟩

/-- The curve. -/
def p256 : WeierstrassCurve.Affine Fp := Weierstrass.curve (val curveB : Fp)

theorem cast_ne_zero {n : ℕ} (h : n % fieldPrime ≠ 0) : (n : Fp) ≠ 0 := fun h0 =>
  h (Nat.mod_eq_zero_of_dvd ((ZMod.natCast_eq_zero_iff ..).mp h0))

theorem two_ne_zero_fp : (2 : Fp) ≠ 0 := by
  have := cast_ne_zero (n := 2) (by decide)
  simpa using this

/-- The curve is smooth, so that every pair that satisfies the equation is a point. -/
theorem p256_nonsingular {x y : Fp} (h : y ^ 2 = x ^ 3 - 3 * x + val curveB) : p256.Nonsingular x y := by
  have hΔ : p256.Δ ≠ 0 := by
    have hb : (27 * (4 * val curveB) ^ 2 + (fieldPrime - 1728) : ℕ) % fieldPrime ≠ 0 := by decide
    have hcast := cast_ne_zero hb
    rw [Nat.cast_add, Nat.cast_sub (by decide)] at hcast
    intro h0
    apply hcast
    simp only [WeierstrassCurve.Δ, WeierstrassCurve.b₂, WeierstrassCurve.b₄, WeierstrassCurve.b₆, WeierstrassCurve.b₈, p256,
      Weierstrass.curve] at h0
    push_cast
    rw [ZMod.natCast_self]
    linear_combination -h0
  exact (WeierstrassCurve.Affine.equation_iff_nonsingular_of_Δ_ne_zero hΔ).mp (Weierstrass.curve_equation.mpr h)

theorem base_nonsingular : p256.Nonsingular (val curveG.x : Fp) (val curveG.y : Fp) := by
  refine p256_nonsingular ?_
  have h : val curveG.y ^ 2 + 3 * val curveG.x ≡ val curveG.x ^ 3 + val curveB [MOD fieldPrime] := by decide
  have hcast := (ZMod.natCast_eq_natCast_iff ..).mpr h
  push_cast at hcast
  linear_combination hcast

/-- The base point. -/
def basePoint : p256.Point := .some _ _ base_nonsingular

/-! ### Numbers that hold field elements -/

/-- The array holds the remainder `a`. -/
structure Holds (vli : Vli) (a : Fp) : Prop where
  isVli : IsVli vli
  lt : val vli < fieldPrime
  cast : (val vli : Fp) = a

namespace Holds

variable {l r : Vli} {a b : Fp}

theorem val_eq (h : Holds l a) : val l = a.val := by
  rw [← h.cast, ZMod.val_natCast, Nat.mod_eq_of_lt h.lt]

/-- A function that computes a remainder. -/
theorem of_mod {n : ℕ} (h : IsVli l) (hval : val l = n % fieldPrime) (hn : (n : Fp) = a) : Holds l a := by
  refine ⟨h, hval ▸ Nat.mod_lt _ (by decide), ?_⟩
  rw [hval, ZMod.natCast_mod, hn]

theorem of_eq (h : Holds l a) (hab : a = b) : Holds l b := hab ▸ h

theorem isZero_iff (h : Holds l a) : vliIsZero l = true ↔ a = 0 := by
  rw [vliIsZero_iff, h.val_eq, ZMod.val_eq_zero]

theorem one : Holds [1, 0, 0, 0] 1 := ⟨rfl, by decide, by simp⟩

theorem zero : Holds vliClear 0 := ⟨rfl, by decide, by rw [vliClear, val_replicate_zero, Nat.cast_zero]⟩

theorem lt_curveP (h : Holds l a) : val l < val curveP := val_curveP ▸ h.lt

theorem modAdd (hl : Holds l a) (hr : Holds r b) : Holds (vliModAdd l r curveP) (a + b) := by
  obtain ⟨hv, hval⟩ := vliModAdd_val hl.isVli hr.isVli Reduced.isVli_curveP hl.lt_curveP hr.lt_curveP
  rw [val_curveP] at hval
  refine of_mod hv hval ?_
  rw [Nat.cast_add, hl.cast, hr.cast]

theorem modSub (hl : Holds l a) (hr : Holds r b) : Holds (vliModSub l r curveP) (a - b) := by
  obtain ⟨hv, hval⟩ := vliModSub_val hl.isVli hr.isVli Reduced.isVli_curveP hl.lt_curveP hr.lt_curveP
  rw [val_curveP] at hval
  refine of_mod hv hval ?_
  rw [Nat.cast_add, Nat.cast_sub hr.lt.le, hl.cast, hr.cast, ZMod.natCast_self]
  ring

theorem modMult (hl : Holds l a) (hr : Holds r b) : Holds (vliModMultFast l r) (a * b) := by
  obtain ⟨hv, hval⟩ := vliModMultFast_val hl.isVli hr.isVli
  refine of_mod hv hval ?_
  rw [Nat.cast_mul, hl.cast, hr.cast]

theorem modSquare (hl : Holds l a) : Holds (vliModSquareFast l) (a ^ 2) := by
  obtain ⟨hv, hval⟩ := vliModSquareFast_val hl.isVli
  refine of_mod hv hval ?_
  rw [Nat.cast_mul, hl.cast, sq]

/-- `0` is mapped to `0`, as in the field. -/
theorem modInv (hl : Holds l a) : Holds (vliModInv l curveP) a⁻¹ := by
  by_cases h0 : val l = 0
  · have ha : a = 0 := by rw [← hl.cast, h0, Nat.cast_zero]
    rw [vliModInv_zero h0, ha, inv_zero]
    exact zero
  · obtain ⟨hv, hlt, hmod⟩ := vliModInv_val hl.isVli Reduced.isVli_curveP (by decide) (by decide) h0
    rw [val_curveP] at hlt hmod
    have hcop : (val l).gcd fieldPrime = 1 :=
      (Nat.coprime_of_lt_prime h0 hl.lt prime_fieldPrime).symm
    rw [hcop] at hmod
    refine ⟨hv, hlt, ?_⟩
    have hcast := (ZMod.natCast_eq_natCast_iff ..).mpr hmod
    rw [Nat.cast_mul, hl.cast, Nat.cast_one] at hcast
    exact eq_inv_of_mul_eq_one_left hcast

/-- Half of a remainder. -/
theorem half (hl : Holds l a) : Holds (modHalf l curveP) (a / 2) := by
  obtain ⟨hv, hlt, hmod⟩ := modHalf_spec hl.isVli Reduced.isVli_curveP hl.lt_curveP (by decide)
  rw [val_curveP] at hlt hmod
  refine ⟨hv, hlt, ?_⟩
  have hcast := (ZMod.natCast_eq_natCast_iff ..).mpr hmod
  rw [Nat.cast_mul, hl.cast] at hcast
  rw [eq_div_iff two_ne_zero_fp, mul_comm]
  exact_mod_cast hcast

end Holds

end Ecc
end Coffer
