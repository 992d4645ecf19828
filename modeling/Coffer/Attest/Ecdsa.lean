/-
# The signature of an image

`ecdsa_verify` of `attest/ecc.c`: the public key is found from its `x` and the parity of its `y`, the two numbers of the signature
are checked, and `u1 * G + u2 * Q` is computed from the highest bits down with a table of `G`, `Q` and `G + Q`. The table has
`NULL` for no bits; the first entry that is read is dereferenced without a test, and is never `NULL` because `u2` is not zero.

The formulas for points are not complete. Where one of them does not hold the denominator becomes zero and stays zero, the `x`
that is compared with `r` is zero, and the signature is refused. So the code accepts a signature if it is a signature of the curve
and all rounds are regular (`ecdsaVerify_eq`): it accepts nothing else.

Key definitions: `eccBytes2native`, `modSqrt`, `eccPointDecompress`, `shamirLoop`, `ecdsaVerify`, `IsKey`, `Signs`.
Key theorems: `val_eccBytes2native`, `eccPointDecompress_at`, `shamirLoop_live`, `ecdsaVerify_eq`.
-/
import Coffer.Attest.Points

namespace Coffer
namespace Ecc

open Lib Lib.Digits Lib.Weierstrass

/-! ### The code -/

/-- One digit from eight bytes, the highest first. -/
def digitOfBytes (digit : List UInt8) : BitVec 64 :=
  let byte (k : ℕ) : BitVec 64 := (digit.getD k 0).toBitVec.setWidth 64
  byte 0 <<< 56 ||| byte 1 <<< 48 ||| byte 2 <<< 40 ||| byte 3 <<< 32 ||| byte 4 <<< 24 ||| byte 5 <<< 16 ||| byte 6 <<< 8 ||| byte 7

def eccBytes2native (bytes : List UInt8) : Vli :=
  (List.range numEccDigits).map fun i => digitOfBytes (bytes.drop (8 * (numEccDigits - 1 - i)))

/-- The loop of `mod_sqrt`, with the bits below `i + 2` left. -/
def sqrtLoop (p1 a : Vli) : ℕ → Vli → Vli
  | 0, result => result
  | i + 1, result =>
    let result := vliModSquareFast result
    sqrtLoop p1 a i (if vliTestBit p1 (i + 2) then vliModMultFast result a else result)

def modSqrt (a : Vli) : Vli :=
  let p1 := (vliAdd curveP [1, 0, 0, 0]).1
  sqrtLoop p1 a (vliNumBits p1 - 2) [1, 0, 0, 0]

/-- The root with the parity of the first byte. -/
def withParity (byte : BitVec 64) (y : Vli) : Vli :=
  if y.getD 0 0 &&& 1#64 ≠ byte &&& 1#64 then (vliSub curveP y).1 else y

def eccPointDecompress (compressed : List UInt8) : EccPoint :=
  let x := eccBytes2native (compressed.drop 1)
  let y := vliModSquareFast x
  let y := vliModSub y [3, 0, 0, 0] curveP
  let y := vliModMultFast y x
  let y := vliModAdd y curveB curveP
  let y := modSqrt y
  ⟨x, withParity ((compressed.getD 0 0).toBitVec.setWidth 64) y⟩

/-- The lines that compute `G + Q`. -/
def sumWithBase (lPublic : EccPoint) : EccPoint :=
  let z := vliModSub lPublic.x curveG.x curveP
  let sum := (xYcZAdd curveG lPublic).2
  let z := vliModInv z curveP
  applyZ sum z

/-- The lines that take `rx` modulo `n`. -/
def modOrder (rx : Vli) : Vli := if vliCmp curveN rx ≠ 1 then (vliSub rx curveN).1 else rx

section Table

variable (lPublic sum : EccPoint) (u1 u2 : Vli)

/-- The entry of `l_points` for the bits at `i`. -/
def tablePoint (i : ℕ) : Option EccPoint :=
  if vliTestBit u1 i then some (if vliTestBit u2 i then sum else curveG)
  else if vliTestBit u2 i then some lPublic
  else none

/-- A round of the loop. -/
def shamirRound (i : ℕ) (P : EccJacobian) : EccJacobian :=
  (tablePoint lPublic sum u1 u2 i).elim (eccPointDoubleJacobian P) (addPoint (eccPointDoubleJacobian P))

/-- The loop, with the bits below `i` left. -/
def shamirLoop : ℕ → EccJacobian → EccJacobian
  | 0, P => P
  | i + 1, P => shamirLoop i (shamirRound lPublic sum u1 u2 i P)

/-- `u1 * G + u2 * Q`, and the test of its `x`; `none` if the first entry is `NULL`. -/
def verifySum (r : Vli) : Option Bool :=
  let numBits := max (vliNumBits u1) (vliNumBits u2)
  (tablePoint lPublic sum u1 u2 (numBits - 1)).map fun T =>
    let P := shamirLoop lPublic sum u1 u2 (numBits - 1) ⟨T.x, T.y, [1, 0, 0, 0]⟩
    let z := vliModInv P.z curveP
    let rx := (applyZ ⟨P.x, P.y⟩ z).x
    vliCmp (modOrder rx) r = 0

end Table

def ecdsaVerify (publicKey hash signature : List UInt8) : Option Bool :=
  let lPublic := eccPointDecompress publicKey
  let r := eccBytes2native signature
  let s := eccBytes2native (signature.drop 32)
  if vliIsZero r || vliIsZero s then some false
  else if vliCmp curveN r ≠ 1 ∨ vliCmp curveN s ≠ 1 then some false
  else
    let z := vliModInv s curveN
    let u1 := vliModMult (eccBytes2native hash) z curveN
    let u2 := vliModMult r z curveN
    verifySum lPublic (sumWithBase lPublic) u1 u2 r

/-! ### The public key -/

theorem isVli_bytes (bytes : List UInt8) : IsVli (eccBytes2native bytes) := by
  simp [IsVli, eccBytes2native]

theorem or_byte {a b : BitVec 64} {s : ℕ} (hs : s ≤ 56) (ha : a.toNat % 2 ^ (s + 8) = 0) (hb : b.toNat < 2 ^ 8) :
    (a ||| b <<< s).toNat = a.toNat + b.toNat * 2 ^ s ∧ (a ||| b <<< s).toNat % 2 ^ s = 0 := by
  have hlt : b.toNat * 2 ^ s < 2 ^ (s + 8) := by
    rw [pow_add, mul_comm]
    exact (Nat.mul_lt_mul_left (Nat.two_pow_pos s)).mpr hb
  have hshift : (b <<< s).toNat = b.toNat * 2 ^ s := by
    rw [BitVec.toNat_shiftLeft, Nat.shiftLeft_eq, Nat.mod_eq_of_lt]
    exact hlt.trans_le (Nat.pow_le_pow_right (by decide) (by omega))
  obtain ⟨c, hc⟩ := Nat.dvd_of_mod_eq_zero ha
  have hor : (a ||| b <<< s).toNat = a.toNat + b.toNat * 2 ^ s := by
    rw [BitVec.toNat_or, hshift, hc, Nat.two_pow_add_eq_or_of_lt hlt]
  refine ⟨hor, ?_⟩
  rw [hor, hc, pow_add, mul_assoc, mul_comm b.toNat, ← mul_add]
  exact Nat.mul_mod_right ..

theorem digitOfBytes_toNat (digit : List UInt8) :
    (digitOfBytes digit).toNat = ∑ j ∈ Finset.range 8, (digit.getD j 0).toNat * 2 ^ (8 * (7 - j)) := by
  have hlt (k : ℕ) : ((digit.getD k 0).toBitVec.setWidth 64).toNat = (digit.getD k 0).toNat := by
    have hbyte := (digit.getD k 0).toBitVec.isLt
    rw [BitVec.toNat_setWidth, Nat.mod_eq_of_lt (by omega)]
    rfl
  have hbyte (k : ℕ) : ((digit.getD k 0).toBitVec.setWidth 64).toNat < 2 ^ 8 := by
    rw [hlt]
    exact (digit.getD k 0).toBitVec.isLt
  have h0 : (0#64).toNat % 2 ^ (56 + 8) = 0 := rfl
  obtain ⟨e0, m0⟩ := or_byte (s := 56) (by decide) h0 (hbyte 0)
  obtain ⟨e1, m1⟩ := or_byte (s := 48) (by decide) m0 (hbyte 1)
  obtain ⟨e2, m2⟩ := or_byte (s := 40) (by decide) m1 (hbyte 2)
  obtain ⟨e3, m3⟩ := or_byte (s := 32) (by decide) m2 (hbyte 3)
  obtain ⟨e4, m4⟩ := or_byte (s := 24) (by decide) m3 (hbyte 4)
  obtain ⟨e5, m5⟩ := or_byte (s := 16) (by decide) m4 (hbyte 5)
  obtain ⟨e6, m6⟩ := or_byte (s := 8) (by decide) m5 (hbyte 6)
  obtain ⟨e7, -⟩ := or_byte (s := 0) (by decide) m6 (hbyte 7)
  have hdigit : digitOfBytes digit = 0#64 ||| (digit.getD 0 0).toBitVec.setWidth 64 <<< 56 |||
      (digit.getD 1 0).toBitVec.setWidth 64 <<< 48 ||| (digit.getD 2 0).toBitVec.setWidth 64 <<< 40 |||
      (digit.getD 3 0).toBitVec.setWidth 64 <<< 32 ||| (digit.getD 4 0).toBitVec.setWidth 64 <<< 24 |||
      (digit.getD 5 0).toBitVec.setWidth 64 <<< 16 ||| (digit.getD 6 0).toBitVec.setWidth 64 <<< 8 |||
      (digit.getD 7 0).toBitVec.setWidth 64 <<< 0 := by
    rw [BitVec.zero_or, BitVec.shiftLeft_zero]
    rfl
  rw [hdigit, e7, e6, e5, e4, e3, e2, e1, e0]
  simp only [hlt, Finset.sum_range_succ, Finset.sum_range_zero]
  rfl

/-- The number of 32 bytes, the highest first. -/
def beNumber (bytes : List UInt8) : ℕ := ∑ k ∈ Finset.range 32, (bytes.getD k 0).toNat * 2 ^ (8 * (31 - k))

/-- **`ecc_bytes2native`** reads a number with the highest byte first. -/
theorem val_eccBytes2native (bytes : List UInt8) : val (eccBytes2native bytes) = beNumber bytes := by
  have hget (i j : ℕ) : (bytes.drop i).getD j 0 = bytes.getD (i + j) 0 := by
    simp [List.getD_eq_getElem?_getD, List.getElem?_drop]
  have hlist : eccBytes2native bytes = [digitOfBytes (bytes.drop 24), digitOfBytes (bytes.drop 16),
    digitOfBytes (bytes.drop 8), digitOfBytes (bytes.drop 0)] := rfl
  rw [hlist]
  simp only [val, digitOfBytes_toNat, hget, beNumber, Finset.sum_range_succ, Finset.sum_range_zero]
  ring

/-! ### The public key -/

theorem Holds.three : Holds [3, 0, 0, 0] 3 := ⟨rfl, by decide, by simp [val]⟩

theorem Holds.curveB : Holds curveB (val curveB : Fp) := ⟨rfl, by decide, rfl⟩

theorem pow_split (α : Fp) (k b : ℕ) : α ^ (2 * k + b) = (α ^ k) ^ 2 * α ^ b := by
  rw [pow_add, mul_comm 2, pow_mul]

/-- The loop raises to the power of the bits above the second. -/
theorem sqrtLoop_holds {p1 a result : Vli} {α : Fp} (ha : Holds a α) (i : ℕ)
    (hr : Holds result (α ^ (val p1 >>> (i + 2)))) : Holds (sqrtLoop p1 a i result) (α ^ (val p1 >>> 2)) := by
  induction i generalizing result with
  | zero => exact hr
  | succ i ih =>
    refine ih ?_
    have hsq := hr.modSquare
    rw [vliTestBit_eq, shiftRight_split (val p1) (i + 2)]
    cases hbit : (val p1).testBit (i + 2) with
    | false =>
      rw [if_neg (by simp)]
      exact hsq.of_eq (by rw [pow_split, Bool.toNat_false, pow_zero, mul_one])
    | true =>
      rw [if_pos rfl]
      exact (hsq.modMult ha).of_eq (by rw [pow_split, Bool.toNat_true, pow_one])

theorem modSqrt_holds {a : Vli} {y : Fp} (ha : Holds a (y ^ 2)) : Holds (modSqrt a) y ∨ Holds (modSqrt a) (-y) := by
  have hp1 : val (vliAdd curveP [1, 0, 0, 0]).1 = fieldPrime + 1 := by decide
  have hbits : vliNumBits (vliAdd curveP [1, 0, 0, 0]).1 - 2 = 254 := by decide
  have hloop : Holds (modSqrt a) ((y ^ 2) ^ ((fieldPrime + 1) >>> 2)) := by
    simp only [modSqrt, hbits]
    rw [← hp1]
    refine sqrtLoop_holds ha 254 (Holds.one.of_eq ?_)
    rw [hp1, show (fieldPrime + 1) >>> (254 + 2) = 0 by decide, pow_zero]
  -- the square of the result is `y ^ (p + 1)`
  have hsq : ((y ^ 2) ^ ((fieldPrime + 1) >>> 2)) ^ 2 = y ^ 2 := by
    rw [← pow_mul, ← pow_mul, show 2 * ((fieldPrime + 1) >>> 2 * 2) = fieldPrime + 1 by decide, pow_succ, ZMod.pow_card, sq]
  rcases sq_eq_sq_iff_eq_or_eq_neg.mp hsq with h | h
  · exact .inl (h ▸ hloop)
  · exact .inr (h ▸ hloop)

/-- `Q` is the point of a compressed key. -/
structure IsKey (publicKey : List UInt8) (Q : p256.Point) : Prop where
  point : ∃ x y h, Q = .some x y h ∧ beNumber (publicKey.drop 1) = x.val ∧
    y.val % 2 = (publicKey.getD 0 0).toNat % 2 ∧ y ≠ 0

theorem and_one_eq_iff {a b : BitVec 64} : a &&& 1#64 = b &&& 1#64 ↔ a.toNat % 2 = b.toNat % 2 := by
  rw [← BitVec.toNat_inj, BitVec.toNat_and, BitVec.toNat_and]
  show a.toNat &&& 1 = b.toNat &&& 1 ↔ _
  rw [Nat.and_one_is_mod, Nat.and_one_is_mod]

theorem getD_zero_mod {vli : Vli} (h : IsVli vli) : (vli.getD 0 0).toNat % 2 = val vli % 2 := by
  obtain ⟨d0, d1, d2, d3, rfl⟩ := exists_four h
  simp only [List.getD_cons_zero, val_cons]
  omega

theorem val_neg_mod {y : Fp} (hy : y ≠ 0) : (-y).val % 2 ≠ y.val % 2 ∧ (-y).val + y.val = fieldPrime := by
  have hneg : (-y).val = fieldPrime - y.val := by rw [ZMod.neg_val, if_neg hy]
  have hlt := ZMod.val_lt y
  have hodd : fieldPrime % 2 = 1 := by decide
  omega

theorem withParity_holds {root : Vli} {y : Fp} {byte : BitVec 64} (hy : y ≠ 0) (hbyte : byte.toNat % 2 = y.val % 2)
    (hroot : Holds root y ∨ Holds root (-y)) : Holds (withParity byte root) y := by
  unfold withParity
  rcases hroot with hroot | hroot
  · have hsame : root.getD 0 0 &&& 1#64 = byte &&& 1#64 := by
      rw [and_one_eq_iff, getD_zero_mod hroot.isVli, hbyte, hroot.val_eq]
    rw [if_neg (not_not.mpr hsame)]
    exact hroot
  · obtain ⟨hne, hsum⟩ := val_neg_mod hy
    have hother : root.getD 0 0 &&& 1#64 ≠ byte &&& 1#64 := by
      rwa [Ne, and_one_eq_iff, getD_zero_mod hroot.isVli, hbyte, hroot.val_eq]
    rw [if_pos hother]
    obtain ⟨hv, hval, hle⟩ := Reduced.isVli_curveP.sub hroot.isVli
    rw [hroot.val_eq, val_curveP] at hval
    have hlt := hv.lt
    have hylt := ZMod.val_lt y
    have hres : val (vliSub curveP root).1 = y.val := by omega
    refine ⟨hv, hres ▸ hylt, ?_⟩
    rw [hres, ZMod.natCast_zmod_val]

theorem At.of {x y : Vli} {a b : Fp} (h : p256.Nonsingular a b) (hx : Holds x a) (hy : Holds y b) : At ⟨x, y⟩ (.some a b h) :=
  ⟨a, b, h, rfl, hx, hy⟩

/-- **`ecc_point_decompress`** finds the point of a key. -/
theorem eccPointDecompress_at {publicKey : List UInt8} {Q : p256.Point} (h : IsKey publicKey Q) :
    At (eccPointDecompress publicKey) Q := by
  obtain ⟨x, y, hns, rfl, hx, hpar, hy0⟩ := h.point
  rw [← val_eccBytes2native] at hx
  have hX : Holds (eccBytes2native (publicKey.drop 1)) x := by
    refine ⟨isVli_bytes _, hx ▸ ZMod.val_lt x, ?_⟩
    rw [hx, ZMod.natCast_zmod_val]
  have hcurve : y ^ 2 = x ^ 3 - 3 * x + val curveB := curve_equation.mp hns.1
  have hY := (((hX.modSquare.modSub .three).modMult hX).modAdd .curveB).of_eq (b := y ^ 2) (by rw [hcurve]; ring)
  have hbyte : ((publicKey.getD 0 0).toBitVec.setWidth 64).toNat % 2 = y.val % 2 := by
    have hlt := (publicKey.getD 0 0).toBitVec.isLt
    rw [hpar, BitVec.toNat_setWidth, Nat.mod_eq_of_lt (show (publicKey.getD 0 0).toBitVec.toNat < 2 ^ 64 by omega)]
    rfl
  simp only [eccPointDecompress]
  exact .of hns hX (withParity_holds hy0 hbyte (modSqrt_holds hY))

/-! ### The rounds -/

theorem curveG_at : At curveG basePoint := ⟨_, _, base_nonsingular, rfl, ⟨rfl, by decide, rfl⟩, ⟨rfl, by decide, rfl⟩⟩

theorem At.applyZ {P : EccPoint} {Z : Vli} {S : p256.Point} {a b c : Fp} (hx : Holds P.x a) (hy : Holds P.y b)
    (hz : Holds Z c) (h : Stands a b c S) : At (applyZ P (vliModInv Z curveP)) S := by
  obtain ⟨hS, rfl⟩ := h.affine
  obtain ⟨h1, h2⟩ := Holds.applyZ hx hy hz.modInv
  exact ⟨_, _, hS, rfl, h1, h2⟩

/-- The sum of two points without denominators. -/
theorem At.add {P T : EccPoint} {S U : p256.Point} (hP : At P S) (hT : At T U) (hne : S ≠ U ∧ S ≠ -U) :
    At (Ecc.applyZ (xYcZAdd T P).2 (vliModInv (vliModSub P.x T.x curveP) curveP)) (U + S) := by
  obtain ⟨x, y, hS, rfl, hx, hy⟩ := hP.point
  obtain ⟨x₁, y₁, hU, rfl, hx₁, hy₁⟩ := hT.point
  obtain ⟨-, hx3, hy3⟩ := xYcZAdd_holds hx₁ hy₁ hx hy
  have hstand : Stands x y 1 (.some x y hS) := .of_affine hS
  have hX : x ≠ x₁ * 1 ^ 2 := fun he => (hstand.eq_iff.mp he).elim hne.1 hne.2
  refine .applyZ (hx3.of_eq ?_) (hy3.of_eq ?_) ((hx.modSub hx₁).of_eq ?_) (hstand.add hX)
  · ring
  · ring
  · ring

theorem sumWithBase_at {lPublic : EccPoint} {Q : p256.Point} (hQ : At lPublic Q) (hne : Q ≠ basePoint ∧ Q ≠ -basePoint) :
    At (sumWithBase lPublic) (basePoint + Q) := hQ.add curveG_at hne

section Table

variable {lPublic sum : EccPoint} {u1 u2 : Vli} {Q : p256.Point}

/-- An entry of the table is what the round adds. -/
theorem tablePoint_eq (u1 u2 : Vli) (hQ : At lPublic Q) (hsum : At sum (basePoint + Q)) (i : ℕ) :
    (((val u1).testBit i || (val u2).testBit i) = false ∧ tablePoint lPublic sum u1 u2 i = none) ∨
      (((val u1).testBit i || (val u2).testBit i) = true ∧
        ∃ T, tablePoint lPublic sum u1 u2 i = some T ∧ At T (term (val u1) (val u2) basePoint Q i)) := by
  unfold tablePoint term
  rw [vliTestBit_eq, vliTestBit_eq]
  cases (val u1).testBit i <;> cases (val u2).testBit i
  · exact .inl ⟨rfl, rfl⟩
  · refine .inr ⟨rfl, lPublic, rfl, ?_⟩
    rwa [Bool.toNat_false, Bool.toNat_true, zero_nsmul, one_nsmul, zero_add]
  · refine .inr ⟨rfl, curveG, rfl, ?_⟩
    rw [Bool.toNat_false, Bool.toNat_true, zero_nsmul, one_nsmul, add_zero]
    exact curveG_at
  · refine .inr ⟨rfl, sum, rfl, ?_⟩
    rwa [Bool.toNat_true, one_nsmul, one_nsmul]

theorem shamirRound_dead (hQ : At lPublic Q) (hsum : At sum (basePoint + Q)) {P : EccJacobian} (h : Dead P) (i : ℕ) :
    Dead (shamirRound lPublic sum u1 u2 i P) := by
  unfold shamirRound
  rcases tablePoint_eq u1 u2 hQ hsum i with ⟨-, hT⟩ | ⟨-, T, hT, hat⟩
  · rw [hT]
    exact h.double
  · rw [hT]
    exact h.double.add hat

/-- **A round** that is regular computes the next sum; after one that is not the denominator is zero. -/
theorem shamirRound_live (hQ : At lPublic Q) (hsum : At sum (basePoint + Q)) {P : EccJacobian} {i : ℕ}
    (h : Live P (upTo (val u1) (val u2) basePoint Q (i + 1))) :
    (RegularAt (val u1) (val u2) basePoint Q i →
      Live (shamirRound lPublic sum u1 u2 i P) (upTo (val u1) (val u2) basePoint Q i)) ∧
    (¬RegularAt (val u1) (val u2) basePoint Q i → Dead (shamirRound lPublic sum u1 u2 i P)) := by
  unfold shamirRound RegularAt
  rw [upTo_succ (val u1) (val u2) basePoint Q i]
  generalize upTo (val u1) (val u2) basePoint Q (i + 1) = S at h ⊢
  obtain ⟨hlive, hdead⟩ := h.double
  rcases tablePoint_eq u1 u2 hQ hsum i with ⟨hbits, hT⟩ | ⟨hbits, T, hT, hat⟩
  · rw [hT, term_eq_zero _ _ _ _ hbits, add_zero, hbits]
    simp only [Bool.false_eq_true, false_imp_iff, and_true, not_not]
    exact ⟨hlive, hdead⟩
  · rw [hT, hbits]
    generalize term (val u1) (val u2) basePoint Q i = U at hat ⊢
    simp only [true_imp_iff]
    by_cases h0 : S + S = 0
    · exact ⟨fun hr => absurd h0 hr.1, fun _ => (hdead h0).add hat⟩
    · obtain ⟨hadd, hsame⟩ := (hlive h0).add hat
      refine ⟨fun hr => add_comm U (S + S) ▸ hadd hr.2, fun hr => hsame ?_⟩
      by_contra hc
      exact hr ⟨h0, not_or.mp hc⟩

/-- **The loop.** -/
theorem shamirLoop_dead (hQ : At lPublic Q) (hsum : At sum (basePoint + Q)) {P : EccJacobian} (h : Dead P) (i : ℕ) :
    Dead (shamirLoop lPublic sum u1 u2 i P) := by
  induction i generalizing P with
  | zero => exact h
  | succ i ih => exact ih (shamirRound_dead hQ hsum h i)

/-- **The loop** computes `u1 * G + u2 * Q` if all its rounds are regular. -/
theorem shamirLoop_live (hQ : At lPublic Q) (hsum : At sum (basePoint + Q)) {P : EccJacobian} {i : ℕ}
    (h : Live P (upTo (val u1) (val u2) basePoint Q i)) :
    ((∀ j < i, RegularAt (val u1) (val u2) basePoint Q j) →
      Live (shamirLoop lPublic sum u1 u2 i P) (val u1 • basePoint + val u2 • Q)) ∧
    ((¬∀ j < i, RegularAt (val u1) (val u2) basePoint Q j) → Dead (shamirLoop lPublic sum u1 u2 i P)) := by
  induction i generalizing P with
  | zero => exact ⟨fun _ => h, fun hr => absurd (fun j hj => absurd hj (Nat.not_lt_zero j)) hr⟩
  | succ i ih =>
    obtain ⟨hlive, hdead⟩ := shamirRound_live hQ hsum h
    by_cases hi : RegularAt (val u1) (val u2) basePoint Q i
    · obtain ⟨ihlive, ihdead⟩ := ih (hlive hi)
      refine ⟨fun hr => ihlive fun j hj => hr j (Nat.lt_succ_of_lt hj), fun hr => ihdead fun hc => hr fun j hj => ?_⟩
      rcases Nat.lt_succ_iff_lt_or_eq.mp hj with hj | rfl
      · exact hc j hj
      · exact hi
    · exact ⟨fun hr => absurd (hr i (Nat.lt_succ_self i)) hi, fun _ => shamirLoop_dead hQ hsum (hdead hi) i⟩

/-- The first entry is not `NULL`, and is the sum of the highest bits. -/
theorem tablePoint_top (u1 : Vli) (hQ : At lPublic Q) (hsum : At sum (basePoint + Q)) (hu2 : val u2 ≠ 0) :
    ∃ T, tablePoint lPublic sum u1 u2 (max (val u1).size (val u2).size - 1) = some T ∧
      At T (upTo (val u1) (val u2) basePoint Q (max (val u1).size (val u2).size - 1)) := by
  have hpos : 0 < (val u2).size := Nat.size_pos.mpr (Nat.pos_of_ne_zero hu2)
  obtain ⟨top, htop⟩ : ∃ top, max (val u1).size (val u2).size = top + 1 :=
    ⟨max (val u1).size (val u2).size - 1, by omega⟩
  have h1 : (val u1).size ≤ top + 1 := by omega
  have h2 : (val u2).size ≤ top + 1 := by omega
  rw [htop, Nat.add_sub_cancel, upTo_succ, upTo_of_size _ _ _ _ h1 h2, add_zero, zero_add]
  rcases tablePoint_eq u1 u2 hQ hsum top with ⟨hbits, -⟩ | ⟨-, T, hT, hat⟩
  · obtain ⟨hb1, hb2⟩ := Bool.or_eq_false_iff.mp hbits
    have hsmall {u : ℕ} (hu : u.size ≤ top + 1) (hb : u.testBit top = false) : u.size ≤ top := by
      have hshift := shiftRight_split u top
      rw [hb, Nat.shiftRight_eq_div_pow, Nat.shiftRight_eq_div_pow, Nat.div_eq_of_lt (Nat.size_le.mp hu)] at hshift
      exact Nat.size_le.mpr ((Nat.div_eq_zero_iff.mp hshift).resolve_left (pow_ne_zero _ two_ne_zero))
    have := hsmall h1 hb1
    have := hsmall h2 hb2
    omega
  · exact ⟨T, hT, hat⟩

theorem modOrder_val {rx : Vli} {x : Fp} (h : Holds rx x) : IsVli (modOrder rx) ∧ val (modOrder rx) = x.val % orderPrime := by
  have hn : IsVli curveN := rfl
  have hp : fieldPrime < 2 * orderPrime := by decide
  have hlt := h.lt
  rw [← h.val_eq]
  unfold modOrder
  by_cases hc : val rx < orderPrime
  · rw [if_neg (not_not.mpr ((cmp_eq_one hn h.isVli).mpr (val_curveN ▸ hc))), Nat.mod_eq_of_lt hc]
    exact ⟨h.isVli, rfl⟩
  · rw [if_pos (fun h1 => hc (val_curveN ▸ (cmp_eq_one hn h.isVli).mp h1))]
    obtain ⟨hv, hval, hle⟩ := h.isVli.sub hn
    have hvlt := hv.lt
    have hrlt := h.isVli.lt
    rw [val_curveN] at hval
    have hmod : val rx % orderPrime = val rx - orderPrime := by
      rw [Nat.mod_eq_sub_mod (by omega), Nat.mod_eq_of_lt (by omega)]
    exact ⟨hv, by omega⟩

theorem cmp_eq_zero {l r : Vli} (hl : IsVli l) (hr : IsVli r) : vliCmp l r = 0 ↔ val l = val r := by
  rw [hl.cmp hr, Int.sign_eq_zero_iff_zero]
  omega

/-- **The sum and its test.** -/
theorem verifySum_eq (u1 : Vli) (hQ : At lPublic Q) (hsum : At sum (basePoint + Q)) (hu2 : val u2 ≠ 0) {r : Vli} (hr : IsVli r)
    (hr0 : val r ≠ 0) : ∃ b, verifySum lPublic sum u1 u2 r = some b ∧
      (b = true ↔ (∀ j < max (val u1).size (val u2).size - 1, RegularAt (val u1) (val u2) basePoint Q j) ∧
        ∃ x y h, val u1 • basePoint + val u2 • Q = .some x y h ∧ x.val % orderPrime = val r) := by
  obtain ⟨T, hT, hat⟩ := tablePoint_top u1 hQ hsum hu2
  obtain ⟨hlive, hdead⟩ := shamirLoop_live hQ hsum (Live.of_at hat)
  unfold verifySum
  simp only [vliNumBits_eq, hT, Option.map_some]
  refine ⟨_, rfl, ?_⟩
  rw [decide_eq_true_iff]
  generalize shamirLoop _ _ _ _ _ _ = P at hlive hdead ⊢
  by_cases hreg : ∀ j < max (val u1).size (val u2).size - 1, RegularAt (val u1) (val u2) basePoint Q j
  · obtain ⟨X, Y, Z, hP, hS⟩ := (hlive hreg).stands
    obtain ⟨x, y, hns, hpoint, hx, -⟩ := (At.applyZ (P := ⟨P.x, P.y⟩) hP.x hP.y hP.z hS).point
    obtain ⟨hv, hval⟩ := modOrder_val hx
    rw [cmp_eq_zero hv hr, hval, hpoint]
    refine ⟨fun he => ⟨hreg, x, y, hns, rfl, he⟩, ?_⟩
    rintro ⟨-, x', y', hns', heq, he⟩
    obtain ⟨rfl, -⟩ := WeierstrassCurve.Affine.Point.some.inj heq
    exact he
  · obtain ⟨X, Y, hP⟩ := (hdead hreg).zero
    obtain ⟨hx, -⟩ := Holds.applyZ (P := ⟨P.x, P.y⟩) hP.x hP.y hP.z.modInv
    obtain ⟨hv, hval⟩ := modOrder_val hx
    rw [inv_zero, zero_pow two_ne_zero, mul_zero, ZMod.val_zero, Nat.zero_mod] at hval
    rw [cmp_eq_zero hv hr, hval]
    exact ⟨fun h0 => absurd h0.symm hr0, fun h => absurd h.1 hreg⟩

end Table

/-! ### Signatures -/

/-- The remainders modulo the order. -/
abbrev Fn := ZMod orderPrime

instance : Fact orderPrime.Prime := ⟨prime_order⟩

/-- `a / s` modulo the order. -/
def scalar (a s : ℕ) : ℕ := ((a : Fn) * (s : Fn)⁻¹).val

/-- `r` and `s` are a signature of the number `e` for the public key `Q`. -/
structure Signs (Q : p256.Point) (e r s : ℕ) : Prop where
  r_pos : 0 < r
  r_lt : r < orderPrime
  s_pos : 0 < s
  s_lt : s < orderPrime
  point : ∃ x y h, scalar e s • basePoint + scalar r s • Q = .some x y h ∧ x.val % orderPrime = r

/-- Every round of the sum is regular. -/
def RegularSum (Q : p256.Point) (u v : ℕ) : Prop := ∀ j < max u.size v.size - 1, RegularAt u v basePoint Q j

theorem cast_order_ne_zero {a : ℕ} (h0 : a ≠ 0) (hlt : a < orderPrime) : (a : Fn) ≠ 0 := by
  intro h
  exact h0 (Nat.eq_zero_of_dvd_of_lt ((ZMod.natCast_eq_zero_iff ..).mp h) hlt)

theorem vliModMult_scalar {a s : Vli} (ha : IsVli a) (hs : IsVli s) (h0 : val s ≠ 0) (hlt : val s < orderPrime) :
    val (vliModMult a (vliModInv s curveN) curveN) = scalar (val a) (val s) := by
  have hn : IsVli curveN := rfl
  obtain ⟨hv, -, hinv⟩ := vliModInv_val hs hn (by decide) (by decide) h0
  obtain ⟨-, hval⟩ := vliModMult_val ha hv hn (by decide)
  rw [val_curveN] at hinv hval
  have hcop : (val s).gcd orderPrime = 1 := (Nat.coprime_of_lt_prime h0 hlt prime_order).symm
  rw [hcop] at hinv
  have hcast := (ZMod.natCast_eq_natCast_iff ..).mpr hinv
  rw [Nat.cast_mul, Nat.cast_one] at hcast
  rw [hval, scalar, ← eq_inv_of_mul_eq_one_left hcast, ← Nat.cast_mul, ZMod.val_natCast]

theorem scalar_ne_zero {r s : ℕ} (hr : r ≠ 0) (hr' : r < orderPrime) (hs : s ≠ 0) (hs' : s < orderPrime) : scalar r s ≠ 0 := by
  rw [scalar, Ne, ZMod.val_eq_zero]
  exact mul_ne_zero (cast_order_ne_zero hr hr') (inv_ne_zero (cast_order_ne_zero hs hs'))

/-- **`ecdsa_verify`** returns, and accepts what is a signature for the key and is computed by regular rounds. -/
theorem ecdsaVerify_eq {publicKey : List UInt8} {Q : p256.Point} (hQ : IsKey publicKey Q)
    (hne : Q ≠ basePoint ∧ Q ≠ -basePoint) (hash signature : List UInt8) :
    ∃ b, ecdsaVerify publicKey hash signature = some b ∧
      (b = true ↔ Signs Q (beNumber hash) (beNumber signature) (beNumber (signature.drop 32)) ∧
        RegularSum Q (scalar (beNumber hash) (beNumber (signature.drop 32)))
          (scalar (beNumber signature) (beNumber (signature.drop 32)))) := by
  have hpub := eccPointDecompress_at hQ
  have hn : IsVli curveN := rfl
  have he := isVli_bytes hash
  have hr := isVli_bytes signature
  have hs := isVli_bytes (signature.drop 32)
  unfold ecdsaVerify
  simp only [← val_eccBytes2native]
  generalize eccBytes2native hash = e at he ⊢
  generalize eccBytes2native signature = r at hr ⊢
  generalize eccBytes2native (signature.drop 32) = s at hs ⊢
  by_cases h0 : val r = 0 ∨ val s = 0
  · rw [if_pos (by simpa [vliIsZero_iff] using h0)]
    refine ⟨false, rfl, by simp, fun h => ?_⟩
    have := h.1.r_pos
    have := h.1.s_pos
    omega
  rw [if_neg (by simpa [vliIsZero_iff] using h0)]
  obtain ⟨hr0, hs0⟩ := not_or.mp h0
  by_cases hlt : val r < orderPrime ∧ val s < orderPrime
  · rw [if_neg (by rw [Ne, Ne, cmp_eq_one hn hr, cmp_eq_one hn hs, val_curveN]; omega)]
    have hu1 := vliModMult_scalar he hs hs0 hlt.2
    have hu2 := vliModMult_scalar hr hs hs0 hlt.2
    have hnz : val (vliModMult r (vliModInv s curveN) curveN) ≠ 0 := hu2 ▸ scalar_ne_zero hr0 hlt.1 hs0 hlt.2
    obtain ⟨b, hb, hiff⟩ := verifySum_eq (vliModMult e (vliModInv s curveN) curveN) hpub (sumWithBase_at hpub hne) hnz hr hr0
    rw [hu1, hu2] at hiff
    refine ⟨b, hb, hiff.trans ?_⟩
    constructor
    · rintro ⟨hreg, hpoint⟩
      exact ⟨⟨Nat.pos_of_ne_zero hr0, hlt.1, Nat.pos_of_ne_zero hs0, hlt.2, hpoint⟩, hreg⟩
    · rintro ⟨hsign, hreg⟩
      exact ⟨hreg, hsign.point⟩
  · rw [if_pos (by rw [Ne, Ne, cmp_eq_one hn hr, cmp_eq_one hn hs, val_curveN]; omega)]
    exact ⟨false, rfl, by simp, fun h => absurd ⟨h.1.r_lt, h.1.s_lt⟩ hlt⟩

end Ecc
end Coffer
