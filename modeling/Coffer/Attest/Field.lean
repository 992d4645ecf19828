/-
# Arithmetic modulo the prime of the curve

`vli_modAdd` and `vli_modSub` correct a sum or a difference by the modulus once, which is enough for two remainders. A product
of eight digits is reduced by `vli_mmod_fast`: the prime of `secp256r1` is a sum of few powers of `2 ^ 32`, so that the upper
half of the product, cut into words of 32 bits and added or subtracted in other places, gives a number with the same remainder;
what is left of it beyond four digits is a small signed carry, and the prime is added or subtracted until it is gone. These
last two loops run eight times at most.

Key definitions: `curveP`, `fieldPrime`, `vliModAdd`, `vliModSub`, `vliMmodFast`, `vliModMultFast`, `vliModSquareFast`.
Key theorems: `vliModAdd_val`, `vliModSub_val`, `vliMmodFast_val`, `vliModMultFast_val`, `vliModSquareFast_val`.
-/
import Coffer.Lib.Loop
import Coffer.Attest.Vli

namespace Coffer
namespace Ecc

open Lib Lib.Digits

/-! ### The code -/

def curveP : Vli := [0xFFFFFFFFFFFFFFFF, 0x00000000FFFFFFFF, 0x0000000000000000, 0xFFFFFFFF00000001]

def vliModAdd (left right mod : Vli) : Vli :=
  let sum := vliAdd left right
  if sum.2 ≠ 0 ∨ vliCmp sum.1 mod ≥ 0 then (vliSub sum.1 mod).1 else sum.1

def vliModSub (left right mod : Vli) : Vli :=
  let diff := vliSub left right
  if diff.2 ≠ 0 then (vliAdd diff.1 mod).1 else diff.1

/-- A number under reduction: `p_result` and `l_carry`. -/
structure Reduced where
  result : Vli
  carry : ℤ

namespace Reduced

/-- `l_carry += vli_add(p_result, p_result, l_tmp)`. -/
def add (s : Reduced) (tmp : Vli) : Reduced :=
  let sum := vliAdd s.result tmp
  ⟨sum.1, s.carry + sum.2.toNat⟩

/-- `l_carry += vli_lshift(l_tmp, l_tmp, 1)` and the same again. -/
def addTwice (s : Reduced) (tmp : Vli) : Reduced :=
  let shifted := vliLshift 1 tmp 0
  add ⟨s.result, s.carry + shifted.2.toNat⟩ shifted.1

/-- `l_carry -= vli_sub(p_result, p_result, l_tmp)`. -/
def sub (s : Reduced) (tmp : Vli) : Reduced :=
  let diff := vliSub s.result tmp
  ⟨diff.1, s.carry - diff.2.toNat⟩

/-- `do { .. } while(l_carry < 0)`; eight rounds are enough. -/
def raise (s : Reduced) : Reduced := loopUpTo (fun s => decide (s.carry < 0)) (add · curveP) 8 (s.add curveP)

/-- `while(l_carry || vli_cmp(curve_p, p_result) != 1)`; eight rounds are enough. -/
def lower (s : Reduced) : Reduced :=
  loopUpTo (fun s => decide (s.carry ≠ 0 ∨ vliCmp curveP s.result ≠ 1)) (sub · curveP) 8 s

/-- The end of `vli_mmod_fast`. -/
def finish (s : Reduced) : Vli := if s.carry < 0 then s.raise.result else s.lower.result

end Reduced

/-- `vli_mmod_fast` for `secp256r1`. -/
def vliMmodFast (product : Vli) : Vli :=
  let p (i : ℕ) : BitVec 64 := product.getD i 0
  -- t
  let s : Reduced := ⟨product.take numEccDigits, 0⟩
  -- s1, s2: the lowest digit stays 0
  let s := s.addTwice [0, p 5 &&& 0xffffffff00000000#64, p 6, p 7]
  let s := s.addTwice [0, p 6 <<< 32, p 6 >>> 32 ||| p 7 <<< 32, p 7 >>> 32]
  -- s3, s4
  let s := s.add [p 4, p 5 &&& 0xffffffff#64, 0, p 7]
  let s := s.add [p 4 >>> 32 ||| p 5 <<< 32, p 5 >>> 32 ||| p 6 &&& 0xffffffff00000000#64, p 7, p 6 >>> 32 ||| p 4 <<< 32]
  -- d1, d2, d3, d4
  let s := s.sub [p 5 >>> 32 ||| p 6 <<< 32, p 6 >>> 32, 0, p 4 &&& 0xffffffff#64 ||| p 5 <<< 32]
  let s := s.sub [p 6, p 7, 0, p 4 >>> 32 ||| p 5 &&& 0xffffffff00000000#64]
  let s := s.sub [p 6 >>> 32 ||| p 7 <<< 32, p 7 >>> 32 ||| p 4 <<< 32, p 4 >>> 32 ||| p 5 <<< 32, p 6 <<< 32]
  let s := s.sub [p 7, p 4 &&& 0xffffffff00000000#64, p 5, p 6 &&& 0xffffffff00000000#64]
  s.finish

def vliModMultFast (left right : Vli) : Vli := vliMmodFast (vliMult left right)

def vliModSquareFast (left : Vli) : Vli := vliMmodFast (vliSquare left)

/-! ### Sums and differences -/

/-- The prime of the field. -/
def fieldPrime : ℕ := 2 ^ 256 - 2 ^ 224 + 2 ^ 192 + 2 ^ 96 - 1

theorem val_curveP : val curveP = fieldPrime := by decide

variable {left right mod : Vli}

/-- An array of `NUM_ECC_DIGITS` digits. -/
def IsVli (vli : Vli) : Prop := vli.length = numEccDigits

theorem IsVli.lt {vli : Vli} (h : IsVli vli) : val vli < 2 ^ 256 := by
  have := val_lt vli
  rwa [show vli.length = 4 from h] at this

/-- `vli_add` on arrays of `NUM_ECC_DIGITS` digits. -/
theorem IsVli.add (hl : IsVli left) (hr : IsVli right) : IsVli (vliAdd left right).1 ∧
    val (vliAdd left right).1 + 2 ^ 256 * (vliAdd left right).2.toNat = val left + val right ∧
    (vliAdd left right).2.toNat ≤ 1 := by
  have hlen : left.length = right.length := hl.trans hr.symm
  obtain ⟨hval, hle⟩ := vliAdd_val hlen
  rw [show left.length = 4 from hl] at hval
  exact ⟨(length_vliAdd hlen).trans hl, hval, hle⟩

/-- `vli_sub` on arrays of `NUM_ECC_DIGITS` digits. -/
theorem IsVli.sub (hl : IsVli left) (hr : IsVli right) : IsVli (vliSub left right).1 ∧
    val (vliSub left right).1 + val right = val left + 2 ^ 256 * (vliSub left right).2.toNat ∧
    (vliSub left right).2.toNat ≤ 1 := by
  have hlen : left.length = right.length := hl.trans hr.symm
  obtain ⟨hval, hle⟩ := vliSub_val hlen
  rw [show left.length = 4 from hl] at hval
  exact ⟨(length_vliSub hlen).trans hl, hval, hle⟩

theorem IsVli.cmp (hl : IsVli left) (hr : IsVli right) : vliCmp left right = Int.sign ((val left : ℤ) - val right) :=
  vliCmp_eq (hl.trans hr.symm)

theorem cmp_nonneg (hl : IsVli left) (hr : IsVli right) : 0 ≤ vliCmp left right ↔ val right ≤ val left := by
  rw [hl.cmp hr, Int.sign_nonneg_iff]
  omega

theorem cmp_eq_one (hl : IsVli left) (hr : IsVli right) : vliCmp left right = 1 ↔ val right < val left := by
  rw [hl.cmp hr, Int.sign_eq_one_iff_pos]
  omega

theorem toNat_eq_zero {d : BitVec 64} : d = 0 ↔ d.toNat = 0 := by
  rw [← BitVec.toNat_inj]
  rfl

theorem vliModAdd_val (hl : IsVli left) (hr : IsVli right) (hm : IsVli mod) (hlt : val left < val mod)
    (hrt : val right < val mod) :
    IsVli (vliModAdd left right mod) ∧ val (vliModAdd left right mod) = (val left + val right) % val mod := by
  obtain ⟨hsum, hval, hle⟩ := hl.add hr
  have hlow := hsum.lt
  unfold vliModAdd
  simp only [ge_iff_le, cmp_nonneg hsum hm, ne_eq, toNat_eq_zero]
  split
  · obtain ⟨hdiff, hval', hle'⟩ := hsum.sub hm
    have := hdiff.lt
    refine ⟨hdiff, ?_⟩
    rw [Nat.mod_eq_sub_mod (by omega), Nat.mod_eq_of_lt (by omega)]
    omega
  · refine ⟨hsum, ?_⟩
    rw [Nat.mod_eq_of_lt (by omega)]
    omega

theorem vliModSub_val (hl : IsVli left) (hr : IsVli right) (hm : IsVli mod) (hlt : val left < val mod)
    (hrt : val right < val mod) :
    IsVli (vliModSub left right mod) ∧ val (vliModSub left right mod) = (val left + (val mod - val right)) % val mod := by
  obtain ⟨hdiff, hval, hle⟩ := hl.sub hr
  have hlow := hdiff.lt
  have hmt := hm.lt
  unfold vliModSub
  simp only [ne_eq, toNat_eq_zero]
  split
  · obtain ⟨hsum, hval', hle'⟩ := hdiff.add hm
    have := hsum.lt
    refine ⟨hsum, ?_⟩
    rw [Nat.mod_eq_of_lt (by omega)]
    omega
  · refine ⟨hdiff, ?_⟩
    rw [Nat.mod_eq_sub_mod (by omega), Nat.mod_eq_of_lt (by omega)]
    omega

/-! ### The fast reduction -/

namespace Reduced

variable {s : Reduced} {tmp : Vli}

/-- The number under reduction. -/
def wide (s : Reduced) : ℤ := val s.result + 2 ^ 256 * s.carry

theorem add_wide (hs : IsVli s.result) (ht : IsVli tmp) : IsVli (s.add tmp).result ∧ (s.add tmp).wide = s.wide + val tmp := by
  obtain ⟨hsum, hval, -⟩ := hs.add ht
  refine ⟨hsum, ?_⟩
  zify at hval
  simp only [wide, add]
  linear_combination hval

theorem sub_wide (hs : IsVli s.result) (ht : IsVli tmp) : IsVli (s.sub tmp).result ∧ (s.sub tmp).wide = s.wide - val tmp := by
  obtain ⟨hdiff, hval, -⟩ := hs.sub ht
  refine ⟨hdiff, ?_⟩
  zify at hval
  simp only [wide, sub]
  linear_combination hval

theorem addTwice_wide (hs : IsVli s.result) (ht : IsVli tmp) :
    IsVli (s.addTwice tmp).result ∧ (s.addTwice tmp).wide = s.wide + 2 * val tmp := by
  have hshift := vliLshift_val (show 1 ≤ 64 by decide) tmp (show (0 : BitVec 64).toNat < 2 ^ 1 by decide)
  rw [show tmp.length = 4 from ht] at hshift
  have hlen : IsVli (vliLshift 1 tmp 0).1 := (length_vliLshift 1 tmp 0).trans ht
  obtain ⟨hsum, hval⟩ := add_wide (s := ⟨s.result, s.carry + (vliLshift 1 tmp 0).2.toNat⟩) hs hlen
  refine ⟨hsum, ?_⟩
  have h0 : (0 : BitVec 64).toNat = 0 := rfl
  rw [h0, Nat.add_zero, pow_one] at hshift
  zify at hshift
  unfold addTwice
  rw [hval]
  simp only [wide]
  linear_combination hshift

theorem carry_neg_iff (hs : IsVli s.result) : s.carry < 0 ↔ s.wide < 0 := by
  have := hs.lt
  unfold wide
  omega

theorem isVli_curveP : IsVli curveP := rfl

theorem fieldPrime_lt : (fieldPrime : ℤ) < 2 ^ 256 := by decide

theorem fieldPrime_pos : (0 : ℤ) < fieldPrime := by decide

/-- What the loops keep: the number modulo the prime. -/
structure Same (s r : Reduced) : Prop where
  isVli : IsVli r.result
  mod : r.wide ≡ s.wide [ZMOD fieldPrime]

theorem Same.add {r : Reduced} (h : Same s r) : Same s (r.add curveP) := by
  obtain ⟨hv, hw⟩ := add_wide h.isVli isVli_curveP
  refine ⟨hv, ?_⟩
  rw [hw, val_curveP]
  exact (Int.add_modEq_right ..).trans h.mod

theorem Same.sub {r : Reduced} (h : Same s r) : Same s (r.sub curveP) := by
  obtain ⟨hv, hw⟩ := sub_wide h.isVli isVli_curveP
  refine ⟨hv, ?_⟩
  rw [hw, val_curveP]
  refine Int.ModEq.trans ?_ h.mod
  exact Int.modEq_iff_dvd.mpr ⟨1, by ring⟩

/-- A number that falls by the prime is divided one time less. -/
theorem toNat_div_lt {a b : ℤ} (hb : b = a - fieldPrime) (ha : fieldPrime ≤ a) :
    b.toNat / fieldPrime < a.toNat / fieldPrime := by
  have hpos : 0 < fieldPrime := by decide
  rw [Nat.div_eq_sub_div hpos (by omega : fieldPrime ≤ a.toNat), show b.toNat = a.toNat - fieldPrime by omega]
  exact Nat.lt_succ_self _

/-- A negative number rises by the prime until it is none, and does not pass it. -/
theorem raise_spec (hs : IsVli s.result) (hneg : s.wide < 0) (hlow : -(8 * fieldPrime) ≤ s.wide) :
    Same s s.raise ∧ 0 ≤ s.raise.wide ∧ s.raise.wide < fieldPrime := by
  have hpos := fieldPrime_pos
  have hadd {r : Reduced} (hr : IsVli r.result) : (r.add curveP).wide = r.wide + fieldPrime := by
    rw [(add_wide hr isVli_curveP).2, val_curveP]
  have hloop : (Same s s.raise ∧ s.raise.wide < fieldPrime) ∧ decide (s.raise.carry < 0) = false := by
    refine loopUpTo_spec (I := fun r => Same s r ∧ r.wide < fieldPrime)
      (m := fun r => (fieldPrime - 1 - r.wide).toNat / fieldPrime) ?_ ?_ ?_
    · rintro r ⟨hr, hlt⟩ hc
      have hr0 := (carry_neg_iff hr.isVli).mp (of_decide_eq_true hc)
      have hstep := hadd hr.isVli
      refine ⟨⟨hr.add, by omega⟩, toNat_div_lt ?_ (by omega)⟩
      rw [hstep]
      ring
    · have hfirst := hadd hs
      exact ⟨Same.add ⟨hs, rfl⟩, by omega⟩
    · have hfirst := hadd hs
      refine Nat.div_le_of_le_mul ?_
      omega
  obtain ⟨⟨hr, hlt⟩, hexit⟩ := hloop
  have hnot := (carry_neg_iff hr.isVli).not.mp (of_decide_eq_false hexit)
  exact ⟨hr, by omega, hlt⟩

/-- While the number is not below the prime, the prime is subtracted. -/
theorem lower_spec (hs : IsVli s.result) (hnonneg : 0 ≤ s.wide) (hhigh : s.wide < 9 * fieldPrime) :
    Same s s.lower ∧ 0 ≤ s.lower.wide ∧ s.lower.wide < fieldPrime := by
  have hpos := fieldPrime_pos
  have hsmall := fieldPrime_lt
  have hsub {r : Reduced} (hr : IsVli r.result) : (r.sub curveP).wide = r.wide - fieldPrime := by
    rw [(sub_wide hr isVli_curveP).2, val_curveP]
  have hcond {r : Reduced} (hr : IsVli r.result) (h0 : 0 ≤ r.wide) :
      (r.carry ≠ 0 ∨ vliCmp curveP r.result ≠ 1) ↔ (fieldPrime : ℤ) ≤ r.wide := by
    have hlt := hr.lt
    have hnot := (carry_neg_iff hr).not.mpr (not_lt.mpr h0)
    rw [ne_eq (vliCmp _ _), cmp_eq_one isVli_curveP hr, val_curveP]
    unfold wide at h0 ⊢
    omega
  have hloop : (Same s s.lower ∧ 0 ≤ s.lower.wide) ∧
      decide (s.lower.carry ≠ 0 ∨ vliCmp curveP s.lower.result ≠ 1) = false := by
    refine loopUpTo_spec (I := fun r => Same s r ∧ 0 ≤ r.wide) (m := fun r => r.wide.toNat / fieldPrime) ?_ ?_ ?_
    · rintro r ⟨hr, h0⟩ hc
      have hge := (hcond hr.isVli h0).mp (of_decide_eq_true hc)
      have hstep := hsub hr.isVli
      exact ⟨⟨hr.sub, by omega⟩, toNat_div_lt hstep hge⟩
    · exact ⟨⟨hs, rfl⟩, hnonneg⟩
    · refine Nat.le_of_lt_succ ((Nat.div_lt_iff_lt_mul (by decide)).mpr ?_)
      omega
  obtain ⟨⟨hr, h0⟩, hexit⟩ := hloop
  have hnot := (hcond hr.isVli h0).not.mp (of_decide_eq_false hexit)
  exact ⟨hr, h0, by omega⟩

/-- **The end of the reduction.** What is left is brought between `0` and the prime. -/
theorem finish_val (hs : IsVli s.result) (hlow : -(8 * fieldPrime) ≤ s.wide) (hhigh : s.wide < 9 * fieldPrime) :
    IsVli s.finish ∧ val s.finish < fieldPrime ∧ (val s.finish : ℤ) ≡ s.wide [ZMOD fieldPrime] := by
  have hend {r : Reduced} (h : Same s r ∧ 0 ≤ r.wide ∧ r.wide < fieldPrime) :
      IsVli r.result ∧ val r.result < fieldPrime ∧ (val r.result : ℤ) ≡ s.wide [ZMOD fieldPrime] := by
    obtain ⟨hr, h0, hlt⟩ := h
    have hval : (val r.result : ℤ) = r.wide := by
      have := hr.isVli.lt
      have := fieldPrime_lt
      unfold wide at h0 hlt ⊢
      omega
    exact ⟨hr.isVli, by omega, hval ▸ hr.mod⟩
  unfold finish
  by_cases hneg : s.carry < 0
  · rw [if_pos hneg]
    exact hend (raise_spec hs ((carry_neg_iff hs).mp hneg) hlow)
  · rw [if_neg hneg]
    exact hend (lower_spec hs (not_lt.mp ((carry_neg_iff hs).not.mp hneg)) hhigh)

end Reduced

/-! #### Halves of digits -/

theorem and_high (d : BitVec 64) : d &&& 0xffffffff00000000#64 = d >>> 32 <<< 32 := by
  have hmask : ∀ i < 64, (0xffffffff00000000#64).getLsbD i = decide (32 ≤ i) := by decide
  refine BitVec.eq_of_getLsbD_eq fun i hi => ?_
  rw [BitVec.getLsbD_and, hmask i hi, BitVec.getLsbD_shiftLeft, BitVec.getLsbD_ushiftRight]
  by_cases h : 32 ≤ i
  · simp [hi, h, Nat.add_sub_cancel' h]
  · simp [h]

theorem toNat_and_low (d : BitVec 64) : (d &&& 0xffffffff#64).toNat = d.toNat % 2 ^ 32 := by
  rw [BitVec.toNat_and]
  exact Nat.and_two_pow_sub_one_eq_mod _ 32

theorem toNat_shl (d : BitVec 64) : (d <<< 32).toNat = 2 ^ 32 * (d.toNat % 2 ^ 32) := by
  rw [BitVec.toNat_shiftLeft, Nat.shiftLeft_eq]
  omega

theorem toNat_or_shl {c d : BitVec 64} (hc : c.toNat < 2 ^ 32) :
    (c ||| d <<< 32).toNat = c.toNat + 2 ^ 32 * (d.toNat % 2 ^ 32) := by
  rw [BitVec.or_comm, toNat_shl_or (by decide) hc, add_comm]

theorem toNat_shr_lt (d : BitVec 64) : (d >>> 32).toNat < 2 ^ 32 := by
  have := d.isLt
  rw [toNat_shr]
  omega

theorem toNat_and_low_lt (d : BitVec 64) : (d &&& 0xffffffff#64).toNat < 2 ^ 32 := by
  rw [toNat_and_low]
  exact Nat.mod_lt _ (by decide)

theorem exists_eight {product : Vli} (h : product.length = 8) :
    ∃ p0 p1 p2 p3 p4 p5 p6 p7, product = [p0, p1, p2, p3, p4, p5, p6, p7] := by
  match product, h with
  | [p0, p1, p2, p3, p4, p5, p6, p7], _ => exact ⟨p0, p1, p2, p3, p4, p5, p6, p7, rfl⟩

/-- **The terms of the fast reduction.** With `2 ^ 256 = 2 ^ 224 - 2 ^ 192 - 2 ^ 96 + 1` modulo the prime, every word of the
upper half moves to the places its power is made of. -/
theorem terms_mod (p0 p1 p2 p3 p4 p5 p6 p7 : BitVec 64) :
    (val [p0, p1, p2, p3] : ℤ) + 2 * val [0, p5 &&& 0xffffffff00000000#64, p6, p7] +
      2 * val [0, p6 <<< 32, p6 >>> 32 ||| p7 <<< 32, p7 >>> 32] + val [p4, p5 &&& 0xffffffff#64, 0, p7] +
      val [p4 >>> 32 ||| p5 <<< 32, p5 >>> 32 ||| p6 &&& 0xffffffff00000000#64, p7, p6 >>> 32 ||| p4 <<< 32] -
      val [p5 >>> 32 ||| p6 <<< 32, p6 >>> 32, 0, p4 &&& 0xffffffff#64 ||| p5 <<< 32] -
      val [p6, p7, 0, p4 >>> 32 ||| p5 &&& 0xffffffff00000000#64] -
      val [p6 >>> 32 ||| p7 <<< 32, p7 >>> 32 ||| p4 <<< 32, p4 >>> 32 ||| p5 <<< 32, p6 <<< 32] -
      val [p7, p4 &&& 0xffffffff00000000#64, p5, p6 &&& 0xffffffff00000000#64] ≡
    val [p0, p1, p2, p3, p4, p5, p6, p7] [ZMOD fieldPrime] := by
  have hshr (d : BitVec 64) := toNat_shr d 32
  have hzero : (0 : BitVec 64).toNat = 0 := rfl
  have hhalf (d : BitVec 64) : d.toNat / 2 ^ 32 % 2 ^ 32 = d.toNat / 2 ^ 32 := by
    have := d.isLt
    omega
  simp only [val_cons, val_nil, and_high, toNat_or_shl (toNat_shr_lt _), toNat_or_shl (toNat_and_low_lt _), toNat_shl,
    hshr, toNat_and_low, hzero, hhalf]
  have hsplit (d : BitVec 64) : d.toNat = d.toNat % 2 ^ 32 + 2 ^ 32 * (d.toNat / 2 ^ 32) := by omega
  have e4 := hsplit p4
  have e5 := hsplit p5
  have e6 := hsplit p6
  have e7 := hsplit p7
  generalize p4.toNat % 2 ^ 32 = l4, p4.toNat / 2 ^ 32 = h4 at e4 ⊢
  generalize p5.toNat % 2 ^ 32 = l5, p5.toNat / 2 ^ 32 = h5 at e5 ⊢
  generalize p6.toNat % 2 ^ 32 = l6, p6.toNat / 2 ^ 32 = h6 at e6 ⊢
  generalize p7.toNat % 2 ^ 32 = l7, p7.toNat / 2 ^ 32 = h7 at e7 ⊢
  rw [e4, e5, e6, e7, Int.modEq_iff_dvd, show (fieldPrime : ℤ) = 2 ^ 256 - 2 ^ 224 + 2 ^ 192 + 2 ^ 96 - 1 by decide]
  -- how often the prime goes into what moves
  refine ⟨l4 + 4294967297 * h4 + 18446744078004518912 * l5 + 79228162532711081667253501951 * h5 +
    340282367000166625977638945021017194495 * l6 + 1461501637671185285124623296161210883009696235519 * h6 +
    6277101736848182401166692341332123086285927382448418586623 * l7 +
    26959946673427741530053695850515137729844644212646842236464328081408 * h7, ?_⟩
  push_cast
  ring

namespace Reduced

/-- The terms are added, subtracted and brought below the prime. -/
theorem finish_terms {result t1 t2 t3 t4 t5 t6 t7 t8 : Vli} {n : ℕ} (hs : IsVli result) (h1 : IsVli t1) (h2 : IsVli t2)
    (h3 : IsVli t3) (h4 : IsVli t4) (h5 : IsVli t5) (h6 : IsVli t6) (h7 : IsVli t7) (h8 : IsVli t8)
    (hn : (val result : ℤ) + 2 * val t1 + 2 * val t2 + val t3 + val t4 - val t5 - val t6 - val t7 - val t8 ≡ n
      [ZMOD fieldPrime]) :
    IsVli (((((((((mk result 0).addTwice t1).addTwice t2).add t3).add t4).sub t5).sub t6).sub t7).sub t8).finish ∧
      val (((((((((mk result 0).addTwice t1).addTwice t2).add t3).add t4).sub t5).sub t6).sub t7).sub t8).finish =
        n % fieldPrime := by
  obtain ⟨r1, w1⟩ := addTwice_wide (s := ⟨result, 0⟩) hs h1
  obtain ⟨r2, w2⟩ := addTwice_wide r1 h2
  obtain ⟨r3, w3⟩ := add_wide r2 h3
  obtain ⟨r4, w4⟩ := add_wide r3 h4
  obtain ⟨r5, w5⟩ := sub_wide r4 h5
  obtain ⟨r6, w6⟩ := sub_wide r5 h6
  obtain ⟨r7, w7⟩ := sub_wide r6 h7
  obtain ⟨r8, w8⟩ := sub_wide r7 h8
  have hsum : (mk result 0).wide = val result := by simp [wide]
  rw [w7, w6, w5, w4, w3, w2, w1, hsum] at w8
  have hp : (fieldPrime : ℤ) = 2 ^ 256 - 2 ^ 224 + 2 ^ 192 + 2 ^ 96 - 1 := by decide
  have hall := (⟨hs.lt, h1.lt, h2.lt, h3.lt, h4.lt, h5.lt, h6.lt, h7.lt, h8.lt⟩ : _ ∧ _ ∧ _ ∧ _ ∧ _ ∧ _ ∧ _ ∧ _ ∧ _)
  obtain ⟨hv, hlt, hmod⟩ := finish_val r8 (by omega) (by omega)
  refine ⟨hv, ?_⟩
  rw [w8] at hmod
  have := hmod.trans hn
  rw [Int.natCast_modEq_iff] at this
  exact (Nat.mod_eq_of_lt hlt).symm.trans this

end Reduced

/-- **`vli_mmod_fast`** computes the remainder. -/
theorem vliMmodFast_val {product : Vli} (h : product.length = 8) :
    IsVli (vliMmodFast product) ∧ val (vliMmodFast product) = val product % fieldPrime := by
  obtain ⟨p0, p1, p2, p3, p4, p5, p6, p7, rfl⟩ := exists_eight h
  exact Reduced.finish_terms rfl rfl rfl rfl rfl rfl rfl rfl rfl (terms_mod p0 p1 p2 p3 p4 p5 p6 p7)

theorem vliModMultFast_val (hl : IsVli left) (hr : IsVli right) :
    IsVli (vliModMultFast left right) ∧ val (vliModMultFast left right) = val left * val right % fieldPrime := by
  have hlen : left.length = 4 := hl
  rw [← vliMult_val (hl.trans hr.symm) (by omega) (by omega)]
  exact vliMmodFast_val (by rw [length_vliMult (by omega), hlen])

theorem vliModSquareFast_val (hl : IsVli left) :
    IsVli (vliModSquareFast left) ∧ val (vliModSquareFast left) = val left * val left % fieldPrime := by
  have hlen : left.length = 4 := hl
  rw [← vliSquare_val (by omega) (by omega)]
  exact vliMmodFast_val (by rw [length_vliSquare (by omega), hlen])

end Ecc
end Coffer
