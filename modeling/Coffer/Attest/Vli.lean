/-
# Arithmetic on the long numbers of the attestation

The signature of a module is checked with the arithmetic of `attest/ecc.c`, on numbers of four 64-bit digits
(`NUM_ECC_DIGITS` for `secp256r1`), the lowest digit first. The functions below follow the loops of the source, which go from
digit to digit with a carry; an array is the list of its digits, and what a function writes is what it returns. The signing
tool compiles a copy of the same file.

Each function computes what it is for: `vli_add` and `vli_sub` the sum and the difference up to the carry they return, the
shifts a multiplication by a power of two and a halving, `vli_mult` and `vli_square` the product. The product goes column by
column in an accumulator of 192 bits, which never overflows.

Key definitions: `vliCmp`, `vliAdd`, `vliSub`, `vliLshift`, `vliRshift1`, `vliMult`, `vliSquare`.
Key theorems: `vliCmp_eq`, `vliAdd_val`, `vliSub_val`, `vliLshift_val`, `vliRshift1_val`, `vliMult_val`, `vliSquare_val`.
-/
import Mathlib.Data.Nat.Size
import Coffer.Lib.Digits

namespace Coffer
namespace Ecc

open Lib.Digits

/-! ### The code -/

def numEccDigits : ℕ := 4

/-- An array of digits. -/
abbrev Vli := List (BitVec 64)

def vliClear : Vli := List.replicate numEccDigits 0

def vliIsZero (vli : Vli) : Bool := vli.all (· == 0)

/-- `vli_testBit`, as its callers test it. -/
def vliTestBit (vli : Vli) (bit : ℕ) : Bool := (vli.getD (bit / 64) 0 &&& (1#64 <<< (bit % 64))) ≠ 0

/-- `vli_numDigits`: the search runs from the highest digit down. -/
def vliNumDigits : Vli → ℕ
  | [] => 0
  | d :: ds => if vliNumDigits ds ≠ 0 then vliNumDigits ds + 1 else if d = 0 then 0 else 1

/-- The loop of `vli_numBits`, which shifts the highest digit until nothing is left. -/
def digitBits : ℕ → BitVec 64 → ℕ
  | 0, _ => 0
  | n + 1, digit => if digit = 0 then 0 else digitBits n (digit >>> 1) + 1

def vliNumBits (vli : Vli) : ℕ :=
  let numDigits := vliNumDigits vli
  if numDigits = 0 then 0 else (numDigits - 1) * 64 + digitBits 64 (vli.getD (numDigits - 1) 0)

/-- `vli_cmp`: the highest digits that differ decide. -/
def vliCmp : Vli → Vli → ℤ
  | a :: left, b :: right =>
    if vliCmp left right ≠ 0 then vliCmp left right else if a > b then 1 else if a < b then -1 else 0
  | _, _ => 0

/-- `vli_lshift`, with the carry it starts from: the result and the carry. -/
def vliLshift (shift : ℕ) : Vli → BitVec 64 → Vli × BitVec 64
  | [], carry => ([], carry)
  | temp :: vli, carry =>
    let rest := vliLshift shift vli (temp >>> (64 - shift))
    ((temp <<< shift ||| carry) :: rest.1, rest.2)

/-- The loop of `vli_rshift1`, from the highest digit down: the result and the carry. -/
def rshiftLoop : Vli → Vli × BitVec 64
  | [] => ([], 0)
  | temp :: vli =>
    let rest := rshiftLoop vli
    ((temp >>> 1 ||| rest.2) :: rest.1, temp <<< 63)

def vliRshift1 (vli : Vli) : Vli := (rshiftLoop vli).1

/-- A digit of `vli_add`. -/
def addStep (left right carry : BitVec 64) : BitVec 64 × BitVec 64 :=
  let sum := left + right + carry
  (sum, if sum ≠ left then (if sum < left then 1 else 0) else carry)

/-- `vli_add`: the sum and the carry. -/
def vliAdd (left right : Vli) : Vli × BitVec 64 := carryLoop addStep left right 0

/-- A digit of `vli_sub`. -/
def subStep (left right borrow : BitVec 64) : BitVec 64 × BitVec 64 :=
  let diff := left - right - borrow
  (diff, if diff ≠ left then (if diff > left then 1 else 0) else borrow)

/-- `vli_sub`: the difference and the borrow. -/
def vliSub (left right : Vli) : Vli × BitVec 64 := carryLoop subStep left right 0

/-- The accumulator `r2 : r01` of a product. -/
structure Accu where
  r01 : BitVec 128
  r2 : BitVec 64

/-- A product is added to the accumulator. -/
def Accu.add (acc : Accu) (product : BitVec 128) : Accu :=
  let r01 := acc.r01 + product
  ⟨r01, acc.r2 + if r01 < product then 1 else 0⟩

/-- The product of two digits. -/
def digitProduct (left right : BitVec 64) : BitVec 128 := left.setWidth 128 * right.setWidth 128

/-- The loop over the columns: a digit of the result is written, and the accumulator moves on by a digit. -/
def scanColumns (column : ℕ → Accu → Accu) : List ℕ → BitVec 128 → Vli
  | [], r01 => [r01.setWidth 64]
  | k :: ks, r01 =>
    let acc := column k ⟨r01, 0⟩
    acc.r01.setWidth 64 :: scanColumns column ks (acc.r01 >>> 64 ||| acc.r2.setWidth 128 <<< 64)

/-- The indices of the inner loops, from `l_min` to below `stop`. -/
def columnRange (n k stop : ℕ) : List ℕ :=
  let lMin := if k < n then 0 else k + 1 - n
  List.range' lMin (stop - lMin)

/-- The inner loop of `vli_mult`: `i <= k && i < NUM_ECC_DIGITS`. -/
def multColumn (left right : Vli) (k : ℕ) (acc : Accu) : Accu :=
  (columnRange left.length k (min (k + 1) left.length)).foldl
    (fun acc i => acc.add (digitProduct (left.getD i 0) (right.getD (k - i) 0))) acc

def vliMult (left right : Vli) : Vli := scanColumns (multColumn left right) (List.range (2 * left.length - 1)) 0

/-- A term of `vli_square`: doubled if it stands for two. -/
def squareTerm (left : Vli) (k : ℕ) (acc : Accu) (i : ℕ) : Accu :=
  let product := digitProduct (left.getD i 0) (left.getD (k - i) 0)
  if i < k - i then (Accu.mk acc.r01 (acc.r2 + (product >>> 127).setWidth 64)).add (product * 2)
  else acc.add product

/-- The inner loop of `vli_square`: `i <= k && i <= k - i`. -/
def squareColumn (left : Vli) (k : ℕ) (acc : Accu) : Accu :=
  (columnRange left.length k (k / 2 + 1)).foldl (squareTerm left k) acc

def vliSquare (left : Vli) : Vli := scanColumns (squareColumn left) (List.range (2 * left.length - 1)) 0

/-! ### Tests and comparisons -/

theorem vliIsZero_iff {vli : Vli} : vliIsZero vli = true ↔ val vli = 0 := by
  simp [vliIsZero, val_eq_zero]

theorem vliCmp_eq {left right : Vli} (hlen : left.length = right.length) :
    vliCmp left right = Int.sign ((val left : ℤ) - val right) := by
  induction left generalizing right with
  | nil =>
    obtain rfl := List.length_eq_zero_iff.mp hlen.symm
    rfl
  | cons a left ih =>
    obtain _ | ⟨b, right⟩ := right
    · cases hlen
    rw [vliCmp, ih (Nat.succ.inj hlen)]
    rcases lt_trichotomy (val left) (val right) with hlt | heq | hlt
    · have hneg : Int.sign ((val left : ℤ) - val right) = -1 := Int.sign_eq_neg_one_of_neg (by omega)
      have := val_cons_lt (a := a) (b := b) hlt
      rw [hneg, if_pos (by decide), eq_comm]
      exact Int.sign_eq_neg_one_of_neg (by omega)
    · rw [heq, sub_self, Int.sign_zero, if_neg (by simp), val_cons, val_cons, heq]
      push_cast
      rw [add_sub_add_right_eq_sub]
      by_cases hgt : a > b
      · have : b.toNat < a.toNat := hgt
        rw [if_pos hgt, eq_comm]
        exact Int.sign_eq_one_of_pos (by omega)
      by_cases hlt : a < b
      · have : a.toNat < b.toNat := hlt
        rw [if_neg hgt, if_pos hlt, eq_comm]
        exact Int.sign_eq_neg_one_of_neg (by omega)
      · have h1 : ¬ b.toNat < a.toNat := hgt
        have h2 : ¬ a.toNat < b.toNat := hlt
        rw [if_neg hgt, if_neg hlt, eq_comm, Int.sign_eq_zero_iff_zero]
        omega
    · have hpos : Int.sign ((val left : ℤ) - val right) = 1 := Int.sign_eq_one_of_pos (by omega)
      have := val_cons_lt (a := b) (b := a) hlt
      rw [hpos, if_pos (by decide), eq_comm]
      exact Int.sign_eq_one_of_pos (by omega)

/-- A bit of a number is a bit of one of its digits. -/
theorem testBit_val (vli : Vli) (bit : ℕ) : (val vli).testBit bit = (vli.getD (bit / 64) 0).getLsbD (bit % 64) := by
  induction vli generalizing bit with
  | nil => simp
  | cons d vli ih =>
    rw [val_cons, Nat.add_comm, Nat.testBit_two_pow_mul_add _ d.isLt]
    by_cases hlt : bit < 64
    · rw [if_pos hlt, Nat.div_eq_of_lt hlt, Nat.mod_eq_of_lt hlt, List.getD_cons_zero]
      rfl
    · rw [if_neg hlt, ih, show bit / 64 = (bit - 64) / 64 + 1 by omega, List.getD_cons_succ,
        show (bit - 64) % 64 = bit % 64 by omega]

theorem vliTestBit_eq (vli : Vli) (bit : ℕ) : vliTestBit vli bit = (val vli).testBit bit := by
  have hlt : bit % 64 < 64 := Nat.mod_lt _ (by decide)
  rw [testBit_val, vliTestBit]
  generalize vli.getD (bit / 64) 0 = d
  generalize bit % 64 = i at hlt
  -- the mask has the bit `i` only
  have hmask : ∀ j < 64, (d &&& 1#64 <<< i).getLsbD j = (d.getLsbD j && decide (j = i)) := by
    intro j hj
    rw [BitVec.getLsbD_and, BitVec.getLsbD_shiftLeft, BitVec.getLsbD_one]
    by_cases hij : j = i
    · subst hij
      simp [hj]
    · have : ¬ (j - i = 0 ∧ ¬ j < i) := by omega
      simp [hj, hij]
      omega
  by_cases hd : d.getLsbD i
  · rw [hd, decide_eq_true_eq]
    intro h
    have := hmask i hlt
    rw [h, hd] at this
    simp at this
  · rw [Bool.eq_false_iff.mpr hd, decide_eq_false_iff_not, not_not]
    refine BitVec.eq_of_getLsbD_eq fun j hj => ?_
    rw [hmask j hj]
    by_cases hij : j = i
    · subst hij
      simpa using hd
    · simp [hij]

/-! ### Sums and differences -/

theorem addStep_exact : Exact 1 addStep where
  value {a b c} hc := by
    have ha := a.isLt
    have hb := b.isLt
    unfold addStep
    simp only [ne_eq, BitVec.lt_def, ← BitVec.toNat_inj, BitVec.toNat_add]
    have h0 : (0 : BitVec 64).toNat = 0 := rfl
    have h1 : (1 : BitVec 64).toNat = 1 := rfl
    split
    · split
      · rw [h1]
        omega
      · rw [h0]
        omega
    · omega
  carry {a b c} hc := by
    unfold addStep
    simp only
    split
    · split <;> decide
    · exact hc

theorem subStep_exact : Exact (-1) subStep where
  value {a b c} hc := by
    have ha := a.isLt
    have hb := b.isLt
    unfold subStep
    simp only [ne_eq, gt_iff_lt, BitVec.lt_def, ← BitVec.toNat_inj, BitVec.toNat_sub]
    have h0 : (0 : BitVec 64).toNat = 0 := rfl
    have h1 : (1 : BitVec 64).toNat = 1 := rfl
    split
    · split
      · rw [h1]
        omega
      · rw [h0]
        omega
    · omega
  carry {a b c} hc := by
    unfold subStep
    simp only
    split
    · split <;> decide
    · exact hc

variable {left right vli : Vli}

theorem length_vliAdd (hlen : left.length = right.length) : (vliAdd left right).1.length = left.length :=
  length_carryLoop hlen

theorem length_vliSub (hlen : left.length = right.length) : (vliSub left right).1.length = left.length :=
  length_carryLoop hlen

theorem vliAdd_val (hlen : left.length = right.length) :
    val (vliAdd left right).1 + 2 ^ (64 * left.length) * (vliAdd left right).2.toNat = val left + val right ∧
      (vliAdd left right).2.toNat ≤ 1 := by
  obtain ⟨hval, hle⟩ := carryLoop_val addStep_exact hlen (c := 0) (by decide)
  refine ⟨?_, hle⟩
  have h0 : (0 : BitVec 64).toNat = 0 := rfl
  rw [h0] at hval
  zify
  simpa [vliAdd] using hval

theorem vliSub_val (hlen : left.length = right.length) :
    val (vliSub left right).1 + val right = val left + 2 ^ (64 * left.length) * (vliSub left right).2.toNat ∧
      (vliSub left right).2.toNat ≤ 1 := by
  obtain ⟨hval, hle⟩ := carryLoop_val subStep_exact hlen (c := 0) (by decide)
  refine ⟨?_, hle⟩
  have h0 : (0 : BitVec 64).toNat = 0 := rfl
  rw [h0] at hval
  zify
  unfold vliSub
  linear_combination hval

/-! ### Shifts -/

/-- Digits put together from bits that do not meet. -/
theorem toNat_shl_or {d c : BitVec 64} {i : ℕ} (hi : i ≤ 64) (hc : c.toNat < 2 ^ i) :
    (d <<< i ||| c).toNat = 2 ^ i * (d.toNat % 2 ^ (64 - i)) + c.toNat := by
  have hpow : 2 ^ 64 = 2 ^ i * 2 ^ (64 - i) := by
    rw [← pow_add]
    congr 1
    omega
  rw [BitVec.toNat_or, BitVec.toNat_shiftLeft, Nat.shiftLeft_eq, Nat.mul_comm d.toNat, hpow, Nat.mul_mod_mul_left,
    Nat.two_pow_add_eq_or_of_lt hc]

theorem toNat_shr (d : BitVec 64) (i : ℕ) : (d >>> i).toNat = d.toNat / 2 ^ i := by
  rw [BitVec.toNat_ushiftRight, Nat.shiftRight_eq_div_pow]

theorem length_vliLshift (shift : ℕ) (vli : Vli) (carry : BitVec 64) :
    (vliLshift shift vli carry).1.length = vli.length := by
  induction vli generalizing carry with
  | nil => rfl
  | cons temp vli ih => exact congrArg (· + 1) (ih _)

theorem vliLshift_val {shift : ℕ} (hshift : shift ≤ 64) (vli : Vli) {carry : BitVec 64} (hcarry : carry.toNat < 2 ^ shift) :
    val (vliLshift shift vli carry).1 + 2 ^ (64 * vli.length) * (vliLshift shift vli carry).2.toNat =
      2 ^ shift * val vli + carry.toNat := by
  induction vli generalizing carry with
  | nil => simp [vliLshift]
  | cons temp vli ih =>
    have hpow : 2 ^ 64 = 2 ^ shift * 2 ^ (64 - shift) := by
      rw [← pow_add]
      congr 1
      omega
    have hout : (temp >>> (64 - shift)).toNat < 2 ^ shift := by
      rw [toNat_shr, Nat.div_lt_iff_lt_mul (Nat.two_pow_pos _), ← hpow]
      exact temp.isLt
    have hrest := ih hout
    have hsplit := Nat.div_add_mod temp.toNat (2 ^ (64 - shift))
    simp only [vliLshift, val_cons, List.length_cons, Nat.mul_succ, Nat.add_comm (64 * _), pow_add]
    rw [toNat_shl_or hshift hcarry]
    rw [toNat_shr] at hrest
    generalize hq : temp.toNat / 2 ^ (64 - shift) = q at *
    generalize hm : temp.toNat % 2 ^ (64 - shift) = m at *
    rw [← hsplit]
    generalize val (vliLshift shift vli (temp >>> (64 - shift))).1 = x at *
    generalize (vliLshift shift vli (temp >>> (64 - shift))).2.toNat = y at *
    linear_combination 2 ^ 64 * hrest + q * hpow

theorem length_rshiftLoop (vli : Vli) : (rshiftLoop vli).1.length = vli.length := by
  induction vli with
  | nil => rfl
  | cons temp vli ih => exact congrArg (· + 1) ih

theorem rshiftLoop_val (vli : Vli) :
    val (rshiftLoop vli).1 = val vli / 2 ∧ (rshiftLoop vli).2.toNat = 2 ^ 63 * (val vli % 2) := by
  induction vli with
  | nil => decide
  | cons temp vli ih =>
    obtain ⟨hval, hcarry⟩ := ih
    have htemp := temp.isLt
    have hor : (temp >>> 1 ||| (rshiftLoop vli).2).toNat = 2 ^ 63 * (val vli % 2) + temp.toNat / 2 := by
      have hhalf : temp.toNat / 2 < 2 ^ 63 := by omega
      rw [BitVec.toNat_or, toNat_shr, hcarry, Nat.or_comm, pow_one, Nat.two_pow_add_eq_or_of_lt hhalf]
    have hout : (temp <<< 63).toNat = 2 ^ 63 * (temp.toNat % 2) := by
      rw [BitVec.toNat_shiftLeft, Nat.shiftLeft_eq]
      omega
    simp only [rshiftLoop, val_cons]
    rw [hor, hout, hval]
    omega

theorem length_vliRshift1 (vli : Vli) : (vliRshift1 vli).length = vli.length := length_rshiftLoop vli

theorem vliRshift1_val (vli : Vli) : val (vliRshift1 vli) = val vli / 2 := (rshiftLoop_val vli).1

/-! ### The number of bits -/

theorem size_succ {n : ℕ} (hn : n ≠ 0) : Nat.size n = Nat.size (n / 2) + 1 := by
  refine eq_of_forall_ge_iff fun k => ?_
  rw [Nat.size_le]
  obtain _ | k := k
  · simp [hn]
  · rw [Nat.add_le_add_iff_right, Nat.size_le, pow_succ]
    omega

theorem digitBits_eq {n : ℕ} {digit : BitVec 64} (h : digit.toNat < 2 ^ n) : digitBits n digit = digit.toNat.size := by
  induction n generalizing digit with
  | zero =>
    have h0 : digit.toNat = 0 := by simpa using h
    rw [digitBits, h0, Nat.size_zero]
  | succ n ih =>
    rw [digitBits]
    by_cases h0 : digit = 0
    · rw [if_pos h0, h0]
      rfl
    · have hne : digit.toNat ≠ 0 := fun hz => h0 (BitVec.eq_of_toNat_eq hz)
      have hhalf : (digit >>> 1).toNat = digit.toNat / 2 := toNat_shr digit 1
      rw [if_neg h0, ih (by rw [hhalf]; omega), hhalf, size_succ hne]

theorem vliNumDigits_eq_zero (vli : Vli) : vliNumDigits vli = 0 ↔ val vli = 0 := by
  induction vli with
  | nil => simp [vliNumDigits]
  | cons d vli ih =>
    rw [vliNumDigits, val_cons]
    by_cases h : vliNumDigits vli = 0
    · rw [if_neg (by simpa using h), ih.mp h]
      by_cases hd : d = 0#64
      · subst hd
        simp
      · have hne : d.toNat ≠ 0 := fun hz => hd (BitVec.eq_of_toNat_eq hz)
        simp [hd, hne]
    · have hv : val vli ≠ 0 := fun hz => h (ih.mpr hz)
      rw [if_pos h]
      constructor
      · intro hz
        cases hz
      · intro hz
        omega

theorem size_add_mul {d V : ℕ} (hd : d < 2 ^ 64) (hV : V ≠ 0) : Nat.size (d + 2 ^ 64 * V) = Nat.size V + 64 := by
  refine eq_of_forall_ge_iff fun k => ?_
  have hsize := Nat.size_pos.mpr (Nat.pos_of_ne_zero hV)
  by_cases hk : k < 64
  · have : ¬ d + 2 ^ 64 * V < 2 ^ k := by
      have := Nat.pow_lt_pow_right (a := 2) (by decide) hk
      omega
    rw [Nat.size_le]
    omega
  · obtain ⟨j, rfl⟩ := Nat.exists_eq_add_of_le (not_lt.mp hk)
    rw [Nat.size_le, show Nat.size V + 64 ≤ 64 + j ↔ Nat.size V ≤ j by omega, Nat.size_le, pow_add]
    omega

/-- **`vli_numBits`** counts the bits of the number. -/
theorem vliNumBits_eq (vli : Vli) : vliNumBits vli = (val vli).size := by
  induction vli with
  | nil => rfl
  | cons d vli ih =>
    by_cases h : val vli = 0
    · have hz : vliNumDigits vli = 0 := (vliNumDigits_eq_zero vli).mpr h
      rw [val_cons, h, Nat.mul_zero, Nat.add_zero]
      by_cases hd : d = 0#64
      · subst hd
        simp [vliNumBits, vliNumDigits, hz]
      · simp [vliNumBits, vliNumDigits, hz, hd, digitBits_eq d.isLt]
    · have hz : vliNumDigits vli ≠ 0 := fun hz => h ((vliNumDigits_eq_zero vli).mp hz)
      rw [val_cons, size_add_mul d.isLt h, ← ih]
      simp only [vliNumBits, vliNumDigits, if_pos hz, if_neg hz, Nat.add_one_ne_zero, if_false, Nat.add_sub_cancel]
      obtain ⟨k, hk⟩ := Nat.exists_eq_succ_of_ne_zero hz
      rw [hk, List.getD_cons_succ, Nat.succ_sub_one]
      omega

/-! ### Products -/

namespace Accu

/-- The number in the accumulator. -/
def val (acc : Accu) : ℕ := acc.r01.toNat + 2 ^ 128 * acc.r2.toNat

theorem val_add {acc : Accu} {product : BitVec 128} (h : acc.val + product.toNat < 2 ^ 192) :
    (acc.add product).val = acc.val + product.toNat := by
  have h1 := acc.r01.isLt
  have h2 := acc.r2.isLt
  have hp := product.isLt
  unfold val at h
  unfold add val
  simp only [BitVec.lt_def, BitVec.toNat_add]
  have e0 : (0 : BitVec 64).toNat = 0 := rfl
  have e1 : (1 : BitVec 64).toNat = 1 := rfl
  split
  · rw [e1]
    omega
  · rw [e0]
    omega

/-- Terms are added one after the other. -/
theorem val_foldl {term : Accu → ℕ → Accu} {t : ℕ → ℕ}
    (hterm : ∀ acc i, acc.val + t i < 2 ^ 192 → (term acc i).val = acc.val + t i) (is : List ℕ) (acc : Accu)
    (h : acc.val + (is.map t).sum < 2 ^ 192) : (is.foldl term acc).val = acc.val + (is.map t).sum := by
  induction is generalizing acc with
  | nil => rfl
  | cons i is ih =>
    rw [List.map_cons, List.sum_cons] at h ⊢
    have hone := hterm acc i (by omega)
    rw [List.foldl_cons, ih _ (by omega), hone, Nat.add_assoc]

end Accu

theorem toNat_digitProduct (left right : BitVec 64) : (digitProduct left right).toNat = left.toNat * right.toNat := by
  have hl := left.isLt
  have hr := right.isLt
  have hmul : left.toNat * right.toNat < 2 ^ 64 * 2 ^ 64 := Nat.mul_lt_mul'' hl hr
  have hwide {d : BitVec 64} : (d.setWidth 128).toNat = d.toNat := by
    have := d.isLt
    rw [BitVec.toNat_setWidth, Nat.mod_eq_of_lt (by omega)]
  rw [digitProduct, BitVec.toNat_mul, hwide, hwide, Nat.mod_eq_of_lt (by omega)]

theorem columnRange_sum (n k stop : ℕ) (t : ℕ → ℕ) :
    ((columnRange n k stop).map t).sum = ∑ i ∈ Finset.Ico (k + 1 - n) stop, t i := by
  have hmin : (if k < n then 0 else k + 1 - n) = k + 1 - n := by
    split <;> omega
  unfold columnRange
  simp only [hmin]
  rfl

/-- The columns from the first on, each a digit further. -/
def columnsVal (col : ℕ → ℕ) : List ℕ → ℕ
  | [] => 0
  | k :: ks => col k + 2 ^ 64 * columnsVal col ks

theorem columnsVal_range' (col : ℕ → ℕ) (a m : ℕ) :
    columnsVal col (List.range' a m) = ∑ k ∈ Finset.range m, col (a + k) * (2 ^ 64) ^ k := by
  induction m generalizing a with
  | zero => rfl
  | succ m ih =>
    rw [List.range'_succ, columnsVal, ih, Finset.sum_range_succ', Finset.mul_sum, add_comm, Nat.add_zero, pow_zero, mul_one]
    congr 1
    refine Finset.sum_congr rfl fun k _ => ?_
    rw [show a + 1 + k = a + (k + 1) by omega]
    ring

theorem length_scanColumns (column : ℕ → Accu → Accu) (ks : List ℕ) (r01 : BitVec 128) :
    (scanColumns column ks r01).length = ks.length + 1 := by
  induction ks generalizing r01 with
  | nil => rfl
  | cons k ks ih => exact congrArg (· + 1) (ih _)

/-- The loop over the columns adds them up; what does not fit in the last digit is lost. -/
theorem scanColumns_val {column : ℕ → Accu → Accu} {col : ℕ → ℕ} (ks : List ℕ)
    (h : ∀ k ∈ ks, ∀ r01 : BitVec 128, (column k ⟨r01, 0⟩).val = r01.toNat + col k) (r01 : BitVec 128) :
    ∃ lost, val (scanColumns column ks r01) + 2 ^ (64 * (ks.length + 1)) * lost = r01.toNat + columnsVal col ks := by
  induction ks generalizing r01 with
  | nil =>
    refine ⟨r01.toNat / 2 ^ 64, ?_⟩
    simp only [scanColumns, val_cons, val_nil, columnsVal, BitVec.toNat_setWidth, List.length_nil]
    omega
  | cons k ks ih =>
    have hk := h k (by simp) r01
    obtain ⟨lost, hlost⟩ := ih (fun j hj => h j (by simp [hj]))
      ((column k ⟨r01, 0⟩).r01 >>> 64 ||| (column k ⟨r01, 0⟩).r2.setWidth 128 <<< 64)
    refine ⟨lost, ?_⟩
    -- the accumulator moves on by a digit
    have hmove : ((column k ⟨r01, 0⟩).r01 >>> 64 ||| (column k ⟨r01, 0⟩).r2.setWidth 128 <<< 64).toNat =
        (column k ⟨r01, 0⟩).val / 2 ^ 64 := by
      generalize column k ⟨r01, 0⟩ = acc
      have h1 := acc.r01.isLt
      have h2 := acc.r2.isLt
      have hshift : acc.r2.toNat <<< 64 % 2 ^ 128 = 2 ^ 64 * acc.r2.toNat := by
        rw [Nat.shiftLeft_eq]
        omega
      rw [BitVec.toNat_or, BitVec.toNat_ushiftRight, BitVec.toNat_shiftLeft, BitVec.toNat_setWidth,
        Nat.mod_eq_of_lt (a := acc.r2.toNat) (by omega), hshift, Nat.or_comm, Nat.shiftRight_eq_div_pow,
        ← Nat.two_pow_add_eq_or_of_lt (show acc.r01.toNat / 2 ^ 64 < 2 ^ 64 by omega), Accu.val]
      omega
    have hdigit : ((column k ⟨r01, 0⟩).r01.setWidth 64).toNat = (column k ⟨r01, 0⟩).val % 2 ^ 64 := by
      rw [BitVec.toNat_setWidth, Accu.val]
      omega
    rw [hmove] at hlost
    simp only [scanColumns, val_cons, columnsVal, List.length_cons]
    rw [hdigit, show 64 * (ks.length + 1 + 1) = 64 + 64 * (ks.length + 1) by ring, pow_add]
    have hsplit := Nat.div_add_mod (column k ⟨r01, 0⟩).val (2 ^ 64)
    linear_combination 2 ^ 64 * hlost + hsplit + hk

/-- The columns of two numbers give their product, as long as no column overflows the accumulator. -/
theorem scanColumns_product {scan : ℕ → Accu → Accu} (hlen : left.length = right.length) (hlong : left.length < 2 ^ 63)
    (hpos : 0 < left.length)
    (h : ∀ k < 2 * left.length - 1, ∀ acc : Accu, acc.val + column (word left) (word right) left.length k < 2 ^ 192 →
      (scan k acc).val = acc.val + column (word left) (word right) left.length k) :
    val (scanColumns scan (List.range (2 * left.length - 1)) 0) = val left * val right := by
  have hbound (k : ℕ) : column (word left) (word right) left.length k ≤ left.length * 2 ^ 128 := by
    calc column (word left) (word right) left.length k
        ≤ ∑ i ∈ Finset.Ico (k + 1 - left.length) (min (k + 1) left.length), 2 ^ 128 :=
          Finset.sum_le_sum fun i _ => by
            have := Nat.mul_lt_mul'' (word_lt left i) (word_lt right (k - i))
            omega
      _ = (min (k + 1) left.length - (k + 1 - left.length)) * 2 ^ 128 := by simp
      _ ≤ left.length * 2 ^ 128 := Nat.mul_le_mul_right _ (by omega)
  have hcol : ∀ k ∈ List.range (2 * left.length - 1), ∀ r01 : BitVec 128,
      (scan k ⟨r01, 0⟩).val = r01.toNat + column (word left) (word right) left.length k := by
    intro k hk r01
    have hr := r01.isLt
    have h0 : (Accu.mk r01 0).val = r01.toNat := by simp [Accu.val]
    have := hbound k
    rw [h k (List.mem_range.mp hk) _ (by rw [h0]; omega), h0]
  obtain ⟨lost, hlost⟩ := scanColumns_val _ hcol 0
  have hsum : columnsVal (column (word left) (word right) left.length) (List.range (2 * left.length - 1)) =
      val left * val right := by
    rw [List.range_eq_range', columnsVal_range', val_eq_sum, val_eq_sum, ← hlen, ← sum_columns]
    simp
  have hfits : val left * val right < 2 ^ (64 * (2 * left.length - 1 + 1)) := by
    rw [show 64 * (2 * left.length - 1 + 1) = 64 * left.length + 64 * left.length by omega, pow_add]
    exact Nat.mul_lt_mul'' (val_lt left) (hlen ▸ val_lt right)
  rw [hsum, List.length_range] at hlost
  have hnone : lost = 0 := by
    by_contra hne
    have : 2 ^ (64 * (2 * left.length - 1 + 1)) * 1 ≤ 2 ^ (64 * (2 * left.length - 1 + 1)) * lost :=
      Nat.mul_le_mul_left _ (Nat.pos_of_ne_zero hne)
    have h0 : (0 : BitVec 128).toNat = 0 := rfl
    omega
  rw [hnone, Nat.mul_zero, Nat.add_zero] at hlost
  rw [hlost]
  simp

theorem length_vliMult (hpos : 0 < left.length) : (vliMult left right).length = 2 * left.length := by
  rw [vliMult, length_scanColumns, List.length_range]
  omega

/-- **`vli_mult`** computes the product. -/
theorem vliMult_val (hlen : left.length = right.length) (hlong : left.length < 2 ^ 63) (hpos : 0 < left.length) :
    val (vliMult left right) = val left * val right := by
  refine scanColumns_product hlen hlong hpos fun k _ acc hacc => ?_
  have hrange := columnRange_sum left.length k (min (k + 1) left.length) fun i => word left i * word right (k - i)
  unfold multColumn
  rw [Accu.val_foldl (t := fun i => word left i * word right (k - i)), hrange]
  · rfl
  · intro acc i hi
    rw [Accu.val_add, toNat_digitProduct]
    · rfl
    · rw [toNat_digitProduct]
      exact hi
  · rw [hrange]
    exact hacc

theorem length_vliSquare (hpos : 0 < left.length) : (vliSquare left).length = 2 * left.length := by
  rw [vliSquare, length_scanColumns, List.length_range]
  omega

/-- A term counts once or twice. -/
theorem squareTerm_val (left : Vli) (k : ℕ) (acc : Accu) (i : ℕ)
    (h : acc.val + (if i < k - i then 2 else 1) * (word left i * word left (k - i)) < 2 ^ 192) :
    (squareTerm left k acc i).val = acc.val + (if i < k - i then 2 else 1) * (word left i * word left (k - i)) := by
  have hp : (digitProduct (left.getD i 0) (left.getD (k - i) 0)).toNat = word left i * word left (k - i) :=
    toNat_digitProduct _ _
  rw [← hp] at h ⊢
  unfold squareTerm
  generalize digitProduct (left.getD i 0) (left.getD (k - i) 0) = product at *
  have hlt := product.isLt
  by_cases hi : i < k - i
  · simp only [if_pos hi] at h ⊢
    have htop : ((product >>> 127).setWidth 64).toNat = product.toNat / 2 ^ 127 := by
      rw [BitVec.toNat_setWidth, BitVec.toNat_ushiftRight, Nat.shiftRight_eq_div_pow]
      omega
    have hlow : (product * 2).toNat = 2 * product.toNat % 2 ^ 128 := by
      rw [BitVec.toNat_mul, mul_comm]
      rfl
    -- the bit shifted out has gone to `r2`
    have hacc : (Accu.mk acc.r01 (acc.r2 + (product >>> 127).setWidth 64)).val =
        acc.val + 2 ^ 128 * (product.toNat / 2 ^ 127) := by
      have h2 := acc.r2.isLt
      unfold Accu.val at h ⊢
      simp only [BitVec.toNat_add, htop]
      omega
    rw [Accu.val_add, hacc, hlow]
    · omega
    · rw [hacc, hlow]
      omega
  · simp only [if_neg hi, one_mul] at h ⊢
    exact Accu.val_add h

/-- **`vli_square`** computes the square. -/
theorem vliSquare_val (hlong : left.length < 2 ^ 63) (hpos : 0 < left.length) :
    val (vliSquare left) = val left * val left := by
  refine scanColumns_product rfl hlong hpos fun k hk acc hacc => ?_
  have hhalf := halfColumn_eq (word left) (show k + 1 < 2 * left.length by omega)
  have hrange := columnRange_sum left.length k (k / 2 + 1) fun i =>
    (if i < k - i then 2 else 1) * (word left i * word left (k - i))
  rw [← hhalf] at hacc ⊢
  unfold squareColumn
  rw [Accu.val_foldl (squareTerm_val left k), hrange]
  · rfl
  · rw [hrange]
    exact hacc

end Ecc
end Coffer
