/-
# Inverses and products modulo the order of the curve

`vli_modInv` is the binary algorithm of Euclid: of two numbers `a` and `b`, at first the input and the modulus, an even one is
halved and else the larger one replaced by half the difference, until they are equal. Beside them `u` and `v` go through the
same steps modulo the modulus, so that `a` is `u` times the input and `b` is `v` times the input. A round takes a bit away from `a` or
from `b`: 512 rounds are enough.

`vli_modMult` divides by subtraction: the modulus is shifted up to the length of the product, subtracted where it fits, and
shifted down again by a bit.

Key definitions: `vliModInv`, `vliModMult`.
Key theorems: `vliModInv_val`, `vliModMult_val`.
-/
import Coffer.Attest.Field

namespace Coffer
namespace Ecc

open Lib Lib.Digits

variable {k n : ℕ} {vli : Vli}

/-! ### The code of the inverse -/

/-- `EVEN(vli)`. -/
def even (vli : Vli) : Bool := vli.getD 0 0 &&& 1#64 = 0

/-- `vli[NUM_ECC_DIGITS-1] |= digit`. -/
def orTop (vli : Vli) (digit : BitVec 64) : Vli := vli.set (numEccDigits - 1) (vli.getD (numEccDigits - 1) 0 ||| digit)

/-- The lines that halve `u`, or `v`, modulo `p_mod`. -/
def modHalf (u mod : Vli) : Vli :=
  let sum := if even u then (u, 0) else vliAdd u mod
  if sum.2 ≠ 0 then orTop (vliRshift1 sum.1) 0x8000000000000000#64 else vliRshift1 sum.1

/-- The lines that subtract `v` from `u`, or `u` from `v`, and halve. -/
def modSubHalf (u v mod : Vli) : Vli :=
  let u := if vliCmp u v < 0 then (vliAdd u mod).1 else u
  modHalf (vliSub u v).1 mod

/-- The numbers of `vli_modInv`. -/
structure InvState where
  a : Vli
  b : Vli
  u : Vli
  v : Vli

/-- The body of the loop. -/
def InvState.step (mod : Vli) (s : InvState) : InvState :=
  if even s.a then { s with a := vliRshift1 s.a, u := modHalf s.u mod }
  else if even s.b then { s with b := vliRshift1 s.b, v := modHalf s.v mod }
  else if vliCmp s.a s.b > 0 then { s with a := vliRshift1 (vliSub s.a s.b).1, u := modSubHalf s.u s.v mod }
  else { s with b := vliRshift1 (vliSub s.b s.a).1, v := modSubHalf s.v s.u mod }

/-- `vli_modInv`; 512 rounds are enough. -/
def vliModInv (input mod : Vli) : Vli :=
  if vliIsZero input then vliClear
  else (loopUpTo (fun s => decide (vliCmp s.a s.b ≠ 0)) (InvState.step mod) 512 ⟨input, mod, [1, 0, 0, 0], vliClear⟩).u

/-! ### The code of the product -/

/-- An array of `2 * NUM_ECC_DIGITS` digits, as its two halves. -/
structure Wide where
  lo : Vli
  hi : Vli

/-- `l_productBits`. -/
def Wide.numBits (product : Wide) : ℕ :=
  if vliNumBits product.hi ≠ 0 then vliNumBits product.hi + numEccDigits * 64 else vliNumBits product.lo

/-- `l_modMultiple` at first: `p_mod` shifted up by `shift` bits. -/
def shiftedMod (mod : Vli) (shift : ℕ) : Vli :=
  let digitShift := shift / 64
  let bitShift := shift % 64
  let shifted := vliLshift bitShift mod 0
  let digits := if bitShift ≠ 0 then shifted.1 ++ [shifted.2] else mod
  List.replicate digitShift 0 ++ digits ++ List.replicate (2 * numEccDigits - digitShift - digits.length) 0

/-- The halves of an array. -/
def halves (digits : Vli) : Wide := ⟨digits.take numEccDigits, digits.drop numEccDigits⟩

/-- The numbers of the loop of `vli_modMult`. -/
structure DivState where
  product : Wide
  multiple : Wide
  productBits : ℕ

/-- The multiple is subtracted, the lower half first. -/
def Wide.sub (product multiple : Wide) : Wide :=
  let low := vliSub product.lo multiple.lo
  let high := if low.2 ≠ 0 then (vliSub product.hi [1, 0, 0, 0]).1 else product.hi
  ⟨low.1, (vliSub high multiple.hi).1⟩

/-- The multiple is halved. -/
def Wide.half (multiple : Wide) : Wide :=
  let carry := (multiple.hi.getD 0 0 &&& 1#64) <<< 63
  ⟨orTop (vliRshift1 multiple.lo) carry, vliRshift1 multiple.hi⟩

/-- The multiple is not greater than the product. -/
def Wide.fits (multiple product : Wide) : Prop :=
  vliCmp multiple.hi product.hi < 0 ∨ (vliCmp multiple.hi product.hi = 0 ∧ vliCmp multiple.lo product.lo ≤ 0)

instance (multiple product : Wide) : Decidable (multiple.fits product) :=
  inferInstanceAs (Decidable (_ ∨ _))

/-- The body of the loop. -/
def DivState.step (s : DivState) : DivState :=
  ⟨if s.multiple.fits s.product then s.product.sub s.multiple else s.product, s.multiple.half, s.productBits - 1⟩

/-- `vli_modMult`; 257 rounds are enough. -/
def vliModMult (left right mod : Vli) : Vli :=
  let product := halves (vliMult left right)
  let modBits := vliNumBits mod
  if product.numBits < modBits then product.lo
  else
    let multiple := halves (shiftedMod mod (product.numBits - modBits))
    (loopUpTo (fun s => decide (s.productBits > numEccDigits * 64 ∨ vliCmp s.multiple.lo mod ≥ 0)) DivState.step 257
      ⟨product, multiple, product.numBits⟩).product.lo

/-! ### Halving -/

theorem even_iff : even vli = true ↔ val vli % 2 = 0 := by
  have hbit := vliTestBit_eq vli 0
  have hdef : vliTestBit vli 0 = !even vli := by
    simp [vliTestBit, even]
  rw [hdef, Nat.testBit_zero] at hbit
  by_cases h : val vli % 2 = 0
  · simp only [h, iff_true]
    have : decide (val vli % 2 = 1) = false := by simp [h]
    rw [this] at hbit
    simpa using hbit
  · simp only [h, iff_false]
    have : decide (val vli % 2 = 1) = true := by simp; omega
    rw [this] at hbit
    simpa using hbit

theorem exists_four (h : IsVli vli) : ∃ d0 d1 d2 d3, vli = [d0, d1, d2, d3] := by
  match vli, h with
  | [d0, d1, d2, d3], _ => exact ⟨d0, d1, d2, d3, rfl⟩

theorem orTop_zero (h : IsVli vli) : orTop vli 0#64 = vli := by
  obtain ⟨d0, d1, d2, d3, rfl⟩ := exists_four h
  simp [orTop, numEccDigits]

/-- The highest bit is set in a number that does not have it. -/
theorem orTop_val (h : IsVli vli) (hlt : val vli < 2 ^ 255) :
    IsVli (orTop vli 0x8000000000000000#64) ∧ val (orTop vli 0x8000000000000000#64) = val vli + 2 ^ 255 := by
  obtain ⟨d0, d1, d2, d3, rfl⟩ := exists_four h
  refine ⟨rfl, ?_⟩
  simp only [val_cons, val_nil] at hlt
  have h3 : d3.toNat < 2 ^ 63 := by omega
  have hor : (d3 ||| 0x8000000000000000#64).toNat = d3.toNat + 2 ^ 63 := by
    rw [BitVec.toNat_or, Nat.or_comm]
    have := Nat.two_pow_add_eq_or_of_lt h3 1
    rw [Nat.mul_one] at this
    rw [Nat.add_comm]
    exact this.symm
  show val [d0, d1, d2, d3 ||| 0x8000000000000000#64] = _
  simp only [val_cons, val_nil, hor]
  omega

variable {u v mod : Vli}

theorem IsVli.rshift1 (h : IsVli vli) : IsVli (vliRshift1 vli) := (length_vliRshift1 vli).trans h

theorem modHalf_val (hu : IsVli u) (hm : IsVli mod) (hodd : val mod % 2 = 1) :
    IsVli (modHalf u mod) ∧ val (modHalf u mod) = if val u % 2 = 0 then val u / 2 else (val u + val mod) / 2 := by
  unfold modHalf
  by_cases he : val u % 2 = 0
  · rw [if_pos (even_iff.mpr he), if_neg (by simp), if_pos he]
    exact ⟨hu.rshift1, vliRshift1_val u⟩
  · obtain ⟨hsum, hval, hle⟩ := hu.add hm
    have hlow := hsum.lt
    rw [if_neg (even_iff.not.mpr he), if_neg he]
    simp only [ne_eq, toNat_eq_zero]
    split
    · obtain ⟨htop, hv⟩ := orTop_val hsum.rshift1 (by rw [vliRshift1_val]; omega)
      refine ⟨htop, ?_⟩
      rw [hv, vliRshift1_val]
      omega
    · refine ⟨hsum.rshift1, ?_⟩
      rw [vliRshift1_val]
      omega

theorem modHalf_spec (hu : IsVli u) (hm : IsVli mod) (hlt : val u < val mod) (hodd : val mod % 2 = 1) :
    IsVli (modHalf u mod) ∧ val (modHalf u mod) < val mod ∧ 2 * val (modHalf u mod) ≡ val u [MOD val mod] := by
  obtain ⟨hv, hval⟩ := modHalf_val hu hm hodd
  refine ⟨hv, ?_, ?_⟩
  · rw [hval]
    split <;> omega
  · rw [hval]
    split
    · rw [show 2 * (val u / 2) = val u by omega]
    · rw [show 2 * ((val u + val mod) / 2) = val u + val mod by omega]
      exact Nat.add_modEq_right ..

theorem modSubHalf_spec (hu : IsVli u) (hv : IsVli v) (hm : IsVli mod) (hlt : val u < val mod) (hvt : val v < val mod)
    (hodd : val mod % 2 = 1) : IsVli (modSubHalf u v mod) ∧ val (modSubHalf u v mod) < val mod ∧
      2 * val (modSubHalf u v mod) + val v ≡ val u [MOD val mod] := by
  have hmlt := hm.lt
  -- the difference, brought above zero by the modulus
  have hdiff : ∃ d, IsVli d ∧ modSubHalf u v mod = modHalf d mod ∧ val d < val mod ∧ val d + val v ≡ val u [MOD val mod] := by
    unfold modSubHalf
    have hcmp : vliCmp u v < 0 ↔ val u < val v := by
      have := cmp_nonneg hu hv
      omega
    simp only [hcmp]
    split
    · obtain ⟨hs, hsv, -⟩ := hu.add hm
      obtain ⟨hd, hdv, hdl⟩ := hs.sub hv
      have := hd.lt
      have := hs.lt
      have hval : val (vliSub (vliAdd u mod).1 v).1 + val v = val u + val mod := by omega
      exact ⟨_, hd, rfl, by omega, hval ▸ Nat.add_modEq_right ..⟩
    · obtain ⟨hd, hdv, hdl⟩ := hu.sub hv
      have := hd.lt
      have hval : val (vliSub u v).1 + val v = val u := by omega
      exact ⟨_, hd, rfl, by omega, hval ▸ Nat.ModEq.rfl⟩
  obtain ⟨d, hd, he, hdl, hdm⟩ := hdiff
  obtain ⟨h1, h2, h3⟩ := modHalf_spec hd hm hdl hodd
  rw [he]
  exact ⟨h1, h2, (h3.add_right _).trans hdm⟩

/-! ### The inverse -/

/-- What the loop of `vli_modInv` keeps, for the input `x`. -/
structure InvOk (x : ℕ) (mod : Vli) (s : InvState) : Prop where
  a : IsVli s.a
  b : IsVli s.b
  u : IsVli s.u
  v : IsVli s.v
  a_pos : 0 < val s.a
  b_pos : 0 < val s.b
  u_lt : val s.u < val mod
  v_lt : val s.v < val mod
  /-- One of the two is odd. -/
  odd : val s.a % 2 = 1 ∨ val s.b % 2 = 1
  a_mod : val s.u * x ≡ val s.a [MOD val mod]
  b_mod : val s.v * x ≡ val s.b [MOD val mod]
  gcd : (val s.a).gcd (val s.b) = x.gcd (val mod)

namespace InvOk

variable {x : ℕ} {s : InvState}

theorem swap (h : InvOk x mod s) : InvOk x mod ⟨s.b, s.a, s.v, s.u⟩ :=
  ⟨h.b, h.a, h.v, h.u, h.b_pos, h.a_pos, h.v_lt, h.u_lt, h.odd.symm, h.b_mod, h.a_mod, (Nat.gcd_comm ..).trans h.gcd⟩

theorem coprime_two (h : n % 2 = 1) : Nat.Coprime 2 n := Nat.coprime_two_left.mpr (Nat.odd_iff.mpr h)

theorem size_half_lt (hn : 0 < n) (hk : k ≤ n / 2) : k.size < n.size := by
  rw [size_succ hn.ne', Nat.lt_succ_iff]
  exact Nat.size_le_size hk

theorem halve (h : InvOk x mod s) (hm : IsVli mod) (hodd : val mod % 2 = 1) (he : val s.a % 2 = 0) :
    InvOk x mod { s with a := vliRshift1 s.a, u := modHalf s.u mod } ∧ (val (vliRshift1 s.a)).size < (val s.a).size := by
  obtain ⟨hu, hult, hu2⟩ := modHalf_spec h.u hm h.u_lt hodd
  have hb : val s.b % 2 = 1 := h.odd.resolve_left (by omega)
  have hpos := h.a_pos
  have ha := vliRshift1_val s.a
  have htwice : 2 * val (vliRshift1 s.a) = val s.a := by omega
  refine ⟨⟨h.a.rshift1, h.b, hu, h.v, ?_, h.b_pos, hult, h.v_lt, Or.inr hb, ?_, h.b_mod, ?_⟩, ?_⟩
  · rw [ha]
    omega
  · refine Nat.ModEq.cancel_left_of_coprime (c := 2) (Nat.coprime_comm.mp (coprime_two hodd)) ?_
    rw [htwice, ← mul_assoc]
    exact (hu2.mul_right x).trans h.a_mod
  · rw [← h.gcd, ← htwice, (coprime_two hb).gcd_mul_left_cancel]
  · exact size_half_lt hpos ha.le

/-- Both are odd, and the larger `a` is replaced by half the difference. -/
theorem subtract (h : InvOk x mod s) (hm : IsVli mod) (hodd : val mod % 2 = 1) (ha : val s.a % 2 = 1) (hb : val s.b % 2 = 1)
    (hlt : val s.b < val s.a) :
    InvOk x mod { s with a := vliRshift1 (vliSub s.a s.b).1, u := modSubHalf s.u s.v mod } ∧
      (val (vliRshift1 (vliSub s.a s.b).1)).size < (val s.a).size := by
  obtain ⟨hu, hult, hu2⟩ := modSubHalf_spec h.u h.v hm h.u_lt h.v_lt hodd
  obtain ⟨hd, hdv, -⟩ := h.a.sub h.b
  have hdl := hd.lt
  have hal := h.a.lt
  have hdiff : val (vliSub s.a s.b).1 = val s.a - val s.b := by omega
  have hhalf := vliRshift1_val (vliSub s.a s.b).1
  have htwice : 2 * val (vliRshift1 (vliSub s.a s.b).1) = val s.a - val s.b := by omega
  refine ⟨⟨hd.rshift1, h.b, hu, h.v, by simp only; omega, h.b_pos, hult, h.v_lt, Or.inr hb, ?_, h.b_mod, ?_⟩, ?_⟩
  · refine Nat.ModEq.cancel_left_of_coprime (c := 2) (Nat.coprime_comm.mp (coprime_two hodd)) ?_
    have hsum : 2 * val (modSubHalf s.u s.v mod) * x + val s.v * x ≡ val s.u * x [MOD val mod] := by
      rw [← add_mul]
      exact hu2.mul_right x
    have hgoal : 2 * val (vliRshift1 (vliSub s.a s.b).1) + val s.b = val s.a := by omega
    rw [← mul_assoc]
    refine Nat.ModEq.add_right_cancel h.b_mod ?_
    rw [hgoal]
    exact hsum.trans h.a_mod
  · rw [← h.gcd, ← Nat.gcd_sub_self_left hlt.le, ← htwice, (coprime_two hb).gcd_mul_left_cancel]
  · exact size_half_lt h.a_pos (by omega)

/-- **A round of `vli_modInv`.** -/
theorem step (h : InvOk x mod s) (hm : IsVli mod) (hodd : val mod % 2 = 1) (hne : vliCmp s.a s.b ≠ 0) :
    InvOk x mod (s.step mod) ∧
      (val (s.step mod).a).size + (val (s.step mod).b).size < (val s.a).size + (val s.b).size := by
  rw [h.a.cmp h.b, ne_eq, Int.sign_eq_zero_iff_zero] at hne
  unfold InvState.step
  simp only [even_iff, gt_iff_lt]
  split
  · rename_i ha
    obtain ⟨hok, hlt⟩ := h.halve hm hodd ha
    exact ⟨hok, by simpa using hlt⟩
  rename_i ha
  split
  · rename_i hb
    obtain ⟨hok, hlt⟩ := h.swap.halve hm hodd hb
    exact ⟨hok.swap, by simpa using hlt⟩
  rename_i hb
  have hpos : 0 < vliCmp s.a s.b ↔ val s.b < val s.a := by
    rw [h.a.cmp h.b, Int.sign_pos_iff]
    omega
  simp only [hpos]
  split
  · rename_i hgt
    obtain ⟨hok, hlt⟩ := h.subtract hm hodd (by omega) (by omega) hgt
    exact ⟨hok, by simpa using hlt⟩
  · obtain ⟨hok, hlt⟩ := h.swap.subtract hm hodd (by simp only; omega) (by simp only; omega) (by simp only; omega)
    exact ⟨hok.swap, by simpa using hlt⟩

end InvOk

theorem size_le_of_isVli (h : IsVli vli) : (val vli).size ≤ 256 := Nat.size_le.mpr h.lt

/-- **`vli_modInv`.** The result times the input is their greatest common divisor with the modulus. -/
theorem vliModInv_val {input : Vli} (hx : IsVli input) (hm : IsVli mod) (hodd : val mod % 2 = 1) (h1 : 1 < val mod)
    (h0 : val input ≠ 0) :
    IsVli (vliModInv input mod) ∧ val (vliModInv input mod) < val mod ∧
      val (vliModInv input mod) * val input ≡ (val input).gcd (val mod) [MOD val mod] := by
  have hnz : vliIsZero input = false := Bool.eq_false_iff.mpr (vliIsZero_iff.not.mpr h0)
  have hstart : InvOk (val input) mod ⟨input, mod, [1, 0, 0, 0], vliClear⟩ := by
    refine ⟨hx, hm, rfl, rfl, Nat.pos_of_ne_zero h0, by simp only; omega, ?_, ?_, Or.inr hodd, ?_, ?_, rfl⟩
    · exact h1
    · show 0 < val mod
      omega
    · show 1 * val input ≡ val input [MOD val mod]
      rw [one_mul]
    · show 0 * val input ≡ val mod [MOD val mod]
      rw [zero_mul]
      exact (Nat.mod_self _).symm
  set s := loopUpTo (fun s => decide (vliCmp s.a s.b ≠ 0)) (InvState.step mod) 512 ⟨input, mod, [1, 0, 0, 0], vliClear⟩ with hs
  have hloop : InvOk (val input) mod s ∧ decide (vliCmp s.a s.b ≠ 0) = false := by
    refine loopUpTo_spec (m := fun s => (val s.a).size + (val s.b).size) ?_ hstart ?_
    · intro r hr hc
      exact hr.step hm hodd (of_decide_eq_true hc)
    · have := size_le_of_isVli hx
      have := size_le_of_isVli hm
      simp only
      omega
  obtain ⟨hok, hexit⟩ := hloop
  have heq : val s.a = val s.b := by
    have := of_decide_eq_false hexit
    rw [not_not, hok.a.cmp hok.b, Int.sign_eq_zero_iff_zero] at this
    omega
  have hgcd := hok.gcd
  rw [← heq, Nat.gcd_self] at hgcd
  unfold vliModInv
  rw [hnz, if_neg (by simp), ← hs, ← hgcd]
  exact ⟨hok.u, hok.u_lt, hok.a_mod⟩

theorem vliModInv_zero {input : Vli} (h0 : val input = 0) (mod : Vli) : vliModInv input mod = vliClear := by
  rw [vliModInv, if_pos (vliIsZero_iff.mpr h0)]

/-! ### The product -/

namespace Wide

/-- Two halves of `NUM_ECC_DIGITS` digits. -/
structure Ok (x : Wide) : Prop where
  lo : IsVli x.lo
  hi : IsVli x.hi

/-- The number in the two halves. -/
def val (x : Wide) : ℕ := Digits.val x.lo + 2 ^ 256 * Digits.val x.hi

variable {product multiple : Wide}

theorem fits_iff (hp : product.Ok) (hm : multiple.Ok) : multiple.fits product ↔ multiple.val ≤ product.val := by
  have hpl := hp.lo.lt
  have hml := hm.lo.lt
  have hlo : vliCmp multiple.lo product.lo ≤ 0 ↔ Digits.val multiple.lo ≤ Digits.val product.lo := by
    rw [hm.lo.cmp hp.lo, Int.sign_nonpos_iff]
    omega
  have hlt : vliCmp multiple.hi product.hi < 0 ↔ Digits.val multiple.hi < Digits.val product.hi := by
    rw [hm.hi.cmp hp.hi, Int.sign_neg_iff]
    omega
  have heq : vliCmp multiple.hi product.hi = 0 ↔ Digits.val multiple.hi = Digits.val product.hi := by
    rw [hm.hi.cmp hp.hi, Int.sign_eq_zero_iff_zero]
    omega
  rw [fits, hlo, hlt, heq, val, val]
  omega

/-- The difference, with the borrow of the lower half. -/
theorem sub_val (hp : product.Ok) (hm : multiple.Ok) (h : multiple.val ≤ product.val) :
    (product.sub multiple).Ok ∧ (product.sub multiple).val = product.val - multiple.val := by
  obtain ⟨hl, hlv, hlb⟩ := hp.lo.sub hm.lo
  have hll := hl.lt
  have hpl := hp.lo.lt
  have hml := hm.lo.lt
  have hone : IsVli ([1, 0, 0, 0] : Vli) := rfl
  have hv1 : Digits.val ([1, 0, 0, 0] : Vli) = 1 := rfl
  unfold val at h
  unfold sub val
  simp only [ne_eq, toNat_eq_zero]
  split
  · obtain ⟨hh, hhv, hhb⟩ := hp.hi.sub hone
    obtain ⟨hr, hrv, hrb⟩ := hh.sub hm.hi
    have := hr.lt
    have := hh.lt
    have := hp.hi.lt
    have := hm.hi.lt
    rw [hv1] at hhv
    exact ⟨⟨hl, hr⟩, by omega⟩
  · obtain ⟨hr, hrv, hrb⟩ := hp.hi.sub hm.hi
    have := hr.lt
    have := hp.hi.lt
    exact ⟨⟨hl, hr⟩, by omega⟩

theorem half_val (hm : multiple.Ok) : multiple.half.Ok ∧ multiple.half.val = multiple.val / 2 := by
  have hlo := vliRshift1_val multiple.lo
  have hhi := vliRshift1_val multiple.hi
  have hlt := hm.lo.lt
  unfold half val
  by_cases he : Digits.val multiple.hi % 2 = 0
  · have hbit : multiple.hi.getD 0 0 &&& 1#64 = 0#64 := of_decide_eq_true (even_iff.mpr he)
    simp only [hbit, BitVec.zero_shiftLeft, orTop_zero hm.lo.rshift1]
    refine ⟨⟨hm.lo.rshift1, hm.hi.rshift1⟩, ?_⟩
    rw [hlo, hhi]
    omega
  · have hbit : multiple.hi.getD 0 0 &&& 1#64 = 1#64 := by
      have hne : multiple.hi.getD 0 0 &&& 1#64 ≠ 0#64 := fun h => even_iff.not.mpr he (decide_eq_true h)
      have hmod : (multiple.hi.getD 0 0 &&& 1#64).toNat = (multiple.hi.getD 0 0).toNat % 2 := by
        rw [BitVec.toNat_and]
        exact Nat.and_one_is_mod _
      refine BitVec.eq_of_toNat_eq ?_
      have hne' : (multiple.hi.getD 0 0 &&& 1#64).toNat ≠ 0 := fun h => hne (BitVec.eq_of_toNat_eq h)
      show _ = 1
      omega
    obtain ⟨htop, htv⟩ := orTop_val hm.lo.rshift1 (by rw [hlo]; omega)
    have hcarry : 1#64 <<< 63 = 0x8000000000000000#64 := rfl
    simp only [hbit, hcarry]
    refine ⟨⟨htop, hm.hi.rshift1⟩, ?_⟩
    rw [htv, hlo, hhi]
    omega

theorem halves_ok {digits : Vli} (h : digits.length = 8) : (halves digits).Ok ∧ (halves digits).val = Digits.val digits := by
  have hlo : (digits.take 4).length = 4 := by rw [List.length_take, h]; rfl
  refine ⟨⟨hlo, ?_⟩, ?_⟩
  · show (digits.drop 4).length = 4
    rw [List.length_drop, h]
  · have happ := val_append (digits.take 4) (digits.drop 4)
    rw [List.take_append_drop, hlo] at happ
    exact happ.symm

theorem numBits_eq (hp : product.Ok) : product.numBits = product.val.size := by
  unfold numBits
  simp only [vliNumBits_eq]
  by_cases h0 : Digits.val product.hi = 0
  · rw [h0, if_neg (by simp), val, h0, Nat.mul_zero, Nat.add_zero]
  · have hsize := Nat.size_pos.mpr (Nat.pos_of_ne_zero h0)
    rw [if_pos hsize.ne', val, eq_comm]
    refine eq_of_forall_ge_iff fun k => ?_
    have hlt := hp.lo.lt
    rw [Nat.size_le]
    by_cases hk : k < 256
    · have hpow := Nat.pow_lt_pow_right (a := 2) (by decide) hk
      have : numEccDigits * 64 = 256 := rfl
      omega
    · obtain ⟨j, rfl⟩ := Nat.exists_eq_add_of_le (not_lt.mp hk)
      have : numEccDigits * 64 = 256 := rfl
      rw [this, show Nat.size (Digits.val product.hi) + 256 ≤ 256 + j ↔ Nat.size (Digits.val product.hi) ≤ j by omega,
        Nat.size_le, pow_add]
      omega

end Wide

/-- The modulus is shifted by whole digits and by bits. -/
theorem shiftedMod_val (hm : IsVli mod) {shift : ℕ} (hs : shift ≤ 256) :
    (shiftedMod mod shift).length = 8 ∧ val (shiftedMod mod shift) = 2 ^ shift * val mod := by
  have hpow : 2 ^ shift = 2 ^ (64 * (shift / 64)) * 2 ^ (shift % 64) := by
    rw [← pow_add, Nat.div_add_mod]
  have hbit : shift % 64 < 64 := Nat.mod_lt _ (by decide)
  have hlift := vliLshift_val hbit.le mod (show (0 : BitVec 64).toNat < _ from Nat.two_pow_pos _)
  have hlen := length_vliLshift (shift % 64) mod 0
  have hm4 : mod.length = 4 := hm
  have h8 : 2 * numEccDigits = 8 := rfl
  unfold shiftedMod
  simp only [h8]
  by_cases h0 : shift % 64 = 0
  · rw [if_neg (by simpa using h0)]
    refine ⟨by simp [hm4]; omega, ?_⟩
    rw [val_append, val_append, val_replicate_zero, val_replicate_zero, List.length_replicate, hpow, h0]
    ring
  · rw [if_pos h0]
    refine ⟨by simp only [List.length_append, List.length_replicate, List.length_singleton, hlen, hm4]; omega, ?_⟩
    have hzero : (0 : BitVec 64).toNat = 0 := rfl
    rw [val_append, val_append, val_append, val_replicate_zero, val_replicate_zero, List.length_replicate, hpow, hlen,
      val_cons, val_nil]
    rw [hzero] at hlift
    linear_combination 2 ^ (64 * (shift / 64)) * hlift

/-- What the loop of `vli_modMult` keeps of the product `n`: either the multiple is the modulus shifted by `productBits - 256`
bits, and the product is less than twice the multiple, or the loop is at its end. -/
structure DivOk (n : ℕ) (mod : Vli) (s : DivState) : Prop where
  product : s.product.Ok
  multiple : s.multiple.Ok
  cong : s.product.val ≡ n [MOD val mod]
  shift : (256 ≤ s.productBits ∧ s.multiple.val = 2 ^ (s.productBits - 256) * val mod ∧
    s.product.val < 2 * s.multiple.val) ∨
      (s.productBits = 255 ∧ s.multiple.val = val mod / 2 ∧ s.product.val < val mod)

/-- **A round of `vli_modMult`.** -/
theorem DivOk.step {s : DivState} (h : DivOk n mod s) (hbits : 256 ≤ s.productBits) : DivOk n mod s.step := by
  obtain ⟨-, hmv, hlt⟩ := h.shift.resolve_right (by omega)
  obtain ⟨hho, hhv⟩ := Wide.half_val h.multiple
  -- the product after the round: less than the multiple
  have hsub : ∃ p : Wide, p.Ok ∧ s.step.product = p ∧ p.val ≡ n [MOD val mod] ∧ p.val < s.multiple.val := by
    by_cases hf : s.multiple.val ≤ s.product.val
    · obtain ⟨ho, hv⟩ := Wide.sub_val h.product h.multiple hf
      refine ⟨_, ho, if_pos ((Wide.fits_iff h.product h.multiple).mpr hf), ?_, by omega⟩
      refine Nat.ModEq.trans ?_ h.cong
      rw [hv]
      have hdvd : val mod ∣ s.multiple.val := ⟨_, hmv.trans (mul_comm _ _)⟩
      exact ((Nat.modEq_iff_dvd' (Nat.sub_le _ _)).mpr (by rw [Nat.sub_sub_self hf]; exact hdvd))
    · exact ⟨_, h.product, if_neg ((Wide.fits_iff h.product h.multiple).not.mpr hf), h.cong, by omega⟩
  obtain ⟨p, hpo, hpe, hpc, hpl⟩ := hsub
  refine ⟨hpe ▸ hpo, hho, hpe ▸ hpc, ?_⟩
  rw [hpe]
  show (256 ≤ s.productBits - 1 ∧ s.multiple.half.val = 2 ^ (s.productBits - 1 - 256) * val mod ∧
      p.val < 2 * s.multiple.half.val) ∨ s.productBits - 1 = 255 ∧ s.multiple.half.val = val mod / 2 ∧ p.val < val mod
  rcases hbits.eq_or_lt with heq | hgt
  · rw [← heq, Nat.sub_self, pow_zero, one_mul] at hmv
    exact Or.inr ⟨by omega, by rw [hhv, hmv], by omega⟩
  · refine Or.inl ⟨by omega, ?_⟩
    rw [show s.productBits - 256 = s.productBits - 1 - 256 + 1 by omega, pow_succ] at hmv
    have htwice : s.multiple.val = 2 * (2 ^ (s.productBits - 1 - 256) * val mod) := by rw [hmv]; ring
    constructor <;> omega

/-- At first the shifted modulus has as many bits as the product, so that its double is longer. -/
theorem DivOk.start {product : Wide} (hp : product.Ok) (hm : IsVli mod) (hbig : 2 ^ 255 ≤ val mod) (hk : 256 ≤ k)
    (hle : k ≤ 512) (hlt : product.val < 2 ^ k) : DivOk product.val mod ⟨product, halves (shiftedMod mod (k - 256)), k⟩ := by
  obtain ⟨hslen, hsv⟩ := shiftedMod_val hm (show k - 256 ≤ 256 by omega)
  obtain ⟨hmo, hmv⟩ := Wide.halves_ok hslen
  refine ⟨hp, hmo, Nat.ModEq.rfl, Or.inl ⟨hk, by simp only [hmv, hsv], ?_⟩⟩
  have hpow : 2 ^ k = 2 * (2 ^ (k - 256) * 2 ^ 255) := by
    rw [← pow_add, ← pow_succ']
    congr 1
    omega
  have hmul : 2 ^ (k - 256) * 2 ^ 255 ≤ 2 ^ (k - 256) * val mod := Nat.mul_le_mul_left _ hbig
  simp only [hmv, hsv]
  omega

/-- While the loop goes on, the multiple is still the shifted modulus. -/
theorem DivOk.going_iff {s : DivState} (h : DivOk n mod s) (hm : IsVli mod) (hpos : 0 < val mod) :
    (s.productBits > numEccDigits * 64 ∨ vliCmp s.multiple.lo mod ≥ 0) ↔ 256 ≤ s.productBits := by
  have h256 : numEccDigits * 64 = 256 := rfl
  have hlo := h.multiple.lo.lt
  have hmlt := hm.lt
  rw [ge_iff_le, cmp_nonneg h.multiple.lo hm, h256]
  rcases h.shift with ⟨hb, hv, -⟩ | ⟨hb, hv, -⟩
  · rcases hb.eq_or_lt with heq | hgt
    · rw [← heq, Nat.sub_self, pow_zero, one_mul] at hv
      unfold Wide.val at hv
      omega
    · omega
  · unfold Wide.val at hv
    omega

theorem divLoop_val {product : Wide} (hp : product.Ok) (hm : IsVli mod) (hbig : 2 ^ 255 ≤ val mod) (hk : 256 ≤ k)
    (hle : k ≤ 512) (hlt : product.val < 2 ^ k) {s : DivState}
    (hs : s = loopUpTo (fun s => decide (s.productBits > numEccDigits * 64 ∨ vliCmp s.multiple.lo mod ≥ 0)) DivState.step 257
      ⟨product, halves (shiftedMod mod (k - 256)), k⟩) :
    IsVli s.product.lo ∧ val s.product.lo = product.val % val mod := by
  have hloop : DivOk product.val mod s ∧
      decide (s.productBits > numEccDigits * 64 ∨ vliCmp s.multiple.lo mod ≥ 0) = false := by
    rw [hs]
    refine loopUpTo_spec (m := fun s => s.productBits - 255) ?_ (DivOk.start hp hm hbig hk hle hlt) ?_
    · intro r hr hc
      have hge := (hr.going_iff hm (by omega)).mp (of_decide_eq_true hc)
      refine ⟨hr.step hge, ?_⟩
      show r.productBits - 1 - 255 < r.productBits - 255
      omega
    · simp only
      omega
  obtain ⟨hok, hexit⟩ := hloop
  have hend := (hok.going_iff hm (by omega)).not.mp (of_decide_eq_false hexit)
  obtain ⟨-, -, hlow⟩ := hok.shift.resolve_left (by omega)
  have hcong := hok.cong
  have hmlt := hm.lt
  rw [Nat.ModEq, Nat.mod_eq_of_lt hlow] at hcong
  refine ⟨hok.product.lo, ?_⟩
  rw [← hcong]
  unfold Wide.val at hlow ⊢
  omega

/-- **`vli_modMult`** computes the remainder of the product, for a modulus of 256 bits. -/
theorem vliModMult_val {left right : Vli} (hl : IsVli left) (hr : IsVli right) (hm : IsVli mod) (hbig : 2 ^ 255 ≤ val mod) :
    IsVli (vliModMult left right mod) ∧ val (vliModMult left right mod) = val left * val right % val mod := by
  have hllen : left.length = 4 := hl
  have hlen : (vliMult left right).length = 8 := by rw [length_vliMult (by omega), hllen]
  obtain ⟨hp, hpv⟩ := Wide.halves_ok hlen
  have hbits := Wide.numBits_eq hp
  have hmod : vliNumBits mod = 256 := by
    rw [vliNumBits_eq]
    exact le_antisymm (Nat.size_le.mpr hm.lt) (Nat.succ_le_of_lt (Nat.lt_size.mpr hbig))
  rw [← vliMult_val (hl.trans hr.symm) (by omega) (by omega), ← hpv]
  unfold vliModMult
  simp only [hmod]
  split
  · -- the product is shorter than the modulus
    rename_i hshort
    rw [hbits] at hshort
    have hlow : (halves (vliMult left right)).val < 2 ^ 255 := Nat.size_le.mp (by omega)
    refine ⟨hp.lo, ?_⟩
    rw [Nat.mod_eq_of_lt (by omega)]
    unfold Wide.val at hlow ⊢
    omega
  · rename_i hlong
    have hsize : (halves (vliMult left right)).val.size ≤ 512 := by
      rw [hpv, Nat.size_le]
      exact (val_lt _).trans_eq (by rw [hlen])
    exact divLoop_val hp hm hbig (by omega) (by omega) (Nat.size_le.mp hbits.ge) rfl

end Ecc
end Coffer
