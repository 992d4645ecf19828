/-
# Two versions of `memset`

The manager's `memset` (`util/string.c`) stores words: eight bytes at a time while more than eight are
left, then four, two and single bytes. The word is the `int` argument, extended by its sign, or-ed with
itself shifted by one, two and four bytes. The allocator's (`emod_alloc/heap.c`) stores bytes.

Byte `i` of the word is the bytes 0 to `i` of the argument or-ed (`fillWord_byte`), which is the low byte
only if the others add no bit to it. `memset_iff`: the two versions agree exactly if that is so for the
bytes of the widest store. `memset_differs`: with −2 they do not.
-/
import Coffer.Lib.Mem

namespace Coffer

open Lib

variable {i len n offset : ℕ}

/-! ### The two loops -/

/-- `fill`: the argument in every byte of a word. -/
def fillWord (byte : BitVec 32) : BitVec 64 :=
  let fill := byte.signExtend 64
  let fill := fill ||| fill <<< 8
  let fill := fill ||| fill <<< 16
  fill ||| fill <<< 32

/-- The loop of `memset`, for at most `n` stores. -/
def memsetLoop (byte : BitVec 32) (dst : ℕ) : ℕ → ℕ → ℕ → Mem → Mem
  | 0, _, _, m => m
  | n + 1, offset, len, m =>
    if len = 0 then m
    else if 8 < len then
      memsetLoop byte dst n (offset + 8) (len - 8) (m.store (dst + offset) 8 (fillWord byte).toNat)
    else if 4 < len then
      memsetLoop byte dst n (offset + 4) (len - 4) (m.store (dst + offset) 4 (fillWord byte &&& 0xFFFFFFFF).toNat)
    else if 2 < len then
      memsetLoop byte dst n (offset + 2) (len - 2) (m.store (dst + offset) 2 (fillWord byte &&& 0xFFFF).toNat)
    else memsetLoop byte dst n (offset + 1) (len - 1) (m.store (dst + offset) 1 byte.toNat)

/-- `memset` of the manager: every store fills a byte at least. -/
def memset (m : Mem) (dst : ℕ) (byte : BitVec 32) (len : ℕ) : Mem := memsetLoop byte dst len 0 len m

/-- `memset` of the allocator. -/
def allocMemset (c : BitVec 32) (temp : ℕ) : ℕ → Mem → Mem
  | 0, m => m
  | count + 1, m => allocMemset c (temp + 1) count (m.store temp 1 c.toNat)

/-! ### The bytes of the word -/

/-- Byte `i` of a word. -/
def wordByte (v : BitVec 64) (i : ℕ) : BitVec 8 := v.extractLsb' (8 * i) 8

/-- Byte `i` of the argument, extended by its sign. -/
def argByte (byte : BitVec 32) (i : ℕ) : BitVec 8 := wordByte (byte.signExtend 64) i

/-- The bytes up to the `i`-th or-ed. -/
def orBytes (byte : BitVec 32) : ℕ → BitVec 8
  | 0 => argByte byte 0
  | i + 1 => argByte byte (i + 1) ||| orBytes byte i

theorem wordByte_or_shift (v : BitVec 64) (k : ℕ) (hi : i < 8) :
    wordByte (v ||| v <<< (8 * k)) i = wordByte v i ||| if k ≤ i then wordByte v (i - k) else 0#8 := by
  unfold wordByte
  apply BitVec.eq_of_getLsbD_eq
  intro j hj
  rw [BitVec.getLsbD_or, BitVec.getLsbD_extractLsb', BitVec.getLsbD_extractLsb', BitVec.getLsbD_or,
    BitVec.getLsbD_shiftLeft]
  by_cases hk : k ≤ i
  · rw [if_pos hk, BitVec.getLsbD_extractLsb', show 8 * (i - k) + j = 8 * i + j - 8 * k by omega]
    have hlt : 8 * i + j < 64 := by omega
    have hge : ¬ 8 * i + j < 8 * k := by omega
    simp [hj, hlt, hge]
  · rw [if_neg hk]
    have hlt : 8 * i + j < 8 * k := by omega
    simp [hlt]

/-- Each shift doubles the number of bytes that are or-ed. -/
theorem fillWord_byte (byte : BitVec 32) (hi : i < 8) : wordByte (fillWord byte) i = orBytes byte i := by
  have h32 (v : BitVec 64) : wordByte (v ||| v <<< 32) i = wordByte v i ||| if 4 ≤ i then wordByte v (i - 4) else 0#8 :=
    wordByte_or_shift v 4 hi
  have h16 (v : BitVec 64) {i : ℕ} (hi : i < 8) :
      wordByte (v ||| v <<< 16) i = wordByte v i ||| if 2 ≤ i then wordByte v (i - 2) else 0#8 :=
    wordByte_or_shift v 2 hi
  have h8 (v : BitVec 64) {i : ℕ} (hi : i < 8) :
      wordByte (v ||| v <<< 8) i = wordByte v i ||| if 1 ≤ i then wordByte v (i - 1) else 0#8 :=
    wordByte_or_shift v 1 hi
  have hfold (j : ℕ) : wordByte (byte.signExtend 64) j = argByte byte j := rfl
  unfold fillWord
  simp only
  rw [h32]
  interval_cases i <;>
    simp (disch := omega) only [h16, h8, hfold, orBytes, Nat.reduceLeDiff, Nat.reduceSub, if_true, if_false,
      BitVec.or_zero, Nat.reduceAdd] <;>
    ac_rfl

/-- No byte below `w` adds a bit to the low one. -/
def Covered (byte : BitVec 32) (w : ℕ) : Prop := ∀ j < w, argByte byte j ||| argByte byte 0 = argByte byte 0

theorem orBytes_eq_iff (byte : BitVec 32) (w : ℕ) :
    (∀ i < w, orBytes byte i = argByte byte 0) ↔ Covered byte w := by
  have hstep {i : ℕ} (h : orBytes byte i = argByte byte 0) :
      orBytes byte (i + 1) = argByte byte (i + 1) ||| argByte byte 0 := by
    rw [orBytes, h]
  constructor
  · intro h j hj
    rcases j with _ | j
    · exact BitVec.or_self
    · rw [← hstep (h j (by omega))]
      exact h (j + 1) hj
  · intro h i
    induction i with
    | zero => exact fun _ => rfl
    | succ i ih =>
      intro hi
      rw [hstep (ih (by omega))]
      exact h (i + 1) hi

/-! ### The stores -/

/-- The width of the next store. -/
def storeWidth (len : ℕ) : ℕ := if 8 < len then 8 else if 4 < len then 4 else if 2 < len then 2 else 1

theorem storeWidth_le (h : len ≠ 0) : storeWidth len ≤ len := by
  unfold storeWidth
  split_ifs <;> omega

theorem storeWidth_pos (len : ℕ) : 0 < storeWidth len := by
  unfold storeWidth
  split_ifs <;> omega

theorem storeWidth_mono {len' : ℕ} (h : len' ≤ len) : storeWidth len' ≤ storeWidth len := by
  unfold storeWidth
  split_ifs <;> omega

theorem ofNat_div_eq (v : BitVec 64) (i : ℕ) : UInt8.ofNat (v.toNat / 256 ^ i) = UInt8.ofBitVec (wordByte v i) := by
  apply UInt8.eq_of_toBitVec_eq
  rw [UInt8.toBitVec_ofNat', wordByte]
  apply BitVec.eq_of_toNat_eq
  rw [BitVec.toNat_ofNat, BitVec.extractLsb'_toNat, Nat.shiftRight_eq_div_pow, Nat.pow_mul]

theorem wordByte_and_mask (v : BitVec 64) {w : ℕ} (hi : i < w) (hw : w ≤ 8) :
    wordByte (v &&& BitVec.ofNat 64 (2 ^ (8 * w) - 1)) i = wordByte v i := by
  unfold wordByte
  apply BitVec.eq_of_getLsbD_eq
  intro j hj
  rw [BitVec.getLsbD_extractLsb', BitVec.getLsbD_extractLsb', BitVec.getLsbD_and, BitVec.getLsbD_ofNat,
    Nat.testBit_two_pow_sub_one]
  have hlt : 8 * i + j < 64 := by omega
  have hlt' : 8 * i + j < 8 * w := by omega
  simp [hlt, hlt']

/-- What the next store writes, byte by byte. -/
def storeWord (byte : BitVec 32) (len : ℕ) : BitVec 64 :=
  if 8 < len then fillWord byte
  else if 4 < len then fillWord byte &&& 0xFFFFFFFF
  else if 2 < len then fillWord byte &&& 0xFFFF
  else byte.zeroExtend 64

/-- The four branches of the loop are one store each. -/
theorem memsetLoop_succ (byte : BitVec 32) (dst n offset : ℕ) (h : len ≠ 0) (m : Mem) :
    memsetLoop byte dst (n + 1) offset len m =
      memsetLoop byte dst n (offset + storeWidth len) (len - storeWidth len)
        (m.store (dst + offset) (storeWidth len) (storeWord byte len).toNat) := by
  have hext : (byte.zeroExtend 64).toNat = byte.toNat := by
    rw [BitVec.toNat_setWidth, Nat.mod_eq_of_lt]
    have := byte.isLt
    omega
  rw [memsetLoop, if_neg h]
  unfold storeWidth storeWord
  split_ifs
  · rfl
  · rfl
  · rfl
  · rw [hext]

theorem storeWord_byte (byte : BitVec 32) (len : ℕ) (hi : i < storeWidth len) :
    wordByte (storeWord byte len) i = orBytes byte i := by
  unfold storeWidth at hi
  unfold storeWord
  split_ifs at hi ⊢
  · exact fillWord_byte byte hi
  · have hmask : (0xFFFFFFFF : BitVec 64) = BitVec.ofNat 64 (2 ^ (8 * 4) - 1) := by decide
    rw [← fillWord_byte byte (show i < 8 by omega), hmask, wordByte_and_mask _ hi (by omega)]
  · have hmask : (0xFFFF : BitVec 64) = BitVec.ofNat 64 (2 ^ (8 * 2) - 1) := by decide
    rw [← fillWord_byte byte (show i < 8 by omega), hmask, wordByte_and_mask _ hi (by omega)]
  · obtain rfl : i = 0 := by omega
    unfold orBytes argByte wordByte
    apply BitVec.eq_of_getLsbD_eq
    intro j hj
    have h32 : 8 * 0 + j < 32 := by omega
    have h64 : 8 * 0 + j < 64 := by omega
    rw [BitVec.getLsbD_extractLsb', BitVec.getLsbD_extractLsb', BitVec.getLsbD_signExtend, if_pos h32,
      BitVec.getLsbD_setWidth, decide_eq_true h64, Bool.true_and]

/-! ### The loop -/

theorem memsetLoop_out (byte : BitVec 32) (dst : ℕ) {x : ℕ} (m : Mem)
    (hx : x < dst + offset ∨ dst + offset + len ≤ x) : memsetLoop byte dst n offset len m x = m x := by
  induction n generalizing offset len m with
  | zero => rfl
  | succ n ih =>
    by_cases h : len = 0
    · rw [memsetLoop, if_pos h]
    · have hle := storeWidth_le h
      rw [memsetLoop_succ byte dst n offset h, ih _ (by omega)]
      exact Mem.store_out m (by omega)

/-- The first store is what the bytes of its range are in the end. -/
theorem memsetLoop_first (byte : BitVec 32) (dst : ℕ) (m : Mem) (hn : n ≠ 0) (h : len ≠ 0)
    (hi : i < storeWidth len) :
    memsetLoop byte dst n offset len m (dst + offset + i) = UInt8.ofBitVec (orBytes byte i) := by
  obtain ⟨n, rfl⟩ := Nat.exists_eq_succ_of_ne_zero hn
  rw [memsetLoop_succ byte dst n offset h, memsetLoop_out _ _ _ (by omega), Mem.store, if_pos (by omega),
    Nat.add_sub_cancel_left, ofNat_div_eq, storeWord_byte byte len hi]

/-- If the word is the low byte everywhere, the loop fills: by induction, the widths never grow. -/
theorem memsetLoop_fill (byte : BitVec 32) (dst : ℕ) (m : Mem) (hn : len ≤ n)
    (hc : Covered byte (storeWidth len)) :
    memsetLoop byte dst n offset len m = m.fill (dst + offset) len (UInt8.ofBitVec (argByte byte 0)) := by
  induction n generalizing offset len m with
  | zero =>
    obtain rfl : len = 0 := Nat.le_zero.mp hn
    exact (Mem.fill_zero ..).symm
  | succ n ih =>
    by_cases h : len = 0
    · rw [memsetLoop, if_pos h, h]
      exact (Mem.fill_zero ..).symm
    · have hle := storeWidth_le h
      have hpos := storeWidth_pos len
      have hstore : m.store (dst + offset) (storeWidth len) (storeWord byte len).toNat =
          m.fill (dst + offset) (storeWidth len) (UInt8.ofBitVec (argByte byte 0)) := by
        refine Mem.store_eq_fill fun i hi => ?_
        rw [ofNat_div_eq, storeWord_byte byte len hi, (orBytes_eq_iff byte _).mpr hc i hi]
      have hmono : storeWidth (len - storeWidth len) ≤ storeWidth len := storeWidth_mono (Nat.sub_le ..)
      rw [memsetLoop_succ byte dst n offset h, hstore, ih _ (by omega) fun j hj => hc j (by omega),
        show dst + (offset + storeWidth len) = dst + offset + storeWidth len by omega, Mem.fill_fill,
        Nat.add_sub_cancel' hle]

theorem allocMemset_eq (c : BitVec 32) (temp count : ℕ) (m : Mem) :
    allocMemset c temp count m = m.fill temp count (UInt8.ofBitVec (argByte c 0)) := by
  have hbyte : UInt8.ofNat (c.toNat / 256 ^ 0) = UInt8.ofBitVec (argByte c 0) := by
    have h := storeWord_byte c 1 (show 0 < storeWidth 1 by decide)
    have hw : (storeWord c 1).toNat = c.toNat := by
      show (c.zeroExtend 64).toNat = c.toNat
      rw [BitVec.toNat_setWidth, Nat.mod_eq_of_lt]
      have := c.isLt
      omega
    rw [← hw, ofNat_div_eq, h]
    rfl
  induction count generalizing temp m with
  | zero => exact (Mem.fill_zero ..).symm
  | succ count ih =>
    have hstore : m.store temp 1 c.toNat = m.fill temp 1 (UInt8.ofBitVec (argByte c 0)) := by
      refine Mem.store_eq_fill fun i hi => ?_
      obtain rfl : i = 0 := by omega
      exact hbyte
    rw [allocMemset, ih, hstore, Mem.fill_fill, Nat.add_comm]

/-- **The two versions.** That of the allocator writes the low byte of its argument to the range. The
manager's does the same exactly if no byte of the argument, as far as the widest store goes, has a bit that
the low byte does not have. -/
theorem memset_iff (m : Mem) (dst : ℕ) (byte : BitVec 32) (len : ℕ) :
    allocMemset byte dst len m = m.fill dst len (UInt8.ofBitVec (argByte byte 0)) ∧
    (memset m dst byte len = m.fill dst len (UInt8.ofBitVec (argByte byte 0)) ↔ Covered byte (storeWidth len)) := by
  refine ⟨allocMemset_eq byte dst len m, fun h => ?_, fun hc => memsetLoop_fill byte dst m (le_refl _) hc⟩
  rw [← orBytes_eq_iff]
  intro i hi
  by_cases h0 : len = 0
  · subst h0
    obtain rfl : i = 0 := by
      have : storeWidth 0 = 1 := rfl
      omega
    rfl
  · have hle := storeWidth_le h0
    have hfirst : memsetLoop byte dst len 0 len m (dst + 0 + i) = _ := memsetLoop_first byte dst m h0 h0 hi
    have hx := congrFun h (dst + i)
    rw [Mem.fill_in m _ (by omega)] at hx
    exact UInt8.ofBitVec.inj (hfirst.symm.trans hx)

/-- **A `memset` that goes wrong.** Of three bytes filled with −2 the second is 255, not 254. -/
theorem memset_differs :
    (List.range 3).map (memset (fun _ => 0) 0 (-2) 3) = [254, 255, 254] ∧
    (List.range 3).map (allocMemset (-2) 0 3 fun _ => 0) = [254, 254, 254] := by
  decide +kernel

end Coffer
