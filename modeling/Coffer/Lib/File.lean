/-
# Files as arrays

The reference for a file: a list of items that writes overwrite or extend, and that truncation
cuts or extends. What comes into existence by an extension, and is not written by it, is the
blank `z`.
-/
import Mathlib.Tactic

namespace Coffer
namespace Lib
namespace File

variable {α : Type} (z : α)

/-- `data` at `off`; the gap between the end and `off` is blank. -/
def write (l : List α) (off : ℕ) (data : List α) : List α :=
  if data = [] then l
  else (l ++ List.replicate (off - l.length) z).take off ++ data ++ l.drop (off + data.length)

/-- Cut or extended to `n`. -/
def truncate (l : List α) (n : ℕ) : List α := l.take n ++ List.replicate (n - l.length) z

/-- Up to `n` items from `off` on. -/
def read (l : List α) (off n : ℕ) : List α := (l.drop off).take n

theorem getElem?_write {l data : List α} (h : data ≠ []) (off i : ℕ) :
    (write z l off data)[i]? =
      if i < off then some (l.getD i z) else if i < off + data.length then data[i - off]? else l[i]? := by
  have hlen : ((l ++ List.replicate (off - l.length) z).take off).length = off := by
    rw [List.length_take, List.length_append, List.length_replicate]
    omega
  rw [write, if_neg h, List.append_assoc]
  by_cases h1 : i < off
  · rw [if_pos h1, List.getElem?_append_left (by omega), List.getElem?_take_of_lt h1]
    by_cases h2 : i < l.length
    · rw [List.getElem?_append_left h2, List.getD_eq_getElem?_getD, List.getElem?_eq_getElem h2]
      rfl
    · rw [List.getElem?_append_right (by omega), List.getElem?_replicate_of_lt (by omega),
        List.getD_eq_getElem?_getD, List.getElem?_eq_none (by omega)]
      rfl
  · rw [if_neg h1, List.getElem?_append_right (by omega), hlen]
    by_cases h2 : i < off + data.length
    · rw [if_pos h2, List.getElem?_append_left (by omega)]
    · rw [if_neg h2, List.getElem?_append_right (by omega), List.getElem?_drop]
      congr 1
      omega

theorem getElem?_truncate (l : List α) (n i : ℕ) :
    (truncate z l n)[i]? = if i < n then some (l.getD i z) else none := by
  unfold truncate
  by_cases h1 : i < n
  · rw [if_pos h1]
    by_cases h2 : i < l.length
    · rw [List.getElem?_append_left (by rw [List.length_take]; omega), List.getElem?_take_of_lt h1,
        List.getD_eq_getElem?_getD, List.getElem?_eq_getElem h2]
      rfl
    · rw [List.getElem?_append_right (by rw [List.length_take]; omega), List.length_take,
        List.getElem?_replicate_of_lt (by omega), List.getD_eq_getElem?_getD,
        List.getElem?_eq_none (by omega)]
      rfl
  · rw [if_neg h1, List.getElem?_eq_none]
    rw [List.length_append, List.length_take, List.length_replicate]
    omega

theorem getElem?_read (l : List α) (off n i : ℕ) :
    (read l off n)[i]? = if i < n then l[off + i]? else none := by
  unfold read
  by_cases h : i < n
  · rw [if_pos h, List.getElem?_take_of_lt h, List.getElem?_drop]
  · rw [if_neg h, List.getElem?_take_eq_none (by omega)]

/-- A list is known from its reads of one item. -/
theorem eq_of_read {l l' : List α} {n : ℕ} (hn : l.length < n)
    (h : ∀ off < n, read l off 1 = read l' off 1) : l = l' := by
  have hget : ∀ i < n, l[i]? = l'[i]? := by
    intro i hi
    have h1 := congrArg (fun m => m[0]?) (h i hi)
    simpa only [getElem?_read, Nat.one_pos, if_true, Nat.add_zero, zero_lt_one] using h1
  have hlen : l'.length ≤ l.length := by
    have h1 := hget l.length hn
    rw [List.getElem?_eq_none (le_refl _)] at h1
    exact List.getElem?_eq_none_iff.mp h1.symm
  refine List.ext_getElem? fun i => ?_
  by_cases hi : i < n
  · exact hget i hi
  · rw [List.getElem?_eq_none (by omega), List.getElem?_eq_none (by omega)]

end File
end Lib
end Coffer
