/-
# Reference counts

Holders are numbered, and each holds at most one object: `own i` is what holder `i` holds.
`held own n d` counts the holders below `n` that hold `d`: what a reference count is to be.
-/
import Mathlib.Tactic

namespace Coffer
namespace Lib

/-- How many holders below `n` hold `d`. -/
def held (own : ℕ → Option ℕ) (n d : ℕ) : ℕ := ((Finset.range n).filter fun i => own i = some d).card

variable {own own' : ℕ → Option ℕ} {n d i : ℕ}

theorem held_congr (h : ∀ i < n, own i = own' i) (d : ℕ) : held own n d = held own' n d := by
  unfold held
  congr 1
  refine Finset.filter_congr fun i hi => ?_
  rw [h i (Finset.mem_range.mp hi)]

theorem held_succ (own : ℕ → Option ℕ) (n d : ℕ) :
    held own (n + 1) d = held own n d + if own n = some d then 1 else 0 := by
  unfold held
  rw [Finset.range_add_one, Finset.filter_insert]
  split
  · rw [Finset.card_insert_of_notMem (by simp)]
  · rfl

/-- Holders that hold nothing do not count. -/
theorem held_of_le {m : ℕ} (h : n ≤ m) (h0 : ∀ i, n ≤ i → own i = none) (d : ℕ) : held own m d = held own n d := by
  induction m, h using Nat.le_induction with
  | base => rfl
  | succ m hm ih => rw [held_succ, ih, h0 m hm, if_neg (by simp), Nat.add_zero]

theorem held_eq_zero : held own n d = 0 ↔ ∀ i < n, own i ≠ some d := by
  unfold held
  rw [Finset.card_eq_zero, Finset.filter_eq_empty_iff]
  exact ⟨fun h i hi => h (Finset.mem_range.mpr hi), fun h i hi => h i (Finset.mem_range.mp hi)⟩

theorem held_pos (hi : i < n) (h : own i = some d) : 0 < held own n d :=
  Nat.pos_of_ne_zero fun hz => held_eq_zero.mp hz i hi h

theorem held_change (hi : i < n) (h : ∀ j, j ≠ i → own' j = own j) (d : ℕ) :
    held own' n d + (if own i = some d then 1 else 0) = held own n d + (if own' i = some d then 1 else 0) := by
  have hsplit : ∀ f : ℕ → Option ℕ, held f n d =
      (((Finset.range n).erase i).filter fun j => f j = some d).card + if f i = some d then 1 else 0 := by
    intro f
    unfold held
    conv_lhs => rw [← Finset.insert_erase (Finset.mem_range.mpr hi), Finset.filter_insert]
    split
    · rw [Finset.card_insert_of_notMem (by simp)]
    · rfl
  have hsame : (((Finset.range n).erase i).filter fun j => own' j = some d) =
      ((Finset.range n).erase i).filter fun j => own j = some d := by
    refine Finset.filter_congr fun j hj => ?_
    rw [h j (Finset.ne_of_mem_erase hj)]
  rw [hsplit own, hsplit own', hsame]
  omega

/-- A holder that held nothing takes `d`. -/
theorem held_take (hi : i < n) (h : ∀ j, j ≠ i → own' j = own j) (h0 : own i = none) (h1 : own' i = some d)
    (c : ℕ) : held own' n c = held own n c + if d = c then 1 else 0 := by
  have := held_change hi h c
  rw [h0, h1] at this
  simp only [reduceCtorEq, if_false, Option.some.injEq] at this
  omega

/-- A holder gives back what it held. -/
theorem held_drop (hi : i < n) (h : ∀ j, j ≠ i → own' j = own j) (h0 : own i = some d) (h1 : own' i = none)
    (c : ℕ) : held own n c = held own' n c + if d = c then 1 else 0 := by
  have := held_change hi h c
  rw [h0, h1] at this
  simp only [reduceCtorEq, if_false, Option.some.injEq] at this
  omega

end Lib
end Coffer
