/-
# Streaming a message through a block function

A message is consumed `n` items at a time by a function `f` on a state; what
does not fill a block waits. `absorb f n k` consumes the first `k` blocks,
`whole f n` all the blocks there are, and `rest n` is what waits.

The rule a streaming interface rests on is that a message may be cut anywhere:
absorbing `a ++ b` is absorbing `a` and then what waited of it followed by `b`
(`whole_append`, `rest_append`).

Key definitions: `absorb`, `whole`, `rest`.
Key theorems: `absorb_add`, `whole_append`, `whole_block`, `whole_fill`.
-/
import Mathlib.Tactic

namespace Coffer
namespace Lib
namespace Stream

variable {σ α : Type} (f : σ → List α → σ) (n : ℕ)

/-- The state after the first `k` blocks of a message. -/
def absorb : ℕ → σ → List α → σ
  | 0, s, _ => s
  | k + 1, s, m => absorb k (f s (m.take n)) (m.drop n)

/-- The state after all the blocks of a message. -/
def whole (s : σ) (m : List α) : σ := absorb f n (m.length / n) s m

/-- What is left of a message after its blocks. -/
def rest (m : List α) : List α := m.drop (m.length / n * n)

theorem absorb_add (j k : ℕ) (s : σ) (m : List α) :
    absorb f n (j + k) s m = absorb f n k (absorb f n j s m) (m.drop (j * n)) := by
  induction j generalizing s m with
  | zero => simp [absorb]
  | succ j ih =>
    rw [Nat.succ_add]
    show absorb f n (j + k) (f s (m.take n)) (m.drop n) = _
    rw [ih, List.drop_drop, Nat.succ_mul, Nat.add_comm n]
    rfl

/-- Blocks are read off the front: what follows them does not matter. -/
theorem absorb_append (k : ℕ) (s : σ) (a b : List α) (h : k * n ≤ a.length) :
    absorb f n k s (a ++ b) = absorb f n k s a := by
  induction k generalizing s a with
  | zero => rfl
  | succ k ih =>
    rw [Nat.succ_mul] at h
    have hn : n ≤ a.length := le_trans (Nat.le_add_left _ _) h
    simp only [absorb]
    rw [List.take_append_of_le_length hn, List.drop_append_of_le_length hn]
    apply ih
    rw [List.length_drop]
    omega

theorem length_rest (m : List α) : (rest n m).length = m.length % n := by
  rw [rest, List.length_drop, Nat.mul_comm, Nat.mod_eq_sub_mul_div]

theorem rest_lt (hn : 0 < n) (m : List α) : (rest n m).length < n := by
  rw [length_rest]
  exact Nat.mod_lt _ hn

/-- The blocks of `a ++ b` are those of `a` and those of what waits of `a`
followed by `b`. -/
theorem blocks_append (hn : 0 < n) (a b : List α) :
    (a ++ b).length / n = a.length / n + (rest n a ++ b).length / n := by
  have ha : a.length = n * (a.length / n) + a.length % n := (Nat.div_add_mod _ _).symm
  calc (a ++ b).length / n
      = (n * (a.length / n) + (a.length % n + b.length)) / n := by
        rw [List.length_append, ← Nat.add_assoc, ← ha]
    _ = a.length / n + (a.length % n + b.length) / n := Nat.mul_add_div hn _ _
    _ = a.length / n + (rest n a ++ b).length / n := by
        rw [List.length_append, length_rest]

theorem drop_blocks (a b : List α) :
    (a ++ b).drop (a.length / n * n) = rest n a ++ b :=
  List.drop_append_of_le_length (Nat.div_mul_le_self _ _)

/-- **Absorbing in two pieces.** -/
theorem whole_append (hn : 0 < n) (s : σ) (a b : List α) :
    whole f n s (a ++ b) = whole f n (whole f n s a) (rest n a ++ b) := by
  rw [whole, blocks_append n hn, absorb_add, drop_blocks,
    absorb_append f n _ s a b (Nat.div_mul_le_self _ _)]
  rfl

theorem rest_append (hn : 0 < n) (a b : List α) :
    rest n (a ++ b) = rest n (rest n a ++ b) := by
  rw [rest, blocks_append n hn, Nat.add_mul, ← List.drop_drop, drop_blocks]
  rfl

theorem whole_of_lt (s : σ) {m : List α} (h : m.length < n) : whole f n s m = s := by
  rw [whole, Nat.div_eq_of_lt h]
  rfl

theorem rest_of_lt {m : List α} (h : m.length < n) : rest n m = m := by
  rw [rest, Nat.div_eq_of_lt h, Nat.zero_mul, List.drop_zero]

/-- A block in front is consumed first. -/
theorem whole_block (hn : 0 < n) (s : σ) {a : List α} (ha : a.length = n) (b : List α) :
    whole f n s (a ++ b) = whole f n (f s a) b := by
  have hd : (a ++ b).length / n = b.length / n + 1 := by
    rw [List.length_append, ha, Nat.add_div_left _ hn]
  rw [whole, hd, absorb, ← ha, List.take_left, List.drop_left]
  rfl

theorem rest_block (hn : 0 < n) {a : List α} (ha : a.length = n) (b : List α) :
    rest n (a ++ b) = rest n b := by
  have hd : (a ++ b).length / n = b.length / n + 1 := by
    rw [List.length_append, ha, Nat.add_div_left _ hn]
  rw [rest, hd, Nat.succ_mul, Nat.add_comm, ← List.drop_drop, ← ha, List.drop_left]
  rfl

/-- A piece that completes what waits to a block. -/
theorem whole_fill (hn : 0 < n) (s : σ) {a b : List α} (h : (rest n a ++ b).length = n) :
    whole f n s (a ++ b) = f (whole f n s a) (rest n a ++ b) := by
  have hw := whole_block f n hn (whole f n s a) h []
  rw [List.append_nil] at hw
  rw [whole_append f n hn, hw, whole_of_lt f n _ (m := []) hn]

theorem rest_fill (hn : 0 < n) {a b : List α} (h : (rest n a ++ b).length = n) :
    rest n (a ++ b) = [] := by
  have hr := rest_block n hn h []
  rw [List.append_nil] at hr
  rw [rest_append n hn, hr, rest_of_lt n (m := []) hn]

end Stream
end Lib
end Coffer
