/-
# Byte memories

A memory is a total function from addresses to bytes. `Mem.load` reads a
little-endian number of `n` bytes, `Mem.store` writes one, `Mem.fill` sets a
range to one byte. What a program proof needs from them is three facts: a load
sees the last store at its own address (`load_store_self`), a store elsewhere
is invisible (`load_store_disj`), and a load depends on the bytes of its own
range only (`load_congr`).
-/
import Mathlib.Tactic

namespace Coffer
namespace Lib

/-- A byte-addressed memory. -/
abbrev Mem := ℕ → UInt8

namespace Mem

/-- The little-endian number in the `n` bytes at `a`. -/
def load (m : Mem) (a : ℕ) : ℕ → ℕ
  | 0 => 0
  | n + 1 => (m a).toNat + 256 * load m (a + 1) n

/-- The memory after writing the low `n` bytes of `v` at `a`. -/
def store (m : Mem) (a n v : ℕ) : Mem := fun x =>
  if a ≤ x ∧ x < a + n then UInt8.ofNat (v / 256 ^ (x - a)) else m x

/-- The memory after setting the `n` bytes at `a` to `b`. -/
def fill (m : Mem) (a n : ℕ) (b : UInt8) : Mem := fun x =>
  if a ≤ x ∧ x < a + n then b else m x

theorem store_out (m : Mem) {a n v x : ℕ} (h : x < a ∨ a + n ≤ x) : m.store a n v x = m x := by
  unfold store
  rw [if_neg (by omega)]

theorem fill_in (m : Mem) {a n x : ℕ} (b : UInt8) (h : a ≤ x ∧ x < a + n) : m.fill a n b x = b := by
  unfold fill
  rw [if_pos h]

theorem fill_out (m : Mem) {a n x : ℕ} (b : UInt8) (h : x < a ∨ a + n ≤ x) :
    m.fill a n b x = m x := by
  unfold fill
  rw [if_neg (by omega)]

theorem fill_zero (m : Mem) (a : ℕ) (b : UInt8) : m.fill a 0 b = m :=
  funext fun x => fill_out m b (by omega)

theorem fill_fill (m : Mem) (a k l : ℕ) (b : UInt8) : (m.fill a k b).fill (a + k) l b = m.fill a (k + l) b := by
  funext x
  unfold fill
  split_ifs <;> first | rfl | omega

/-- A store whose bytes are all the same is a fill. -/
theorem store_eq_fill {m : Mem} {a n v : ℕ} {b : UInt8} (h : ∀ i < n, UInt8.ofNat (v / 256 ^ i) = b) :
    m.store a n v = m.fill a n b := by
  funext x
  unfold store fill
  split_ifs with hx
  · exact h (x - a) (by omega)
  · rfl

/-- A load depends on the bytes of its range only. -/
theorem load_congr {m m' : Mem} : ∀ {n a : ℕ}, (∀ x, a ≤ x → x < a + n → m x = m' x) →
    m.load a n = m'.load a n
  | 0, _, _ => rfl
  | n + 1, a, h => by
    have h0 : m a = m' a := h a (le_refl _) (by omega)
    have h1 : m.load (a + 1) n = m'.load (a + 1) n :=
      load_congr fun x hx hx' => h x (by omega) (by omega)
    simp only [load, h0, h1]

theorem load_lt (m : Mem) : ∀ n a : ℕ, m.load a n < 256 ^ n
  | 0, _ => by simp [load]
  | n + 1, a => by
    have h1 := load_lt m n (a + 1)
    have h2 := (m a).toNat_lt
    simp only [load, pow_succ]
    omega

/-- A load whose bytes are the digits of `v` reads `v`. -/
theorem load_digits (m : Mem) : ∀ (n a v : ℕ),
    (∀ i < n, m (a + i) = UInt8.ofNat (v / 256 ^ i)) → m.load a n = v % 256 ^ n
  | 0, _, _, _ => by simp [load, Nat.mod_one]
  | n + 1, a, v, h => by
    have h0 : m a = UInt8.ofNat v := by simpa using h 0 (by omega)
    have h1 : m.load (a + 1) n = v / 256 % 256 ^ n := by
      refine load_digits m n (a + 1) (v / 256) fun i hi => ?_
      have := h (i + 1) (by omega)
      rw [Nat.div_div_eq_div_mul, show 256 * 256 ^ i = 256 ^ (i + 1) by ring, ← this]
      congr 1
      omega
    simp only [load, h0, h1, UInt8.toNat_ofNat']
    rw [show (256 : ℕ) ^ (n + 1) = 256 * 256 ^ n by ring, Nat.mod_mul]

theorem load_store_self (m : Mem) (a n v : ℕ) : (m.store a n v).load a n = v % 256 ^ n := by
  refine load_digits _ n a v fun i hi => ?_
  unfold store
  rw [if_pos (by omega), Nat.add_sub_cancel_left]

theorem load_store_disj (m : Mem) {a n v b k : ℕ} (h : b + k ≤ a ∨ a + n ≤ b) :
    (m.store a n v).load b k = m.load b k :=
  load_congr fun x hx hx' => store_out m (by omega)

/-- A load of zero bytes reads zero. -/
theorem load_zero {m : Mem} : ∀ {n a : ℕ}, (∀ x, a ≤ x → x < a + n → m x = 0) → m.load a n = 0
  | 0, _, _ => rfl
  | n + 1, a, h => by
    have h0 : m a = 0 := h a (le_refl _) (by omega)
    have h1 : m.load (a + 1) n = 0 := load_zero fun x hx hx' => h x (by omega) (by omega)
    simp [load, h0, h1]

end Mem

end Lib
end Coffer
