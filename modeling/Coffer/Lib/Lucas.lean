/-
# Primes by certificates

Lucas' test: `p` is prime if some `a` has order `p - 1` modulo `p`, and for that it is enough that `a ^ (p - 1)` is `1` and that
`a ^ ((p - 1) / q)` is not, for every prime `q` of `p - 1`. A `Cert` gives `a` and the primes of `p - 1`, each as often as it
divides; in a list of certificates the primes are ones that come before, or small ones that are given. `checks` runs the
test, with powers computed by squaring, and `prime_of_checks` is its meaning.
-/
import Mathlib.Tactic
import Mathlib.NumberTheory.LucasPrimality

namespace Coffer
namespace Lib
namespace Lucas

/-- `a ^ e` modulo `m`, for an exponent of `n` bits. -/
def powMod (m a : ℕ) : ℕ → ℕ → ℕ
  | 0, _ => 1 % m
  | n + 1, e =>
    let root := powMod m a n (e / 2)
    if e % 2 = 0 then root * root % m else root * root % m * a % m

theorem powMod_eq (m a : ℕ) {n e : ℕ} (h : e < 2 ^ n) : powMod m a n e = a ^ e % m := by
  induction n generalizing e with
  | zero =>
    have h0 : e = 0 := by simpa using h
    rw [h0, powMod, pow_zero]
  | succ n ih =>
    have hroot : powMod m a n (e / 2) * powMod m a n (e / 2) % m = a ^ (e / 2 + e / 2) % m := by
      rw [ih (by omega), ← Nat.mul_mod, pow_add]
    simp only [powMod, hroot]
    by_cases he : e % 2 = 0
    · rw [if_pos he, show e / 2 + e / 2 = e by omega]
    · rw [if_neg he, Nat.mod_mul_mod, ← pow_succ, show e / 2 + e / 2 + 1 = e by omega]

/-- A number of at most `256` bits, an element of full order, and the primes of the number before it. -/
structure Cert where
  p : ℕ
  a : ℕ
  primes : List ℕ

/-- The test of a certificate, with the primes known so far. -/
def Cert.test (known : List ℕ) (c : Cert) : Bool :=
  c.primes.all (· ∈ known) && c.primes.prod + 1 == c.p && decide (1 < c.p ∧ c.p ≤ 2 ^ 256) &&
    powMod c.p c.a 256 (c.p - 1) == 1 && c.primes.all fun q => powMod c.p c.a 256 ((c.p - 1) / q) != 1

theorem pow_eq_one_iff {p : ℕ} (hp : 1 < p) (a e : ℕ) : (a : ZMod p) ^ e = 1 ↔ a ^ e % p = 1 := by
  rw [← Nat.cast_pow, ← Nat.cast_one, ZMod.natCast_eq_natCast_iff', Nat.mod_eq_of_lt hp]

theorem Cert.prime {known : List ℕ} (hknown : ∀ q ∈ known, q.Prime) {c : Cert} (h : c.test known = true) : c.p.Prime := by
  simp only [test, Bool.and_eq_true, List.all_eq_true, decide_eq_true_eq, beq_iff_eq, bne_iff_ne] at h
  obtain ⟨⟨⟨⟨hin, hprod⟩, h1, hbits⟩, hone⟩, hne⟩ := h
  rw [powMod_eq _ _ (by omega)] at hone
  refine lucas_primality c.p c.a ((pow_eq_one_iff h1 ..).mpr hone) fun q hq hdvd => ?_
  -- a prime that divides `p - 1` is one of the list
  have hmem : q ∈ c.primes := by
    rw [← hprod, Nat.add_sub_cancel] at hdvd
    obtain ⟨r, hr, hqr⟩ := (Prime.dvd_prod_iff hq.prime).mp hdvd
    rwa [(Nat.prime_dvd_prime_iff_eq hq (hknown r (hin r hr))).mp hqr]
  have hle := Nat.div_le_self (c.p - 1) q
  have := hne q hmem
  rw [powMod_eq _ _ (by omega)] at this
  exact (pow_eq_one_iff h1 ..).not.mpr this

/-- The tests of a list of certificates. -/
def checks : List ℕ → List Cert → Bool
  | _, [] => true
  | known, c :: cs => c.test known && checks (c.p :: known) cs

theorem prime_of_checks {known : List ℕ} (hknown : ∀ q ∈ known, q.Prime) {cs : List Cert} (h : checks known cs = true) :
    ∀ p ∈ cs.map Cert.p, p.Prime := by
  induction cs generalizing known with
  | nil => simp
  | cons c cs ih =>
    rw [checks, Bool.and_eq_true] at h
    have hc := Cert.prime hknown h.1
    rw [List.map_cons, List.forall_mem_cons]
    exact ⟨hc, ih (List.forall_mem_cons.mpr ⟨hc, hknown⟩) h.2⟩

end Lucas
end Lib
end Coffer
