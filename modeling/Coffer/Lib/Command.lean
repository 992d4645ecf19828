/-
# Commands and what holds after them

A command runs on a state and returns a value and a state, or stops with a fault. `wp m Q E s`:
if `m` returns from `s`, then `Q` holds of the value and the state, and if it stops, `E` holds
of the fault. The rules below take `wp` through a command from its first step on; a loop is a
recursive definition, and goes by induction.
-/
import Mathlib.Tactic

namespace Coffer
namespace Lib

/-- A command on a state `σ` with faults `ε`. -/
abbrev Cmd (σ ε α : Type) := StateT σ (Except ε) α

namespace Cmd

variable {σ ε α β : Type}

/-- A part of the state that may be missing; a fault if it is. -/
def load (f : σ → Option α) (e : ε) : Cmd σ ε α := fun s =>
  match f s with
  | some a => .ok (a, s)
  | none => .error e

/-- A fault. -/
def fault (e : ε) : Cmd σ ε α := fun _ => .error e

/-- What `m` does from `s` satisfies `Q` if it returns and `E` if it stops. -/
def wp (m : Cmd σ ε α) (Q : α → σ → Prop) (E : ε → Prop) (s : σ) : Prop :=
  match m s with
  | .ok (a, s') => Q a s'
  | .error e => E e

variable {m : Cmd σ ε α} {Q Q' : α → σ → Prop} {E E' : ε → Prop} {s : σ}

theorem wp_ok {a : α} {s' : σ} (h : m s = .ok (a, s')) : wp m Q E s ↔ Q a s' := by
  unfold wp
  rw [h]

theorem wp_error {e : ε} (h : m s = .error e) : wp m Q E s ↔ E e := by
  unfold wp
  rw [h]

@[simp] theorem wp_pure (a : α) : wp (pure a) Q E s ↔ Q a s := Iff.rfl

@[simp] theorem wp_fault (e : ε) : wp (fault e) Q E s ↔ E e := Iff.rfl

@[simp] theorem wp_bind (k : α → Cmd σ ε β) (R : β → σ → Prop) :
    wp (m >>= k) R E s ↔ wp m (fun a => wp (k a) R E) E s := by
  unfold wp
  show (match (m s >>= fun x => k x.1 x.2) with | .ok (a, s') => R a s' | .error e => E e) ↔ _
  cases m s <;> rfl

@[simp] theorem wp_get {Q : σ → σ → Prop} : wp (get : Cmd σ ε σ) Q E s ↔ Q s s := Iff.rfl

@[simp] theorem wp_modify {Q : Unit → σ → Prop} (f : σ → σ) :
    wp (modify f : Cmd σ ε Unit) Q E s ↔ Q () (f s) := Iff.rfl

/-- A load, whether or not there is something. -/
theorem wp_load_iff {f : σ → Option α} {e : ε} :
    wp (load f e) Q E s ↔ (∀ a, f s = some a → Q a s) ∧ (f s = none → E e) := by
  unfold wp load
  cases f s with
  | none => simp
  | some a => simp

/-- A weaker postcondition. -/
theorem wp_mono (h : wp m Q E s) (hQ : ∀ a s', Q a s' → Q' a s') : wp m Q' E s := by
  unfold wp at h ⊢
  cases hm : m s with
  | ok x =>
    rw [hm] at h
    exact hQ x.1 x.2 h
  | error e =>
    rw [hm] at h
    exact h

/-- Weaker conditions on the value and on the fault. -/
theorem wp_mono_fault (h : wp m Q E s) (hQ : ∀ a s', Q a s' → Q' a s') (hE : ∀ e, E e → E' e) :
    wp m Q' E' s := by
  unfold wp at h ⊢
  cases hm : m s with
  | ok x =>
    rw [hm] at h
    exact hQ x.1 x.2 h
  | error e =>
    rw [hm] at h
    exact hE e h

/-- Whatever the command does. -/
theorem wp_of_forall (hQ : ∀ a s', Q a s') : wp m Q (fun _ => True) s := by
  unfold wp
  cases m s with
  | ok x => exact hQ x.1 x.2
  | error e => trivial

theorem wp_bind_any {k : α → Cmd σ ε β} {R : β → σ → Prop} (h : ∀ a s', wp (k a) R (fun _ => True) s') :
    wp (m >>= k) R (fun _ => True) s := (wp_bind ..).mpr (wp_of_forall h)

theorem wp_ite {c : Prop} [Decidable c] {m' : Cmd σ ε α} (h : c → wp m Q E s) (h' : ¬ c → wp m' Q E s) :
    wp (if c then m else m') Q E s := by
  split
  · exact h ‹_›
  · exact h' ‹_›

/-- A load leaves the state. -/
theorem wp_load_any {f : σ → Option α} {e : ε} (h : ∀ a, Q a s) : wp (load f e) Q (fun _ => True) s :=
  wp_load_iff.mpr ⟨fun a _ => h a, fun _ => trivial⟩

/-- Two facts about one command. -/
theorem wp_and (h : wp m Q E s) (h' : wp m Q' E' s) :
    wp m (fun a s' => Q a s' ∧ Q' a s') (fun e => E e ∧ E' e) s := by
  unfold wp at h h' ⊢
  cases hm : m s with
  | ok x =>
    rw [hm] at h h'
    exact ⟨h, h'⟩
  | error e =>
    rw [hm] at h h'
    exact ⟨h, h'⟩

/-- What the rules say of a run that returns. -/
theorem of_wp {a : α} {s' : σ} (h : wp m Q E s) (hr : m s = .ok (a, s')) : Q a s' := (wp_ok hr).mp h

/-- What the rules say of a run that stops. -/
theorem fault_of_wp {e : ε} (h : wp m Q E s) (hr : m s = .error e) : E e := (wp_error hr).mp h

/-- The result of a run that returns, with the run. -/
theorem wp_run (h : wp m Q E s) : wp m (fun a s' => m s = .ok (a, s') ∧ Q a s') E s := by
  unfold wp at h ⊢
  cases hm : m s with
  | ok x =>
    rw [hm] at h
    exact ⟨rfl, h⟩
  | error e =>
    rw [hm] at h
    exact h

theorem pure_run (a : α) (s : σ) : (pure a : Cmd σ ε α) s = .ok (a, s) := rfl

/-- A run whose first part returns goes on with the rest. -/
theorem bind_of_ok {k : α → Cmd σ ε β} {a : α} {s' : σ} (h : m s = .ok (a, s')) : (m >>= k) s = k a s' := by
  show (m s >>= fun x => k x.1 x.2) = _
  rw [h]
  rfl

/-- A run whose first part stops. -/
theorem bind_of_error {k : α → Cmd σ ε β} {e : ε} (h : m s = .error e) : (m >>= k) s = .error e := by
  show (m s >>= fun x => k x.1 x.2) = _
  rw [h]
  rfl

theorem bind_get (k : σ → Cmd σ ε β) (s : σ) : ((get : Cmd σ ε σ) >>= k) s = k s s := rfl

theorem bind_modify (f : σ → σ) (k : Unit → Cmd σ ε β) (s : σ) :
    ((modify f : Cmd σ ε Unit) >>= k) s = k () (f s) := rfl

theorem load_of_some {f : σ → Option α} {e : ε} {a : α} (h : f s = some a) : load f e s = .ok (a, s) := by
  rw [load, h]

theorem load_of_none {f : σ → Option α} {e : ε} (h : f s = none) : load f e s = .error e := by
  rw [load, h]

/-! ### Steps that keep a relation -/

/-- Whatever `m` does, the state before and the state after are related. -/
def Keeps (R : σ → σ → Prop) (m : Cmd σ ε α) : Prop := ∀ s, wp m (fun _ s' => R s s') (fun _ => True) s

namespace Keeps

variable {R : σ → σ → Prop}

theorem of_pure (hr : ∀ s, R s s) (a : α) : Keeps R (pure a : Cmd σ ε α) := fun s => hr s

theorem of_fault (e : ε) : Keeps R (fault e : Cmd σ ε α) := fun _ => trivial

theorem of_get (hr : ∀ s, R s s) : Keeps R (get : Cmd σ ε σ) := fun s => hr s

theorem of_modify {f : σ → σ} (h : ∀ s, R s (f s)) : Keeps R (modify f : Cmd σ ε Unit) := h

theorem of_load (hr : ∀ s, R s s) (f : σ → Option α) (e : ε) : Keeps R (load f e : Cmd σ ε α) := by
  intro s
  rw [wp_load_iff]
  exact ⟨fun _ _ => hr s, fun _ => trivial⟩

theorem of_bind (ht : ∀ a b c, R a b → R b c → R a c) {k : α → Cmd σ ε β} (h : Keeps R m)
    (hk : ∀ a, Keeps R (k a)) : Keeps R (m >>= k) := by
  intro s
  rw [wp_bind]
  exact wp_mono (h s) fun a s' hs => wp_mono (hk a s') fun _ s'' hs' => ht _ _ _ hs hs'

theorem of_run {a : α} {s' : σ} (h : Keeps R m) (hr : m s = .ok (a, s')) : R s s' :=
  (wp_ok hr).mp (h s)

end Keeps

/-! ### Runs -/

section Runs

variable {κ : Type} (run : κ → Cmd σ ε α)

/-- `P` holds of every step of a run of commands: of each one and the state it starts from, as long
as they return. -/
def EachStep (P : κ → σ → Prop) : List κ → σ → Prop
  | [], _ => True
  | c :: cs, s => P c s ∧ ∀ a s', run c s = .ok (a, s') → EachStep P cs s'

variable {run}

/-- Two properties that agree on every step from an invariant agree on every run; the invariant need
only be kept by steps that have one of them. `H` is what is known of the steps of this run. -/
theorem eachStep_iff_of {I : σ → Prop} {H P Q : κ → σ → Prop}
    (hPQ : ∀ c s, I s → H c s → (P c s ↔ Q c s))
    (hI : ∀ c s a s', I s → H c s → P c s → run c s = .ok (a, s') → I s') (cs : List κ) (s : σ)
    (hs : I s) (hH : EachStep run H cs s) : EachStep run P cs s ↔ EachStep run Q cs s := by
  induction cs generalizing s with
  | nil => exact Iff.rfl
  | cons c cs ih =>
    obtain ⟨hc, hcs⟩ := hH
    have hstep (hp : P c s) (a : α) (s' : σ) (hr : run c s = .ok (a, s')) :
        EachStep run P cs s' ↔ EachStep run Q cs s' := ih s' (hI c s a s' hs hc hp hr) (hcs a s' hr)
    constructor
    · rintro ⟨hp, hps⟩
      exact ⟨(hPQ c s hs hc).mp hp, fun a s' hr => (hstep hp a s' hr).mp (hps a s' hr)⟩
    · rintro ⟨hq, hqs⟩
      have hp := (hPQ c s hs hc).mpr hq
      exact ⟨hp, fun a s' hr => (hstep hp a s' hr).mpr (hqs a s' hr)⟩

theorem eachStep_true (cs : List κ) (s : σ) : EachStep run (fun _ _ => True) cs s := by
  induction cs generalizing s with
  | nil => trivial
  | cons c cs ih => exact ⟨trivial, fun _ s' _ => ih s'⟩

theorem eachStep_iff {I : σ → Prop} {P Q : κ → σ → Prop} (hPQ : ∀ c s, I s → (P c s ↔ Q c s))
    (hI : ∀ c s a s', I s → P c s → run c s = .ok (a, s') → I s') (cs : List κ) (s : σ) (hs : I s) :
    EachStep run P cs s ↔ EachStep run Q cs s :=
  eachStep_iff_of (fun c s h _ => hPQ c s h) (fun c s a s' h _ => hI c s a s' h) cs s hs
    (eachStep_true cs s)

end Runs

end Cmd

end Lib
end Coffer
