/-
# Radix trees of tables

A table maps indices to entries; an entry is empty, a leaf, or a pointer to a
table. `walk` looks up a list of indices. Nothing makes such a graph a tree, and
a program that writes entries one at a time has to keep it one: `Shape` does so
by a ghost map from tables to the paths they are meant for, along which every
pointer extends the path by its own index.

With it, a write of one entry is felt by the paths through that entry only
(`walk_write`); a leaf that is written is what those paths now find
(`walk_write_leaf`); and hanging a fresh, empty table into an empty entry is
felt by nobody (`walk_write_fresh`).
-/
import Mathlib.Tactic

namespace Coffer
namespace Lib
namespace Radix

variable {P I L : Type}

/-- An entry of a table. -/
inductive Entry (P L : Type)
  | empty
  | leaf (l : L)
  | ptr (p : P)
deriving DecidableEq

/-- What every table holds. -/
abbrev Tables (P I L : Type) := P → I → Entry P L

/-- The leaf a path finds from `p`, with the indices it did not use. -/
def walk (T : Tables P I L) : P → List I → Option (List I × L)
  | _, [] => none
  | p, i :: is =>
    match T p i with
    | .empty => none
    | .leaf l => some (is, l)
    | .ptr q => walk T q is

/-- The table a path of pointers leads to. -/
def descend (T : Tables P I L) : P → List I → Option P
  | p, [] => some p
  | p, i :: is =>
    match T p i with
    | .ptr q => descend T q is
    | _ => none

theorem walk_empty {T : Tables P I L} {p : P} {i : I} (h : T p i = .empty) (is : List I) :
    walk T p (i :: is) = none := by
  simp only [walk, h]

theorem walk_leaf {T : Tables P I L} {p : P} {i : I} {l : L} (h : T p i = .leaf l) (is : List I) :
    walk T p (i :: is) = some (is, l) := by
  simp only [walk, h]

theorem walk_ptr {T : Tables P I L} {p q : P} {i : I} (h : T p i = .ptr q) (is : List I) :
    walk T p (i :: is) = walk T q is := by
  simp only [walk, h]

/-- The unused indices are the end of the path, and at least one is used. -/
theorem walk_rest {T : Tables P I L} {is rest : List I} {p : P} {l : L}
    (h : walk T p is = some (rest, l)) : ∃ used, used ≠ [] ∧ is = used ++ rest := by
  induction is generalizing p with
  | nil => cases h
  | cons i is ih =>
    simp only [walk] at h
    split at h
    · cases h
    · cases h
      exact ⟨[i], by simp, rfl⟩
    · obtain ⟨used, -, rfl⟩ := ih h
      exact ⟨i :: used, by simp, rfl⟩

theorem walk_rest_length {T : Tables P I L} {is rest : List I} {p : P} {l : L}
    (h : walk T p is = some (rest, l)) : rest.length < is.length := by
  obtain ⟨used, hne, rfl⟩ := walk_rest h
  have := List.length_pos_iff.mpr hne
  rw [List.length_append]
  omega

theorem walk_append_iff {T : Tables P I L} {path rest : List I} {p : P} {l : L} :
    walk T p (path ++ rest) = some (rest, l) ↔ walk T p path = some ([], l) := by
  induction path generalizing p with
  | nil =>
    refine ⟨fun h => ?_, fun h => (by cases h)⟩
    have := walk_rest_length h
    rw [List.nil_append] at this
    omega
  | cons i path ih =>
    rw [List.cons_append]
    cases hE : T p i with
    | empty => simp [walk_empty hE]
    | leaf l' => simp [walk_leaf hE]
    | ptr q => rw [walk_ptr hE, walk_ptr hE, ih]

theorem walk_descend {T : Tables P I L} {q : P} : ∀ {path : List I} {p : P} (is : List I),
    descend T p path = some q → walk T p (path ++ is) = walk T q is
  | [], p, is, h => by
    cases h
    rfl
  | i :: path, p, is, h => by
    simp only [descend] at h
    split at h
    · rename_i r hr
      rw [List.cons_append, walk_ptr hr]
      exact walk_descend is h
    · cases h

theorem descend_append {T : Tables P I L} {q : P} : ∀ {path : List I} {p : P} {is : List I},
    descend T p path = some q → descend T p (path ++ is) = descend T q is
  | [], p, is, h => by
    cases h
    rfl
  | i :: path, p, is, h => by
    simp only [descend] at h
    split at h
    · rename_i r hr
      rw [List.cons_append, descend, hr]
      exact descend_append h
    · cases h

theorem descend_snoc {T : Tables P I L} {p q r : P} {i : I} {path : List I}
    (h : descend T p path = some q) (hr : T q i = .ptr r) : descend T p (path ++ [i]) = some r := by
  rw [descend_append h]
  simp only [descend, hr]

/-- The last table on a path hangs in the table before it. -/
theorem descend_concat {T : Tables P I L} {r : P} {i : I} : ∀ {path : List I} {p : P},
    descend T p (path ++ [i]) = some r → ∃ q, descend T p path = some q ∧ T q i = .ptr r
  | [], p, h => by
    simp only [List.nil_append, descend] at h
    split at h
    · rename_i q hq
      cases h
      exact ⟨p, rfl, hq⟩
    · cases h
  | j :: path, p, h => by
    simp only [List.cons_append, descend] at h
    split at h
    · rename_i q hq
      obtain ⟨q', h1, h2⟩ := descend_concat h
      refine ⟨q', ?_, h2⟩
      simp only [descend, hq, h1]
    · cases h

/-- Where entries have only been emptied, a path finds nothing new. -/
theorem walk_of_emptied {T T' : Tables P I L} (h : ∀ p i, T' p i = T p i ∨ T' p i = .empty) :
    ∀ {is : List I} {p : P} {r : List I × L}, walk T' p is = some r → walk T p is = some r
  | [], _, _, hw => hw
  | i :: is, p, r, hw => by
    rcases h p i with he | he
    · simp only [walk, he] at hw ⊢
      split at hw
      · cases hw
      · exact hw
      · exact walk_of_emptied h hw
    · rw [walk_empty he] at hw
      cases hw

/-- Every table in use has the path it is meant for, and pointers respect it. -/
structure Shape (T : Tables P I L) (root : P) (owner : P → Option (List I)) : Prop where
  root_owner : owner root = some []
  ptr_owner : ∀ {p q : P} {path : List I} {i : I}, owner p = some path → T p i = .ptr q →
    owner q = some (path ++ [i])

/-- Two families of tables with the same entries along a path find the same. -/
theorem walk_congr {T T' : Tables P I L} {root : P} {owner : P → Option (List I)}
    (hT : Shape T root owner) : ∀ {is path : List I} {p : P}, owner p = some path →
    (∀ q ρ i, owner q = some ρ → ρ ++ [i] <+: path ++ is → T' q i = T q i) →
    walk T' p is = walk T p is
  | [], _, _, _, _ => rfl
  | i :: is, path, p, hp, h => by
    have h0 : T' p i = T p i := h p path i hp ⟨is, by simp⟩
    cases hE : T p i with
    | empty => rw [walk_empty hE, walk_empty (h0.trans hE)]
    | leaf l => rw [walk_leaf hE, walk_leaf (h0.trans hE)]
    | ptr q =>
      rw [walk_ptr hE, walk_ptr (h0.trans hE)]
      refine walk_congr hT (hT.ptr_owner hp hE) fun r ρ j hr hρ => h r ρ j hr ?_
      simpa using hρ

theorem descend_congr {T T' : Tables P I L} {root : P} {owner : P → Option (List I)}
    (hT : Shape T root owner) : ∀ {is path : List I} {p : P}, owner p = some path →
    (∀ q ρ i, owner q = some ρ → ρ ++ [i] <+: path ++ is → T' q i = T q i) →
    descend T' p is = descend T p is
  | [], _, _, _, _ => rfl
  | i :: is, path, p, hp, h => by
    have h0 : T' p i = T p i := h p path i hp ⟨is, by simp⟩
    simp only [descend, h0]
    split
    · rename_i q hE
      refine descend_congr hT (hT.ptr_owner hp hE) fun r ρ j hr hρ => h r ρ j hr ?_
      simpa using hρ
    · rfl

/-- The table at the end of a path of pointers is meant for that path. -/
theorem Shape.descend_owner {T : Tables P I L} {root : P} {owner : P → Option (List I)}
    (hT : Shape T root owner) {q : P} : ∀ {is path : List I} {p : P}, owner p = some path →
    descend T p is = some q → owner q = some (path ++ is)
  | [], path, p, hp, h => by
    cases h
    simpa using hp
  | i :: is, path, p, hp, h => by
    simp only [descend] at h
    split at h
    · rename_i r hr
      have := hT.descend_owner (hT.ptr_owner hp hr) h
      simpa using this
    · cases h

/-- A table hangs in one entry of the tables that are reached. -/
theorem Shape.unique_parent {T : Tables P I L} {root : P} {owner : P → Option (List I)}
    (hT : Shape T root owner) {p p' q : P} {path path' : List I} {i i' : I}
    (hp : descend T root path = some p) (hp' : descend T root path' = some p') (h : T p i = .ptr q)
    (h' : T p' i' = .ptr q) : p = p' ∧ i = i' := by
  have ho := hT.ptr_owner (hT.descend_owner hT.root_owner hp) h
  rw [hT.ptr_owner (hT.descend_owner hT.root_owner hp') h', Option.some.injEq] at ho
  simp only [List.nil_append] at ho
  obtain ⟨rfl, hi⟩ := List.append_inj' ho rfl
  rw [hp, Option.some.injEq] at hp'
  exact ⟨hp', (List.cons.inj hi).1.symm⟩

/-! ### Writing one entry -/

section Write

variable [DecidableEq P] [DecidableEq I]

/-- The tables after writing entry `i` of table `p`. -/
def write (T : Tables P I L) (p : P) (i : I) (e : Entry P L) : Tables P I L :=
  Function.update T p (Function.update (T p) i e)

theorem write_self (T : Tables P I L) (p : P) (i : I) (e : Entry P L) : write T p i e p i = e := by
  simp [write]

theorem write_other {T : Tables P I L} {p q : P} {i j : I} (e : Entry P L) (h : q ≠ p ∨ j ≠ i) :
    write T p i e q j = T q j := by
  unfold write
  by_cases hq : q = p
  · subst hq
    rw [Function.update_self, Function.update_of_ne (h.resolve_left (fun h => h rfl))]
  · rw [Function.update_of_ne hq]

variable {T : Tables P I L} {root : P} {owner : P → Option (List I)}

/-- Away from the written entry's paths nothing changes along the way. -/
theorem write_off_path {p : P} {path : List I} {i : I} (e : Entry P L)
    (hp : owner p = some path) {is : List I} (hn : ¬ path ++ [i] <+: is) (q : P) (ρ : List I) (j : I)
    (hq : owner q = some ρ) (hρ : ρ ++ [j] <+: is) : write T p i e q j = T q j := by
  refine write_other e ?_
  by_contra hc
  push Not at hc
  obtain ⟨rfl, rfl⟩ := hc
  rw [hp] at hq
  cases hq
  exact hn hρ

theorem walk_write (hT : Shape T root owner) {p : P} {path : List I} {i : I} (e : Entry P L)
    (hp : owner p = some path) {is : List I} (hn : ¬ path ++ [i] <+: is) :
    walk (write T p i e) root is = walk T root is :=
  walk_congr hT hT.root_owner fun q ρ j hq hρ => write_off_path e hp hn q ρ j hq (by simpa using hρ)

theorem descend_write (hT : Shape T root owner) {p : P} {path : List I} {i : I} (e : Entry P L)
    (hp : owner p = some path) {is : List I} (hn : ¬ path ++ [i] <+: is) :
    descend (write T p i e) root is = descend T root is :=
  descend_congr hT hT.root_owner fun q ρ j hq hρ =>
    write_off_path e hp hn q ρ j hq (by simpa using hρ)

/-- A write in the table at the end of `path` does not cut `path`. -/
theorem descend_write_self (hT : Shape T root owner) {p : P} {path : List I} (i : I)
    (e : Entry P L) (hd : descend T root path = some p) :
    descend (write T p i e) root path = some p := by
  have hp : owner p = some path := by simpa using hT.descend_owner hT.root_owner hd
  rw [descend_write hT e hp, hd]
  intro h
  have := h.length_le
  simp at this

/-- A path through the written entry finds what the entry says. -/
theorem walk_write_self (hT : Shape T root owner) {p : P} {path : List I} (i : I) (e : Entry P L)
    (hd : descend T root path = some p) (is : List I) :
    walk (write T p i e) root (path ++ i :: is) = walk (write T p i e) p (i :: is) :=
  walk_descend _ (descend_write_self hT i e hd)

theorem walk_write_leaf (hT : Shape T root owner) {p : P} {path : List I} (i : I) (l : L)
    (hd : descend T root path = some p) (is : List I) :
    walk (write T p i (.leaf l)) root (path ++ i :: is) = some (is, l) := by
  rw [walk_write_self hT i _ hd, walk_leaf (write_self T p i _)]

theorem walk_write_empty (hT : Shape T root owner) {p : P} {path : List I} (i : I)
    (hd : descend T root path = some p) (is : List I) :
    walk (write T p i .empty) root (path ++ i :: is) = none := by
  rw [walk_write_self hT i _ hd, walk_empty (write_self T p i _)]

theorem walk_write_fresh (hT : Shape T root owner) {p q : P} {path : List I} {i : I}
    (hd : descend T root path = some p) (hi : T p i = .empty) (hq : owner q = none)
    (hf : ∀ j, T q j = .empty) (is : List I) :
    walk (write T p i (.ptr q)) root is = walk T root is := by
  have hp : owner p = some path := by simpa using hT.descend_owner hT.root_owner hd
  by_cases hn : path ++ [i] <+: is
  · obtain ⟨rest, rfl⟩ := hn
    have hqp : q ≠ p := by
      rintro rfl
      rw [hp] at hq
      cases hq
    rw [List.append_assoc, List.singleton_append, walk_write_self hT i _ hd,
      walk_ptr (write_self T p i _), walk_descend _ hd, walk_empty hi]
    cases rest with
    | nil => rfl
    | cons j rest => exact walk_empty ((write_other _ (Or.inl hqp)).trans (hf j)) rest
  · exact walk_write hT _ hp hn

/-- A fresh table in an empty entry is reached by the entry's path and by no other. -/
theorem descend_write_fresh (hT : Shape T root owner) {p q : P} {path : List I}
    {i : I} (hd : descend T root path = some p) (hi : T p i = .empty) (hq : owner q = none)
    (hf : ∀ j, T q j = .empty) (is : List I) :
    descend (write T p i (.ptr q)) root is =
      if is = path ++ [i] then some q else descend T root is := by
  have hp : owner p = some path := by simpa using hT.descend_owner hT.root_owner hd
  have hd' := descend_write_self hT i (.ptr q) hd
  by_cases hn : path ++ [i] <+: is
  · obtain ⟨rest, rfl⟩ := hn
    rw [List.append_assoc, List.singleton_append, descend_append hd', descend_append hd]
    simp only [descend, write_self, hi]
    have hqp : q ≠ p := by
      rintro rfl
      rw [hp] at hq
      cases hq
    cases rest with
    | nil => rw [if_pos rfl, descend]
    | cons j rest =>
      rw [if_neg (by simp)]
      simp only [descend, write_other (T := T) (i := i) (j := j) (.ptr q) (Or.inl hqp), hf j]
  · rw [descend_write hT _ hp hn, if_neg]
    rintro rfl
    exact hn (List.prefix_refl _)

/-- Writing over an entry that is no pointer, with none, leaves every table where it was. -/
theorem descend_write_end (hT : Shape T root owner) {p : P} {path : List I} {i : I} {e : Entry P L}
    (hd : descend T root path = some p) (hi : ∀ q, T p i ≠ .ptr q) (he : ∀ q, e ≠ .ptr q)
    (is : List I) : descend (write T p i e) root is = descend T root is := by
  have hp : owner p = some path := by simpa using hT.descend_owner hT.root_owner hd
  have hstop : ∀ (U : Tables P I L) (js : List I), (∀ q, U p i ≠ .ptr q) →
      descend U p (i :: js) = none := by
    intro U js hU
    rw [descend]
    split
    · rename_i q hq
      exact absurd hq (hU q)
    · rfl
  by_cases hn : path ++ [i] <+: is
  · obtain ⟨rest, rfl⟩ := hn
    rw [List.append_assoc, List.singleton_append, descend_append (descend_write_self hT i e hd),
      descend_append hd, hstop T rest hi, hstop _ rest fun q => by rw [write_self]; exact he q]
  · exact descend_write hT _ hp hn

/-- A path of pointers does not lead through an entry that is written and is none. -/
theorem descend_of_write (hT : Shape T root owner) {p q : P} {path is : List I} {i : I} {e : Entry P L}
    (hd : descend T root path = some p) (he : ∀ q, e ≠ .ptr q) (h : descend (write T p i e) root is = some q) :
    descend T root is = some q := by
  have hp : owner p = some path := by simpa using hT.descend_owner hT.root_owner hd
  by_cases hn : path ++ [i] <+: is
  · obtain ⟨rest, rfl⟩ := hn
    rw [List.append_assoc, List.singleton_append, descend_append (descend_write_self hT i e hd), descend] at h
    split at h
    · rename_i r hr
      rw [write_self] at hr
      exact absurd hr (he r)
    · cases h
  · rwa [descend_write hT _ hp hn] at h

theorem Shape.write_end (hT : Shape T root owner) (p : P) (i : I) {e : Entry P L}
    (he : ∀ q, e ≠ .ptr q) : Shape (write T p i e) root owner := by
  refine ⟨hT.root_owner, fun {p'} {q} {path} {j} hp' hE => ?_⟩
  by_cases h : p' = p ∧ j = i
  · obtain ⟨rfl, rfl⟩ := h
    rw [write_self] at hE
    exact absurd hE (he q)
  · rw [write_other _ (by tauto)] at hE
    exact hT.ptr_owner hp' hE

theorem Shape.write_fresh (hT : Shape T root owner) {p q : P} {path : List I} {i : I}
    (hp : owner p = some path) (hq : owner q = none) (hf : ∀ j, T q j = .empty) :
    Shape (write T p i (.ptr q)) root (Function.update owner q (some (path ++ [i]))) := by
  have hne : ∀ {r : P} {ρ : List I}, owner r = some ρ → r ≠ q := by
    rintro r ρ hr rfl
    rw [hr] at hq
    cases hq
  refine ⟨?_, fun {p'} {q'} {path'} {j} hp' hE => ?_⟩
  · rw [Function.update_of_ne (hne hT.root_owner)]
    exact hT.root_owner
  · by_cases h : p' = p ∧ j = i
    · obtain ⟨rfl, rfl⟩ := h
      rw [write_self] at hE
      cases hE
      rw [Function.update_of_ne (hne hp), hp] at hp'
      cases hp'
      exact Function.update_self _ _ _
    · rw [write_other _ (by tauto)] at hE
      by_cases hpq : p' = q
      · subst hpq
        rw [hf j] at hE
        cases hE
      · rw [Function.update_of_ne hpq] at hp'
        have := hT.ptr_owner hp' hE
        rwa [Function.update_of_ne (hne this)]

end Write

/-! ### All leaves -/

/-- Whether an entry points to a table. -/
def Entry.isPtr : Entry P L → Bool
  | .ptr _ => true
  | _ => false

theorem Entry.isPtr_iff {e : Entry P L} : e.isPtr = true ↔ ∃ q, e = .ptr q := by
  cases e <;> simp [isPtr]

/-- The leaves below `p` at most `n` tables deep, with their paths; `is` are the indices in order. -/
def leaves (is : List I) (T : Tables P I L) : ℕ → P → List (List I × L)
  | 0, _ => []
  | n + 1, p => is.flatMap fun i =>
    match T p i with
    | .empty => []
    | .leaf l => [([i], l)]
    | .ptr q => (leaves is T n q).map fun x => (i :: x.1, x.2)

variable {is : List I} {T : Tables P I L}

theorem leaves_ne_nil {n : ℕ} {p : P} {x : List I × L} (hx : x ∈ leaves is T n p) : x.1 ≠ [] := by
  cases n with
  | zero => cases hx
  | succ n =>
    simp only [leaves, List.mem_flatMap] at hx
    obtain ⟨i, -, hx⟩ := hx
    split at hx
    · cases hx
    · rw [List.mem_singleton.mp hx]
      simp
    · obtain ⟨y, -, rfl⟩ := List.mem_map.mp hx
      simp

theorem mem_leaves (hall : ∀ i, i ∈ is) {n : ℕ} {p : P} {path : List I} {l : L} :
    (path, l) ∈ leaves is T n p ↔ path.length ≤ n ∧ walk T p path = some ([], l) := by
  induction n generalizing p path with
  | zero =>
    refine ⟨fun h => (by cases h), fun ⟨hlen, hw⟩ => ?_⟩
    rw [List.length_eq_zero_iff.mp (Nat.le_zero.mp hlen)] at hw
    cases hw
  | succ n ih =>
    simp only [leaves, List.mem_flatMap, hall, true_and]
    constructor
    · rintro ⟨i, h⟩
      split at h
      · cases h
      · rename_i l' hl
        obtain ⟨rfl, rfl⟩ := Prod.mk.inj (List.mem_singleton.mp h)
        exact ⟨by simp, walk_leaf hl []⟩
      · rename_i q hq
        obtain ⟨⟨path', l'⟩, hx, he⟩ := List.mem_map.mp h
        obtain ⟨rfl, rfl⟩ := Prod.mk.inj he
        obtain ⟨hlen, hw⟩ := ih.mp hx
        exact ⟨by simpa using hlen, (walk_ptr hq path').trans hw⟩
    · rintro ⟨hlen, hw⟩
      cases path with
      | nil => cases hw
      | cons i path =>
        refine ⟨i, ?_⟩
        cases hE : T p i with
        | empty =>
          rw [walk_empty hE] at hw
          cases hw
        | leaf l' =>
          rw [walk_leaf hE, Option.some.injEq, Prod.mk.injEq] at hw
          obtain ⟨rfl, rfl⟩ := hw
          exact List.mem_singleton_self _
        | ptr q =>
          rw [walk_ptr hE] at hw
          rw [List.length_cons] at hlen
          exact List.mem_map.mpr ⟨(path, l), ih.mpr ⟨by omega, hw⟩, rfl⟩

theorem nodup_leaves (hn : is.Nodup) (n : ℕ) (p : P) : ((leaves is T n p).map Prod.fst).Nodup := by
  induction n generalizing p with
  | zero => exact List.nodup_nil
  | succ n ih =>
    have hhead {i : I} {path : List I} (h : path ∈ (match T p i with
        | .empty => []
        | .leaf l => [([i], l)]
        | .ptr q => (leaves is T n q).map fun x : List I × L => (i :: x.1, x.2)).map Prod.fst) : path.head? = some i := by
      split at h
      · cases h
      · rw [List.map_singleton, List.mem_singleton] at h
        rw [h]
        rfl
      · rw [List.map_map] at h
        obtain ⟨y, -, rfl⟩ := List.mem_map.mp h
        rfl
    rw [leaves, List.map_flatMap, List.nodup_flatMap]
    refine ⟨fun i _ => ?_, hn.imp_of_mem fun {i j} _ _ hij path hi hj => ?_⟩
    · split
      · exact List.nodup_nil
      · exact List.nodup_singleton _
      · rename_i q _
        have hcons : ((leaves is T n q).map fun x : List I × L => (i :: x.1, x.2)).map Prod.fst
            = ((leaves is T n q).map Prod.fst).map (List.cons i) := by
          rw [List.map_map, List.map_map]
          rfl
        rw [hcons]
        exact (ih q).map List.cons_injective
    · have h := (hhead hi).symm.trans (hhead hj)
      exact hij (Option.some.inj h)

end Radix
end Lib
end Coffer
