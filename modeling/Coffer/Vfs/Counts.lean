/-
# The reference counts of dentries and vnodes

A dentry is kept alive by its children in the dentry cache, by open files and by whoever is looking
at it; a vnode by the dentries for it. `drele` of the last reference frees the dentry, releases its
parent and its vnode, and so may go up to the root.

`Counts s X Z`: in the state `s` no count is below what it counts. `X` says how many references to
each dentry come from outside the cache, and `Z` which dentries are being freed: these are still in
their table, but hold their parent no longer. `drele_spec`: `drele` of a reference from outside
returns and leaves the counts in order, without that reference.

Key definitions: `Counts`, `Released`.
Key theorems: `Counts.ref`, `Counts.die`, `Counts.bury`, `drele_spec`, `Counts.alloc`.
-/
import Coffer.Lib.Owners
import Coffer.Vfs.Descriptors
import Coffer.Vfs.Frame

namespace Coffer
namespace Fs

open Lib Lib.Cmd

variable {i v : ℕ}

/-! ### What holds what -/

/-- The parent a dentry holds; one that is being freed holds none. -/
def kidOwn (s : Fs) (Z : Finset ℕ) (i : ℕ) : Option ℕ :=
  if i ∈ Z then none else (s.dentries i).bind Dentry.dParent

/-- How many dentries hold `d` as their parent. -/
def kids (s : Fs) (Z : Finset ℕ) (d : ℕ) : ℕ := held (s.kidOwn Z) s.next d

/-- The vnode a dentry holds. -/
def vnodeOwn (s : Fs) (i : ℕ) : Option ℕ := (s.dentries i).map Dentry.dVnode

/-- How many dentries hold `v`. -/
def vrefs (s : Fs) (v : ℕ) : ℕ := held s.vnodeOwn s.next v

/-- The counts of dentries and vnodes are in order: none is below what it counts. `X` are the references
to dentries from outside, `Z` the dentries that are being freed. -/
structure Counts (s : Fs) (X : ℕ → ℕ) (Z : Finset ℕ) : Prop where
  dent_lt : ∀ {d x}, s.dentries d = some x → d < s.next
  vnode_lt : ∀ {v y}, s.vnodes v = some y → v < s.next
  vnode : ∀ {d x}, s.dentries d = some x → ∃ y, s.vnodes x.dVnode = some y
  vcount : ∀ {v y}, s.vnodes v = some y → (s.vrefs v : ℤ) ≤ y.vRefcnt
  parent : ∀ {d x p}, s.dentries d = some x → d ∉ Z → x.dParent = some p →
    p < d ∧ p ∉ Z ∧ (s.dentries p).isSome
  count : ∀ {d x}, s.dentries d = some x → d ∉ Z → (s.kids Z d + X d : ℤ) ≤ x.dRefcnt ∧ 1 ≤ x.dRefcnt
  ext : ∀ {d}, 0 < X d → d ∉ Z ∧ (s.dentries d).isSome

/-- One more reference to `d` from outside. -/
def give (X : ℕ → ℕ) (d : ℕ) : ℕ → ℕ := Function.update X d (X d + 1)

/-- One reference less. -/
def take (X : ℕ → ℕ) (d : ℕ) : ℕ → ℕ := Function.update X d (X d - 1)

theorem take_give (X : ℕ → ℕ) (d : ℕ) : take (give X d) d = X := by
  funext i
  by_cases h : i = d
  · subst h
    simp [take, give]
  · simp [take, give, h]

theorem give_pos (X : ℕ → ℕ) (d : ℕ) : 1 ≤ give X d d := by
  simp [give]

theorem le_give (X : ℕ → ℕ) (d i : ℕ) : X i ≤ give X d i := by
  by_cases h : i = d
  · subst h
    simp [give]
  · simp [give, h]

theorem give_comm (X : ℕ → ℕ) (d e : ℕ) : give (give X d) e = give (give X e) d := by
  funext i
  by_cases h : i = d
  · by_cases h' : i = e
    · subst h h'
      rfl
    · subst h
      simp [give, h']
  · by_cases h' : i = e
    · subst h'
      simp [give, h]
    · simp [give, h, h']

variable {s t : Fs} {X X' : ℕ → ℕ} {Z : Finset ℕ} {d : ℕ} {x : Dentry}

/-- Only the two tables matter. -/
theorem Counts.congr (h : Counts s X Z) (hd : t.dentries = s.dentries) (hv : t.vnodes = s.vnodes)
    (hn : s.next ≤ t.next) : Counts t X Z := by
  have hkid : t.kidOwn Z = s.kidOwn Z := by
    funext i
    simp only [kidOwn, hd]
  have hown : t.vnodeOwn = s.vnodeOwn := by
    funext i
    simp only [vnodeOwn, hd]
  have hnone (i : ℕ) (hi : s.next ≤ i) : s.dentries i = none := by
    rcases hx : s.dentries i with _ | x
    · rfl
    · exact absurd (h.dent_lt hx) (not_lt.mpr hi)
  have hkids (d : ℕ) : t.kids Z d = s.kids Z d := by
    rw [kids, kids, hkid]
    exact held_of_le hn (fun i hi => by simp [kidOwn, hnone i hi]) d
  have hvrefs (v : ℕ) : t.vrefs v = s.vrefs v := by
    rw [vrefs, vrefs, hown]
    exact held_of_le hn (fun i hi => by simp [vnodeOwn, hnone i hi]) v
  refine ⟨?_, ?_, ?_, ?_, ?_, ?_, ?_⟩
  · intro d x hx
    rw [hd] at hx
    exact lt_of_lt_of_le (h.dent_lt hx) hn
  · intro v y hy
    rw [hv] at hy
    exact lt_of_lt_of_le (h.vnode_lt hy) hn
  · intro d x hx
    rw [hd] at hx
    rw [hv]
    exact h.vnode hx
  · intro v y hy
    rw [hv] at hy
    rw [hvrefs]
    exact h.vcount hy
  · intro d x p hx hz hp
    rw [hd] at hx ⊢
    exact h.parent hx hz hp
  · intro d x hx hz
    rw [hd] at hx
    rw [hkids]
    exact h.count hx hz
  · intro d hX
    rw [hd]
    exact h.ext hX

/-! ### One dentry -/

/-- The state with an entry of the table of dentries set. -/
def setDentry (s : Fs) (d : ℕ) (x : Option Dentry) : Fs := { s with dentries := Function.update s.dentries d x }

theorem putDentry_ok (s : Fs) (d : ℕ) (x : Option Dentry) : putDentry d x s = .ok ((), s.setDentry d x) := rfl

theorem setDentry_self (s : Fs) (d : ℕ) (x : Option Dentry) : (s.setDentry d x).dentries d = x :=
  Function.update_self ..

theorem setDentry_other (s : Fs) (x : Option Dentry) {d : ℕ} (h : i ≠ d) :
    (s.setDentry d x).dentries i = s.dentries i := Function.update_of_ne h ..

/-- The same dentry with another count. -/
def recount (x : Dentry) (c : ℤ) : Dentry := { x with dRefcnt := c }

/-- A new count leaves what a dentry holds. -/
theorem kidOwn_recount (hx : s.dentries d = some x) (c : ℤ) (Z : Finset ℕ) :
    (s.setDentry d (some (recount x c))).kidOwn Z = s.kidOwn Z := by
  funext i
  by_cases h : i = d
  · subst h
    simp only [kidOwn, setDentry_self, hx]
    rfl
  · simp only [kidOwn, setDentry_other s _ h]

theorem vnodeOwn_recount (hx : s.dentries d = some x) (c : ℤ) :
    (s.setDentry d (some (recount x c))).vnodeOwn = s.vnodeOwn := by
  funext i
  by_cases h : i = d
  · subst h
    simp only [vnodeOwn, setDentry_self, hx]
    rfl
  · simp only [vnodeOwn, setDentry_other s _ h]

/-- A dentry of the table after a new count is one from before. -/
theorem recount_inv (hx : s.dentries d = some x) {c : ℤ} {z : Dentry}
    (hz : (s.setDentry d (some (recount x c))).dentries i = some z) :
    ∃ z₀, s.dentries i = some z₀ ∧ z = recount z₀ z.dRefcnt ∧ (i ≠ d → z = z₀) ∧ (i = d → z.dRefcnt = c) := by
  by_cases h : i = d
  · subst h
    rw [setDentry_self] at hz
    cases hz
    exact ⟨x, hx, rfl, fun hne => absurd rfl hne, fun _ => rfl⟩
  · rw [setDentry_other s _ h] at hz
    exact ⟨z, hz, rfl, fun _ => rfl, fun he => absurd he h⟩

theorem recount_isSome (hx : s.dentries d = some x) (c : ℤ) (i : ℕ) :
    ((s.setDentry d (some (recount x c))).dentries i).isSome = (s.dentries i).isSome := by
  by_cases h : i = d
  · subst h
    rw [setDentry_self, hx]
    rfl
  · rw [setDentry_other s _ h]

/-- Another count for a dentry, with other references to it from outside. -/
theorem Counts.recount (h : Counts s X Z) (hx : s.dentries d = some x) (hz : d ∉ Z) {c : ℤ}
    (hX : ∀ i, i ≠ d → X' i = X i) (hc : (s.kids Z d + X' d : ℤ) ≤ c) (h1 : 1 ≤ c) :
    Counts (s.setDentry d (some (Fs.recount x c))) X' Z := by
  have hkids (i : ℕ) : (s.setDentry d (some (Fs.recount x c))).kids Z i = s.kids Z i := by
    rw [kids, kids, kidOwn_recount hx]
    rfl
  have hvrefs (v : ℕ) : (s.setDentry d (some (Fs.recount x c))).vrefs v = s.vrefs v := by
    rw [vrefs, vrefs, vnodeOwn_recount hx]
    rfl
  refine ⟨?_, h.vnode_lt, ?_, ?_, ?_, ?_, ?_⟩
  · intro i z hi
    obtain ⟨z₀, hz₀, -⟩ := recount_inv hx hi
    exact h.dent_lt hz₀
  · intro i z hi
    obtain ⟨z₀, hz₀, he, -⟩ := recount_inv hx hi
    have hv := h.vnode hz₀
    rw [he]
    exact hv
  · intro v y hy
    rw [hvrefs]
    exact h.vcount hy
  · intro i z p hi hiz hp
    obtain ⟨z₀, hz₀, he, -⟩ := recount_inv hx hi
    rw [he] at hp
    rw [recount_isSome hx]
    exact h.parent hz₀ hiz hp
  · intro i z hi hiz
    obtain ⟨z₀, hz₀, -, hne, hd⟩ := recount_inv hx hi
    rw [hkids]
    by_cases he : i = d
    · subst he
      rw [hd rfl]
      exact ⟨hc, h1⟩
    · rw [hX i he, hne he]
      exact h.count hz₀ hiz
  · intro i hi
    rw [recount_isSome hx]
    by_cases he : i = d
    · subst he
      exact ⟨hz, by rw [hx]; rfl⟩
    · rw [hX i he] at hi
      exact h.ext hi

theorem dref_ok (hx : s.dentries d = some x) :
    dref d s = .ok ((), s.setDentry d (some (Fs.recount x (x.dRefcnt + 1)))) := by
  rw [dref, bind_of_ok (getDentry_ok hx)]
  rfl

theorem Counts.ref (h : Counts s X Z) (hx : s.dentries d = some x) (hz : d ∉ Z) :
    dref d s = .ok ((), s.setDentry d (some (Fs.recount x (x.dRefcnt + 1)))) ∧
      Counts (s.setDentry d (some (Fs.recount x (x.dRefcnt + 1)))) (give X d) Z := by
  obtain ⟨hc, h1⟩ := h.count hx hz
  refine ⟨dref_ok hx, h.recount hx hz (fun i hi => Function.update_of_ne hi ..) ?_ (by omega)⟩
  rw [give, Function.update_self]
  push_cast
  omega

/-! ### The last reference -/

/-- The references once `d` holds its parent `p` no longer. -/
def passOn (X : ℕ → ℕ) (d : ℕ) (p : Option ℕ) (i : ℕ) : ℕ :=
  if i = d then 0 else X i + if p = some i then 1 else 0

/-- The count of `d` goes to 0: what held its parent as a child of it is now a reference from outside. -/
theorem Counts.die (h : Counts s X Z) (hx : s.dentries d = some x) (hz : d ∉ Z) (h1 : x.dRefcnt = 1)
    (hX : 1 ≤ X d) :
    Counts (s.setDentry d (some (Fs.recount x 0))) (passOn X d x.dParent) (insert d Z) := by
  obtain ⟨hc, -⟩ := h.count hx hz
  have hkids0 : s.kids Z d = 0 := by omega
  have hdlt := h.dent_lt hx
  have hown (j : ℕ) (hj : j ≠ d) : (s.setDentry d (some (Fs.recount x 0))).kidOwn (insert d Z) j = s.kidOwn Z j := by
    simp only [kidOwn, setDentry_other s _ hj, Finset.mem_insert, hj, false_or]
  have hself : (s.setDentry d (some (Fs.recount x 0))).kidOwn (insert d Z) d = none := by
    simp [kidOwn]
  have hold : s.kidOwn Z d = x.dParent := by
    simp [kidOwn, hz, hx]
  have hkids (i : ℕ) : s.kids Z i =
      (s.setDentry d (some (Fs.recount x 0))).kids (insert d Z) i + if x.dParent = some i then 1 else 0 := by
    have hch := held_change hdlt hown i
    rw [hself, hold] at hch
    simp only [reduceCtorEq, if_false, Nat.add_zero] at hch
    exact hch.symm
  -- no dentry that is not being freed has `d` as its parent
  have hnokid {i : ℕ} {z : Dentry} (hi : s.dentries i = some z) (hiz : i ∉ Z) : z.dParent ≠ some d := by
    intro hp
    have : 0 < s.kids Z d := held_pos (h.dent_lt hi) (by simp [kidOwn, hiz, hi, hp])
    omega
  have hvrefs (v : ℕ) : (s.setDentry d (some (Fs.recount x 0))).vrefs v = s.vrefs v := by
    rw [vrefs, vrefs, vnodeOwn_recount hx]
    rfl
  refine ⟨?_, h.vnode_lt, ?_, ?_, ?_, ?_, ?_⟩
  · intro i z hi
    obtain ⟨z₀, hz₀, -⟩ := recount_inv hx hi
    exact h.dent_lt hz₀
  · intro i z hi
    obtain ⟨z₀, hz₀, he, -⟩ := recount_inv hx hi
    have hv := h.vnode hz₀
    rw [he]
    exact hv
  · intro v y hy
    rw [hvrefs]
    exact h.vcount hy
  · intro i z p hi hiz hp
    rw [Finset.mem_insert, not_or] at hiz
    obtain ⟨z₀, hz₀, he, -⟩ := recount_inv hx hi
    rw [he] at hp
    obtain ⟨hlt, hpz, hsome⟩ := h.parent hz₀ hiz.2 hp
    refine ⟨hlt, ?_, by rw [recount_isSome hx]; exact hsome⟩
    rw [Finset.mem_insert, not_or]
    refine ⟨?_, hpz⟩
    rintro rfl
    exact hnokid hz₀ hiz.2 hp
  · intro i z hi hiz
    rw [Finset.mem_insert, not_or] at hiz
    obtain ⟨z₀, hz₀, -, hne, -⟩ := recount_inv hx hi
    rw [hne hiz.1]
    obtain ⟨hcz, h1z⟩ := h.count hz₀ hiz.2
    have hk := hkids i
    refine ⟨?_, h1z⟩
    rw [passOn, if_neg hiz.1]
    push_cast
    split_ifs at hk ⊢ <;> omega
  · intro i hi
    rw [recount_isSome hx]
    unfold passOn at hi
    split at hi
    · exact absurd hi (Nat.lt_irrefl 0)
    · rename_i hne
      by_cases hp : x.dParent = some i
      · obtain ⟨-, hpz, hsome⟩ := h.parent hx hz hp
        exact ⟨by simp [hne, hpz], hsome⟩
      · rw [if_neg hp, Nat.add_zero] at hi
        obtain ⟨hiz, hsome⟩ := h.ext hi
        exact ⟨by simp [hne, hiz], hsome⟩

/-- A vnode with one reference less. -/
def vdec (y : Vnode) : Option Vnode := if 0 < y.vRefcnt - 1 then some { y with vRefcnt := y.vRefcnt - 1 } else none

/-- The state with an entry of the table of vnodes set. -/
def setVnode (s : Fs) (v : ℕ) (y : Option Vnode) : Fs := { s with vnodes := Function.update s.vnodes v y }

theorem setVnode_self (s : Fs) (v : ℕ) (y : Option Vnode) : (s.setVnode v y).vnodes v = y :=
  Function.update_self ..

theorem setVnode_other (s : Fs) (y : Option Vnode) (h : i ≠ v) :
    (s.setVnode v y).vnodes i = s.vnodes i := Function.update_of_ne h ..

theorem vref_ok {y : Vnode} (hy : s.vnodes v = some y) :
    vref v s = .ok ((), s.setVnode v (some { y with vRefcnt := y.vRefcnt + 1 })) := by
  rw [vref, bind_of_ok (getVnode_ok hy)]
  rfl

theorem vrele_ok {y : Vnode} (hy : s.vnodes v = some y) : vrele v s = .ok ((), s.setVnode v (vdec y)) := by
  rw [vrele, bind_of_ok (getVnode_ok hy)]
  unfold vdec
  by_cases h : 0 < y.vRefcnt - 1
  · rw [if_pos h, if_pos h]
    rfl
  · rw [if_neg h, if_neg h]
    change Except.ok ((), _) = Except.ok ((), _)
    simp only [setVnode, Function.update_idem]

/-- A vnode that is left after a reference was dropped is the one from before, but for its count. -/
theorem setVnode_vdec {y z : Vnode} (hy : s.vnodes v = some y)
    (hz : (s.setVnode v (vdec y)).vnodes i = some z) :
    ∃ z₀, s.vnodes i = some z₀ ∧ z = { z₀ with vRefcnt := z.vRefcnt } ∧ (i ≠ v → z = z₀) ∧
      (i = v → z.vRefcnt = y.vRefcnt - 1) := by
  by_cases h : i = v
  · subst h
    rw [setVnode_self, vdec] at hz
    split at hz
    · cases hz
      exact ⟨y, hy, rfl, fun hne => absurd rfl hne, fun _ => rfl⟩
    · cases hz
  · rw [setVnode_other s _ h] at hz
    exact ⟨z, hz, rfl, fun _ => rfl, fun he => absurd he h⟩

/-- A dentry whose count is 0 leaves its table, and its vnode has one reference less. -/
theorem Counts.bury {y : Vnode} (h : Counts s X (insert d Z)) (hx : s.dentries d = some x) (hz : d ∉ Z)
    (hy : s.vnodes x.dVnode = some y) : Counts ((s.setVnode x.dVnode (vdec y)).setDentry d none) X Z := by
  have hdlt := h.dent_lt hx
  have hold {i : ℕ} {z : Dentry} (hi : ((s.setVnode x.dVnode (vdec y)).setDentry d none).dentries i = some z) :
      i ≠ d ∧ s.dentries i = some z := by
    by_cases he : i = d
    · subst he
      rw [setDentry_self] at hi
      cases hi
    · rw [setDentry_other _ _ he] at hi
      exact ⟨he, hi⟩
  have hown : (s.setDentry d none).kidOwn Z = s.kidOwn (insert d Z) := by
    funext i
    by_cases he : i = d
    · subst he
      simp [kidOwn, setDentry_self]
    · simp only [kidOwn, setDentry_other s _ he, Finset.mem_insert, he, false_or]
  have hkids (i : ℕ) : ((s.setVnode x.dVnode (vdec y)).setDentry d none).kids Z i = s.kids (insert d Z) i := by
    rw [kids, kids, ← hown]
    rfl
  have hdrop (v : ℕ) : s.vrefs v = ((s.setVnode x.dVnode (vdec y)).setDentry d none).vrefs v +
      if x.dVnode = v then 1 else 0 := by
    refine held_drop hdlt (fun j hj => ?_) ?_ ?_ v
    · simp only [vnodeOwn, setDentry_other _ _ hj]
      rfl
    · simp [vnodeOwn, hx]
    · simp [vnodeOwn, setDentry_self]
  refine ⟨?_, ?_, ?_, ?_, ?_, ?_, ?_⟩
  · intro i z hi
    exact h.dent_lt (hold hi).2
  · intro v z hv
    obtain ⟨z₀, hz₀, -⟩ := setVnode_vdec hy hv
    exact h.vnode_lt hz₀
  · intro i z hi
    obtain ⟨hne, hi⟩ := hold hi
    by_cases he : z.dVnode = x.dVnode
    · -- another dentry holds the vnode, so that it stays
      have hpos : 0 < ((s.setVnode x.dVnode (vdec y)).setDentry d none).vrefs x.dVnode := by
        refine held_pos (h.dent_lt hi) ?_
        rw [vnodeOwn, setDentry_other _ _ hne]
        exact (congrArg (Option.map Dentry.dVnode) hi).trans (congrArg some he)
      have hd := hdrop x.dVnode
      rw [if_pos rfl] at hd
      have hc := h.vcount hy
      refine ⟨{ y with vRefcnt := y.vRefcnt - 1 }, ?_⟩
      rw [he]
      refine (setVnode_self ..).trans ?_
      rw [vdec, if_pos (by omega)]
    · obtain ⟨w, hw⟩ := h.vnode hi
      exact ⟨w, (setVnode_other s _ he).trans hw⟩
  · intro v z hv
    obtain ⟨z₀, hz₀, -, hne, hself⟩ := setVnode_vdec hy hv
    have hd := hdrop v
    have hc := h.vcount hz₀
    by_cases he : v = x.dVnode
    · subst he
      rw [if_pos rfl] at hd
      rw [hy] at hz₀
      cases hz₀
      rw [hself rfl]
      omega
    · rw [if_neg (Ne.symm he)] at hd
      rw [hne he]
      omega
  · intro i z p hi hiz hp
    obtain ⟨hne, hi⟩ := hold hi
    obtain ⟨hlt, hpz, hsome⟩ := h.parent hi (by simp [hne, hiz]) hp
    rw [Finset.mem_insert, not_or] at hpz
    refine ⟨hlt, hpz.2, ?_⟩
    rw [setDentry_other _ _ hpz.1]
    exact hsome
  · intro i z hi hiz
    obtain ⟨hne, hi⟩ := hold hi
    rw [hkids]
    exact h.count hi (by simp [hne, hiz])
  · intro i hi
    obtain ⟨hiz, hsome⟩ := h.ext hi
    rw [Finset.mem_insert, not_or] at hiz
    refine ⟨hiz.2, ?_⟩
    rw [setDentry_other _ _ hiz.1]
    exact hsome

/-! ### Releasing a dentry -/

/-- What the release of a dentry does: some dentries and vnodes are freed, the others keep all but
their counts, and no freed dentry stays in the hash table. -/
structure Released (s t : Fs) : Prop where
  dent : ∀ {i z}, t.dentries i = some z → ∃ z₀, s.dentries i = some z₀ ∧ z = recount z₀ z.dRefcnt
  vnode : ∀ {v y}, t.vnodes v = some y → ∃ y₀, s.vnodes v = some y₀ ∧ y = { y₀ with vRefcnt := y.vRefcnt }
  hash : t.hash.Sublist s.hash
  hashed : ∀ {i}, i ∈ t.hash → (s.dentries i).isSome → (t.dentries i).isSome
  kept : ∀ {i}, i ∈ s.hash → (t.dentries i).isSome → i ∈ t.hash
  next : t.next = s.next

theorem Released.refl (s : Fs) : Released s s where
  dent {_ z} hz := ⟨z, hz, rfl⟩
  vnode {_ y} hy := ⟨y, hy, rfl⟩
  hash := List.Sublist.refl _
  hashed _ h := h
  kept h _ := h
  next := rfl

theorem Released.recount (hx : s.dentries d = some x) (c : ℤ) : Released s (s.setDentry d (some (Fs.recount x c))) where
  dent {_ z} hz := by
    obtain ⟨z₀, h₀, he, -⟩ := recount_inv hx hz
    exact ⟨z₀, h₀, he⟩
  vnode {_ y} hy := ⟨y, hy, rfl⟩
  hash := List.Sublist.refl _
  hashed {i} _ hs := by
    rw [recount_isSome hx]
    exact hs
  kept h _ := h
  next := rfl

theorem passOn_none (h : X d = 1) : passOn X d none = take X d := by
  funext i
  by_cases hi : i = d
  · subst hi
    simp [passOn, take, h]
  · simp [passOn, take, hi]

theorem take_passOn {p : ℕ} (h : X d = 1) (hp : p ≠ d) : take (passOn X d (some p)) p = take X d := by
  funext i
  by_cases hi : i = d
  · subst hi
    simp [passOn, take, h, hp.symm]
  · by_cases hip : i = p
    · subst hip
      simp [passOn, take, hi]
    · simp [passOn, take, hi, hip, Ne.symm hip]

/-- The state with a dentry out of the hash table. -/
def unhash (s : Fs) (d : ℕ) : Fs := { s with hash := s.hash.filter (· ≠ d) }

/-- A dentry is freed once what it held is released. -/
theorem Released.freed {y : Vnode} (hx : s.dentries d = some x)
    (h : Released ((s.setDentry d (some (Fs.recount x 0))).unhash d) t) (hy : t.vnodes x.dVnode = some y) :
    Released s ((t.setVnode x.dVnode (vdec y)).setDentry d none) := by
  have hne {i : ℕ} (hi : i ∈ t.hash) : i ≠ d := by
    simpa [unhash] using (List.mem_filter.mp (h.hash.subset hi)).2
  have hsome {i : ℕ} (hi : ((t.setVnode x.dVnode (vdec y)).setDentry d none).dentries i ≠ none) : i ≠ d := by
    rintro rfl
    exact hi (setDentry_self ..)
  refine ⟨?_, ?_, ?_, ?_, ?_, h.next⟩
  · intro i z hz
    have hid : i ≠ d := hsome (by rw [hz]; simp)
    rw [setDentry_other _ _ hid] at hz
    obtain ⟨z₁, h₁, he⟩ := h.dent hz
    obtain ⟨z₀, h₀, -, he', -⟩ := recount_inv hx h₁
    exact ⟨z₀, h₀, by rw [he, he' hid]; rfl⟩
  · intro v z hz
    obtain ⟨z₁, h₁, he, -⟩ := setVnode_vdec hy hz
    obtain ⟨z₀, h₀, he'⟩ := h.vnode h₁
    refine ⟨z₀, h₀, ?_⟩
    rw [he, he']
  · exact h.hash.trans List.filter_sublist
  · intro i hi hs
    rw [setDentry_other _ _ (hne hi)]
    refine h.hashed hi ?_
    exact (recount_isSome hx 0 i).trans hs
  · intro i hi hs
    have hid : i ≠ d := hsome (by rintro he; rw [he] at hs; cases hs)
    rw [setDentry_other _ _ hid] at hs
    exact h.kept (List.mem_filter.mpr ⟨hi, by simp [hid]⟩) hs

/-- What is left of `drele` once the count is 0 and the parent is released. -/
theorem dreleUpTo_last {n : ℕ} {y : Vnode} (hx : s.dentries d = some x) (h1 : x.dRefcnt = 1)
    (hp : (match x.dParent with
        | some p => dreleUpTo n p
        | none => pure ()) ((s.setDentry d (some (Fs.recount x 0))).unhash d) = .ok ((), t))
    (hy : t.vnodes x.dVnode = some y) :
    dreleUpTo (n + 1) d s = .ok ((), (t.setVnode x.dVnode (vdec y)).setDentry d none) := by
  rw [dreleUpTo, bind_of_ok (getDentry_ok hx), bind_of_ok (putDentry_ok ..), if_neg (by simp [h1])]
  have hs : s.setDentry d (some { x with dRefcnt := x.dRefcnt - 1 }) = s.setDentry d (some (Fs.recount x 0)) := by
    rw [h1]
    rfl
  rw [hs]
  change ((match x.dParent with
      | some p => dreleUpTo n p
      | none => pure ()) >>= fun _ => vrele x.dVnode >>= fun _ => putDentry d none)
    ((s.setDentry d (some (Fs.recount x 0))).unhash d) = _
  refine (bind_of_ok hp).trans ?_
  rw [bind_of_ok (vrele_ok hy)]
  rfl

/-- `drele` of a reference from outside, through enough parents. -/
theorem dreleUpTo_spec {n : ℕ} (hn : d < n) (h : Counts s X Z) (hX : 1 ≤ X d) :
    ∃ t, dreleUpTo n d s = .ok ((), t) ∧ Counts t (take X d) Z ∧ Released s t ∧
      ∀ i ∈ Z, t.dentries i = s.dentries i := by
  induction n generalizing s X Z d with
  | zero => exact absurd hn (Nat.not_lt_zero d)
  | succ n ih =>
    obtain ⟨hz, hsome⟩ := h.ext hX
    obtain ⟨x, hx⟩ := Option.isSome_iff_exists.mp hsome
    obtain ⟨hc, hpos⟩ := h.count hx hz
    by_cases h1 : x.dRefcnt = 1
    · have hX1 : X d = 1 := by omega
      have hdie : Counts ((s.setDentry d (some (Fs.recount x 0))).unhash d) (passOn X d x.dParent) (insert d Z) :=
        (h.die hx hz h1 hX).congr rfl rfl (le_refl _)
      -- the parent is released, and `d` is in its table until that is done
      obtain ⟨t, ht, hct, hrel, hzom⟩ : ∃ t, (match x.dParent with
            | some p => dreleUpTo n p
            | none => pure ()) ((s.setDentry d (some (Fs.recount x 0))).unhash d) = .ok ((), t) ∧
          Counts t (take X d) (insert d Z) ∧ Released ((s.setDentry d (some (Fs.recount x 0))).unhash d) t ∧
          ∀ i ∈ insert d Z, t.dentries i = ((s.setDentry d (some (Fs.recount x 0))).unhash d).dentries i := by
        rcases hp : x.dParent with _ | p
        · rw [hp, passOn_none hX1] at hdie
          exact ⟨_, rfl, hdie, Released.refl _, fun _ _ => rfl⟩
        · obtain ⟨hlt, -⟩ := h.parent hx hz hp
          rw [hp] at hdie
          have hone : 1 ≤ passOn X d (some p) p := by
            simp [passOn, Nat.ne_of_lt hlt]
          have hrun := ih (lt_of_lt_of_le hlt (Nat.le_of_lt_succ hn)) hdie hone
          rw [take_passOn hX1 (Nat.ne_of_lt hlt)] at hrun
          exact hrun
      have hxt : t.dentries d = some (Fs.recount x 0) := by
        rw [hzom d (Finset.mem_insert_self d Z)]
        exact setDentry_self ..
      obtain ⟨y, hy⟩ := hct.vnode hxt
      have hbury := hct.bury hxt hz hy
      refine ⟨_, dreleUpTo_last hx h1 ht hy, hbury, hrel.freed hx hy, fun i hi => ?_⟩
      have hid : i ≠ d := by
        rintro rfl
        exact hz hi
      rw [setDentry_other _ _ hid]
      refine (hzom i (Finset.mem_insert_of_mem hi)).trans ?_
      exact setDentry_other s _ hid
    · refine ⟨s.setDentry d (some (Fs.recount x (x.dRefcnt - 1))), ?_, ?_, Released.recount hx _, fun i hi => ?_⟩
      · rw [dreleUpTo, bind_of_ok (getDentry_ok hx), bind_of_ok (putDentry_ok ..), if_pos (by omega)]
        rfl
      · refine h.recount hx hz (fun i hi => Function.update_of_ne hi ..) ?_ (by omega)
        rw [take, Function.update_self]
        omega
      · refine setDentry_other s _ ?_
        rintro rfl
        exact hz hi

/-- `drele` of a reference from outside. -/
theorem drele_spec (h : Counts s X ∅) (hX : 1 ≤ X d) :
    ∃ t, drele d s = .ok ((), t) ∧ Counts t (take X d) ∅ ∧ Released s t := by
  obtain ⟨t, ht, hc, hr, -⟩ := dreleUpTo_spec (Nat.lt_succ_self d) h hX
  exact ⟨t, ht, hc, hr⟩

/-! ### A new dentry -/

/-- The state with a new vnode `y` and a new dentry for it: the child of `p` with the path `path`. -/
def addDentry (s : Fs) (p : ℕ) (x : Dentry) (path : Str) (y : Vnode) : Fs :=
  { s with
    vnodes := Function.update s.vnodes s.next (some y)
    dentries := Function.update (Function.update s.dentries p (some (recount x (x.dRefcnt + 1)))) (s.next + 1)
      (some ⟨1, path, s.next, some p⟩)
    hash := (s.next + 1) :: s.hash
    next := s.next + 2 }

section AddDentry

variable {p : ℕ} {path : Str} {y : Vnode}

theorem addDentry_new (s : Fs) (p : ℕ) (x : Dentry) (path : Str) (y : Vnode) :
    (s.addDentry p x path y).dentries (s.next + 1) = some ⟨1, path, s.next, some p⟩ := Function.update_self ..

theorem addDentry_old (s : Fs) (p : ℕ) (x : Dentry) (path : Str) (y : Vnode) (hi : i ≠ s.next + 1) :
    (s.addDentry p x path y).dentries i = (s.setDentry p (some (recount x (x.dRefcnt + 1)))).dentries i :=
  Function.update_of_ne hi ..

theorem addDentry_vnode (s : Fs) (p : ℕ) (x : Dentry) (path : Str) (y : Vnode) :
    (s.addDentry p x path y).vnodes s.next = some y := Function.update_self ..

theorem addDentry_vnode_old (s : Fs) (p : ℕ) (x : Dentry) (path : Str) (y : Vnode) (hv : v ≠ s.next) :
    (s.addDentry p x path y).vnodes v = s.vnodes v := Function.update_of_ne hv ..

/-- A dentry of the table is the new one or one from before. -/
theorem addDentry_inv (hx : s.dentries p = some x) {z : Dentry}
    (hz : (s.addDentry p x path y).dentries i = some z) :
    (i = s.next + 1 ∧ z = ⟨1, path, s.next, some p⟩) ∨
      i ≠ s.next + 1 ∧ ∃ z₀, s.dentries i = some z₀ ∧ z = recount z₀ z.dRefcnt ∧ (i ≠ p → z = z₀) ∧
        (i = p → z.dRefcnt = x.dRefcnt + 1) := by
  by_cases h : i = s.next + 1
  · subst h
    rw [addDentry_new] at hz
    cases hz
    exact Or.inl ⟨rfl, rfl⟩
  · rw [addDentry_old _ _ _ _ _ h] at hz
    exact Or.inr ⟨h, recount_inv hx hz⟩

theorem Counts.fresh_dentry (h : Counts s X Z) (hi : s.next ≤ i) : s.dentries i = none := by
  rcases hx : s.dentries i with _ | x
  · rfl
  · exact absurd (h.dent_lt hx) (not_lt.mpr hi)

theorem Counts.fresh_vnode (h : Counts s X Z) (hi : s.next ≤ i) : s.vnodes i = none := by
  rcases hx : s.vnodes i with _ | x
  · rfl
  · exact absurd (h.vnode_lt hx) (not_lt.mpr hi)

theorem Counts.fresh_ext (h : Counts s X Z) (hi : s.next ≤ i) : X i = 0 := by
  by_contra h0
  have := (h.ext (Nat.pos_of_ne_zero h0)).2
  rw [h.fresh_dentry hi] at this
  cases this

/-- The new dentry is one more child of `p`. -/
theorem kids_addDentry (h : Counts s X ∅) (hx : s.dentries p = some x) (i : ℕ) :
    (s.addDentry p x path y).kids ∅ i = s.kids ∅ i + if p = i then 1 else 0 := by
  have hp := h.dent_lt hx
  have hbelow (j : ℕ) (hj : j < s.next + 1) : (s.addDentry p x path y).kidOwn ∅ j = s.kidOwn ∅ j := by
    rw [← kidOwn_recount hx (x.dRefcnt + 1)]
    simp only [kidOwn, addDentry_old s p x path y (Nat.ne_of_lt hj)]
  have hlast : (s.addDentry p x path y).kidOwn ∅ (s.next + 1) = some p := by
    simp [kidOwn, addDentry_new]
  have hnone : s.kidOwn ∅ s.next = none := by
    simp [kidOwn, h.fresh_dentry (le_refl s.next)]
  unfold kids
  change held _ (s.next + 1 + 1) i = _
  rw [held_succ, hlast, held_congr hbelow, held_succ, hnone]
  simp

/-- The new vnode is held by the new dentry. -/
theorem vrefs_addDentry (h : Counts s X ∅) (hx : s.dentries p = some x) (v : ℕ) :
    (s.addDentry p x path y).vrefs v = s.vrefs v + if s.next = v then 1 else 0 := by
  have hbelow (j : ℕ) (hj : j < s.next + 1) : (s.addDentry p x path y).vnodeOwn j = s.vnodeOwn j := by
    rw [← vnodeOwn_recount hx (x.dRefcnt + 1)]
    simp only [vnodeOwn, addDentry_old s p x path y (Nat.ne_of_lt hj)]
  have hlast : (s.addDentry p x path y).vnodeOwn (s.next + 1) = some s.next := by
    simp [vnodeOwn, addDentry_new]
  have hnone : s.vnodeOwn s.next = none := by
    simp [vnodeOwn, h.fresh_dentry (le_refl s.next)]
  unfold vrefs
  change held _ (s.next + 1 + 1) v = _
  rw [held_succ, hlast, held_congr hbelow, held_succ, hnone]
  simp

theorem Counts.alloc (h : Counts s X ∅) (hx : s.dentries p = some x) (path : Str) (hy : y.vRefcnt = 1) :
    Counts (s.addDentry p x path y) (give X (s.next + 1)) ∅ := by
  have hp := h.dent_lt hx
  have hnew0 : X (s.next + 1) = 0 := h.fresh_ext (Nat.le_succ _)
  have hsome (i : ℕ) (hi : (s.dentries i).isSome) : ((s.addDentry p x path y).dentries i).isSome := by
    by_cases he : i = s.next + 1
    · rw [he, addDentry_new]
      rfl
    · rw [addDentry_old _ _ _ _ _ he, recount_isSome hx]
      exact hi
  -- nothing held the new objects before
  have hkids0 : s.kids ∅ (s.next + 1) = 0 := by
    refine held_eq_zero.mpr fun i _ hi => ?_
    rcases hz : s.dentries i with _ | z
    · simp [kidOwn, hz] at hi
    · simp only [kidOwn, hz, Finset.notMem_empty, if_false, Option.bind_some] at hi
      obtain ⟨hlt, -⟩ := h.parent hz (Finset.notMem_empty i) hi
      have := h.dent_lt hz
      omega
  have hvrefs0 : s.vrefs s.next = 0 := by
    refine held_eq_zero.mpr fun i _ hi => ?_
    rcases hz : s.dentries i with _ | z
    · simp [vnodeOwn, hz] at hi
    · simp only [vnodeOwn, hz, Option.map_some, Option.some.injEq] at hi
      obtain ⟨w, hw⟩ := h.vnode hz
      exact absurd (h.vnode_lt hw) (by omega)
  refine ⟨?_, ?_, ?_, ?_, ?_, ?_, ?_⟩
  · intro i z hz
    show i < s.next + 2
    rcases addDentry_inv hx hz with ⟨rfl, -⟩ | ⟨-, z₀, hz₀, -⟩
    · omega
    · have := h.dent_lt hz₀
      omega
  · intro v w hw
    show v < s.next + 2
    by_cases he : v = s.next
    · omega
    · rw [addDentry_vnode_old _ _ _ _ _ he] at hw
      have := h.vnode_lt hw
      omega
  · intro i z hz
    rcases addDentry_inv hx hz with ⟨rfl, rfl⟩ | ⟨-, z₀, hz₀, he, -⟩
    · exact ⟨y, addDentry_vnode ..⟩
    · obtain ⟨w, hw⟩ := h.vnode hz₀
      refine ⟨w, ?_⟩
      rw [he]
      exact (addDentry_vnode_old _ _ _ _ _ (Nat.ne_of_lt (h.vnode_lt hw))).trans hw
  · intro v w hw
    rw [vrefs_addDentry h hx]
    by_cases he : v = s.next
    · subst he
      rw [addDentry_vnode] at hw
      cases hw
      rw [hvrefs0, if_pos rfl, hy]
      rfl
    · rw [addDentry_vnode_old _ _ _ _ _ he] at hw
      rw [if_neg (Ne.symm he)]
      exact h.vcount hw
  · intro i z q hz _ hq
    rcases addDentry_inv hx hz with ⟨rfl, rfl⟩ | ⟨-, z₀, hz₀, he, -⟩
    · cases hq
      exact ⟨by omega, Finset.notMem_empty _, hsome p (by rw [hx]; rfl)⟩
    · rw [he] at hq
      obtain ⟨hlt, hqz, hqs⟩ := h.parent hz₀ (Finset.notMem_empty i) hq
      exact ⟨hlt, hqz, hsome q hqs⟩
  · intro i z hz _
    rw [kids_addDentry h hx]
    rcases addDentry_inv hx hz with ⟨rfl, rfl⟩ | ⟨hne, z₀, hz₀, -, hold, hpar⟩
    · rw [hkids0, if_neg (by omega), give, Function.update_self, hnew0]
      exact ⟨le_refl _, le_refl _⟩
    · obtain ⟨hc, h1⟩ := h.count hz₀ (Finset.notMem_empty i)
      rw [give, Function.update_of_ne hne]
      by_cases hip : i = p
      · subst hip
        rw [hx] at hz₀
        cases hz₀
        rw [hpar rfl, if_pos rfl]
        push_cast
        exact ⟨by omega, by omega⟩
      · rw [hold hip, if_neg (Ne.symm hip)]
        exact ⟨hc, h1⟩
  · intro i hi
    refine ⟨Finset.notMem_empty i, ?_⟩
    by_cases he : i = s.next + 1
    · rw [he, addDentry_new]
      rfl
    · rw [give, Function.update_of_ne he] at hi
      exact hsome i (h.ext hi).2

end AddDentry

end Fs
end Coffer
