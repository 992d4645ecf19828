/-
# The tree of ramfs and its paths

The nodes of ramfs form a tree under the root directory, node 0: `Tree`. A list of names leads from
a directory to the node `resolve` gives, each name to the first child that has it (two children can
have one name, after an allocation failed at the wrong moment). A node has one path only.

`pathOf` writes a list of names as a path and `components` reads it back; the last part is about
both.

Key definitions: `Tree`, `childOf`, `resolve`, `pathOf`.
Key theorems: `resolve_unique`, `Tree.add`, `Tree.remove`, `components_join`.
-/
import Coffer.Vfs.State

namespace Coffer

variable {c m : ℕ} {cs ds : List Str}

/-- What the tree has of a node. -/
def RamNode.shape (x : RamNode) : Str × VType × List ℕ := (x.rnName, x.rnType, x.rnChild)

namespace Fs

/-! ### Names lead to nodes -/

/-- The first child of a directory with a name. -/
def childOf (s : Fs) (n : ℕ) (name : Str) : Option ℕ :=
  (s.nodes n).bind fun x => x.rnChild.find? fun i => (s.nodes i).map RamNode.rnName = some name

/-- Where a list of names leads from `n`. -/
def resolve (s : Fs) : ℕ → List Str → Option ℕ
  | n, [] => some n
  | n, c :: cs => (s.childOf n c).bind fun m => resolve s m cs

variable {s t : Fs} {n p : ℕ} {x : RamNode}

theorem resolve_append (s : Fs) (n : ℕ) (cs ds : List Str) :
    s.resolve n (cs ++ ds) = (s.resolve n cs).bind fun m => s.resolve m ds := by
  induction cs generalizing n with
  | nil => rfl
  | cons c cs ih =>
    rw [List.cons_append, resolve, resolve]
    cases s.childOf n c with
    | none => rfl
    | some m => exact ih m

theorem resolve_concat (s : Fs) (n : ℕ) (cs : List Str) (c : Str) :
    s.resolve n (cs ++ [c]) = (s.resolve n cs).bind fun m => s.childOf m c := by
  rw [resolve_append]
  congr 1
  funext m
  rw [resolve]
  cases s.childOf m c <;> rfl

theorem childOf_some {name : Str} (h : s.childOf n name = some c) :
    ∃ x y, s.nodes n = some x ∧ c ∈ x.rnChild ∧ s.nodes c = some y ∧ y.rnName = name := by
  obtain ⟨x, hx, hf⟩ := Option.bind_eq_some_iff.mp h
  have hc := List.find?_some hf
  obtain ⟨y, hy, hn⟩ := Option.map_eq_some_iff.mp (of_decide_eq_true hc)
  exact ⟨x, y, hx, List.mem_of_find?_eq_some hf, hy, hn⟩

/-! ### The tree -/

/-- The nodes form a tree of directories and regular files under node 0. -/
structure Tree (s : Fs) : Prop where
  root : ∃ x, s.nodes 0 = some x ∧ x.rnType = .dir
  node_lt : ∀ {n x}, s.nodes n = some x → n < s.next
  child : ∀ {n x c}, s.nodes n = some x → c ∈ x.rnChild → c ≠ 0 ∧ (s.nodes c).isSome
  dir : ∀ {n x}, s.nodes n = some x → x.rnChild ≠ [] → x.rnType = .dir
  noLink : ∀ {n x}, s.nodes n = some x → x.rnType ≠ .lnk
  nodup : ∀ {n x}, s.nodes n = some x → x.rnChild.Nodup
  parent : ∀ {n m x y c}, s.nodes n = some x → s.nodes m = some y → c ∈ x.rnChild → c ∈ y.rnChild → n = m

theorem Tree.childOf_ne_zero (h : Tree s) {name : Str} (hc : s.childOf n name = some c) : c ≠ 0 := by
  obtain ⟨x, -, hx, hm, -⟩ := childOf_some hc
  exact (h.child hx hm).1

/-- A name in a directory is that of a child, so that the node has children. -/
theorem Tree.dir_of_childOf (h : Tree s) {name : Str} (hc : s.childOf n name = some c) :
    ∃ x, s.nodes n = some x ∧ x.rnType = .dir := by
  obtain ⟨x, -, hx, hm, -⟩ := childOf_some hc
  exact ⟨x, hx, h.dir hx (List.ne_nil_of_mem hm)⟩

theorem Tree.resolve_some (h : Tree s) (hr : s.resolve 0 cs = some n) : (s.nodes n).isSome := by
  rcases List.eq_nil_or_concat cs with rfl | ⟨cs, c, rfl⟩
  · obtain ⟨x, hx, -⟩ := h.root
    cases hr
    rw [hx]
    rfl
  · rw [List.concat_eq_append, resolve_concat] at hr
    obtain ⟨m, -, hc⟩ := Option.bind_eq_some_iff.mp hr
    obtain ⟨-, y, -, -, hy, -⟩ := childOf_some hc
    rw [hy]
    rfl

/-- One path leads to a node: by induction, the last names agree as both are the name of the node, and
the nodes before as a node has one parent. -/
theorem resolve_unique (h : Tree s) (hc : s.resolve 0 cs = some n)
    (hd : s.resolve 0 ds = some n) : cs = ds := by
  induction cs using List.reverseRecOn generalizing ds n with
  | nil =>
    cases hc
    rcases List.eq_nil_or_concat ds with rfl | ⟨ds, d, rfl⟩
    · rfl
    · rw [List.concat_eq_append, resolve_concat] at hd
      obtain ⟨m, -, hm⟩ := Option.bind_eq_some_iff.mp hd
      exact absurd rfl (h.childOf_ne_zero hm)
  | append_singleton cs c ih =>
    rw [resolve_concat] at hc
    obtain ⟨m, hm, hmc⟩ := Option.bind_eq_some_iff.mp hc
    rcases List.eq_nil_or_concat ds with rfl | ⟨ds, d, rfl⟩
    · cases hd
      exact absurd rfl (h.childOf_ne_zero hmc)
    · rw [List.concat_eq_append, resolve_concat] at hd
      obtain ⟨m', hm', hmd⟩ := Option.bind_eq_some_iff.mp hd
      obtain ⟨x, y, hx, hxc, hy, hyn⟩ := childOf_some hmc
      obtain ⟨x', y', hx', hxc', hy', hyn'⟩ := childOf_some hmd
      obtain rfl := h.parent hx hx' hxc hxc'
      obtain rfl := ih hm hm'
      rw [hy] at hy'
      cases hy'
      rw [List.concat_eq_append, ← hyn, ← hyn']

/-! ### Nodes with other contents -/

/-- The nodes are the same but for what is in the files. -/
def SameShape (s t : Fs) : Prop := ∀ n, (t.nodes n).map RamNode.shape = (s.nodes n).map RamNode.shape

theorem SameShape.of_eq (h : t.nodes = s.nodes) : SameShape s t := fun n => by rw [h]

theorem SameShape.symm (h : SameShape s t) : SameShape t s := fun n => (h n).symm

theorem SameShape.some (h : SameShape s t) {y : RamNode} (hy : t.nodes n = some y) :
    ∃ x, s.nodes n = some x ∧ x.rnName = y.rnName ∧ x.rnType = y.rnType ∧ x.rnChild = y.rnChild := by
  have hn := h n
  rw [hy] at hn
  obtain ⟨x, hx, he⟩ := Option.map_eq_some_iff.mp hn.symm
  simp only [RamNode.shape, Prod.mk.injEq] at he
  exact ⟨x, hx, he⟩

theorem SameShape.childOf (h : SameShape s t) (n : ℕ) (name : Str) : t.childOf n name = s.childOf n name := by
  have hname (i : ℕ) : (t.nodes i).map RamNode.rnName = (s.nodes i).map RamNode.rnName := by
    have := congrArg (Option.map Prod.fst) (h i)
    rw [Option.map_map, Option.map_map] at this
    exact this
  have hn := h n
  unfold Fs.childOf
  rcases hy : t.nodes n with _ | y
  · rw [hy] at hn
    rw [Option.map_eq_none_iff.mp hn.symm]
    rfl
  · obtain ⟨x, hx, -, -, hc⟩ := h.some hy
    rw [hx]
    simp only [Option.bind_some, hname, hc]

theorem SameShape.resolve (h : SameShape s t) (n : ℕ) (cs : List Str) : t.resolve n cs = s.resolve n cs := by
  induction cs generalizing n with
  | nil => rfl
  | cons c cs ih =>
    rw [Fs.resolve, Fs.resolve, h.childOf]
    congr 1
    funext m
    exact ih m

theorem SameShape.isSome (h : SameShape s t) (n : ℕ) : (t.nodes n).isSome = (s.nodes n).isSome := by
  have := congrArg Option.isSome (h n)
  rwa [Option.isSome_map, Option.isSome_map] at this

theorem SameShape.tree (h : SameShape s t) (ht : Tree s) (hn : s.next ≤ t.next) : Tree t := by
  refine ⟨?_, ?_, ?_, ?_, ?_, ?_, ?_⟩
  · obtain ⟨x, hx, hd⟩ := ht.root
    obtain ⟨y, hy, -, he, -⟩ := h.symm.some hx
    exact ⟨y, hy, he.trans hd⟩
  · intro n y hy
    obtain ⟨x, hx, -⟩ := h.some hy
    exact lt_of_lt_of_le (ht.node_lt hx) hn
  · intro n y c hy hc
    obtain ⟨x, hx, -, -, he⟩ := h.some hy
    rw [h.isSome]
    exact ht.child hx (he ▸ hc)
  · intro n y hy hc
    obtain ⟨x, hx, -, he, hec⟩ := h.some hy
    exact he ▸ ht.dir hx (hec ▸ hc)
  · intro n y hy
    obtain ⟨x, hx, -, he, -⟩ := h.some hy
    exact he ▸ ht.noLink hx
  · intro n y hy
    obtain ⟨x, hx, -, -, he⟩ := h.some hy
    exact he ▸ ht.nodup hx
  · intro n m y z c hy hz hc hc'
    obtain ⟨x, hx, -, -, he⟩ := h.some hy
    obtain ⟨x', hx', -, -, he'⟩ := h.some hz
    exact ht.parent hx hx' (he ▸ hc) (he' ▸ hc')

/-! ### A new node -/

/-- A new node, empty. -/
def emptyNode (name : Str) (type : VType) : RamNode := ⟨name, type, none, 0, 0, []⟩

/-- The state with a new last child of `p`. -/
def addNode (s : Fs) (p : ℕ) (x : RamNode) (name : Str) (type : VType) : Fs :=
  { s with
    nodes := Function.update (Function.update s.nodes s.next (some (emptyNode name type))) p
      (some { x with rnChild := x.rnChild ++ [s.next] })
    next := s.next + 1 }

section AddNode

variable {name : Str} {type : VType}

theorem addNode_parent (s : Fs) (p : ℕ) (x : RamNode) (name : Str) (type : VType) :
    (s.addNode p x name type).nodes p = some { x with rnChild := x.rnChild ++ [s.next] } := Function.update_self ..

theorem addNode_new (h : p ≠ s.next) (x : RamNode) (name : Str) (type : VType) :
    (s.addNode p x name type).nodes s.next = some (emptyNode name type) := by
  refine (Function.update_of_ne h.symm ..).trans ?_
  exact Function.update_self ..

theorem addNode_old (x : RamNode) (name : Str) (type : VType) (hp : n ≠ p) (hn : n ≠ s.next) :
    (s.addNode p x name type).nodes n = s.nodes n := by
  refine (Function.update_of_ne hp ..).trans ?_
  exact Function.update_of_ne hn ..

theorem Tree.fresh (h : Tree s) : s.nodes s.next = none := by
  rcases hx : s.nodes s.next with _ | x
  · rfl
  · exact absurd (h.node_lt hx) (lt_irrefl _)

/-- A node of the new state is the directory, the new one or one from before. -/
theorem Tree.addNode_inv (h : Tree s) (hx : s.nodes p = some x) {y : RamNode}
    (hy : (s.addNode p x name type).nodes n = some y) :
    n = p ∧ y = { x with rnChild := x.rnChild ++ [s.next] } ∨ n = s.next ∧ y = emptyNode name type ∨
      n ≠ p ∧ n ≠ s.next ∧ s.nodes n = some y := by
  by_cases hp : n = p
  · subst hp
    rw [addNode_parent] at hy
    cases hy
    exact Or.inl ⟨rfl, rfl⟩
  · by_cases hn : n = s.next
    · subst hn
      rw [addNode_new (Nat.ne_of_lt (h.node_lt hx))] at hy
      cases hy
      exact Or.inr (Or.inl ⟨rfl, rfl⟩)
    · rw [addNode_old x name type hp hn] at hy
      exact Or.inr (Or.inr ⟨hp, hn, hy⟩)

/-- Old nodes keep all but the children, of which they lose none. -/
theorem Tree.addNode_mono (h : Tree s) (hx : s.nodes p = some x) (name : Str) (type : VType) {y : RamNode}
    (hy : s.nodes n = some y) : ∃ z, (s.addNode p x name type).nodes n = some z ∧ z.rnName = y.rnName ∧ z.rnType = y.rnType ∧
      y.rnChild <+: z.rnChild := by
  by_cases hp : n = p
  · subst hp
    rw [hx] at hy
    cases hy
    exact ⟨_, addNode_parent .., rfl, rfl, List.prefix_append ..⟩
  · rw [addNode_old x name type hp (Nat.ne_of_lt (h.node_lt hy))]
    exact ⟨y, hy, rfl, rfl, List.prefix_rfl⟩

/-- A child in the new state is one from before, or the new one in its directory. -/
theorem Tree.addNode_child (h : Tree s) (hx : s.nodes p = some x) {y : RamNode}
    (hy : (s.addNode p x name type).nodes n = some y) (hc : c ∈ y.rnChild) :
    n = p ∧ c = s.next ∨ c ≠ s.next ∧ ∃ z, s.nodes n = some z ∧ c ∈ z.rnChild := by
  have hne {m : ℕ} {z : RamNode} (hz : s.nodes m = some z) (hcz : c ∈ z.rnChild) : c ≠ s.next := by
    rintro rfl
    have := (h.child hz hcz).2
    rw [h.fresh] at this
    cases this
  rcases h.addNode_inv hx hy with ⟨rfl, rfl⟩ | ⟨rfl, rfl⟩ | ⟨-, -, hy⟩
  · rcases List.mem_append.mp hc with hc | hc
    · exact Or.inr ⟨hne hx hc, x, hx, hc⟩
    · exact Or.inl ⟨rfl, List.mem_singleton.mp hc⟩
  · cases hc
  · exact Or.inr ⟨hne hy hc, y, hy, hc⟩

theorem Tree.add (h : Tree s) (hx : s.nodes p = some x) (hd : x.rnType = .dir) (ht : type ≠ .lnk) :
    Tree (s.addNode p x name type) := by
  have hp := h.node_lt hx
  have hsome (c : ℕ) (hc : (s.nodes c).isSome) : ((s.addNode p x name type).nodes c).isSome := by
    obtain ⟨y, hy⟩ := Option.isSome_iff_exists.mp hc
    obtain ⟨z, hz, -⟩ := h.addNode_mono hx name type hy
    rw [hz]
    rfl
  refine ⟨?_, ?_, ?_, ?_, ?_, ?_, ?_⟩
  · obtain ⟨y, hy, hyd⟩ := h.root
    obtain ⟨z, hz, -, he, -⟩ := h.addNode_mono hx name type hy
    exact ⟨z, hz, he.trans hyd⟩
  · intro n y hy
    show n < s.next + 1
    rcases h.addNode_inv hx hy with ⟨rfl, -⟩ | ⟨rfl, -⟩ | ⟨-, -, hy⟩
    · omega
    · omega
    · have := h.node_lt hy
      omega
  · intro n y c hy hc
    rcases h.addNode_child hx hy hc with ⟨rfl, rfl⟩ | ⟨-, z, hz, hcz⟩
    · refine ⟨by omega, ?_⟩
      rw [addNode_new (Nat.ne_of_lt hp)]
      rfl
    · obtain ⟨h0, hs⟩ := h.child hz hcz
      exact ⟨h0, hsome c hs⟩
  · intro n y hy hc
    rcases h.addNode_inv hx hy with ⟨rfl, rfl⟩ | ⟨rfl, rfl⟩ | ⟨-, -, hy⟩
    · exact hd
    · exact absurd rfl hc
    · exact h.dir hy hc
  · intro n y hy
    rcases h.addNode_inv hx hy with ⟨rfl, rfl⟩ | ⟨rfl, rfl⟩ | ⟨-, -, hy⟩
    · have hl := h.noLink hx
      exact hl
    · exact ht
    · exact h.noLink hy
  · intro n y hy
    rcases h.addNode_inv hx hy with ⟨rfl, rfl⟩ | ⟨rfl, rfl⟩ | ⟨-, -, hy⟩
    · refine List.nodup_append.mpr ⟨h.nodup hx, List.nodup_singleton _, ?_⟩
      rintro a ha b hb rfl
      rw [List.mem_singleton] at hb
      have := (h.child hx ha).2
      rw [hb, h.fresh] at this
      cases this
    · exact List.nodup_nil
    · exact h.nodup hy
  · intro n m y z c hy hz hc hc'
    rcases h.addNode_child hx hy hc with ⟨rfl, rfl⟩ | ⟨hne, y₀, hy₀, hcy⟩
    · rcases h.addNode_child hx hz hc' with ⟨rfl, -⟩ | ⟨hne, -⟩
      · rfl
      · exact absurd rfl hne
    · rcases h.addNode_child hx hz hc' with ⟨-, he⟩ | ⟨-, z₀, hz₀, hcz⟩
      · exact absurd he hne
      · exact h.parent hy₀ hz₀ hcy hcz

/-- The names of old nodes are what they were. -/
theorem Tree.addNode_name (h : Tree s) (hx : s.nodes p = some x) {i : ℕ} (hi : (s.nodes i).isSome) :
    ((s.addNode p x name type).nodes i).map RamNode.rnName = (s.nodes i).map RamNode.rnName := by
  obtain ⟨y, hy⟩ := Option.isSome_iff_exists.mp hi
  obtain ⟨z, hz, hn, -⟩ := h.addNode_mono hx name type hy
  rw [hz, hy]
  exact congrArg some hn

/-- Among old children the search finds what it found. -/
theorem Tree.addNode_find (h : Tree s) (hx : s.nodes p = some x) (c : Str) {l : List ℕ}
    (hl : ∀ i ∈ l, (s.nodes i).isSome) :
    (l.find? fun i => ((s.addNode p x name type).nodes i).map RamNode.rnName = some c) =
      l.find? fun i => (s.nodes i).map RamNode.rnName = some c := by
  induction l with
  | nil => rfl
  | cons i l ih =>
    rw [List.find?_cons, List.find?_cons, h.addNode_name hx (hl i (List.mem_cons_self ..)),
      ih fun j hj => hl j (List.mem_cons_of_mem _ hj)]

/-- In the directory of the new node its name leads to it if it led nowhere. -/
theorem Tree.childOf_add (h : Tree s) (hx : s.nodes p = some x) (c : Str) :
    (s.addNode p x name type).childOf p c = (s.childOf p c).or (if name = c then some s.next else none) := by
  unfold Fs.childOf
  rw [addNode_parent, hx]
  simp only [Option.bind_some]
  rw [List.find?_append, h.addNode_find hx c fun i hi => (h.child hx hi).2]
  congr 1
  rw [List.find?_singleton, addNode_new (Nat.ne_of_lt (h.node_lt hx))]
  by_cases hc : name = c
  · simp [emptyNode, hc]
  · simp [emptyNode, hc]

theorem Tree.childOf_add_other (h : Tree s) (hx : s.nodes p = some x) (c : Str) (hn : n ≠ p) :
    (s.addNode p x name type).childOf n c = s.childOf n c := by
  by_cases he : n = s.next
  · subst he
    unfold Fs.childOf
    rw [addNode_new (Nat.ne_of_lt (h.node_lt hx)), h.fresh]
    rfl
  · unfold Fs.childOf
    rw [addNode_old x name type hn he]
    rcases hy : s.nodes n with _ | y
    · rfl
    · exact h.addNode_find hx c fun i hi => (h.child hy hi).2

/-- Paths that led somewhere lead to the same node. -/
theorem Tree.resolve_add (h : Tree s) (hx : s.nodes p = some x)
    (hr : s.resolve n cs = some m) : (s.addNode p x name type).resolve n cs = some m := by
  induction cs generalizing n with
  | nil => exact hr
  | cons c cs ih =>
    rw [Fs.resolve] at hr ⊢
    obtain ⟨k, hk, hr⟩ := Option.bind_eq_some_iff.mp hr
    have hk' : (s.addNode p x name type).childOf n c = some k := by
      by_cases hn : n = p
      · subst hn
        rw [h.childOf_add hx, hk]
        rfl
      · rw [h.childOf_add_other hx c hn, hk]
    rw [hk']
    exact ih hr

/-- One new path, that of the new node. -/
theorem Tree.resolve_add_inv (h : Tree s) (hx : s.nodes p = some x)
    (hp : s.resolve 0 cs = some p) (hr : (s.addNode p x name type).resolve 0 ds = some m) :
    s.resolve 0 ds = some m ∨ ds = cs ++ [name] ∧ m = s.next := by
  induction ds using List.reverseRecOn generalizing m with
  | nil => exact Or.inl hr
  | append_singleton ds d ih =>
    rw [resolve_concat] at hr ⊢
    obtain ⟨k, hk, hkd⟩ := Option.bind_eq_some_iff.mp hr
    rcases ih hk with hk' | ⟨-, rfl⟩
    · by_cases hkp : k = p
      · subst hkp
        rw [h.childOf_add hx] at hkd
        rcases hold : s.childOf k d with _ | c
        · rw [hold, Option.none_or] at hkd
          split at hkd
          · rename_i he
            cases hkd
            exact Or.inr ⟨by rw [resolve_unique h hk' hp, he], rfl⟩
          · cases hkd
        · rw [hold] at hkd
          cases hkd
          left
          rw [hk']
          exact hold
      · rw [h.childOf_add_other hx d hkp] at hkd
        left
        rw [hk']
        exact hkd
    · -- the new node has no children
      obtain ⟨y, -, hy, hc, -⟩ := childOf_some hkd
      rw [addNode_new (Nat.ne_of_lt (h.node_lt hx))] at hy
      cases hy
      cases hc

end AddNode

/-! ### A node is removed -/

/-- The state without the child `n` of `p`. -/
def removeNode (s : Fs) (p : ℕ) (x : RamNode) (n : ℕ) : Fs :=
  { s with nodes := Function.update (Function.update s.nodes p (some { x with rnChild := x.rnChild.erase n })) n none }

section RemoveNode

/-- A search that does not find the removed element finds the same among those left. -/
theorem find?_erase {f : ℕ → Bool} {l : List ℕ} (hc : l.find? f = some c) (hne : c ≠ n) :
    (l.erase n).find? f = some c := by
  induction l with
  | nil => cases hc
  | cons i l ih =>
    rw [List.find?_cons] at hc
    by_cases hin : i = n
    · subst hin
      rw [List.erase_cons_head]
      split at hc
      · cases hc
        exact absurd rfl hne
      · exact hc
    · rw [List.erase_cons_tail (by simpa using hin), List.find?_cons]
      cases hf : f i with
      | true =>
        rw [hf] at hc
        exact hc
      | false =>
        rw [hf] at hc
        exact ih hc

theorem removeNode_self (s : Fs) (p : ℕ) (x : RamNode) (n : ℕ) : (s.removeNode p x n).nodes n = none :=
  Function.update_self ..

theorem removeNode_parent (h : p ≠ n) (x : RamNode) :
    (s.removeNode p x n).nodes p = some { x with rnChild := x.rnChild.erase n } := by
  refine (Function.update_of_ne h ..).trans ?_
  exact Function.update_self ..

theorem removeNode_other (x : RamNode) (hn : m ≠ n) (hp : m ≠ p) :
    (s.removeNode p x n).nodes m = s.nodes m := by
  refine (Function.update_of_ne hn ..).trans ?_
  exact Function.update_of_ne hp ..

variable {y : RamNode} (h : Tree s) (hx : s.nodes p = some x) (hy : s.nodes n = some y) (hn : n ∈ x.rnChild)
  (hleaf : y.rnChild = [])

include hx hy hn hleaf

theorem parent_ne_leaf : p ≠ n := by
  rintro rfl
  rw [hx] at hy
  cases hy
  rw [hleaf] at hn
  cases hn

include h

/-- A node that is left keeps all but the removed child. -/
theorem Tree.removeNode_inv {z : RamNode} (hz : (s.removeNode p x n).nodes m = some z) :
    m ≠ n ∧ ∃ z₀, s.nodes m = some z₀ ∧ z.rnName = z₀.rnName ∧ z.rnType = z₀.rnType ∧
      z.rnChild.Sublist z₀.rnChild ∧ n ∉ z.rnChild := by
  have hpn := parent_ne_leaf hx hy hn hleaf
  have hmn : m ≠ n := by
    rintro rfl
    rw [removeNode_self] at hz
    cases hz
  refine ⟨hmn, ?_⟩
  by_cases hmp : m = p
  · subst hmp
    rw [removeNode_parent hpn] at hz
    cases hz
    exact ⟨x, hx, rfl, rfl, List.erase_sublist, (h.nodup hx).not_mem_erase⟩
  · rw [removeNode_other x hmn hmp] at hz
    refine ⟨z, hz, rfl, rfl, List.Sublist.refl _, fun hc => hmp ?_⟩
    exact h.parent hz hx hc hn

omit h hy hn hleaf in
theorem removeNode_some (hmn : m ≠ n) (hm : (s.nodes m).isSome) :
    ((s.removeNode p x n).nodes m).isSome := by
  by_cases hmp : m = p
  · subst hmp
    rw [removeNode_parent hmn]
    rfl
  · rw [removeNode_other x hmn hmp]
    exact hm

theorem Tree.remove : Tree (s.removeNode p x n) := by
  have hpn := parent_ne_leaf hx hy hn hleaf
  refine ⟨?_, ?_, ?_, ?_, ?_, ?_, ?_⟩
  · have h0 := (h.child hx hn).1
    obtain ⟨r, hr, hd⟩ := h.root
    obtain ⟨z, hz⟩ := Option.isSome_iff_exists.mp
      (removeNode_some hx (Ne.symm h0) (by rw [hr]; rfl))
    obtain ⟨-, z₀, hz₀, -, ht, -⟩ := h.removeNode_inv hx hy hn hleaf hz
    rw [hr] at hz₀
    cases hz₀
    exact ⟨z, hz, ht.trans hd⟩
  · intro m z hz
    obtain ⟨-, z₀, hz₀, -⟩ := h.removeNode_inv hx hy hn hleaf hz
    exact h.node_lt hz₀
  · intro m z c hz hc
    obtain ⟨-, z₀, hz₀, -, -, hsub, hnot⟩ := h.removeNode_inv hx hy hn hleaf hz
    obtain ⟨hc0, hcs⟩ := h.child hz₀ (hsub.subset hc)
    refine ⟨hc0, removeNode_some hx ?_ hcs⟩
    rintro rfl
    exact hnot hc
  · intro m z hz hc
    obtain ⟨-, z₀, hz₀, -, ht, hsub, -⟩ := h.removeNode_inv hx hy hn hleaf hz
    rw [ht]
    refine h.dir hz₀ fun h0 => hc ?_
    rw [h0] at hsub
    exact List.sublist_nil.mp hsub
  · intro m z hz
    obtain ⟨-, z₀, hz₀, -, ht, -⟩ := h.removeNode_inv hx hy hn hleaf hz
    rw [ht]
    exact h.noLink hz₀
  · intro m z hz
    obtain ⟨-, z₀, hz₀, -, -, hsub, -⟩ := h.removeNode_inv hx hy hn hleaf hz
    exact (h.nodup hz₀).sublist hsub
  · intro m k z w c hz hw hc hc'
    obtain ⟨-, z₀, hz₀, -, -, hsub, -⟩ := h.removeNode_inv hx hy hn hleaf hz
    obtain ⟨-, w₀, hw₀, -, -, hsub', -⟩ := h.removeNode_inv hx hy hn hleaf hw
    exact h.parent hz₀ hw₀ (hsub.subset hc) (hsub'.subset hc')

omit h hy hn hleaf in
/-- The names of the nodes that are left. -/
theorem removeNode_name {i : ℕ} (hi : i ≠ n) :
    ((s.removeNode p x n).nodes i).map RamNode.rnName = (s.nodes i).map RamNode.rnName := by
  by_cases hip : i = p
  · subst hip
    rw [removeNode_parent hi, hx]
    rfl
  · rw [removeNode_other x hi hip]

theorem Tree.childOf_remove {name : Str} (hc : s.childOf m name = some c) (hcn : c ≠ n) :
    (s.removeNode p x n).childOf m name = some c := by
  have hcong (l : List ℕ) (hl : n ∉ l) :
      (l.find? fun i => ((s.removeNode p x n).nodes i).map RamNode.rnName = some name) =
        l.find? fun i => (s.nodes i).map RamNode.rnName = some name := by
    refine List.find?_congr fun i hi => ?_
    rw [removeNode_name hx]
    rintro rfl
    exact hl hi
  obtain ⟨z, -, hz, hcz, -⟩ := childOf_some hc
  have hmn : m ≠ n := by
    rintro rfl
    rw [hy] at hz
    cases hz
    rw [hleaf] at hcz
    cases hcz
  unfold Fs.childOf at hc ⊢
  rw [hz, Option.bind_some] at hc
  by_cases hmp : m = p
  · subst hmp
    rw [hx] at hz
    cases hz
    rw [removeNode_parent hmn, Option.bind_some, hcong _ (h.nodup hx).not_mem_erase]
    exact find?_erase hc hcn
  · rw [removeNode_other x hmn hmp, hz, Option.bind_some, hcong _ fun hc' => hmp (h.parent hz hx hc' hn)]
    exact hc

/-- Paths to the other nodes lead to them. -/
theorem Tree.resolve_remove {k : ℕ} (hr : s.resolve m cs = some k) (hk : k ≠ n) :
    (s.removeNode p x n).resolve m cs = some k := by
  induction cs generalizing m with
  | nil => exact hr
  | cons c cs ih =>
    rw [Fs.resolve] at hr ⊢
    obtain ⟨i, hi, hr⟩ := Option.bind_eq_some_iff.mp hr
    have hin : i ≠ n := by
      rintro rfl
      cases cs with
      | nil =>
        cases hr
        exact hk rfl
      | cons d cs =>
        rw [Fs.resolve] at hr
        obtain ⟨j, hj, -⟩ := Option.bind_eq_some_iff.mp hr
        obtain ⟨z, -, hz, hjz, -⟩ := childOf_some hj
        rw [hy] at hz
        cases hz
        rw [hleaf] at hjz
        cases hjz
    rw [h.childOf_remove hx hy hn hleaf hi hin]
    exact ih hr

end RemoveNode

end Fs

/-! ### Paths -/

/-- A name that a component of a path can be. -/
structure IsName (c : Str) : Prop where
  ne : c ≠ []
  noSlash : '/' ∉ c

/-- Each name with a `/` before it. -/
def join (cs : List Str) : Str := cs.flatMap ('/' :: ·)

/-- The path of a list of names from the root directory. -/
def pathOf (cs : List Str) : Str := if cs = [] then ['/'] else join cs

theorem join_append (cs ds : List Str) : join (cs ++ ds) = join cs ++ join ds := List.flatMap_append ..

theorem join_singleton (c : Str) : join [c] = '/' :: c := by
  simp [join]

theorem join_cons (c : Str) (cs : List Str) : join (c :: cs) = '/' :: (c ++ join cs) := by
  simp [join]

theorem join_concat (cs : List Str) (c : Str) : join (cs ++ [c]) = join cs ++ ['/'] ++ c := by
  rw [join_append, join_singleton, List.append_assoc]
  rfl

theorem pathOf_concat (cs : List Str) (c : Str) : pathOf (cs ++ [c]) = join cs ++ ['/'] ++ c := by
  rw [pathOf, if_neg (by simp), join_concat]

/-- The components of a path that has no `/` at its end. -/
def flagged : List Str → List (Str × Bool)
  | [] => []
  | [c] => [(c, false)]
  | c :: d :: cs => (c, true) :: flagged (d :: cs)

theorem flagged_fst (cs : List Str) : (flagged cs).map Prod.fst = cs := by
  induction cs with
  | nil => rfl
  | cons c cs ih =>
    cases cs with
    | nil => rfl
    | cons d cs => rw [flagged, List.map_cons, ih]

theorem components_name {c : Str} (hc : '/' ∉ c) (acc p : Str) :
    components acc (c ++ p) = components (acc ++ c) p := by
  induction c generalizing acc with
  | nil => rw [List.append_nil, List.nil_append]
  | cons a c ih =>
    rw [List.mem_cons, not_or] at hc
    rw [List.cons_append, components, if_neg (Ne.symm hc.1), ih hc.2, List.append_assoc]
    rfl

theorem components_join (h : ∀ c ∈ cs, IsName c) :
    components [] (join cs).tail = flagged cs := by
  induction cs with
  | nil => rfl
  | cons c cs ih =>
    have hc := h c (List.mem_cons_self ..)
    rw [join_cons, List.tail_cons, components_name hc.noSlash, List.nil_append]
    cases cs with
    | nil =>
      rw [show join [] = [] from rfl, components, if_neg hc.ne]
      rfl
    | cons d cs =>
      have ih := ih fun e he => h e (List.mem_cons_of_mem _ he)
      rw [join_cons, components, if_pos rfl, if_neg hc.ne, flagged, ← ih, join_cons, List.tail_cons]

theorem components_pathOf (h : ∀ c ∈ cs, IsName c) :
    components [] (pathOf cs).tail = flagged cs := by
  unfold pathOf
  split
  · rename_i h0
    rw [h0]
    rfl
  · exact components_join h

/-- Two lists of names with one path. -/
theorem pathOf_inj (hc : ∀ c ∈ cs, IsName c) (hd : ∀ d ∈ ds, IsName d)
    (h : pathOf cs = pathOf ds) : cs = ds := by
  rw [← flagged_fst cs, ← flagged_fst ds, ← components_pathOf hc, ← components_pathOf hd, h]

/-- What `namei` takes from a path are names. -/
theorem components_isName {acc : Str} (hacc : '/' ∉ acc) (p : Str) : ∀ c ∈ components acc p, IsName c.1 := by
  induction p generalizing acc with
  | nil =>
    intro c hc
    rw [components] at hc
    split at hc
    · cases hc
    · rename_i h0
      rw [List.mem_singleton.mp hc]
      exact ⟨h0, hacc⟩
  | cons a p ih =>
    intro c hc
    rw [components] at hc
    split at hc
    · split at hc
      · exact ih (by simp) c hc
      · rename_i h0
        rcases List.mem_cons.mp hc with rfl | hc
        · exact ⟨h0, hacc⟩
        · exact ih (by simp) c hc
    · rename_i ha
      exact ih (by simp [hacc, Ne.symm ha]) c hc

/-- The names of a path fit in its length. -/
theorem components_length (acc p : Str) :
    (join ((components acc p).map Prod.fst)).length ≤ acc.length + p.length + 1 := by
  induction p generalizing acc with
  | nil =>
    rw [components]
    split
    · simp [join]
    · simp [join]
  | cons a p ih =>
    rw [components]
    split
    · split
      · have := ih []
        simp only [List.length_nil, List.length_cons] at this ⊢
        omega
      · have := ih []
        simp only [List.map_cons, join_cons, List.length_cons, List.length_append, List.length_nil] at this ⊢
        omega
    · have := ih (acc ++ [a])
      simp only [List.length_append, List.length_cons, List.length_nil] at this ⊢
      omega

/-- The last `/` splits a path. -/
theorem lastSlash_eq {dir name : Str} (h : '/' ∉ name) : lastSlash (dir ++ '/' :: name) = some (dir, name) := by
  have hall : ∀ c ∈ name.reverse, decide (c ≠ '/') = true := by
    intro c hc
    rw [List.mem_reverse] at hc
    simp only [decide_eq_true_eq]
    rintro rfl
    exact h hc
  have hname : ((dir ++ '/' :: name).reverse.takeWhile (· ≠ '/')).reverse = name := by
    rw [List.reverse_append, List.reverse_cons, List.append_assoc, List.takeWhile_append_of_pos hall]
    simp
  unfold lastSlash
  rw [if_pos (by simp)]
  simp only [hname]
  rw [List.length_append, List.length_cons,
    show dir.length + (name.length + 1) - name.length - 1 = dir.length by omega, List.take_left]

end Coffer
