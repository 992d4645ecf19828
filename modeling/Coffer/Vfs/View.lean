/-
# What the file system shows

From outside the file system is a function from lists of names to files and directories: `view`. The nodes, their numbers
and their order in a directory do not matter. Each change of the nodes is a change of it at one place: a new node
(`Tree.view_add`), other contents (`view_setRamFile`), a node removed (`Tree.view_remove`). The last needs that no two
entries of a directory have one name (`Distinct`), as otherwise the second comes to light.

Key definitions: `view`, `Distinct`.
Key theorems: `Tree.view_add`, `view_setRamFile`, `Tree.view_remove`.
-/
import Coffer.Vfs.HostFetch
import Coffer.Vfs.RegularFile
import Coffer.Vfs.Tree

namespace Coffer

/-- A file or a directory, by the names that lead to it. -/
abbrev View := List Str → Option (VType × List UInt8)

/-- Which of the two it is. -/
def View.kind (v : View) (cs : List Str) : Option VType := (v cs).map Prod.fst

namespace Fs

variable {s t : Fs} {p n : ℕ} {x : RamNode} {cs ds : List Str} {name : Str} {type : VType}

/-- What the file system shows. -/
def view (s : Fs) : View := fun cs =>
  (s.resolve 0 cs).bind fun n => (s.nodes n).map fun z => (z.rnType, z.contents)

theorem view_of_nodes (h : t.nodes = s.nodes) : t.view = s.view := by
  funext cs
  rw [view, view, (SameShape.of_eq h).resolve, h]

theorem view_eq {z : RamNode} (hr : s.resolve 0 cs = some n) (hz : s.nodes n = some z) :
    s.view cs = some (z.rnType, z.contents) := by
  rw [view, hr, Option.bind_some, hz, Option.map_some]

theorem Tree.view_eq_none (h : Tree s) : s.view cs = none ↔ s.resolve 0 cs = none := by
  constructor
  · intro hv
    by_contra hr
    obtain ⟨n, hn⟩ := Option.ne_none_iff_exists'.mp hr
    obtain ⟨z, hz⟩ := Option.isSome_iff_exists.mp (h.resolve_some hn)
    rw [view_eq hn hz] at hv
    cases hv
  · intro hr
    rw [view, hr]
    rfl

/-! ### A new node -/

/-- Where the names lead after a new node. -/
theorem Tree.resolve_add_eq (h : Tree s) (hx : s.nodes p = some x) (hp : s.resolve 0 cs = some p) (ds : List Str) :
    (s.addNode p x name type).resolve 0 ds =
      if ds = cs ++ [name] ∧ s.resolve 0 ds = none then some s.next else s.resolve 0 ds := by
  split_ifs with hds
  · obtain ⟨rfl, hnone⟩ := hds
    rw [resolve_concat, hp, Option.bind_some] at hnone
    rw [resolve_concat, h.resolve_add hx hp, Option.bind_some, h.childOf_add hx, hnone, if_pos rfl]
    rfl
  · rcases hm : s.resolve 0 ds with _ | m
    · by_contra hsome
      obtain ⟨m, hr⟩ := Option.ne_none_iff_exists'.mp hsome
      rcases h.resolve_add_inv hx hp hr with hr | ⟨he, -⟩
      · rw [hm] at hr
        cases hr
      · exact hds ⟨he, hm⟩
    · exact h.resolve_add hx hm

/-- A view with one more entry, if there is none at the place. -/
def addView (v : View) (cs : List Str) (type : VType) : View :=
  if v cs = none then Function.update v cs (some (type, [])) else v

/-- **A new node is seen at one place**, if there was nothing. -/
theorem Tree.view_add (h : Tree s) (hx : s.nodes p = some x) (hp : s.resolve 0 cs = some p) :
    (s.addNode p x name type).view = addView s.view (cs ++ [name]) type := by
  have hnode {m : ℕ} {z : RamNode} (hz : s.nodes m = some z) :
      ((s.addNode p x name type).nodes m).map (fun z => (z.rnType, z.contents)) = some (z.rnType, z.contents) := by
    by_cases hmp : m = p
    · subst hmp
      rw [hx] at hz
      cases hz
      rw [addNode_parent]
      rfl
    · rw [addNode_old x name type hmp (Nat.ne_of_lt (h.node_lt hz)), hz]
      rfl
  have hold {ds : List Str} (hds : ¬ (ds = cs ++ [name] ∧ s.resolve 0 ds = none)) :
      (s.addNode p x name type).view ds = s.view ds := by
    rw [view, h.resolve_add_eq hx hp, if_neg hds]
    rcases hm : s.resolve 0 ds with _ | m
    · rw [view, hm]
      rfl
    · obtain ⟨z, hz⟩ := Option.isSome_iff_exists.mp (h.resolve_some hm)
      rw [Option.bind_some, hnode hz, view_eq hm hz]
  funext ds
  unfold addView
  split_ifs with hnone
  · by_cases hds : ds = cs ++ [name]
    · subst hds
      have hr := h.view_eq_none.mp hnone
      rw [Function.update_self, view, h.resolve_add_eq hx hp, if_pos ⟨rfl, hr⟩, Option.bind_some,
        addNode_new (Nat.ne_of_lt (h.node_lt hx))]
      rfl
    · rw [Function.update_of_ne hds]
      exact hold fun hc => hds hc.1
  · refine hold fun hc => hnone ?_
    rw [← hc.1]
    exact h.view_eq_none.mpr hc.2

/-! ### Other contents -/

section Contents

variable {y : Vnode} {z : RamNode} {file : RamFile}

/-- The node of a regular file with other contents. -/
def withFileNode (z : RamNode) (file : RamFile) : RamNode :=
  { z with rnBuf := file.rnBuf, rnBufsize := file.rnBufsize, rnSize := file.rnSize }

theorem setRamFile_node (s : Fs) (v : ℕ) (y : Vnode) (z : RamNode) (file : RamFile) :
    (s.setRamFile v y z file).nodes y.vData = some (withFileNode z file) := Function.update_self ..

theorem setRamFile_node_other (s : Fs) (v : ℕ) (z : RamNode) (file : RamFile) {n : ℕ} (h : n ≠ y.vData) :
    (s.setRamFile v y z file).nodes n = s.nodes n := Function.update_of_ne h ..

theorem setRamFile_vnode (s : Fs) (v : ℕ) (y : Vnode) (z : RamNode) (file : RamFile) :
    (s.setRamFile v y z file).vnodes v = some { y with vSize := file.vSize } := Function.update_self ..

theorem setRamFile_vnode_other (s : Fs) (y : Vnode) (z : RamNode) (file : RamFile) {v i : ℕ} (h : i ≠ v) :
    (s.setRamFile v y z file).vnodes i = s.vnodes i := Function.update_of_ne h ..

theorem setRamFile_shape (hz : s.nodes y.vData = some z) (v : ℕ) (file : RamFile) :
    SameShape s (s.setRamFile v y z file) := by
  intro n
  by_cases hn : n = y.vData
  · subst hn
    rw [setRamFile_node, hz]
    rfl
  · rw [setRamFile_node_other s v z file hn]

/-- **Other contents are seen at the place of the file.** -/
theorem view_setRamFile (h : Tree s) (hz : s.nodes y.vData = some z) (hr : s.resolve 0 cs = some y.vData) (v : ℕ)
    (file : RamFile) :
    (s.setRamFile v y z file).view = Function.update s.view cs (some (z.rnType, file.contents)) := by
  have hres := (setRamFile_shape hz v file).resolve 0
  funext ds
  by_cases hds : ds = cs
  · subst hds
    rw [Function.update_self, view, hres, hr, Option.bind_some, setRamFile_node]
    rfl
  · rw [Function.update_of_ne hds, view, hres, view]
    rcases hm : s.resolve 0 ds with _ | m
    · rfl
    · have hne : m ≠ y.vData := by
        rintro rfl
        exact hds (resolve_unique h hm hr)
      rw [Option.bind_some, Option.bind_some, setRamFile_node_other s v z file hne]

end Contents

/-! ### A node is removed -/

/-- No two entries of a directory have one name. -/
def Distinct (s : Fs) : Prop :=
  ∀ ⦃n x i j⦄, s.nodes n = some x → i ∈ x.rnChild → j ∈ x.rnChild →
    (s.nodes i).map RamNode.rnName = (s.nodes j).map RamNode.rnName → i = j

theorem SameShape.distinct (h : SameShape s t) (hd : Distinct s) : Distinct t := by
  have hname (i : ℕ) : (t.nodes i).map RamNode.rnName = (s.nodes i).map RamNode.rnName := by
    have := congrArg (Option.map fun a => a.1) (h i)
    rw [Option.map_map, Option.map_map] at this
    exact this
  intro n x i j hx hi hj hij
  obtain ⟨y, hy, -, -, hc⟩ := h.some hx
  rw [← hc] at hi hj
  rw [hname, hname] at hij
  exact hd hy hi hj hij

theorem Distinct.add (hd : Distinct s) (h : Tree s) (hx : s.nodes p = some x) (hnone : s.childOf p name = none) :
    Distinct (s.addNode p x name type) := by
  have hnew : ((s.addNode p x name type).nodes s.next).map RamNode.rnName = some name := by
    rw [addNode_new (Nat.ne_of_lt (h.node_lt hx))]
    rfl
  -- an old child of the directory has another name
  have hother {i : ℕ} (hi : i ∈ x.rnChild) :
      ((s.addNode p x name type).nodes i).map RamNode.rnName ≠ some name := by
    rw [h.addNode_name hx (h.child hx hi).2]
    intro he
    rw [childOf, hx, Option.bind_some] at hnone
    have := List.find?_eq_none.mp hnone i hi
    simp [he] at this
  intro n y i j hy hi hj hij
  rcases h.addNode_inv hx hy with ⟨rfl, rfl⟩ | ⟨-, rfl⟩ | ⟨-, -, hy⟩
  · rcases List.mem_append.mp hi with hi | hi <;> rcases List.mem_append.mp hj with hj | hj
    · rw [h.addNode_name hx (h.child hx hi).2, h.addNode_name hx (h.child hx hj).2] at hij
      exact hd hx hi hj hij
    · rw [List.mem_singleton.mp hj, hnew] at hij
      exact absurd hij (hother hi)
    · rw [List.mem_singleton.mp hi, hnew] at hij
      exact absurd hij.symm (hother hj)
    · rw [List.mem_singleton.mp hi, List.mem_singleton.mp hj]
  · cases hi
  · rw [h.addNode_name hx (h.child hy hi).2, h.addNode_name hx (h.child hy hj).2] at hij
    exact hd hy hi hj hij

section Remove

variable {y : RamNode} (h : Tree s) (hx : s.nodes p = some x) (hy : s.nodes n = some y) (hn : n ∈ x.rnChild)
  (hleaf : y.rnChild = [])

include h hx hy hn hleaf

theorem Distinct.remove (hd : Distinct s) : Distinct (s.removeNode p x n) := by
  intro m z i j hz hi hj hij
  obtain ⟨-, z₀, hz₀, -, -, hsub, hnot⟩ := h.removeNode_inv hx hy hn hleaf hz
  have hne {k : ℕ} (hk : k ∈ z.rnChild) : k ≠ n := by
    rintro rfl
    exact hnot hk
  rw [removeNode_name hx (hne hi), removeNode_name hx (hne hj)] at hij
  exact hd hz₀ (hsub.subset hi) (hsub.subset hj) hij

/-- A name in a directory that is left leads where it led. -/
theorem Tree.childOf_remove_inv {m c : ℕ} {e : Str} (hc : (s.removeNode p x n).childOf m e = some c)
    (hd : Distinct s) : s.childOf m e = some c := by
  obtain ⟨z, w, hz, hcz, hw, hname⟩ := childOf_some hc
  obtain ⟨-, z₀, hz₀, -, -, hsub, -⟩ := h.removeNode_inv hx hy hn hleaf hz
  obtain ⟨-, w₀, hw₀, hnw, -⟩ := h.removeNode_inv hx hy hn hleaf hw
  have hc₀ : (s.nodes c).map RamNode.rnName = some e := by
    rw [hw₀, Option.map_some, ← hnw, hname]
  rw [childOf, hz₀, Option.bind_some]
  rcases hf : z₀.rnChild.find? (fun i => (s.nodes i).map RamNode.rnName = some e) with _ | k
  · have := List.find?_eq_none.mp hf c (hsub.subset hcz)
    simp [hc₀] at this
  · have hk := List.find?_some hf
    rw [decide_eq_true_eq] at hk
    rw [hd hz₀ (List.mem_of_find?_eq_some hf) (hsub.subset hcz) (hk.trans hc₀.symm)]

/-- Where the names lead after a node was removed. -/
theorem Tree.resolve_remove_eq (hd : Distinct s) (hr : s.resolve 0 cs = some n) (ds : List Str) :
    (s.removeNode p x n).resolve 0 ds = if ds = cs then none else s.resolve 0 ds := by
  have hinv {es : List Str} {m : ℕ} (hm : (s.removeNode p x n).resolve 0 es = some m) : s.resolve 0 es = some m := by
    induction es using List.reverseRecOn generalizing m with
    | nil => exact hm
    | append_singleton es e ih =>
      rw [resolve_concat] at hm ⊢
      obtain ⟨k, hk, hke⟩ := Option.bind_eq_some_iff.mp hm
      rw [ih hk, Option.bind_some]
      exact h.childOf_remove_inv hx hy hn hleaf hke hd
  split_ifs with hds
  · subst hds
    by_contra hsome
    obtain ⟨m, hm⟩ := Option.ne_none_iff_exists'.mp hsome
    have hmn := hinv hm
    rw [hr] at hmn
    cases hmn
    have hsome' := (h.remove hx hy hn hleaf).resolve_some hm
    rw [removeNode_self] at hsome'
    cases hsome'
  · rcases hm : s.resolve 0 ds with _ | m
    · by_contra hsome
      obtain ⟨m, hm'⟩ := Option.ne_none_iff_exists'.mp hsome
      rw [hinv hm'] at hm
      cases hm
    · refine h.resolve_remove hx hy hn hleaf hm ?_
      rintro rfl
      exact hds (resolve_unique h hm hr)

/-- **A removed node is no longer seen**, and nothing else changes. -/
theorem Tree.view_remove (hd : Distinct s) (hr : s.resolve 0 cs = some n) :
    (s.removeNode p x n).view = Function.update s.view cs none := by
  have hpn := parent_ne_leaf hx hy hn hleaf
  funext ds
  rw [view, h.resolve_remove_eq hx hy hn hleaf hd hr]
  by_cases hds : ds = cs
  · subst hds
    rw [if_pos rfl, Function.update_self]
    rfl
  · rw [if_neg hds, Function.update_of_ne hds, view]
    rcases hm : s.resolve 0 ds with _ | m
    · rfl
    · have hmn : m ≠ n := by
        rintro rfl
        exact hds (resolve_unique h hm hr)
      rw [Option.bind_some, Option.bind_some]
      by_cases hmp : m = p
      · subst hmp
        rw [removeNode_parent hpn, hx]
        rfl
      · rw [removeNode_other x hmn hmp]

end Remove

end Fs
end Coffer
