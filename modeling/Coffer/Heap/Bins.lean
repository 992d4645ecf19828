/-
# The bins of the heap

`llist.c`: a bin is a list of free chunks, doubly linked through their headers and sorted by size. A header
is a `node_t` of 32 bytes in the byte memory, and null is 0. `add_node` has three ways to link a node in;
`remove_node` leaves the `prev` of a new head as it was, so that it may point anywhere.

A walk along `next` that has not ended after as many steps as there are addresses never ends; the result is
then none.

`bin_shape`: `add_node` and `remove_node` keep a sorted list of this kind, add the node behind those of its
size and take it out, and so does every sequence of them.

Key definitions: `addNode`, `removeNode`, `BinList`, `Shape`, `BinRun`.
Key theorems: `BinList.add`, `BinList.remove`, `bin_shape`.
-/
import Mathlib.Data.List.TakeWhile
import Coffer.Lib.Links
import Coffer.Lib.Mem

namespace Coffer
namespace Heap

open Lib

/-! ### Headers -/

/-- The fields of a `node_t`. -/
def nodeHole (m : Mem) (a : ℕ) : ℕ := m.load a 4
@[inherit_doc nodeHole] def nodeSize (m : Mem) (a : ℕ) : ℕ := m.load (a + 8) 8
@[inherit_doc nodeHole] def nodeNext (m : Mem) (a : ℕ) : ℕ := m.load (a + 16) 8
@[inherit_doc nodeHole] def nodePrev (m : Mem) (a : ℕ) : ℕ := m.load (a + 24) 8

/-- A field is set. -/
def setHole (m : Mem) (a v : ℕ) : Mem := m.store a 4 v
@[inherit_doc setHole] def setSize (m : Mem) (a v : ℕ) : Mem := m.store (a + 8) 8 v
@[inherit_doc setHole] def setNext (m : Mem) (a v : ℕ) : Mem := m.store (a + 16) 8 v
@[inherit_doc setHole] def setPrev (m : Mem) (a v : ℕ) : Mem := m.store (a + 24) 8 v

/-! ### `llist.c` -/

/-- As many steps as there are addresses. -/
def maxSteps : ℕ := 2 ^ 64

/-- The loop of `add_node`: `current` and `previous` at its end. -/
def addLoop (m : Mem) (size : ℕ) : ℕ → ℕ → ℕ → Option (ℕ × ℕ)
  | 0, _, _ => none
  | n + 1, current, previous =>
    if current ≠ 0 ∧ nodeSize m current ≤ size then addLoop m size n (nodeNext m current) current
    else some (current, previous)

/-- `add_node`: `bin->head` and the memory after it. -/
def addNode (m : Mem) (head node : ℕ) : Option (ℕ × Mem) :=
  let m := setPrev (setNext m node 0) node 0
  if head = 0 then some (node, m)
  else
    (addLoop m (nodeSize m node) maxSteps head 0).map fun (current, previous) =>
      if current = 0 then (head, setPrev (setNext m previous node) node previous)
      else if previous ≠ 0 then
        let m := setNext (setNext m node current) previous node
        (head, setPrev (setPrev m node previous) current node)
      else (node, setPrev (setNext m node head) head node)

/-- What `remove_node` does with the node when it has found it: it is the last item, or a middle one. -/
def unlink (m : Mem) (temp : ℕ) : Mem :=
  if nodeNext m temp = 0 then setNext m (nodePrev m temp) 0
  else
    let m := setNext m (nodePrev m temp) (nodeNext m temp)
    setPrev m (nodeNext m temp) (nodePrev m temp)

/-- The loop of `remove_node`. -/
def removeLoop (m : Mem) (node : ℕ) : ℕ → ℕ → Option Mem
  | 0, _ => none
  | n + 1, temp =>
    if temp = 0 then some m
    else if temp = node then some (unlink m temp)
    else removeLoop m node n (nodeNext m temp)

def removeNode (m : Mem) (head node : ℕ) : Option (ℕ × Mem) :=
  if head = 0 then some (head, m)
  else if head = node then some (nodeNext m head, m)
  else (removeLoop m node maxSteps (nodeNext m head)).map fun m => (head, m)

/-! ### Headers that do not overlap -/

/-- Two headers have no byte in common. -/
def Apart (a b : ℕ) : Prop := a + 32 ≤ b ∨ b + 32 ≤ a

theorem Apart.symm {a b : ℕ} (h : Apart a b) : Apart b a := Or.symm h

/-- The headers `l` are objects of their own: two of them are one or have no byte in common, and each ends
within the address space. -/
structure Headers (l : List ℕ) : Prop where
  apart : ∀ a ∈ l, ∀ b ∈ l, a = b ∨ Apart a b
  bound : ∀ a ∈ l, a + 32 ≤ 2 ^ 64

theorem Headers.mono {l l' : List ℕ} (h : Headers l) (hs : l' ⊆ l) : Headers l' :=
  ⟨fun a ha b hb => h.apart a (hs ha) b (hs hb), fun a ha => h.bound a (hs ha)⟩

theorem Headers.lt {l : List ℕ} (h : Headers l) {a : ℕ} (ha : a ∈ l) : a < 2 ^ 64 := by
  have := h.bound a ha
  omega

/-- Headers that are all different are fewer than the steps a walk may take. -/
theorem Headers.length_lt {l : List ℕ} (h : Headers l) (hn : l.Nodup) : l.length < maxSteps := by
  have hs : l ⊆ List.range (2 ^ 64 - 31) := by
    intro a ha
    have := h.bound a ha
    rw [List.mem_range]
    omega
  have hle := (hn.subperm hs).length_le
  rw [List.length_range] at hle
  unfold maxSteps
  omega

section Fields

variable {m : Mem} {a b v : ℕ}

theorem nodeSize_lt : nodeSize m a < 2 ^ 64 := Mem.load_lt m 8 (a + 8)

theorem nodeNext_setNext (h : b = a ∨ Apart b a) (hv : v < 2 ^ 64) :
    nodeNext (setNext m a v) b = if b = a then v else nodeNext m b := by
  unfold nodeNext setNext
  split_ifs with hab
  · rw [hab, Mem.load_store_self]
    exact Nat.mod_eq_of_lt hv
  · have := h.resolve_left hab
    unfold Apart at this
    exact Mem.load_store_disj m (by omega)

theorem nodePrev_setPrev (h : b = a ∨ Apart b a) (hv : v < 2 ^ 64) :
    nodePrev (setPrev m a v) b = if b = a then v else nodePrev m b := by
  unfold nodePrev setPrev
  split_ifs with hab
  · rw [hab, Mem.load_store_self]
    exact Nat.mod_eq_of_lt hv
  · have := h.resolve_left hab
    unfold Apart at this
    exact Mem.load_store_disj m (by omega)

theorem nodeNext_setPrev (h : b = a ∨ Apart b a) : nodeNext (setPrev m a v) b = nodeNext m b :=
  Mem.load_store_disj m (by unfold Apart at h; omega)

theorem nodePrev_setNext (h : b = a ∨ Apart b a) : nodePrev (setNext m a v) b = nodePrev m b :=
  Mem.load_store_disj m (by unfold Apart at h; omega)

end Fields

/-- `m'` has the memory of `m` outside the fields `next` and `prev` of the nodes `l`. -/
def LinksOnly (l : List ℕ) (m m' : Mem) : Prop := ∀ x, (∀ a ∈ l, x < a + 16 ∨ a + 32 ≤ x) → m' x = m x

namespace LinksOnly

variable {l l' : List ℕ} {m m' m'' : Mem} {a v : ℕ}

theorem refl : LinksOnly l m m := fun _ _ => rfl

theorem setNext (h : LinksOnly l m m') (ha : a ∈ l) : LinksOnly l m (setNext m' a v) := fun x hx => by
  rw [← h x hx]
  have := hx a ha
  exact Mem.store_out m' (by omega)

theorem setPrev (h : LinksOnly l m m') (ha : a ∈ l) : LinksOnly l m (setPrev m' a v) := fun x hx => by
  rw [← h x hx]
  have := hx a ha
  exact Mem.store_out m' (by omega)

/-- What lies outside those fields is read as before. -/
theorem load (h : LinksOnly l m m') {n : ℕ} (ha : ∀ b ∈ l, a + n ≤ b + 16 ∨ b + 32 ≤ a) : m'.load a n = m.load a n :=
  Mem.load_congr fun x h1 h2 => h x fun b hb => by have := ha b hb; omega

theorem size (h : LinksOnly l m m') (ha : ∀ b ∈ l, a = b ∨ Apart a b) : nodeSize m' a = nodeSize m a :=
  h.load fun b hb => by have := ha b hb; unfold Apart at this; omega

end LinksOnly

/-! ### A bin -/

/-- The list of a bin: its nodes are linked both ways, the head's `prev` may be anything. -/
structure BinList (m : Mem) (head : ℕ) (l : List ℕ) : Prop where
  links : DList 0 (nodeNext m) (nodePrev m) head l
  headers : Headers l

/-- By non-decreasing size. -/
def Sorted (m : Mem) (l : List ℕ) : Prop := l.Pairwise fun a b => nodeSize m a ≤ nodeSize m b

/-- Where `add_node` puts a node of size `size`. -/
def below (m : Mem) (size : ℕ) (l : List ℕ) : List ℕ := l.takeWhile fun a => nodeSize m a ≤ size
@[inherit_doc below] def above (m : Mem) (size : ℕ) (l : List ℕ) : List ℕ := l.dropWhile fun a => nodeSize m a ≤ size

theorem below_append_above (m : Mem) (size : ℕ) (l : List ℕ) : below m size l ++ above m size l = l :=
  List.takeWhile_append_dropWhile

theorem below_le {m : Mem} {size a : ℕ} {l : List ℕ} (ha : a ∈ below m size l) : nodeSize m a ≤ size := by
  have := List.mem_takeWhile_imp ha
  exact of_decide_eq_true this

theorem lt_above {m : Mem} {size a : ℕ} {l : List ℕ} (h : Sorted m l) (ha : a ∈ above m size l) :
    size < nodeSize m a := by
  induction l with
  | nil => cases ha
  | cons x l ih =>
    obtain ⟨hx, hl⟩ := List.pairwise_cons.mp h
    unfold above at ha
    rw [List.dropWhile_cons] at ha
    split_ifs at ha with hsz
    · exact ih hl ha
    · have hlt : size < nodeSize m x := by simpa using hsz
      rcases List.mem_cons.mp ha with rfl | ha
      · exact hlt
      · exact lt_of_lt_of_le hlt (hx a ha)

theorem addLoop_eq {m : Mem} {size : ℕ} {l : List ℕ} {n current previous : ℕ}
    (hs : Seg 0 (nodeNext m) current l 0) (hn : l.length < n) :
    addLoop m size n current previous
      = some (firstOr 0 (above m size l), (below m size l).getLast?.getD previous) := by
  induction l generalizing n current previous with
  | nil =>
    obtain ⟨n, rfl⟩ := Nat.exists_eq_add_of_lt hn
    have h0 : current = 0 := hs
    simp [addLoop, h0, above, below, firstOr]
  | cons x l ih =>
    obtain ⟨rfl, hx, hs⟩ := hs
    obtain ⟨n, rfl⟩ : ∃ k, n = k + 1 := ⟨n - 1, by rw [List.length_cons] at hn; omega⟩
    have hlen : l.length < n := by rw [List.length_cons] at hn; omega
    unfold addLoop above below
    rw [List.dropWhile_cons, List.takeWhile_cons]
    by_cases hsz : nodeSize m current ≤ size
    · rw [if_pos ⟨hx, hsz⟩, if_pos (decide_eq_true hsz), if_pos (decide_eq_true hsz), ih hs hlen]
      simp [above, below, List.getLast?_cons]
    · rw [if_neg (fun h => hsz h.2), if_neg (by simpa using hsz), if_neg (by simpa using hsz)]
      simp [firstOr]

theorem below_congr {m m' : Mem} {size : ℕ} {l : List ℕ} (h : ∀ a ∈ l, nodeSize m' a = nodeSize m a) :
    below m' size l = below m size l ∧ above m' size l = above m size l := by
  induction l with
  | nil => simp [below, above]
  | cons x l ih =>
    obtain ⟨ih₁, ih₂⟩ := ih fun a ha => h a (List.mem_cons_of_mem _ ha)
    unfold below above at *
    simp only [List.takeWhile_cons, List.dropWhile_cons, h x (List.mem_cons_self ..), ih₁, ih₂, and_self]

/-! ### `add_node` -/

section Add

variable {m : Mem} {head node : ℕ} {l : List ℕ}

/-- The list with the node between `l₁` and `l₂`, from the links that were set. -/
theorem BinList.insert {m' : Mem} {l₁ l₂ : List ℕ} (h : BinList m head (l₁ ++ l₂)) (hh : Headers (node :: (l₁ ++ l₂)))
    (hnew : node ∉ l₁ ++ l₂) (h0 : node ≠ 0)
    (hnext : ∀ x ∈ node :: (l₁ ++ l₂), nodeNext m' x
      = if x = node then firstOr 0 l₂ else if x ∈ l₁.getLast? then node else nodeNext m x)
    (hprev : ∀ x ∈ l₁ ++ l₂, nodePrev m' x = if x ∈ l₂.head? then node else nodePrev m x)
    (hnode : ∀ p ∈ l₁.getLast?, nodePrev m' node = p) :
    BinList m' (if l₁ = [] then node else head) (l₁ ++ node :: l₂) := by
  have hne {x : ℕ} (hx : x ∈ l₁ ++ l₂) : x ≠ node := fun he => hnew (he ▸ hx)
  refine ⟨h.links.insert h0 hnew ?_ ?_ ?_ ?_ ?_, hh.mono ?_⟩
  · rw [hnext node (List.mem_cons_self ..), if_pos rfl]
  · intro p hp
    have hm : p ∈ l₁ ++ l₂ := List.mem_append_left _ (List.mem_of_mem_getLast? hp)
    refine ⟨?_, hnode p hp⟩
    rw [hnext p (List.mem_cons_of_mem _ hm), if_neg (hne hm), if_pos hp]
  · intro x hx hl
    rw [hnext x (List.mem_cons_of_mem _ hx), if_neg (hne hx), if_neg hl]
  · intro c hc
    rw [hprev c (List.mem_append_right _ (List.mem_of_mem_head? hc)), if_pos hc]
  · intro x hx hl
    rw [hprev x hx, if_neg hl]
  · intro x hx
    simp only [List.mem_append, List.mem_cons] at hx ⊢
    tauto

/-- **`add_node` links the node in**, behind those that are not larger. -/
theorem BinList.add (h : BinList m head l) (hh : Headers (node :: l)) (hnew : node ∉ l) (h0 : node ≠ 0) :
    ∃ head' m', addNode m head node = some (head', m') ∧ LinksOnly (node :: l) m m' ∧
      BinList m' head' (below m (nodeSize m node) l ++ node :: above m (nodeSize m node) l) := by
  have hnode : node ∈ node :: l := List.mem_cons_self ..
  have hlt : node < 2 ^ 64 := hh.lt hnode
  -- the links of the new node are cleared first
  have hclear : LinksOnly (node :: l) m (setPrev (setNext m node 0) node 0) := (LinksOnly.refl.setNext hnode).setPrev hnode
  have hn₁ : ∀ x ∈ node :: l, nodeNext (setPrev (setNext m node 0) node 0) x = if x = node then 0 else nodeNext m x := by
    intro x hx
    rw [nodeNext_setPrev (hh.apart x hx node hnode), nodeNext_setNext (hh.apart x hx node hnode) (by norm_num)]
  have hp₁ : ∀ x ∈ node :: l, nodePrev (setPrev (setNext m node 0) node 0) x = if x = node then 0 else nodePrev m x := by
    intro x hx
    rw [nodePrev_setPrev (hh.apart x hx node hnode) (by norm_num), nodePrev_setNext (hh.apart x hx node hnode)]
  have hsize : ∀ x ∈ node :: l, nodeSize (setPrev (setNext m node 0) node 0) x = nodeSize m x := by
    intro x hx
    exact hclear.size fun b hb => hh.apart x hx b hb
  unfold addNode
  simp only []
  generalize hm₁ : setPrev (setNext m node 0) node 0 = m₁ at *
  have hne {x : ℕ} (hx : x ∈ l) : x ≠ node := fun he => hnew (he ▸ hx)
  by_cases hhead : head = 0
  · obtain rfl := (h.links.seg.eq_nil_iff).mpr hhead
    rw [if_pos hhead]
    refine ⟨node, m₁, rfl, hclear, ?_⟩
    have hins := @BinList.insert m head node m₁ [] [] h hh hnew h0 ?_ (by simp) (by simp)
    · exact hins
    · intro x hx
      rw [hn₁ x hx]
      rfl
  · rw [if_neg hhead]
    have hseg : Seg 0 (nodeNext m₁) head l 0 := h.links.seg.congr fun x hx => by
      rw [hn₁ x (List.mem_cons_of_mem _ hx), if_neg (hne hx)]
    obtain ⟨hb, ha⟩ := @below_congr m m₁ (nodeSize m node) l fun a ha => hsize a (List.mem_cons_of_mem node ha)
    rw [addLoop_eq hseg (h.headers.length_lt h.links.nodup), hsize node hnode, hb, ha]
    have hl := below_append_above m (nodeSize m node) l
    generalize below m (nodeSize m node) l = l₁ at *
    generalize above m (nodeSize m node) l = l₂ at *
    subst hl
    have hnull {x : ℕ} (hx : x ∈ l₁ ++ l₂) : x ≠ 0 := h.links.seg.ne_null hx
    have hmem {x : ℕ} (hx : x ∈ l₁ ++ l₂) : x ∈ node :: (l₁ ++ l₂) := List.mem_cons_of_mem _ hx
    have hap {x y : ℕ} (hx : x ∈ node :: (l₁ ++ l₂)) (hy : y ∈ node :: (l₁ ++ l₂)) : x = y ∨ Apart x y := hh.apart x hx y hy
    rcases List.eq_nil_or_concat l₁ with rfl | ⟨t, p, rfl⟩
    · cases l₂ with
      | nil => exact absurd h.links.seg hhead
      | cons c l₂ =>
        -- before the head
        obtain rfl : head = c := h.links.seg.1
        have hc : head ∈ [] ++ head :: l₂ := by simp
        simp only [Option.map_some, firstOr, List.head?_cons, Option.getD_some, if_neg hhead, List.getLast?_nil,
          Option.getD_none, ne_eq, not_true_eq_false, if_false]
        refine ⟨_, _, rfl, (hclear.setNext hnode).setPrev (hmem hc), ?_⟩
        have hins := @BinList.insert m head node (setPrev (setNext m₁ node head) head node) _ _ h hh hnew h0 ?_ ?_ (by simp)
        · exact hins
        · intro x hx
          rw [nodeNext_setPrev (hap hx (hmem hc)), nodeNext_setNext (hap hx hnode) (hh.lt (hmem hc)), hn₁ x hx]
          by_cases hxn : x = node <;> simp [hxn, firstOr]
        · intro x hx
          rw [nodePrev_setPrev (hap (hmem hx) (hmem hc)) hlt, nodePrev_setNext (hap (hmem hx) hnode), hp₁ x (hmem hx),
            if_neg (hne hx)]
          simp [eq_comm]
    · rw [List.concat_eq_append] at *
      have hp : p ∈ t ++ [p] ++ l₂ := by simp
      have hpn : p ≠ node := hne hp
      cases l₂ with
      | nil =>
        -- behind the last node
        simp only [Option.map_some, firstOr, List.head?_nil, Option.getD_none, if_true, List.getLast?_append,
          List.getLast?_singleton, Option.some_or, Option.getD_some]
        refine ⟨_, _, rfl, (hclear.setNext (hmem hp)).setPrev hnode, ?_⟩
        have hins := @BinList.insert m head node (setPrev (setNext m₁ p node) node p) _ _ h hh hnew h0 ?_ ?_ ?_
        · rw [if_neg (by simp)] at hins
          exact hins
        · intro x hx
          rw [nodeNext_setPrev (hap hx hnode), nodeNext_setNext (hap hx (hmem hp)) hlt, hn₁ x hx]
          by_cases hxn : x = node
          · simp [hxn, hpn.symm, firstOr]
          · simp [hxn, eq_comm]
        · intro x hx
          rw [nodePrev_setPrev (hap (hmem hx) hnode) (hh.lt (hmem hp)), nodePrev_setNext (hap (hmem hx) (hmem hp)),
            hp₁ x (hmem hx)]
          simp [hne hx]
        · intro q hq
          rw [nodePrev_setPrev (Or.inl rfl) (hh.lt (hmem hp)), if_pos rfl]
          simpa using hq
      | cons c l₂ =>
        have hc : c ∈ t ++ [p] ++ c :: l₂ := by simp
        have hcn : c ≠ node := hne hc
        simp only [Option.map_some, firstOr, List.head?_cons, Option.getD_some, if_neg (hnull hc), List.getLast?_append,
          List.getLast?_singleton, Option.some_or, ne_eq, hnull hp, not_false_eq_true, if_true]
        refine ⟨_, _, rfl, (((hclear.setNext hnode).setNext (hmem hp)).setPrev hnode).setPrev (hmem hc), ?_⟩
        have hins := @BinList.insert m head node (setPrev (setPrev (setNext (setNext m₁ node c) p node) node p) c node) _ _
          h hh hnew h0 ?_ ?_ ?_
        · rw [if_neg (by simp)] at hins
          exact hins
        · intro x hx
          rw [nodeNext_setPrev (hap hx (hmem hc)), nodeNext_setPrev (hap hx hnode),
            nodeNext_setNext (hap hx (hmem hp)) hlt, nodeNext_setNext (hap hx hnode) (hh.lt (hmem hc)), hn₁ x hx]
          by_cases hxn : x = node
          · simp [hxn, hpn.symm, firstOr]
          · simp [hxn, eq_comm]
        · intro x hx
          rw [nodePrev_setPrev (hap (hmem hx) (hmem hc)) hlt, nodePrev_setPrev (hap (hmem hx) hnode) (hh.lt (hmem hp)),
            nodePrev_setNext (hap (hmem hx) (hmem hp)), nodePrev_setNext (hap (hmem hx) hnode), hp₁ x (hmem hx)]
          simp [hne hx, eq_comm]
        · intro q hq
          rw [nodePrev_setPrev (hap hnode (hmem hc)) hlt, if_neg hcn.symm, nodePrev_setPrev (Or.inl rfl) (hh.lt (hmem hp)),
            if_pos rfl]
          simpa using hq

end Add

/-! ### `remove_node` -/

section Remove

variable {m : Mem} {head node : ℕ} {l l₁ l₂ : List ℕ}

theorem removeLoop_absent {n temp : ℕ} (hs : Seg 0 (nodeNext m) temp l 0) (hn : l.length < n) (hnew : node ∉ l) :
    removeLoop m node n temp = some m := by
  induction l generalizing n temp with
  | nil =>
    obtain ⟨n, rfl⟩ := Nat.exists_eq_add_of_lt hn
    have h0 : temp = 0 := hs
    simp [removeLoop, h0]
  | cons x l ih =>
    obtain ⟨rfl, hx, hs⟩ := hs
    rw [List.length_cons] at hn
    obtain ⟨hne, hnew⟩ := not_or.mp (mt List.mem_cons.mpr hnew)
    obtain ⟨n, rfl⟩ : ∃ k, n = k + 1 := ⟨n - 1, by omega⟩
    rw [removeLoop, if_neg hx, if_neg (Ne.symm hne)]
    exact ih hs (by omega) hnew

theorem removeLoop_found {n temp : ℕ} (hs : Seg 0 (nodeNext m) temp (l₁ ++ node :: l₂) 0)
    (hn : (l₁ ++ node :: l₂).length < n) (hnew : node ∉ l₁) : removeLoop m node n temp = some (unlink m node) := by
  induction l₁ generalizing n temp with
  | nil =>
    obtain ⟨rfl, hx, -⟩ := hs
    obtain ⟨n, rfl⟩ := Nat.exists_eq_add_of_lt hn
    rw [removeLoop, if_neg hx, if_pos rfl]
  | cons x l₁ ih =>
    obtain ⟨rfl, hx, hs⟩ := hs
    rw [List.cons_append, List.length_cons] at hn
    obtain ⟨hne, hnew⟩ := not_or.mp (mt List.mem_cons.mpr hnew)
    obtain ⟨n, rfl⟩ : ∃ k, n = k + 1 := ⟨n - 1, by omega⟩
    rw [removeLoop, if_neg hx, if_neg (Ne.symm hne)]
    exact ih hs (by omega) hnew

/-- A node that is not in the list is not removed. -/
theorem BinList.remove_absent (h : BinList m head l) (hnew : node ∉ l) : removeNode m head node = some (head, m) := by
  unfold removeNode
  by_cases hhead : head = 0
  · rw [if_pos hhead]
  · rw [if_neg hhead]
    cases l with
    | nil => exact absurd h.links.seg hhead
    | cons x l =>
      obtain rfl : head = x := h.links.seg.1
      obtain ⟨hne, hnew⟩ := not_or.mp (mt List.mem_cons.mpr hnew)
      have hlen := h.headers.length_lt h.links.nodup
      rw [List.length_cons] at hlen
      rw [if_neg (Ne.symm hne), removeLoop_absent h.links.tail.seg (by omega) hnew, Option.map_some]

/-- The links around a node that is not the head are joined. -/
theorem BinList.unlink (h : BinList m head (l₁ ++ node :: l₂)) (hne : l₁ ≠ []) :
    BinList (unlink m node) head (l₁ ++ l₂) ∧ LinksOnly (l₁ ++ l₂) m (unlink m node) := by
  obtain ⟨t, p, rfl⟩ := (List.eq_nil_or_concat l₁).resolve_left hne
  rw [List.concat_eq_append] at *
  have hsub : t ++ [p] ++ l₂ ⊆ t ++ [p] ++ node :: l₂ := by
    intro x hx
    simp only [List.mem_append, List.mem_cons] at hx ⊢
    tauto
  have hp : p ∈ t ++ [p] ++ l₂ := by simp
  have hnode : node ∈ t ++ [p] ++ node :: l₂ := by simp
  have hap {x y : ℕ} (hx : x ∈ t ++ [p] ++ node :: l₂) (hy : y ∈ t ++ [p] ++ node :: l₂) : x = y ∨ Apart x y :=
    h.headers.apart x hx y hy
  have hpn : node ≠ p := by
    rintro rfl
    exact (List.nodup_append.mp h.links.nodup).2.2 node (by simp) node (by simp) rfl
  have hprev : nodePrev m node = p := (List.isChain_append.mp h.links.back).2.2 p (by simp) node (by simp)
  have hplt : p < 2 ^ 64 := h.headers.lt (hsub hp)
  obtain ⟨_, -, -, -, hseg⟩ := seg_append.mp h.links.seg
  cases l₂ with
  | nil =>
    have hnext : nodeNext m node = 0 := hseg
    unfold Heap.unlink
    rw [if_pos hnext, hprev]
    refine ⟨⟨h.links.remove hne ?_ ?_ ?_, h.headers.mono hsub⟩, LinksOnly.refl.setNext hp⟩
    · intro q hq
      obtain rfl : p = q := by simpa using hq
      rw [nodeNext_setNext (Or.inl rfl) (by norm_num), if_pos rfl]
      exact ⟨rfl, by simp⟩
    · intro y hy hl
      rw [nodeNext_setNext (hap (hsub hy) (hsub hp)) (by norm_num), if_neg]
      rintro rfl
      exact hl (by simp)
    · intro y hy _
      rw [nodePrev_setNext (hap (hsub hy) (hsub hp))]
  | cons c l₂ =>
    obtain ⟨hnext, hc0, -⟩ := hseg
    have hc : c ∈ t ++ [p] ++ c :: l₂ := by simp
    unfold Heap.unlink
    rw [if_neg (by rw [hnext]; exact hc0), hprev, hnext]
    simp only [nodeNext_setNext (hap hnode (hsub hp)) (h.headers.lt (hsub hc)), if_neg hpn, hnext,
      nodePrev_setNext (hap hnode (hsub hp)), hprev]
    refine ⟨⟨h.links.remove hne ?_ ?_ ?_, h.headers.mono hsub⟩, (LinksOnly.refl.setNext hp).setPrev hc⟩
    · intro q hq
      obtain rfl : p = q := by simpa using hq
      rw [nodeNext_setPrev (hap (hsub hp) (hsub hc)), nodeNext_setNext (Or.inl rfl) (h.headers.lt (hsub hc)), if_pos rfl]
      refine ⟨rfl, fun d hd => ?_⟩
      obtain rfl : c = d := by simpa using hd
      rw [nodePrev_setPrev (Or.inl rfl) hplt, if_pos rfl]
    · intro y hy hl
      rw [nodeNext_setPrev (hap (hsub hy) (hsub hc)), nodeNext_setNext (hap (hsub hy) (hsub hp)) (h.headers.lt (hsub hc)),
        if_neg]
      rintro rfl
      exact hl (by simp)
    · intro y hy hl
      rw [nodePrev_setPrev (hap (hsub hy) (hsub hc)) hplt, if_neg, nodePrev_setNext (hap (hsub hy) (hsub hp))]
      rintro rfl
      exact hl (by simp)

/-- **`remove_node` takes the node out.** -/
theorem BinList.remove (h : BinList m head l) (hmem : node ∈ l) :
    ∃ head' m', removeNode m head node = some (head', m') ∧ LinksOnly (l.erase node) m m' ∧
      BinList m' head' (l.erase node) := by
  obtain ⟨l₁, l₂, rfl⟩ := List.append_of_mem hmem
  have hnew : node ∉ l₁ := fun hm => (List.nodup_append.mp h.links.nodup).2.2 node hm node (List.mem_cons_self ..) rfl
  rw [List.erase_append_right _ hnew, List.erase_cons_head]
  unfold removeNode
  have hhead : head ≠ 0 := fun h0 => by simpa using h.links.seg.eq_nil_iff.mpr h0
  rw [if_neg hhead]
  cases l₁ with
  | nil =>
    obtain rfl : head = node := h.links.seg.1
    rw [if_pos rfl]
    exact ⟨_, m, rfl, LinksOnly.refl, h.links.tail, h.headers.mono fun x hx => List.mem_cons_of_mem _ hx⟩
  | cons x l₁ =>
    obtain rfl : head = x := h.links.seg.1
    obtain ⟨hne, hnew⟩ := not_or.mp (mt List.mem_cons.mpr hnew)
    have hlen := h.headers.length_lt h.links.nodup
    rw [List.cons_append, List.length_cons] at hlen
    rw [if_neg (Ne.symm hne), removeLoop_found h.links.tail.seg (by omega) hnew]
    obtain ⟨hb, hlo⟩ := h.unlink (List.cons_ne_nil _ _)
    exact ⟨head, Heap.unlink m node, rfl, hlo, hb⟩

end Remove

/-! ### The shape of a bin -/

/-- A bin as `llist.c` keeps it. -/
structure Shape (m : Mem) (head : ℕ) (l : List ℕ) : Prop extends BinList m head l where
  sorted : Sorted m l

/-- A bin in use, with its members: nodes that are not in it are added, any node is removed, and the rest of
the program stores what it likes except into the size and the links of the members. -/
inductive BinRun : Mem → ℕ → List ℕ → Prop
  | init {m : Mem} {head : ℕ} {l : List ℕ} : Shape m head l → BinRun m head l
  | add {m m' : Mem} {head head' node : ℕ} {l : List ℕ} : BinRun m head l → node ≠ 0 → node ∉ l → Headers (node :: l) →
      addNode m head node = some (head', m') → BinRun m' head' (node :: l)
  | remove {m m' : Mem} {head head' node : ℕ} {l : List ℕ} : BinRun m head l →
      removeNode m head node = some (head', m') → BinRun m' head' (l.erase node)
  | write {m m' : Mem} {head : ℕ} {l : List ℕ} : BinRun m head l →
      (∀ a ∈ l, ∀ x, a + 8 ≤ x → x < a + 32 → m' x = m x) → BinRun m' head l

/-- Sorted lists stay sorted when the links change. -/
theorem Sorted.linksOnly {m m' : Mem} {l l' : List ℕ} (h : Sorted m l) (hlo : LinksOnly l' m m')
    (hap : ∀ a ∈ l, ∀ b ∈ l', a = b ∨ Apart a b) : Sorted m' l := by
  refine List.Pairwise.imp_of_mem (fun ha hb hab => ?_) h
  rw [hlo.size (hap _ ha), hlo.size (hap _ hb)]
  exact hab

theorem Shape.add {m : Mem} {head node : ℕ} {l : List ℕ} (h : Shape m head l) (hh : Headers (node :: l))
    (hnew : node ∉ l) (h0 : node ≠ 0) :
    ∃ head' m' l₁ l₂, addNode m head node = some (head', m') ∧ LinksOnly (node :: l) m m' ∧ l = l₁ ++ l₂ ∧
      Shape m' head' (l₁ ++ node :: l₂) ∧ (∀ a ∈ l₁, nodeSize m a ≤ nodeSize m node) ∧
      ∀ a ∈ l₂, nodeSize m node < nodeSize m a := by
  obtain ⟨head', m', hr, hlo, hb⟩ := h.toBinList.add hh hnew h0
  have hl := below_append_above m (nodeSize m node) l
  have hle : ∀ a ∈ below m (nodeSize m node) l, nodeSize m a ≤ nodeSize m node := fun a ha => below_le ha
  have hlt : ∀ a ∈ above m (nodeSize m node) l, nodeSize m node < nodeSize m a := fun a ha => lt_above h.sorted ha
  refine ⟨head', m', _, _, hr, hlo, hl.symm, ⟨hb, ?_⟩, hle, hlt⟩
  have hsub : below m (nodeSize m node) l ++ node :: above m (nodeSize m node) l ⊆ node :: l := by
    intro x hx
    rw [← hl]
    simp only [List.mem_append, List.mem_cons] at hx ⊢
    tauto
  refine Sorted.linksOnly ?_ hlo fun a ha b hb => hh.apart a (hsub ha) b hb
  have hsorted := h.sorted
  rw [← hl] at hsorted
  obtain ⟨hs₁, hs₂, hs⟩ := List.pairwise_append.mp hsorted
  refine List.pairwise_append.mpr ⟨hs₁, List.pairwise_cons.mpr ⟨fun a ha => (hlt a ha).le, hs₂⟩, fun a ha b hb => ?_⟩
  rcases List.mem_cons.mp hb with rfl | hb
  · exact hle a ha
  · exact hs a ha b hb

theorem Shape.remove {m : Mem} {head node : ℕ} {l : List ℕ} (h : Shape m head l) (hmem : node ∈ l) :
    ∃ head' m', removeNode m head node = some (head', m') ∧ LinksOnly (l.erase node) m m' ∧
      Shape m' head' (l.erase node) := by
  obtain ⟨head', m', hr, hlo, hb⟩ := h.toBinList.remove hmem
  refine ⟨head', m', hr, hlo, hb, ?_⟩
  exact Sorted.linksOnly (h.sorted.sublist (List.erase_sublist ..)) hlo fun a ha b hb' => hb.headers.apart a ha b hb'

theorem Shape.congr {m m' : Mem} {head : ℕ} {l : List ℕ} (h : Shape m head l)
    (he : ∀ a ∈ l, ∀ x, a + 8 ≤ x → x < a + 32 → m' x = m x) : Shape m' head l := by
  have hload {a k : ℕ} (ha : a ∈ l) (hk : 8 ≤ k ∧ k + 8 ≤ 32) : m'.load (a + k) 8 = m.load (a + k) 8 :=
    Mem.load_congr fun x h1 h2 => he a ha x (by omega) (by omega)
  refine ⟨⟨h.links.congr (fun a ha => hload ha (by norm_num)) fun a ha => hload ha (by norm_num), h.headers⟩, ?_⟩
  refine List.Pairwise.imp_of_mem (fun {a b} ha hb hab => ?_) h.sorted
  have h1 : nodeSize m' a = nodeSize m a := hload ha (by norm_num)
  have h2 : nodeSize m' b = nodeSize m b := hload hb (by norm_num)
  rw [h1, h2]
  exact hab

/-- In a run the bin has the shape, and the members are the nodes of its list. -/
theorem BinRun.shape {m : Mem} {head : ℕ} {l : List ℕ} (h : BinRun m head l) : ∃ l', l'.Perm l ∧ Shape m head l' := by
  induction h with
  | init h => exact ⟨_, List.Perm.refl _, h⟩
  | add _ h0 hnew hh hr ih =>
    obtain ⟨l', hperm, hs⟩ := ih
    have hh' := hh.mono (List.Perm.cons _ hperm).subset
    obtain ⟨_, _, l₁, l₂, hr', -, rfl, hs', -⟩ := hs.add hh' (fun hm => hnew (hperm.subset hm)) h0
    rw [hr] at hr'
    cases hr'
    exact ⟨_, List.perm_middle.trans (List.Perm.cons _ hperm), hs'⟩
  | @remove m m' head head' node l _ hr ih =>
    obtain ⟨l', hperm, hs⟩ := ih
    refine ⟨l'.erase node, hperm.erase _, ?_⟩
    by_cases hmem : node ∈ l'
    · obtain ⟨_, _, hr', -, hs'⟩ := hs.remove hmem
      rw [hr] at hr'
      cases hr'
      exact hs'
    · rw [hs.remove_absent hmem] at hr
      cases hr
      rwa [List.erase_of_not_mem hmem]
  | write _ he ih =>
    obtain ⟨l', hperm, hs⟩ := ih
    exact ⟨l', hperm, hs.congr fun a ha => he a (hperm.subset ha)⟩

/-- **Bins are sorted doubly linked lists.** A node that is added comes behind those of its size, a member that
is removed leaves the others in their order, for a node that is no member nothing is done; and every run keeps
the shape, with the members it has. -/
theorem bin_shape :
    (∀ m head l node, Shape m head l → Headers (node :: l) → node ∉ l → node ≠ 0 →
      ∃ head' m' l₁ l₂, addNode m head node = some (head', m') ∧ LinksOnly (node :: l) m m' ∧ l = l₁ ++ l₂ ∧
        Shape m' head' (l₁ ++ node :: l₂) ∧ (∀ a ∈ l₁, nodeSize m a ≤ nodeSize m node) ∧
        ∀ a ∈ l₂, nodeSize m node < nodeSize m a) ∧
    (∀ m head l node, Shape m head l → node ∈ l →
      ∃ head' m', removeNode m head node = some (head', m') ∧ LinksOnly (l.erase node) m m' ∧
        Shape m' head' (l.erase node)) ∧
    (∀ m head l node, Shape m head l → node ∉ l → removeNode m head node = some (head, m)) ∧
    ∀ m head l, BinRun m head l → ∃ l', l'.Perm l ∧ Shape m head l' :=
  ⟨fun _ _ _ _ h hh hnew h0 => h.add hh hnew h0, fun _ _ _ _ h hmem => h.remove hmem,
    fun _ _ _ _ h hnew => h.remove_absent hnew, fun _ _ _ h => h.shape⟩

theorem shape_empty (m : Mem) : Shape m 0 [] :=
  ⟨⟨⟨rfl, List.isChain_nil, List.nodup_nil⟩, ⟨by simp, by simp⟩⟩, List.Pairwise.nil⟩

/-- A node is added to an empty bin, removed, and removed once more. -/
theorem bin_shape_one :
    Shape (fun _ => 0) 0 [] ∧ ∃ head m head' m', addNode (fun _ => 0) 0 64 = some (head, m) ∧ Shape m head [64] ∧
      removeNode m head 64 = some (head', m') ∧ removeNode m' head' 64 = some (head', m') ∧
      ∃ l, l.Perm [] ∧ Shape m' head' l := by
  have hh : Headers [64] := by
    refine ⟨fun a ha b hb => Or.inl ?_, by simp⟩
    rw [List.mem_singleton.mp ha, List.mem_singleton.mp hb]
  obtain ⟨hadd, hremove, habsent, hrun⟩ := bin_shape
  obtain ⟨head, m, l₁, l₂, hr, -, hl, hs, -⟩ := hadd _ _ _ 64 (shape_empty _) hh (by simp) (by decide)
  obtain ⟨rfl, rfl⟩ := List.append_eq_nil_iff.mp hl.symm
  obtain ⟨head', m', hr', -, hs'⟩ := hremove _ _ _ 64 hs (by simp)
  exact ⟨shape_empty _, head, m, head', m', hr, hs, hr', habsent _ _ _ 64 hs' (by simp), hrun _ _ _ (.init hs')⟩

end Heap
end Coffer
