/-
# Doubly linked lists

Nodes of a type with a null element are linked by two functions, `next` and `prev`. `Seg next a l b`: from
`a`, `next` leads through the nodes of `l` to `b`. `DList next prev head l`: from `head` it leads through `l`
to null, no node comes twice, and every node but the first has its predecessor in `prev`. What the first
node has in `prev` does not matter.

A node is put between two others or taken out by setting the links on both sides; `DList.insert` and
`DList.remove` say which values of the two functions that needs, `DList.tail` that the first node can be left
out without setting any.
-/
import Mathlib.Tactic

namespace Coffer
namespace Lib

variable {α : Type} (null : α)

/-- `next` leads from `a` through the nodes of `l` to `b`. -/
def Seg (next : α → α) : α → List α → α → Prop
  | a, [], b => a = b
  | a, x :: l, b => a = x ∧ x ≠ null ∧ Seg next (next x) l b

/-- The nodes of `l`, linked both ways from `head` on. -/
structure DList (next prev : α → α) (head : α) (l : List α) : Prop where
  seg : Seg null next head l null
  back : l.IsChain fun a b => prev b = a
  nodup : l.Nodup

/-- The first node, or null. -/
def firstOr (l : List α) : α := l.head?.getD null

variable {null} {next next' prev prev' : α → α} {a b head x : α} {l l₁ l₂ : List α}

theorem seg_append : Seg null next a (l₁ ++ l₂) b ↔ ∃ c, Seg null next a l₁ c ∧ Seg null next c l₂ b := by
  induction l₁ generalizing a with
  | nil => simp [Seg]
  | cons x l₁ ih => simp only [List.cons_append, Seg, ih, exists_and_left, and_assoc]

theorem Seg.congr (h : Seg null next a l b) (he : ∀ x ∈ l, next' x = next x) : Seg null next' a l b := by
  induction l generalizing a with
  | nil => exact h
  | cons x l ih =>
    obtain ⟨rfl, hx, hs⟩ := h
    refine ⟨rfl, hx, ?_⟩
    rw [he a (List.mem_cons_self ..)]
    exact ih hs fun y hy => he y (List.mem_cons_of_mem _ hy)

theorem Seg.ne_null (h : Seg null next a l b) (hx : x ∈ l) : x ≠ null := by
  induction l generalizing a with
  | nil => cases hx
  | cons y l ih =>
    rcases List.mem_cons.mp hx with rfl | hx
    · exact h.2.1
    · exact ih h.2.2 hx

theorem Seg.first (h : Seg null next a l null) : a = firstOr null l := by
  cases l with
  | nil => exact h
  | cons x l => exact h.1

/-- A list that does not begin with null is empty exactly if its start is null. -/
theorem Seg.eq_nil_iff (h : Seg null next a l null) : l = [] ↔ a = null := by
  cases l with
  | nil => exact ⟨fun _ => h, fun _ => rfl⟩
  | cons x l => exact ⟨fun he => (by cases he), fun he => absurd (h.1.symm.trans he) h.2.1⟩

namespace DList

/-- The list depends on the links of its nodes only. -/
theorem congr (h : DList null next prev head l) (hn : ∀ x ∈ l, next' x = next x) (hp : ∀ x ∈ l, prev' x = prev x) :
    DList null next' prev' head l where
  seg := h.seg.congr hn
  back := by
    refine List.IsChain.imp_of_mem_imp (fun a b _ hb hab => ?_) h.back
    rw [hp b hb]
    exact hab
  nodup := h.nodup

/-- The first node is left out; nothing is set. -/
theorem tail (h : DList null next prev head (x :: l)) : DList null next prev (next x) l :=
  ⟨h.seg.2.2, h.back.tail, (List.nodup_cons.mp h.nodup).2⟩

theorem insert {node : α} (h : DList null next prev head (l₁ ++ l₂)) (hnull : node ≠ null) (hnew : node ∉ l₁ ++ l₂)
    (hnode : next' node = firstOr null l₂) (hlast : ∀ p ∈ l₁.getLast?, next' p = node ∧ prev' node = p)
    (hnext : ∀ x ∈ l₁ ++ l₂, x ∉ l₁.getLast? → next' x = next x) (hfirst : ∀ c ∈ l₂.head?, prev' c = node)
    (hprev : ∀ x ∈ l₁ ++ l₂, x ∉ l₂.head? → prev' x = prev x) :
    DList null next' prev' (if l₁ = [] then node else head) (l₁ ++ node :: l₂) := by
  obtain ⟨c, hs₁, hs₂⟩ := seg_append.mp h.seg
  obtain ⟨hn₁, hn₂, hdis⟩ := List.nodup_append.mp h.nodup
  obtain ⟨hb₁, hb₂, -⟩ := List.isChain_append.mp h.back
  have hc : c = firstOr null l₂ := hs₂.first
  have hseg₂ : Seg null next' c l₂ null := hs₂.congr fun x hx => by
    refine hnext x (List.mem_append_right _ hx) fun hp => ?_
    exact hdis x (List.mem_of_mem_getLast? hp) x hx rfl
  refine ⟨?_, ?_, ?_⟩
  · rw [seg_append]
    refine ⟨node, ?_, rfl, hnull, by rw [hnode, ← hc]; exact hseg₂⟩
    rcases List.eq_nil_or_concat l₁ with rfl | ⟨l, p, rfl⟩
    · rfl
    · rw [List.concat_eq_append] at *
      rw [if_neg (by simp), seg_append]
      obtain ⟨q, hq, rfl, hp, -⟩ := seg_append.mp hs₁
      have hnp : q ∉ l := by
        intro hm
        exact (List.nodup_append.mp hn₁).2.2 q hm q (List.mem_singleton_self q) rfl
      refine ⟨q, hq.congr fun x hx => ?_, rfl, hp, (hlast q (by simp)).1⟩
      refine hnext x (by simp [hx]) fun hm => hnp ?_
      rw [List.getLast?_append, List.getLast?_singleton, Option.some_or, Option.mem_some_iff] at hm
      exact hm ▸ hx
  · rw [List.isChain_append]
    have hback₁ : l₁.IsChain fun a b => prev' b = a := by
      refine List.IsChain.imp_of_mem_imp (fun a b _ hb hab => ?_) hb₁
      rw [hprev b (List.mem_append_left _ hb) fun hm => ?_]
      · exact hab
      · exact hdis b hb b (List.mem_of_mem_head? hm) rfl
    refine ⟨hback₁, ?_, ?_⟩
    · cases l₂ with
      | nil => exact List.isChain_singleton _
      | cons c l₂ =>
        rw [List.isChain_cons_cons]
        refine ⟨hfirst c (by simp), ?_⟩
        -- the first node of `l₂` is not looked at again
        rw [List.isChain_cons] at hb₂ ⊢
        obtain ⟨hhead, htail⟩ := hb₂
        have hne {x : α} (hx : x ∈ l₂) : x ∉ (c :: l₂).head? := by
          rw [List.head?_cons, Option.mem_some_iff]
          rintro rfl
          exact (List.nodup_cons.mp hn₂).1 hx
        refine ⟨fun y hy => ?_, List.IsChain.imp_of_mem_imp (fun a b _ hb hab => ?_) htail⟩
        · have hm := List.mem_of_mem_head? hy
          rw [hprev y (by simp [hm]) (hne hm)]
          exact hhead y hy
        · rw [hprev b (by simp [hb]) (hne hb)]
          exact hab
    · intro p hp y hy
      rw [List.head?_cons, Option.mem_some_iff] at hy
      rw [← hy]
      exact (hlast p hp).2
  · have hperm : (l₁ ++ node :: l₂).Perm (node :: (l₁ ++ l₂)) := List.perm_middle
    exact hperm.nodup_iff.mpr (List.nodup_cons.mpr ⟨hnew, h.nodup⟩)

theorem remove (h : DList null next prev head (l₁ ++ x :: l₂)) (hne : l₁ ≠ [])
    (hlast : ∀ p ∈ l₁.getLast?, next' p = firstOr null l₂ ∧ ∀ c ∈ l₂.head?, prev' c = p)
    (hnext : ∀ y ∈ l₁ ++ l₂, y ∉ l₁.getLast? → next' y = next y)
    (hprev : ∀ y ∈ l₁ ++ l₂, y ∉ l₂.head? → prev' y = prev y) : DList null next' prev' head (l₁ ++ l₂) := by
  obtain ⟨c, hs₁, rfl, -, hs₂⟩ := seg_append.mp h.seg
  obtain ⟨hn₁, hn₂, hdis⟩ := List.nodup_append.mp h.nodup
  obtain ⟨hb₁, hb₂, -⟩ := List.isChain_append.mp h.back
  obtain ⟨hcl, hn₂⟩ := List.nodup_cons.mp hn₂
  have hdis' {y : α} (hy : y ∈ l₁) : y ∉ l₂ := fun hm => hdis y hy y (List.mem_cons_of_mem _ hm) rfl
  obtain ⟨l, p, rfl⟩ := (List.eq_nil_or_concat l₁).resolve_left hne
  rw [List.concat_eq_append] at *
  have hlastp : p ∈ (l ++ [p]).getLast? := by simp
  refine ⟨?_, ?_, ?_⟩
  · obtain ⟨q, hq, rfl, hp, -⟩ := seg_append.mp hs₁
    have hnp : q ∉ l := fun hm => (List.nodup_append.mp hn₁).2.2 q hm q (List.mem_singleton_self q) rfl
    rw [List.append_assoc, seg_append]
    refine ⟨q, hq.congr fun y hy => ?_, rfl, hp, ?_⟩
    · refine hnext y (by simp [hy]) fun hm => hnp ?_
      rw [List.getLast?_append, List.getLast?_singleton, Option.some_or, Option.mem_some_iff] at hm
      exact hm ▸ hy
    · rw [(hlast q hlastp).1, ← hs₂.first]
      refine hs₂.congr fun y hy => hnext y (List.mem_append_right _ hy) fun hm => ?_
      exact hdis' (List.mem_of_mem_getLast? hm) hy
  · rw [List.isChain_append]
    refine ⟨List.IsChain.imp_of_mem_imp (fun a b _ hb hab => ?_) hb₁, ?_, fun q hq y hy => ?_⟩
    · rw [hprev b (List.mem_append_left _ hb) fun hm => hdis' hb (List.mem_of_mem_head? hm)]
      exact hab
    · cases l₂ with
      | nil => exact List.isChain_nil
      | cons d l₂ =>
        have htail := (List.isChain_cons.mp hb₂).2
        rw [List.isChain_cons] at htail ⊢
        obtain ⟨hhead, htail⟩ := htail
        have hne {y : α} (hy : y ∈ l₂) : y ∉ (d :: l₂).head? := by
          rw [List.head?_cons, Option.mem_some_iff]
          rintro rfl
          exact (List.nodup_cons.mp hn₂).1 hy
        refine ⟨fun y hy => ?_, List.IsChain.imp_of_mem_imp (fun a b _ hb hab => ?_) htail⟩
        · have hm := List.mem_of_mem_head? hy
          rw [hprev y (by simp [hm]) (hne hm)]
          exact hhead y hy
        · rw [hprev b (by simp [hb]) (hne hb)]
          exact hab
    · rw [(hlast q hq).2 y hy]
  · refine h.nodup.sublist ?_
    exact List.Sublist.append_left (List.sublist_cons_self ..) _

end DList

end Lib
end Coffer
