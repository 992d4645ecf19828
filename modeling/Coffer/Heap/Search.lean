/-
# The best fit

`search_fit_node` starts in the bin of the requested size and goes up. The index of a bin grows with the size, so a
node in a lower bin is too small, and a node in a higher bin is larger than any in a lower one; within a bin the
first node that fits is the smallest. `search_best_fit` says that what is found is a smallest node of all bins that
is large enough, and that nothing is found only if there is none.

Key theorems: `getBinIndex_mono`, `bestFitLoop_eq`, `searchLoop_spec`, `search_best_fit`.
-/
import Coffer.Heap.Heap

namespace Coffer
namespace Heap

open Lib

/-! ### The index of a size -/

theorem shiftCount_mono (n : ℕ) {a b : ℕ} (h : a ≤ b) : shiftCount n a ≤ shiftCount n b := by
  induction n generalizing a b with
  | zero => exact le_refl _
  | succ n ih =>
    have := ih (Nat.div_le_div_right h : a / 2 ≤ b / 2)
    unfold shiftCount
    split_ifs <;> omega

theorem getBinIndex_mono {a b : ℕ} (h : a ≤ b) : getBinIndex a ≤ getBinIndex b := by
  have hle : (if a < 4 then 4 else a) ≤ if b < 4 then 4 else b := by split_ifs <;> omega
  have hcount := shiftCount_mono 64 hle
  unfold getBinIndex
  simp only []
  generalize shiftCount 64 (if a < 4 then 4 else a) = x at *
  generalize shiftCount 64 (if b < 4 then 4 else b) = y at *
  split_ifs <;> omega

theorem getBinIndex_lt (sz : ℕ) : getBinIndex sz < binCount := by
  unfold getBinIndex binCount
  simp only []
  split_ifs <;> omega

/-! ### One bin -/

theorem bestFitLoop_eq {m : Mem} {size n temp : ℕ} {l : List ℕ} (hs : Seg 0 (nodeNext m) temp l 0) (hn : l.length < n) :
    bestFitLoop m size n temp = some ((l.find? fun a => size ≤ nodeSize m a).getD 0) := by
  induction l generalizing n temp with
  | nil =>
    obtain ⟨n, rfl⟩ := Nat.exists_eq_add_of_lt hn
    have h0 : temp = 0 := hs
    simp [bestFitLoop, h0]
  | cons x l ih =>
    obtain ⟨rfl, hx, hs⟩ := hs
    rw [List.length_cons] at hn
    obtain ⟨n, rfl⟩ : ∃ k, n = k + 1 := ⟨n - 1, by omega⟩
    rw [bestFitLoop, if_neg hx]
    by_cases hsz : size ≤ nodeSize m temp
    · rw [if_pos hsz, List.find?_cons_of_pos (by simpa using hsz), Option.getD_some]
    · rw [if_neg hsz, List.find?_cons_of_neg (by simpa using hsz)]
      exact ih hs (by omega)

/-- `get_best_fit` returns the first node that is large enough. -/
theorem getBestFit_eq {m : Mem} {head size : ℕ} {l : List ℕ} (h : BinList m head l) :
    getBestFit m head size = some ((l.find? fun a => size ≤ nodeSize m a).getD 0) := by
  unfold getBestFit
  split_ifs with h0
  · rw [h.links.seg.eq_nil_iff.mpr h0]
    rfl
  · exact bestFitLoop_eq h.links.seg (h.headers.length_lt h.links.nodup)

theorem find?_smallest {m : Mem} {size a b : ℕ} {l : List ℕ} (hs : Sorted m l)
    (ha : (l.find? fun a => size ≤ nodeSize m a) = some a) (hb : b ∈ l) (hsz : size ≤ nodeSize m b) :
    nodeSize m a ≤ nodeSize m b := by
  induction l with
  | nil => cases hb
  | cons x l ih =>
    obtain ⟨hx, hl⟩ := List.pairwise_cons.mp hs
    by_cases hfit : size ≤ nodeSize m x
    · rw [List.find?_cons_of_pos (by simpa using hfit), Option.some.injEq] at ha
      subst ha
      rcases List.mem_cons.mp hb with rfl | hb
      · exact le_refl _
      · exact hx b hb
    · rw [List.find?_cons_of_neg (by simpa using hfit)] at ha
      rcases List.mem_cons.mp hb with rfl | hb
      · exact absurd hsz hfit
      · exact ih hl ha hb

/-! ### All bins -/

section Search

variable {h : Heap} {lists : ℕ → List ℕ} {size : ℕ}

/-- The scan from bin `index` on: the first bin with a node that fits, and the first such node there. -/
theorem searchLoop_spec {n index : ℕ} (hb : ∀ i < index + n, BinList h.mem (h.bins i) (lists i)) :
    (h.searchLoop size n index = some (0, 2 ^ 32 - 1) ∧
      ∀ i, index ≤ i → i < index + n → ∀ a ∈ lists i, nodeSize h.mem a < size) ∨
    ∃ a i, h.searchLoop size n index = some (a, i) ∧ a ≠ 0 ∧ index ≤ i ∧ i < index + n ∧
      (lists i).find? (fun a => size ≤ nodeSize h.mem a) = some a ∧
      ∀ j, index ≤ j → j < i → ∀ b ∈ lists j, nodeSize h.mem b < size := by
  induction n generalizing index with
  | zero => exact Or.inl ⟨rfl, fun i h1 h2 => by omega⟩
  | succ n ih =>
    have hbin := hb index (by omega)
    rw [searchLoop, getBestFit_eq hbin]
    simp only [Option.bind_eq_bind, Option.bind_some]
    cases hf : (lists index).find? fun a => size ≤ nodeSize h.mem a with
    | some a =>
      have ha : a ≠ 0 := hbin.links.seg.ne_null (List.mem_of_find?_eq_some hf)
      refine Or.inr ⟨a, index, ?_, ha, le_refl _, by omega, hf, fun j h1 h2 => by omega⟩
      rw [Option.getD_some, if_pos ha]
    | none =>
      have hsmall : ∀ a ∈ lists index, nodeSize h.mem a < size := by
        intro a ha
        simpa using List.find?_eq_none.mp hf a ha
      rw [Option.getD_none, if_neg (by simp)]
      have hb' : ∀ i < index + 1 + n, BinList h.mem (h.bins i) (lists i) := fun i hi => hb i (by omega)
      rcases ih hb' with ⟨hr, hall⟩ | ⟨a, i, hr, ha, h1, h2, hf', hall⟩
      · refine Or.inl ⟨hr, fun i h1 h2 => ?_⟩
        rcases Nat.eq_or_lt_of_le h1 with rfl | h1
        · exact hsmall
        · exact hall i h1 (by omega)
      · refine Or.inr ⟨a, i, hr, ha, by omega, by omega, hf', fun j h1 h2 => ?_⟩
        rcases Nat.eq_or_lt_of_le h1 with rfl | h1
        · exact hsmall
        · exact hall j h1 h2

/-- Bins as the heap keeps them: sorted lists, with every node in the bin of its size. -/
def BinsSorted (h : Heap) (lists : ℕ → List ℕ) : Prop :=
  ∀ i < binCount, Shape h.mem (h.bins i) (lists i) ∧ ∀ a ∈ lists i, getBinIndex (nodeSize h.mem a) = i

/-- **Complete global best fit.** `search_fit_node` returns a node of minimal size among all that are large enough,
with its bin, and null exactly if there is none. -/
theorem search_best_fit (h : Heap) (lists : ℕ → List ℕ) (hb : BinsSorted h lists) (size : ℕ) :
    ∃ found index, h.searchFitNode size = some (found, index) ∧
      (found = 0 ↔ ∀ i < binCount, ∀ a ∈ lists i, nodeSize h.mem a < size) ∧
      (found = 0 → index = 2 ^ 32 - 1) ∧
      (found ≠ 0 → index < binCount ∧ found ∈ lists index ∧ size ≤ nodeSize h.mem found ∧
        ∀ i < binCount, ∀ a ∈ lists i, size ≤ nodeSize h.mem a → nodeSize h.mem found ≤ nodeSize h.mem a) := by
  have hlt := getBinIndex_lt size
  -- nodes below the first bin are too small
  have hlow {i a : ℕ} (hi : i < binCount) (hil : i < getBinIndex size) (ha : a ∈ lists i) : nodeSize h.mem a < size := by
    by_contra hge
    have := getBinIndex_mono (not_lt.mp hge)
    rw [(hb i hi).2 a ha] at this
    omega
  have hscan := @searchLoop_spec h lists size (binCount - getBinIndex size) (getBinIndex size)
    fun i hi => (hb i (by omega)).1.toBinList
  rcases hscan with ⟨hr, hall⟩ | ⟨a, i, hr, ha, h1, h2, hf, hall⟩
  · refine ⟨0, _, hr, ⟨fun _ i hi a ha => ?_, fun _ => rfl⟩, fun _ => rfl, fun h0 => absurd rfl h0⟩
    by_cases hil : i < getBinIndex size
    · exact hlow hi hil ha
    · exact hall i (by omega) (by omega) a ha
  · have hi : i < binCount := by omega
    have hmem := List.mem_of_find?_eq_some hf
    have hfit : size ≤ nodeSize h.mem a := by simpa using List.find?_some hf
    refine ⟨a, i, hr, ⟨fun h0 => absurd h0 ha, fun hno => absurd (hno i hi a hmem) (not_lt.mpr hfit)⟩,
      fun h0 => absurd h0 ha, fun _ => ⟨hi, hmem, hfit, fun j hj b hbj hsz => ?_⟩⟩
    rcases lt_trichotomy j i with hji | rfl | hji
    · by_cases hjl : j < getBinIndex size
      · exact absurd (hlow hj hjl hbj) (not_lt.mpr hsz)
      · exact absurd (hall j (by omega) hji b hbj) (not_lt.mpr hsz)
    · exact find?_smallest (hb j hj).1.sorted hf hbj hsz
    · -- a higher bin has larger nodes
      by_contra hgt
      have := getBinIndex_mono (le_of_lt (not_le.mp hgt))
      rw [(hb j hj).2 b hbj, (hb i hi).2 a hmem] at this
      omega

/-- A node of size 100, alone in its bin. -/
def oneNode : Heap := ⟨64, 204, fun i => if i = 4 then 64 else 0, setSize (fun _ => 0) 64 100, .blank, []⟩

theorem oneNode_sorted : BinsSorted oneNode fun i => if i = 4 then [64] else [] := by
  intro i _
  by_cases hi : i = 4
  · subst hi
    have hsize : nodeSize oneNode.mem 64 = 100 := by decide
    have hnext : nodeNext oneNode.mem 64 = 0 := by decide
    refine ⟨⟨⟨⟨⟨rfl, by decide, hnext⟩, List.isChain_singleton _, List.nodup_singleton _⟩, ⟨?_, by simp⟩⟩,
      List.pairwise_singleton _ _⟩, ?_⟩
    · intro a ha b hb
      rw [List.mem_singleton.mp ha, List.mem_singleton.mp hb]
      exact Or.inl rfl
    · intro a ha
      rw [List.mem_singleton.mp ha, hsize]
      decide
  · have hbin : oneNode.bins i = 0 := if_neg hi
    simp only [if_neg hi, hbin]
    exact ⟨shape_empty _, by simp⟩

/-- A request of 80 bytes is met. -/
theorem search_best_fit_one : BinsSorted oneNode (fun i => if i = 4 then [64] else []) ∧
    ∃ found index, oneNode.searchFitNode 80 = some (found, index) ∧ found ≠ 0 ∧ 80 ≤ nodeSize oneNode.mem found := by
  obtain ⟨found, index, hr, hnull, -, hfound⟩ := search_best_fit oneNode _ oneNode_sorted 80
  have h0 : found ≠ 0 := fun h0 => absurd (hnull.mp h0 4 (by decide) 64 (by decide)) (by decide)
  exact ⟨oneNode_sorted, found, index, hr, h0, (hfound h0).2.2.1⟩

end Search

end Heap
end Coffer
