/-
# Well-formed heaps

A heap is well formed when chunks lie one behind the other from its start to its end, with their sizes and flags in
the headers and their addresses in the footers, and the holes are exactly the members of the bins, each in the bin
of its size. `HeapOk h cs` says this with the list `cs` of the chunks; it is determined by the memory
(`HeapOk.unique`).

The functions of the heap write headers and footers of a few chunks and the links of holes. `Agree` says so of two
memories; it is what keeps the other chunks as they are. `Bins` is what the bins hold, without mention of sizes:
between removing a node and adding it again the sizes may be anything.

Key definitions: `Chunk`, `Tiles`, `ChunkOk`, `Bins`, `HeapOk`, `Agree`.
Key theorems: `Bins.add`, `Bins.remove`, `binOf_middle`, `HeapOk.unique`.
-/
import Coffer.Heap.Search

namespace Coffer
namespace Heap

open Lib

/-! ### What the bins hold -/

/-- `m'` has the memory of `m` outside `[lo, hi)` and the links of the nodes `S`. -/
def Agree (S : ℕ → Prop) (lo hi : ℕ) (m m' : Mem) : Prop :=
  ∀ x, (x < lo ∨ hi ≤ x) → (∀ a, S a → x < a + 16 ∨ a + 32 ≤ x) → m' x = m x

namespace Agree

variable {S S' : ℕ → Prop} {lo hi lo' hi' a n v : ℕ} {m m' m'' : Mem}

theorem refl : Agree S lo hi m m := fun _ _ _ => rfl

theorem trans (h : Agree S lo hi m m') (h' : Agree S lo hi m' m'') : Agree S lo hi m m'' :=
  fun x hx hS => (h' x hx hS).trans (h x hx hS)

theorem mono (h : Agree S lo hi m m') (hlo : lo' ≤ lo) (hhi : hi ≤ hi')
    (hS : ∀ a, S a → S' a ∨ lo' ≤ a + 16 ∧ a + 32 ≤ hi') : Agree S' lo' hi' m m' := by
  refine fun x hx hS' => h x (by omega) fun a ha => ?_
  rcases hS a ha with ha | ⟨h1, h2⟩
  · exact hS' a ha
  · omega

theorem store (h1 : lo ≤ a) (h2 : a + n ≤ hi) : Agree S lo hi m (m.store a n v) :=
  fun x hx _ => Mem.store_out m (by omega)

theorem of_links (h : Agree S 0 0 m m') : Agree S lo hi m m' := fun x _ hS => h x (Or.inr (Nat.zero_le x)) hS

end Agree

/-- A list of a bin does not feel the links of other nodes. -/
theorem BinList.keep {m m' : Mem} {l l' : List ℕ} {head : ℕ} (hl : BinList m head l) (hlo : LinksOnly l' m m')
    (hap : ∀ a ∈ l, ∀ b ∈ l', Apart a b) : BinList m' head l := by
  have hload {a k : ℕ} (ha : a ∈ l) (hk : k = 16 ∨ k = 24) : m'.load (a + k) 8 = m.load (a + k) 8 :=
    hlo.load fun b hb => by
      have := hap a ha b hb
      unfold Apart at this
      omega
  exact ⟨hl.links.congr (fun a ha => hload ha (Or.inl rfl)) fun a ha => hload ha (Or.inr rfl), hl.headers⟩

/-- The bins hold the nodes that `w` gives an index, each in the bin of its index. -/
structure Bins (m : Mem) (bins : ℕ → ℕ) (w : ℕ → Option ℕ) : Prop where
  list : ∀ i < binCount, ∃ l, BinList m (bins i) l ∧ ∀ a, a ∈ l ↔ w a = some i
  lt : ∀ a i, w a = some i → i < binCount
  apart : ∀ a b, (w a).isSome → (w b).isSome → a = b ∨ Apart a b

namespace Bins

variable {m m' : Mem} {bins : ℕ → ℕ} {w : ℕ → Option ℕ} {node index : ℕ}

/-- Only the links of the members matter. -/
theorem congr (h : Bins m bins w) (he : ∀ a, (w a).isSome → ∀ x, a + 16 ≤ x → x < a + 32 → m' x = m x) :
    Bins m' bins w := by
  refine ⟨fun i hi => ?_, h.lt, h.apart⟩
  obtain ⟨l, hl, hmem⟩ := h.list i hi
  have hload {a k : ℕ} (ha : a ∈ l) (hk : k = 16 ∨ k = 24) : m'.load (a + k) 8 = m.load (a + k) 8 :=
    Mem.load_congr fun x h1 h2 => he a (by rw [(hmem a).mp ha]; rfl) x (by omega) (by omega)
  exact ⟨l, ⟨hl.links.congr (fun a ha => hload ha (Or.inl rfl)) fun a ha => hload ha (Or.inr rfl), hl.headers⟩, hmem⟩

theorem add (h : Bins m bins w) (hi : index < binCount) (hnew : w node = none)
    (hap : ∀ a, (w a).isSome → Apart node a) (h0 : node ≠ 0) (hb : node + 32 ≤ 2 ^ 64) :
    ∃ head m', addNode m (bins index) node = some (head, m') ∧
      Bins m' (Function.update bins index head) (Function.update w node (some index)) ∧
      ∀ x, (∀ a, a = node ∨ (w a).isSome → x < a + 16 ∨ a + 32 ≤ x) → m' x = m x := by
  obtain ⟨l, hl, hmem⟩ := h.list index hi
  have hsome {a : ℕ} (ha : a ∈ l) : (w a).isSome := by
    rw [(hmem a).mp ha]
    rfl
  have hnode : node ∉ l := by
    intro hm
    rw [(hmem node).mp hm] at hnew
    cases hnew
  have hapart : ∀ a b, a = node ∨ (w a).isSome → b = node ∨ (w b).isSome → a = b ∨ Apart a b := by
    rintro a b (rfl | ha) (rfl | hb)
    · exact Or.inl rfl
    · exact Or.inr (hap b hb)
    · exact Or.inr (hap a ha).symm
    · exact h.apart a b ha hb
  have hin {a : ℕ} (ha : a ∈ node :: l) : a = node ∨ (w a).isSome := by
    rcases List.mem_cons.mp ha with rfl | ha
    · exact Or.inl rfl
    · exact Or.inr (hsome ha)
  have hh : Headers (node :: l) := by
    refine ⟨fun a ha b hb => hapart a b (hin ha) (hin hb), fun a ha => ?_⟩
    rcases List.mem_cons.mp ha with rfl | ha
    · exact hb
    · exact hl.headers.bound a ha
  obtain ⟨head, m', hr, hlo, hbin⟩ := hl.add hh hnode h0
  have hperm := below_append_above m (nodeSize m node) l
  refine ⟨head, m', hr, ⟨fun i hi' => ?_, fun a i hai => ?_, fun a b ha hb' => ?_⟩, fun x hx => ?_⟩
  · by_cases he : i = index
    · subst he
      rw [Function.update_self]
      refine ⟨_, hbin, fun a => ?_⟩
      rw [List.mem_append, List.mem_cons]
      by_cases han : a = node
      · simp [han]
      · rw [Function.update_of_ne han, ← hmem a, ← hperm, List.mem_append, hperm]
        tauto
    · rw [Function.update_of_ne he]
      obtain ⟨l', hl', hmem'⟩ := h.list i hi'
      refine ⟨l', hl'.keep hlo fun a ha b hb' => ?_, fun a => ?_⟩
      · have hai := (hmem' a).mp ha
        refine (hapart a b (Or.inr (by rw [hai]; rfl)) (hin hb')).resolve_left ?_
        rintro rfl
        rcases List.mem_cons.mp hb' with rfl | hb'
        · rw [hnew] at hai
          cases hai
        · rw [(hmem a).mp hb', Option.some.injEq] at hai
          exact he hai.symm
      · rw [hmem' a]
        by_cases han : a = node
        · subst han
          rw [Function.update_self, hnew]
          simp [Ne.symm he]
        · rw [Function.update_of_ne han]
  · by_cases han : a = node
    · subst han
      rw [Function.update_self, Option.some.injEq] at hai
      exact hai ▸ hi
    · rw [Function.update_of_ne han] at hai
      exact h.lt a i hai
  · refine hapart a b ?_ ?_
    · by_cases han : a = node
      · exact Or.inl han
      · rw [Function.update_of_ne han] at ha
        exact Or.inr ha
    · by_cases hbn : b = node
      · exact Or.inl hbn
      · rw [Function.update_of_ne hbn] at hb'
        exact Or.inr hb'
  · exact hlo x fun a ha => hx a (hin ha)

theorem remove (h : Bins m bins w) (hw : w node = some index) :
    ∃ head m', removeNode m (bins index) node = some (head, m') ∧
      Bins m' (Function.update bins index head) (Function.update w node none) ∧
      ∀ x, (∀ a, (w a).isSome → x < a + 16 ∨ a + 32 ≤ x) → m' x = m x := by
  obtain ⟨l, hl, hmem⟩ := h.list index (h.lt node index hw)
  have hsome {a : ℕ} (ha : a ∈ l) : (w a).isSome := by
    rw [(hmem a).mp ha]
    rfl
  obtain ⟨head, m', hr, hlo, hbin⟩ := hl.remove ((hmem node).mpr hw)
  have hold {a : ℕ} (ha : (Function.update w node none a).isSome) : (w a).isSome := by
    by_cases han : a = node
    · rw [han, hw]
      rfl
    · rwa [Function.update_of_ne han] at ha
  refine ⟨head, m', hr, ⟨fun i hi' => ?_, fun a i hai => ?_, fun a b ha hb => h.apart a b (hold ha) (hold hb)⟩,
    fun x hx => hlo x fun a ha => hx a (hsome (List.mem_of_mem_erase ha))⟩
  · by_cases he : i = index
    · subst he
      rw [Function.update_self]
      refine ⟨_, hbin, fun a => ?_⟩
      rw [hl.links.nodup.mem_erase_iff, hmem a]
      by_cases han : a = node
      · simp [han]
      · simp [han]
    · rw [Function.update_of_ne he]
      obtain ⟨l', hl', hmem'⟩ := h.list i hi'
      refine ⟨l', hl'.keep hlo fun a ha b hb => ?_, fun a => ?_⟩
      · have hai := (hmem' a).mp ha
        have hbl := List.mem_of_mem_erase hb
        refine (h.apart a b (by rw [hai]; rfl) (hsome hbl)).resolve_left ?_
        rintro rfl
        rw [(hmem a).mp hbl, Option.some.injEq] at hai
        exact he hai.symm
      · rw [hmem' a]
        by_cases han : a = node
        · subst han
          rw [Function.update_self, hw]
          simp [Ne.symm he]
        · rw [Function.update_of_ne han]
  · by_cases han : a = node
    · subst han
      rw [Function.update_self] at hai
      cases hai
    · rw [Function.update_of_ne han] at hai
      exact h.lt a i hai

end Bins

section BinOps

variable {h : Heap} {w : ℕ → Option ℕ} {node index : ℕ}

theorem binAdd_ok (hb : Bins h.mem h.bins w) (hi : index < binCount) (hnew : w node = none)
    (hap : ∀ a, (w a).isSome → Apart node a) (h0 : node ≠ 0) (hbd : node + 32 ≤ 2 ^ 64) :
    ∃ bins m, h.binAdd index node = .ok { h with bins := bins, mem := m } ∧
      Bins m bins (Function.update w node (some index)) ∧ Agree (fun a => a = node ∨ (w a).isSome) 0 0 h.mem m := by
  obtain ⟨head, m, hr, hbins, hm⟩ := hb.add hi hnew hap h0 hbd
  refine ⟨_, m, ?_, hbins, fun x _ => hm x⟩
  rw [binAdd, hr]
  rfl

theorem binRemove_ok (hb : Bins h.mem h.bins w) (hw : w node = some index) :
    ∃ bins m, h.binRemove index node = .ok { h with bins := bins, mem := m } ∧
      Bins m bins (Function.update w node none) ∧ Agree (fun a => (w a).isSome) 0 0 h.mem m := by
  obtain ⟨head, m, hr, hbins, hm⟩ := hb.remove hw
  refine ⟨_, m, ?_, hbins, fun x _ => hm x⟩
  rw [binRemove, hr]
  rfl

end BinOps

/-! ### Chunks -/

/-- A chunk: the address of its header, the size of its payload, and whether it is a hole. -/
structure Chunk where
  addr : ℕ
  size : ℕ
  hole : Bool
deriving DecidableEq, Repr

namespace Chunk

/-- The address of the footer. -/
def foot (c : Chunk) : ℕ := c.addr + 32 + c.size

/-- The address behind the chunk. -/
def stop (c : Chunk) : ℕ := c.addr + overhead + c.size

theorem stop_eq (c : Chunk) : c.stop = c.foot + 8 := by
  unfold stop foot overhead
  omega

theorem addr_lt (c : Chunk) : c.addr + 32 ≤ c.foot ∧ c.addr + 40 ≤ c.stop := by
  unfold stop foot overhead
  omega

end Chunk

/-- Chunks one behind the other, from `a` to `b`. -/
def Tiles : ℕ → List Chunk → ℕ → Prop
  | a, [], b => a = b
  | a, c :: cs, b => c.addr = a ∧ Tiles c.stop cs b

/-- Tiling can be tested. -/
def decTiles : ∀ (a : ℕ) (cs : List Chunk) (b : ℕ), Decidable (Tiles a cs b)
  | a, [], b => inferInstanceAs (Decidable (a = b))
  | a, c :: cs, b =>
    have := decTiles c.stop cs b
    inferInstanceAs (Decidable (c.addr = a ∧ Tiles c.stop cs b))

instance (a : ℕ) (cs : List Chunk) (b : ℕ) : Decidable (Tiles a cs b) := decTiles a cs b

section Tiles

variable {a b : ℕ} {c d : Chunk} {cs l₁ l₂ : List Chunk}

theorem tiles_append : Tiles a (l₁ ++ l₂) b ↔ ∃ x, Tiles a l₁ x ∧ Tiles x l₂ b := by
  induction l₁ generalizing a with
  | nil => simp [Tiles]
  | cons c l₁ ih => simp only [List.cons_append, Tiles, ih, exists_and_left, and_assoc]

theorem tiles_concat : Tiles a (cs ++ [c]) b ↔ Tiles a cs c.addr ∧ c.stop = b := by
  rw [tiles_append]
  constructor
  · rintro ⟨x, h1, rfl, h2⟩
    exact ⟨h1, h2⟩
  · rintro ⟨h1, h2⟩
    exact ⟨_, h1, rfl, h2⟩

theorem tiles_middle : Tiles a (l₁ ++ c :: l₂) b ↔ Tiles a l₁ c.addr ∧ Tiles c.stop l₂ b := by
  rw [tiles_append]
  constructor
  · rintro ⟨x, h1, rfl, h2⟩
    exact ⟨h1, h2⟩
  · rintro ⟨h1, h2⟩
    exact ⟨_, h1, rfl, h2⟩

theorem Tiles.le (h : Tiles a cs b) : a ≤ b := by
  induction cs generalizing a with
  | nil => exact le_of_eq h
  | cons c cs ih =>
    have := ih h.2
    have := c.addr_lt
    have := h.1
    omega

theorem Tiles.bounds (h : Tiles a cs b) (hc : c ∈ cs) : a ≤ c.addr ∧ c.stop ≤ b := by
  obtain ⟨l₁, l₂, rfl⟩ := List.append_of_mem hc
  obtain ⟨h1, h2⟩ := tiles_middle.mp h
  exact ⟨h1.le, h2.le⟩

theorem Tiles.unique {b' : ℕ} (h : Tiles a cs b) (h' : Tiles a cs b') : b = b' := by
  induction cs generalizing a with
  | nil => exact h.symm.trans h'
  | cons c cs ih => exact ih h.2 h'.2

/-- Every chunk lies before those behind it. -/
theorem Tiles.pairwise (h : Tiles a cs b) : cs.Pairwise fun c d => c.stop ≤ d.addr := by
  induction cs generalizing a with
  | nil => exact List.Pairwise.nil
  | cons c cs ih => exact List.pairwise_cons.mpr ⟨fun d hd => (h.2.bounds hd).1, ih h.2⟩

/-- Two chunks are one, or have no byte in common. -/
theorem Tiles.disjoint (h : Tiles a cs b) (hc : c ∈ cs) (hd : d ∈ cs) :
    c = d ∨ c.stop ≤ d.addr ∨ d.stop ≤ c.addr := by
  induction cs generalizing a with
  | nil => cases hc
  | cons x cs ih =>
    rcases List.mem_cons.mp hc with rfl | hc'
    · rcases List.mem_cons.mp hd with rfl | hd'
      · exact Or.inl rfl
      · exact Or.inr (Or.inl (h.2.bounds hd').1)
    · rcases List.mem_cons.mp hd with rfl | hd'
      · exact Or.inr (Or.inr (h.2.bounds hc').1)
      · exact ih h.2 hc' hd'

/-- Chunks are told apart by their addresses. -/
theorem Tiles.addr_inj (h : Tiles a cs b) (hc : c ∈ cs) (hd : d ∈ cs) (he : c.addr = d.addr) : c = d := by
  have h1 := c.addr_lt
  have h2 := d.addr_lt
  rcases h.disjoint hc hd with hcd | hcd | hcd
  · exact hcd
  · omega
  · omega

end Tiles

/-! ### Chunks in memory -/

section Fields

variable {m : Mem} {a b v : ℕ}

theorem nodeSize_setSize (hv : v < 2 ^ 64) : nodeSize (setSize m a v) a = v := by
  rw [nodeSize, setSize, Mem.load_store_self]
  exact Nat.mod_eq_of_lt hv

theorem nodeSize_setHole : nodeSize (setHole m a v) a = nodeSize m a := Mem.load_store_disj m (by omega)

theorem nodeHole_setHole (hv : v < 2 ^ 32) : nodeHole (setHole m a v) a = v := by
  rw [nodeHole, setHole, Mem.load_store_self]
  exact Nat.mod_eq_of_lt hv

theorem nodeHole_setSize : nodeHole (setSize m a v) a = nodeHole m a := Mem.load_store_disj m (by omega)

theorem nodeSize_store {n : ℕ} (h : a + n ≤ b ∨ b + 16 ≤ a) : nodeSize (m.store a n v) b = nodeSize m b :=
  Mem.load_store_disj m (by omega)

theorem nodeHole_store {n : ℕ} (h : a + n ≤ b ∨ b + 16 ≤ a) : nodeHole (m.store a n v) b = nodeHole m b :=
  Mem.load_store_disj m (by omega)

end Fields

/-- The header and the footer of a chunk. -/
structure ChunkOk (m : Mem) (c : Chunk) : Prop where
  size : nodeSize m c.addr = c.size
  hole : nodeHole m c.addr = c.hole.toNat
  foot : m.load c.foot 8 = c.addr

theorem chunkOk_iff (m : Mem) (c : Chunk) : ChunkOk m c ↔
    nodeSize m c.addr = c.size ∧ nodeHole m c.addr = c.hole.toNat ∧ m.load c.foot 8 = c.addr :=
  ⟨fun h => ⟨h.size, h.hole, h.foot⟩, fun h => ⟨h.1, h.2.1, h.2.2⟩⟩

instance (m : Mem) (c : Chunk) : Decidable (ChunkOk m c) := decidable_of_iff _ (chunkOk_iff m c).symm

namespace ChunkOk

variable {m m' : Mem} {c : Chunk}

/-- A chunk is its size, its flag and its footer. -/
theorem congr (h : ChunkOk m c) (hhead : ∀ x, c.addr ≤ x → x < c.addr + 16 → m' x = m x)
    (hfoot : ∀ x, c.foot ≤ x → x < c.foot + 8 → m' x = m x) : ChunkOk m' c := by
  refine ⟨?_, ?_, ?_⟩
  · rw [← h.size]
    exact Mem.load_congr fun x h1 h2 => hhead x (by omega) (by omega)
  · rw [← h.hole]
    exact Mem.load_congr fun x h1 h2 => hhead x h1 (by omega)
  · rw [← h.foot]
    exact Mem.load_congr fun x h1 h2 => hfoot x h1 h2

/-- A chunk outside the region that was written, whose links may have been. -/
theorem agree {S : ℕ → Prop} {lo hi : ℕ} (h : ChunkOk m c) (ha : Agree S lo hi m m') (hc : c.stop ≤ lo ∨ hi ≤ c.addr)
    (hS : ∀ a, S a → a = c.addr ∨ a + 32 ≤ c.addr ∨ c.stop ≤ a) : ChunkOk m' c := by
  have hlt := c.addr_lt
  have hstop := c.stop_eq
  refine h.congr (fun x h1 h2 => ha x (by omega) fun a haS => ?_) fun x h1 h2 => ha x (by omega) fun a haS => ?_
  · have := hS a haS
    omega
  · have := hS a haS
    omega

theorem size_lt (h : ChunkOk m c) : c.size < 2 ^ 64 := h.size ▸ nodeSize_lt

/-- What is written outside the chunk. -/
theorem store {a n v : ℕ} (h : ChunkOk m c) (ha : a + n ≤ c.addr ∨ c.stop ≤ a) : ChunkOk (m.store a n v) c := by
  have hlt := c.addr_lt
  have heq := c.stop_eq
  exact h.congr (fun x h1 h2 => Mem.store_out _ (by omega)) fun x h1 h2 => Mem.store_out _ (by omega)

end ChunkOk

/-- A chunk gets its size and its footer. -/
theorem createFoot_eq {m : Mem} {c : Chunk} (hs : nodeSize m c.addr = c.size) (hb : c.stop < 2 ^ 64) :
    createFoot m c.addr = m.store c.foot 8 c.addr := by
  have heq := c.stop_eq
  rw [createFoot, getFoot, hs, add64_eq]
  · rfl
  · show c.foot < 2 ^ 64
    omega

theorem ChunkOk.resize {m : Mem} {c : Chunk} (hh : nodeHole m c.addr = c.hole.toNat) (hb : c.stop < 2 ^ 64) :
    createFoot (setSize m c.addr c.size) c.addr = (setSize m c.addr c.size).store c.foot 8 c.addr ∧
      ChunkOk ((setSize m c.addr c.size).store c.foot 8 c.addr) c := by
  have hlt := c.addr_lt
  have heq := c.stop_eq
  have hsize : c.size < 2 ^ 64 := by
    have : c.stop = c.addr + 40 + c.size := rfl
    omega
  have hs : nodeSize (setSize m c.addr c.size) c.addr = c.size := nodeSize_setSize hsize
  refine ⟨createFoot_eq hs hb, ?_, ?_, ?_⟩
  · rw [nodeSize_store (by omega), hs]
  · rw [nodeHole_store (by omega), nodeHole_setSize, hh]
  · rw [Mem.load_store_self]
    exact Nat.mod_eq_of_lt (by omega)

/-- The bin of a hole. -/
def Chunk.bin (c : Chunk) : Option ℕ := if c.hole then some (getBinIndex c.size) else none

theorem Chunk.bin_hole {c : Chunk} (hc : c.hole = true) : c.bin = some (getBinIndex c.size) := by
  rw [Chunk.bin, if_pos hc]

theorem Chunk.bin_used {c : Chunk} (hc : c.hole = false) : c.bin = none := by
  rw [Chunk.bin, hc]
  rfl

/-- The bins that the holes of `cs` belong into. -/
def binOf (cs : List Chunk) (a : ℕ) : Option ℕ := (cs.find? fun c => c.addr = a).bind Chunk.bin

/-- **A well-formed heap.** -/
structure HeapOk (h : Heap) (cs : List Chunk) : Prop where
  pos : 0 < h.start
  tiles : Tiles h.start cs h.stop
  bound : h.stop < 2 ^ 64
  chunk : ∀ c ∈ cs, ChunkOk h.mem c
  bins : Bins h.mem h.bins (binOf cs)

/-- The last chunk is a hole. -/
def LastHole (cs : List Chunk) : Prop := ∃ l w, cs = l ++ [w] ∧ w.hole = true

section BinOf

variable {cs l₁ l₂ : List Chunk} {c : Chunk} {a b : ℕ}

theorem binOf_isSome (h : (binOf cs a).isSome) : ∃ c ∈ cs, c.addr = a ∧ c.hole = true := by
  unfold binOf at h
  cases hf : cs.find? fun c => c.addr = a with
  | none =>
    rw [hf] at h
    cases h
  | some c =>
    rw [hf, Option.bind_some, Chunk.bin] at h
    refine ⟨c, List.mem_of_find?_eq_some hf, by simpa using List.find?_some hf, ?_⟩
    by_contra hh
    rw [if_neg hh] at h
    cases h

theorem binOf_middle (h : ∀ d ∈ l₁ ++ l₂, d.addr ≠ c.addr) :
    binOf (l₁ ++ c :: l₂) = Function.update (binOf (l₁ ++ l₂)) c.addr c.bin := by
  funext x
  by_cases hx : x = c.addr
  · subst hx
    rw [Function.update_self, binOf, List.find?_append]
    have hnone : l₁.find? (fun d => d.addr = c.addr) = none :=
      List.find?_eq_none.mpr fun d hd => by simpa using h d (List.mem_append_left _ hd)
    rw [hnone, Option.none_or, List.find?_cons_of_pos (by simp), Option.bind_some]
  · rw [Function.update_of_ne hx, binOf, binOf, List.find?_append, List.find?_append,
      List.find?_cons_of_neg (by simpa using Ne.symm hx)]

theorem binOf_mem (h : Tiles a cs b) (hc : c ∈ cs) : binOf cs c.addr = c.bin := by
  obtain ⟨l₁, l₂, rfl⟩ := List.append_of_mem hc
  rw [binOf_middle, Function.update_self]
  obtain ⟨h1, h2⟩ := tiles_middle.mp h
  have hlt := c.addr_lt
  intro d hd
  rcases List.mem_append.mp hd with hd | hd
  · have := (h1.bounds hd).2
    have := d.addr_lt
    omega
  · have := (h2.bounds hd).1
    omega

end BinOf

namespace HeapOk

variable {h h' : Heap} {cs cs' : List Chunk} {c : Chunk}

/-- The addresses of a chunk in the heap. -/
theorem bounds (hok : HeapOk h cs) (hc : c ∈ cs) : 0 < c.addr ∧ h.start ≤ c.addr ∧ c.stop ≤ h.stop := by
  have := hok.tiles.bounds hc
  have := hok.pos
  omega

/-- A hole is a node of a bin, a chunk that is no hole is none. -/
theorem bin (hok : HeapOk h cs) (hc : c ∈ cs) : binOf cs c.addr = c.bin := binOf_mem hok.tiles hc

/-- The chunks are determined by the memory. -/
theorem unique (hok : HeapOk h cs) (hok' : HeapOk h cs') : cs = cs' := by
  have key : ∀ {a : ℕ} {l l' : List Chunk}, Tiles a l h.stop → Tiles a l' h.stop → (∀ c ∈ l, ChunkOk h.mem c) →
      (∀ c ∈ l', ChunkOk h.mem c) → l = l' := by
    intro a l
    induction l generalizing a with
    | nil =>
      rintro l' rfl ht' - -
      cases l' with
      | nil => rfl
      | cons d l' =>
        have := ht'.2.le
        have := d.addr_lt
        have := ht'.1
        omega
    | cons c l ih =>
      rintro l' ⟨rfl, ht⟩ ht' hc hc'
      cases l' with
      | nil =>
        have h1 := ht.le
        have h2 := c.addr_lt
        have h3 : c.addr = h.stop := ht'
        omega
      | cons d l' =>
        obtain ⟨ha, ht'⟩ := ht'
        have h1 := hc c (List.mem_cons_self ..)
        have h2 := hc' d (List.mem_cons_self ..)
        have hsize : d.size = c.size := by rw [← h1.size, ← h2.size, ha]
        have hhole : d.hole = c.hole := by
          have : d.hole.toNat = c.hole.toNat := by rw [← h1.hole, ← h2.hole, ha]
          revert this
          cases d.hole <;> cases c.hole <;> simp
        obtain rfl : d = c := by
          cases d
          cases c
          simp_all
        rw [ih ht ht' (fun x hx => hc x (List.mem_cons_of_mem _ hx)) fun x hx => hc' x (List.mem_cons_of_mem _ hx)]
  exact key hok.tiles hok'.tiles hok.chunk hok'.chunk

theorem getWilderness {l : List Chunk} (hok : HeapOk h (l ++ [c])) : h.getWilderness = c.addr := by
  have hc := hok.chunk c (by simp)
  have hstop := (tiles_concat.mp hok.tiles).2
  have heq := c.stop_eq
  have hb := hok.bound
  have hlt := c.addr_lt
  rw [Heap.getWilderness, sub64_eq (by omega) hb, ← hc.foot]
  congr 1
  omega

theorem getFoot (hok : HeapOk h cs) (hc : c ∈ cs) : Heap.getFoot h.mem c.addr = c.foot := by
  have hb := hok.bound
  have hstop := (hok.bounds hc).2.2
  have heq := c.stop_eq
  rw [Heap.getFoot, (hok.chunk c hc).size, add64_eq]
  · rfl
  · show c.foot < 2 ^ 64
    omega

end HeapOk

/-! ### Heaps with a gap

While chunks are cut and joined, the addresses `[lo, hi)` belong to no chunk. They may hold nodes of the bins: `v`
gives their indices. -/

/-- The members of the bins outside the gap. -/
abbrev outer (l₁ l₂ : List Chunk) : ℕ → Prop := fun a => (binOf (l₁ ++ l₂) a).isSome

/-- A well-formed heap but for the gap `[lo, hi)` between the chunks `l₁` and `l₂`. It came from the memory `m₀` with
nothing written outside the gap but links. -/
structure Gap (m₀ : Mem) (h : Heap) (l₁ : List Chunk) (lo hi : ℕ) (l₂ : List Chunk) (v : ℕ → Option ℕ) : Prop where
  pos : 0 < h.start
  before : Tiles h.start l₁ lo
  le : lo ≤ hi
  after : Tiles hi l₂ h.stop
  bound : h.stop < 2 ^ 64
  chunk : ∀ c ∈ l₁ ++ l₂, ChunkOk h.mem c
  room : ∀ a, (v a).isSome → lo ≤ a ∧ a + 32 ≤ hi
  bins : Bins h.mem h.bins fun a => (v a).or (binOf (l₁ ++ l₂) a)
  frame : Agree (outer l₁ l₂) lo hi m₀ h.mem

theorem binOf_gap {a lo hi b : ℕ} {l₁ mid l₂ : List Chunk} (h₁ : Tiles a l₁ lo) (hm : Tiles lo mid hi)
    (h₂ : Tiles hi l₂ b) : binOf (l₁ ++ mid ++ l₂) = fun x => (binOf mid x).or (binOf (l₁ ++ l₂) x) := by
  funext x
  have hrest (hx : lo ≤ x) (hx' : x < hi) : (l₁ ++ l₂).find? (fun c => c.addr = x) = none := by
    refine List.find?_eq_none.mpr fun d hd => ?_
    have hlt := d.addr_lt
    rcases List.mem_append.mp hd with hd | hd
    · have := (h₁.bounds hd).2
      simp
      omega
    · have := (h₂.bounds hd).1
      simp
      omega
  cases hf : mid.find? fun c => c.addr = x with
  | none =>
    have : binOf mid x = none := by rw [binOf, hf, Option.bind_none]
    rw [this, Option.none_or, binOf, binOf, List.find?_append, List.find?_append, hf, List.find?_append, Option.or_none]
  | some c =>
    have hc := List.mem_of_find?_eq_some hf
    have hcx : c.addr = x := by simpa using List.find?_some hf
    have hb := hm.bounds hc
    have hlt := c.addr_lt
    have hnone := hrest (by omega) (by omega)
    rw [List.find?_append, Option.or_eq_none_iff] at hnone
    rw [binOf, binOf, binOf, List.find?_append, List.find?_append, List.find?_append, hnone.1, hnone.2, hf]
    simp

/-- No node. -/
abbrev noNode : ℕ → Option ℕ := fun _ => none

theorem binOf_single (c : Chunk) : binOf [c] = Function.update noNode c.addr c.bin :=
  (binOf_middle (by simp) : binOf ([] ++ c :: []) = _)

theorem update_noNode (a : ℕ) : Function.update noNode a none = noNode := Function.update_eq_self a noNode

namespace Gap

variable {h : Heap} {l₁ l₂ mid : List Chunk} {lo hi a n x node index : ℕ} {v : ℕ → Option ℕ} {m m₀ : Mem} {c : Chunk}

/-- The chunks of a part are taken apart. -/
theorem of_ok (hok : HeapOk h (l₁ ++ mid ++ l₂)) (hm : Tiles lo mid hi) (h₁ : Tiles h.start l₁ lo) :
    Gap h.mem h l₁ lo hi l₂ (binOf mid) := by
  have h₂ : Tiles hi l₂ h.stop := by
    obtain ⟨x, hx, h₂⟩ := tiles_append.mp hok.tiles
    obtain ⟨y, hy, hx⟩ := tiles_append.mp hx
    have : y = lo := hy.unique h₁
    subst this
    have : x = hi := hx.unique hm
    subst this
    exact h₂
  refine ⟨hok.pos, h₁, hm.le, h₂, hok.bound, fun c hc => hok.chunk c ?_, fun a ha => ?_, ?_, Agree.refl⟩
  · simp only [List.mem_append] at hc ⊢
    tauto
  · obtain ⟨c, hc, rfl, -⟩ := binOf_isSome ha
    have := hm.bounds hc
    have := c.addr_lt
    omega
  · rw [← binOf_gap h₁ hm h₂]
    exact hok.bins

theorem of_chunk (hok : HeapOk h (l₁ ++ c :: l₂)) :
    Gap h.mem h l₁ c.addr c.stop l₂ (Function.update noNode c.addr c.bin) := by
  rw [← binOf_single]
  exact of_ok (by simpa using hok) ⟨rfl, rfl⟩ (tiles_middle.mp hok.tiles).1

theorem close (g : Gap m₀ h l₁ lo hi l₂ v) (hm : Tiles lo mid hi) (hc : ∀ c ∈ mid, ChunkOk h.mem c)
    (hv : v = binOf mid) : HeapOk h (l₁ ++ mid ++ l₂) := by
  refine ⟨g.pos, tiles_append.mpr ⟨hi, tiles_append.mpr ⟨lo, g.before, hm⟩, g.after⟩, g.bound, fun c hc' => ?_, ?_⟩
  · simp only [List.mem_append] at hc'
    rcases hc' with (hc' | hc') | hc'
    · exact g.chunk c (List.mem_append_left _ hc')
    · exact hc c hc'
    · exact g.chunk c (List.mem_append_right _ hc')
  · rw [binOf_gap g.before hm g.after, ← hv]
    exact g.bins

theorem fill (g : Gap m₀ h l₁ lo hi l₂ (Function.update noNode lo c.bin)) (h1 : c.addr = lo) (h2 : c.stop = hi)
    (hc : ChunkOk h.mem c) : HeapOk h (l₁ ++ c :: l₂) := by
  have hcs : HeapOk h (l₁ ++ [c] ++ l₂) := g.close ⟨h1, h2⟩ (by simpa using hc) (by rw [binOf_single, h1])
  simpa using hcs

theorem chunk_bounds (g : Gap m₀ h l₁ lo hi l₂ v) (hc : c ∈ l₁ ++ l₂) :
    0 < c.addr ∧ c.stop ≤ h.stop ∧ (c.stop ≤ lo ∨ hi ≤ c.addr) := by
  have hpos := g.pos
  have hle := g.le
  have hb := g.before.le
  have ha := g.after.le
  have hlt := c.addr_lt
  rcases List.mem_append.mp hc with hc | hc
  · have := g.before.bounds hc
    omega
  · have := g.after.bounds hc
    omega

theorem disjoint (g : Gap m₀ h l₁ lo hi l₂ v) {d : Chunk} (hc : c ∈ l₁ ++ l₂) (hd : d ∈ l₁ ++ l₂) :
    c = d ∨ c.stop ≤ d.addr ∨ d.stop ≤ c.addr := by
  have hle := g.le
  rcases List.mem_append.mp hc with hc | hc
  · rcases List.mem_append.mp hd with hd | hd
    · exact g.before.disjoint hc hd
    · have := (g.before.bounds hc).2
      have := (g.after.bounds hd).1
      omega
  · rcases List.mem_append.mp hd with hd | hd
    · have := (g.before.bounds hd).2
      have := (g.after.bounds hc).1
      omega
    · exact g.after.disjoint hc hd

theorem outer_bounds (g : Gap m₀ h l₁ lo hi l₂ v) (ha : outer l₁ l₂ a) : a + 40 ≤ lo ∨ hi ≤ a := by
  obtain ⟨c, hc, rfl, -⟩ := binOf_isSome ha
  have := g.chunk_bounds hc
  have := c.addr_lt
  omega

/-- A member of the bins is in the gap or not. -/
theorem member (g : Gap m₀ h l₁ lo hi l₂ v) (ha : ((v a).or (binOf (l₁ ++ l₂) a)).isSome) :
    (v a).isSome ∧ lo ≤ a ∧ a + 32 ≤ hi ∨ outer l₁ l₂ a ∧ (a + 40 ≤ lo ∨ hi ≤ a) := by
  cases hv : v a with
  | some i => exact Or.inl ⟨rfl, g.room a (by rw [hv]; rfl)⟩
  | none =>
    rw [hv, Option.none_or] at ha
    exact Or.inr ⟨ha, g.outer_bounds ha⟩

/-- A word of the gap, for what was written in the gap and of the links. -/
theorem bounds_lt (g : Gap m₀ h l₁ lo hi l₂ v) : 0 < lo ∧ hi < 2 ^ 64 := by
  have := g.pos
  have := g.before.le
  have := g.after.le
  have := g.bound
  omega

theorem store (g : Gap m₀ h l₁ lo hi l₂ v) {u : ℕ} (h1 : lo ≤ a) (h2 : a + n ≤ hi)
    (hv : ∀ b, (v b).isSome → a + n ≤ b + 16 ∨ b + 32 ≤ a) :
    Gap m₀ { h with mem := h.mem.store a n u } l₁ lo hi l₂ v := by
  have hag : Agree (fun _ => False) lo hi h.mem (h.mem.store a n u) := Agree.store h1 h2
  refine ⟨g.pos, g.before, g.le, g.after, g.bound, fun c hc => ?_, g.room, g.bins.congr fun b hm x h3 h4 => ?_,
    g.frame.trans (Agree.store h1 h2)⟩
  · exact (g.chunk c hc).agree hag (g.chunk_bounds hc).2.2 fun _ hf => hf.elim
  · refine Mem.store_out _ ?_
    rcases g.member hm with ⟨hs, -⟩ | ⟨-, hb⟩
    · have := hv b hs
      omega
    · omega

theorem store_one (g : Gap m₀ h l₁ lo hi l₂ (Function.update noNode node (some index))) {u : ℕ} (h1 : lo ≤ a)
    (h2 : a + n ≤ hi) (hv : a + n ≤ node + 16 ∨ node + 32 ≤ a) :
    Gap m₀ { h with mem := h.mem.store a n u } l₁ lo hi l₂ (Function.update noNode node (some index)) := by
  refine g.store h1 h2 fun b hb => ?_
  by_cases hbn : b = node
  · rw [hbn]
    exact hv
  · rw [Function.update_of_ne hbn] at hb
    cases hb

theorem store_empty (g : Gap m₀ h l₁ lo hi l₂ noNode) {u : ℕ} (h1 : lo ≤ a) (h2 : a + n ≤ hi) :
    Gap m₀ { h with mem := h.mem.store a n u } l₁ lo hi l₂ noNode :=
  g.store h1 h2 fun _ hb => by cases hb

/-- Links were written: of nodes in the gap, or outside. -/
theorem links (g : Gap m₀ h l₁ lo hi l₂ v) {S : ℕ → Prop} {bins : ℕ → ℕ} {v' : ℕ → Option ℕ}
    (hS : ∀ a, S a → lo ≤ a ∧ a + 32 ≤ hi) (hl : Agree (fun a => S a ∨ outer l₁ l₂ a) 0 0 h.mem m)
    (hroom : ∀ a, (v' a).isSome → lo ≤ a ∧ a + 32 ≤ hi) (hb : Bins m bins fun a => (v' a).or (binOf (l₁ ++ l₂) a)) :
    Gap m₀ { h with bins := bins, mem := m } l₁ lo hi l₂ v' := by
  have hag : Agree (fun a => S a ∨ outer l₁ l₂ a) lo hi h.mem m := hl.of_links
  refine ⟨g.pos, g.before, g.le, g.after, g.bound, fun c hc => ?_, hroom, hb,
    g.frame.trans (hag.mono le_rfl le_rfl fun a ha => ?_)⟩
  · have hcb := g.chunk_bounds hc
    refine (g.chunk c hc).agree hag hcb.2.2 fun a ha => ?_
    rcases ha with ha | ha
    · have := hS a ha
      omega
    · obtain ⟨d, hd, rfl, -⟩ := binOf_isSome ha
      have hdlt := d.addr_lt
      rcases g.disjoint hc hd with rfl | hcd | hcd
      · exact Or.inl rfl
      · exact Or.inr (Or.inr hcd)
      · exact Or.inr (Or.inl (by omega))
  · rcases ha with ha | ha
    · have := hS a ha
      omega
    · exact Or.inl ha

/-- The gap, but for the links of its nodes `S`, is as it was. -/
def Kept (lo hi : ℕ) (S : ℕ → Prop) (m m' : Mem) : Prop :=
  ∀ x, lo ≤ x → x < hi → (∀ a, S a → x < a + 16 ∨ a + 32 ≤ x) → m' x = m x

theorem Kept.load {S : ℕ → Prop} {m' : Mem} (hk : Kept lo hi S m m') (h1 : lo ≤ a) (h2 : a + n ≤ hi)
    (hS : ∀ b, S b → a + n ≤ b + 16 ∨ b + 32 ≤ a) : m'.load a n = m.load a n := by
  refine Mem.load_congr fun x h3 h4 => hk x (by omega) (by omega) fun b hb => ?_
  have := hS b hb
  omega

/-- Headers keep their sizes and flags. -/
theorem Kept.header {S : ℕ → Prop} {m' : Mem} (hk : Kept lo hi S m m') (h1 : lo ≤ a) (h2 : a + 16 ≤ hi)
    (hS : ∀ b, S b → a ≤ b ∨ b + 32 ≤ a) : nodeSize m' a = nodeSize m a ∧ nodeHole m' a = nodeHole m a := by
  refine ⟨hk.load (by omega) (by omega) fun b hb => ?_, hk.load (by omega) (by omega) fun b hb => ?_⟩
  · have := hS b hb
    omega
  · have := hS b hb
    omega

theorem Kept.chunk {S : ℕ → Prop} {m' : Mem} (hk : Kept lo hi S m m') (hc : ChunkOk m c) (h1 : lo ≤ c.addr)
    (h2 : c.stop ≤ hi) (hS : ∀ b, S b → b = c.addr ∨ b + 32 ≤ c.addr ∨ c.stop ≤ b) : ChunkOk m' c := by
  have hlt := c.addr_lt
  have heq := c.stop_eq
  refine hc.congr (fun x h3 h4 => hk x (by omega) (by omega) fun b hb => ?_) fun x h3 h4 =>
    hk x (by omega) (by omega) fun b hb => ?_
  · have := hS b hb
    omega
  · have := hS b hb
    omega

theorem kept (g : Gap m₀ h l₁ lo hi l₂ v) {S : ℕ → Prop} (hl : Agree (fun a => S a ∨ outer l₁ l₂ a) 0 0 h.mem m) :
    Kept lo hi S h.mem m := by
  refine fun x h1 h2 hS => hl x (Or.inr (Nat.zero_le x)) fun a ha => ?_
  rcases ha with ha | ha
  · exact hS a ha
  · have := g.outer_bounds ha
    omega

/-- No node of the gap is a node outside. -/
theorem binOf_none (g : Gap m₀ h l₁ lo hi l₂ v) (hn : lo ≤ node) (hn' : node + 32 ≤ hi) :
    binOf (l₁ ++ l₂) node = none := by
  by_contra hne
  have : node + 40 ≤ lo ∨ hi ≤ node := g.outer_bounds (Option.ne_none_iff_isSome.mp hne)
  omega

/-- A node of the gap is added to a bin. -/
theorem add (g : Gap m₀ h l₁ lo hi l₂ v) (hi' : index < binCount) (hn : lo ≤ node) (hn' : node + 32 ≤ hi)
    (hnew : v node = none) (hap : ∀ a, (v a).isSome → Apart node a) :
    ∃ bins m, h.binAdd index node = .ok { h with bins := bins, mem := m } ∧
      Gap m₀ { h with bins := bins, mem := m } l₁ lo hi l₂ (Function.update v node (some index)) ∧
      Kept lo hi (fun a => a = node ∨ (v a).isSome) h.mem m := by
  have hlt := g.bounds_lt
  have hout := g.binOf_none hn hn'
  obtain ⟨bins, m, hr, hb, hl⟩ := binAdd_ok g.bins hi' (by rw [hnew, hout]; rfl) (fun a ha => by
    rcases g.member ha with ⟨hs, -⟩ | ⟨-, hb⟩
    · exact hap a hs
    · unfold Apart
      omega) (by omega) (by omega)
  have hl' : Agree (fun a => (a = node ∨ (v a).isSome) ∨ outer l₁ l₂ a) 0 0 h.mem m := by
    refine fun x hx hS => hl x hx fun a ha => hS a ?_
    rcases ha with ha | ha
    · exact Or.inl (Or.inl ha)
    · rcases g.member ha with ⟨hs, -⟩ | ⟨hs, -⟩
      · exact Or.inl (Or.inr hs)
      · exact Or.inr hs
  have hfun : (fun a => (Function.update v node (some index) a).or (binOf (l₁ ++ l₂) a)) =
      Function.update (fun a => (v a).or (binOf (l₁ ++ l₂) a)) node (some index) := by
    funext a
    by_cases han : a = node
    · subst han
      simp
    · simp [Function.update_of_ne han]
  refine ⟨bins, m, hr, g.links (fun a ha => ?_) hl' (fun a ha => ?_) (hfun ▸ hb), g.kept hl'⟩
  · rcases ha with rfl | ha
    · exact ⟨hn, hn'⟩
    · exact g.room a ha
  · by_cases han : a = node
    · omega
    · rw [Function.update_of_ne han] at ha
      exact g.room a ha

/-- A node of the gap is removed from its bin. -/
theorem remove (g : Gap m₀ h l₁ lo hi l₂ v) (hv : v node = some index) :
    ∃ bins m, h.binRemove index node = .ok { h with bins := bins, mem := m } ∧
      Gap m₀ { h with bins := bins, mem := m } l₁ lo hi l₂ (Function.update v node none) ∧
      Kept lo hi (fun a => (v a).isSome) h.mem m := by
  have hroom := g.room node (by rw [hv]; rfl)
  have hout := g.binOf_none hroom.1 hroom.2
  have hin : (fun a => (v a).or (binOf (l₁ ++ l₂) a)) node = some index := by
    show (v node).or _ = _
    rw [hv]
    rfl
  obtain ⟨bins, m, hr, hb, hl⟩ := binRemove_ok g.bins hin
  have hl' : Agree (fun a => (v a).isSome ∨ outer l₁ l₂ a) 0 0 h.mem m := by
    refine fun x hx hS => hl x hx fun a ha => hS a ?_
    rcases g.member ha with ⟨hs, -⟩ | ⟨hs, -⟩
    · exact Or.inl hs
    · exact Or.inr hs
  have hfun : (fun a => (Function.update v node none a).or (binOf (l₁ ++ l₂) a)) =
      Function.update (fun a => (v a).or (binOf (l₁ ++ l₂) a)) node none := by
    funext a
    by_cases han : a = node
    · subst han
      simp [hout]
    · simp [Function.update_of_ne han]
  refine ⟨bins, m, hr, g.links g.room hl' (fun a ha => ?_) (hfun ▸ hb), g.kept hl'⟩
  by_cases han : a = node
  · rw [han]
    exact hroom
  · rw [Function.update_of_ne han] at ha
    exact g.room a ha

/-- The only node of the gap is removed from its bin. -/
theorem remove_one (g : Gap m₀ h l₁ lo hi l₂ (Function.update noNode node (some index))) :
    ∃ bins m, h.binRemove index node = .ok { h with bins := bins, mem := m } ∧
      Gap m₀ { h with bins := bins, mem := m } l₁ lo hi l₂ noNode ∧ Kept lo hi (fun a => a = node) h.mem m := by
  obtain ⟨bins, m, hr, g', hk⟩ := g.remove (Function.update_self ..)
  rw [Function.update_idem, update_noNode] at g'
  refine ⟨bins, m, hr, g', fun x h1 h2 hS => hk x h1 h2 fun a ha => hS a ?_⟩
  by_contra hne
  have hne' : a ≠ node := hne
  simp only [Function.update_of_ne hne'] at ha
  cases ha

/-- A first node is added in the gap. -/
theorem add_one (g : Gap m₀ h l₁ lo hi l₂ noNode) (hi' : index < binCount) (hn : lo ≤ node) (hn' : node + 32 ≤ hi) :
    ∃ bins m, h.binAdd index node = .ok { h with bins := bins, mem := m } ∧
      Gap m₀ { h with bins := bins, mem := m } l₁ lo hi l₂ (Function.update noNode node (some index)) ∧
      Kept lo hi (fun a => a = node) h.mem m := by
  obtain ⟨bins, m, hr, g', hk⟩ := g.add hi' hn hn' rfl fun a ha => by cases ha
  refine ⟨bins, m, hr, g', fun x h1 h2 hS => hk x h1 h2 fun a ha => ?_⟩
  rcases ha with ha | ha
  · exact hS a ha
  · cases ha

/-- A chunk in the gap gets its size and its footer. -/
theorem resize (g : Gap m₀ h l₁ lo hi l₂ v) (h1 : lo ≤ c.addr) (h2 : c.stop ≤ hi)
    (hh : nodeHole h.mem c.addr = c.hole.toNat)
    (hv : ∀ b, (v b).isSome → b = c.addr ∨ b + 32 ≤ c.addr ∨ c.stop ≤ b) :
    ∃ m, createFoot (setSize h.mem c.addr c.size) c.addr = m ∧ Gap m₀ { h with mem := m } l₁ lo hi l₂ v ∧ ChunkOk m c ∧
      ∀ x, x < c.addr ∨ c.stop ≤ x → m x = h.mem x := by
  have hlt := g.bounds_lt
  have hclt := c.addr_lt
  have heq := c.stop_eq
  obtain ⟨he, hok⟩ := ChunkOk.resize hh (by omega : c.stop < 2 ^ 64)
  refine ⟨_, he, ?_, hok, fun x hx => ?_⟩
  · have g' : Gap m₀ { h with mem := setSize h.mem c.addr c.size } l₁ lo hi l₂ v := by
      refine g.store (by omega) (by omega) fun b hb => ?_
      have := hv b hb
      omega
    refine g'.store (by omega) (by omega) fun b hb => ?_
    have := hv b hb
    omega
  · rw [Mem.store_out _ (by omega), setSize, Mem.store_out _ (by omega)]

/-- A hole that fills the gap comes into its bin. -/
theorem hang (g : Gap m₀ h l₁ c.addr c.stop l₂ noNode) (hc : ChunkOk h.mem c) (hh : c.hole = true) :
    ∃ bins m, h.binAdd (getBinIndex c.size) c.addr = .ok { h with bins := bins, mem := m } ∧
      HeapOk { h with bins := bins, mem := m } (l₁ ++ c :: l₂) ∧ Agree (outer l₁ l₂) c.addr c.stop m₀ m := by
  have hlt := c.addr_lt
  obtain ⟨bins, m, hr, g', hk⟩ := g.add_one (getBinIndex_lt c.size) le_rfl (by omega)
  rw [← Chunk.bin_hole hh] at g'
  exact ⟨bins, m, hr, g'.fill rfl rfl (hk.chunk hc le_rfl le_rfl fun b hb => Or.inl hb), g'.frame⟩

/-- A gap at the end of the heap grows with it. -/
theorem extend (g : Gap m₀ h l₁ lo h.stop [] v) {t : ℕ} (h1 : h.stop ≤ t) (h2 : t < 2 ^ 64) :
    Gap m₀ { h with stop := t } l₁ lo t [] v :=
  ⟨g.pos, g.before, g.le.trans h1, rfl, h2, g.chunk, fun a ha => by have := g.room a ha; omega, g.bins,
    g.frame.mono le_rfl h1 fun _ ha => Or.inl ha⟩

end Gap

/-- A chunk that the gap does not touch keeps its bytes; only the links of a hole may be new. -/
theorem Agree.chunk {l₁ l₂ cs : List Chunk} {c : Chunk} {a b lo hi x : ℕ} {m m' : Mem} (ht : Tiles a cs b)
    (hag : Agree (outer l₁ l₂) lo hi m m') (hsub : ∀ d ∈ l₁ ++ l₂, d ∈ cs) (hc : c ∈ cs)
    (hout : c.stop ≤ lo ∨ hi ≤ c.addr) (h1 : c.addr ≤ x) (h2 : x < c.stop)
    (hx : c.hole = true → x < c.addr + 16 ∨ c.addr + 32 ≤ x) : m' x = m x := by
  refine hag x (by omega) fun a ha => ?_
  obtain ⟨d, hd, rfl, hh⟩ := binOf_isSome ha
  have hlt := d.addr_lt
  rcases ht.disjoint hc (hsub d hd) with rfl | hcd | hcd
  · exact hx hh
  · omega
  · omega

/-! ### Fresh heaps -/

theorem Bins.empty (m : Mem) : Bins m (fun _ => 0) noNode :=
  ⟨fun _ _ => ⟨[], (shape_empty m).toBinList, by simp⟩, fun _ _ h => (by cases h), fun _ _ h => (by cases h)⟩

theorem Gap.empty {start stop : ℕ} {m : Mem} {sys : Sys} {rs : List SmReply} (h0 : 0 < start) (h1 : start ≤ stop)
    (h2 : stop < 2 ^ 64) : Gap m ⟨start, stop, fun _ => 0, m, sys, rs⟩ [] start stop [] noNode :=
  ⟨h0, rfl, h1, rfl, h2, by simp, fun _ h => (by cases h), Bins.empty m, Agree.refl⟩

/-- Chunks laid out by hand, at most one hole in each bin. -/
def layout (start stop : ℕ) (cs : List Chunk) (sys : Sys) : Heap :=
  ⟨start, stop, fun i => ((cs.find? fun c => c.bin = some i).map Chunk.addr).getD 0,
    cs.foldl (fun m c => createFoot (setHole (setSize m c.addr c.size) c.addr c.hole.toNat) c.addr) fun _ => 0, sys, []⟩

/-- The message of a panic. -/
def panicOf {α : Type} : Res α → Option String
  | .error (.panic msg) => some msg
  | _ => none

theorem eq_panic {α : Type} {r : Res α} {msg : String} (h : panicOf r = some msg) : r = .error (.panic msg) := by
  unfold panicOf at h
  split at h
  · cases h
    rfl
  · cases h

/-- Holes of different bins are a well-formed heap. -/
theorem HeapOk.of_singles {h : Heap} {cs : List Chunk} (h0 : 0 < h.start) (ht : Tiles h.start cs h.stop)
    (hb : h.stop < 2 ^ 64) (hc : ∀ c ∈ cs, ChunkOk h.mem c)
    (hone : ∀ c ∈ cs, ∀ d ∈ cs, c.bin = d.bin → c.hole = true → c = d)
    (hbin : ∀ c ∈ cs, c.hole = true → h.bins (getBinIndex c.size) = c.addr ∧ nodeNext h.mem c.addr = 0)
    (hnone : ∀ i < binCount, (∀ c ∈ cs, c.bin ≠ some i) → h.bins i = 0) : HeapOk h cs := by
  have hsome {a i : ℕ} (ha : binOf cs a = some i) : ∃ c ∈ cs, c.addr = a ∧ c.bin = some i := by
    have hs : (binOf cs a).isSome := by rw [ha]; rfl
    obtain ⟨c, hc, rfl, -⟩ := binOf_isSome hs
    exact ⟨c, hc, rfl, by rw [← ha, binOf_mem ht hc]⟩
  refine ⟨h0, ht, hb, hc, fun i hi => ?_, fun a i ha => ?_, fun a b ha hb => ?_⟩
  · by_cases hex : ∃ c ∈ cs, c.bin = some i
    · obtain ⟨c, hmem, hci⟩ := hex
      have hcb := ht.bounds hmem
      have hlt := c.addr_lt
      have hch : c.hole = true := by
        by_contra hh
        rw [Chunk.bin_used (by simpa using hh)] at hci
        cases hci
      have hidx : getBinIndex c.size = i := by
        rw [Chunk.bin_hole hch] at hci
        exact Option.some.inj hci
      obtain ⟨h1, h2⟩ := hbin c hmem hch
      rw [hidx] at h1
      refine ⟨[c.addr], ⟨⟨⟨h1, by omega, h2⟩, List.isChain_singleton _, List.nodup_singleton _⟩, ?_, ?_⟩, fun a => ?_⟩
      · intro a ha b hb
        rw [List.mem_singleton.mp ha, List.mem_singleton.mp hb]
        exact Or.inl rfl
      · intro a ha
        rw [List.mem_singleton.mp ha]
        omega
      · rw [List.mem_singleton]
        constructor
        · rintro rfl
          rw [binOf_mem ht hmem, hci]
        · intro ha
          obtain ⟨d, hd, rfl, hdi⟩ := hsome ha
          rw [hone c hmem d hd (hci.trans hdi.symm) hch]
    · refine ⟨[], ?_, fun a => ?_⟩
      · rw [hnone i hi fun c hc hci => hex ⟨c, hc, hci⟩]
        exact (shape_empty _).toBinList
      · refine ⟨fun h => (List.not_mem_nil h).elim, fun ha => ?_⟩
        obtain ⟨d, hd, -, hdi⟩ := hsome ha
        exact (hex ⟨d, hd, hdi⟩).elim
  · obtain ⟨c, -, -, hci⟩ := hsome ha
    unfold Chunk.bin at hci
    split at hci
    · cases hci
      exact getBinIndex_lt c.size
    · cases hci
  · obtain ⟨c, hc, rfl, -⟩ := binOf_isSome ha
    obtain ⟨d, hd, rfl, -⟩ := binOf_isSome hb
    have h1 := c.addr_lt
    have h2 := d.addr_lt
    unfold Apart
    rcases ht.disjoint hc hd with rfl | hcd | hcd
    · exact Or.inl rfl
    · omega
    · omega

end Heap
end Coffer
