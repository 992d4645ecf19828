/-
# `heap_alloc`

A request is met by a hole that is large enough (`HeapOk.search`), or the wilderness is grown first (`findNode_ok`). The
hole is cut in two where what is left is large enough to be a hole of its own (`HeapOk.take`), and the wilderness is
refilled behind it.

The last chunk has to stay a hole: everything else in `heap.c` takes it for the wilderness. It does unless the request
takes the wilderness whole (`Spares`). Then `heap_alloc` is right (`HeapOk.alloc`).

Key definitions: `used`, `UsedKept`, `Spares`.
Key theorems: `HeapOk.search`, `HeapOk.take`, `HeapOk.alloc`.
-/
import Coffer.Heap.Free

namespace Coffer
namespace Heap

open Lib

variable {h h' h₁ : Heap} {l l₁ l₂ cs cs' : List Chunk} {c d t w : Chunk} {m₀ : Mem} {size sz p : ℕ}

/-! ### Chunks in use -/

/-- The chunks in use. -/
def used (cs : List Chunk) : List Chunk := cs.filter fun c => !c.hole

theorem mem_used : c ∈ used cs ↔ c ∈ cs ∧ c.hole = false := by simp [used]

theorem used_append : used (l₁ ++ l₂) = used l₁ ++ used l₂ := List.filter_append ..

theorem used_hole (hc : c.hole = true) : used (c :: l) = used l := by simp [used, hc]

theorem used_concat (hc : c.hole = true) : used (l ++ [c]) = used l := by simp [used, hc]

theorem used_used (hc : c.hole = false) : used (c :: l) = c :: used l := by simp [used, hc]

/-- The chunks in use keep their bytes. -/
def UsedKept (cs : List Chunk) (m m' : Mem) : Prop := ∀ d ∈ used cs, ∀ x, d.addr ≤ x → x < d.stop → m' x = m x

theorem UsedKept.trans {m m' m'' : Mem} (h₁ : UsedKept cs m m') (h₂ : UsedKept cs' m' m'')
    (hsub : ∀ d ∈ used cs, d ∈ used cs') : UsedKept cs m m'' :=
  fun d hd x hx hx' => (h₂ d (hsub d hd) x hx hx').trans (h₁ d hd x hx hx')

/-- What is written in a part of the heap without chunks in use. -/
theorem UsedKept.of_agree {a b lo hi : ℕ} {m m' : Mem} (ht : Tiles a cs b) (hag : Agree (outer l₁ l₂) lo hi m m')
    (hsub : ∀ d ∈ l₁ ++ l₂, d ∈ cs) (hout : ∀ d ∈ used cs, d.stop ≤ lo ∨ hi ≤ d.addr) : UsedKept cs m m' := by
  intro d hd x hx hx'
  obtain ⟨hdc, hdh⟩ := mem_used.mp hd
  exact Agree.chunk ht hag hsub hdc (hout d hd) hx hx' fun hh => by rw [hdh] at hh; cases hh

theorem Tiles.outside {a b : ℕ} (ht : Tiles a (l₁ ++ c :: l₂) b) (hd : d ∈ l₁ ++ l₂) :
    d.stop ≤ c.addr ∨ c.stop ≤ d.addr := by
  obtain ⟨h1, h2⟩ := tiles_middle.mp ht
  rcases List.mem_append.mp hd with hd | hd
  · exact Or.inl (h1.bounds hd).2
  · exact Or.inr (h2.bounds hd).1

/-! ### Finding a hole -/

/-- `search_fit_node` finds a hole that is large enough, if there is one. -/
theorem HeapOk.search (hok : HeapOk h cs) (size : ℕ) :
    (h.searchFitNode size = some (0, 2 ^ 32 - 1) ∧ ∀ c ∈ cs, c.hole = true → c.size < size) ∨
    ∃ c ∈ cs, c.hole = true ∧ size ≤ c.size ∧ h.searchFitNode size = some (c.addr, getBinIndex c.size) := by
  choose! lists hlists using hok.bins.list
  have hlt := getBinIndex_lt size
  have hmem {a i : ℕ} (hi : i < binCount) (ha : a ∈ lists i) :
      ∃ c ∈ cs, c.addr = a ∧ c.hole = true ∧ getBinIndex c.size = i := by
    have hb := ((hlists i hi).2 a).mp ha
    have hs : (binOf cs a).isSome := by rw [hb]; rfl
    obtain ⟨c, hc, rfl, hh⟩ := binOf_isSome hs
    rw [hok.bin hc, Chunk.bin_hole hh, Option.some.injEq] at hb
    exact ⟨c, hc, rfl, hh, hb⟩
  have hscan := @searchLoop_spec h lists size (binCount - getBinIndex size) (getBinIndex size)
    fun i hi => (hlists i (by omega)).1
  rcases hscan with ⟨hr, hall⟩ | ⟨a, i, hr, -, h1, h2, hf, -⟩
  · refine Or.inl ⟨hr, fun c hc hh => ?_⟩
    by_contra hge
    have hmono := getBinIndex_mono (not_lt.mp hge)
    have hclt := getBinIndex_lt c.size
    have hin : c.addr ∈ lists (getBinIndex c.size) :=
      ((hlists _ hclt).2 _).mpr (by rw [hok.bin hc, Chunk.bin_hole hh])
    have := hall _ hmono (by omega) _ hin
    rw [(hok.chunk c hc).size] at this
    exact hge this
  · obtain ⟨c, hc, rfl, hh, hi⟩ := hmem (by omega) (List.mem_of_find?_eq_some hf)
    have hfit : size ≤ nodeSize h.mem c.addr := by simpa using List.find?_some hf
    rw [(hok.chunk c hc).size] at hfit
    exact Or.inr ⟨c, hc, hh, hfit, by rw [hi]; exact hr⟩

/-- The node that is found, after the wilderness was grown by `sz`, or not at all. -/
theorem findNode_ok {found index : ℕ} (hok : HeapOk h (l ++ [w])) (hw : w.hole = true)
    (hfit : h.stop + size + 0x10000 < 2 ^ 64) (hr : h.findNode size = .ok (found, index, h₁)) :
    ∃ sz c, HeapOk h₁ (l ++ [w.grow sz]) ∧ h₁.start = h.start ∧ h₁.stop = h.stop + sz ∧ sz ≤ size + 0x10000 ∧
      c ∈ l ++ [w.grow sz] ∧ c.hole = true ∧ size ≤ c.size ∧ found = c.addr ∧ index = getBinIndex c.size ∧
      UsedKept l h.mem h₁.mem := by
  unfold findNode at hr
  have hmem : w ∈ l ++ [w] := by simp
  rcases hok.search size with ⟨hs, hsmall⟩ | ⟨c, hc, hch, hcs, hs⟩
  · have hpos := (hok.bounds hmem).1
    have hws := hsmall w hmem hw
    have hwild : h.getWildSize = .ok w.size := by
      rw [getWildSize, hok.getWilderness, if_neg (by omega), (hok.chunk w hmem).size]
    have hinc : sub64 (add64 size 0x10000) w.size = size + 0x10000 - w.size := by
      rw [add64_eq (by omega), sub64_eq (by omega) (by omega)]
    simp only [hs, walked, Res.ok_bind, ne_eq, not_true_eq_false, if_false, hwild, hinc] at hr
    obtain ⟨⟨r, h₂⟩, he, hr⟩ := Res.bind_ok hr
    obtain ⟨h1, h2, hok₂, hag⟩ := hok.expand hw (by omega) he
    have hkept : UsedKept l h.mem h₂.mem := by
      have htl := tiles_concat.mp hok.tiles
      exact UsedKept.of_agree htl.1 hag (by simp) fun d hd => Or.inl (htl.1.bounds (mem_used.mp hd).1).2
    have hpos₂ := hok₂.pos
    rcases hok₂.search size with ⟨hs₂, -⟩ | ⟨c, hc, hch, hcs, hs₂⟩
    · simp only [hs₂, Res.ok_bind, if_true] at hr
      cases hr
    · have hc0 : c.addr ≠ 0 := by
        have := (hok₂.bounds hc).1
        omega
      simp only [hs₂, Res.ok_bind, if_neg hc0, Except.ok.injEq, Prod.mk.injEq] at hr
      obtain ⟨rfl, rfl, rfl⟩ := hr
      exact ⟨_, c, hok₂, h1, h2, by omega, hc, hch, hcs, rfl, rfl, hkept⟩
  · have hc0 : c.addr ≠ 0 := by
      have := (hok.bounds hc).1
      omega
    simp only [hs, walked, Res.ok_bind, if_pos hc0, Except.ok.injEq, Prod.mk.injEq] at hr
    obtain ⟨rfl, rfl, rfl⟩ := hr
    exact ⟨0, c, hok, rfl, rfl, by omega, hc, hch, hcs, rfl, rfl, fun _ _ _ _ _ => rfl⟩

/-! ### Taking a hole -/

theorem setHole_setSize {m : Mem} {a s b : ℕ} : setHole (setSize m a s) a b = setSize (setHole m a b) a s := by
  funext x
  unfold setHole setSize Mem.store
  split_ifs <;> first | rfl | omega

/-- The chunk cut down to `size`. -/
def Chunk.cut (c : Chunk) (size : ℕ) : Chunk := { c with size := size }

/-- The hole behind the chunk that was cut. -/
def Chunk.tail (c : Chunk) (size : ℕ) : Chunk := ⟨c.addr + overhead + size, c.size - size - overhead, true⟩

theorem Chunk.cut_stop : (c.cut size).stop = (c.tail size).addr := rfl

theorem Chunk.tail_stop (hs : size + overhead ≤ c.size) : (c.tail size).stop = c.stop := by
  show c.addr + overhead + size + overhead + (c.size - size - overhead) = c.addr + overhead + c.size
  omega

/-- A hole is cut in two. It stays in the bin that it was in. -/
theorem HeapOk.splitNode (hok : HeapOk h (l₁ ++ c :: l₂)) (hc : c.hole = true) (hs : size + overhead ≤ c.size) :
    ∃ bins m, h.splitNode c.addr size = .ok { h with bins := bins, mem := m } ∧
      Gap h.mem { h with bins := bins, mem := m } l₁ c.addr c.stop l₂
        (Function.update (Function.update noNode c.addr (some (getBinIndex c.size))) (c.tail size).addr
          (some (getBinIndex (c.tail size).size))) ∧
      ChunkOk m (c.cut size) ∧ ChunkOk m (c.tail size) := by
  have hcc := hok.chunk c (by simp)
  have g := Gap.of_chunk hok
  rw [Chunk.bin_hole hc] at g
  have hlt := g.bounds_lt
  have hclt := c.addr_lt
  have h40 : overhead = 40 := rfl
  have hcs : c.stop = c.addr + overhead + c.size := rfl
  have hta : (c.tail size).addr = c.addr + overhead + size := rfl
  have hts := Chunk.tail_stop hs
  have htlt := (c.tail size).addr_lt
  have hsplit : add64 (c.addr + 32 + 8) size = (c.tail size).addr := by rw [add64_eq (by omega), hta, h40]
  have hsize : sub64 (sub64 c.size size) overhead = (c.tail size).size := by
    rw [sub64_eq (a := c.size) (by omega) hcc.size_lt, sub64_eq (by omega) (by have := hcc.size_lt; omega)]
    rfl
  have hone {b : ℕ} (hb : (Function.update noNode c.addr (some (getBinIndex c.size)) b).isSome) : b = c.addr := by
    by_contra hne
    rw [Function.update_of_ne hne] at hb
    cases hb
  -- the new hole gets its header and footer, and comes into its bin
  have g₁ := g.store_one (a := (c.tail size).addr) (n := 4) (u := 1) (by omega) (by omega) (by omega)
  obtain ⟨m₂, hm₂, g₂, ht₂, hout₂⟩ := g₁.resize (c := c.tail size) (by omega) (by omega) (nodeHole_setHole (by norm_num))
    fun b hb => by
      have := hone hb
      omega
  have hne : (c.tail size).addr ≠ c.addr := by omega
  obtain ⟨bins₃, m₃, hr₃, g₃, hk₃⟩ := g₂.add (getBinIndex_lt (c.tail size).size)
    (show c.addr ≤ (c.tail size).addr by omega) (by omega) (by rw [Function.update_of_ne hne]) fun b hb => by
      have := hone hb
      unfold Apart
      omega
  have ht₃ : ChunkOk m₃ (c.tail size) := hk₃.chunk ht₂ (by omega) (by omega) fun b hb => by
    rcases hb with hb | hb
    · exact Or.inl hb
    · have := hone hb
      omega
  have hh₃ : nodeHole m₃ c.addr = c.hole.toNat := by
    rw [(hk₃.header le_rfl (by omega) fun b hb => ?_).2]
    · have h1 : nodeHole m₂ c.addr = nodeHole (setHole h.mem (c.tail size).addr 1) c.addr :=
        Mem.load_congr fun x hx hx' => hout₂ x (by omega)
      rw [h1, setHole, nodeHole_store (by omega), hcc.hole]
    · rcases hb with hb | hb
      · omega
      · exact Or.inl (le_of_eq (hone hb).symm)
  -- the chunk is cut down
  obtain ⟨m₄, hm₄, g₄, hc₄, hout₄⟩ := g₃.resize (c := c.cut size) le_rfl (by rw [Chunk.cut_stop]; omega) hh₃ fun b hb => by
    by_cases hbt : b = (c.tail size).addr
    · exact Or.inr (Or.inr (le_of_eq hbt.symm))
    · rw [Function.update_of_ne hbt] at hb
      exact Or.inl (hone hb)
  refine ⟨bins₃, m₄, ?_, g₄, hc₄, ?_⟩
  · simp only [Heap.splitNode, hcc.size, hsplit, hsize, setHole_setSize]
    have hm₂' : createFoot (setSize (setHole h.mem (c.tail size).addr 1) (c.tail size).addr (c.tail size).size)
        (c.tail size).addr = m₂ := hm₂
    have hm₄' : createFoot (setSize m₃ c.addr size) c.addr = m₄ := hm₄
    rw [hm₂', ht₂.size, hr₃, Res.ok_bind, hm₄']
  · exact ht₃.congr (fun x hx _ => hout₄ x (Or.inr hx)) fun x hx _ => hout₄ x (Or.inr (by rw [Chunk.cut_stop]; omega))

theorem binOf_pair (hc : c.hole = false) (ht : t.hole = true) (hne : c.addr ≠ t.addr) :
    binOf [c, t] = Function.update noNode t.addr (some (getBinIndex t.size)) := by
  have h1 : binOf ([c] ++ t :: []) = _ := binOf_middle (by simpa using hne)
  rw [List.append_nil, binOf_single, Chunk.bin_used hc, update_noNode, Chunk.bin_hole ht] at h1
  exact h1

/-- The hole `c` is cut if it is large enough, marked and taken from its bin. -/
theorem HeapOk.take (hok : HeapOk h (l₁ ++ c :: l₂)) (hc : c.hole = true) (hs : size ≤ c.size) :
    ∃ bins m c' rest,
      ((if sub64 (nodeSize h.mem c.addr) size > overhead + minAllocSz then h.splitNode c.addr size else .ok h) >>=
        fun h => { h with mem := setHole h.mem c.addr 0 }.binRemove (getBinIndex c.size) c.addr) =
        .ok { h with bins := bins, mem := m } ∧
      HeapOk { h with bins := bins, mem := m } (l₁ ++ c' :: (rest ++ l₂)) ∧
      c'.addr = c.addr ∧ c'.hole = false ∧ size ≤ c'.size ∧
      (c.size > size + overhead + minAllocSz ∧ (∃ t, rest = [t] ∧ t.hole = true) ∨
        ¬ c.size > size + overhead + minAllocSz ∧ rest = []) ∧
      Agree (outer l₁ l₂) c.addr c.stop h.mem m := by
  have hcc := hok.chunk c (by simp)
  have hclt := c.addr_lt
  have hcs := c.stop_eq
  have hsub : sub64 c.size size = c.size - size := sub64_eq hs hcc.size_lt
  rw [hcc.size, hsub]
  by_cases hbig : c.size - size > overhead + minAllocSz
  · have h4 : minAllocSz = 4 := rfl
    have h40 : overhead = 40 := rfl
    obtain ⟨bins₁, m₁, hr₁, g₁, hc₁, ht₁⟩ := hok.splitNode hc (show size + overhead ≤ c.size by omega)
    have hts := Chunk.tail_stop (show size + overhead ≤ c.size by omega)
    have hta : (c.tail size).addr = c.addr + overhead + size := rfl
    have htlt := (c.tail size).addr_lt
    have hcut := (c.cut size).addr_lt
    have hcuts := (c.cut size).stop_eq
    have hcst : (c.cut size).stop = (c.tail size).addr := rfl
    have hca : (c.cut size).addr = c.addr := rfl
    have hne : c.addr ≠ (c.tail size).addr := by omega
    -- it is marked as in use, and leaves its bin
    have g₂ : Gap h.mem { h with bins := bins₁, mem := setHole m₁ c.addr 0 } l₁ c.addr c.stop l₂ _ :=
      g₁.store le_rfl (by omega) fun b hb => by
        have := g₁.room b hb
        omega
    obtain ⟨bins₃, m₃, hr₃, g₃, hk₃⟩ := g₂.remove (by rw [Function.update_of_ne hne, Function.update_self])
    rw [Function.update_comm hne, Function.update_idem, Function.update_comm hne.symm, update_noNode] at g₃
    have hin {b : ℕ} (hb : (Function.update (Function.update noNode c.addr (some (getBinIndex c.size))) (c.tail size).addr
        (some (getBinIndex (c.tail size).size)) b).isSome) : b = c.addr ∨ b = (c.tail size).addr := by
      by_contra hno
      rw [Function.update_of_ne (fun h => hno (Or.inr h)), Function.update_of_ne (fun h => hno (Or.inl h))] at hb
      cases hb
    let c' : Chunk := ⟨c.addr, size, false⟩
    have hc₂ : ChunkOk (setHole m₁ c.addr 0) c' := by
      refine ⟨?_, nodeHole_setHole (by norm_num), ?_⟩
      · rw [nodeSize_setHole]
        exact hc₁.size
      · show (setHole m₁ c.addr 0).load (c.cut size).foot 8 = c.addr
        rw [setHole, Mem.load_store_disj _ (by omega)]
        exact hc₁.foot
    have hc₃ : ChunkOk m₃ c' := hk₃.chunk hc₂ le_rfl (by show (c.cut size).stop ≤ c.stop; omega) fun b hb => by
      rcases hin hb with hb | hb
      · exact Or.inl hb
      · exact Or.inr (Or.inr (le_of_eq hb.symm))
    have ht₃ : ChunkOk m₃ (c.tail size) := hk₃.chunk (ht₁.store (Or.inl (by omega))) (by omega) (by omega) fun b hb => by
      rcases hin hb with hb | hb
      · omega
      · exact Or.inl hb
    refine ⟨bins₃, m₃, c', [c.tail size], ?_, ?_, rfl, rfl, le_rfl, Or.inl ⟨by omega, _, rfl, rfl⟩, g₃.frame⟩
    · rw [if_pos hbig, hr₁, Res.ok_bind]
      exact hr₃
    · have hpair : ∀ d ∈ [c', c.tail size], ChunkOk m₃ d := by
        intro d hd
        rcases List.mem_pair.mp hd with rfl | rfl
        · exact hc₃
        · exact ht₃
      have htiles : Tiles c.addr [c', c.tail size] c.stop := ⟨rfl, rfl, hts⟩
      have hclose := g₃.close htiles hpair (binOf_pair (c := c') rfl rfl hne).symm
      simpa using hclose
  · -- all of it is taken
    have g := Gap.of_chunk hok
    rw [Chunk.bin_hole hc] at g
    have g₂ : Gap h.mem { h with mem := setHole h.mem c.addr 0 } l₁ c.addr c.stop l₂ _ :=
      g.store_one le_rfl (by omega) (Or.inl (by omega))
    obtain ⟨bins₃, m₃, hr₃, g₃, hk₃⟩ := g₂.remove_one
    let c' : Chunk := ⟨c.addr, c.size, false⟩
    have hc₂ : ChunkOk (setHole h.mem c.addr 0) c' := by
      refine ⟨?_, nodeHole_setHole (by norm_num), ?_⟩
      · rw [nodeSize_setHole]
        exact hcc.size
      · show (setHole h.mem c.addr 0).load c.foot 8 = c.addr
        rw [setHole, Mem.load_store_disj _ (by omega)]
        exact hcc.foot
    have hc₃ : ChunkOk m₃ c' := hk₃.chunk hc₂ le_rfl le_rfl fun b hb => Or.inl hb
    have g₄ : Gap h.mem { h with bins := bins₃, mem := m₃ } l₁ c.addr c.stop l₂
        (Function.update noNode c.addr c'.bin) := by
      rw [Chunk.bin_used rfl, update_noNode]
      exact g₃
    refine ⟨bins₃, m₃, c', [], ?_, g₄.fill rfl rfl hc₃, rfl, rfl, hs, Or.inr ⟨by omega, rfl⟩, g₃.frame⟩
    rw [if_neg hbig, Res.ok_bind]
    exact hr₃

/-! ### The wilderness is refilled -/

/-- The last hole has at least `MIN_WILDERNESS` bytes again. -/
theorem refillWilderness_ok (hok : HeapOk h (l ++ [w])) (hw : w.hole = true) (hfit : h.stop + 0x10000 < 2 ^ 64)
    (hr : h.refillWilderness = .ok h') :
    ∃ sz, HeapOk h' (l ++ [w.grow sz]) ∧ h'.start = h.start ∧ h'.stop = h.stop + sz ∧ sz ≤ 0x10000 ∧
      UsedKept l h.mem h'.mem := by
  have hmem : w ∈ l ++ [w] := by simp
  have hpos := (hok.bounds hmem).1
  have hmin : minWilderness = 0x10000 := rfl
  simp only [refillWilderness, hok.getWilderness, if_neg (Nat.ne_of_gt hpos), (hok.chunk w hmem).size] at hr
  split_ifs at hr with hsmall
  · obtain ⟨⟨r, h₂⟩, he, hr⟩ := Res.bind_ok hr
    obtain ⟨h1, h2, hok₂, hag⟩ := hok.expand hw (by omega) he
    split_ifs at hr
    cases hr
    have htl := tiles_concat.mp hok.tiles
    refine ⟨_, hok₂, h1, h2, by omega, ?_⟩
    exact UsedKept.of_agree htl.1 hag (by simp) fun d hd => Or.inl (htl.1.bounds (mem_used.mp hd).1).2
  · cases hr
    exact ⟨0, hok, rfl, rfl, by omega, fun _ _ _ _ _ => rfl⟩

theorem HeapOk.clear (hok : HeapOk h (l₁ ++ c :: l₂)) (hc : c.hole = false) :
    HeapOk { h with mem := setNext (setPrev h.mem c.addr 0) c.addr 0 } (l₁ ++ c :: l₂) := by
  have hlt := c.addr_lt
  have hs := c.stop_eq
  have g := Gap.of_chunk hok
  rw [Chunk.bin_used hc, update_noNode] at g
  have g₁ : Gap h.mem { h with mem := setNext (setPrev h.mem c.addr 0) c.addr 0 } l₁ c.addr c.stop l₂
      (Function.update noNode c.addr c.bin) := by
    rw [Chunk.bin_used hc, update_noNode]
    exact (g.store_empty (by omega) (by omega)).store_empty (by omega) (by omega)
  have hout (x : ℕ) (hx : x < c.addr + 16 ∨ c.addr + 32 ≤ x) :
      setNext (setPrev h.mem c.addr 0) c.addr 0 x = h.mem x := by
    rw [setNext, Mem.store_out _ (by omega), setPrev, Mem.store_out _ (by omega)]
  exact g₁.fill rfl rfl ((hok.chunk c (by simp)).congr (fun x _ h2 => hout x (Or.inl h2)) fun x h1 _ =>
    hout x (Or.inr (by omega)))

theorem Tiles.clear {a b x : ℕ} {m : Mem} (ht : Tiles a (l₁ ++ c :: l₂) b) (hd : d ∈ l₁ ++ l₂) (hx : d.addr ≤ x)
    (hx' : x < d.stop) : setNext (setPrev m c.addr 0) c.addr 0 x = m x := by
  have hout := ht.outside hd
  have hlt := c.addr_lt
  rw [setNext, Mem.store_out _ (by omega), setPrev, Mem.store_out _ (by omega)]

/-! ### Holes next to each other -/

/-- No two neighbours are both holes. -/
def HolesApart (cs : List Chunk) : Prop := (cs.map Chunk.hole).IsChain fun a b => ¬ (a = true ∧ b = true)

theorem HolesApart.take {fs gs : List Bool} (h : (fs ++ true :: gs).IsChain fun a b => ¬ (a = true ∧ b = true)) :
    ((fs ++ false :: gs).IsChain fun a b => ¬ (a = true ∧ b = true)) ∧
      (fs ++ false :: true :: gs).IsChain fun a b => ¬ (a = true ∧ b = true) := by
  simp only [List.isChain_append, List.isChain_cons, List.head?_cons, Option.mem_some_iff, forall_eq', Bool.false_eq_true,
    false_and, and_false, not_false_eq_true, implies_true, true_and, and_true] at h ⊢
  exact ⟨⟨h.1, h.2.1.2⟩, h.1, h.2.1⟩

/-! ### `heap_alloc` -/

/-- The request does not take the wilderness whole. -/
def Spares (h : Heap) (size : ℕ) : Prop :=
  ∀ found index h₁, h.findNode size = .ok (found, index, h₁) → found = h₁.getWilderness →
    nodeSize h₁.mem found > size + overhead + minAllocSz

/-- There is a hole at the end, if the last chunk is not taken or a piece of it is left. -/
theorem hole_at_end {rest : List Chunk} (hsplit : l ++ [w] = l₁ ++ c :: l₂) (hw : w.hole = true)
    (hrest : (∃ t, rest = [t] ∧ t.hole = true) ∨ rest = []) (hne : l₂ = [] → rest ≠ []) :
    ∃ k w₂, rest ++ l₂ = k ++ [w₂] ∧ w₂.hole = true := by
  rcases List.eq_nil_or_concat l₂ with rfl | ⟨k, w₂, rfl⟩
  · rcases hrest with ⟨t, rfl, ht⟩ | hnil
    · exact ⟨[], t, rfl, ht⟩
    · exact absurd hnil (hne rfl)
  · rw [List.concat_eq_append] at hsplit ⊢
    have hww : w = w₂ := by
      have : l ++ [w] = (l₁ ++ c :: k) ++ [w₂] := by simpa using hsplit
      simpa using List.append_inj_right' this rfl
    exact ⟨rest ++ k, w₂, (List.append_assoc ..).symm, hww ▸ hw⟩

/-- A chunk `c` of the heap `h` was taken for a request: it is in use in `h₂`, and a hole is left at the end. -/
structure Taken (h : Heap) (cs : List Chunk) (size found : ℕ) (h₂ : Heap) (l₁ : List Chunk) (c : Chunk) (k : List Chunk)
    (w : Chunk) : Prop where
  ok : HeapOk h₂ (l₁ ++ c :: (k ++ [w]))
  last : w.hole = true
  inUse : c.hole = false
  addr : c.addr = found
  large : size ≤ c.size
  start : h₂.start = h.start
  stop : h.stop ≤ h₂.stop ∧ h₂.stop ≤ h.stop + size + 0x10000
  others : used cs = used l₁ ++ used k
  kept : UsedKept cs h.mem h₂.mem
  apart : HolesApart cs → HolesApart (l₁ ++ c :: (k ++ [w]))

theorem findNode_taken {found index : ℕ} (hok : HeapOk h (l ++ [w])) (hw : w.hole = true)
    (hfit : h.stop + size + 0x10000 < 2 ^ 64) (hsp : h.Spares size) (hfind : h.findNode size = .ok (found, index, h₁)) :
    ∃ bins m l₁ c k w₂,
      ((if sub64 (nodeSize h₁.mem found) size > overhead + minAllocSz then h₁.splitNode found size else .ok h₁) >>=
        fun h => { h with mem := setHole h.mem found 0 }.binRemove index found) = .ok { h₁ with bins := bins, mem := m } ∧
      Taken h (l ++ [w]) size found { h₁ with bins := bins, mem := m } l₁ c k w₂ := by
  obtain ⟨sz, c, hok₁, hstart₁, hstop₁, hsz, hc, hch, hcs, rfl, rfl, hkept₁⟩ := findNode_ok hok hw hfit hfind
  obtain ⟨l₁, l₂, hsplit⟩ := List.append_of_mem hc
  rw [hsplit] at hok₁
  obtain ⟨bins, m, c', rest, hr, hok₂, hca, hch', hcs', hrest, hag⟩ := hok₁.take hch hcs
  -- the wilderness is another chunk, or what is left of the one that was found
  have hw' : (w.grow sz).hole = true := hw
  have hend := hole_at_end hsplit hw' (hrest.imp And.right And.right) fun hnil => by
    subst hnil
    have hbig := hsp _ _ _ hfind hok₁.getWilderness.symm
    rw [(hok₁.chunk c (by simp)).size] at hbig
    rcases hrest with ⟨-, t, rfl, -⟩ | ⟨hsmall, -⟩
    · simp
    · exact absurd hbig hsmall
  obtain ⟨k, w₂, hk, hw₂⟩ := hend
  have hused₁ : used l = used l₁ ++ used l₂ := by
    have he := congrArg used hsplit
    rw [used_concat hw', used_append, used_hole hch] at he
    exact he
  have hused₂ : used l₂ = used k := by
    have he := congrArg used hk
    rw [used_append, used_concat hw₂] at he
    rcases hrest with ⟨-, t, rfl, ht⟩ | ⟨-, rfl⟩
    · simpa [used, ht] using he
    · simpa [used] using he
  rw [hk] at hok₂
  refine ⟨bins, m, l₁, c', k, w₂, hr, hok₂, hw₂, hch', hca, hcs', hstart₁, ?_, ?_, ?_, fun hap => ?_⟩
  · show h.stop ≤ h₁.stop ∧ h₁.stop ≤ _
    omega
  · rw [used_concat hw, hused₁, hused₂]
  · have hkept₂ : UsedKept (l₁ ++ c :: l₂) h₁.mem m := by
      refine UsedKept.of_agree hok₁.tiles hag (by simp +contextual [or_imp]) fun d hd => hok₁.tiles.outside ?_
      rw [used_append, used_hole hch, ← used_append] at hd
      exact (mem_used.mp hd).1
    have hl : used (l ++ [w]) = used l := used_concat hw
    have hkept : UsedKept (l ++ [w]) h.mem h₁.mem := fun d hd => hkept₁ d (hl ▸ hd)
    refine hkept.trans hkept₂ fun d hd => ?_
    rw [used_append, used_hole hch, ← hused₁, ← hl]
    exact hd
  · have hflags : (l ++ [w]).map Chunk.hole = l₁.map Chunk.hole ++ true :: l₂.map Chunk.hole := by
      have he := congrArg (List.map Chunk.hole) hsplit
      simpa [hch, Chunk.grow] using he
    rw [HolesApart, hflags] at hap
    obtain ⟨hap₁, hap₂⟩ := HolesApart.take hap
    have hflags' : (l₁ ++ c' :: (k ++ [w₂])).map Chunk.hole =
        l₁.map Chunk.hole ++ false :: (rest ++ l₂).map Chunk.hole := by
      rw [hk]
      simp [hch']
    rw [HolesApart, hflags']
    rcases hrest with ⟨-, t, rfl, ht⟩ | ⟨-, rfl⟩
    · simpa [ht] using hap₂
    · simpa using hap₁

/-- **`heap_alloc`.** A request that leaves a hole at the end of the heap is given a chunk of its own. -/
theorem HeapOk.alloc (hok : HeapOk h cs) (hlast : LastHole cs) (hfit : h.stop + size + 0x20000 < 2 ^ 64)
    (hsp : h.Spares size) (hr : h.heapAlloc size = .ok (p, h')) :
    ∃ cs' c, HeapOk h' cs' ∧ LastHole cs' ∧ h'.start = h.start ∧ h.stop ≤ h'.stop ∧
      h'.stop ≤ h.stop + size + 0x20000 ∧ p = c.addr + 32 ∧ size ≤ c.size ∧
      (∃ k₁ k₂, used cs = k₁ ++ k₂ ∧ used cs' = k₁ ++ c :: k₂) ∧ UsedKept cs h.mem h'.mem ∧
      (HolesApart cs → HolesApart cs') := by
  obtain ⟨l, w, rfl, hw⟩ := hlast
  unfold heapAlloc at hr
  obtain ⟨⟨found, index, h₁⟩, hfind, hr⟩ := Res.bind_ok hr
  obtain ⟨bins, m, l₁, c, k, w₂, hr₂, ht⟩ := findNode_taken hok hw (by omega) hsp hfind
  obtain ⟨h₂', hcut, hr⟩ := Res.bind_ok hr
  obtain ⟨h₂, hrem, hr⟩ := Res.bind_ok hr
  rw [hcut, Res.ok_bind, hrem, Except.ok.injEq] at hr₂
  subst hr₂
  obtain ⟨h₃, hrefill, hr⟩ := Res.bind_ok hr
  obtain ⟨rfl, rfl⟩ := Res.ok_pair hr
  obtain ⟨hstop, hstop'⟩ := ht.stop
  have hcons (w : Chunk) : l₁ ++ c :: (k ++ [w]) = (l₁ ++ c :: k) ++ [w] := by simp
  obtain ⟨sz, hok₃, hstart₃, hstop₃, hsz, hkept₃⟩ :=
    refillWilderness_ok (hcons w₂ ▸ ht.ok) ht.last (by omega) hrefill
  have hlast : (w₂.grow sz).hole = true := ht.last
  rw [← hcons] at hok₃
  have hok₄ := hok₃.clear ht.inUse
  rw [ht.addr] at hok₄
  have hlt := c.addr_lt
  have hb := (hok₃.bounds (c := c) (by simp)).2.2
  have hbound := hok₃.bound
  refine ⟨_, c, hok₄, ⟨l₁ ++ c :: k, w₂.grow sz, hcons _, hlast⟩, hstart₃.trans ht.start, ?_, ?_, ?_, ht.large,
    ⟨used l₁, used k, ht.others, ?_⟩, fun d hd x hx hx' => ?_, fun hap => ?_⟩
  · show h.stop ≤ h₃.stop
    omega
  · show h₃.stop ≤ h.stop + size + 0x20000
    omega
  · rw [← ht.addr, add64_eq (by omega)]
  · rw [hcons, used_concat hlast, used_append, used_used ht.inUse]
  · have hd' : d ∈ used (l₁ ++ k) := by rwa [ht.others, ← used_append] at hd
    have hd₃ : d ∈ used (l₁ ++ c :: k) := by
      rw [used_append] at hd'
      rw [used_append, used_used ht.inUse]
      rcases List.mem_append.mp hd' with h | h <;> simp [h]
    have hd₄ : d ∈ l₁ ++ (k ++ [w₂.grow sz]) := by
      rw [← List.append_assoc]
      exact List.mem_append_left _ (mem_used.mp hd').1
    rw [← ht.kept d hd x hx hx', ← hkept₃ d hd₃ x hx hx', ← ht.addr]
    exact hok₃.tiles.clear hd₄ hx hx'
  · have hsame : (l₁ ++ c :: (k ++ [w₂.grow sz])).map Chunk.hole = (l₁ ++ c :: (k ++ [w₂])).map Chunk.hole := by
      simp [Chunk.grow]
    rw [HolesApart, hsame]
    exact ht.apart hap

end Heap
end Coffer
