/-
# `heap_free`

A chunk that is freed becomes a hole together with the holes before and behind it (`HeapOk.free`). The first chunk of
the heap takes another path, which looks at no neighbour and panics for a chunk of size 0 (`HeapOk.free_first`,
`HeapOk.free_first_panics`).

Key definitions: `Chunk.join`, `Chunk.freed`, `Front`, `Back`.
Key theorems: `HeapOk.free`, `HeapOk.free_first`.
-/
import Coffer.Heap.Expand

namespace Coffer
namespace Heap

open Lib

variable {h h' : Heap} {l l₁ l₂ cs : List Chunk} {c d e x : Chunk} {m₀ : Mem} {lo hi : ℕ}

/-! ### Joining neighbours -/

/-- The chunk that takes in the one behind it. -/
def Chunk.join (c d : Chunk) : Chunk := { c with size := c.size + (overhead + d.size) }

theorem Chunk.join_stop (hcd : c.stop = d.addr) : (c.join d).stop = d.stop := by
  have hc : c.addr + overhead + c.size = d.addr := hcd
  show c.addr + overhead + (c.size + (overhead + d.size)) = d.addr + overhead + d.size
  omega

theorem Chunk.join_foot (hcd : c.stop = d.addr) : (c.join d).foot = d.foot := by
  have h1 := (c.join d).stop_eq
  have h2 := d.stop_eq
  have h3 := Chunk.join_stop hcd
  omega

theorem Gap.take_next {v : ℕ → Option ℕ} (g : Gap m₀ h l₁ lo hi (e :: l₂) v) :
    Gap m₀ h l₁ lo e.stop l₂ (Function.update v e.addr e.bin) := by
  have hlt := e.addr_lt
  have hle := g.le
  have hea : e.addr = hi := g.after.1
  have hne : ∀ d ∈ l₁ ++ l₂, d.addr ≠ e.addr := by
    intro d hd
    have hdlt := d.addr_lt
    rcases List.mem_append.mp hd with hd | hd
    · have := (g.before.bounds hd).2
      omega
    · have := (g.after.2.bounds hd).1
      omega
  have hmid := binOf_middle hne
  have hnone : binOf (l₁ ++ l₂) e.addr = none := by
    by_contra hs
    obtain ⟨d, hd, hda, -⟩ := binOf_isSome (Option.ne_none_iff_isSome.mp hs)
    exact hne d hd hda
  have hv : v e.addr = none := by
    by_contra hs
    have := g.room e.addr (Option.ne_none_iff_isSome.mp hs)
    omega
  refine ⟨g.pos, g.before, by omega, g.after.2, g.bound, fun c hc => g.chunk c ?_, fun a ha => ?_, ?_, ?_⟩
  · simp only [List.mem_append, List.mem_cons] at hc ⊢
    tauto
  · by_cases hae : a = e.addr
    · omega
    · rw [Function.update_of_ne hae] at ha
      have := g.room a ha
      omega
  · have hfun : (fun a => (Function.update v e.addr e.bin a).or (binOf (l₁ ++ l₂) a)) =
        fun a => (v a).or (binOf (l₁ ++ e :: l₂) a) := by
      funext a
      rw [hmid]
      by_cases hae : a = e.addr
      · subst hae
        simp [hnone, hv]
      · simp [Function.update_of_ne hae]
    rw [hfun]
    exact g.bins
  · refine g.frame.mono le_rfl (by omega) fun a ha => ?_
    unfold outer at ha
    rw [hmid] at ha
    by_cases hae : a = e.addr
    · omega
    · rw [Function.update_of_ne hae] at ha
      exact Or.inl ha

/-- The chunk behind takes in nothing, or `next` is a hole and is taken in. -/
theorem mergeNext_ok (g : Gap m₀ h l₁ x.addr x.stop (e :: l₂) noNode) (hx : ChunkOk h.mem x) :
    (e.hole = false ∧ h.mergeNext x.addr e.addr = .ok h) ∨
    ∃ bins m, e.hole = true ∧ h.mergeNext x.addr e.addr = .ok { h with bins := bins, mem := m } ∧
      Gap m₀ { h with bins := bins, mem := m } l₁ x.addr (x.join e).stop l₂ noNode ∧ ChunkOk m (x.join e) := by
  have hce := g.chunk e (by simp)
  have hea : x.stop = e.addr := g.after.1.symm
  cases hh : e.hole with
  | false =>
    refine Or.inl ⟨rfl, ?_⟩
    rw [mergeNext, hce.hole, hh, Bool.toNat_false, if_pos rfl]
  | true =>
    have hxlt := x.addr_lt
    have hxs := x.stop_eq
    have helt := e.addr_lt
    have hes := e.stop_eq
    have hjs := Chunk.join_stop hea
    have hjf := Chunk.join_foot hea
    have hja : (x.join e).addr = x.addr := rfl
    have g₁ := g.take_next
    have hlt := g₁.bounds_lt
    rw [Chunk.bin_hole hh] at g₁
    obtain ⟨bins, m, hr, g₁, hk⟩ := g₁.remove_one
    have hx₁ : ChunkOk m x := hk.chunk hx le_rfl (by omega) fun b hb => by omega
    obtain ⟨hes₁, -⟩ := hk.header (a := e.addr) (by omega) (by omega) fun b hb => Or.inl (le_of_eq hb.symm)
    have hsize : add64 x.size (add64 overhead e.size) = (x.join e).size := by
      have h1 : x.stop = x.addr + 40 + x.size := rfl
      have h2 : e.stop = e.addr + 40 + e.size := rfl
      have h3 : overhead = 40 := rfl
      rw [add64_eq (a := overhead) (by omega), add64_eq (by omega)]
      rfl
    have hjlt : (x.join e).size < 2 ^ 64 := hsize ▸ add64_lt _ _
    -- the header of `x`, then the footer and the header of `e`, then the footer of both
    generalize hm₁ : setSize m x.addr (x.join e).size = m₁
    have g₂ : Gap m₀ { h with bins := bins, mem := m₁ } l₁ x.addr e.stop l₂ noNode :=
      hm₁ ▸ g₁.store_empty (by omega) (by omega)
    have hs₁ : nodeSize m₁ x.addr = (x.join e).size := hm₁ ▸ nodeSize_setSize hjlt
    have hh₁ : nodeHole m₁ x.addr = x.hole.toNat := by rw [← hm₁, nodeHole_setSize, hx₁.hole]
    have he₁ : getFoot m₁ e.addr = e.foot := by
      have : nodeSize m₁ e.addr = e.size := by
        rw [← hm₁, setSize, nodeSize_store (by omega), hes₁]
        exact hce.size
      rw [getFoot, this, add64_eq]
      · rfl
      · show e.foot < 2 ^ 64
        omega
    generalize hm₂ : setHole (setSize (m₁.store e.foot 8 0) e.addr 0) e.addr 0 = m₂
    have g₃ : Gap m₀ { h with bins := bins, mem := m₂ } l₁ x.addr e.stop l₂ noNode := by
      rw [← hm₂]
      exact ((g₂.store_empty (by omega) (by omega)).store_empty (by omega) (by omega)).store_empty (by omega) (by omega)
    have hs₂ : nodeSize m₂ x.addr = (x.join e).size := by
      rw [← hm₂, setHole, setSize, nodeSize_store (by omega), nodeSize_store (by omega), nodeSize_store (by omega), hs₁]
    have hh₂ : nodeHole m₂ x.addr = x.hole.toNat := by
      rw [← hm₂, setHole, setSize, nodeHole_store (by omega), nodeHole_store (by omega), nodeHole_store (by omega), hh₁]
    have hfoot : createFoot m₂ x.addr = m₂.store (x.join e).foot 8 x.addr := createFoot_eq (c := x.join e) hs₂ (by omega)
    refine Or.inr ⟨bins, m₂.store (x.join e).foot 8 x.addr, rfl, ?_, ?_, ?_, ?_, ?_⟩
    · rw [mergeNext, hce.hole, hh, Bool.toNat_true, if_neg one_ne_zero, hce.size, hr, Res.ok_bind]
      simp only [hx₁.size, hes₁, hce.size, hsize, hm₁, he₁, hm₂, hfoot]
    · rw [hjs]
      exact g₃.store_empty (by omega) (by omega)
    · rw [hja, nodeSize_store (by omega), hs₂]
    · rw [hja, nodeHole_store (by omega), hh₂]
      rfl
    · rw [Mem.load_store_self]
      exact Nat.mod_eq_of_lt (by omega)

theorem mergePrev_ok (hok : HeapOk h (l ++ d :: c :: l₂)) (hc : c.hole = false) :
    (d.hole = false ∧ h.mergePrev c.addr d.addr = .ok (c.addr, h)) ∨
    ∃ bins m, d.hole = true ∧ h.mergePrev c.addr d.addr = .ok (d.addr, { h with bins := bins, mem := m }) ∧
      Gap h.mem { h with bins := bins, mem := m } l d.addr (d.join c).stop l₂ noNode ∧ ChunkOk m (d.join c) := by
  have hcd := hok.chunk d (by simp)
  have hcc := hok.chunk c (by simp)
  obtain ⟨htl, hdc, ht₂⟩ : Tiles h.start l d.addr ∧ c.addr = d.stop ∧ Tiles c.stop l₂ h.stop := tiles_middle.mp hok.tiles
  have hdlt := d.addr_lt
  have hds := d.stop_eq
  have hclt := c.addr_lt
  have hcs := c.stop_eq
  have hjs := Chunk.join_stop hdc.symm
  have hjf := Chunk.join_foot hdc.symm
  have hja : (d.join c).addr = d.addr := rfl
  cases hh : d.hole with
  | false =>
    refine Or.inl ⟨rfl, ?_⟩
    rw [mergePrev, hcd.hole, hh, Bool.toNat_false, if_pos rfl]
  | true =>
    have g := (Gap.of_chunk hok).take_next
    have hlt := g.bounds_lt
    have hne : c.addr ≠ d.addr := by omega
    rw [Chunk.bin_hole hh, Chunk.bin_used hc, Function.update_comm hne.symm, update_noNode] at g
    obtain ⟨bins, m, hr, g, hk⟩ := g.remove_one
    obtain ⟨hds₁, hdh₁⟩ := hk.header (a := d.addr) (by omega) (by omega) fun b hb => Or.inl (le_of_eq hb.symm)
    have hc₁ : ChunkOk m c := hk.chunk hcc (by omega) le_rfl fun b hb => by omega
    have hsize : add64 d.size (add64 overhead c.size) = (d.join c).size := by
      have h1 : d.stop = d.addr + 40 + d.size := rfl
      have h2 : c.stop = c.addr + 40 + c.size := rfl
      have h3 : overhead = 40 := rfl
      rw [add64_eq (a := overhead) (by omega), add64_eq (by omega)]
      rfl
    have hjlt : (d.join c).size < 2 ^ 64 := hsize ▸ add64_lt _ _
    generalize hm₁ : setSize m d.addr (d.join c).size = m₁
    have g₁ : Gap h.mem { h with bins := bins, mem := m₁ } l d.addr c.stop l₂ noNode :=
      hm₁ ▸ g.store_empty (by omega) (by omega)
    have hfoot : getFoot m₁ c.addr = (d.join c).foot := by
      have : nodeSize m₁ c.addr = c.size := by
        rw [← hm₁, setSize, nodeSize_store (by omega), hc₁.size]
      rw [hjf, getFoot, this, add64_eq]
      · rfl
      · show c.foot < 2 ^ 64
        omega
    refine Or.inr ⟨bins, m₁.store (d.join c).foot 8 d.addr, rfl, ?_, ?_, ?_, ?_, ?_⟩
    · rw [mergePrev, hcd.hole, hh, Bool.toNat_true, if_neg one_ne_zero, hcd.size, hr, Res.ok_bind]
      simp only [hds₁, hcd.size, hc₁.size, hsize, hm₁, hfoot]
    · rw [hjs]
      exact g₁.store_empty (by omega) (by omega)
    · rw [hja, nodeSize_store (by omega), ← hm₁, nodeSize_setSize hjlt]
    · rw [hja, nodeHole_store (by omega), ← hm₁, nodeHole_setSize, hdh₁]
      exact hcd.hole
    · rw [Mem.load_store_self]
      exact Nat.mod_eq_of_lt (by omega)

/-! ### Freeing a chunk -/

/-- The chunk as a hole. -/
def Chunk.freed (c : Chunk) : Chunk := { c with hole := true }

/-- `l'` is `l` without its last chunk if that is a hole. -/
def Front (l l' : List Chunk) : Prop :=
  (∃ k d, l = k ++ [d] ∧ d.hole = false ∧ l' = l) ∨ ∃ d, l = l' ++ [d] ∧ d.hole = true

/-- `l'` is `l` without its first chunk if that is a hole. -/
def Back (l l' : List Chunk) : Prop :=
  (∃ e k, l = e :: k ∧ e.hole = false ∧ l' = l) ∨ ∃ e, l = e :: l' ∧ e.hole = true

theorem Gap.release (g : Gap m₀ h l₁ x.addr x.stop l₂ noNode) (hx : ChunkOk h.mem x) :
    nodeSize (setHole h.mem x.addr 1) x.addr = x.size ∧
    ∃ bins m, { h with mem := setHole h.mem x.addr 1 }.binAdd (getBinIndex x.size) x.addr =
        .ok { h with bins := bins, mem := m } ∧
      HeapOk { h with bins := bins, mem := m } (l₁ ++ x.freed :: l₂) ∧ Agree (outer l₁ l₂) x.addr x.stop m₀ m := by
  have hlt := x.addr_lt
  have hs : nodeSize (setHole h.mem x.addr 1) x.addr = x.size := by rw [nodeSize_setHole, hx.size]
  have g₁ : Gap m₀ { h with mem := setHole h.mem x.addr 1 } l₁ x.freed.addr x.freed.stop l₂ noNode :=
    g.store_empty le_rfl (by omega)
  refine ⟨hs, g₁.hang ⟨hs, nodeHole_setHole (by norm_num), ?_⟩ rfl⟩
  show (setHole h.mem x.addr 1).load x.foot 8 = x.addr
  rw [setHole, Mem.load_store_disj _ (by omega), hx.foot]

/-- **`heap_free` of a chunk that is not the first** joins it with the holes at its sides. -/
theorem HeapOk.free (hok : HeapOk h (l₁ ++ c :: l₂)) (hc : c.hole = false) (h₁ : l₁ ≠ []) (h₂ : l₂ ≠ []) :
    ∃ bins m l₁' x l₂', h.heapFree (c.addr + 32) = .ok { h with bins := bins, mem := m } ∧
      HeapOk { h with bins := bins, mem := m } (l₁' ++ x :: l₂') ∧ x.hole = true ∧ Front l₁ l₁' ∧ Back l₂ l₂' ∧
      Agree (outer l₁' l₂') x.addr x.stop h.mem m := by
  obtain ⟨l, d, rfl⟩ : ∃ l d, l₁ = l ++ [d] := ⟨_, _, (List.dropLast_append_getLast h₁).symm⟩
  obtain ⟨e, l', rfl⟩ := List.exists_cons_of_ne_nil h₂
  have hok' : HeapOk h (l ++ d :: c :: e :: l') := by simpa using hok
  have hcc := hok.chunk c (by simp)
  have hcd := hok.chunk d (by simp)
  obtain ⟨htl, hdc, hce, -⟩ : Tiles h.start l d.addr ∧ c.addr = d.stop ∧ e.addr = c.stop ∧ _ :=
    tiles_middle.mp hok'.tiles
  have hpos := (hok'.bounds (c := d) (by simp)).2.1
  have hstop := (hok'.bounds (c := c) (by simp)).2.2
  have hbound := hok.bound
  have hdlt := d.addr_lt
  have hds := d.stop_eq
  have hclt := c.addr_lt
  have hcs := c.stop_eq
  have hhead : sub64 (c.addr + 32) 32 = c.addr := by rw [sub64_eq (by omega) (by omega)]; omega
  have hnext : add64 (Heap.getFoot h.mem c.addr) 8 = e.addr := by
    rw [hok.getFoot (by simp), add64_eq (by omega)]
    omega
  have hprev : h.mem.load (sub64 c.addr 8) 8 = d.addr := by
    have hfoot : c.addr - 8 = d.foot := by omega
    rw [sub64_eq (by omega) (by omega), hfoot, hcd.foot]
  have hne : c.addr ≠ h.start := by omega
  simp only [heapFree, hhead, if_neg hne, hnext, hprev]
  -- the hole before takes it in or not
  have hmerge : ∃ h₁ l₁' x, h.mergePrev c.addr d.addr = .ok (x.addr, h₁) ∧
      (∃ bins m, h₁ = { h with bins := bins, mem := m }) ∧ Gap h.mem h₁ l₁' x.addr x.stop (e :: l') noNode ∧
      ChunkOk h₁.mem x ∧ Front (l ++ [d]) l₁' := by
    rcases mergePrev_ok hok' hc with ⟨hd, hr⟩ | ⟨bins, m, hd, hr, g, hx⟩
    · have g := Gap.of_chunk hok
      rw [Chunk.bin_used hc, update_noNode] at g
      exact ⟨h, l ++ [d], c, hr, ⟨h.bins, h.mem, rfl⟩, g, hcc, Or.inl ⟨l, d, rfl, hd, rfl⟩⟩
    · exact ⟨_, l, d.join c, hr, ⟨bins, m, rfl⟩, g, hx, Or.inr ⟨d, rfl, hd⟩⟩
  obtain ⟨h₁, l₁', x, hr, ⟨bins₁, m₁, rfl⟩, g, hx, hfront⟩ := hmerge
  simp only [hr, Res.ok_bind]
  -- it takes in the hole behind or not
  rcases mergeNext_ok g hx with ⟨he, hr⟩ | ⟨bins₂, m₂, he, hr, g, hx⟩
  · obtain ⟨hs, bins, m, hr', hok₂, hag⟩ := g.release hx
    refine ⟨bins, m, l₁', x.freed, e :: l', ?_, hok₂, rfl, hfront, Or.inl ⟨e, l', rfl, he, rfl⟩, hag⟩
    simp only [hr, Res.ok_bind, hs]
    exact hr'
  · have hja : (x.join e).addr = x.addr := rfl
    obtain ⟨hs, bins, m, hr', hok₂, hag⟩ := Gap.release (x := x.join e) g hx
    rw [hja] at hs hr'
    refine ⟨bins, m, l₁', (x.join e).freed, l', ?_, hok₂, rfl, hfront, Or.inr ⟨e, rfl, he⟩, hag⟩
    simp only [hr, Res.ok_bind, hs]
    exact hr'

/-- **`heap_free` of the first chunk** joins nothing. -/
theorem HeapOk.free_first (hok : HeapOk h (c :: l)) (hc : c.hole = false) (hs : c.size ≠ 0) :
    ∃ bins m, h.heapFree (c.addr + 32) = .ok { h with bins := bins, mem := m } ∧
      HeapOk { h with bins := bins, mem := m } (c.freed :: l) ∧ Agree (outer [] l) c.addr c.stop h.mem m := by
  have hcc := hok.chunk c (by simp)
  have hb := hok.bounds (c := c) (by simp)
  have hbound := hok.bound
  have hlt := c.addr_lt
  have hstart : c.addr = h.start := hok.tiles.1
  have hhead : sub64 (c.addr + 32) 32 = c.addr := by rw [sub64_eq (by omega) (by omega)]; omega
  have g : Gap h.mem h [] c.addr c.stop l _ := Gap.of_chunk hok
  rw [Chunk.bin_used hc, update_noNode] at g
  obtain ⟨hs₁, bins, m, hr, hok₁, hag⟩ := g.release hcc
  refine ⟨bins, m, ?_, hok₁, hag⟩
  have hh₁ : nodeHole (setHole h.mem c.addr 1) c.addr = 1 := nodeHole_setHole (by norm_num)
  have hn : ¬ (c.addr = 0 ∨ 1 = 0 ∨ c.size = 0) := by omega
  simp only [heapFree, hhead, if_pos hstart, addNodeToBin, hh₁, hs₁, if_neg hn]
  exact hr

theorem HeapOk.free_first_panics (hok : HeapOk h (c :: l)) (hs : c.size = 0) :
    h.heapFree (c.addr + 32) = .error (.panic "error adding node\n") := by
  have hcc := hok.chunk c (by simp)
  have hb := hok.bounds (c := c) (by simp)
  have hbound := hok.bound
  have hlt := c.addr_lt
  have hstart : c.addr = h.start := hok.tiles.1
  have hhead : sub64 (c.addr + 32) 32 = c.addr := by rw [sub64_eq (by omega) (by omega)]; omega
  have hs₁ : nodeSize (setHole h.mem c.addr 1) c.addr = 0 := by rw [nodeSize_setHole, hcc.size, hs]
  simp only [heapFree, hhead, if_pos hstart, addNodeToBin, hs₁, or_true, if_true]

end Heap
end Coffer
