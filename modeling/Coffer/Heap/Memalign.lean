/-
# `heap_memalign`

An aligned chunk is cut out of the middle of a hole. The piece before it and the piece behind it become holes of their
own, if they have more than `MIN_ALLOC_SZ` bytes of payload. Otherwise nothing is done about them: their bytes then
belong to no chunk, and the chain of chunks is broken.

`heapMemalign_ok`: the heap stays well formed if the hole that is found is aligned already and the request does not take
the wilderness whole, or both pieces are kept. `heapMemalign_breaks` is a heap where the piece before is dropped.

Key definitions: `Supplied`, `MemalignMeets`.
Key theorems: `heapMemalign_ok`, `heapMemalign_breaks`.
-/
import Coffer.Heap.History

namespace Coffer
namespace Heap

open Lib

variable {dist most n : ℕ}

variable {h h' h₁ : Heap} {l l₁ l₂ cs cs' : List Chunk} {c d t w : Chunk} {m : Mem} {size sz p : ℕ}

/-! ### Requests that are granted -/

/-- The monitor grants what the next `n` calls of `expand` ask for, each of at most `most` bytes, and there are pages for
the tables. -/
def Supplied (most : ℕ) : ℕ → Sys → List SmReply → ℕ → Prop
  | 0, _, _, _ => True
  | n + 1, sys, rs, stop => ∀ sz ≤ most, ∃ sys' rest,
      (∀ h : Heap, h.sys = sys → h.replies = rs → h.stop = stop →
        h.mapGrants (partitionLoop id h.replies (h.nrPart sz) (h.nrPart sz) (partitionUp h.stop)) =
          .ok { h with sys := sys', replies := rest }) ∧
      Supplied most n sys' rest (stop + sz)

theorem HeapOk.expand_returns (hok : HeapOk h (l ++ [w])) (hw : w.hole = true) (hsz : h.stop + sz < 2 ^ 64)
    (hle : sz ≤ most) (hs : Supplied most (n + 1) h.sys h.replies h.stop) :
    ∃ h', h.expand sz = .ok (1, h') ∧ Supplied most n h'.sys h'.replies h'.stop := by
  obtain ⟨sys', rest, hm, hs'⟩ := hs sz hle
  have hok₁ : HeapOk { h with sys := sys', replies := rest } (l ++ [w]) := hok.of_eq rfl rfl rfl rfl
  obtain ⟨bins, m, hg, -, -⟩ := hok₁.grow hw hsz
  refine ⟨⟨h.start, h.stop + sz, bins, m, sys', rest⟩, ?_, hs'⟩
  rw [Heap.expand, hm h rfl rfl rfl, Res.ok_bind, hg]

theorem Supplied.mono {sys : Sys} {rs : List SmReply} {stop : ℕ} (hs : Supplied most (n + 1) sys rs stop) :
    Supplied most n sys rs stop := by
  induction n generalizing sys rs stop with
  | zero => trivial
  | succ n ih =>
    intro sz hsz
    obtain ⟨sys', rest, hm, hs'⟩ := hs sz hsz
    exact ⟨sys', rest, hm, ih hs'⟩

theorem findNode_returns (hok : HeapOk h (l ++ [w])) (hw : w.hole = true)
    (hfit : h.stop + size + 0x10000 < 2 ^ 64) (hle : size + 0x10000 ≤ most)
    (hs : Supplied most (n + 1) h.sys h.replies h.stop) :
    ∃ found index h₁, h.findNode size = .ok (found, index, h₁) ∧ Supplied most n h₁.sys h₁.replies h₁.stop := by
  have hmem : w ∈ l ++ [w] := by simp
  unfold findNode
  rcases hok.search size with ⟨hsr, hsmall⟩ | ⟨c, hc, -, -, hsr⟩
  · have hpos := (hok.bounds hmem).1
    have hws := hsmall w hmem hw
    have hwild : h.getWildSize = .ok w.size := by
      rw [getWildSize, hok.getWilderness, if_neg (by omega), (hok.chunk w hmem).size]
    have hinc : sub64 (add64 size 0x10000) w.size = size + 0x10000 - w.size := by
      rw [add64_eq (by omega), sub64_eq (by omega) (by omega)]
    simp only [hsr, walked, Res.ok_bind, ne_eq, not_true_eq_false, if_false, hwild, hinc]
    obtain ⟨h₂, he, hs₂⟩ := hok.expand_returns hw
      (show h.stop + (size + 0x10000 - w.size) < 2 ^ 64 by omega) (by omega) hs
    rw [he, Res.ok_bind]
    obtain ⟨-, -, hok₂, -⟩ := hok.expand hw (by omega) he
    -- the wilderness is large enough now
    rcases hok₂.search size with ⟨-, hsmall₂⟩ | ⟨c, hc, -, -, hs₂'⟩
    · have := hsmall₂ (w.grow (size + 0x10000 - w.size)) (by simp) hw
      have hg : (w.grow (size + 0x10000 - w.size)).size = w.size + (size + 0x10000 - w.size) := rfl
      omega
    · have hc0 : c.addr ≠ 0 := by
        have := (hok₂.bounds hc).1
        omega
      simp only [hs₂', Res.ok_bind, if_neg hc0]
      exact ⟨_, _, _, rfl, hs₂⟩
  · have hc0 : c.addr ≠ 0 := by
      have := (hok.bounds hc).1
      omega
    simp only [hsr, walked, Res.ok_bind, ne_eq, hc0, not_false_eq_true, if_true]
    exact ⟨_, _, _, rfl, hs.mono⟩

theorem refillWilderness_returns (hok : HeapOk h (l ++ [w])) (hw : w.hole = true)
    (hfit : h.stop + 0x10000 < 2 ^ 64) (hle : 0x10000 ≤ most) (hs : Supplied most (n + 1) h.sys h.replies h.stop) :
    ∃ h', h.refillWilderness = .ok h' := by
  have hmem : w ∈ l ++ [w] := by simp
  have hpos := (hok.bounds hmem).1
  have hmin : minWilderness = 0x10000 := rfl
  simp only [refillWilderness, hok.getWilderness, if_neg (Nat.ne_of_gt hpos), (hok.chunk w hmem).size]
  split_ifs
  · obtain ⟨h₂, he, -⟩ := hok.expand_returns hw (by omega) (by omega : minWilderness - w.size ≤ most) hs
    rw [he, Res.ok_bind, if_neg one_ne_zero]
    exact ⟨_, rfl⟩
  · exact ⟨_, rfl⟩

theorem HeapOk.alloc_returns (hok : HeapOk h cs) (hlast : LastHole cs)
    (hfit : h.stop + size + 0x20000 < 2 ^ 64) (hsp : h.Spares size) (hle : size + 0x10000 ≤ most)
    (hs : Supplied most 2 h.sys h.replies h.stop) : ∃ p h', h.heapAlloc size = .ok (p, h') := by
  obtain ⟨l, w, rfl, hw⟩ := hlast
  obtain ⟨found, index, h₁, hfind, hs₁⟩ := findNode_returns hok hw (by omega) hle hs
  obtain ⟨bins, m, l₁, c, k, w₂, hr₂, ht⟩ := findNode_taken hok hw (by omega) hsp hfind
  have hstop : h₁.stop ≤ h.stop + size + 0x10000 := ht.stop.2
  have hcons : l₁ ++ c :: (k ++ [w₂]) = (l₁ ++ c :: k) ++ [w₂] := by simp
  have hok₂ := ht.ok
  rw [hcons] at hok₂
  obtain ⟨h₃, hrefill⟩ := refillWilderness_returns hok₂ ht.last (by show h₁.stop + _ < _; omega) (by omega) hs₁
  obtain ⟨h₂', hcut, hrem⟩ := Res.bind_ok hr₂
  refine ⟨add64 found 32, { h₃ with mem := setNext (setPrev h₃.mem found 0) found 0 }, ?_⟩
  simp only [heapAlloc, hfind, Res.ok_bind, hcut, hrem, hrefill]

theorem findNode_again {found index : ℕ} (hr : h.findNode size = .ok (found, index, h₁)) :
    h₁.findNode size = .ok (found, index, h₁) := by
  unfold findNode at hr
  obtain ⟨⟨f, i⟩, hs, hr⟩ := Res.bind_ok hr
  by_cases hf : f ≠ 0
  · simp only [if_pos hf, Except.ok.injEq, Prod.mk.injEq] at hr
    obtain ⟨rfl, rfl, rfl⟩ := hr
    simp only [findNode, hs, Res.ok_bind, if_pos hf]
  · simp only [if_neg hf] at hr
    obtain ⟨ws, -, hr⟩ := Res.bind_ok hr
    obtain ⟨⟨r, h₂⟩, -, hr⟩ := Res.bind_ok hr
    obtain ⟨⟨f₂, i₂⟩, hs₂, hr⟩ := Res.bind_ok hr
    by_cases hf₂ : f₂ = 0
    · simp only [if_pos hf₂] at hr
      cases hr
    · simp only [if_neg hf₂, Except.ok.injEq, Prod.mk.injEq] at hr
      obtain ⟨rfl, rfl, rfl⟩ := hr
      simp only [findNode, hs₂, Res.ok_bind, ne_eq, hf₂, not_false_eq_true, if_true]

/-- `heap_alloc` returns the payload of the hole that was found. -/
theorem heapAlloc_addr {found index : ℕ} (hf : h.findNode size = .ok (found, index, h₁))
    (hr : h.heapAlloc size = .ok (p, h')) : p = add64 found 32 := by
  unfold heapAlloc at hr
  rw [hf, Res.ok_bind] at hr
  obtain ⟨h₂, -, hr⟩ := Res.bind_ok hr
  obtain ⟨h₃, -, hr⟩ := Res.bind_ok hr
  obtain ⟨h₄, -, hr⟩ := Res.bind_ok hr
  simp only [Except.ok.injEq, Prod.mk.injEq] at hr
  exact hr.1.symm

/-! ### Rounding -/

theorem roundup_spec {a b : ℕ} (ha : 0 < a) (hb : 0 < b) (hab : a + b ≤ 2 ^ 64) :
    a ≤ roundup a b ∧ roundup a b < a + b ∧ roundup a b % b = 0 := by
  have hdiv := Nat.div_add_mod (a - 1) b
  have hmod := Nat.mod_lt (a - 1) hb
  have hmul : ((a - 1) / b + 1) * b = b * ((a - 1) / b) + b := by
    rw [Nat.add_mul, Nat.mul_comm, Nat.one_mul]
  have heq : roundup a b = ((a - 1) / b + 1) * b := by
    rw [roundup, sub64_eq (by omega) (by omega), mul64_eq (by omega)]
  rw [heq]
  refine ⟨by omega, by omega, Nat.mul_mod_left _ _⟩

theorem roundup_zero {k : ℕ} (hk : k < 64) : roundup 0 (2 ^ k) = 0 := by
  have hsub : sub64 0 1 = 2 ^ 64 - 1 := by decide
  have hsplit : (2 : ℕ) ^ 64 = 2 ^ (64 - k) * 2 ^ k := by rw [← Nat.pow_add, Nat.sub_add_cancel (le_of_lt hk)]
  have hpos : 0 < (2 : ℕ) ^ k := Nat.two_pow_pos k
  have hdiv : (2 ^ 64 - 1) / 2 ^ k + 1 = 2 ^ (64 - k) := by
    have h1 : (2 ^ 64 - 1) / 2 ^ k = 2 ^ (64 - k) - 1 := by
      rw [hsplit]
      refine Nat.div_eq_of_lt_le ?_ ?_
      · rw [Nat.sub_mul, Nat.one_mul]
        omega
      · have : 0 < 2 ^ (64 - k) := Nat.two_pow_pos _
        rw [Nat.sub_add_cancel this]
        omega
    have : 0 < 2 ^ (64 - k) := Nat.two_pow_pos _
    omega
  rw [roundup, hsub, hdiv, mul64, ← hsplit]
  exact Nat.mod_self _

theorem toSsize_eq {x : ℕ} (hx : x < 2 ^ 63) : toSsize x = x := by
  rw [toSsize, BitVec.toInt_eq_toNat_of_lt]
  · simp only [BitVec.toNat_ofNat]
    rw [Nat.mod_eq_of_lt (by omega)]
  · simp only [BitVec.toNat_ofNat]
    rw [Nat.mod_eq_of_lt (by omega)]
    omega

/-! ### The three pieces -/

theorem Gap.keepPiece {m₀ : Mem} {lo hi : ℕ} {v : ℕ → Option ℕ} (g : Gap m₀ h l₁ lo hi l₂ v) (h1 : lo ≤ c.addr)
    (h2 : c.stop ≤ hi) (hc : c.hole = true) (hs : minAllocSz < c.size)
    (hv : ∀ b, (v b).isSome → b + 32 ≤ c.addr ∨ c.stop ≤ b) :
    ∃ bins m, h.keepPiece c.addr c.size = .ok { h with bins := bins, mem := m } ∧
      Gap m₀ { h with bins := bins, mem := m } l₁ lo hi l₂ (Function.update v c.addr (some (getBinIndex c.size))) ∧
      ChunkOk m c ∧
      ∀ d, ChunkOk h.mem d → lo ≤ d.addr → d.stop ≤ hi → d.stop ≤ c.addr ∨ c.stop ≤ d.addr →
        (∀ b, (v b).isSome → b = d.addr ∨ b + 32 ≤ d.addr ∨ d.stop ≤ b) → ChunkOk m d := by
  have hlt := c.addr_lt
  have hcs := c.stop_eq
  have hb := g.bounds_lt
  have hnone : v c.addr = none := by
    by_contra hne
    have := hv c.addr (Option.ne_none_iff_isSome.mp hne)
    omega
  have g₁ : Gap m₀ { h with mem := setHole h.mem c.addr 1 } l₁ lo hi l₂ v := g.store h1 (by omega) fun b hb => by
    have := hv b hb
    omega
  have hh₁ : nodeHole (setHole h.mem c.addr 1) c.addr = c.hole.toNat := by rw [hc]; exact nodeHole_setHole (by norm_num)
  obtain ⟨m₂, hm₂, g₂, hc₂, hout₂⟩ := g₁.resize h1 h2 hh₁ fun b hb => Or.inr (hv b hb)
  obtain ⟨bins, m₃, hr₃, g₃, hk₃⟩ := g₂.add (getBinIndex_lt c.size) h1 (by omega) hnone fun b hb => by
    have := hv b hb
    unfold Apart
    omega
  refine ⟨bins, m₃, ?_, g₃, hk₃.chunk hc₂ h1 h2 fun b hb => ?_, fun d hd h3 h4 hdc hvd => ?_⟩
  · have hpos : (c.size : ℤ) > (minAllocSz : ℕ) := by exact_mod_cast hs
    have hh₂ : nodeHole m₂ c.addr = 1 := by rw [hc₂.hole, hc, Bool.toNat_true]
    have hnew : ¬ (c.addr = 0 ∨ 1 = 0 ∨ c.size = 0) := by omega
    have hm₂' : createFoot (setSize (setHole h.mem c.addr 1) c.addr ((c.size : ℤ).toNat)) c.addr = m₂ := by
      rw [Int.toNat_natCast]
      exact hm₂
    simp only [Heap.keepPiece, if_pos hpos, hm₂', addNodeToBin, hh₂, hc₂.size, if_neg hnew]
    exact hr₃
  · rcases hb with hb | hb
    · exact Or.inl hb
    · exact Or.inr (hv b hb)
  · have hdlt := d.addr_lt
    have hds := d.stop_eq
    have hd₁ : ChunkOk (setHole h.mem c.addr 1) d := hd.store (by omega)
    have hd₂ : ChunkOk m₂ d := hd₁.congr (fun x h5 h6 => hout₂ x (by omega)) fun x h5 h6 => hout₂ x (by omega)
    refine hk₃.chunk hd₂ h3 h4 fun b hb => ?_
    rcases hb with hb | hb
    · omega
    · exact hvd b hb

/-- The piece before the aligned chunk, the aligned chunk, and the piece behind it. -/
def Chunk.front (c : Chunk) (dist : ℕ) : Chunk := ⟨c.addr, dist - overhead, true⟩
@[inherit_doc Chunk.front] def Chunk.aligned (c : Chunk) (dist sz : ℕ) : Chunk := ⟨c.addr + dist, sz, false⟩
@[inherit_doc Chunk.front] def Chunk.remain (c : Chunk) (dist sz : ℕ) : Chunk :=
  ⟨c.addr + dist + sz + overhead, c.size - dist - sz - overhead, true⟩

/-- **The hole is cut into three.** -/
theorem HeapOk.carve (hok : HeapOk h (l₁ ++ c :: l₂)) (hc : c.hole = true) (hd : overhead + minAllocSz < dist)
    (hs : dist + sz + overhead + minAllocSz < c.size) :
    ∃ bins₁ m₁ bins₂ m₂ bins₃ m₃,
      h.binRemove (getBinIndex c.size) c.addr = .ok { h with bins := bins₁, mem := m₁ } ∧
      nodeSize (setSize (setHole m₁ (c.addr + dist) 0) (c.addr + dist) sz) c.addr = c.size ∧
      { h with
        bins := bins₁
        mem := createFoot (setSize (setHole m₁ (c.addr + dist) 0) (c.addr + dist) sz) (c.addr + dist) }.keepPiece c.addr
        (dist - overhead : ℕ) = .ok { h with bins := bins₂, mem := m₂ } ∧
      { h with bins := bins₂, mem := m₂ }.keepPiece (c.addr + dist + sz + overhead)
        (c.size - dist - sz - overhead : ℕ) = .ok { h with bins := bins₃, mem := m₃ } ∧
      HeapOk { h with bins := bins₃, mem := m₃ } (l₁ ++ [c.front dist, c.aligned dist sz, c.remain dist sz] ++ l₂) ∧
      Agree (outer l₁ l₂) c.addr c.stop h.mem m₃ := by
  have h40 : overhead = 40 := rfl
  have h4 : minAllocSz = 4 := rfl
  have hcc := hok.chunk c (by simp)
  have hcs : c.stop = c.addr + overhead + c.size := rfl
  have hfa : (c.front dist).addr = c.addr := rfl
  have hfs : (c.front dist).stop = c.addr + dist := by
    show c.addr + overhead + (dist - overhead) = _
    omega
  have hna : (c.aligned dist sz).addr = c.addr + dist := rfl
  have hns : (c.aligned dist sz).stop = c.addr + dist + overhead + sz := rfl
  have hta : (c.remain dist sz).addr = c.addr + dist + sz + overhead := rfl
  have hts : (c.remain dist sz).stop = c.stop := by
    show c.addr + dist + sz + overhead + overhead + (c.size - dist - sz - overhead) = _
    omega
  have g := Gap.of_chunk hok
  rw [Chunk.bin_hole hc] at g
  obtain ⟨bins₁, m₁, hr₁, g₁, hk₁⟩ := g.remove_one
  have hs₁ : nodeSize m₁ c.addr = c.size := by
    rw [(hk₁.header le_rfl (by omega) fun b hb => Or.inl (le_of_eq hb.symm)).1]
    exact hcc.size
  -- the aligned chunk
  have g₂ : Gap h.mem { h with bins := bins₁, mem := setHole m₁ (c.addr + dist) 0 } l₁ c.addr c.stop l₂ noNode :=
    g₁.store_empty (by omega) (by omega)
  obtain ⟨m₂, hm₂, g₂, hn₂, -⟩ := g₂.resize (c := c.aligned dist sz) (by omega) (by omega)
    (nodeHole_setHole (by norm_num)) fun b hb => by cases hb
  -- the piece before it
  obtain ⟨bins₃, m₃, hr₃, g₃, hf₃, hkeep₃⟩ := g₂.keepPiece (c := c.front dist) le_rfl (by omega) rfl
    (by show minAllocSz < dist - overhead; omega) fun b hb => by cases hb
  have hn₃ := hkeep₃ _ hn₂ (by omega) (by omega) (by omega) fun b hb => by cases hb
  -- the piece behind it
  have hone {b : ℕ} (hb : (Function.update noNode (c.front dist).addr (some (getBinIndex (c.front dist).size)) b).isSome) :
      b = c.addr := by
    by_contra hne
    have hne' : b ≠ (c.front dist).addr := hne
    rw [Function.update_of_ne hne'] at hb
    cases hb
  obtain ⟨bins₄, m₄, hr₄, g₄, ht₄, hkeep₄⟩ := g₃.keepPiece (c := c.remain dist sz) (by omega) (by omega) rfl
    (by show minAllocSz < c.size - dist - sz - overhead; omega) fun b hb => by
      have := hone hb
      omega
  have hn₄ := hkeep₄ _ hn₃ (by omega) (by omega) (by omega) fun b hb => by
    have := hone hb
    omega
  have hf₄ := hkeep₄ _ hf₃ (by omega) (by omega) (by omega) fun b hb => Or.inl (hone hb)
  refine ⟨bins₁, m₁, bins₃, m₃, bins₄, m₄, hr₁, ?_, ?_, hr₄, ?_, g₄.frame⟩
  · rw [setSize, setHole, nodeSize_store (by omega), nodeSize_store (by omega), hs₁]
  · have hm₂' : createFoot (setSize (setHole m₁ (c.addr + dist) 0) (c.addr + dist) sz) (c.addr + dist) = m₂ := hm₂
    rw [hm₂']
    exact hr₃
  · have htiles : Tiles c.addr [c.front dist, c.aligned dist sz, c.remain dist sz] c.stop :=
      ⟨rfl, hfs.symm, by rw [hns, hta]; omega, hts⟩
    refine g₄.close htiles (fun d hd => ?_) ?_
    · simp only [List.mem_cons, List.not_mem_nil, or_false] at hd
      rcases hd with rfl | rfl | rfl
      · exact hf₄
      · exact hn₄
      · exact ht₄
    · have hne : (c.front dist).addr ≠ (c.aligned dist sz).addr := by omega
      have hne₁ : (c.front dist).addr ≠ (c.remain dist sz).addr := by omega
      have hne₂ : (c.aligned dist sz).addr ≠ (c.remain dist sz).addr := by omega
      have h1 : binOf ([c.front dist, c.aligned dist sz] ++ c.remain dist sz :: []) = _ :=
        binOf_middle (by simp [hne₁, hne₂])
      have h2 : binOf ([c.front dist] ++ c.aligned dist sz :: []) = _ := binOf_middle (by simp [hne])
      have h3 : binOf [c.front dist, c.aligned dist sz] = Function.update noNode c.addr (c.front dist).bin := by
        rw [List.singleton_append, List.append_nil, binOf_single, Chunk.bin_used (c := c.aligned dist sz) rfl,
          Function.update_comm hne, update_noNode] at h2
        exact h2
      rw [List.append_nil, h3] at h1
      exact h1.symm

/-- The heap after the cut has a hole at its end, which is brought back to its least size. -/
theorem HeapOk.carve_refill (hok : HeapOk h (l₁ ++ c :: l₂)) (hsplit : l ++ [w] = l₁ ++ c :: l₂)
    (hw : w.hole = true) (hc : c.hole = true)
    (hcut : HeapOk h' (l₁ ++ [c.front dist, c.aligned dist sz, c.remain dist sz] ++ l₂))
    (hag : Agree (outer l₁ l₂) c.addr c.stop h.mem h'.mem) (hfit : h'.stop + 0x10000 < 2 ^ 64) (hle : 0x10000 ≤ most)
    (hs : Supplied most (n + 1) h'.sys h'.replies h'.stop) :
    ∃ h₃ cs', h'.refillWilderness = .ok h₃ ∧ HeapOk h₃ cs' ∧ LastHole cs' ∧
      used cs' = used l₁ ++ c.aligned dist sz :: used l₂ ∧ UsedKept (l ++ [w]) h.mem h₃.mem := by
  have hrest : (∃ t, [c.remain dist sz] = [t] ∧ t.hole = true) ∨ [c.remain dist sz] = [] := Or.inl ⟨_, rfl, rfl⟩
  obtain ⟨k, w₂, hk, hw₂⟩ := hole_at_end hsplit hw hrest (by simp)
  have hcs₂ : l₁ ++ [c.front dist, c.aligned dist sz, c.remain dist sz] ++ l₂ =
      (l₁ ++ [c.front dist, c.aligned dist sz] ++ k) ++ [w₂] := by
    rw [List.append_assoc _ k, ← hk]
    simp
  rw [hcs₂] at hcut
  obtain ⟨h₃, hr⟩ := refillWilderness_returns hcut hw₂ hfit hle hs
  obtain ⟨sz₃, hok₃, -, -, -, hkept₃⟩ := refillWilderness_ok hcut hw₂ hfit hr
  have hw₃ : (w₂.grow sz₃).hole = true := hw₂
  have hkl : used k = used l₂ := by
    rw [← used_concat hw₂, ← hk, List.singleton_append, used_hole rfl]
  have hused : used (l₁ ++ [c.front dist, c.aligned dist sz] ++ k) = used l₁ ++ c.aligned dist sz :: used l₂ := by
    rw [used_append, used_append, used_hole rfl, used_used rfl, hkl]
    simp [used]
  have hused₀ : used (l ++ [w]) = used l₁ ++ used l₂ := by rw [hsplit, used_append, used_hole hc]
  refine ⟨h₃, _, hr, hok₃, ⟨_, _, rfl, hw₃⟩, by rw [used_concat hw₃, hused], ?_⟩
  rw [← hsplit] at hok
  have hkept : UsedKept (l ++ [w]) h.mem h'.mem := by
    refine UsedKept.of_agree hok.tiles hag (fun d hd => ?_) fun d hd => ?_
    · rw [hsplit]
      rcases List.mem_append.mp hd with hd | hd <;> simp [hd]
    · rw [hused₀, ← used_append] at hd
      rw [hsplit] at hok
      exact hok.tiles.outside (mem_used.mp hd).1
  refine hkept.trans hkept₃ fun d hd => ?_
  rw [hused₀] at hd
  rw [hused]
  rcases List.mem_append.mp hd with hd | hd <;> simp [hd]

/-! ### `heap_memalign` -/

/-- What `heap_memalign` is for: `p` is aligned and the payload of a chunk in use of at least `sz` bytes, the heap is
well formed with a hole at its end, and the chunks that were in use are as they were. -/
def AlignedBlock (h : Heap) (cs : List Chunk) (sz align p : ℕ) (h' : Heap) : Prop :=
  p % align = 0 ∧ ∃ cs' c, HeapOk h' cs' ∧ LastHole cs' ∧ p = c.addr + 32 ∧ sz ≤ c.size ∧
    (∃ k₁ k₂, used cs = k₁ ++ k₂ ∧ used cs' = k₁ ++ c :: k₂) ∧ UsedKept cs h.mem h'.mem

/-- The hole that is found is aligned, and the wilderness is not taken whole; or there is room for a hole before and a
hole behind the aligned chunk. -/
def MemalignMeets (h : Heap) (sz align : ℕ) : Prop :=
  ∀ found index h₁, h.findNode (roundup (add64 (roundup sz align) overhead) align) = .ok (found, index, h₁) →
    if add64 found 32 % align = 0 then h₁.Spares (roundup (add64 (roundup sz align) overhead) align)
    else
      let dist := roundup (add64 found 32) align - add64 found 32
      dist > overhead + minAllocSz ∧ nodeSize h₁.mem found > dist + roundup sz align + overhead + minAllocSz

theorem roundup_request (sz : ℕ) {k : ℕ} (hk : k < 64) (hfit : sz + 2 ^ k ≤ 2 ^ 64) :
    sz ≤ roundup sz (2 ^ k) ∧ roundup sz (2 ^ k) < sz + 2 ^ k := by
  have hpos : 0 < (2 : ℕ) ^ k := Nat.two_pow_pos k
  rcases Nat.eq_zero_or_pos sz with rfl | hsz
  · rw [roundup_zero hk]
    omega
  · exact ⟨(roundup_spec hsz hpos hfit).1, (roundup_spec hsz hpos hfit).2.1⟩

/-- The words of `heap_memalign`, for a hole that is not aligned. -/
theorem memalign_words (size sz : ℕ) {a align : ℕ} (hp : roundup (a + 32) align = a + 32 + dist) (hlt : a + 32 + dist < 2 ^ 63)
    (hd : overhead < dist) (hcs : dist + sz + overhead < size) (hsize : size < 2 ^ 63) :
    sub64 (roundup (a + 32) align) 32 = a + dist ∧ toSsize (sub64 (a + dist) a) = dist ∧
    (if (dist : ℤ) > (overhead : ℕ) then (dist : ℤ) - (overhead : ℕ) else 0) = (dist - overhead : ℕ) ∧
    toSsize (sub64 (sub64 (sub64 size ((dist - overhead : ℕ) : ℤ).toNat) sz) (2 * overhead)) =
      (size - dist - sz - overhead : ℕ) := by
  have h40 : overhead = 40 := rfl
  refine ⟨?_, ?_, ?_, ?_⟩
  · rw [hp, sub64_eq (by omega) (by omega)]
    omega
  · rw [sub64_eq (by omega) (by omega), Nat.add_sub_cancel_left, toSsize_eq (by omega)]
  · rw [if_pos (by exact_mod_cast hd), Nat.cast_sub (le_of_lt hd)]
  · rw [Int.toNat_natCast, sub64_eq (a := size) (by omega) (by omega), sub64_eq (b := sz) (by omega) (by omega),
      sub64_eq (by omega) (by omega), toSsize_eq (by omega)]
    congr 1
    omega

/-- **`heap_memalign` keeps the heap well formed**, and returns an aligned chunk of its own, from every well-formed heap,
for every size and every power of two for which no sum wraps, with all requests granted, if the hole that is found is
of one of the two kinds. -/
theorem heapMemalign_ok (h : Heap) (cs : List Chunk) (hok : HeapOk h cs) (hlast : LastHole cs) (sz k : ℕ) (hk : k < 63)
    (hfit : h.stop + sz + 4 * 2 ^ k + 0x30000 < 2 ^ 63)
    (hs : Supplied (sz + 2 * 2 ^ k + 0x11000) 3 h.sys h.replies h.stop) (hm : MemalignMeets h sz (2 ^ k)) :
    ∃ p h', h.heapMemalign sz (2 ^ k) = .ok (p, h') ∧ AlignedBlock h cs sz (2 ^ k) p h' := by
  obtain ⟨l, w, rfl, hw⟩ := hlast
  have hpos : 0 < (2 : ℕ) ^ k := Nat.two_pow_pos k
  have h40 : overhead = 40 := rfl
  obtain ⟨hsz₁, hsz₂⟩ := roundup_request sz (by omega : k < 64) (by omega)
  unfold MemalignMeets at hm
  simp only [heapMemalign]
  generalize roundup sz (2 ^ k) = sz' at *
  have hadd : add64 sz' overhead = sz' + overhead := add64_eq (by omega)
  rw [hadd] at hm ⊢
  obtain ⟨hs₁, hs₂, -⟩ := roundup_spec (a := sz' + overhead) (by omega) hpos (by omega)
  generalize roundup (sz' + overhead) (2 ^ k) = size at *
  obtain ⟨found, index, h₁, hfind, hsup⟩ := findNode_returns hok hw
    (show h.stop + size + 0x10000 < 2 ^ 64 by omega) (by omega) hs
  have hmf := hm _ _ _ hfind
  obtain ⟨sz₀, c, hok₁, hstart₁, hstop₁, hsz₀, hc, hch, hcs, rfl, rfl, hkept₁⟩ := findNode_ok hok hw (by omega) hfind
  have hcb := hok₁.bounds hc
  have hclt := c.addr_lt
  have hca : add64 c.addr 32 = c.addr + 32 := add64_eq (by omega)
  rw [hca] at hmf
  have hw' : (w.grow sz₀).hole = true := hw
  have hused₀ : used (l ++ [w]) = used l := used_concat hw
  have hused₁ : used (l ++ [w.grow sz₀]) = used l := used_concat hw'
  simp only [hfind, Res.ok_bind, hca]
  by_cases hal : (c.addr + 32) % 2 ^ k = 0
  · -- `heap_alloc` takes the hole
    rw [if_pos hal] at hmf ⊢
    have hlast₁ : LastHole (l ++ [w.grow sz₀]) := ⟨l, _, rfl, hw'⟩
    obtain ⟨p, h', hr⟩ := hok₁.alloc_returns hlast₁ (by omega) hmf (by omega) hsup
    obtain ⟨cs', c', hok', hlast', -, -, -, hp, hcs', ⟨k₁, k₂, hk₁, hk₂⟩, hkept, -⟩ := hok₁.alloc hlast₁ (by omega) hmf hr
    refine ⟨p, h', hr, ?_, cs', c', hok', hlast', hp, by omega, ⟨k₁, k₂, by rw [hused₀, ← hused₁, hk₁], hk₂⟩, ?_⟩
    · rw [heapAlloc_addr (findNode_again hfind) hr, hca, hal]
    · intro d hd x hx hx'
      rw [hused₀] at hd
      rw [hkept d (by rw [hused₁]; exact hd) x hx hx', hkept₁ d hd x hx hx']
  · -- the hole is cut into three
    simp only [if_neg hal] at hmf ⊢
    obtain ⟨l₁, l₂, hsplit⟩ := List.append_of_mem hc
    have hsize : nodeSize h₁.mem c.addr = c.size := (hok₁.chunk c hc).size
    rw [hsize] at hmf
    rw [hsplit] at hok₁
    obtain ⟨hp₁, hp₂, hp₃⟩ := roundup_spec (a := c.addr + 32) (by omega) hpos (by omega)
    obtain ⟨dist, hdist⟩ := Nat.exists_eq_add_of_le hp₁
    rw [hdist, Nat.add_sub_cancel_left] at hmf
    obtain ⟨hd, hroom⟩ := hmf
    obtain ⟨bins₁, m₁, bins₂, m₂, bins₃, m₃, hr₁, hr₂, hr₃, hr₄, hok₂, hag⟩ := hok₁.carve hch hd hroom
    have h4 : minAllocSz = 4 := rfl
    have hstop : c.stop = c.addr + overhead + c.size := rfl
    obtain ⟨hw₁, hw₂, hw₃, hw₄⟩ := memalign_words c.size sz' hdist (by omega) (by omega) (by omega) (by omega)
    have hta : add64 (add64 (c.addr + dist) sz') overhead = c.addr + dist + sz' + overhead := by
      rw [add64_eq (b := sz') (by omega), add64_eq (by omega)]
    rw [hr₁, Res.ok_bind]
    simp only [hw₁, hr₂, hw₂]
    rw [hw₃, hw₄, hta, hr₃, Res.ok_bind, hr₄, Res.ok_bind]
    obtain ⟨h₃, cs', hr₅, hok₃, hlast₃, hused₃, hkept₃⟩ := hok₁.carve_refill hsplit hw' hch hok₂ hag
      (by show h₁.stop + _ < _; omega) (by omega) hsup
    rw [hr₅, Res.ok_bind]
    have hl : used l = used l₁ ++ used l₂ := by
      rw [← hused₁, hsplit, used_append, used_hole hch]
    refine ⟨_, _, rfl, hp₃, cs', c.aligned dist sz', hok₃, hlast₃, ?_, hsz₁, ⟨used l₁, used l₂, hused₀.trans hl, hused₃⟩, ?_⟩
    · rw [hdist]
      show _ = c.addr + dist + 32
      omega
    · intro d hd x hx hx'
      rw [hused₀] at hd
      rw [hkept₃ d (by rw [hused₁]; exact hd) x hx hx', hkept₁ d hd x hx hx']

theorem supplied_within {stop : ℕ} {sys : Sys} {rs : List SmReply} (h0 : 0 < stop)
    (hstop : stop + n * most ≤ 0x200000) : Supplied most n sys rs stop := by
  have hup {a : ℕ} (ha : 0 < a) (ha' : a ≤ 0x200000) : partitionUp a = 0x200000 := by
    rw [partitionUp_eq (by omega)]
    omega
  induction n generalizing stop with
  | zero => trivial
  | succ n ih =>
    intro sz hsz
    rw [Nat.succ_mul] at hstop
    refine ⟨sys, rs, fun h hs hr he => ?_, ih (by omega) (by omega)⟩
    have hnr : h.nrPart sz = 0 := by
      rw [nrPart, he, add64_eq (by omega), hup (by omega) (by omega), hup h0 (by omega)]
      rfl
    rw [hnr, ← hs, ← hr]
    cases h.replies <;> rfl

/-- A hole of 64 KiB and a page is all. -/
def wideHole : Heap := layout 0x1000 0x12028 [⟨0x1000, 0x11000, true⟩] Sys.blank

theorem wideHole_ok : HeapOk wideHole [⟨0x1000, 0x11000, true⟩] :=
  HeapOk.of_singles (by decide) (by decide) (by decide) (by decide) (by decide) (by decide) (by decide)

theorem wideHole_supplied : Supplied (64 + 2 * 2 ^ 8 + 0x11000) 3 wideHole.sys wideHole.replies wideHole.stop :=
  supplied_within (by decide) (by decide)

/-- 64 bytes with an alignment of 256. -/
theorem heapMemalign_ok_one : ∃ p h', wideHole.heapMemalign 64 (2 ^ 8) = .ok (p, h') ∧
    AlignedBlock wideHole [⟨0x1000, 0x11000, true⟩] 64 (2 ^ 8) p h' := by
  refine heapMemalign_ok wideHole _ wideHole_ok ⟨[], _, rfl, rfl⟩ 64 8 (by decide) (by decide) wideHole_supplied ?_
  intro found index h₁ hr
  have hrun : (wideHole.findNode (roundup (add64 (roundup 64 (2 ^ 8)) overhead) (2 ^ 8))).toOption.map
      (fun r => (r.1, nodeSize r.2.2.mem r.1)) = some (0x1000, 0x11000) := by decide +kernel
  rw [hr] at hrun
  simp only [Except.toOption, Option.map_some, Option.some.injEq, Prod.mk.injEq] at hrun
  rw [hrun.2, hrun.1, if_neg (by decide)]
  decide

/-- **The piece before the aligned chunk is dropped.** With an alignment of 64 the aligned chunk is 32 bytes behind the
start of the hole, which is the start of the heap. No chunk can lie before it. -/
theorem heapMemalign_breaks : HeapOk wideHole [⟨0x1000, 0x11000, true⟩] ∧ LastHole [⟨0x1000, 0x11000, true⟩] ∧
    Supplied (64 + 2 * 2 ^ 6 + 0x11000) 3 wideHole.sys wideHole.replies wideHole.stop ∧
    ∃ h', wideHole.heapMemalign 64 (2 ^ 6) = .ok (0x1040, h') ∧
      ¬ AlignedBlock wideHole [⟨0x1000, 0x11000, true⟩] 64 (2 ^ 6) 0x1040 h' := by
  refine ⟨wideHole_ok, ⟨[], _, rfl, rfl⟩, supplied_within (by decide) (by decide), ?_⟩
  have hrun : (wideHole.heapMemalign 64 (2 ^ 6)).toOption.map (fun r => (r.1, r.2.start)) = some (0x1040, 0x1000) := by
    decide +kernel
  obtain ⟨⟨p, h'⟩, hr, hp⟩ := Option.map_eq_some_iff.mp hrun
  rw [Prod.mk.injEq] at hp
  obtain ⟨rfl, hstart⟩ := hp
  refine ⟨h', Res.eq_ok_of_toOption hr, ?_⟩
  rintro ⟨-, cs', c, hok, -, hc, -, ⟨k₁, k₂, -, hk⟩, -⟩
  have hmem : c ∈ cs' := (mem_used.mp (by rw [hk]; simp)).1
  have ht := hok.tiles
  replace hstart : h'.start = 0x1000 := hstart
  rw [hstart] at ht
  -- the first chunk of the heap reaches into the aligned one
  cases cs' with
  | nil => cases hmem
  | cons d l =>
    obtain ⟨hd, ht⟩ := ht
    have hds := d.stop_eq
    have hdlt := d.addr_lt
    rcases List.mem_cons.mp hmem with rfl | hmem
    · omega
    · have := (ht.bounds hmem).1
      omega

end Heap
end Coffer
