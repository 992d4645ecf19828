/-
# Histories of the heap

A program calls `heap_alloc`, `heap_calloc` and `heap_free`, and writes to the blocks that it holds. Over every history
from `init_heap` whose requests leave a hole at the end of the heap, the chunks in use are exactly the blocks held
(`HeapInv.run`), so the blocks are disjoint and contain no header or footer (`heap_exclusive`). A request that takes the
wilderness whole breaks this: the chunk in use at the end is taken for the wilderness later, and given out again
(`heap_twice`).

If also no first chunk is freed before its neighbour, holes are never neighbours, and when everything is freed there is
one hole (`heapFree_coalesces`).

Key definitions: `Block`, `HeapOp`, `Meets`, `HeapInv`, `Exclusive`, `Coalesced`.
Key theorems: `HeapInv.step`, `HeapInv.run`, `heap_exclusive`, `heapFree_coalesces`.
-/
import Coffer.Heap.Alloc

namespace Coffer
namespace Heap

open Lib

variable {h h' h₁ : Heap} {l l₁ l₂ cs cs' : List Chunk} {c d w : Chunk} {m : Mem} {size p : ℕ}

/-! ### The heap that `init_heap` builds -/

/-- The start and the end of the heap are nothing to `add_node`. -/
theorem binAdd_bounds {s t index node : ℕ} {bins : ℕ → ℕ}
    (hr : { h with start := s, stop := t }.binAdd index node = .ok { h with start := s, stop := t, bins := bins, mem := m }) :
    h.binAdd index node = .ok { h with bins := bins, mem := m } := by
  unfold binAdd at *
  simp only at hr
  cases ha : addNode h.mem (h.bins index) node with
  | none =>
    rw [ha] at hr
    cases hr
  | some r =>
    rw [ha] at hr
    simp only [walked, Res.ok_bind, Except.ok.injEq, Heap.mk.injEq, true_and, and_true] at hr ⊢
    exact hr

/-- The one hole of the first heap. -/
def firstHole : Chunk := ⟨poolVaStart, heapInitSize - overhead, true⟩

theorem firstHole_stop : firstHole.stop = poolVaStart + heapInitSize := by
  show poolVaStart + overhead + (heapInitSize - overhead) = _
  unfold overhead heapInitSize
  omega

theorem initHeap_ok {sys : Sys} {rs : List SmReply} (hr : initHeap m sys rs = .ok h) : HeapOk h [firstHole] := by
  unfold initHeap at hr
  obtain ⟨h₁, hm, hr⟩ := Res.bind_ok hr
  obtain ⟨sys', rest, -, -, rfl⟩ := mapGrants_ok hm
  obtain ⟨h₂, ha, hr⟩ := Res.bind_ok hr
  rw [Except.ok.injEq] at hr
  subst hr
  have hva := poolVaStart_eq
  have hstop := firstHole_stop
  have hlt := firstHole.addr_lt
  have hsize : heapInitSize = 0x200000 := rfl
  have haddr : firstHole.addr = poolVaStart := rfl
  -- the header, the footer and the bin of the hole, in a heap that has its bounds already
  have g : Gap m ⟨poolVaStart, firstHole.stop, fun _ => 0, m, sys', rest⟩ [] firstHole.addr firstHole.stop [] noNode :=
    Gap.empty (by omega) (by omega) (by omega)
  have g₁ : Gap m ⟨poolVaStart, firstHole.stop, fun _ => 0, setHole m poolVaStart 1, sys', rest⟩ [] firstHole.addr
      firstHole.stop [] noNode := g.store_empty le_rfl (by omega)
  obtain ⟨m₂, hm₂, g₂, hc₂, -⟩ := g₁.resize (c := firstHole) le_rfl le_rfl (nodeHole_setHole (by norm_num))
    fun b hb => by cases hb
  obtain ⟨bins, m₃, hr₃, hok₃, -⟩ := g₂.hang hc₂ rfl
  have hadd : (⟨0, 0, fun _ => 0, m₂, sys', rest⟩ : Heap).binAdd (getBinIndex firstHole.size) firstHole.addr =
      .ok ⟨0, 0, bins, m₃, sys', rest⟩ := binAdd_bounds hr₃
  have hm₂' : createFoot (setSize (setHole m poolVaStart 1) poolVaStart (heapInitSize - overhead)) poolVaStart = m₂ := hm₂
  have hs₂ : nodeSize m₂ poolVaStart = firstHole.size := hc₂.size
  have hh₂ : nodeHole m₂ poolVaStart = 1 := hc₂.hole
  have hnew : ¬ (poolVaStart = 0 ∨ 1 = 0 ∨ firstHole.size = 0) := by
    have : firstHole.size = heapInitSize - overhead := rfl
    have : overhead = 40 := rfl
    omega
  rw [hm₂', addNodeToBin, hh₂, hs₂, if_neg hnew, ← haddr, hadd, Except.ok.injEq] at ha
  subst ha
  have hstop' : add64 poolVaStart heapInitSize = firstHole.stop := by rw [add64_eq (by omega), hstop]
  rw [hstop']
  exact hok₃

/-! ### Freeing one of the chunks in use -/

theorem Front.used (hf : Front l l₁) : used l₁ = Heap.used l := by
  rcases hf with ⟨k, d, -, -, rfl⟩ | ⟨d, rfl, hd⟩
  · rfl
  · rw [used_append, used_hole hd]
    simp [Heap.used]

theorem Back.used (hb : Back l l₂) : used l₂ = Heap.used l := by
  rcases hb with ⟨e, k, -, -, rfl⟩ | ⟨e, rfl, he⟩
  · rfl
  · rw [used_hole he]

theorem Front.apart (hf : Front l l₁) (ha : HolesApart l) :
    HolesApart l₁ ∧ ∀ b ∈ (l₁.map Chunk.hole).getLast?, b = false := by
  rcases hf with ⟨k, d, rfl, hd, rfl⟩ | ⟨d, rfl, hd⟩
  · exact ⟨ha, by simp [hd]⟩
  · rw [HolesApart, List.map_append, List.isChain_append] at ha
    refine ⟨ha.1, fun b hb => ?_⟩
    have := ha.2.2 b hb true (by simp [hd])
    simpa using this

theorem Back.apart (hb : Back l l₂) (ha : HolesApart l) :
    HolesApart l₂ ∧ ∀ b ∈ (l₂.map Chunk.hole).head?, b = false := by
  rcases hb with ⟨e, k, rfl, he, rfl⟩ | ⟨e, rfl, he⟩
  · exact ⟨ha, by simp [he]⟩
  · rw [HolesApart, List.map_cons, List.isChain_cons, he] at ha
    refine ⟨ha.2, fun b hb => ?_⟩
    have := ha.1 b hb
    simpa using this

theorem Back.last {x : Chunk} (hb : Back l l₂) (hl : LastHole l) (hx : x.hole = true) : LastHole (l₁ ++ x :: l₂) := by
  rcases List.eq_nil_or_concat l₂ with rfl | ⟨k, w, rfl⟩
  · exact ⟨l₁, x, rfl, hx⟩
  · obtain ⟨k', w', rfl, hw⟩ := hl
    refine ⟨l₁ ++ x :: k, w, by simp, ?_⟩
    have hww : w = w' := by
      rcases hb with ⟨e, k₂, -, -, he⟩ | ⟨e, he, -⟩
      · rw [List.concat_eq_append] at he
        simpa using List.append_inj_right' he rfl
      · have : k' ++ [w'] = (e :: k) ++ [w] := by simpa using he
        simpa using (List.append_inj_right' this rfl).symm
    rw [hww]
    exact hw

theorem HolesApart.middle {x : Chunk} (h₁ : HolesApart l₁) (h₂ : HolesApart l₂)
    (hl : ∀ b ∈ (l₁.map Chunk.hole).getLast?, b = false) (hr : ∀ b ∈ (l₂.map Chunk.hole).head?, b = false) :
    HolesApart (l₁ ++ x :: l₂) := by
  rw [HolesApart, List.map_append, List.map_cons, List.isChain_append, List.isChain_cons]
  refine ⟨h₁, ⟨fun b hb => ?_, h₂⟩, fun b hb a _ => ?_⟩
  · rw [hr b hb]
    simp
  · rw [hl b hb]
    simp

theorem HolesApart.sides {x : Chunk} (ha : HolesApart (l₁ ++ x :: l₂)) : HolesApart l₁ ∧ HolesApart l₂ := by
  rw [HolesApart, List.map_append, List.map_cons, List.isChain_append, List.isChain_cons] at ha
  exact ⟨ha.1, ha.2.1.2⟩

/-- A chunk of the heap that is not the first, or has a size and a neighbour in use. -/
def FreeMeets (h : Heap) (cs : List Chunk) (c : Chunk) : Prop :=
  c.addr ≠ h.start ∨ c.size ≠ 0 ∧ ∀ d ∈ cs, d.addr = c.stop → d.hole = false

/-- **`heap_free`** of a chunk in use, but for a first chunk without payload, leaves the other chunks in use. -/
theorem HeapOk.freed (hok : HeapOk h cs) (hlast : LastHole cs) (hc : c ∈ used cs) (hs : c.addr ≠ h.start ∨ c.size ≠ 0) :
    ∃ bins m cs' k₁ k₂, h.heapFree (c.addr + 32) = .ok { h with bins := bins, mem := m } ∧
      HeapOk { h with bins := bins, mem := m } cs' ∧ LastHole cs' ∧
      used cs = k₁ ++ c :: k₂ ∧ used cs' = k₁ ++ k₂ ∧ (∀ d ∈ used cs', ∀ x, d.addr ≤ x → x < d.stop → m x = h.mem x) ∧
      (FreeMeets h cs c → HolesApart cs → HolesApart cs') := by
  obtain ⟨hmem, hch⟩ := mem_used.mp hc
  obtain ⟨l₁, l₂, rfl⟩ := List.append_of_mem hmem
  have hused : used (l₁ ++ c :: l₂) = used l₁ ++ c :: used l₂ := by rw [used_append, used_used hch]
  have hl₂ : LastHole l₂ := by
    obtain ⟨k, w, hkw, hw⟩ := hlast
    rcases List.eq_nil_or_concat l₂ with rfl | ⟨k', w', rfl⟩
    · have : c = w := by simpa using List.append_inj_right' hkw rfl
      rw [this, hw] at hch
      cases hch
    · rw [List.concat_eq_append] at hkw ⊢
      have : (l₁ ++ c :: k') ++ [w'] = k ++ [w] := by simpa using hkw
      have : w' = w := by simpa using List.append_inj_right' this rfl
      exact ⟨k', w', rfl, by rw [this]; exact hw⟩
  have hne : l₂ ≠ [] := by
    obtain ⟨k, w, rfl, -⟩ := hl₂
    simp
  by_cases hnil : l₁ = []
  · subst hnil
    have hstart : c.addr = h.start := hok.tiles.1
    obtain ⟨bins, m, hr, hok', hag⟩ := HeapOk.free_first hok hch (hs.resolve_left (fun hne => hne hstart))
    have hused' : used (c.freed :: l₂) = used l₂ := used_hole rfl
    refine ⟨bins, m, c.freed :: l₂, [], used l₂, hr, hok', ?_, hused, hused', fun d hd x hx hx' => ?_, fun hm ha => ?_⟩
    · obtain ⟨k, w, rfl, hw⟩ := hl₂
      exact ⟨c.freed :: k, w, by simp, hw⟩
    · obtain ⟨hd, hdh⟩ := mem_used.mp (hused' ▸ hd)
      have hout : d.stop ≤ c.addr ∨ c.stop ≤ d.addr := 
        (show Tiles h.start ([] ++ c :: l₂) h.stop from hok.tiles).outside hd
      exact Agree.chunk hok.tiles hag (by simp +contextual) (List.mem_cons_of_mem _ hd) hout hx hx' fun hh => by
        rw [hdh] at hh
        cases hh
    · obtain ⟨e, k, rfl⟩ := List.exists_cons_of_ne_nil hne
      have he := (hm.resolve_left fun hne => hne hstart).2 e (by simp) hok.tiles.2.1
      have hsides := (show HolesApart ([] ++ c :: e :: k) from ha).sides
      have hmid : HolesApart ([] ++ c.freed :: e :: k) := HolesApart.middle hsides.1 hsides.2 (by simp) (by simp [he])
      exact hmid
  · obtain ⟨bins, m, l₁', x, l₂', hr, hok', hx, hfront, hback, hag⟩ := hok.free hch hnil hne
    have hused' : used (l₁' ++ x :: l₂') = used l₁ ++ used l₂ := by
      rw [used_append, used_hole hx, hfront.used, hback.used]
    refine ⟨bins, m, _, used l₁, used l₂, hr, hok', hback.last hl₂ hx, hused, hused', fun d hd y hy hy' => ?_,
      fun _ ha => ?_⟩
    · rw [used_append, used_hole hx, ← used_append] at hd
      obtain ⟨hd, hdh⟩ := mem_used.mp hd
      have hdm : d ∈ l₁' ++ x :: l₂' := by
        rcases List.mem_append.mp hd with hd | hd
        · exact List.mem_append_left _ hd
        · exact List.mem_append_right _ (List.mem_cons_of_mem _ hd)
      exact Agree.chunk hok'.tiles hag (by simp +contextual [or_imp]) hdm (hok'.tiles.outside hd) hy hy' fun hh => by
        rw [hdh] at hh
        cases hh
    · obtain ⟨ha₁, ha₂⟩ := ha.sides
      obtain ⟨h1, h2⟩ := hfront.apart ha₁
      obtain ⟨h3, h4⟩ := hback.apart ha₂
      exact HolesApart.middle h1 h3 h2 h4

theorem HeapOk.first (hok : HeapOk h cs) (hc : c ∈ cs) (hs : c.addr = h.start) : ∃ l, cs = c :: l := by
  obtain ⟨l₁, l₂, rfl⟩ := List.append_of_mem hc
  cases l₁ with
  | nil => exact ⟨l₂, rfl⟩
  | cons d k =>
    have h1 := (hok.bounds (c := d) (by simp)).2.1
    have h2 := d.addr_lt
    have h3 := ((tiles_middle.mp hok.tiles).1.bounds (c := d) (by simp)).2
    omega

/-! ### Writing to payloads -/

/-- The heap does not depend on what is in the payloads of the chunks in use. -/
theorem HeapOk.write (hok : HeapOk h cs) (hm : ∀ x, (∀ c ∈ used cs, x < c.addr + 32 ∨ c.foot ≤ x) → m x = h.mem x) :
    HeapOk { h with mem := m } cs := by
  have hout {c : Chunk} {x : ℕ} (hc : c ∈ cs) (hx : c.addr ≤ x) (hx' : x < c.addr + 32 ∨ c.foot ≤ x) (hx'' : x < c.stop) :
      m x = h.mem x := by
    refine hm x fun d hd => ?_
    have hdlt := d.addr_lt
    have hds := d.stop_eq
    rcases hok.tiles.disjoint hc (mem_used.mp hd).1 with rfl | hcd | hcd
    · exact hx'
    · omega
    · omega
  refine ⟨hok.pos, hok.tiles, hok.bound, fun c hc => ?_, hok.bins.congr fun a ha x h1 h2 => ?_⟩
  · have hlt := c.addr_lt
    have hs := c.stop_eq
    exact (hok.chunk c hc).congr (fun x h1 h2 => hout hc h1 (by omega) (by omega)) fun x h1 h2 =>
      hout hc (by omega) (Or.inr h1) (by omega)
  · obtain ⟨d, hd, rfl, -⟩ := binOf_isSome ha
    have hlt := d.addr_lt
    exact hout hd (by omega) (Or.inl h2) (by omega)

theorem HeapOk.nodup_used (hok : HeapOk h cs) : ((used cs).map fun c => c.addr + 32).Nodup := by
  have hp : (used cs).Pairwise fun c d => c.stop ≤ d.addr := hok.tiles.pairwise.sublist List.filter_sublist
  rw [List.Nodup, List.pairwise_map]
  refine hp.imp fun {c d} hcd => ?_
  have := c.addr_lt
  omega

/-! ### Histories -/

/-- A block that a program holds: the pointer it was given, and the size that it asked for. -/
structure Block where
  addr : ℕ
  size : ℕ
deriving DecidableEq, Repr

/-- What a program does to the heap; `write m` leaves `m` in its blocks. -/
inductive HeapOp
  | alloc (size : ℕ)
  | calloc (number size : ℕ)
  | free (p : ℕ)
  | write (m : Mem)

namespace HeapOp

/-- One step: the heap, and the blocks held after it. -/
def run (s : Heap × List Block) : HeapOp → Res (Heap × List Block)
  | alloc size => do
    let (p, h) ← s.1.heapAlloc size
    .ok (h, ⟨p, size⟩ :: s.2)
  | calloc number size => do
    let (p, h) ← s.1.heapCalloc number size
    .ok (h, ⟨p, number * size⟩ :: s.2)
  | free p => do
    let h ← s.1.heapFree p
    .ok (h, s.2.eraseP fun b => b.addr = p)
  | write m => .ok ({ s.1 with mem := m }, s.2)

/-- Only blocks that are held are freed and written. -/
def Legal (s : Heap × List Block) : HeapOp → Prop
  | free p => ∃ b ∈ s.2, b.addr = p
  | write m => ∀ x, (∀ b ∈ s.2, x < b.addr ∨ b.addr + b.size ≤ x) → m x = s.1.mem x
  | _ => True

end HeapOp

/-- A history. -/
def runOps (s : Heap × List Block) : List HeapOp → Res (Heap × List Block)
  | [] => .ok s
  | op :: ops => do
    let s ← op.run s
    runOps s ops

/-- Every step is legal, and meets a condition. -/
def AllSteps (P : Heap → HeapOp → Prop) : Heap × List Block → List HeapOp → Prop
  | _, [] => True
  | s, op :: ops => op.Legal s ∧ P s.1 op ∧ ∀ s', op.run s = .ok s' → AllSteps P s' ops

/-- A request for which no address wraps, and which does not take the wilderness whole. -/
def RequestMeets (h : Heap) (size : ℕ) : Prop := h.stop + size + 0x20000 < 2 ^ 64 ∧ h.Spares size

/-- Every request is of this kind. -/
def Meets (h : Heap) : HeapOp → Prop
  | .alloc size => RequestMeets h size
  | .calloc number size => RequestMeets h (number * size)
  | _ => True

/-- The chunks in use are the blocks held. -/
structure HeapInv (h : Heap) (live : List Block) (cs : List Chunk) : Prop where
  ok : HeapOk h cs
  last : LastHole cs
  owned : (live.map Block.addr).Perm ((used cs).map fun c => c.addr + 32)
  fits : ∀ b ∈ live, ∃ c ∈ used cs, b.addr = c.addr + 32 ∧ b.size ≤ c.size

namespace HeapInv

variable {live : List Block} {b : Block}

theorem init {sys : Sys} {rs : List SmReply} (hr : initHeap m sys rs = .ok h) : HeapInv h [] [firstHole] :=
  ⟨initHeap_ok hr, ⟨[], firstHole, rfl, rfl⟩, List.Perm.refl _, by simp⟩

theorem alloc (inv : HeapInv h live cs) (hm : RequestMeets h size) (hr : h.heapAlloc size = .ok (p, h')) :
    ∃ cs' c, HeapInv h' (⟨p, size⟩ :: live) cs' ∧ c ∈ used cs' ∧ p = c.addr + 32 ∧ size ≤ c.size ∧
      (HolesApart cs → HolesApart cs') := by
  obtain ⟨cs', c, hok', hlast, -, -, -, rfl, hs, ⟨k₁, k₂, hk, hk'⟩, -, hap⟩ := inv.ok.alloc inv.last hm.1 hm.2 hr
  have hc : c ∈ used cs' := by simp [hk']
  refine ⟨cs', c, ⟨hok', hlast, ?_, fun b hb => ?_⟩, hc, rfl, hs, hap⟩
  · have hp := inv.owned
    rw [hk, List.map_append] at hp
    rw [hk', List.map_cons, List.map_append, List.map_cons]
    exact (hp.cons _).trans List.perm_middle.symm
  · rcases List.mem_cons.mp hb with rfl | hb
    · exact ⟨c, hc, rfl, hs⟩
    · obtain ⟨d, hd, hbd⟩ := inv.fits b hb
      refine ⟨d, ?_, hbd⟩
      rw [hk] at hd
      rw [hk']
      rcases List.mem_append.mp hd with hd | hd
      · exact List.mem_append_left _ hd
      · exact List.mem_append_right _ (List.mem_cons_of_mem _ hd)

theorem write (inv : HeapInv h live cs)
    (hm : ∀ x, (∀ b ∈ live, x < b.addr ∨ b.addr + b.size ≤ x) → m x = h.mem x) : HeapInv { h with mem := m } live cs := by
  refine ⟨inv.ok.write fun x hx => hm x fun b hb => ?_, inv.last, inv.owned, inv.fits⟩
  obtain ⟨c, hc, hba, hbs⟩ := inv.fits b hb
  have hfoot : c.foot = c.addr + 32 + c.size := rfl
  have := hx c hc
  omega

theorem calloc {number : ℕ} (inv : HeapInv h live cs) (hm : RequestMeets h (number * size))
    (hr : h.heapCalloc number size = .ok (p, h')) :
    ∃ cs', HeapInv h' (⟨p, number * size⟩ :: live) cs' ∧ (HolesApart cs → HolesApart cs') := by
  unfold heapCalloc at hr
  have hmul : mul64 number size = number * size := mul64_eq (by have := hm.1; omega)
  rw [hmul] at hr
  obtain ⟨⟨p', h₁⟩, ha, hr⟩ := Res.bind_ok hr
  obtain ⟨rfl, rfl⟩ := Res.ok_pair hr
  obtain ⟨cs', -, inv', -, -, -, hap⟩ := inv.alloc hm ha
  exact ⟨cs', inv'.write fun x hx => Mem.fill_out _ _ (hx _ (List.mem_cons_self ..)), hap⟩

theorem free (inv : HeapInv h live cs) (hb : b ∈ live) (hr : h.heapFree b.addr = .ok h') :
    ∃ cs', HeapInv h' (live.eraseP fun b' => b'.addr = b.addr) cs' ∧
      ((∀ c ∈ used cs, b.addr = c.addr + 32 → FreeMeets h cs c) → HolesApart cs → HolesApart cs') := by
  obtain ⟨c, hc, hba, -⟩ := inv.fits b hb
  have hs : c.addr ≠ h.start ∨ c.size ≠ 0 := by
    by_contra hno
    rw [not_or, not_not, not_not] at hno
    obtain ⟨l, rfl⟩ := inv.ok.first (mem_used.mp hc).1 hno.1
    rw [hba, inv.ok.free_first_panics hno.2] at hr
    cases hr
  obtain ⟨bins, m, cs', k₁, k₂, hr', hok', hlast, hk, hk', -, hap⟩ := inv.ok.freed inv.last hc hs
  rw [hba, hr', Except.ok.injEq] at hr
  subst hr
  obtain ⟨a, l₁, l₂, -, ha, hl, hl'⟩ := List.exists_of_eraseP (p := fun b' : Block => b'.addr = b.addr) hb (by simp)
  have haddr : a.addr = c.addr + 32 := by
    rw [← hba]
    simpa using ha
  have hperm : ((l₁ ++ l₂).map Block.addr).Perm ((used cs').map fun c => c.addr + 32) := by
    have hp := inv.owned
    rw [hl, hk, List.map_append, List.map_append, List.map_cons, List.map_cons, haddr] at hp
    have hp' := (List.perm_middle.symm.trans hp).trans List.perm_middle
    rw [hk', List.map_append, List.map_append]
    exact hp'.cons_inv
  refine ⟨cs', ⟨hok', hlast, by rw [hl']; exact hperm, fun b' hb' => ?_⟩, fun hm => hap (hm c hc hba)⟩
  rw [hl'] at hb'
  obtain ⟨d, hd, hbd⟩ := inv.fits b' (by
    rw [hl]
    rcases List.mem_append.mp hb' with h | h
    · exact List.mem_append_left _ h
    · exact List.mem_append_right _ (List.mem_cons_of_mem _ h))
  refine ⟨d, ?_, hbd⟩
  -- a block that is kept is not the one that was freed
  have hdc : d ≠ c := by
    rintro rfl
    have hmem : d.addr + 32 ∈ (used cs').map fun c => c.addr + 32 :=
      hperm.mem_iff.mp (hbd.1 ▸ List.mem_map_of_mem hb')
    have hnd := inv.ok.nodup_used
    rw [hk, List.map_append, List.map_cons, List.nodup_middle, ← List.map_append, ← hk'] at hnd
    exact (List.nodup_cons.mp hnd).1 hmem
  rw [hk] at hd
  rw [hk']
  rcases List.mem_append.mp hd with hd | hd
  · exact List.mem_append_left _ hd
  · exact List.mem_append_right _ ((List.mem_cons.mp hd).resolve_left hdc)

theorem step {s' : Heap × List Block} {op : HeapOp} (inv : HeapInv h live cs) (hl : op.Legal (h, live))
    (hm : Meets h op) (hr : op.run (h, live) = .ok s') :
    ∃ cs', HeapInv s'.1 s'.2 cs' ∧
      ((∀ p, op = .free p → ∀ c ∈ used cs, p = c.addr + 32 → FreeMeets h cs c) → HolesApart cs → HolesApart cs') := by
  cases op with
  | alloc size =>
    obtain ⟨⟨p, h₁⟩, ha, hr⟩ := Res.bind_ok hr
    cases hr
    obtain ⟨cs', -, inv', -, -, -, hap⟩ := inv.alloc hm ha
    exact ⟨cs', inv', fun _ => hap⟩
  | calloc number size =>
    obtain ⟨⟨p, h₁⟩, ha, hr⟩ := Res.bind_ok hr
    cases hr
    obtain ⟨cs', inv', hap⟩ := inv.calloc hm ha
    exact ⟨cs', inv', fun _ => hap⟩
  | free p =>
    obtain ⟨h₁, ha, hr⟩ := Res.bind_ok hr
    cases hr
    obtain ⟨b, hb, rfl⟩ := hl
    obtain ⟨cs', inv', hap⟩ := inv.free hb ha
    exact ⟨cs', inv', fun hf => hap (hf _ rfl)⟩
  | write m =>
    cases hr
    exact ⟨cs, inv.write hl, fun _ => id⟩

/-- **The chunks in use are the blocks held**, over every history. -/
theorem run {ops : List HeapOp} {s' : Heap × List Block} (inv : HeapInv h live cs) (hall : AllSteps Meets (h, live) ops)
    (hr : runOps (h, live) ops = .ok s') : ∃ cs', HeapInv s'.1 s'.2 cs' := by
  induction ops generalizing h live cs with
  | nil =>
    cases hr
    exact ⟨cs, inv⟩
  | cons op ops ih =>
    obtain ⟨⟨h₁, live₁⟩, h1, h2⟩ := Res.bind_ok hr
    obtain ⟨cs', inv', -⟩ := inv.step hall.1 hall.2.1 h1
    exact ih inv' (hall.2.2 _ h1) h2

end HeapInv

/-! ### Exclusive blocks -/

/-- The blocks are disjoint, lie in the heap and contain no header or footer of a chunk. -/
def Exclusive (h : Heap) (live : List Block) : Prop :=
  live.Pairwise (fun a b => a.addr + a.size ≤ b.addr ∨ b.addr + b.size ≤ a.addr) ∧
  ∃ cs, HeapOk h cs ∧ ∀ b ∈ live, h.start ≤ b.addr ∧ b.addr + b.size ≤ h.stop ∧
    ∀ c ∈ cs, (b.addr + b.size ≤ c.addr ∨ c.addr + 32 ≤ b.addr) ∧ (b.addr + b.size ≤ c.foot ∨ c.foot + 8 ≤ b.addr)

theorem HeapInv.exclusive {live : List Block} (inv : HeapInv h live cs) : Exclusive h live := by
  refine ⟨?_, cs, inv.ok, fun b hb => ?_⟩
  · have hnd : (live.map Block.addr).Nodup := inv.owned.nodup_iff.mpr inv.ok.nodup_used
    rw [List.Nodup, List.pairwise_map] at hnd
    refine hnd.imp_of_mem fun {a b} ha hb hab => ?_
    obtain ⟨c, hc, hac, has⟩ := inv.fits a ha
    obtain ⟨d, hd, hbd, hbs⟩ := inv.fits b hb
    have hcf : c.foot = c.addr + 32 + c.size := rfl
    have hdf : d.foot = d.addr + 32 + d.size := rfl
    have hcs := c.stop_eq
    have hds := d.stop_eq
    rcases inv.ok.tiles.disjoint (mem_used.mp hc).1 (mem_used.mp hd).1 with rfl | hcd | hcd
    · exact absurd (hac.trans hbd.symm) hab
    · omega
    · omega
  · obtain ⟨d, hd, hbd, hbs⟩ := inv.fits b hb
    have hdf : d.foot = d.addr + 32 + d.size := rfl
    have hds := d.stop_eq
    have hb := inv.ok.bounds (mem_used.mp hd).1
    refine ⟨by omega, by omega, fun c hc => ?_⟩
    have hcs := c.stop_eq
    have hclt := c.addr_lt
    rcases inv.ok.tiles.disjoint hc (mem_used.mp hd).1 with rfl | hcd | hcd
    · omega
    · omega
    · omega

/-- **Heap exclusivity.** In every history from `init_heap` in which no address wraps and no request takes the
wilderness whole, the blocks held are disjoint, lie in the heap and contain no header or footer. -/
theorem heap_exclusive (m : Mem) (sys : Sys) (rs : List SmReply) (h : Heap) (hinit : initHeap m sys rs = .ok h)
    (ops : List HeapOp) (hall : AllSteps Meets (h, []) ops) (s : Heap × List Block)
    (hrun : runOps (h, []) ops = .ok s) : Exclusive s.1 s.2 := by
  obtain ⟨cs, inv⟩ := (HeapInv.init hinit).run hall hrun
  exact inv.exclusive

/-- The heap after `init_heap`, its partition granted at once. -/
def bootHeap : Res Heap := initHeap (fun _ => 0) Sys.smallBoot [⟨0, 0x90000000⟩]

/-- One hole that is large enough is not taken whole. -/
theorem HeapOk.spares (hok : HeapOk h [w]) (hw : w.hole = true) (hbig : size + overhead + minAllocSz < w.size)
    (hfit : h.stop + size + 0x10000 < 2 ^ 64) : h.Spares size := by
  intro found index h₁ hr _
  obtain ⟨sz, c, hok₁, -, -, -, hc, -, -, rfl, -, -⟩ := findNode_ok (l := []) hok hw hfit hr
  rw [(hok₁.chunk c hc).size]
  obtain rfl : c = w.grow sz := by simpa using hc
  show w.size + sz > _
  omega

theorem firstHole_spares (hok : HeapOk h [firstHole]) : RequestMeets h 64 := by
  have hstop : firstHole.stop = h.stop := hok.tiles.2
  rw [firstHole_stop, poolVaStart_eq] at hstop
  have hsize : heapInitSize = 0x200000 := rfl
  exact ⟨by omega, hok.spares rfl (by decide) (by omega)⟩

/-- A block is allocated. -/
theorem heap_exclusive_one : ∃ h s, bootHeap = .ok h ∧ AllSteps Meets (h, []) [.alloc 64] ∧
    runOps (h, []) [.alloc 64] = .ok s ∧ Exclusive s.1 s.2 := by
  have hrun : (bootHeap >>= fun h => runOps (h, []) [.alloc 64]).toOption.isSome := by decide +kernel
  obtain ⟨s, hs⟩ := Res.exists_ok hrun
  obtain ⟨h, hb, hs⟩ := Res.bind_ok hs
  have hall : AllSteps Meets (h, []) [.alloc 64] := ⟨trivial, firstHole_spares (initHeap_ok hb), fun _ _ => trivial⟩
  exact ⟨h, s, hb, hall, hs, heap_exclusive _ _ _ h hb _ hall s hs⟩

/-- **The wilderness is given out twice.** The first request takes all of the first heap. The second finds no hole, and
"grows" the chunk in use by a negative number of bytes. -/
theorem heap_twice : ∃ h s, bootHeap = .ok h ∧ runOps (h, []) [.alloc 2097112, .alloc 16] = .ok s ∧
    s.2 = [⟨0x3000000020, 16⟩, ⟨0x3000000020, 2097112⟩] ∧ ¬ Exclusive s.1 s.2 := by
  have hrun : (bootHeap >>= fun h => runOps (h, []) [.alloc 2097112, .alloc 16]).toOption.map Prod.snd =
      some [⟨0x3000000020, 16⟩, ⟨0x3000000020, 2097112⟩] := by decide +kernel
  obtain ⟨s, hs, hlive⟩ := Option.map_eq_some_iff.mp hrun
  obtain ⟨h, hb, hs⟩ := Res.bind_ok (Res.eq_ok_of_toOption hs)
  refine ⟨h, s, hb, hs, hlive, fun he => ?_⟩
  have := he.1
  rw [hlive] at this
  simp at this

/-! ### Complete coalescing -/

/-- A well-formed heap with a hole at its end, in which no two neighbours are both holes. -/
structure Coalesced (h : Heap) (cs : List Chunk) : Prop where
  ok : HeapOk h cs
  last : LastHole cs
  apart : HolesApart cs

/-- `heap_free` of the chunk `c` returns, keeps all this, and frees nothing else. -/
def Frees (h : Heap) (cs : List Chunk) (c : Chunk) : Prop :=
  ∃ h' cs', h.heapFree (c.addr + 32) = .ok h' ∧ Coalesced h' cs' ∧ h'.start = h.start ∧ h'.stop = h.stop ∧
    used cs' = (used cs).erase c ∧ ∀ d ∈ used cs', ∀ x, d.addr ≤ x → x < d.stop → h'.mem x = h.mem x

/-- Requests as for `Meets`, and a first chunk is freed only if it has a size and a neighbour in use. -/
def MeetsFree (h : Heap) (op : HeapOp) : Prop :=
  Meets h op ∧ ∀ p, op = .free p → ∀ cs, HeapOk h cs → ∀ c ∈ used cs, p = c.addr + 32 → FreeMeets h cs c

theorem HeapOk.not_mem_front {k₁ k₂ : List Chunk} (hok : HeapOk h cs) (hk : used cs = k₁ ++ c :: k₂) : c ∉ k₁ := by
  intro hc
  have hnd := hok.nodup_used
  rw [hk, List.map_append, List.map_cons, List.nodup_middle, ← List.map_append] at hnd
  exact (List.nodup_cons.mp hnd).1 (List.mem_map_of_mem (List.mem_append_left _ hc))

theorem Coalesced.frees (hco : Coalesced h cs) (hc : c ∈ used cs) (hm : FreeMeets h cs c) : Frees h cs c := by
  have hs : c.addr ≠ h.start ∨ c.size ≠ 0 := hm.imp id And.left
  obtain ⟨bins, m, cs', k₁, k₂, hr, hok', hlast, hk, hk', hkept, hap⟩ := hco.ok.freed hco.last hc hs
  refine ⟨_, cs', hr, ⟨hok', hlast, hap hm hco.apart⟩, rfl, rfl, ?_, hkept⟩
  rw [hk, hk', List.erase_append_right _ (hco.ok.not_mem_front hk), List.erase_cons_head]

/-- A first chunk without size, or before a hole, is not freed as it should be. -/
theorem Coalesced.not_frees (hco : Coalesced h cs) (hc : c ∈ used cs) (hm : ¬ FreeMeets h cs c) : ¬ Frees h cs c := by
  rintro ⟨h', cs', hr, hco', -⟩
  obtain ⟨hmem, hch⟩ := mem_used.mp hc
  unfold FreeMeets at hm
  rw [not_or, not_not] at hm
  obtain ⟨hstart, hm⟩ := hm
  obtain ⟨l, rfl⟩ := hco.ok.first hmem hstart
  by_cases hs : c.size = 0
  · rw [hco.ok.free_first_panics hs] at hr
    cases hr
  · -- the chunk behind it is a hole, and stays one of its own
    have hhole : ∃ d ∈ c :: l, d.addr = c.stop ∧ d.hole = true := by
      by_contra hno
      refine hm ⟨hs, fun d hd hda => ?_⟩
      by_contra hdh
      exact hno ⟨d, hd, hda, by simpa using hdh⟩
    obtain ⟨d, hd, hda, hdh⟩ := hhole
    obtain ⟨bins, m, hr', hok', -⟩ := hco.ok.free_first hch hs
    rw [hr', Except.ok.injEq] at hr
    subst hr
    rw [hco'.ok.unique hok'] at hco'
    have hlt := c.addr_lt
    have hdl : d ∈ l := (List.mem_cons.mp hd).resolve_left (by rintro rfl; omega)
    obtain ⟨e, k, rfl⟩ := List.exists_cons_of_ne_nil (List.ne_nil_of_mem hdl)
    have hde : d = e := hco.ok.tiles.addr_inj hd (by simp) (hda.trans hco.ok.tiles.2.1.symm)
    have hap := hco'.apart
    rw [HolesApart, List.map_cons, List.map_cons, List.isChain_cons_cons, ← hde, hdh] at hap
    exact hap.1 ⟨rfl, rfl⟩

/-- Holes that are never neighbours are one hole, when nothing is in use. -/
theorem Coalesced.single (hco : Coalesced h cs) (hu : used cs = []) : ∃ w, cs = [w] ∧ w.hole = true := by
  obtain ⟨l, w, rfl, hw⟩ := hco.last
  cases hl : l.getLast? with
  | none =>
    rw [List.getLast?_eq_none_iff] at hl
    exact ⟨w, by rw [hl]; rfl, hw⟩
  | some d =>
    have hdl := List.mem_of_getLast? hl
    have hap := hco.apart
    rw [HolesApart, List.map_append, List.isChain_append] at hap
    have hnot := hap.2.2 d.hole (by rw [List.getLast?_map, hl]; rfl) w.hole (by simp)
    rw [hw] at hnot
    have hd : d ∈ used (l ++ [w]) := mem_used.mpr ⟨List.mem_append_left _ hdl, by simpa using hnot⟩
    rw [hu] at hd
    cases hd

theorem HeapInv.run_apart {live : List Block} {ops : List HeapOp} {s' : Heap × List Block} (inv : HeapInv h live cs)
    (ha : HolesApart cs) (hall : AllSteps MeetsFree (h, live) ops) (hr : runOps (h, live) ops = .ok s') :
    ∃ cs', HeapInv s'.1 s'.2 cs' ∧ HolesApart cs' := by
  induction ops generalizing h live cs with
  | nil =>
    cases hr
    exact ⟨cs, inv, ha⟩
  | cons op ops ih =>
    obtain ⟨⟨h₁, live₁⟩, h1, h2⟩ := Res.bind_ok hr
    obtain ⟨cs', inv', hap⟩ := inv.step hall.1 hall.2.1.1 h1
    exact ih inv' (hap (fun p hp c hc => hall.2.1.2 p hp cs inv.ok c hc) ha) (hall.2.2 _ h1) h2

/-- **`heap_free` coalesces completely, exactly when** the chunk is not the first, or has a size and a neighbour in use.
So in every history in which chunks are freed so, and requests are met as in `heap_exclusive`, holes are never
neighbours; when all blocks are freed the heap is one hole. -/
theorem heapFree_coalesces (m : Mem) (sys : Sys) (rs : List SmReply) (h : Heap) (hinit : initHeap m sys rs = .ok h)
    (ops : List HeapOp) (hall : AllSteps MeetsFree (h, []) ops) (s : Heap × List Block)
    (hr : runOps (h, []) ops = .ok s) :
    (∀ h cs, Coalesced h cs → ∀ c ∈ used cs, Frees h cs c ↔ FreeMeets h cs c) ∧
    ∃ cs, Coalesced s.1 cs ∧ (s.2 = [] → ∃ w, cs = [w] ∧ w.hole = true) := by
  refine ⟨fun h cs hco c hc => ⟨fun hf => ?_, hco.frees hc⟩, ?_⟩
  · by_contra hm
    exact hco.not_frees hc hm hf
  · obtain ⟨cs, inv, hap⟩ := (HeapInv.init hinit).run_apart (List.isChain_singleton _) hall hr
    refine ⟨cs, ⟨inv.ok, inv.last, hap⟩, fun hnil => ?_⟩
    refine Coalesced.single ⟨inv.ok, inv.last, hap⟩ ?_
    have hp := inv.owned
    rw [hnil, List.map_nil] at hp
    exact List.map_eq_nil_iff.mp hp.symm.eq_nil

/-- Two chunks in use and a hole. -/
def twoUsed : Heap := layout 0x1000 0x10d8 [⟨0x1000, 16, false⟩, ⟨0x1038, 16, false⟩, ⟨0x1070, 64, true⟩] Sys.blank

theorem twoUsed_coalesced : Coalesced twoUsed [⟨0x1000, 16, false⟩, ⟨0x1038, 16, false⟩, ⟨0x1070, 64, true⟩] := by
  refine ⟨?_, ⟨_, _, (rfl : _ = [_, _] ++ [_]), rfl⟩, by simp [HolesApart]⟩
  exact HeapOk.of_singles (by decide) (by decide) (by decide) (by decide) (by decide) (by decide) (by decide)

/-- The second of two chunks is freed; a block is allocated in the first heap. -/
theorem heapFree_coalesces_one :
    Frees twoUsed [⟨0x1000, 16, false⟩, ⟨0x1038, 16, false⟩, ⟨0x1070, 64, true⟩] ⟨0x1038, 16, false⟩ ∧
    ∃ h s cs, bootHeap = .ok h ∧ runOps (h, []) [.alloc 64] = .ok s ∧ Coalesced s.1 cs := by
  have hrun : (bootHeap >>= fun h => runOps (h, []) [.alloc 64]).toOption.isSome := by decide +kernel
  obtain ⟨s, hs⟩ := Res.exists_ok hrun
  obtain ⟨h, hb, hs⟩ := Res.bind_ok hs
  have hall : AllSteps MeetsFree (h, []) [.alloc 64] :=
    ⟨trivial, ⟨firstHole_spares (initHeap_ok hb), fun p hp => by cases hp⟩, fun _ _ => trivial⟩
  obtain ⟨hfree, cs, hco, -⟩ := heapFree_coalesces _ _ _ h hb _ hall s hs
  exact ⟨(hfree _ _ twoUsed_coalesced _ (by decide)).mpr (Or.inl (by decide)), h, s, cs, hb, hs, hco⟩

/-- A first chunk in use of `size` bytes, and a hole behind it. -/
def firstUsed (size : ℕ) : Heap :=
  layout 0x1000 (0x1090 + size) [⟨0x1000, size, false⟩, ⟨0x1028 + size, 64, true⟩] Sys.blank

/-- **Freeing the first chunk.** A first chunk before a hole becomes a hole of its own: the heap is two holes. One
without payload cannot be freed at all. -/
theorem heapFree_first :
    (∃ h', Coalesced (firstUsed 16) [⟨0x1000, 16, false⟩, ⟨0x1038, 64, true⟩] ∧
      (firstUsed 16).heapFree 0x1020 = .ok h' ∧ HeapOk h' [⟨0x1000, 16, true⟩, ⟨0x1038, 64, true⟩]) ∧
    Coalesced (firstUsed 0) [⟨0x1000, 0, false⟩, ⟨0x1028, 64, true⟩] ∧
      (firstUsed 0).heapFree 0x1020 = .error (.panic "error adding node\n") := by
  have hok₁ : HeapOk (firstUsed 16) [⟨0x1000, 16, false⟩, ⟨0x1038, 64, true⟩] :=
    HeapOk.of_singles (by decide) (by decide) (by decide) (by decide) (by decide) (by decide) (by decide)
  have hok₂ : HeapOk (firstUsed 0) [⟨0x1000, 0, false⟩, ⟨0x1028, 64, true⟩] :=
    HeapOk.of_singles (by decide) (by decide) (by decide) (by decide) (by decide) (by decide) (by decide)
  obtain ⟨bins, m, hr, hok', -⟩ := hok₁.free_first rfl (by decide)
  refine ⟨⟨_, ⟨hok₁, ⟨_, _, (rfl : _ = [_] ++ [_]), rfl⟩, by simp [HolesApart]⟩, hr, hok'⟩,
    ⟨hok₂, ⟨_, _, (rfl : _ = [_] ++ [_]), rfl⟩, by simp [HolesApart]⟩, hok₂.free_first_panics rfl⟩

end Heap
end Coffer
