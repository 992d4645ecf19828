/-
# Growing the break is path independent

A run of `sys_brk_handler` calls that never lowers the break leaves what one call with the
last argument leaves: `Grown` says what that is, as a function of the break alone. The pool
serves the part below `EUSR_HEAP_START_ALIGNED` page by page, and from there on slot `i` has
the `i`-th partition granted in the run.

The handler takes any argument. The user's half of the address space ends at `2 ^ 38`; a
break beyond it is set all the same, and `brk_path_iff` says that this is the only way to
miss the above. Near the top of the address space `PARTITION_UP` wraps, and the call maps
nothing beyond the pool (`brk_path_wraps`).
-/
import Coffer.Access
import Coffer.Brk

namespace Coffer

open Lib

variable {c : BrkCall} {n x : ℕ} {rest rs : List SmReply} {s' s1 : Sys}

/-! ### What a run is granted -/

/-- What the partition loop of a call does. -/
def Sys.brkEvents (s : Sys) (c : BrkCall) : List MapEvent :=
  match s.growFromPool (pageUp s.progBrk) (pageUp c.newBrk) with
  | .error _ => []
  | .ok (a, _) =>
    if pageUp s.progBrk < pageUp c.newBrk ∧ partitionUp a < partitionUp (pageUp c.newBrk) then
      (brkPartitions (partitionUp a) (sub64 (partitionUp (pageUp c.newBrk)) (partitionUp a))
        c.replies).1
    else []

/-- The partitions granted in a run, in order. -/
def brkLog (s : Sys) : List BrkCall → List ℕ
  | [] => []
  | c :: cs => granted (s.brkEvents c) ++
    match s.sysBrkHandler c.newBrk c.replies with
    | .error _ => []
    | .ok (_, s', _) => brkLog s' cs

theorem granted_brkPartitions {va size : ℕ} (hg : FirstGranted rs)
    (hsz : 0x200000 ≤ size) (hlt : size < 2 ^ 64) :
    granted (brkPartitions va size rs).1 =
      (List.range (size / 0x200000)).map (slot (firstPaddr rs)) := by
  cases rs with
  | nil => exact hg.elim
  | cons r rs =>
    have hpart : brkPartitions va size (r :: rs) = (.grant r.paddr (size / 0x200000) ::
        mapCalls va r.paddr (size / 0x200000), some rs) :=
      partitionLoop_full (by omega) (by omega) hg
    rw [hpart]
    simp only [granted, mapCalls, granted_mapCalls, List.append_nil, firstPaddr]

theorem Sys.brkEvents_same {s : Sys} (h : ¬ pageUp s.progBrk < pageUp c.newBrk) :
    s.brkEvents c = [] := by
  unfold Sys.brkEvents
  split
  · rfl
  · rw [if_neg fun hc => h hc.1]

theorem BrkInv.granted_brkEvents {b0 : ℕ} {s : Sys}
    (h : BrkInv b0 s) (ho : pageUp s.progBrk < pageUp c.newBrk) (hn : pageUp c.newBrk % 0x1000 = 0)
    (hn' : pageUp c.newBrk ≤ 2 ^ 38) (hg : c.Granted)
    (hr : s.growBrk (pageUp s.progBrk) (pageUp c.newBrk) c.replies = .ok (s', rest)) {m : ℕ}
    (hm : m = min (pageUp c.newBrk - pageUp s.progBrk) s.getUmodePagePoolAvailSize) :
    granted (s.brkEvents c) = (List.range ((partitionUp (pageUp c.newBrk) -
      partitionUp (pageUp s.progBrk + m)) / 0x200000)).map (slot (firstPaddr c.replies)) := by
  unfold Sys.growBrk at hr
  obtain ⟨⟨a, s1⟩, hr1, -⟩ := Res.bind_ok hr
  obtain ⟨-, -, -, ha, -⟩ := h.growFromPool ho hn hn' hr1 hm
  have hnew := partitionUp_spec (a := pageUp c.newBrk) (by omega)
  have hold := partitionUp_aligned (pageUp s.progBrk + m)
  unfold Sys.brkEvents
  rw [hr1]
  simp only [ha]
  generalize partitionUp (pageUp s.progBrk + m) = e at *
  generalize partitionUp (pageUp c.newBrk) = e' at *
  by_cases hlt : e < e'
  · rw [if_pos ⟨ho, hlt⟩, sub64_eq (by omega) (by omega)]
    exact granted_brkPartitions hg (by omega) (by omega)
  · rw [if_neg fun hc => hlt hc.2, show (e' - e) / 0x200000 = 0 by omega]
    rfl

/-! ### The pool does not move -/

theorem Sys.execCalls_rest {flags : ℕ} : ∀ {evs : List MapEvent} {s s' : Sys},
    s.execCalls flags evs = .ok s' → s.SameRest s'
  | [], s, s', h => by
    cases h
    rfl
  | .grant _ _ :: _, s, _, h => by
    rw [Sys.execCalls] at h
    exact Sys.execCalls_rest h
  | .map _ _ :: _, s, _, h => by
    obtain ⟨s1, h1, h2⟩ := Res.bind_ok h
    exact (Sys.mapPage_rest h1).trans (Sys.execCalls_rest h2)

theorem Sys.mapBrkFromPool_start {s : Sys} {va size : ℕ} (h : s.mapBrkFromPool va size = .ok s') :
    s'.poolStart .umode = s.poolStart .umode := by
  unfold Sys.mapBrkFromPool at h
  obtain ⟨⟨paddr, s1⟩, h1, h2⟩ := Res.bind_ok h
  obtain ⟨-, -, hs1⟩ := Sys.allocPage_ok h1
  rw [(Sys.mapRange_rest h2).poolTaken.start, hs1, Sys.poolStart_setUsedPageCount]

theorem Sys.growFromPool_start {s : Sys} {o a : ℕ} (h : s.growFromPool o n = .ok (a, s')) :
    s'.poolStart .umode = s.poolStart .umode := by
  simp only [Sys.growFromPool] at h
  split at h
  · split at h
    all_goals
      obtain ⟨s1, h1, h2⟩ := Res.bind_ok h
      obtain ⟨-, rfl⟩ := Res.ok_pair h2
      exact Sys.mapBrkFromPool_start h1
  · simp only [Except.ok.injEq, Prod.mk.injEq] at h
    rw [h.2]

theorem Sys.growBrk_start {s : Sys} {o : ℕ}
    (h : s.growBrk o n rs = .ok (s', rest)) : s'.poolStart .umode = s.poolStart .umode := by
  unfold Sys.growBrk at h
  obtain ⟨⟨a, s1⟩, h1, h2⟩ := Res.bind_ok h
  rw [← Sys.growFromPool_start h1]
  simp only at h2
  split at h2
  · unfold Sys.allocMapBrkOutsidePool at h2
    split at h2
    · cases h2
    · obtain ⟨s2, h3, h4⟩ := Res.bind_ok h2
      have hs2 : s' = s2 := by
        split at h4
        · cases h4
        · simp only [Except.ok.injEq, Prod.mk.injEq] at h4
          exact h4.1.symm
      rw [hs2]
      exact (Sys.execCalls_rest h3).poolTaken.start
  · simp only [Except.ok.injEq, Prod.mk.injEq] at h2
    rw [h2.1]

/-! ### The heap as a function of the break -/

/-- The heap after a run from `s0`, where the break was `b0`: `parts` are the partitions
granted so far. -/
structure Grown (s0 : Sys) (b0 : ℕ) (parts : List ℕ) (s : Sys) : Prop where
  inv : BrkInv b0 s
  pool : PoolOk s0
  room : b0 + (s0.umodePool.size - 0x1000 * s0.umodePool.usedPageCount) = eusrHeapStartAligned
  taken : PoolTaken s0 s ((min (pageUp s.progBrk) eusrHeapStartAligned - b0) / 0x1000)
  ends : eusrHeapStartAligned + 0x200000 * parts.length = partitionUp (pageUp s.progBrk)
  page : ∀ x, b0 ≤ x → x < pageUp s.progBrk → x < eusrHeapStartAligned →
    s.HeapLeaf x .page (s0.getPoolTop .umode + (x - b0))
  part : ∀ x, eusrHeapStartAligned ≤ x → x < partitionUp (pageUp s.progBrk) →
    ∃ pa, parts[(x - eusrHeapStartAligned) / 0x200000]? = some pa ∧ s.HeapLeaf x .mega pa
  rest : ∀ x < 2 ^ 38, (x < b0 ∨ partitionUp (pageUp s.progBrk) ≤ x ∨
    (pageUp s.progBrk ≤ x ∧ x < eusrHeapStartAligned)) → s.leaf x = s0.leaf x

namespace Grown

variable {s0 s : Sys} {b0 : ℕ} {parts : List ℕ}

/-- The room the pool has left is the room below `EUSR_HEAP_START_ALIGNED`. -/
theorem avail (h : Grown s0 b0 parts s) : s.getUmodePagePoolAvailSize =
    eusrHeapStartAligned - min (pageUp s.progBrk) eusrHeapStartAligned := by
  have hroom := h.room
  have hpage := h.inv.b0_page
  have hb0 := h.inv.b0_le
  obtain ⟨h1, -, h3⟩ := pageUp_spec (a := s.progBrk) (by have := h.inv.brk_le; omega)
  rw [h.inv.avail, h.taken.size, h.taken.used]
  generalize pageUp s.progBrk = o at *
  unfold eusrHeapStartAligned at *
  omega

theorem top (h : Grown s0 b0 parts s) : s.getPoolTop .umode =
    s0.getPoolTop .umode + (min (pageUp s.progBrk) eusrHeapStartAligned - b0) := by
  have hp : PoolOk s := ⟨by rw [h.taken.start]; exact h.pool.aligned,
    by rw [h.taken.start, h.taken.size]; exact h.pool.fits, h.inv.pool_used⟩
  have hpage := h.inv.b0_page
  obtain ⟨-, -, h3⟩ := pageUp_spec (a := s.progBrk) (by have := h.inv.brk_le; omega)
  rw [h.pool.top_eq hp h.taken]
  generalize pageUp s.progBrk = o at *
  unfold eusrHeapStartAligned at *
  omega

theorem next (h : Grown s0 b0 parts s) {m : ℕ} (hn : n ≤ 2 ^ 38) (ho : pageUp s.progBrk < n)
    (hm : m = min (n - pageUp s.progBrk) s.getUmodePagePoolAvailSize) :
    partitionUp (pageUp s.progBrk + m) = partitionUp (pageUp s.progBrk) ∧
      pageUp s.progBrk + m = max (pageUp s.progBrk) (min n eusrHeapStartAligned) := by
  have hav := h.avail
  have hslot := h.inv.b0_slot
  have hb0 := h.inv.b0_le
  obtain ⟨h1, -, h3⟩ := pageUp_spec (a := s.progBrk) (by have := h.inv.brk_le; omega)
  generalize pageUp s.progBrk = o at *
  rw [partitionUp_eq (by omega), partitionUp_eq (by omega)]
  unfold eusrHeapStartAligned at *
  omega

theorem setProgBrk (h : Grown s0 b0 parts s) {b : ℕ} (hI : BrkInv b0 (s.setProgBrk b))
    (hb : pageUp b = pageUp s.progBrk) : Grown s0 b0 parts (s.setProgBrk b) := by
  obtain ⟨-, hpool, hroom, htaken, hends, hpage, hpart, hrest⟩ := h
  rw [← hb] at htaken hends hpage hpart hrest
  exact ⟨hI, hpool, hroom, ⟨htaken.start, htaken.size, htaken.used⟩, hends, hpage, hpart, hrest⟩

/-- The addresses of a growing call: new partitions from where the last one ends, pages of
the pool up to `EUSR_HEAP_START_ALIGNED`, and nothing else. -/
theorem grow_leaf (h : Grown s0 b0 parts s)
    (ho : pageUp s.progBrk < n) (hn : n % 0x1000 = 0) (hn' : n ≤ 2 ^ 38) (hg : FirstGranted rs)
    (hr : s.growBrk (pageUp s.progBrk) n rs = .ok (s1, rest)) (hx : x < 2 ^ 38) :
    if partitionUp (pageUp s.progBrk) ≤ x ∧ x < partitionUp n then
      s1.HeapLeaf x .mega
        (slot (firstPaddr rs) ((x - partitionUp (pageUp s.progBrk)) / 0x200000))
    else if pageUp s.progBrk ≤ x ∧ x < min n eusrHeapStartAligned then
      s1.HeapLeaf x .page (s0.getPoolTop .umode + (x - b0))
    else s1.leaf x = s.leaf x := by
  obtain ⟨m, hm⟩ : ∃ m, m = min (n - pageUp s.progBrk) s.getUmodePagePoolAvailSize := ⟨_, rfl⟩
  obtain ⟨-, -, -, hleaf⟩ := h.inv.growBrk ho hn hn' hg hr hm
  obtain ⟨hnext, hmid⟩ := h.next hn' ho hm
  have hlx := hleaf x hx
  rw [hnext] at hlx
  split
  · rename_i hin
    rwa [if_pos hin] at hlx
  · rename_i hin
    rw [if_neg hin] at hlx
    have hb0 := h.inv.b0_le
    have hb0' := h.inv.b0_page
    have htop := h.top
    have htop0 := h.pool.getPoolTop
    have haligned := h.pool.aligned
    have hfits := h.pool.fits
    have hused := h.pool.used_le
    have hroom := h.room
    obtain ⟨ho1, -, ho3⟩ := pageUp_spec (a := s.progBrk) (by have := h.inv.brk_le; omega)
    clear hleaf hnext hin
    generalize pageUp s.progBrk = o at *
    split
    · rename_i hpool
      rw [if_pos (by omega), htop, min_eq_left (by omega), add64_eq (by omega)] at hlx
      obtain ⟨pte, hp1, hp2, hp3⟩ := hlx
      have hpa : (s0.getPoolTop .umode + (o - b0) + 0x1000 * ((x - o) / 0x1000)) / 0x1000 =
          (s0.getPoolTop .umode + (x - b0)) / 0x1000 := by omega
      rw [hpa] at hp2
      exact ⟨pte, hp1, hp2, hp3⟩
    · rw [if_neg (by omega)] at hlx
      exact hlx

/-- A growing call takes the pool's pages up to `EUSR_HEAP_START_ALIGNED`. -/
theorem grow_taken (h : Grown s0 b0 parts s)
    (ho : pageUp s.progBrk < n) (hn : n % 0x1000 = 0) (hn' : n ≤ 2 ^ 38) (hg : FirstGranted rs)
    (hr : s.growBrk (pageUp s.progBrk) n rs = .ok (s1, rest)) :
    PoolTaken s0 s1 ((min n eusrHeapStartAligned - b0) / 0x1000) := by
  obtain ⟨m, hm⟩ : ∃ m, m = min (n - pageUp s.progBrk) s.getUmodePagePoolAvailSize := ⟨_, rfl⟩
  obtain ⟨-, -, hused, -⟩ := h.inv.growBrk ho hn hn' hg hr hm
  obtain ⟨-, hmid⟩ := h.next hn' ho hm
  refine ⟨(Sys.growBrk_start hr).trans h.taken.start, by rw [hused]; exact h.taken.size, ?_⟩
  rw [hused]
  simp only [h.taken.used]
  have hE : eusrHeapStartAligned = 0x100000000 := rfl
  have hb0 := h.inv.b0_le
  have hb0' := h.inv.b0_page
  obtain ⟨ho1, -, ho3⟩ := pageUp_spec (a := s.progBrk) (by have := h.inv.brk_le; omega)
  clear hr hused
  generalize pageUp s.progBrk = o at *
  omega

theorem grow (h : Grown s0 b0 parts s)
    (ho : pageUp s.progBrk < pageUp c.newBrk) (hle : c.newBrk ≤ 2 ^ 38) (hg : c.Granted)
    (hI : BrkInv b0 (s1.setProgBrk c.newBrk))
    (hr : s.growBrk (pageUp s.progBrk) (pageUp c.newBrk) c.replies = .ok (s1, rest)) :
    Grown s0 b0 (parts ++ granted (s.brkEvents c)) (s1.setProgBrk c.newBrk) := by
  obtain ⟨hn1, hn2, hn3⟩ := pageUp_spec (a := c.newBrk) (by omega)
  have hn : pageUp c.newBrk ≤ 2 ^ 38 := by omega
  have hleaf := fun x hx => h.grow_leaf ho hn3 hn hg hr (x := x) hx
  have htaken := h.grow_taken ho hn3 hn hg hr
  have hlog := h.inv.granted_brkEvents ho hn3 hn hg hr rfl
  rw [(h.next hn ho rfl).1] at hlog
  have hends := h.ends
  obtain ⟨he1, he2, he3⟩ := partitionUp_spec (a := pageUp c.newBrk) (by omega)
  have hoe : pageUp s.progBrk ≤ partitionUp (pageUp s.progBrk) := (partitionUp_spec (by omega)).1
  have hee : partitionUp (pageUp s.progBrk) ≤ partitionUp (pageUp c.newBrk) :=
    partitionUp_mono (by omega) (by omega)
  have hb0 : b0 ≤ pageUp s.progBrk := by
    have h1 := (pageUp_spec (a := s.progBrk) (by have := h.inv.brk_le; omega)).1
    have h2 := h.inv.b0_le
    omega
  have hE : eusrHeapStartAligned = 0x100000000 := rfl
  obtain ⟨-, hpool, hroom, -, -, hpage, hpart, hrest⟩ := h
  generalize pageUp s.progBrk = o at *
  generalize hnn : pageUp c.newBrk = n at *
  generalize partitionUp o = e at *
  generalize hee' : partitionUp n = e' at *
  have hlen : (granted (s.brkEvents c)).length = (e' - e) / 0x200000 := by
    rw [hlog, List.length_map, List.length_range]
  refine ⟨hI, hpool, hroom, ?_, ?_, ?_, ?_, ?_⟩
  · rw [Sys.setProgBrk_progBrk, hnn]
    exact ⟨htaken.start, htaken.size, htaken.used⟩
  · rw [Sys.setProgBrk_progBrk, hnn, hee', List.length_append, hlen]
    omega
  · rw [Sys.setProgBrk_progBrk, hnn]
    intro x hx hx' hx''
    have hlx := hleaf x (by omega)
    rw [if_neg (by omega)] at hlx
    by_cases hnew : o ≤ x
    · rwa [if_pos ⟨hnew, by omega⟩] at hlx
    · rw [if_neg (by omega)] at hlx
      exact (hpage x hx (by omega) hx'').of_leaf hlx
  · rw [Sys.setProgBrk_progBrk, hnn, hee']
    intro x hx hx'
    have hlx := hleaf x (by omega)
    by_cases hnew : e ≤ x
    · -- the partition is one of this call
      rw [if_pos ⟨hnew, hx'⟩] at hlx
      refine ⟨_, ?_, hlx⟩
      have hidx : (x - eusrHeapStartAligned) / 0x200000 = parts.length + (x - e) / 0x200000 := by omega
      rw [hidx, List.getElem?_append_right (by omega), Nat.add_sub_cancel_left, hlog,
        List.getElem?_map, List.getElem?_range (by omega), Option.map_some]
    · rw [if_neg (by omega), if_neg (by omega)] at hlx
      obtain ⟨pa, hp1, hp2⟩ := hpart x hx (by omega)
      refine ⟨pa, ?_, hp2.of_leaf hlx⟩
      rw [List.getElem?_append_left (by omega)]
      exact hp1
  · rw [Sys.setProgBrk_progBrk, hnn, hee']
    intro x hx hout
    have hlx := hleaf x hx
    rw [if_neg (by omega), if_neg (by omega)] at hlx
    exact hlx.trans (hrest x hx (by omega))

/-- **One call.** A call that does not lower the break adds the partitions granted in it. -/
theorem call (h : Grown s0 b0 parts s) {v : ℕ}
    (hb : s.progBrk ≤ c.newBrk) (hle : c.newBrk ≤ 2 ^ 38) (hg : c.Granted)
    (hr : s.sysBrkHandler c.newBrk c.replies = .ok (v, s', rest)) :
    Grown s0 b0 (parts ++ granted (s.brkEvents c)) s' ∧ s'.progBrk = c.newBrk := by
  have hb0 := h.inv.b0_le
  have hslot := h.inv.b0_slot
  have hav := h.avail
  have h0 : c.newBrk ≠ 0 := by
    unfold eusrHeapStartAligned at hslot
    omega
  -- the pool still has all it needs below `EUSR_HEAP_START_ALIGNED`
  have hsup : c.Supplied s := by
    intro _ x hx _ hx'
    generalize pageUp s.progBrk = o at *
    omega
  have hI := (h.inv.call (Or.inr ⟨by omega, hle⟩) hg hr).2 hsup
  unfold Sys.sysBrkHandler at hr
  rw [if_neg h0] at hr
  obtain ⟨⟨s1, rs1⟩, hr1, hr2⟩ := Res.bind_ok hr
  simp only [Except.ok.injEq, Prod.mk.injEq] at hr2
  obtain ⟨-, rfl, -⟩ := hr2
  refine ⟨?_, Sys.setProgBrk_progBrk _ _⟩
  rw [Sys.updateBrk] at hr1
  by_cases hlt : pageUp s.progBrk < pageUp c.newBrk
  · rw [if_pos hlt] at hr1
    exact h.grow hlt hle hg hI hr1
  · rw [if_neg hlt] at hr1
    obtain ⟨rfl, -⟩ := Res.ok_pair hr1
    rw [Sys.brkEvents_same hlt, granted, List.append_nil]
    refine h.setProgBrk hI ?_
    rw [pageUp_eq (by omega), pageUp_eq (by omega)] at hlt ⊢
    omega

/-- **A run.** -/
theorem run : ∀ {cs : List BrkCall} {parts : List ℕ} {s s' : Sys}, Grown s0 b0 parts s →
    (s.progBrk :: cs.map (·.newBrk)).IsChain (· ≤ ·) → (∀ c ∈ cs, c.newBrk ≤ 2 ^ 38 ∧ c.Granted) →
    brkRun s cs = .ok s' → Grown s0 b0 (parts ++ brkLog s cs) s' ∧
      s'.progBrk = (cs.map (·.newBrk)).getLastD s.progBrk
  | [], parts, s, s', h, _, _, hr => by
    cases hr
    rw [brkLog, List.append_nil]
    exact ⟨h, rfl⟩
  | c :: cs, parts, s, s', h, hc, hg, hr => by
    obtain ⟨⟨v, s1, rest⟩, hr1, hr2⟩ := Res.bind_ok hr
    simp only [List.map_cons, List.isChain_cons_cons] at hc
    obtain ⟨hle, hgc⟩ := hg c List.mem_cons_self
    obtain ⟨h1, h2⟩ := h.call hc.1 hle hgc hr1
    rw [← h2] at hc
    obtain ⟨h3, h4⟩ := run h1 hc.2 (fun c hc => hg c (List.mem_cons_of_mem _ hc)) hr2
    rw [brkLog, hr1, ← List.append_assoc]
    refine ⟨h3, ?_⟩
    rw [h4, h2, List.map_cons, List.getLastD_cons]

end Grown

theorem BrkBoot.grown {s : Sys} (h : BrkBoot s) (hp : PoolOk s) :
    Grown s.initProgBrk s.initProgBrk.progBrk [] s.initProgBrk := by
  have hI := h.brkInv
  have hsize := h.pool_size
  have hslot := hI.b0_slot
  have hpage := hI.b0_page
  have hE : eusrHeapStartAligned = 0x100000000 := rfl
  have hbrk : s.initProgBrk.progBrk = sub64 eusrHeapStartAligned s.getUmodePagePoolAvailSize := rfl
  have hav : s.initProgBrk.getUmodePagePoolAvailSize = s.getUmodePagePoolAvailSize :=
    Sys.setProgBrk_avail _ _
  have hav' := hI.avail
  have hpool : s.initProgBrk.umodePool = s.umodePool := Sys.setProgBrk_umodePool _ _
  rw [hpool] at hav'
  rw [sub64_eq (by omega) (by omega)] at hbrk
  obtain ⟨h1, h2, h3⟩ := pageUp_spec (a := s.initProgBrk.progBrk) (by omega)
  have hup : pageUp s.initProgBrk.progBrk = s.initProgBrk.progBrk := by omega
  have hends : partitionUp (pageUp s.initProgBrk.progBrk) = eusrHeapStartAligned := by
    rw [hup, partitionUp_eq (by omega)]
    omega
  refine ⟨hI, ⟨hp.aligned, hp.fits, hp.used_le⟩, by rw [hpool]; omega, ⟨rfl, rfl, ?_⟩, hends.symm,
    fun x hx hx' => by omega, fun x hx hx' => by omega, fun x _ _ => rfl⟩
  rw [hup]
  omega

/-! ### Frames -/

theorem Sys.HeapLeaf.frame {s : Sys} {pa : ℕ} {level : Level} (h : s.HeapLeaf x level pa)
    (hpa : pa < 2 ^ 56) : s.frameOf x = some (pa / 0x1000 + x % level.size / 0x1000) := by
  obtain ⟨pte, h1, h2, -⟩ := h
  rw [Sys.frameOf, h1, Option.map_some, Option.some.injEq]
  simp only [Sys.leafPa, h2, BitVec.toNat_ofNat]
  omega

/-- What the monitor grants: partitions in memory, all different and apart from the U-mode
pool. -/
structure FreshParts (s : Sys) (parts : List ℕ) : Prop where
  nodup : parts.Nodup
  aligned : ∀ pa ∈ parts, pa % 0x200000 = 0
  le : ∀ pa ∈ parts, pa + 0x200000 ≤ 2 ^ 56
  apart : ∀ pa ∈ parts, pa + 0x200000 ≤ s.poolStart .umode ∨
    s.poolStart .umode + s.umodePool.size ≤ pa

/-- A frame of the U-mode pool. -/
def Sys.PoolFrame (s : Sys) (f : ℕ) : Prop :=
  s.poolStart .umode ≤ 0x1000 * f ∧ 0x1000 * f < s.poolStart .umode + s.umodePool.size

/-- The addresses of the heap for a break rounded up to `n`: the last partition is mapped to
its end. -/
def InHeap (b0 n x : ℕ) : Prop :=
  b0 ≤ x ∧ (x < n ∨ (eusrHeapStartAligned ≤ x ∧ x < partitionUp n))

namespace Grown

variable {s0 s : Sys} {b0 : ℕ} {parts : List ℕ}

theorem page_frame (h : Grown s0 b0 parts s) (hx : b0 ≤ x) (hx' : x < pageUp s.progBrk)
    (hE : x < eusrHeapStartAligned) :
    s.frameOf x = some ((s0.getPoolTop .umode + (x - b0)) / 0x1000) ∧
      s0.PoolFrame ((s0.getPoolTop .umode + (x - b0)) / 0x1000) := by
  have htop := h.pool.getPoolTop
  have haligned := h.pool.aligned
  have hfits := h.pool.fits
  have hused := h.pool.used_le
  have hroom := h.room
  have hsize := h.inv.pool_page
  rw [h.taken.size] at hsize
  have hf := (h.page x hx hx' hE).frame (by omega)
  simp only [Level.size] at hf
  refine ⟨?_, ?_, ?_⟩
  · rw [hf, Option.some.injEq]
    omega
  · omega
  · omega

theorem part_frame (h : Grown s0 b0 parts s) (hfresh : FreshParts s0 parts)
    (hx : eusrHeapStartAligned ≤ x) (hx' : x < partitionUp (pageUp s.progBrk)) :
    ∃ pa, parts[(x - eusrHeapStartAligned) / 0x200000]? = some pa ∧
      s.frameOf x = some (pa / 0x1000 + x % 0x200000 / 0x1000) ∧ pa % 0x200000 = 0 ∧
      ¬ s0.PoolFrame (pa / 0x1000 + x % 0x200000 / 0x1000) := by
  obtain ⟨pa, h1, h2⟩ := h.part x hx hx'
  have hmem := List.mem_of_getElem? h1
  have haligned := hfresh.aligned pa hmem
  have hle := hfresh.le pa hmem
  refine ⟨pa, h1, h2.frame (by omega), haligned, ?_⟩
  rintro ⟨h3, h4⟩
  have hapart := hfresh.apart pa hmem
  omega

theorem once (h : Grown s0 b0 parts s) (hfresh : FreshParts s0 parts) {y f : ℕ}
    (hx : InHeap b0 (pageUp s.progBrk) x) (hy : InHeap b0 (pageUp s.progBrk) y)
    (hfx : s.frameOf x = some f) (hfy : s.frameOf y = some f) : x / 0x1000 = y / 0x1000 := by
  have hup : pageUp s.progBrk ≤ partitionUp (pageUp s.progBrk) :=
    (partitionUp_spec (by have := h.inv.pageUp_brk.2; omega)).1
  have hE : eusrHeapStartAligned = 0x100000000 := rfl
  obtain ⟨hx1, hx2⟩ := hx
  obtain ⟨hy1, hy2⟩ := hy
  by_cases hxE : x < eusrHeapStartAligned
  · obtain ⟨h1, h2⟩ := h.page_frame hx1 (by omega) hxE
    rw [hfx, Option.some.injEq] at h1
    by_cases hyE : y < eusrHeapStartAligned
    · obtain ⟨h3, -⟩ := h.page_frame hy1 (by omega) hyE
      rw [hfy, Option.some.injEq] at h3
      have htop := h.pool.getPoolTop
      have haligned := h.pool.aligned
      have hpage := h.inv.b0_page
      omega
    · obtain ⟨pa, -, h3, -, h4⟩ := h.part_frame hfresh (x := y) (by omega) (by omega)
      rw [hfy, Option.some.injEq] at h3
      rw [← h3, h1] at h4
      exact absurd h2 h4
  · obtain ⟨pa, h1, h2, h3, h4⟩ := h.part_frame hfresh (x := x) (by omega) (by omega)
    rw [hfx, Option.some.injEq] at h2
    by_cases hyE : y < eusrHeapStartAligned
    · obtain ⟨h5, h6⟩ := h.page_frame hy1 (by omega) hyE
      rw [hfy, Option.some.injEq] at h5
      rw [← h2, h5] at h4
      exact absurd h6 h4
    · obtain ⟨pa', h5, h6, h7, -⟩ := h.part_frame hfresh (x := y) (by omega) (by omega)
      rw [hfy, Option.some.injEq] at h6
      obtain rfl : pa = pa' := by omega
      have hlt := (List.getElem?_eq_some_iff.mp h1).1
      have hidx := (List.getElem?_inj hlt hfresh.nodup).mp (h1.trans h5.symm)
      omega

/-- The addresses of the heap are mapped, the others are as at the start. -/
theorem mapped_iff (h : Grown s0 b0 parts s) (hx : x < 2 ^ 38) :
    s.MappedURW x ↔ InHeap b0 (pageUp s.progBrk) x ∨ s0.MappedURW x := by
  have hup : pageUp s.progBrk ≤ partitionUp (pageUp s.progBrk) :=
    (partitionUp_spec (by have := h.inv.pageUp_brk.2; omega)).1
  by_cases hin : InHeap b0 (pageUp s.progBrk) x
  · refine ⟨fun _ => Or.inl hin, fun _ => ?_⟩
    obtain ⟨h1, h2⟩ := hin
    by_cases hE : x < eusrHeapStartAligned
    · exact (h.page x h1 (by omega) hE).mapped
    · obtain ⟨pa, -, h3⟩ := h.part x (by omega) (by omega)
      exact h3.mapped
  · have hleaf : s.leaf x = s0.leaf x := h.rest x hx (by unfold InHeap at hin; omega)
    simp only [hin, false_or, Sys.MappedURW, hleaf]

end Grown

/-! ### Path independence -/

/-- A user's access to `x` is translated: the address is canonical, and its leaf is U, R and
W. -/
def Sys.UserMapped (s : Sys) (x : ℕ) : Prop := Canonical x ∧ s.MappedURW x

/-- What a run that grows the break from `s0` to `bn` and ends in `s` has to do with the one
call with argument `bn`, which ends in `s1`. -/
structure BrkPathOk (s0 : Sys) (bn : ℕ) (s s1 : Sys) : Prop where
  brk : s.progBrk = s1.progBrk
  used : s.umodePool.usedPageCount = s1.umodePool.usedPageCount
  same : ∀ x < 2 ^ 38, s.UserMapped x ↔ s1.UserMapped x
  covered : ∀ x, s0.progBrk ≤ x → x < pageUp bn → s.UserMapped x
  count : s.umodePool.usedPageCount = s0.umodePool.usedPageCount +
    (min (pageUp bn) eusrHeapStartAligned - s0.progBrk) / 0x1000
  pool : ∀ x, s0.progBrk ≤ x → x < pageUp bn →
    (x < eusrHeapStartAligned ↔ ∃ f, s.frameOf x = some f ∧ s0.PoolFrame f)
  once : ∀ x y f, InHeap s0.progBrk (pageUp bn) x → InHeap s0.progBrk (pageUp bn) y →
    s.frameOf x = some f → s.frameOf y = some f → x / 0x1000 = y / 0x1000

theorem Grown.pathOk {s0 s : Sys} {parts parts1 : List ℕ} (h : Grown s0 s0.progBrk parts s)
    (h1 : Grown s0 s0.progBrk parts1 s1) (hbrk : s.progBrk = s1.progBrk)
    (hfresh : FreshParts s0 parts) : BrkPathOk s0 s.progBrk s s1 := by
  have hle := h.inv.pageUp_brk.2
  have hup : pageUp s.progBrk ≤ partitionUp (pageUp s.progBrk) :=
    (partitionUp_spec (by omega)).1
  refine ⟨hbrk, ?_, fun x hx => ?_, fun x hx hx' => ⟨Or.inl (by omega), ?_⟩, h.taken.used, fun x hx hx' => ?_,
    fun x y f hx hy => h.once hfresh hx hy⟩
  · rw [h.taken.used, h1.taken.used, hbrk]
  · rw [Sys.UserMapped, Sys.UserMapped, h.mapped_iff hx, h1.mapped_iff hx, hbrk]
  · exact (h.mapped_iff (by omega)).mpr (Or.inl ⟨hx, Or.inl hx'⟩)
  · constructor
    · intro hE
      exact ⟨_, h.page_frame hx hx' hE⟩
    · rintro ⟨f, hf, hpool⟩
      by_contra hE
      obtain ⟨pa, -, h2, -, h3⟩ := h.part_frame hfresh (x := x) (by omega) (by omega)
      rw [hf, Option.some.injEq] at h2
      exact h3 (h2 ▸ hpool)

/-- **Growing the break is path independent exactly within the user's half.** From the break
set by `init_prog_brk`, a run of calls with non-decreasing arguments, the last one `bn` with
`PAGE_UP(bn)` not wrapping and every request granted with partitions of its own, leaves the
break, the pool's count and the mapped pages that the call with argument `bn` alone leaves,
covers all from the first break to `PAGE_UP(bn)`, uses the pool exactly below
`EUSR_HEAP_START_ALIGNED` and no frame twice, if and only if `PAGE_UP(bn)` is at most
`2 ^ 38`. -/
theorem brk_path_iff (s : Sys) (h : BrkBoot s) (hp : PoolOk s) (cs : List BrkCall) (c : BrkCall)
    (hc : (s.initProgBrk.progBrk :: (cs ++ [c]).map (·.newBrk)).IsChain (· ≤ ·))
    (hg : ∀ c' ∈ cs ++ [c], c'.Granted) (hwrap : c.newBrk ≤ 2 ^ 64 - 0x1000)
    (hfresh : FreshParts s.initProgBrk (brkLog s.initProgBrk (cs ++ [c]))) (s' : Sys)
    (hr : brkRun s.initProgBrk (cs ++ [c]) = .ok s') (rs : List SmReply) (hrs : FirstGranted rs)
    (v : ℕ) (s1 : Sys) (rest : List SmReply)
    (hr1 : s.initProgBrk.sysBrkHandler c.newBrk rs = .ok (v, s1, rest)) :
    BrkPathOk s.initProgBrk c.newBrk s' s1 ↔ pageUp c.newBrk ≤ 2 ^ 38 := by
  have hup := (pageUp_spec hwrap).1
  have hG := h.grown hp
  have hchain := List.isChain_iff_pairwise.mp hc
  constructor
  · -- the first address beyond the user's half is not canonical
    intro hok
    by_contra hlt
    have hb := hG.inv.brk_le
    obtain ⟨hcan, -⟩ := hok.covered (2 ^ 38) hb (by omega)
    revert hcan
    decide
  · intro hle
    have hlast : ∀ c' ∈ cs ++ [c], c'.newBrk ≤ c.newBrk := by
      intro c' hc'
      rcases List.mem_append.mp hc' with hm | hm
      · rw [List.map_append, List.pairwise_cons] at hchain
        exact (List.pairwise_append.mp hchain.2).2.2 _ (List.mem_map_of_mem hm) _ (by simp)
      · rw [List.mem_singleton.mp hm]
    obtain ⟨h2, h3⟩ := hG.run hc (fun c' hc' => ⟨by have := hlast c' hc'; omega, hg c' hc'⟩) hr
    rw [List.nil_append] at h2
    have hbrk : s'.progBrk = c.newBrk := by
      rw [h3, List.map_append]
      simp
    have hfirst : s.initProgBrk.progBrk ≤ c.newBrk :=
      (List.pairwise_cons.mp hchain).1 _ (by simp)
    obtain ⟨h4, h5⟩ := hG.call (c := ⟨c.newBrk, rs⟩) hfirst (le_trans hup hle) hrs hr1
    rw [← hbrk]
    exact h2.pathOk h4 (by rw [hbrk, h5]) hfresh

/-- Two calls from the first break of `Sys.smallBoot`: one page of the pool, then the other
and a partition. -/
theorem brk_path_iff_two : ∃ s' s1, BrkPathOk Sys.smallBoot.initProgBrk 0x100001000 s' s1 := by
  obtain ⟨s', hr⟩ := Res.exists_ok (x := brkRun Sys.smallBoot.initProgBrk
    ([⟨0xfffff000, [⟨0, 0x90000000⟩]⟩] ++ [⟨0x100001000, [⟨0, 0x90000000⟩]⟩])) (by decide +kernel)
  obtain ⟨⟨v, s1, rest⟩, hr1⟩ := Res.exists_ok (x := Sys.smallBoot.initProgBrk.sysBrkHandler
    0x100001000 [⟨0, 0x90000000⟩]) (by decide +kernel)
  have hlog : brkLog Sys.smallBoot.initProgBrk ([⟨0xfffff000, [⟨0, 0x90000000⟩]⟩] ++
      [⟨0x100001000, [⟨0, 0x90000000⟩]⟩]) = [0x90000000] := by decide +kernel
  refine ⟨s', s1, (brk_path_iff Sys.smallBoot smallBoot_brkBoot ⟨by decide, by decide, by decide⟩ _
    ⟨0x100001000, _⟩ (by decide +kernel) ?_ (by norm_num) ?_ s' hr _ ?_ v s1 rest hr1).mpr (by decide)⟩
  · intro c hc
    fin_cases hc <;> simp [BrkCall.Granted, FirstGranted, SmReply.Refused]
  · rw [hlog]
    exact ⟨by decide, by decide, by decide, by decide +kernel⟩
  · simp [FirstGranted, SmReply.Refused]

/-- **A break near the top of the address space is not backed.** `PARTITION_UP` wraps to 0,
so `brk(2 ^ 64 - 0x1000)` maps the pool's two pages, nothing above them, and sets the break;
what is mapped then depends on the calls before it. -/
theorem brk_path_wraps : ∃ v s1 rest s',
    Sys.smallBoot.initProgBrk.sysBrkHandler (2 ^ 64 - 0x1000) [⟨0, 0x90000000⟩] = .ok (v, s1, rest) ∧
    s1.progBrk = 2 ^ 64 - 0x1000 ∧ ¬ s1.MappedURW 0x100000000 ∧
    brkRun Sys.smallBoot.initProgBrk [⟨0x100001000, [⟨0, 0x90000000⟩]⟩,
      ⟨2 ^ 64 - 0x1000, [⟨0, 0xa0000000⟩]⟩] = .ok s' ∧ s'.MappedURW 0x100000000 := by
  obtain ⟨⟨v, s1, rest⟩, h1⟩ := Res.exists_ok (x := Sys.smallBoot.initProgBrk.sysBrkHandler
    (2 ^ 64 - 0x1000) [⟨0, 0x90000000⟩]) (by decide +kernel)
  obtain ⟨s', h2⟩ := Res.exists_ok (x := brkRun Sys.smallBoot.initProgBrk
    [⟨0x100001000, [⟨0, 0x90000000⟩]⟩, ⟨2 ^ 64 - 0x1000, [⟨0, 0xa0000000⟩]⟩]) (by decide +kernel)
  have h3 : ((Sys.smallBoot.initProgBrk.sysBrkHandler (2 ^ 64 - 0x1000)
      [⟨0, 0x90000000⟩]).toOption.map fun r => (r.2.1.progBrk, r.2.1.leaf 0x100000000)) =
      some (2 ^ 64 - 0x1000, none) := by decide +kernel
  have h4 : ((brkRun Sys.smallBoot.initProgBrk [⟨0x100001000, [⟨0, 0x90000000⟩]⟩,
      ⟨2 ^ 64 - 0x1000, [⟨0, 0xa0000000⟩]⟩]).toOption.bind fun s => (s.leaf 0x100000000).map
        fun l => (l.2.u, l.2.r, l.2.w)) = some (true, true, true) := by decide +kernel
  rw [h1] at h3
  rw [h2] at h4
  simp only [Except.toOption, Option.map_some, Option.some.injEq, Prod.mk.injEq] at h3
  simp only [Except.toOption, Option.bind_some, Option.map_eq_some_iff, Prod.mk.injEq] at h4
  obtain ⟨⟨level, pte⟩, h5, h6⟩ := h4
  refine ⟨v, s1, rest, s', h1, h3.1, ?_, h2, level, pte, h5, h6⟩
  rintro ⟨l, p, hl, -⟩
  rw [h3.2] at hl
  cases hl

end Coffer
