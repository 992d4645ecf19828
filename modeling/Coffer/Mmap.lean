/-
# Anonymous memory

`mmap/mmap.c` of the VFS emodule. A region is an entry of `mmap_addr`; its memory is
mapped at `mmap_top`, which only ever grows. Frames come from the security monitor
and from two lists of what `munmap` gave back. The lists hold virtual addresses: the
frame behind one is looked up with `get_pa` when the memory is used again, and it is
then mapped a second time, at the top.

This module has the code and what it does to the address space: `mmap_top` is ahead of
everything mapped and everything returned, and a 2 MiB slot is mapped with small pages
or with a megapage (`mmap_fresh`). A length within 2 MiB of the end of `u64` is the
exception: rounded up to partitions it is 0, and `mmap` returns an address with nothing
mapped there, which the next call returns again (`mmap_returns_twice`).
-/
import Coffer.Access
import Coffer.Partition

namespace Coffer

open Lib

variable {len mem n num : ℕ}

/-- The state of `mmap.c` over the page table. `mmapAddr` has the `begin` and `end` of
the regions, `freePage` the `va` and `count` of blocks of small pages, `freeMega` the `va`
of megapages.

The last three are a record of what has happened, which the code does not have: what
the monitor has granted (address and number of partitions), the calls of `map_page`,
and what `mmap` has returned (address and length), each with the latest first. -/
structure MmapState where
  sys : Sys
  mmapAddr : List (ℕ × ℕ)
  freePage : List (ℕ × ℕ)
  freeMega : List ℕ
  mmapTop : ℕ
  errno : ℕ
  granted : List (ℕ × ℕ)
  mapped : List (ℕ × Level)
  returned : List (ℕ × ℕ)

/-- `PTE_R | PTE_W | PTE_U`. -/
def mmapFlags : ℕ := pteR + pteW + pteU

/-- The grants among the events of a loop, the latest first. -/
def grantsOf : List MapEvent → List (ℕ × ℕ)
  | [] => []
  | .grant pa count :: evs => grantsOf evs ++ [(pa, count)]
  | .map _ _ :: evs => grantsOf evs

/-- The calls of `map_page` among the events of a loop, the latest first. -/
def mapsOf : List MapEvent → List (ℕ × Level)
  | [] => []
  | .grant _ _ :: evs => mapsOf evs
  | .map va _ :: evs => mapsOf evs ++ [(va, .mega)]

namespace MmapState

/-- The `for` of `alloc_small_page` over `n` pages of the block at `va`. -/
def recyclePages (st : MmapState) (va : ℕ) : ℕ → Res MmapState
  | 0 => .ok st
  | i + 1 => do
    let st ← st.recyclePages va i
    let pa := (st.sys.getPa (add64 va (0x1000 * i))).2
    let sys ← st.sys.mapPage st.mmapTop pa mmapFlags .page
    let sys ← sys.memset st.mmapTop 0 0x1000
    .ok { st with
      sys := sys
      mmapTop := add64 st.mmapTop 0x1000
      mapped := (st.mmapTop, .page) :: st.mapped }

/-- The calls of `map_page` for `n` small pages from `va`, the latest first. -/
def pageCalls (va n : ℕ) : List (ℕ × Level) :=
  ((List.range n).map fun i => (add64 va (0x1000 * i), Level.page)).reverse

/-- A partition for the last `num` pages, mapped page by page. The rest of it becomes
the only block of the list; if there is no rest, the code goes on to the head of the
list, which is `NULL`. -/
def smallFromPartition (st : MmapState) (num : ℕ) : List SmReply → Res (MmapState × List SmReply)
  | [] => .error .noReply
  | r :: rs => do
    let sys ← st.sys.mapRange st.mmapTop r.paddr mmapFlags .page 512
    if num < 512 then
      .ok ({ st with
        sys := sys
        mmapTop := add64 st.mmapTop 0x200000
        freePage := [(add64 st.mmapTop (0x1000 * num), 512 - num)]
        granted := if r.Refused then st.granted else (r.paddr, 1) :: st.granted
        mapped := pageCalls st.mmapTop 512 ++ st.mapped }, rs)
    else .error (.fault 16)

/-- The `while (num)` of `alloc_small_page`, with the list of blocks. -/
def smallLoop (rs : List SmReply) : List (ℕ × ℕ) → MmapState → ℕ → Res (MmapState × List SmReply)
  | [], st, num => if num = 0 then .ok ({ st with freePage := [] }, rs) else st.smallFromPartition num rs
  | (va, count) :: free, st, num =>
    if num = 0 then .ok ({ st with freePage := (va, count) :: free }, rs)
    else if count ≤ num then do
      let st ← st.recyclePages va count
      smallLoop rs free st (num - count)
    else do
      let st ← st.recyclePages va num
      .ok ({ st with freePage := (add64 va (0x1000 * num), count - num) :: free }, rs)

def allocSmallPage (st : MmapState) (num : ℕ) (rs : List SmReply) :
    Res (ℕ × MmapState × List SmReply) :=
  if 512 < num then .error (.panic "")
  else do
    let (st', rs) ← smallLoop rs st.freePage st num
    .ok (st.mmapTop, st', rs)

/-- The inner loops of `alloc_mega_page`, for `num` partitions. -/
def megaPartitions (st : MmapState) (num : ℕ) (rs : List SmReply) :
    List MapEvent × Option (List SmReply) :=
  partitionLoop (fun allocated => allocated) rs num num st.mmapTop

/-- The partitions of `alloc_mega_page`, when no megapage is left on the list. -/
def megaFromPartitions (st : MmapState) (num : ℕ) (rs : List SmReply) :
    Res (MmapState × List SmReply) := do
  let (evs, rest) := st.megaPartitions num rs
  let sys ← st.sys.execCalls mmapFlags evs
  match rest with
  | none => .error .noReply
  | some rs =>
    .ok ({ st with
      sys := sys
      mmapTop := add64 st.mmapTop (0x200000 * (mapsOf evs).length)
      freeMega := []
      granted := grantsOf evs ++ st.granted
      mapped := mapsOf evs ++ st.mapped }, rs)

/-- The `while (num)` of `alloc_mega_page`, with the list of megapages. A megapage of
the list is mapped with flags 0. -/
def megaLoop (rs : List SmReply) : List ℕ → MmapState → ℕ → Res (MmapState × List SmReply)
  | free, st, 0 => .ok ({ st with freeMega := free }, rs)
  | [], st, num + 1 => st.megaFromPartitions (num + 1) rs
  | va :: free, st, num + 1 => do
    let pa := (st.sys.getPa va).2
    let sys ← st.sys.mapPage st.mmapTop pa 0 .mega
    let sys ← sys.memset st.mmapTop 0 0x200000
    megaLoop rs free { st with
      sys := sys
      mmapTop := add64 st.mmapTop 0x200000
      mapped := (st.mmapTop, .mega) :: st.mapped } num

/-- `mmap_top = PARTITION_UP(mmap_top)`. -/
def alignTop (st : MmapState) : MmapState := { st with mmapTop := partitionUp st.mmapTop }

def allocMegaPage (st : MmapState) (num : ℕ) (rs : List SmReply) :
    Res (ℕ × MmapState × List SmReply) := do
  let (st', rs) ← megaLoop rs st.freeMega st.alignTop num
  .ok (st.alignTop.mmapTop, st', rs)

/-- `addr >= tmp->begin && addr < tmp->end`. -/
def Hit (addr : ℕ) (r : ℕ × ℕ) : Prop := r.1 ≤ addr ∧ addr < r.2

instance (addr : ℕ) (r : ℕ × ℕ) : Decidable (Hit addr r) := inferInstanceAs (Decidable (_ ∧ _))

/-- The memory of a new region of `len` bytes. -/
def allocRegion (st : MmapState) (len : ℕ) (rs : List SmReply) : Res (ℕ × MmapState × List SmReply) :=
  if 0x200000 ≤ len then st.allocMegaPage (partitionUp len / 0x200000) rs
  else st.allocSmallPage (pageUp len / 0x1000) rs

/-- The parameters that `mmap` does not implement. -/
def Unimplemented (prot flags fildes off : ℕ) : Prop :=
  (fildes ≠ 2 ^ 32 - 1 ∨ off ≠ 0) ∨ (prot &&& 0x3 = 0 ∧ prot ≠ 0) ∨
    (flags &&& 0x22 = 0 ∧ flags &&& 0x32 = 0 ∧ flags &&& 0x4022 = 0)

instance (prot flags fildes off : ℕ) : Decidable (Unimplemented prot flags fildes off) :=
  inferInstanceAs (Decidable (_ ∨ _ ∨ _))

/-- `mmap`: the address returned, the state and the monitor's answers left. -/
def mmap (st : MmapState) (addr len prot flags fildes off : ℕ) (rs : List SmReply) :
    Res (ℕ × MmapState × List SmReply) :=
  if len = 0 then .ok (2 ^ 64 - 1, { st with errno := 22 }, rs)
  else if Unimplemented prot flags fildes off then .ok (0, st, rs)
  else if addr ≠ 0 ∧ ∃ r ∈ st.mmapAddr, Hit addr r then .ok (addr, st, rs)
  else do
    let (mem, st, rs) ← st.allocRegion len rs
    .ok (mem, { st with
      mmapAddr := st.mmapAddr ++ [(mem, add64 mem len)]
      returned := (mem, len) :: st.returned }, rs)

/-- `munmap`. The list is walked with `prev` at `NULL`, so that the entries before the one
found go too. -/
def munmap (st : MmapState) (addr len : ℕ) : ℕ × MmapState :=
  if len = 0 then (2 ^ 32 - 1, { st with errno := 22 })
  else if addr = 0 then (0, st)
  else
    match st.mmapAddr.dropWhile fun r => ¬ Hit addr r with
    | [] => (0, st)
    | r :: rest =>
      if len ≠ sub64 r.2 r.1 then (0, st)
      else if 0x200000 ≤ len then
        (0, { st with mmapAddr := rest, freeMega := addr :: st.freeMega })
      else
        (0, { st with mmapAddr := rest, freePage := (addr, len / 0x1000) :: st.freePage })

end MmapState

/-- A call from user mode. -/
inductive MmapCall
  | mmap (addr len prot flags fildes off : ℕ)
  | munmap (addr len : ℕ)
deriving DecidableEq, Repr

/-- One call. -/
def MmapState.call (st : MmapState) (rs : List SmReply) : MmapCall → Res (MmapState × List SmReply)
  | .mmap addr len prot flags fildes off => do
    let (_, st, rs) ← st.mmap addr len prot flags fildes off rs
    .ok (st, rs)
  | .munmap addr len => .ok ((st.munmap addr len).2, rs)

/-- A sequence of calls. -/
def MmapState.run (st : MmapState) (rs : List SmReply) : List MmapCall → Res (MmapState × List SmReply)
  | [] => .ok (st, rs)
  | c :: cs => do
    let (st, rs) ← st.call rs c
    st.run rs cs

/-- The first address of the area; `mmap_top` at the start. -/
def mmapBase : ℕ := 0x1000000000

/-- The state at the start, over a page table. -/
def MmapState.init (sys : Sys) : MmapState := ⟨sys, [], [], [], mmapBase, 0, [], [], []⟩

/-! ### The address space -/

theorem mapsOf_append (evs evs' : List MapEvent) : mapsOf (evs ++ evs') = mapsOf evs' ++ mapsOf evs := by
  induction evs with
  | nil => simp [mapsOf]
  | cons e evs ih => cases e <;> simp [mapsOf, ih]

theorem mapCalls_succ (va pa n : ℕ) :
    mapCalls va pa (n + 1) = mapCalls va pa n ++ [.map (slot va n) (slot pa n)] := by
  simp [mapCalls, List.range_succ]

theorem mapsOf_mapCalls_succ (va pa n : ℕ) :
    mapsOf (mapCalls va pa (n + 1)) = (slot va n, .mega) :: mapsOf (mapCalls va pa n) := by
  rw [mapCalls_succ, mapsOf_append]
  rfl

theorem length_mapsOf_mapCalls (va pa n : ℕ) : (mapsOf (mapCalls va pa n)).length = n := by
  induction n with
  | zero => rfl
  | succ n ih => rw [mapsOf_mapCalls_succ, List.length_cons, ih]

theorem mapsOf_grant (va pa n : ℕ) (evs : List MapEvent) :
    mapsOf (.grant pa n :: mapCalls va pa n ++ evs) = mapsOf evs ++ mapsOf (mapCalls va pa n) := by
  rw [List.cons_append, mapsOf, mapsOf_append]

/-- The loop maps as many partitions as were asked for. -/
theorem partitionLoop_length {rs rest : List SmReply} {left sug top : ℕ} {evs : List MapEvent}
    (hleft : left < 2 ^ 64)
    (he : partitionLoop (fun allocated => allocated) rs left sug top = (evs, some rest))
    (hlt : (mapsOf evs).length < 2 ^ 64) : (mapsOf evs).length = left := by
  induction rs generalizing left sug top evs with
  | nil =>
    cases left with
    | zero =>
      simp only [partitionLoop, Prod.mk.injEq] at he
      rw [← he.1]
      rfl
    | succ left => simp [partitionLoop] at he
  | cons r rs ih =>
    cases left with
    | zero =>
      simp only [partitionLoop, Prod.mk.injEq] at he
      rw [← he.1]
      rfl
    | succ left =>
      rw [partitionLoop] at he
      by_cases hrf : r.Refused
      · rw [if_pos hrf] at he
        exact ih hleft he hlt
      · rw [if_neg hrf] at he
        simp only [Prod.mk.injEq] at he
        obtain ⟨rfl, hrest⟩ := he
        generalize hnext : partitionLoop (fun allocated => allocated) rs (sub64 (left + 1) sug)
          (sub64 (left + 1) sug) (add64 top (mul64 sug 0x200000)) = next at hlt hrest ⊢
        obtain ⟨evs, rest'⟩ := next
        simp only at hlt hrest ⊢
        subst hrest
        rw [mapsOf_grant, List.length_append, length_mapsOf_mapCalls] at hlt ⊢
        have h1 := ih (sub64_lt _ _) hnext (by omega)
        unfold sub64 at h1
        omega

theorem pageCalls_succ (va n : ℕ) : MmapState.pageCalls va (n + 1) =
    (add64 va (0x1000 * n), Level.page) :: MmapState.pageCalls va n := by
  simp [MmapState.pageCalls, List.range_succ]

/-- The calls of `map_page` all lie below `top`, and no slot of 2 MiB has both small
pages and a megapage. The top is not far ahead: `base`, and 2 MiB for each call. -/
structure Ordered (base top : ℕ) (mapped : List (ℕ × Level)) : Prop where
  aligned : top % 0x1000 = 0
  le : top ≤ base + 0x200000 * mapped.length
  below : ∀ c ∈ mapped, c.1 + c.2.size ≤ top
  mega : ∀ va, (va, Level.mega) ∈ mapped → va % 0x200000 = 0
  levels : ∀ va va', (va, Level.page) ∈ mapped → (va', Level.mega) ∈ mapped →
    va / 0x200000 ≠ va' / 0x200000

namespace Ordered

variable {base top : ℕ} {mapped : List (ℕ × Level)}

/-- A small page at the top: every megapage lies in a slot before. -/
theorem page (h : Ordered base top mapped) : Ordered base (top + 0x1000) ((top, .page) :: mapped) := by
  have hal := h.aligned
  have hle := h.le
  refine ⟨by omega, ?_, fun c hc => ?_, fun va hva => ?_, fun va va' hva hva' => ?_⟩
  · rw [List.length_cons, Nat.mul_succ]
    omega
  · rcases List.mem_cons.mp hc with rfl | hc
    · exact le_refl _
    · have := h.below c hc
      omega
  · rcases List.mem_cons.mp hva with hc | hva
    · cases hc
    · exact h.mega va hva
  · rcases List.mem_cons.mp hva' with hc | hva'
    · cases hc
    · rcases List.mem_cons.mp hva with hc | hva
      · have h1 : va' + 0x200000 ≤ top := h.below _ hva'
        have h2 := h.mega va' hva'
        simp only [Prod.mk.injEq, and_true] at hc
        omega
      · exact h.levels va va' hva hva'

/-- A megapage at the top, on the boundary of a slot: every small page lies in a slot
before. -/
theorem megapage (h : Ordered base top mapped) (htop : top % 0x200000 = 0) :
    Ordered base (top + 0x200000) ((top, .mega) :: mapped) := by
  have hle := h.le
  refine ⟨by omega, ?_, fun c hc => ?_, fun va hva => ?_, fun va va' hva hva' => ?_⟩
  · rw [List.length_cons, Nat.mul_succ]
    omega
  · rcases List.mem_cons.mp hc with rfl | hc
    · exact le_refl _
    · have := h.below c hc
      omega
  · rcases List.mem_cons.mp hva with hc | hva
    · simp only [Prod.mk.injEq, and_true] at hc
      omega
    · exact h.mega va hva
  · rcases List.mem_cons.mp hva with hc | hva
    · cases hc
    · rcases List.mem_cons.mp hva' with hc | hva'
      · have h1 : va + 0x1000 ≤ top := h.below _ hva
        simp only [Prod.mk.injEq, and_true] at hc
        omega
      · exact h.levels va va' hva hva'

theorem next_lt (h : Ordered base top mapped)
    (hlt : base + 0x200000 * (mapped.length + 1) < 2 ^ 64) : top + 0x200000 < 2 ^ 64 :=
  calc top + 0x200000 ≤ base + 0x200000 * mapped.length + 0x200000 := Nat.add_le_add_right h.le _
    _ = base + 0x200000 * (mapped.length + 1) := by rw [Nat.add_assoc, ← Nat.mul_succ]
    _ < 2 ^ 64 := hlt

theorem raise (h : Ordered base top mapped) {base' top' : ℕ} (hle : top ≤ top')
    (hle' : top' ≤ base' + 0x200000 * mapped.length) (hal : top' % 0x1000 = 0) :
    Ordered base' top' mapped :=
  ⟨hal, hle', fun c hc => le_trans (h.below c hc) hle, h.mega, h.levels⟩

/-- A stretch of small pages. -/
theorem pages (h : Ordered base top mapped) (hlt : top + 0x1000 * n < 2 ^ 64) :
    Ordered base (top + 0x1000 * n) (MmapState.pageCalls top n ++ mapped) := by
  induction n with
  | zero => exact h
  | succ n ih =>
    have h1 := (ih (by omega)).page
    rw [Nat.add_assoc, ← Nat.mul_succ] at h1
    rw [pageCalls_succ, add64_eq (by omega)]
    exact h1

/-- A stretch of megapages. -/
theorem megapages (h : Ordered base top mapped) (htop : top % 0x200000 = 0) (pa : ℕ)
    (hlt : top + 0x200000 * n < 2 ^ 64) :
    Ordered base (top + 0x200000 * n) (mapsOf (mapCalls top pa n) ++ mapped) := by
  induction n with
  | zero => exact h
  | succ n ih =>
    have h1 := (ih (by omega)).megapage (by omega)
    rw [Nat.add_assoc, ← Nat.mul_succ] at h1
    rw [mapsOf_mapCalls_succ, slot, add64_eq (by omega)]
    exact h1

/-- The loop of `alloc_mega_page`, in whatever portions the partitions are granted. -/
theorem partitions (h : Ordered base top mapped) (htop : top % 0x200000 = 0) {rs rest : List SmReply}
    {left sug : ℕ} {evs : List MapEvent}
    (he : partitionLoop (fun allocated => allocated) rs left sug top = (evs, some rest))
    (hlt : top + 0x200000 * (mapsOf evs).length < 2 ^ 64) :
    Ordered base (top + 0x200000 * (mapsOf evs).length) (mapsOf evs ++ mapped) := by
  induction rs generalizing left sug top mapped evs with
  | nil =>
    cases left with
    | zero =>
      simp only [partitionLoop, Prod.mk.injEq] at he
      obtain ⟨rfl, -⟩ := he
      exact h
    | succ left => simp [partitionLoop] at he
  | cons r rs ih =>
    cases left with
    | zero =>
      simp only [partitionLoop, Prod.mk.injEq] at he
      obtain ⟨rfl, -⟩ := he
      exact h
    | succ left =>
      rw [partitionLoop] at he
      by_cases hrf : r.Refused
      · rw [if_pos hrf] at he
        exact ih h htop he hlt
      · rw [if_neg hrf] at he
        simp only [Prod.mk.injEq] at he
        obtain ⟨rfl, hrest⟩ := he
        -- what is mapped for this grant, and the rest of the loop
        generalize hnext : partitionLoop (fun allocated => allocated) rs (sub64 (left + 1) sug)
          (sub64 (left + 1) sug) (add64 top (mul64 sug 0x200000)) = next at hlt hrest ⊢
        obtain ⟨evs, rest'⟩ := next
        simp only at hlt hrest ⊢
        subst hrest
        rw [mapsOf_grant, List.length_append, length_mapsOf_mapCalls] at hlt ⊢
        have hva : add64 top (mul64 sug 0x200000) = top + 0x200000 * sug := by
          rw [mul64_eq (by omega), add64_eq (by omega), Nat.mul_comm]
        rw [hva] at hnext
        have h1 := ih (h.megapages htop r.paddr (by omega)) (by omega) hnext (by omega)
        rw [List.append_assoc]
        rwa [show top + 0x200000 * sug + 0x200000 * (mapsOf evs).length =
          top + 0x200000 * ((mapsOf evs).length + sug) by omega] at h1

end Ordered

/-- What the allocators leave alone, and that the record grows. -/
structure Extends (st st' : MmapState) : Prop where
  mapped : ∃ new, st'.mapped = new ++ st.mapped
  granted : ∃ new, st'.granted = new ++ st.granted
  returned : st'.returned = st.returned
  addr : st'.mmapAddr = st.mmapAddr

theorem Extends.refl (st : MmapState) : Extends st st := ⟨⟨[], rfl⟩, ⟨[], rfl⟩, rfl, rfl⟩

theorem Extends.trans {st st' st'' : MmapState} (h : Extends st st') (h' : Extends st' st'') :
    Extends st st'' := by
  obtain ⟨m, hm⟩ := h.mapped
  obtain ⟨m', hm'⟩ := h'.mapped
  obtain ⟨g, hg⟩ := h.granted
  obtain ⟨g', hg'⟩ := h'.granted
  exact ⟨⟨m' ++ m, by rw [hm', hm, List.append_assoc]⟩, ⟨g' ++ g, by rw [hg', hg, List.append_assoc]⟩,
    h'.returned.trans h.returned, h'.addr.trans h.addr⟩

theorem length_le_of_append {α : Type} {l l' : List α} (h : ∃ new, l' = new ++ l) :
    l.length ≤ l'.length := by
  obtain ⟨new, rfl⟩ := h
  rw [List.length_append]
  omega

theorem Extends.length_le {st st' : MmapState} (h : Extends st st') :
    st.mapped.length ≤ st'.mapped.length :=
  length_le_of_append h.mapped

/-- An allocation moves the top by `size` bytes or more, if there is room for what it
maps. -/
structure Moves (st st' : MmapState) (size : ℕ) : Prop extends Extends st st' where
  ordered : ∀ base, Ordered base st.mmapTop st.mapped →
    base + 0x200000 * st'.mapped.length < 2 ^ 64 →
    Ordered base st'.mmapTop st'.mapped ∧ st.mmapTop + size ≤ st'.mmapTop

namespace MmapState

variable {st st' : MmapState} {rs rs' : List SmReply}

theorem recyclePages_moves {va : ℕ} (hr : st.recyclePages va n = .ok st') :
    Moves st st' (0x1000 * n) := by
  induction n generalizing st' with
  | zero =>
    cases hr
    exact ⟨Extends.refl _, fun base h _ => ⟨h, le_refl _⟩⟩
  | succ n ih =>
    rw [recyclePages] at hr
    obtain ⟨st1, hr1, hr2⟩ := Res.bind_ok hr
    obtain ⟨sys1, -, hr3⟩ := Res.bind_ok hr2
    obtain ⟨sys2, -, hr4⟩ := Res.bind_ok hr3
    have h1 := ih hr1
    simp only [Except.ok.injEq] at hr4
    subst hr4
    refine ⟨h1.toExtends.trans ⟨⟨[_], rfl⟩, ⟨[], rfl⟩, rfl, rfl⟩, fun base h hlt => ?_⟩
    simp only [List.length_cons] at hlt
    obtain ⟨h2, h3⟩ := h1.ordered base h (by omega)
    have htop : add64 st1.mmapTop 0x1000 = st1.mmapTop + 0x1000 :=
      add64_eq (lt_of_le_of_lt (Nat.add_le_add_left (by norm_num) _) (h2.next_lt hlt))
    simp only [htop]
    refine ⟨h2.page, ?_⟩
    rw [Nat.mul_succ, ← Nat.add_assoc]
    exact Nat.add_le_add_right h3 _

theorem smallFromPartition_moves (hr : st.smallFromPartition num rs = .ok (st', rs')) :
    Moves st st' (0x1000 * num) := by
  cases rs with
  | nil => cases hr
  | cons r rs =>
    rw [smallFromPartition] at hr
    obtain ⟨sys, -, hr2⟩ := Res.bind_ok hr
    split at hr2
    · rename_i hnum
      obtain ⟨rfl, rfl⟩ := Res.ok_pair hr2
      refine ⟨⟨⟨_, rfl⟩, ?_, rfl, rfl⟩, fun base h hlt => ?_⟩
      · simp only
        split
        · exact ⟨[], rfl⟩
        · exact ⟨[_], rfl⟩
      · have hlen : (pageCalls st.mmapTop 512).length = 512 := by simp [pageCalls]
        simp only [List.length_append, hlen] at hlt
        have hle := h.le
        have h1 := h.pages (n := 512) (by omega)
        have htop : add64 st.mmapTop 0x200000 = st.mmapTop + 0x1000 * 512 := add64_eq (by omega)
        simp only [htop]
        exact ⟨h1, by omega⟩
    · cases hr2

theorem smallLoop_moves {free : List (ℕ × ℕ)}
    (hr : smallLoop rs free st num = .ok (st', rs')) : Moves st st' (0x1000 * num) := by
  induction free generalizing st num with
  | nil =>
    rw [smallLoop] at hr
    split at hr
    · rename_i h0
      obtain ⟨rfl, rfl⟩ := Res.ok_pair hr
      exact ⟨⟨⟨[], rfl⟩, ⟨[], rfl⟩, rfl, rfl⟩, fun base h _ => ⟨h, by rw [h0]; exact le_refl _⟩⟩
    · exact smallFromPartition_moves hr
  | cons b free ih =>
    obtain ⟨va, count⟩ := b
    rw [smallLoop] at hr
    split at hr
    · rename_i h0
      obtain ⟨rfl, rfl⟩ := Res.ok_pair hr
      exact ⟨⟨⟨[], rfl⟩, ⟨[], rfl⟩, rfl, rfl⟩, fun base h _ => ⟨h, by rw [h0]; exact le_refl _⟩⟩
    · split at hr
      · rename_i hle
        obtain ⟨st1, hr1, hr2⟩ := Res.bind_ok hr
        have h1 := recyclePages_moves hr1
        have h2 := ih hr2
        refine ⟨h1.toExtends.trans h2.toExtends, fun base h hlt => ?_⟩
        obtain ⟨h3, h4⟩ := h1.ordered base h (by have := h2.length_le; omega)
        obtain ⟨h5, h6⟩ := h2.ordered base h3 hlt
        exact ⟨h5, by omega⟩
      · obtain ⟨st1, hr1, hr2⟩ := Res.bind_ok hr
        have h1 := recyclePages_moves hr1
        obtain ⟨rfl, rfl⟩ := Res.ok_pair hr2
        exact ⟨⟨h1.mapped, h1.granted, h1.returned, h1.addr⟩, h1.ordered⟩

theorem megaFromPartitions_ok (h : st.megaFromPartitions num rs = .ok (st', rs')) :
    ∃ evs sys, st.megaPartitions num rs = (evs, some rs') ∧
      st.sys.execCalls mmapFlags evs = .ok sys ∧
      st' = { st with
        sys := sys
        mmapTop := add64 st.mmapTop (0x200000 * (mapsOf evs).length)
        freeMega := []
        granted := grantsOf evs ++ st.granted
        mapped := mapsOf evs ++ st.mapped } := by
  unfold megaFromPartitions at h
  generalize st.megaPartitions num rs = p at h ⊢
  obtain ⟨evs, rest⟩ := p
  obtain ⟨sys, h1, h2⟩ := Res.bind_ok h
  cases rest with
  | none => cases h2
  | some rest =>
    obtain ⟨rfl, rfl⟩ := Res.ok_pair h2
    exact ⟨evs, sys, rfl, h1, rfl⟩

theorem megaLoop_moves {free : List ℕ} (hnum : num < 2 ^ 64)
    (hr : megaLoop rs free st num = .ok (st', rs')) (htop : st.mmapTop % 0x200000 = 0) :
    Moves st st' (0x200000 * num) := by
  induction num generalizing free st with
  | zero =>
    simp only [megaLoop, Except.ok.injEq, Prod.mk.injEq] at hr
    obtain ⟨rfl, rfl⟩ := hr
    exact ⟨⟨⟨[], rfl⟩, ⟨[], rfl⟩, rfl, rfl⟩, fun base h _ => ⟨h, le_refl _⟩⟩
  | succ num ih =>
    cases free with
    | nil =>
      rw [megaLoop] at hr
      obtain ⟨evs, sys, he, -, rfl⟩ := megaFromPartitions_ok hr
      refine ⟨⟨⟨_, rfl⟩, ⟨_, rfl⟩, rfl, rfl⟩, fun base h hlt => ?_⟩
      simp only [List.length_append] at hlt
      have hle := h.le
      have hlt' : st.mmapTop + 0x200000 * (mapsOf evs).length < 2 ^ 64 := by omega
      have hcount : (mapsOf evs).length = num + 1 := partitionLoop_length hnum he (by omega)
      simp only [add64_eq hlt']
      exact ⟨h.partitions htop he hlt', by rw [hcount]⟩
    | cons va free =>
      rw [megaLoop] at hr
      obtain ⟨sys1, -, hr2⟩ := Res.bind_ok hr
      obtain ⟨sys2, -, hr3⟩ := Res.bind_ok hr2
      have htop' : add64 st.mmapTop 0x200000 % 0x200000 = 0 := by
        unfold add64
        omega
      have h1 := ih (by omega) hr3 htop'
      refine ⟨Extends.trans ?_ h1.toExtends, fun base h hlt => ?_⟩
      · exact ⟨⟨[_], rfl⟩, ⟨[], rfl⟩, rfl, rfl⟩
      have hle := h.le
      have hlen := h1.length_le
      simp only [List.length_cons] at hlen
      have hadd : add64 st.mmapTop 0x200000 = st.mmapTop + 0x200000 := add64_eq (by omega)
      obtain ⟨h2, h3⟩ := h1.ordered base (by simpa only [hadd] using h.megapage htop) hlt
      simp only [hadd] at h3
      exact ⟨h2, by omega⟩

theorem alignTop_mmapTop (st : MmapState) : st.alignTop.mmapTop = partitionUp st.mmapTop := rfl

theorem alignTop_rest (st : MmapState) : st.alignTop.sys = st.sys ∧ st.alignTop.freePage = st.freePage ∧
    st.alignTop.granted = st.granted ∧ st.alignTop.mapped = st.mapped := by
  unfold alignTop
  exact ⟨rfl, rfl, rfl, rfl⟩

theorem alignTop_aligned (st : MmapState) : st.alignTop.mmapTop % 0x200000 = 0 := by
  rw [alignTop_mmapTop]
  exact partitionUp_aligned _

theorem alignTop_extends (st : MmapState) : Extends st st.alignTop := by
  unfold alignTop
  exact ⟨⟨[], rfl⟩, ⟨[], rfl⟩, rfl, rfl⟩

theorem allocMegaPage_moves (hnum : num < 2 ^ 64)
    (hr : st.allocMegaPage num rs = .ok (mem, st', rs')) :
    Extends st st' ∧ ∀ base, Ordered base st.mmapTop st.mapped →
      base + 0x200000 + 0x200000 * st'.mapped.length < 2 ^ 64 →
      Ordered (base + 0x200000) st'.mmapTop st'.mapped ∧ st.mmapTop ≤ mem ∧ mem % 0x1000 = 0 ∧
        mem + 0x200000 * num ≤ st'.mmapTop := by
  unfold allocMegaPage at hr
  obtain ⟨⟨st1, rs1⟩, hr1, hr2⟩ := Res.bind_ok hr
  simp only [Except.ok.injEq, Prod.mk.injEq] at hr2
  obtain ⟨rfl, rfl, rfl⟩ := hr2
  obtain ⟨hext, hord⟩ := megaLoop_moves hnum hr1 (alignTop_aligned st)
  have h1 := (alignTop_extends st).trans hext
  have hlen := h1.length_le
  rw [alignTop_mmapTop] at hord ⊢
  rw [(alignTop_rest st).2.2.2] at hord
  refine ⟨h1, fun base h hlt => ?_⟩
  have hle := h.le
  obtain ⟨hup, hup', hal⟩ := partitionUp_spec (a := st.mmapTop) (by omega)
  obtain ⟨h2, h3⟩ := hord (base + 0x200000) (h.raise hup (by omega) (by omega)) hlt
  exact ⟨h2, hup, by omega, h3⟩

theorem allocSmallPage_moves (hr : st.allocSmallPage num rs = .ok (mem, st', rs')) :
    mem = st.mmapTop ∧ Moves st st' (0x1000 * num) := by
  unfold allocSmallPage at hr
  split at hr
  · simp only [reduceCtorEq] at hr
  · obtain ⟨⟨st1, rs1⟩, hr1, hr2⟩ := Res.bind_ok hr
    simp only [Except.ok.injEq, Prod.mk.injEq] at hr2
    obtain ⟨rfl, rfl, rfl⟩ := hr2
    exact ⟨rfl, smallLoop_moves hr1⟩

/-- An allocation returns an address from the top on, and moves the top past the region. -/
theorem allocRegion_moves (hr : st.allocRegion len rs = .ok (mem, st', rs')) :
    Extends st st' ∧ (len ≤ 2 ^ 64 - 0x200000 → ∀ base, Ordered base st.mmapTop st.mapped →
      base + 0x200000 + 0x200000 * st'.mapped.length < 2 ^ 64 →
      Ordered (base + 0x200000) st'.mmapTop st'.mapped ∧ st.mmapTop ≤ mem ∧ mem % 0x1000 = 0 ∧
        mem + len ≤ st'.mmapTop) := by
  unfold allocRegion at hr
  split at hr
  · obtain ⟨h1, h2⟩ := allocMegaPage_moves
      (lt_of_le_of_lt (Nat.div_le_self _ _) (partitionUp_lt len)) hr
    refine ⟨h1, fun hlen base h hlt => ?_⟩
    obtain ⟨h3, h4, h5, h6⟩ := h2 base h hlt
    exact ⟨h3, h4, h5, le_trans (Nat.add_le_add_left (le_partitions hlen) _) h6⟩
  · obtain ⟨rfl, h1⟩ := allocSmallPage_moves hr
    refine ⟨h1.toExtends, fun hlen base h hlt => ?_⟩
    have hle := h.le
    obtain ⟨h2, h3⟩ := h1.ordered (base + 0x200000) (h.raise (le_refl _) (by omega) h.aligned) hlt
    exact ⟨h2, le_refl _, h.aligned,
      le_trans (Nat.add_le_add_left (le_pages (by omega)) _) h3⟩

/-- The call makes a new region. -/
def Allocates (st : MmapState) (addr len prot flags fildes off : ℕ) : Prop :=
  len ≠ 0 ∧ ¬ Unimplemented prot flags fildes off ∧ ¬ (addr ≠ 0 ∧ ∃ r ∈ st.mmapAddr, Hit addr r)

/-- A call of `mmap` either makes a region or leaves everything but `errno` alone. -/
theorem mmap_cases {addr prot flags fildes off ret : ℕ}
    (hr : st.mmap addr len prot flags fildes off rs = .ok (ret, st', rs')) :
    (¬ st.Allocates addr len prot flags fildes off ∧ ∃ e, st' = { st with errno := e }) ∨
      (st.Allocates addr len prot flags fildes off ∧ ∃ st1, st.allocRegion len rs = .ok (ret, st1, rs') ∧
        st' = { st1 with
          mmapAddr := st1.mmapAddr ++ [(ret, add64 ret len)]
          returned := (ret, len) :: st1.returned }) := by
  unfold mmap at hr
  by_cases h0 : len = 0
  · rw [if_pos h0] at hr
    simp only [Except.ok.injEq, Prod.mk.injEq] at hr
    exact Or.inl ⟨fun h => h.1 h0, 22, hr.2.1.symm⟩
  · rw [if_neg h0] at hr
    by_cases h1 : Unimplemented prot flags fildes off
    · rw [if_pos h1] at hr
      simp only [Except.ok.injEq, Prod.mk.injEq] at hr
      exact Or.inl ⟨fun h => h.2.1 h1, st.errno, hr.2.1.symm⟩
    · rw [if_neg h1] at hr
      by_cases h2 : addr ≠ 0 ∧ ∃ r ∈ st.mmapAddr, Hit addr r
      · rw [if_pos h2] at hr
        simp only [Except.ok.injEq, Prod.mk.injEq] at hr
        exact Or.inl ⟨fun h => h.2.2 h2, st.errno, hr.2.1.symm⟩
      · rw [if_neg h2] at hr
        obtain ⟨⟨mem, st1, rs1⟩, hr1, hr2⟩ := Res.bind_ok hr
        simp only [Except.ok.injEq, Prod.mk.injEq] at hr2
        obtain ⟨rfl, rfl, rfl⟩ := hr2
        exact Or.inr ⟨⟨h0, h1, h2⟩, st1, hr1, rfl⟩

/-- A call of `munmap` only changes the lists and `errno`. -/
theorem munmap_rest (st : MmapState) (addr len : ℕ) :
    (st.munmap addr len).2.sys = st.sys ∧ (st.munmap addr len).2.mmapTop = st.mmapTop ∧
      (st.munmap addr len).2.granted = st.granted ∧ (st.munmap addr len).2.mapped = st.mapped ∧
      (st.munmap addr len).2.returned = st.returned := by
  unfold munmap
  split
  · exact ⟨rfl, rfl, rfl, rfl, rfl⟩
  · split
    · exact ⟨rfl, rfl, rfl, rfl, rfl⟩
    · split
      · exact ⟨rfl, rfl, rfl, rfl, rfl⟩
      · split
        · exact ⟨rfl, rfl, rfl, rfl, rfl⟩
        · split <;> exact ⟨rfl, rfl, rfl, rfl, rfl⟩

end MmapState

/-- The length of a call does not wrap when it is rounded up to partitions. -/
def MmapCall.LenOk : MmapCall → Prop
  | .mmap _ len _ _ _ _ => len ≤ 2 ^ 64 - 0x200000
  | .munmap _ _ => True

/-- The record between calls: everything mapped or returned lies below the top. -/
structure AreaInv (base : ℕ) (st : MmapState) : Prop extends Ordered base st.mmapTop st.mapped where
  returned_below : ∀ r ∈ st.returned, r.1 + r.2 ≤ st.mmapTop

theorem AreaInv.weaken {base base' : ℕ} {st : MmapState} (h : AreaInv base st) (hle : base ≤ base') :
    AreaInv base' st :=
  ⟨h.raise (le_refl _) (by have := h.le; omega) h.aligned, h.returned_below⟩

/-- A call of `mmap` keeps the record in order, and a new region starts at the top or
after. -/
theorem AreaInv.mmap {base addr prot flags fildes off ret : ℕ} {st st' : MmapState}
    {rs rs' : List SmReply} (h : AreaInv base st) (hlen : len ≤ 2 ^ 64 - 0x200000)
    (hr : st.mmap addr len prot flags fildes off rs = .ok (ret, st', rs'))
    (hroom : base + 0x200000 + 0x200000 * st'.mapped.length < 2 ^ 64) :
    AreaInv (base + 0x200000) st' ∧
      (st.Allocates addr len prot flags fildes off → st.mmapTop ≤ ret ∧ ret % 0x1000 = 0) := by
  rcases MmapState.mmap_cases hr with ⟨hno, e, rfl⟩ | ⟨hyes, st1, hr1, rfl⟩
  · have h1 := h.weaken (Nat.le_add_right base 0x200000)
    exact ⟨⟨h1.toOrdered, h1.returned_below⟩, fun hc => absurd hc hno⟩
  · obtain ⟨h1, h2⟩ := MmapState.allocRegion_moves hr1
    obtain ⟨h3, h4, h5, h6⟩ := h2 hlen base h.toOrdered hroom
    refine ⟨⟨h3, fun r hm => ?_⟩, fun _ => ⟨h4, h5⟩⟩
    simp only at hm ⊢
    rcases List.mem_cons.mp hm with rfl | hm
    · exact h6
    · rw [h1.returned] at hm
      have := h.returned_below r hm
      omega

/-- A call adds to the record. -/
theorem MmapState.call_record {st st' : MmapState} {rs rs' : List SmReply} {c : MmapCall}
    (hr : st.call rs c = .ok (st', rs')) :
    (∃ new, st'.mapped = new ++ st.mapped) ∧ ∃ new, st'.granted = new ++ st.granted := by
  cases c with
  | mmap addr len prot flags fildes off =>
    obtain ⟨⟨ret, st1, rs1⟩, hr1, hr2⟩ := Res.bind_ok hr
    obtain ⟨rfl, rfl⟩ := Res.ok_pair hr2
    rcases mmap_cases hr1 with ⟨-, e, rfl⟩ | ⟨-, st2, hr3, rfl⟩
    · exact ⟨⟨[], rfl⟩, [], rfl⟩
    · have h := (allocRegion_moves hr3).1
      exact ⟨h.mapped, h.granted⟩
  | munmap addr len =>
    simp only [call, Except.ok.injEq, Prod.mk.injEq] at hr
    obtain ⟨-, -, h1, h2, -⟩ := munmap_rest st addr len
    rw [← hr.1, h1, h2]
    exact ⟨⟨[], rfl⟩, [], rfl⟩

/-- A run adds to the record. -/
theorem MmapState.run_record {cs : List MmapCall} {st st' : MmapState} {rs rs' : List SmReply}
    (hr : st.run rs cs = .ok (st', rs')) :
    (∃ new, st'.mapped = new ++ st.mapped) ∧ ∃ new, st'.granted = new ++ st.granted := by
  induction cs generalizing st rs with
  | nil =>
    simp only [run, Except.ok.injEq, Prod.mk.injEq] at hr
    rw [hr.1]
    exact ⟨⟨[], rfl⟩, [], rfl⟩
  | cons c cs ih =>
    obtain ⟨⟨st1, rs1⟩, hr1, hr2⟩ := Res.bind_ok hr
    obtain ⟨⟨m, hm⟩, g, hg⟩ := call_record hr1
    obtain ⟨⟨m', hm'⟩, g', hg'⟩ := ih hr2
    exact ⟨⟨m' ++ m, by rw [hm', hm, List.append_assoc]⟩, g' ++ g, by rw [hg', hg, List.append_assoc]⟩

theorem AreaInv.call {base : ℕ} {st st' : MmapState} {rs rs' : List SmReply} {c : MmapCall}
    (h : AreaInv base st) (hlen : c.LenOk) (hr : st.call rs c = .ok (st', rs'))
    (hroom : base + 0x200000 + 0x200000 * st'.mapped.length < 2 ^ 64) :
    AreaInv (base + 0x200000) st' := by
  cases c with
  | mmap addr len prot flags fildes off =>
    obtain ⟨⟨ret, st1, rs1⟩, hr1, hr2⟩ := Res.bind_ok hr
    obtain ⟨rfl, rfl⟩ := Res.ok_pair hr2
    exact (h.mmap hlen hr1 hroom).1
  | munmap addr len =>
    simp only [MmapState.call, Except.ok.injEq, Prod.mk.injEq] at hr
    obtain ⟨-, htop, -, hmapped, hreturned⟩ := MmapState.munmap_rest st addr len
    have h1 := h.weaken (Nat.le_add_right base 0x200000)
    rw [← hr.1]
    exact ⟨by rw [htop, hmapped]; exact h1.toOrdered, by rw [htop, hreturned]; exact h1.returned_below⟩

theorem AreaInv.run {cs : List MmapCall} {base : ℕ} {st st' : MmapState} {rs rs' : List SmReply}
    (h : AreaInv base st) (hlen : ∀ c ∈ cs, c.LenOk) (hr : st.run rs cs = .ok (st', rs'))
    (hroom : base + 0x200000 * cs.length + 0x200000 * st'.mapped.length < 2 ^ 64) :
    AreaInv (base + 0x200000 * cs.length) st' := by
  induction cs generalizing base st rs with
  | nil =>
    simp only [MmapState.run, Except.ok.injEq, Prod.mk.injEq] at hr
    rw [← hr.1]
    exact h
  | cons c cs ih =>
    obtain ⟨⟨st1, rs1⟩, hr1, hr2⟩ := Res.bind_ok hr
    have hlen' : ∀ c ∈ cs, c.LenOk := fun c hc => hlen c (List.mem_cons_of_mem _ hc)
    have hle := length_le_of_append (MmapState.run_record hr2).1
    have hbase : base + 0x200000 * (cs.length + 1) = base + 0x200000 + 0x200000 * cs.length := by
      rw [Nat.mul_succ]
      omega
    rw [List.length_cons, hbase] at hroom ⊢
    exact ih (h.call (hlen c List.mem_cons_self) hr1 (by omega)) hlen' hr2 hroom

theorem AreaInv.init (sys : Sys) : AreaInv mmapBase (MmapState.init sys) where
  aligned := by simp only [MmapState.init, mmapBase]
  le := le_refl _
  below := fun _ hc => absurd hc List.not_mem_nil
  mega := fun _ hc => absurd hc List.not_mem_nil
  levels := fun _ _ hc => absurd hc List.not_mem_nil
  returned_below := fun _ hc => absurd hc List.not_mem_nil

/-- **A new region lies above everything.** After any calls with lengths that can be
rounded up to partitions, as long as the area does not reach the end of the address space:
the address `mmap` returns is on a page boundary, above every page mapped so far and above
every range returned so far, unmapped or not, and no slot of 2 MiB has both small pages and
a megapage. -/
theorem mmap_fresh (sys : Sys) (rs rs1 rs2 : List SmReply) (cs : List MmapCall) (st st' : MmapState)
    (addr len prot flags fildes off ret : ℕ) (hlens : ∀ c ∈ cs, c.LenOk)
    (hlen : len ≤ 2 ^ 64 - 0x200000) (hrun : (MmapState.init sys).run rs cs = .ok (st, rs1))
    (hcall : st.mmap addr len prot flags fildes off rs1 = .ok (ret, st', rs2))
    (hroom : mmapBase + 0x200000 * (cs.length + 1 + st'.mapped.length) < 2 ^ 64) :
    (st.Allocates addr len prot flags fildes off → ret % 0x1000 = 0 ∧
        (∀ c ∈ st.mapped, c.1 + c.2.size ≤ ret) ∧ (∀ r ∈ st.returned, r.1 + r.2 ≤ ret)) ∧
      ∀ va va', (va, Level.page) ∈ st'.mapped → (va', Level.mega) ∈ st'.mapped →
        va / 0x200000 ≠ va' / 0x200000 := by
  have hcall' : st.call rs1 (.mmap addr len prot flags fildes off) = .ok (st', rs2) := by
    rw [MmapState.call, hcall]
    rfl
  have hle := length_le_of_append (MmapState.call_record hcall').1
  have h1 := (AreaInv.init sys).run hlens hrun (by omega)
  obtain ⟨h2, h3⟩ := h1.mmap hlen hcall (by omega)
  refine ⟨fun ha => ?_, h2.levels⟩
  obtain ⟨h4, h5⟩ := h3 ha
  exact ⟨h5, fun c hc => le_trans (h1.below c hc) h4, fun r hr => le_trans (h1.returned_below r hr) h4⟩

/-- Two regions of one partition each. -/
theorem mmap_fresh_partitions : ∃ (st st' : MmapState) (rs1 rs2 : List SmReply),
    (MmapState.init Sys.smallBoot).run [⟨0, 0x90000000⟩, ⟨0, 0xa0000000⟩]
      [.mmap 0 0x200000 3 0x22 (2 ^ 32 - 1) 0] = .ok (st, rs1) ∧
    st.mmap 0 0x200000 3 0x22 (2 ^ 32 - 1) 0 rs1 = .ok (0x1000200000, st', rs2) ∧
    st.Allocates 0 0x200000 3 0x22 (2 ^ 32 - 1) 0 ∧
    (∀ c ∈ st.mapped, c.1 + c.2.size ≤ 0x1000200000) := by
  have hrun : (do
      let (st, rs1) ← (MmapState.init Sys.smallBoot).run [⟨0, 0x90000000⟩, ⟨0, 0xa0000000⟩]
        [.mmap 0 0x200000 3 0x22 (2 ^ 32 - 1) 0]
      let (ret, st', _) ← st.mmap 0 0x200000 3 0x22 (2 ^ 32 - 1) 0 rs1
      .ok (ret, st'.mapped.length) : Res _) = .ok (0x1000200000, 2) :=
    Res.eq_ok_of_toOption (by decide +kernel)
  obtain ⟨⟨st, rs1⟩, h1, h2⟩ := Res.bind_ok hrun
  obtain ⟨⟨ret, st', rs2⟩, h3, h4⟩ := Res.bind_ok h2
  simp only [Except.ok.injEq, Prod.mk.injEq] at h4
  obtain ⟨rfl, hlen⟩ := h4
  have ha : st.Allocates 0 0x200000 3 0x22 (2 ^ 32 - 1) 0 :=
    ⟨by decide, by decide, fun h => h.1 rfl⟩
  have h5 := mmap_fresh Sys.smallBoot _ rs1 rs2 _ st st' 0 0x200000 3 0x22 (2 ^ 32 - 1) 0 _
    (by simp [MmapCall.LenOk]) (by norm_num) h1 h3 (by rw [hlen]; decide)
  exact ⟨st, st', rs1, rs2, h1, h3, ha, (h5.1 ha).2.1⟩

/-- **An address returned twice.** `PARTITION_UP` of the length wraps to 0: nothing is
mapped, the top of the area stays, and the next call returns the same address. -/
theorem mmap_returns_twice :
    (do
      let (st, _) ← (MmapState.init Sys.smallBoot).run [⟨0, 0x90000000⟩]
        [.mmap 0 (2 ^ 64 - 1) 3 0x22 (2 ^ 32 - 1) 0, .mmap 0 0x200000 3 0x22 (2 ^ 32 - 1) 0]
      .ok st.returned : Res _).toOption =
    some [(0x1000000000, 0x200000), (0x1000000000, 2 ^ 64 - 1)] := by
  decide +kernel

end Coffer
