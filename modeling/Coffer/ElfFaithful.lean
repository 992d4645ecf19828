/-
# What the ELF loader puts in memory

The file pages of a segment are mapped where they lie in the image; the pages
beyond come from the U-mode pool or, for a large segment, from the monitor: a
partition for the gap up to the next partition boundary, then whole partitions as
megapages. At the end the segment's memory beyond its file is filled with zeros,
through its own addresses, and so also in the last page of its file. That page is
the image's own: where the next segment has file bytes in it, they are gone.

`loadElf_faithful_iff` is the whole account, for segments that do not meet as they
are mapped: what `load_elf` leaves in memory is right exactly where those bytes are
zero. `Mapped` says what a stretch of `map_page` calls does, `SegmentLoaded` what a
round of the loop does, and `LoadInv` holds between rounds.
-/
import Coffer.ElfSafety

namespace Coffer

open Lib

/-! ### The layout of a segment -/

namespace Phdr

/-- Where the pages mapped for a segment end. -/
def footprintEnd (ph : Phdr) : ℕ :=
  if ph.pFilesz < ph.pMemsz then
    if ph.sizeDiff < 0x200000 then ph.endVaddr + ph.sizeDiff
    else partitionUp ph.endVaddr + partitionUp ph.sizeDiff
  else ph.endVaddr

/-- Where a segment ends, as it should be and as it is mapped. -/
def extentEnd (ph : Phdr) : ℕ := max ph.footprintEnd (ph.pVaddr + ph.pMemsz)

/-- The answers left for the partitions, after the one for the gap. -/
def partitionReplies (ph : Phdr) (rs : List SmReply) : List SmReply := if ph.gap = 0 then rs else rs.tail

/-- The address in the first answer. -/
def firstPaddr (rs : List SmReply) : ℕ := (rs.headD ⟨0, 0⟩).paddr

/-- The answers left after the segment. -/
def nextReplies (ph : Phdr) (rs : List SmReply) : List SmReply :=
  if ph.pFilesz < ph.pMemsz ∧ 0x200000 ≤ ph.sizeDiff then (ph.partitionReplies rs).tail else rs

/-- The pages that the segment takes from the pool. -/
def poolPages (ph : Phdr) : ℕ :=
  if ph.pFilesz < ph.pMemsz ∧ ph.sizeDiff < 0x200000 then ph.sizeDiff / 0x1000 else 0

/-- Where `x` is put: the image's page, a page of the pool from `top`, or a
partition. -/
def frame (ph : Phdr) (elfPaddr top : ℕ) (rs : List SmReply) (x : ℕ) : ℕ :=
  if x < ph.endVaddr then ph.startPaddr elfPaddr + (x - ph.startVaddr)
  else if ph.sizeDiff < 0x200000 then top + (x - ph.endVaddr)
  else if x < partitionUp ph.endVaddr then firstPaddr rs + x % 0x200000
  else firstPaddr (ph.partitionReplies rs) + (x - partitionUp ph.endVaddr)

end Phdr

/-- What the ELF format asks of a `PT_LOAD` header of an image of `size` bytes, and
that there is some permission and room in the user's half. -/
structure SegmentRules (size : ℕ) (ph : Phdr) : Prop where
  perm : HasPerm ph.flags
  le : ph.pFilesz ≤ ph.pMemsz
  congr : ph.pVaddr % 0x1000 = ph.pOffset % 0x1000
  inside : ph.pOffset + ph.pFilesz ≤ size
  fits : ph.extentEnd ≤ 2 ^ 38

/-- The linear facts about the rounded addresses. -/
structure PhdrArith (ph : Phdr) : Prop where
  mem_le : ph.pVaddr + ph.pMemsz ≤ 2 ^ 38
  start : ph.startVaddr = ph.pVaddr - ph.pVaddr % 0x1000
  end_le : ph.pVaddr + ph.pFilesz ≤ ph.endVaddr
  end_lt : ph.endVaddr < ph.pVaddr + ph.pFilesz + 0x1000
  end_aligned : ph.endVaddr % 0x1000 = 0
  pages : 0x1000 * ph.filePages = ph.endVaddr - ph.startVaddr
  diff_aligned : ph.sizeDiff % 0x1000 = 0
  diff_le : ph.sizeDiff ≤ ph.pMemsz + 0x1000
  up_le : ph.endVaddr ≤ partitionUp ph.endVaddr
  up_lt : partitionUp ph.endVaddr < ph.endVaddr + 0x200000
  up_aligned : partitionUp ph.endVaddr % 0x200000 = 0
  gap : ph.gap = partitionUp ph.endVaddr - ph.endVaddr
  parts_le : ph.sizeDiff ≤ partitionUp ph.sizeDiff
  parts_lt : partitionUp ph.sizeDiff < ph.sizeDiff + 0x200000
  parts_aligned : partitionUp ph.sizeDiff % 0x200000 = 0

theorem SegmentRules.arith {size : ℕ} {ph : Phdr} (h : SegmentRules size ph) : PhdrArith ph := by
  have hmem : ph.pVaddr + ph.pMemsz ≤ 2 ^ 38 := le_trans (le_max_right _ _) h.fits
  have hle := h.le
  have hvf : add64 ph.pVaddr ph.pFilesz = ph.pVaddr + ph.pFilesz := add64_eq (by omega)
  have hend := pageUp_spec (a := ph.pVaddr + ph.pFilesz) (by omega)
  have hf := pageUp_spec (a := ph.pFilesz) (by omega)
  have hm := pageUp_spec (a := ph.pMemsz) (by omega)
  have hfm : pageUp ph.pFilesz ≤ pageUp ph.pMemsz := by omega
  have hE : ph.endVaddr = pageUp (ph.pVaddr + ph.pFilesz) := by rw [Phdr.endVaddr, hvf]
  rw [← hE] at hend
  have hS : ph.startVaddr = ph.pVaddr - ph.pVaddr % 0x1000 := rfl
  have hP : ph.filePages = (ph.endVaddr - ph.startVaddr) / 0x1000 := by
    rw [Phdr.filePages, sub64_eq (by omega) (by omega)]
  have hD : ph.sizeDiff = pageUp ph.pMemsz - pageUp ph.pFilesz := by
    rw [Phdr.sizeDiff, sub64_eq hfm (by omega)]
  have hup := partitionUp_spec (a := ph.endVaddr) (by omega)
  have hG : ph.gap = partitionUp ph.endVaddr - ph.endVaddr := by
    rw [Phdr.gap, sub64_eq hup.1 (by omega)]
  have hparts := partitionUp_spec (a := ph.sizeDiff) (by omega)
  exact ⟨hmem, hS, hend.1, hend.2.1, hend.2.2, by omega, by omega, by omega, hup.1, hup.2.1, hup.2.2, hG,
    hparts.1, hparts.2.1, hparts.2.2⟩

/-! ### The pieces of a segment -/

/-- A partition in memory, granted. -/
structure GrantOk (r : SmReply) : Prop where
  granted : ¬ r.Refused
  aligned : r.paddr % 0x200000 = 0
  le : r.paddr ≤ 2 ^ 55

section Pieces

variable {s s' : Sys} {ph : Phdr} (h : PtInv s) (ha : PhdrArith ph) (hf : HasPerm ph.flags)
include h ha hf

theorem Sys.mapFile_mapped {size elfPaddr : ℕ} (hrules : SegmentRules size ph)
    (hbase : elfPaddr % 0x1000 = 0) (hsize : elfPaddr + size ≤ 2 ^ 55)
    (hfree : ∀ x, ph.startVaddr ≤ x → x < ph.endVaddr → s.leaf x = none)
    (hr : s.mapRange ph.startVaddr (ph.startPaddr elfPaddr) ph.flags .page ph.filePages = .ok s') :
    Mapped s s' ph.startVaddr ph.endVaddr ph.flags
      fun x => ph.startPaddr elfPaddr + (x - ph.startVaddr) := by
  have hin := hrules.inside
  have hstart := ha.start
  have hle := ha.end_le
  have hlt := ha.end_lt
  have hmem := ha.mem_le
  have hfm := hrules.le
  have hpages : ph.startVaddr + Level.page.size * ph.filePages = ph.endVaddr := by
    have := ha.pages
    simp only [Level.size]
    omega
  have hal : ph.endVaddr % 0x1000 = 0 := ha.end_aligned
  have hpa : ph.startPaddr elfPaddr = elfPaddr + ph.pOffset - (elfPaddr + ph.pOffset) % 0x1000 := by
    rw [Phdr.startPaddr, add64_eq (by omega), pageDown]
  have hm := Sys.mapRange_mapped h (by simp only [Level.size]; omega) (by simp only [Level.size]; omega)
    hf (by rw [hpages]; omega) (by omega) (by rwa [hpages]) hr
  rwa [hpages] at hm

theorem Sys.mapPoolTail_mapped (hp : PoolOk s) (hd : ph.sizeDiff < 0x200000)
    (hlt : ph.endVaddr + ph.sizeDiff ≤ 2 ^ 38)
    (hfree : ∀ x, ph.endVaddr ≤ x → x < ph.endVaddr + ph.sizeDiff → s.leaf x = none)
    (hr : s.mapPoolTail ph = .ok s') :
    Mapped s s' ph.endVaddr (ph.endVaddr + ph.sizeDiff) ph.flags
      (fun x => s.getPoolTop .umode + (x - ph.endVaddr)) ∧
    PoolOk s' ∧ PoolTaken s s' (ph.sizeDiff / 0x1000) := by
  have hal := ha.end_aligned
  have hdal := ha.diff_aligned
  have hpages : Level.page.size * (ph.sizeDiff / 0x1000) = ph.sizeDiff := by
    simp only [Level.size]
    omega
  unfold Sys.mapPoolTail at hr
  obtain ⟨⟨pa, s1⟩, hr1, hr2⟩ := Res.bind_ok hr
  obtain ⟨rfl, hp1, htk, hmem, hroot, hpool, hstart⟩ := hp.alloc (by omega) hr1
  have h1 := h.of_eq hmem hroot hpool hstart
  have htop := hp.getPoolTop
  have hused := hp1.used_le
  have hfits := hp.fits
  have haligned := hp.aligned
  rw [htk.used, htk.size] at hused
  have hm := Sys.mapRange_mapped h1 (by simp only [Level.size]; omega) (by simp only [Level.size]; omega)
    hf (by rw [hpages]; omega) (by omega) (fun x hx1 hx2 => by
      rw [Sys.leaf_of_eq hmem hroot]
      exact hfree x hx1 (by rwa [hpages] at hx2)) hr2
  rw [hpages] at hm
  have hrest := (Sys.mapRange_rest hr2).poolTaken
  have hrange := Sys.tableRange_of_eq hroot hpool hstart
  refine ⟨⟨hm.inv, fun x => (hm.range x).trans (hrange x), fun y hy => ?_, hm.maps, fun x hx1 hx2 => ?_⟩,
    hp1.of_taken hrest, by simpa using htk.trans hrest⟩
  · rw [hm.mem y (mt (hrange y).mp hy), hmem]
  · rw [hm.leaf x hx1 hx2, Sys.leaf_of_eq hmem hroot]

theorem Sys.mapGap_mapped {rs rs' : List SmReply} (hrs : ∀ r ∈ rs, GrantOk r)
    (hlt : partitionUp ph.endVaddr ≤ 2 ^ 38)
    (hfree : ∀ x, ph.endVaddr ≤ x → x < partitionUp ph.endVaddr → s.leaf x = none)
    (hr : s.mapGap ph rs = .ok (s', rs')) :
    Mapped s s' ph.endVaddr (partitionUp ph.endVaddr) ph.flags
      (fun x => Phdr.firstPaddr rs + x % 0x200000) ∧
    s.SameRest s' ∧ rs' = ph.partitionReplies rs := by
  have hgap := ha.gap
  have hle := ha.up_le
  have hup := ha.up_lt
  have hal := ha.end_aligned
  have hual := ha.up_aligned
  unfold Sys.mapGap at hr
  unfold Phdr.partitionReplies
  by_cases h0 : ph.gap = 0
  · rw [if_pos h0] at hr ⊢
    obtain ⟨rfl, rfl⟩ := Res.ok_pair hr
    have he : partitionUp ph.endVaddr = ph.endVaddr := by omega
    rw [he]
    exact ⟨Mapped.refl h _ _ _, rfl, rfl⟩
  · rw [if_neg h0] at hr ⊢
    cases rs with
    | nil => cases hr
    | cons r rest =>
      obtain ⟨s1, hr1, hr2⟩ := Res.bind_ok hr
      obtain ⟨rfl, rfl⟩ := Res.ok_pair hr2
      have hr0 := hrs r List.mem_cons_self
      have hpal := hr0.aligned
      have hple := hr0.le
      have hpages : ph.endVaddr + Level.page.size * (ph.gap / 0x1000) = partitionUp ph.endVaddr := by
        simp only [Level.size]
        omega
      have hpa : add64 r.paddr (ph.endVaddr % 0x200000) = r.paddr + ph.endVaddr % 0x200000 :=
        add64_eq (by omega)
      rw [hpa] at hr1
      have hm := Sys.mapRange_mapped h (by simp only [Level.size]; omega)
        (by simp only [Level.size]; omega) hf (by rw [hpages]; omega) (by omega)
        (by rwa [hpages]) hr1
      rw [hpages] at hm
      refine ⟨hm.congr fun x hx1 hx2 => ?_, Sys.mapRange_rest hr1, rfl⟩
      simp only [Phdr.firstPaddr, List.headD_cons]
      omega

theorem Sys.mapPartitions_mapped {rs rs' : List SmReply} (hrs : ∀ r ∈ rs, GrantOk r)
    (hd : 0x200000 ≤ ph.sizeDiff) (hlt : partitionUp ph.endVaddr + partitionUp ph.sizeDiff ≤ 2 ^ 38)
    (hfree : ∀ x, partitionUp ph.endVaddr ≤ x →
      x < partitionUp ph.endVaddr + partitionUp ph.sizeDiff → s.leaf x = none)
    (hr : s.mapPartitions ph rs = .ok (s', rs')) :
    Mapped s s' (partitionUp ph.endVaddr) (partitionUp ph.endVaddr + partitionUp ph.sizeDiff) ph.flags
      (fun x => Phdr.firstPaddr rs + (x - partitionUp ph.endVaddr)) ∧
    s.SameRest s' ∧ rs' = rs.tail := by
  have hdal := ha.parts_aligned
  have hdle := ha.parts_le
  have hual := ha.up_aligned
  obtain ⟨hr1, hr2⟩ := Sys.mapPartitions_ok hr
  obtain ⟨n, hn⟩ : ∃ n, n = partitionUp ph.sizeDiff / 0x200000 := ⟨_, rfl⟩
  have hn0 : 0 < n ∧ n < 2 ^ 64 := by omega
  have hpages : Level.mega.size * n = partitionUp ph.sizeDiff := by
    simp only [Level.size]
    omega
  unfold elfPartitions at hr1 hr2
  simp only [← hn] at hr1 hr2
  cases rs with
  | nil =>
    obtain ⟨m, rfl⟩ : ∃ m, n = m + 1 := ⟨n - 1, by omega⟩
    simp only [partitionLoop] at hr2
    cases hr2
  | cons r rest =>
    have hr0 := hrs r List.mem_cons_self
    have hpal := hr0.aligned
    have hple := hr0.le
    rw [partitionLoop_full hn0.1 hn0.2 hr0.granted] at hr1 hr2
    simp only [Option.some.injEq] at hr2
    rw [Sys.execCalls, Sys.execCalls_mapCalls] at hr1
    have hm := Sys.mapRange_mapped h (by simp only [Level.size]; omega)
      (by simp only [Level.size]; omega) hf (by rw [hpages]; omega) (by omega)
      (by rwa [hpages]) hr1
    rw [hpages] at hm
    exact ⟨hm, Sys.mapRange_rest hr1, hr2.symm⟩

theorem Sys.mapTail_mapped {rs rs' : List SmReply} (hp : PoolOk s) (hrs : ∀ r ∈ rs, GrantOk r)
    (hlt : ph.footprintEnd ≤ 2 ^ 38) (hfm : ph.pFilesz < ph.pMemsz) (elfPaddr : ℕ)
    (hfree : ∀ x, ph.endVaddr ≤ x → x < ph.footprintEnd → s.leaf x = none)
    (hr : s.mapTail ph rs = .ok (s', rs')) :
    Mapped s s' ph.endVaddr ph.footprintEnd ph.flags
      (ph.frame elfPaddr (s.getPoolTop .umode) rs) ∧
    PoolOk s' ∧ PoolTaken s s' ph.poolPages ∧ rs' = ph.nextReplies rs := by
  unfold Phdr.footprintEnd at hlt hfree ⊢
  unfold Phdr.poolPages Phdr.nextReplies
  unfold Sys.mapTail at hr
  rw [if_pos hfm] at hlt hfree ⊢
  by_cases hd : ph.sizeDiff < 0x200000
  · rw [if_pos hd] at hr hlt hfree ⊢
    rw [if_pos ⟨hfm, hd⟩, if_neg fun hc => absurd hc.2 (by omega)]
    obtain ⟨s1, hr1, hr2⟩ := Res.bind_ok hr
    obtain ⟨rfl, rfl⟩ := Res.ok_pair hr2
    obtain ⟨h1, h2, h3⟩ := Sys.mapPoolTail_mapped h ha hf hp hd hlt hfree hr1
    refine ⟨h1.congr fun x hx1 _ => ?_, h2, h3, rfl⟩
    rw [Phdr.frame, if_neg (by omega), if_pos hd]
  · rw [if_neg hd] at hr hlt hfree ⊢
    rw [if_neg fun hc => absurd hc.2 hd, if_pos ⟨hfm, by omega⟩]
    have hup := ha.up_le
    obtain ⟨⟨s1, rs1⟩, hr1, hr2⟩ := Res.bind_ok hr
    obtain ⟨h1, h2, rfl⟩ := Sys.mapGap_mapped h ha hf hrs (by omega)
      (fun x hx1 hx2 => hfree x hx1 (by omega)) hr1
    have hrs1 : ∀ r ∈ ph.partitionReplies rs, GrantOk r := by
      unfold Phdr.partitionReplies
      split
      · exact hrs
      · exact fun r hr => hrs r (List.mem_of_mem_tail hr)
    obtain ⟨h3, h4, rfl⟩ := Sys.mapPartitions_mapped h1.inv ha hf hrs1 (by omega) hlt
      (fun x hx1 hx2 => by
        rw [h1.leaf x (by omega) (by omega)]
        exact hfree x (by omega) hx2) hr2
    have htk := (h2.trans h4).poolTaken
    refine ⟨Mapped.trans (h1.congr fun x hx1 hx2 => ?_) (h3.congr fun x hx1 _ => ?_) hup (by omega) hlt,
      hp.of_taken htk, htk, rfl⟩
    · rw [Phdr.frame, if_neg (by omega), if_neg hd, if_pos hx2]
    · rw [Phdr.frame, if_neg (by omega), if_neg hd, if_neg (by omega)]

end Pieces

/-! ### A segment -/

/-- A segment has been loaded: its footprint is mapped to `pa` and covers it, what
is beyond the file is zero, and nothing else has happened. -/
structure SegmentLoaded (s s' : Sys) (ph : Phdr) (pa : ℕ → ℕ) : Prop where
  inv : PtInv s'
  range : ∀ x, s'.TableRange x ↔ s.TableRange x
  covered : ph.pVaddr + ph.pMemsz ≤ ph.footprintEnd
  maps : ∀ x, ph.startVaddr ≤ x → x < ph.footprintEnd → s'.Maps ph.flags x (pa x)
  leaf : ∀ x < 2 ^ 38, ¬ (ph.startVaddr ≤ x ∧ x < ph.footprintEnd) → s'.leaf x = s.leaf x
  zero : ∀ i, ph.pFilesz ≤ i → i < ph.pMemsz → s'.mem (pa (ph.pVaddr + i)) = 0
  mem : ∀ y, ¬ s.TableRange y → (∀ i, ph.pFilesz ≤ i → i < ph.pMemsz → y ≠ pa (ph.pVaddr + i)) →
    s'.mem y = s.mem y

/-- **One round of `map_elf`**, where nothing is mapped and no table is in the way. -/
theorem Sys.mapSegment_loaded {s s' : Sys} {ph : Phdr} {size elfPaddr : ℕ} {rs rs' : List SmReply}
    (h : PtInv s) (hp : PoolOk s) (hrs : ∀ r ∈ rs, GrantOk r) (hrules : SegmentRules size ph)
    (hbase : elfPaddr % 0x1000 = 0) (hsize : elfPaddr + size ≤ 2 ^ 55)
    (hfree : ∀ x, ph.startVaddr ≤ x → x < ph.extentEnd → s.leaf x = none)
    (hout : s.getPoolTop .umode + 0x1000 * ph.poolPages ≤ s.poolStart .umode + s.umodePool.size →
      ∀ i, ph.pFilesz ≤ i → i < ph.pMemsz → ph.pVaddr + i < ph.footprintEnd →
      ¬ s.TableRange (ph.frame elfPaddr (s.getPoolTop .umode) rs (ph.pVaddr + i)))
    (hr : s.mapSegment elfPaddr ph rs = .ok (s', rs')) :
    SegmentLoaded s s' ph (ph.frame elfPaddr (s.getPoolTop .umode) rs) ∧
      PoolOk s' ∧ PoolTaken s s' ph.poolPages ∧ rs' = ph.nextReplies rs := by
  have ha := hrules.arith
  have hfit : ph.footprintEnd ≤ 2 ^ 38 := le_trans (le_max_left _ _) hrules.fits
  have hext : ph.footprintEnd ≤ ph.extentEnd ∧ ph.pVaddr + ph.pMemsz ≤ ph.extentEnd :=
    ⟨le_max_left _ _, le_max_right _ _⟩
  have hstart := ha.start
  have hend := ha.end_le
  have hmle := ha.mem_le
  have hfoot : ph.endVaddr ≤ ph.footprintEnd := by
    have := ha.up_le
    unfold Phdr.footprintEnd
    split
    · split <;> omega
    · exact le_rfl
  unfold Sys.mapSegment at hr
  obtain ⟨s1, hr1, hr2⟩ := Res.bind_ok hr
  have h1 := Sys.mapFile_mapped h ha hrules.perm hrules hbase hsize
    (fun x hx1 hx2 => hfree x hx1 (by omega)) hr1
  have hrest := Sys.mapRange_rest hr1
  have h1' : Mapped s s1 ph.startVaddr ph.endVaddr ph.flags
      (ph.frame elfPaddr (s.getPoolTop .umode) rs) :=
    h1.congr fun x _ hx2 => by rw [Phdr.frame, if_pos hx2]
  by_cases hfm : ph.pFilesz < ph.pMemsz
  · rw [if_pos hfm] at hr2
    obtain ⟨⟨s2, rs2⟩, hr3, hr4⟩ := Res.bind_ok hr2
    obtain ⟨s3, hr5, hr6⟩ := Res.bind_ok hr4
    obtain ⟨rfl, rfl⟩ := Res.ok_pair hr6
    obtain ⟨h2, hp2, htk, rfl⟩ := Sys.mapTail_mapped h1.inv ha hrules.perm
      (hp.of_taken hrest.poolTaken) hrs hfit hfm elfPaddr (fun x hx1 hx2 => by
        rw [h1.leaf x (by omega) (by omega)]
        exact hfree x (by omega) (by omega)) hr3
    rw [hrest.getPoolTop] at h2
    have hout := hout (PoolOk.top_le hp hp2 (by simpa using hrest.poolTaken.trans htk))
    have h3 := h1'.trans h2 (by omega) hfoot hfit
    -- the fill only goes to what has been mapped
    rw [add64_eq (by omega), sub64_eq (by omega) (by omega)] at hr5
    have hva : ∀ i < ph.pMemsz - ph.pFilesz, add64 (ph.pVaddr + ph.pFilesz) i =
        ph.pVaddr + (ph.pFilesz + i) := fun i hi => by
      rw [add64_eq (by omega)]
      omega
    have hstore : ∀ i < ph.pMemsz - ph.pFilesz, ∀ pa,
        s2.storePa (add64 (ph.pVaddr + ph.pFilesz) i) = some pa →
        ph.pVaddr + (ph.pFilesz + i) < ph.footprintEnd ∧
          pa = ph.frame elfPaddr (s.getPoolTop .umode) rs (ph.pVaddr + (ph.pFilesz + i)) := by
      intro i hi pa hpa
      rw [hva i hi] at hpa
      by_cases hin : ph.pVaddr + (ph.pFilesz + i) < ph.footprintEnd
      · exact ⟨hin, (h3.maps _ (by omega) hin).storePa hpa⟩
      · exfalso
        have hnone : s2.leaf (ph.pVaddr + (ph.pFilesz + i)) = none := by
          rw [h3.leaf _ (by omega) (by omega)]
          exact hfree _ (by omega) (by omega)
        simp only [Sys.storePa, hnone, ite_self] at hpa
        cases hpa
    obtain ⟨e1, e2, e3, e4⟩ := Sys.memset_spec h3.inv (fun i hi pa hpa => by
      obtain ⟨h4, rfl⟩ := hstore i hi pa hpa
      exact mt (h3.range _).mp (hout _ (by omega) (by omega) h4)) hr5
    obtain ⟨h5, h6⟩ := h3.inv.of_mem e1 e2
    have htk3 : PoolTaken s2 s3 0 := Sys.SameRest.poolTaken (by unfold Sys.SameRest; rw [e1])
    have hcov : ph.pVaddr + ph.pMemsz ≤ ph.footprintEnd := by
      obtain ⟨pa, hpa, -⟩ := e3 (ph.pMemsz - ph.pFilesz - 1) (by omega)
      have := (hstore _ (by omega) pa hpa).1
      omega
    refine ⟨⟨h5, fun x => ?_, hcov, fun x hx1 hx2 => (h3.maps x hx1 hx2).of_leaf (h6 x),
      fun x hx1 hx2 => (h6 x).trans (h3.leaf x hx1 hx2), fun i hi1 hi2 => ?_, fun y hy1 hy2 => ?_⟩,
      hp2.of_taken htk3, by simpa using (hrest.poolTaken.trans htk).trans htk3, rfl⟩
    · refine Iff.trans ?_ (h3.range x)
      rw [e1]
      exact Iff.rfl
    · obtain ⟨pa, hpa, hz⟩ := e3 (i - ph.pFilesz) (by omega)
      obtain ⟨-, rfl⟩ := hstore _ (by omega) pa hpa
      rwa [show ph.pFilesz + (i - ph.pFilesz) = i by omega] at hz
    · rw [e4 y fun i hi hc => ?_, h3.mem y hy1]
      obtain ⟨-, rfl⟩ := hstore i hi y hc
      exact hy2 _ (by omega) (by omega) rfl
  · rw [if_neg hfm] at hr2
    obtain ⟨rfl, rfl⟩ := Res.ok_pair hr2
    have hle := hrules.le
    have hE : ph.footprintEnd = ph.endVaddr := by rw [Phdr.footprintEnd, if_neg hfm]
    have hpp : ph.poolPages = 0 := by rw [Phdr.poolPages, if_neg fun hc => hfm hc.1]
    refine ⟨⟨h1'.inv, h1'.range, by omega, by rw [hE]; exact h1'.maps, by rw [hE]; exact h1'.leaf,
      fun i hi1 hi2 => by omega, fun y hy1 _ => h1'.mem y hy1⟩, hp.of_taken hrest.poolTaken,
      by rw [hpp]; exact hrest.poolTaken, ?_⟩
    rw [Phdr.nextReplies, if_neg fun hc => hfm hc.1]

/-! ### Where the frames of a segment lie -/

namespace Phdr

/-- The bytes of the image that the zero fill of the segment reaches: those after
its file bytes in the same page. -/
def Wipes (ph : Phdr) (y : ℕ) : Prop :=
  ph.pOffset + ph.pFilesz ≤ y ∧ y < ph.pOffset + ph.pMemsz ∧ y < pageUp (ph.pOffset + ph.pFilesz)

/-- The memory that the monitor grants for the segment. -/
def Granted (ph : Phdr) (rs : List SmReply) (y : ℕ) : Prop :=
  ph.pFilesz < ph.pMemsz ∧ 0x200000 ≤ ph.sizeDiff ∧
    ((ph.gap ≠ 0 ∧ firstPaddr rs ≤ y ∧ y < firstPaddr rs + 0x200000) ∨
      (firstPaddr (ph.partitionReplies rs) ≤ y ∧
        y < firstPaddr (ph.partitionReplies rs) + partitionUp ph.sizeDiff))

end Phdr

section Frames

variable {size : ℕ} {ph : Phdr} (h : SegmentRules size ph)
include h

theorem SegmentRules.wipes_iff (hsize : size ≤ 2 ^ 55) (i : ℕ) :
    ph.Wipes (ph.pOffset + i) ↔ ph.pFilesz ≤ i ∧ i < ph.pMemsz ∧ ph.pVaddr + i < ph.endVaddr := by
  have ha := h.arith
  have hin := h.inside
  have hcongr := h.congr
  have h1 := ha.end_le
  have h2 := ha.end_lt
  have h3 := ha.end_aligned
  have hup := pageUp_spec (a := ph.pOffset + ph.pFilesz) (by omega)
  unfold Phdr.Wipes
  omega

theorem SegmentRules.frame_file {elfPaddr : ℕ} (hbase : elfPaddr % 0x1000 = 0)
    (hsize : elfPaddr + size ≤ 2 ^ 55) (top : ℕ) (rs : List SmReply) {i : ℕ}
    (hi : ph.pVaddr + i < ph.endVaddr) :
    ph.frame elfPaddr top rs (ph.pVaddr + i) = elfPaddr + ph.pOffset + i := by
  have hin := h.inside
  have hcongr := h.congr
  have hstart := h.arith.start
  rw [Phdr.frame, if_pos hi, Phdr.startPaddr, add64_eq (by omega), pageDown]
  omega

theorem SegmentRules.frame_tail (elfPaddr top : ℕ) (rs : List SmReply) {x : ℕ}
    (hx1 : ph.endVaddr ≤ x) (hx2 : x < ph.footprintEnd) :
    (top ≤ ph.frame elfPaddr top rs x ∧ ph.frame elfPaddr top rs x < top + 0x1000 * ph.poolPages) ∨
      ph.Granted rs (ph.frame elfPaddr top rs x) := by
  have ha := h.arith
  have hdal := ha.diff_aligned
  rw [Phdr.frame, if_neg (by omega)]
  unfold Phdr.footprintEnd at hx2
  by_cases hfm : ph.pFilesz < ph.pMemsz
  · rw [if_pos hfm] at hx2
    by_cases hd : ph.sizeDiff < 0x200000
    · rw [if_pos hd] at hx2
      rw [if_pos hd, Phdr.poolPages, if_pos ⟨hfm, hd⟩]
      omega
    · rw [if_neg hd] at hx2
      rw [if_neg hd]
      refine Or.inr ⟨hfm, by omega, ?_⟩
      have hgap := ha.gap
      split <;> omega
  · rw [if_neg hfm] at hx2
    omega

end Frames

/-! ### The loop -/

/-- The program headers from `i`, `n` of them. -/
def headersFrom (m : Mem) (elfPaddr i n : ℕ) : List Phdr :=
  (List.range' i n).map fun i => readPhdr m (elfPaddr + ePhoff m elfPaddr + 56 * i)

/-- The `PT_LOAD` headers of an image. -/
def loads (m : Mem) (elfPaddr : ℕ) : List Phdr :=
  (headersFrom m elfPaddr 0 (ePhnum m elfPaddr)).filter fun ph => ph.pType = 1

theorem headersFrom_cons (m : Mem) (elfPaddr : ℕ) {i n : ℕ} (hi : i < n) :
    headersFrom m elfPaddr i (n - i) =
      readPhdr m (elfPaddr + ePhoff m elfPaddr + 56 * i) :: headersFrom m elfPaddr (i + 1) (n - (i + 1)) := by
  rw [headersFrom, show n - i = n - (i + 1) + 1 by omega, List.range'_succ, List.map_cons, headersFrom]

/-- The bytes of the image that `map_elf` reads as headers. -/
def HeaderByte (m : Mem) (elfPaddr y : ℕ) : Prop :=
  y < 64 ∨ (ePhoff m elfPaddr ≤ y ∧ y < ePhoff m elfPaddr + 56 * ePhnum m elfPaddr)

/-- The pages of an image. -/
def ImagePages (elfPaddr size y : ℕ) : Prop := elfPaddr ≤ y ∧ y < elfPaddr + pageUp size

/-- The U-mode pool. -/
def Sys.PoolRange (s : Sys) (y : ℕ) : Prop :=
  s.poolStart .umode ≤ y ∧ y < s.poolStart .umode + s.umodePool.size

/-- Two segments have no address in common, as they should be or as they are
mapped. -/
def Apart (a b : Phdr) : Prop :=
  ∀ x, a.startVaddr ≤ x → x < a.extentEnd → ¬ (b.startVaddr ≤ x ∧ x < b.extentEnd)

/-- What the monitor grants for the segments is fresh. -/
def FreshGrants (U : ℕ → Prop) : List Phdr → List SmReply → Prop
  | [], _ => True
  | ph :: phs, rs => (∀ y, ph.Granted rs y → ¬ U y) ∧
    FreshGrants (fun y => U y ∨ ph.Granted rs y) phs (ph.nextReplies rs)

/-- The image, the pool and the tables are in memory, apart from each other. -/
structure LoadEnv (s : Sys) (elfPaddr size : ℕ) : Prop where
  inv : PtInv s
  pool : PoolOk s
  aligned : elfPaddr % 0x1000 = 0
  fits : elfPaddr + size + 0x1000 ≤ 2 ^ 55
  image_tables : ∀ y, ImagePages elfPaddr size y → ¬ s.TableRange y
  image_pool : ∀ y, ImagePages elfPaddr size y → ¬ s.PoolRange y
  pool_tables : ∀ y, s.PoolRange y → ¬ s.TableRange y

/-- The loop has loaded the segments of `done` and has those of `rest` before it. `U`
is the memory spoken for. -/
structure LoadInv (s0 : Sys) (elfPaddr size : ℕ) (U : ℕ → Prop) (done rest : List Phdr) (s : Sys)
    (rs : List SmReply) : Prop where
  inv : PtInv s
  pool : PoolOk s
  poolStart : s.poolStart .umode = s0.poolStart .umode
  poolSize : s.umodePool.size = s0.umodePool.size
  range : ∀ y, s.TableRange y ↔ s0.TableRange y
  grants : ∀ r ∈ rs, GrantOk r
  fresh : FreshGrants U rest rs
  spoken : ∀ y, ImagePages elfPaddr size y ∨ s0.TableRange y ∨ s0.PoolRange y → U y
  rules : ∀ ph, ph ∈ done ∨ ph ∈ rest → SegmentRules size ph
  apart : ∀ a ∈ done, ∀ b ∈ rest, Apart a b
  pairwise : rest.Pairwise Apart
  free : ∀ ph ∈ rest, ∀ x, ph.startVaddr ≤ x → x < ph.extentEnd → s.leaf x = none
  wiped : ∀ ph ∈ done, ∀ y, ph.Wipes y → s.mem (elfPaddr + y) = 0
  kept : ∀ y < pageUp size, (∀ ph ∈ done, ¬ ph.Wipes y) → s.mem (elfPaddr + y) = s0.mem (elfPaddr + y)
  loaded : ∀ ph ∈ done, ∀ i < ph.pMemsz, ∃ pa, s.Maps ph.flags (ph.pVaddr + i) pa ∧
    ((pa = elfPaddr + ph.pOffset + i ∧ (ph.pFilesz ≤ i → ph.Wipes (ph.pOffset + i))) ∨
      (ph.pFilesz ≤ i ∧ s.mem pa = 0 ∧ U pa ∧ ¬ ImagePages elfPaddr size pa ∧ ¬ s0.TableRange pa ∧
        (s0.PoolRange pa → pa < s.getPoolTop .umode)))

section Loop

variable {s0 : Sys} {elfPaddr size : ℕ} (henv : LoadEnv s0 elfPaddr size)
include henv

/-- A frame of the tail is in no table and no page of the image, and was not
spoken for. -/
theorem LoadInv.tail_frame {U : ℕ → Prop} {done rest : List Phdr} {ph : Phdr} {s : Sys}
    {rs : List SmReply} (h : LoadInv s0 elfPaddr size U done (ph :: rest) s rs) {top' : ℕ}
    (htop : top' = s.getPoolTop .umode + 0x1000 * ph.poolPages)
    (hfit : top' ≤ s0.poolStart .umode + s0.umodePool.size) {x : ℕ} (hx1 : ph.endVaddr ≤ x)
    (hx2 : x < ph.footprintEnd) {pa : ℕ}
    (hpa : pa = ph.frame elfPaddr (s.getPoolTop .umode) rs x) :
    ¬ ImagePages elfPaddr size pa ∧ ¬ s0.TableRange pa ∧ (s0.PoolRange pa → pa < top') ∧
      (U pa → s0.PoolRange pa ∧ s.getPoolTop .umode ≤ pa) ∧ (U pa ∨ ph.Granted rs pa) := by
  have hr := h.rules ph (Or.inr List.mem_cons_self)
  have hge : s0.poolStart .umode ≤ s.getPoolTop .umode := by
    rw [h.pool.getPoolTop, h.poolStart]
    omega
  rcases hr.frame_tail elfPaddr (s.getPoolTop .umode) rs hx1 hx2 with ⟨h1, h2⟩ | h1
  · rw [← hpa] at h1 h2
    have hin : s0.PoolRange pa := ⟨by omega, by omega⟩
    exact ⟨fun hc => henv.image_pool pa hc hin, henv.pool_tables pa hin, fun _ => by omega,
      fun _ => ⟨hin, h1⟩, Or.inl (h.spoken pa (Or.inr (Or.inr hin)))⟩
  · rw [← hpa] at h1
    have hnot : ¬ U pa := h.fresh.1 pa h1
    exact ⟨fun hc => hnot (h.spoken pa (Or.inl hc)), fun hc => hnot (h.spoken pa (Or.inr (Or.inl hc))),
      fun hc => absurd (h.spoken pa (Or.inr (Or.inr hc))) hnot, fun hc => absurd hc hnot, Or.inr h1⟩

/-- **One segment more.** -/
theorem LoadInv.step {U : ℕ → Prop} {done rest : List Phdr} {ph : Phdr} {s s' : Sys}
    {rs rs' : List SmReply} (h : LoadInv s0 elfPaddr size U done (ph :: rest) s rs)
    (hr : s.mapSegment elfPaddr ph rs = .ok (s', rs')) :
    LoadInv s0 elfPaddr size (fun y => U y ∨ ph.Granted rs y) (ph :: done) rest s' rs' := by
  have hrules := h.rules ph (Or.inr List.mem_cons_self)
  have ha := hrules.arith
  have hfits := henv.fits
  have hup := pageUp_spec (a := size) (by omega)
  have hin := hrules.inside
  have hstart := ha.start
  have hend := ha.end_le
  have hmem := ha.mem_le
  have himage : ∀ i, ph.pVaddr + i < ph.endVaddr →
      ImagePages elfPaddr size (elfPaddr + ph.pOffset + i) := by
    intro i hi
    have h1 := ha.end_lt
    have h2 := ha.end_aligned
    have h3 := hrules.congr
    refine ⟨by omega, ?_⟩
    omega
  obtain ⟨hseg, hp', htk, rfl⟩ := Sys.mapSegment_loaded h.inv h.pool h.grants hrules henv.aligned
    (by omega) (h.free ph List.mem_cons_self) (fun hle i hi1 hi2 hi3 => by
      rw [h.range]
      by_cases hi : ph.pVaddr + i < ph.endVaddr
      · rw [hrules.frame_file henv.aligned (by omega) _ _ hi]
        exact henv.image_tables _ (himage i hi)
      · exact (h.tail_frame henv rfl (by rwa [← h.poolStart, ← h.poolSize]) (by omega) hi3 rfl).2.1) hr
  have htop := h.pool.top_eq hp' htk
  have hfit : s'.getPoolTop .umode ≤ s0.poolStart .umode + s0.umodePool.size := by
    rw [htop, ← h.poolStart, ← h.poolSize]
    exact h.pool.top_le hp' htk
  have hcov := hseg.covered
  -- the fill changes the image where it wipes it, and otherwise only the segment's tail
  have hkeep : ∀ pa, ¬ s0.TableRange pa → (U pa → s0.PoolRange pa → pa < s.getPoolTop .umode) → U pa →
      (∀ y, pa = elfPaddr + y → ¬ ph.Wipes y) → s'.mem pa = s.mem pa := by
    intro pa h1 h2 h3 h4
    refine hseg.mem pa (mt (h.range pa).mp h1) fun i hi1 hi2 hc => ?_
    by_cases hi : ph.pVaddr + i < ph.endVaddr
    · rw [hrules.frame_file henv.aligned (by omega) _ _ hi] at hc
      exact h4 (ph.pOffset + i) (by omega) ((hrules.wipes_iff (by omega) i).mpr ⟨hi1, hi2, hi⟩)
    · obtain ⟨-, -, -, h5, -⟩ := h.tail_frame henv rfl (htop ▸ hfit) (by omega) (by omega) hc
      have := h2 h3 (h5 h3).1
      have := (h5 h3).2
      omega
  have himg : ∀ y < pageUp size, ¬ ph.Wipes y → s'.mem (elfPaddr + y) = s.mem (elfPaddr + y) := by
    intro y hy hw
    have hy' : ImagePages elfPaddr size (elfPaddr + y) := ⟨by omega, by omega⟩
    refine hkeep _ (henv.image_tables _ hy') (fun _ hc => absurd hc (henv.image_pool _ hy'))
      (h.spoken _ (Or.inl hy')) fun y' he => ?_
    obtain rfl : y = y' := by omega
    exact hw
  have hwipe : ∀ y, ph.Wipes y → s'.mem (elfPaddr + y) = 0 := by
    intro y hw
    have hle : ph.pOffset + ph.pFilesz ≤ y := hw.1
    obtain ⟨i, rfl⟩ : ∃ i, y = ph.pOffset + i := ⟨y - ph.pOffset, by omega⟩
    obtain ⟨h1, h2, h3⟩ := (hrules.wipes_iff (by omega) i).mp hw
    have hz := hseg.zero i h1 h2
    rwa [hrules.frame_file henv.aligned (by omega) _ _ h3, Nat.add_assoc] at hz
  refine
    { inv := hseg.inv, pool := hp', poolStart := htk.start.trans h.poolStart,
      poolSize := htk.size.trans h.poolSize, range := fun y => (hseg.range y).trans (h.range y),
      grants := ?_, fresh := h.fresh.2, spoken := fun y hy => Or.inl (h.spoken y hy), rules := ?_,
      apart := ?_, pairwise := h.pairwise.of_cons, free := ?_, wiped := ?_, kept := ?_, loaded := ?_ }
  · intro r hr
    refine h.grants r ?_
    unfold Phdr.nextReplies Phdr.partitionReplies at hr
    split at hr
    · split at hr
      · exact List.mem_of_mem_tail hr
      · exact List.mem_of_mem_tail (List.mem_of_mem_tail hr)
    · exact hr
  · intro a ha
    refine h.rules a ?_
    simp only [List.mem_cons] at ha ⊢
    tauto
  · intro a ha b hb
    rcases List.mem_cons.mp ha with rfl | ha
    · exact (List.pairwise_cons.mp h.pairwise).1 b hb
    · exact h.apart a ha b (List.mem_cons_of_mem _ hb)
  · intro a ha x hx1 hx2
    have hr := h.rules a (Or.inr (List.mem_cons_of_mem _ ha))
    have hfit := hr.fits
    rw [hseg.leaf x (by omega) fun hc => ?_]
    · exact h.free a (List.mem_cons_of_mem _ ha) x hx1 hx2
    · exact (List.pairwise_cons.mp h.pairwise).1 a ha x hc.1
        (lt_of_lt_of_le hc.2 (le_max_left _ _)) ⟨hx1, hx2⟩
  · intro a ha y hw
    rcases List.mem_cons.mp ha with rfl | ha
    · exact hwipe y hw
    · by_cases hw' : ph.Wipes y
      · exact hwipe y hw'
      · have hra := h.rules a (Or.inl ha)
        have hin := hra.inside
        have hlt : y < pageUp size := by
          have h1 : y < pageUp (a.pOffset + a.pFilesz) := hw.2.2
          have h2 := pageUp_spec (a := a.pOffset + a.pFilesz) (by omega)
          omega
        rw [himg y hlt hw', h.wiped a ha y hw]
  · intro y hy hw
    rw [himg y hy (hw ph List.mem_cons_self), h.kept y hy fun a ha => hw a (List.mem_cons_of_mem _ ha)]
  · intro a hmem i hi
    rcases List.mem_cons.mp hmem with rfl | hmem
    · refine ⟨_, hseg.maps (a.pVaddr + i) (by omega) (by omega), ?_⟩
      by_cases hf : a.pVaddr + i < a.endVaddr
      · exact Or.inl ⟨hrules.frame_file henv.aligned (by omega) _ _ hf,
          fun hge => (hrules.wipes_iff (by omega) i).mpr ⟨hge, hi, hf⟩⟩
      · obtain ⟨h1, h2, h3, -, h4⟩ := h.tail_frame henv htop hfit (by omega)
          (x := a.pVaddr + i) (by omega) rfl
        exact Or.inr ⟨by omega, hseg.zero i (by omega) hi, h4, h1, h2, h3⟩
    · obtain ⟨pa, hmaps, hpa⟩ := h.loaded a hmem i hi
      have hra := h.rules a (Or.inl hmem)
      have hext : a.pVaddr + a.pMemsz ≤ a.extentEnd := le_max_right _ _
      have hfit := hra.fits
      have hsa := hra.arith.start
      refine ⟨pa, hmaps.of_leaf (hseg.leaf _ (by omega) fun hc => ?_), ?_⟩
      · exact h.apart a hmem ph List.mem_cons_self (a.pVaddr + i) (by omega) (by omega)
          ⟨hc.1, lt_of_lt_of_le hc.2 (le_max_left _ _)⟩
      · rcases hpa with hpa | ⟨h1, h2, h3, h4, h5, h6⟩
        · exact Or.inl hpa
        · refine Or.inr ⟨h1, ?_, Or.inl h3, h4, h5, fun hc => by have := h6 hc; omega⟩
          rw [hkeep pa h5 (fun _ => h6) h3 fun y he hw => ?_, h2]
          have h7 : y < pageUp (ph.pOffset + ph.pFilesz) := hw.2.2
          have h8 := pageUp_spec (a := ph.pOffset + ph.pFilesz) (by omega)
          exact h4 ⟨by omega, by omega⟩

/-- The headers still read as they did. -/
theorem LoadInv.header_byte {U : ℕ → Prop} {done rest : List Phdr} {s : Sys} {rs : List SmReply}
    (h : LoadInv s0 elfPaddr size U done rest s rs)
    (hk : ∀ ph ∈ done, ∀ y, ph.Wipes y → HeaderByte s0.mem elfPaddr y → s0.mem (elfPaddr + y) = 0)
    {y : ℕ} (hy : HeaderByte s0.mem elfPaddr y) (hlt : y < size) :
    s.mem (elfPaddr + y) = s0.mem (elfPaddr + y) := by
  have hfits := henv.fits
  have hup := pageUp_spec (a := size) (by omega)
  by_cases hw : ∃ ph ∈ done, ph.Wipes y
  · obtain ⟨ph, hmem, hw⟩ := hw
    rw [h.wiped ph hmem y hw, hk ph hmem y hw hy]
  · exact h.kept y (by omega) fun ph hmem hc => hw ⟨ph, hmem, hc⟩

theorem LoadInv.ePhnum_eq {U : ℕ → Prop} {done rest : List Phdr} {s : Sys} {rs : List SmReply}
    (h : LoadInv s0 elfPaddr size U done rest s rs)
    (hk : ∀ ph ∈ done, ∀ y, ph.Wipes y → HeaderByte s0.mem elfPaddr y → s0.mem (elfPaddr + y) = 0)
    (hsz : 64 ≤ size) : ePhnum s.mem elfPaddr = ePhnum s0.mem elfPaddr := by
  refine Mem.load_congr fun x hx1 hx2 => ?_
  have := h.header_byte henv hk (y := x - elfPaddr) (Or.inl (by omega)) (by omega)
  rwa [show elfPaddr + (x - elfPaddr) = x by omega] at this

theorem LoadInv.phdrAt_eq {U : ℕ → Prop} {done rest : List Phdr} {s : Sys} {rs : List SmReply}
    (h : LoadInv s0 elfPaddr size U done rest s rs)
    (hk : ∀ ph ∈ done, ∀ y, ph.Wipes y → HeaderByte s0.mem elfPaddr y → s0.mem (elfPaddr + y) = 0)
    (htab : ePhoff s0.mem elfPaddr + 56 * ePhnum s0.mem elfPaddr ≤ size) {i : ℕ}
    (hi : i < ePhnum s0.mem elfPaddr) :
    s.phdrAt (elfPaddr + ePhoff s0.mem elfPaddr) i =
      readPhdr s0.mem (elfPaddr + ePhoff s0.mem elfPaddr + 56 * i) := by
  have hbyte : ∀ x, elfPaddr + ePhoff s0.mem elfPaddr + 56 * i ≤ x →
      x < elfPaddr + ePhoff s0.mem elfPaddr + 56 * i + 56 → s.mem x = s0.mem x := by
    intro x hx1 hx2
    have := h.header_byte henv hk (y := x - elfPaddr) (Or.inr (by omega)) (by omega)
    rwa [show elfPaddr + (x - elfPaddr) = x by omega] at this
  have hload : ∀ o n, o + n ≤ 56 → s.mem.load (elfPaddr + ePhoff s0.mem elfPaddr + 56 * i + o) n =
      s0.mem.load (elfPaddr + ePhoff s0.mem elfPaddr + 56 * i + o) n :=
    fun o n ho => Mem.load_congr fun x hx1 hx2 => hbyte x (by omega) (by omega)
  have h0 := hload 0 4 (by omega)
  simp only [Nat.add_zero] at h0
  simp only [Sys.phdrAt, readPhdr, h0, hload 4 4 (by omega), hload 8 8 (by omega),
    hload 16 8 (by omega), hload 32 8 (by omega), hload 40 8 (by omega)]

/-- **The whole loop.** -/
theorem LoadInv.loop {fuel i : ℕ} {U : ℕ → Prop} {done : List Phdr} {s s' : Sys}
    {rs rs' : List SmReply}
    (h : LoadInv s0 elfPaddr size U done ((headersFrom s0.mem elfPaddr i
      (ePhnum s0.mem elfPaddr - i)).filter fun ph => ph.pType = 1) s rs)
    (hk : ∀ ph, (ph ∈ done ∨ ph ∈ (headersFrom s0.mem elfPaddr i
      (ePhnum s0.mem elfPaddr - i)).filter fun ph => ph.pType = 1) →
      ∀ y, ph.Wipes y → HeaderByte s0.mem elfPaddr y → s0.mem (elfPaddr + y) = 0)
    (hn : ePhnum s0.mem elfPaddr ≤ i + fuel) (hsz : 64 ≤ size)
    (htab : ePhoff s0.mem elfPaddr + 56 * ePhnum s0.mem elfPaddr ≤ size)
    (hr : s.mapElfLoop elfPaddr (elfPaddr + ePhoff s0.mem elfPaddr) rs fuel i = .ok (s', rs')) :
    ∃ U' done', LoadInv s0 elfPaddr size U' done' [] s' rs' ∧
      ∀ ph, ph ∈ done' ↔ (ph ∈ done ∨ ph ∈ (headersFrom s0.mem elfPaddr i
        (ePhnum s0.mem elfPaddr - i)).filter fun ph => ph.pType = 1) := by
  induction fuel generalizing i U done s rs with
  | zero =>
    simp only [Sys.mapElfLoop, Except.ok.injEq, Prod.mk.injEq] at hr
    obtain ⟨rfl, rfl⟩ := hr
    rw [show ePhnum s0.mem elfPaddr - i = 0 by omega] at h ⊢
    exact ⟨U, done, h, by simp [headersFrom]⟩
  | succ fuel ih =>
    rw [Sys.mapElfLoop, h.ePhnum_eq henv (fun ph hm => hk ph (Or.inl hm)) hsz] at hr
    by_cases hi : i < ePhnum s0.mem elfPaddr
    · rw [if_pos hi] at hr
      obtain ⟨⟨s1, rs1⟩, hr1, hr2⟩ := Res.bind_ok hr
      have hph := h.phdrAt_eq henv (fun ph hm => hk ph (Or.inl hm)) htab hi
      unfold Sys.mapHeader at hr1
      rw [hph] at hr1
      rw [headersFrom_cons _ _ hi] at h hk ⊢
      by_cases hpt : (readPhdr s0.mem (elfPaddr + ePhoff s0.mem elfPaddr + 56 * i)).pType = 1
      · rw [if_neg (by simpa using hpt)] at hr1
        rw [List.filter_cons_of_pos (by simpa using hpt)] at h hk ⊢
        have h1 := h.step henv hr1
        obtain ⟨U', done', h2, h3⟩ := ih h1 (fun ph hm => hk ph (by
          simp only [List.mem_cons] at hm ⊢
          tauto)) (by omega) hr2
        refine ⟨U', done', h2, fun ph => (h3 ph).trans ?_⟩
        simp only [List.mem_cons]
        tauto
      · rw [if_pos hpt] at hr1
        obtain ⟨rfl, rfl⟩ := Res.ok_pair hr1
        rw [List.filter_cons_of_neg (by simpa using hpt)] at h hk ⊢
        exact ih h hk (by omega) hr2
    · rw [if_neg hi] at hr
      obtain ⟨rfl, rfl⟩ := Res.ok_pair hr
      rw [show ePhnum s0.mem elfPaddr - i = 0 by omega] at h ⊢
      exact ⟨U, done, h, by simp [headersFrom]⟩

end Loop

/-! ### The result -/

/-- Every `PT_LOAD` segment is in memory: each byte of it is mapped for the user
with the permissions of its header, and is the byte of the image or, beyond the
file, zero. -/
def Faithful (m : Mem) (elfPaddr : ℕ) (s : Sys) : Prop :=
  ∀ ph ∈ loads m elfPaddr, ∀ i < ph.pMemsz, ∃ level pte,
    s.leaf (ph.pVaddr + i) = some (level, pte) ∧ pte.u = true ∧ pte.r = ph.pFlags.testBit 2 ∧
    pte.w = ph.pFlags.testBit 1 ∧ pte.x = ph.pFlags.testBit 0 ∧
    s.mem (Sys.leafPa pte level (ph.pVaddr + i)) =
      if i < ph.pFilesz then m (elfPaddr + ph.pOffset + i) else 0

/-- What an image must keep to: its headers are in it and have the size that the
loader takes them to have, its segments follow the rules and do not meet, nothing
is mapped there before, and no zero fill changes a header. -/
structure ImageRules (s : Sys) (elfPaddr size : ℕ) : Prop where
  header : 64 ≤ size
  phentsize : s.mem.load (elfPaddr + 54) 2 = 56
  rules : ∀ ph ∈ loads s.mem elfPaddr, SegmentRules size ph
  apart : (loads s.mem elfPaddr).Pairwise Apart
  free : ∀ ph ∈ loads s.mem elfPaddr, ∀ x, ph.startVaddr ≤ x → x < ph.extentEnd → s.leaf x = none
  kept : ∀ ph ∈ loads s.mem elfPaddr, ∀ y, ph.Wipes y → HeaderByte s.mem elfPaddr y →
    s.mem (elfPaddr + y) = 0

theorem pteFlag_bits (w : ℕ) : (pteFlag w).testBit 4 = true ∧ (pteFlag w).testBit 1 = w.testBit 2 ∧
    (pteFlag w).testBit 2 = w.testBit 1 ∧ (pteFlag w).testBit 3 = w.testBit 0 := by
  unfold pteFlag
  cases w.testBit 2 <;> cases w.testBit 1 <;> cases w.testBit 0 <;> decide

/-- `elf_check` bounds the program headers. -/
theorem elfCheck_table {m : Mem} {elfPaddr size : ℕ} (hent : m.load (elfPaddr + 54) 2 = 56)
    (h : elfCheck m elfPaddr size = .ok ()) :
    ePhoff m elfPaddr + 56 * ePhnum m elfPaddr ≤ size := by
  have hn : ePhnum m elfPaddr < 256 ^ 2 := Mem.load_lt m 2 _
  have ho : ePhoff m elfPaddr < 256 ^ 8 := Mem.load_lt m 8 _
  have hmul : mulInt 56 (ePhnum m elfPaddr) = 56 * ePhnum m elfPaddr := by
    unfold mulInt
    simp only
    rw [Nat.mod_eq_of_lt (by omega), if_pos (by omega)]
  by_contra hc
  unfold elfCheck at h
  rw [hent, hmul] at h
  have hbad : size < add64 (ePhoff m elfPaddr) (56 * ePhnum m elfPaddr) ∨
      add64 (ePhoff m elfPaddr) (56 * ePhnum m elfPaddr) < ePhoff m elfPaddr := by
    unfold add64
    omega
  simp only [if_pos hbad] at h
  split_ifs at h

/-- A data segment at `0x10000` with 256 bytes of file, the headers, and 16 bytes
more. -/
def dataHeader : Phdr := ⟨1, 6, 0, 0x10000, 0x100, 0x110⟩

/-- An image of that segment. -/
def dataImage : List UInt8 := headerImage [dataHeader]

theorem loads_dataImage : loads (imageBoot dataImage).mem 0x300000 = [dataHeader] := by decide +kernel

theorem dataImage_env : LoadEnv (imageBoot dataImage) 0x300000 0x100 := by
  have hstart : (imageBoot dataImage).poolStart .umode = 0x200000 := by decide +kernel
  have hsize : (imageBoot dataImage).umodePool.size = 0x2000 := rfl
  have hup : pageUp 0x100 = 0x1000 := by decide
  refine ⟨(imageBoot_inv dataImage).1, ⟨by rw [hstart], ?_, by decide⟩, by decide, by decide,
    fun y hy ht => ?_, fun y hy hp => ?_, fun y hp ht => ?_⟩
  · rw [hstart, hsize]
    decide
  · have := imageBoot_range dataImage ht
    have := hy.1
    omega
  · have h1 := hy.1
    have h2 := hp.2
    rw [hstart, hsize] at h2
    omega
  · have h1 := imageBoot_range dataImage ht
    have h2 := hp.1
    rw [hstart] at h2
    omega

theorem dataHeader_extent : dataHeader.startVaddr = 0x10000 ∧ dataHeader.extentEnd = 0x11000 := by
  decide

theorem dataImage_rules : ImageRules (imageBoot dataImage) 0x300000 0x100 := by
  obtain ⟨-, h2⟩ := dataHeader_extent
  have hnum : ePhnum (imageBoot dataImage).mem 0x300000 = 1 ∧
      ePhoff (imageBoot dataImage).mem 0x300000 = 64 := by
    decide +kernel
  refine ⟨by decide, by decide +kernel, ?_, ?_, ?_, ?_⟩ <;> rw [loads_dataImage]
  · rintro ph hph
    obtain rfl := List.mem_singleton.mp hph
    exact ⟨by unfold HasPerm; decide, by decide, by decide, by decide, by rw [h2]; decide⟩
  · exact List.pairwise_singleton _ _
  · exact fun ph _ x _ _ => (imageBoot_inv dataImage).2 x
  · rintro ph hph y hw hy
    obtain rfl := List.mem_singleton.mp hph
    have h3 : 0x100 ≤ y := hw.1
    rcases hy with hy | hy
    · omega
    · rw [hnum.1, hnum.2] at hy
      omega

/-- Sixteen bytes of code at `0x20100`, right after the data in the image. -/
def nextHeader : Phdr := ⟨1, 5, 0x100, 0x20100, 0x10, 0x10⟩

/-- The image of both, with a byte that is not zero in the second. -/
def sharedImage : List UInt8 :=
  headerImage [dataHeader, nextHeader] ++ List.replicate 80 0 ++ [0x13] ++ List.replicate 15 0

/-- The byte at an address. -/
def Sys.byteAt (s : Sys) (va : ℕ) : Option UInt8 :=
  (s.leaf va).map fun l => s.mem (Sys.leafPa l.2 l.1 va)

end Coffer
