/-
# The ELF loader and the supervisor

`map_elf` takes addresses and sizes from the image as they are: nothing keeps a
segment out of the supervisor's half, nor its file offset out of the page tables.
A `PT_LOAD` header at `EMOD_MANAGER_VA_START` is mapped over the manager
(`loadElf_remaps_manager`).

What would have to be checked is `SegmentOk`: every page mapped for a segment
lies in the user's half and in a frame that holds no table. Then no step of the
loader reaches a table entry of the other half, not even where `map_page` takes a
megapage for a table, since that page is the user's too (`loadElf_supervisor`).
-/
import Coffer.Elf

namespace Coffer

open Lib

/-- Addresses of the user's half: bit 38 is clear. -/
def UserHalf (x : ℕ) : Prop := x % 2 ^ 39 < 2 ^ 38

instance (x : ℕ) : Decidable (UserHalf x) := inferInstanceAs (Decidable (_ < _))

/-- The frame of a page holds no table. -/
def FrameOk (s : Sys) (ppn : ℕ) (level : Level) : Prop :=
  ∀ y, 0x1000 * ppn ≤ y → y < 0x1000 * ppn + level.size → ¬ s.TableRange y

/-- The page table is in order, and what the user's half maps is not a table. -/
structure UserInv (s : Sys) : Prop where
  inv : PtInv s
  no_giga : ∀ x, UserHalf x → ∀ pte, s.leaf x ≠ some (.giga, pte)
  frames : ∀ x, UserHalf x → ∀ l pte, s.leaf x = some (l, pte) → FrameOk s pte.ppn.toNat l

/-- What a step of the loader does to the supervisor: nothing. -/
structure SupFrame (s s' : Sys) : Prop where
  range : ∀ x, s'.TableRange x ↔ s.TableRange x
  leaf : ∀ x, ¬ UserHalf x → s'.leaf x = s.leaf x

theorem SupFrame.refl (s : Sys) : SupFrame s s := ⟨fun _ => Iff.rfl, fun _ _ => rfl⟩

theorem SupFrame.trans {s s' s'' : Sys} (h : SupFrame s s') (h' : SupFrame s' s'') : SupFrame s s'' :=
  ⟨fun x => (h'.range x).trans (h.range x), fun x hx => (h'.leaf x hx).trans (h.leaf x hx)⟩

theorem FrameOk.congr {s s' : Sys} (h : ∀ x, s'.TableRange x ↔ s.TableRange x) {ppn : ℕ}
    {level : Level} : FrameOk s' ppn level ↔ FrameOk s ppn level := by
  simp only [FrameOk, h]

/-- A write outside the tables. -/
theorem UserInv.of_mem {s s' : Sys} (h : UserInv s) (hs' : s' = { s with mem := s'.mem })
    (hm : ∀ x, s.TableRange x → s'.mem x = s.mem x) : UserInv s' ∧ SupFrame s s' := by
  obtain ⟨h1, h2⟩ := h.inv.of_mem hs' hm
  have hr : ∀ x, s'.TableRange x ↔ s.TableRange x := fun x => by
    rw [hs']
    exact Iff.rfl
  refine ⟨⟨h1, fun x hx pte => ?_, fun x hx l pte hl => ?_⟩, hr, fun x _ => h2 x⟩
  · rw [h2 x]
    exact h.no_giga x hx pte
  · rw [h2 x] at hl
    rw [FrameOk.congr hr]
    exact h.frames x hx l pte hl

/-- Where an entry is valid, the walker follows it, whatever it is. -/
theorem Sys.nextTable_valid {s : Sys} {p : ℕ} {vpn : Fin 512} {alloc : Bool}
    (h : (pteAt s.mem p vpn).v = true) :
    s.nextTable (0x1000 * p) vpn alloc = .ok (0x1000 * (pteAt s.mem p vpn).ppn.toNat, s) := by
  have he : s.readPte (0x1000 * p + 8 * (vpn : ℕ)) = pteAt s.mem p vpn := by
    rw [Sys.readPte, pteAt]
  simp only [Sys.nextTable, he, h, Bool.true_eq_false, if_false]

/-- `map_page` for a page inside a megapage takes the megapage for a table. -/
theorem Sys.mapPage_astray {s s' : Sys} {va pa flags : ℕ} {pte : Pte} (h : PtInv s)
    (hl : s.leaf va = some (.mega, pte)) (hr : s.mapPage va pa flags .page = .ok s') :
    s' = { s with mem := s'.mem } ∧
      ∀ x, x < 0x1000 * pte.ppn.toNat ∨ 0x1000 * pte.ppn.toNat + 0x1000 ≤ x → s'.mem x = s.mem x := by
  have hroot : s.tableRoot = 0x1000 * s.rootPage := by
    obtain ⟨owner, hS⟩ := h
    exact hS.root_eq
  obtain ⟨q, -, h2, h3⟩ := descendTables_noAlloc false (Sys.walk_of_leaf hl)
  simp only [upperVpns, Radix.descend] at h2
  split at h2
  · rename_i q' hq'
    simp only [Option.some.injEq] at h2
    subst h2
    obtain ⟨e1, e2⟩ := tables_eq_ptr hq'
    obtain ⟨e3, e4⟩ := tables_eq_leaf h3
    have hd : s.descendTables s.tableRoot true (upperVpns va .page) = .ok (0x1000 * pte.ppn.toNat, s) := by
      rw [hroot, upperVpns, Sys.descendTables, Sys.nextTable_valid e2, e1, Res.ok_bind]
      simp only [Sys.descendTables]
      have e5 : getVpn va 1 = lastVpn va .mega := rfl
      rw [e5, Sys.nextTable_valid e4, e3, Res.ok_bind]
    simp only [Sys.mapPage, Sys.getLeafPte, hd, Res.ok_bind, Bool.true_eq_false, and_false, if_false,
      Except.ok.injEq] at hr
    have hi := (lastVpn va .page).isLt
    subst hr
    refine ⟨rfl, fun x hx => Mem.store_out _ (by omega)⟩
  · cases h2

/-- What the loader may map: pages of the user's half, in frames without tables. -/
def MapOk (s : Sys) (va pa : ℕ) (level : Level) : Prop :=
  UserHalf va ∧ FrameOk s (pa / 0x1000 % 2 ^ 44) level

theorem MapOk.congr {s s' : Sys} (h : ∀ x, s'.TableRange x ↔ s.TableRange x) {va pa : ℕ}
    {level : Level} : MapOk s' va pa level ↔ MapOk s va pa level := by
  simp only [MapOk, FrameOk.congr h]

theorem SamePage.userHalf {level : Level} {x y : ℕ} (h : SamePage level x y) :
    UserHalf x ↔ UserHalf y := by
  cases level <;> simp only [SamePage, Level.size, UserHalf] at * <;> omega

/-- Mapping a page of the user's half, whatever is there. -/
theorem UserInv.mapPage {s s' : Sys} {va pa flags : ℕ} {level : Level} (h : UserInv s)
    (hf : HasPerm flags) (hlv : level ≠ .giga) (hok : MapOk s va pa level)
    (hr : s.mapPage va pa flags level = .ok s') : UserInv s' ∧ SupFrame s s' := by
  by_cases hn : s.NoLeafAbove va level
  · obtain ⟨h1, h2, h3⟩ := Sys.mapPage_spec h.inv hn hf hr
    refine ⟨⟨h1, fun x hx pte hl => ?_, fun x hx l pte hl => ?_⟩, h2.tableRange, fun x hx => ?_⟩
    · rw [h3 x] at hl
      split at hl
      · simp only [Option.some.injEq, Prod.mk.injEq] at hl
        exact hlv hl.1
      · exact h.no_giga x hx pte hl
    · rw [FrameOk.congr h2.tableRange]
      rw [h3 x] at hl
      split at hl
      · simp only [Option.some.injEq, Prod.mk.injEq] at hl
        obtain ⟨rfl, rfl⟩ := hl
        simpa only [Pte.map, BitVec.toNat_ofNat] using hok.2
      · exact h.frames x hx l pte hl
    · rw [h3 x, if_neg fun hs => hx (hs.userHalf.mp hok.1)]
  · -- a larger page is in the way: it is a megapage, and its frame is written
    unfold Sys.NoLeafAbove at hn
    push Not at hn
    obtain ⟨l, pte, hl, hlt⟩ := hn
    have hlm : l = .mega ∧ level = .page := by
      cases l with
      | giga => exact absurd hl (h.no_giga va hok.1 pte)
      | mega => cases level <;> simp [Level.toNat] at hlt ⊢
      | page => cases level <;> simp [Level.toNat] at hlt
    obtain ⟨rfl, rfl⟩ := hlm
    obtain ⟨h1, h2⟩ := Sys.mapPage_astray h.inv hl hr
    refine h.of_mem h1 fun x hx => h2 x ?_
    by_contra hc
    refine h.frames va hok.1 _ pte hl x (by omega) ?_ hx
    simp only [Level.size]
    omega

theorem UserInv.mapRange {s s' : Sys} {va pa flags n : ℕ} {level : Level} (h : UserInv s)
    (hf : HasPerm flags) (hlv : level ≠ .giga)
    (hok : ∀ i < n, MapOk s (add64 va (level.size * i)) (add64 pa (level.size * i)) level)
    (hr : s.mapRange va pa flags level n = .ok s') : UserInv s' ∧ SupFrame s s' := by
  induction n generalizing s' with
  | zero =>
    cases hr
    exact ⟨h, SupFrame.refl _⟩
  | succ n ih =>
    rw [Sys.mapRange] at hr
    obtain ⟨s1, hr1, hr2⟩ := Res.bind_ok hr
    obtain ⟨h1, h2⟩ := ih (fun i hi => hok i (by omega)) hr1
    obtain ⟨h3, h4⟩ := h1.mapPage hf hlv ((MapOk.congr h2.range).mpr (hok n (by omega))) hr2
    exact ⟨h3, h2.trans h4⟩

theorem UserInv.execCalls {s s' : Sys} {flags : ℕ} {evs : List MapEvent} (h : UserInv s)
    (hf : HasPerm flags) (hok : ∀ va pa, .map va pa ∈ evs → MapOk s va pa .mega)
    (hr : s.execCalls flags evs = .ok s') : UserInv s' ∧ SupFrame s s' := by
  induction evs generalizing s with
  | nil =>
    cases hr
    exact ⟨h, SupFrame.refl _⟩
  | cons e evs ih =>
    cases e with
    | grant pa count => exact ih h (fun va pa hm => hok va pa (List.mem_cons_of_mem _ hm)) hr
    | map va pa =>
      rw [Sys.execCalls] at hr
      obtain ⟨s1, hr1, hr2⟩ := Res.bind_ok hr
      obtain ⟨h1, h2⟩ := h.mapPage hf (by simp) (hok va pa List.mem_cons_self) hr1
      obtain ⟨h3, h4⟩ := ih h1 (fun va pa hm => (MapOk.congr h2.range).mpr
        (hok va pa (List.mem_cons_of_mem _ hm))) hr2
      exact ⟨h3, h2.trans h4⟩

/-- A store in the user's half does not hit a table. -/
theorem UserInv.storeByte {s s' : Sys} {va : ℕ} {b : UInt8} (h : UserInv s) (hva : UserHalf va)
    (hr : s.storeByte va b = .ok s') : UserInv s' ∧ SupFrame s s' := by
  unfold Sys.storeByte Sys.storePa at hr
  split at hr
  · rename_i pa hpa
    cases hr
    refine h.of_mem rfl fun x hx => ?_
    split at hpa
    · split at hpa
      · rename_i level pte hl
        split at hpa
        · cases hpa
          refine Function.update_of_ne ?_ _ _
          rintro rfl
          refine h.frames va hva level pte hl _ ?_ ?_ hx
          · unfold Sys.leafPa
            omega
          · unfold Sys.leafPa
            have : 0 < level.size := by cases level <;> decide
            have := Nat.mod_lt va this
            omega
        · cases hpa
      · cases hpa
    · cases hpa
  · cases hr

theorem UserInv.memset {s s' : Sys} {va n : ℕ} {b : UInt8} (h : UserInv s)
    (hva : ∀ i < n, UserHalf (add64 va i)) (hr : s.memset va b n = .ok s') :
    UserInv s' ∧ SupFrame s s' := by
  induction n generalizing s' with
  | zero =>
    cases hr
    exact ⟨h, SupFrame.refl _⟩
  | succ n ih =>
    rw [Sys.memset] at hr
    obtain ⟨s1, hr1, hr2⟩ := Res.bind_ok hr
    obtain ⟨h1, h2⟩ := ih (fun i hi => hva i (by omega)) hr1
    obtain ⟨h3, h4⟩ := h1.storeByte (hva n (by omega)) hr2
    exact ⟨h3, h2.trans h4⟩

/-! ### Segments -/

/-- What a `PT_LOAD` header must keep to: some permission, every page that is
mapped for it in the user's half and in a frame without tables, and the zero
fill in the user's half. -/
structure SegmentOk (s : Sys) (elfPaddr : ℕ) (ph : Phdr) (rs : List SmReply) : Prop where
  perm : HasPerm ph.flags
  file : ∀ i < ph.filePages, MapOk s (add64 ph.startVaddr (Level.page.size * i))
    (add64 (ph.startPaddr elfPaddr) (Level.page.size * i)) .page
  pool : ph.pFilesz < ph.pMemsz → ph.sizeDiff < 0x200000 → ∀ i < ph.sizeDiff / 0x1000,
    MapOk s (add64 ph.endVaddr (Level.page.size * i))
      (add64 (s.getPoolTop .umode) (Level.page.size * i)) .page
  gap : ph.pFilesz < ph.pMemsz → 0x200000 ≤ ph.sizeDiff → ∀ r rest, rs = r :: rest →
    ∀ i < ph.gap / 0x1000, MapOk s (add64 ph.endVaddr (Level.page.size * i))
      (add64 (add64 r.paddr (ph.endVaddr % 0x200000)) (Level.page.size * i)) .page
  partitions : ph.pFilesz < ph.pMemsz → 0x200000 ≤ ph.sizeDiff → ∀ va pa,
    .map va pa ∈ (elfPartitions (partitionUp ph.endVaddr) ph.sizeDiff
      (if ph.gap = 0 then rs else rs.tail)).1 → MapOk s va pa .mega
  zero : ph.pFilesz < ph.pMemsz → ∀ i < sub64 ph.pMemsz ph.pFilesz,
    UserHalf (add64 (add64 ph.pVaddr ph.pFilesz) i)

/-- The pages from the pool. -/
theorem UserInv.mapPoolTail {s s' : Sys} {ph : Phdr} (h : UserInv s) (hf : HasPerm ph.flags)
    (hok : ∀ i < ph.sizeDiff / 0x1000, MapOk s (add64 ph.endVaddr (Level.page.size * i))
      (add64 (s.getPoolTop .umode) (Level.page.size * i)) .page)
    (hr : s.mapPoolTail ph = .ok s') : UserInv s' ∧ SupFrame s s' := by
  unfold Sys.mapPoolTail at hr
  obtain ⟨⟨pa, s1⟩, ha, hr⟩ := Res.bind_ok hr
  obtain ⟨-, rfl, hs1⟩ := Sys.allocPage_ok ha
  have hmem : s1.mem = s.mem := by rw [hs1, Sys.mem_setUsedPageCount]
  have hroot : s1.tableRoot = s.tableRoot := by rw [hs1, Sys.tableRoot_setUsedPageCount]
  have hpool : s1.smodePool = s.smodePool := by rw [hs1, Sys.smodePool_setUsedPageCount]
  have hstart : s1.poolStart .smode = s.poolStart .smode := by
    rw [hs1, Sys.poolStart_setUsedPageCount]
  have hleaf := Sys.leaf_of_eq hmem hroot
  have hrange := Sys.tableRange_of_eq hroot hpool hstart
  have h1 : UserInv s1 := by
    refine ⟨h.inv.of_eq hmem hroot hpool hstart, fun x hx pte => ?_, fun x hx l pte hl => ?_⟩
    · rw [hleaf]
      exact h.no_giga x hx pte
    · rw [hleaf] at hl
      exact (FrameOk.congr hrange).mpr (h.frames x hx l pte hl)
  have hok1 := fun i hi => (MapOk.congr hrange).mpr (hok i hi)
  obtain ⟨h2, h3⟩ := h1.mapRange hf Level.noConfusion hok1 hr
  exact ⟨h2, SupFrame.trans ⟨hrange, fun x _ => hleaf x⟩ h3⟩

theorem UserInv.mapTail {s s1 s' : Sys} {elfPaddr : ℕ} {ph : Phdr} {rs rs' : List SmReply}
    (hok : SegmentOk s elfPaddr ph rs) (h : UserInv s1) (hfr : SupFrame s s1)
    (htop : s1.getPoolTop .umode = s.getPoolTop .umode) (hlt : ph.pFilesz < ph.pMemsz)
    (hr : s1.mapTail ph rs = .ok (s', rs')) : UserInv s' ∧ SupFrame s1 s' := by
  unfold Sys.mapTail at hr
  by_cases hd : ph.sizeDiff < 0x200000
  · rw [if_pos hd] at hr
    obtain ⟨s2, hr1, hr2⟩ := Res.bind_ok hr
    cases hr2
    refine h.mapPoolTail hok.perm (fun i hi => ?_) hr1
    rw [htop]
    exact (MapOk.congr hfr.range).mpr (hok.pool hlt hd i hi)
  · rw [if_neg hd] at hr
    have hge := Nat.le_of_not_lt hd
    obtain ⟨⟨s2, rs2⟩, hr1, hr2⟩ := Res.bind_ok hr
    -- the pages up to the partition boundary
    have hgap : UserInv s2 ∧ SupFrame s1 s2 ∧ rs2 = if ph.gap = 0 then rs else rs.tail := by
      unfold Sys.mapGap at hr1
      by_cases h0 : ph.gap = 0
      · rw [if_pos h0] at hr1 ⊢
        cases hr1
        exact ⟨h, SupFrame.refl _, rfl⟩
      · rw [if_neg h0] at hr1 ⊢
        cases rs with
        | nil => cases hr1
        | cons r rest =>
          obtain ⟨s3, hr3, hr4⟩ := Res.bind_ok hr1
          cases hr4
          have hgap := fun i hi => (MapOk.congr hfr.range).mpr (hok.gap hlt hge r _ rfl i hi)
          obtain ⟨h1, h2⟩ := h.mapRange hok.perm Level.noConfusion hgap hr3
          exact ⟨h1, h2, rfl⟩
    obtain ⟨h1, h2, rfl⟩ := hgap
    obtain ⟨hr3, -⟩ := Sys.mapPartitions_ok hr2
    have hpart := fun va pa hm => (MapOk.congr (hfr.trans h2).range).mpr
      (hok.partitions hlt hge va pa hm)
    obtain ⟨h3, h4⟩ := h1.execCalls hok.perm hpart hr3
    exact ⟨h3, h2.trans h4⟩

/-- **One segment.** -/
theorem UserInv.mapSegment {s s' : Sys} {elfPaddr : ℕ} {ph : Phdr} {rs rs' : List SmReply}
    (h : UserInv s) (hok : SegmentOk s elfPaddr ph rs)
    (hr : s.mapSegment elfPaddr ph rs = .ok (s', rs')) : UserInv s' ∧ SupFrame s s' := by
  unfold Sys.mapSegment at hr
  obtain ⟨s1, hr1, hr2⟩ := Res.bind_ok hr
  obtain ⟨h1, h2⟩ := h.mapRange hok.perm (by simp) hok.file hr1
  have htop := (Sys.mapRange_rest hr1).getPoolTop
  by_cases hlt : ph.pFilesz < ph.pMemsz
  · rw [if_pos hlt] at hr2
    obtain ⟨⟨s2, rs2⟩, hr3, hr4⟩ := Res.bind_ok hr2
    obtain ⟨s3, hr5, hr6⟩ := Res.bind_ok hr4
    cases hr6
    obtain ⟨h3, h4⟩ := UserInv.mapTail hok h1 h2 htop hlt hr3
    obtain ⟨h5, h6⟩ := h3.memset (hok.zero hlt) hr5
    exact ⟨h5, (h2.trans h4).trans h6⟩
  · rw [if_neg hlt] at hr2
    cases hr2
    exact ⟨h1, h2⟩

/-- Every `PT_LOAD` header that the loop comes to, from header `i`, keeps to it. -/
def HeadersOk (elfPaddr phdr : ℕ) : Sys → List SmReply → ℕ → ℕ → Prop
  | _, _, 0, _ => True
  | s, rs, fuel + 1, i => i < ePhnum s.mem elfPaddr →
    ((s.phdrAt phdr i).pType = 1 → SegmentOk s elfPaddr (s.phdrAt phdr i) rs) ∧
    ∀ s' rs', s.mapHeader elfPaddr phdr i rs = .ok (s', rs') →
      HeadersOk elfPaddr phdr s' rs' fuel (i + 1)

theorem UserInv.mapElfLoop {elfPaddr phdr fuel i : ℕ} {s s' : Sys} {rs rs' : List SmReply}
    (h : UserInv s) (hok : HeadersOk elfPaddr phdr s rs fuel i)
    (hr : s.mapElfLoop elfPaddr phdr rs fuel i = .ok (s', rs')) : UserInv s' ∧ SupFrame s s' := by
  induction fuel generalizing s rs i with
  | zero =>
    cases hr
    exact ⟨h, SupFrame.refl _⟩
  | succ fuel ih =>
    rw [Sys.mapElfLoop] at hr
    by_cases hi : i < ePhnum s.mem elfPaddr
    · rw [if_pos hi] at hr
      obtain ⟨⟨s1, rs1⟩, hr1, hr2⟩ := Res.bind_ok hr
      obtain ⟨hseg, hnext⟩ := hok hi
      have h1 : UserInv s1 ∧ SupFrame s s1 := by
        have hr1' := hr1
        unfold Sys.mapHeader at hr1'
        split at hr1'
        · cases hr1'
          exact ⟨h, SupFrame.refl _⟩
        · rename_i hpt
          exact h.mapSegment (hseg (by simpa using hpt)) hr1'
      obtain ⟨h2, h3⟩ := ih h1.1 (hnext s1 rs1 hr1) hr2
      exact ⟨h2, h1.2.trans h3⟩
    · rw [if_neg hi] at hr
      cases hr
      exact ⟨h, SupFrame.refl _⟩

/-- One page of code, at `0x10000`. -/
def codeHeader : Phdr := ⟨1, 5, 0, 0x10000, 0x78, 0x78⟩
@[inherit_doc codeHeader] def codeImage : List UInt8 := headerImage [codeHeader]

/-- The small state with an image at `0x300000`. -/
def imageBoot (img : List UInt8) : Sys := Sys.smallBoot.withImage 0x300000 img

theorem imageBoot_range (img : List UInt8) {x : ℕ} (h : (imageBoot img).TableRange x) : x < 0x110000 := by
  simp only [Sys.TableRange, imageBoot, Sys.withImage, Sys.smallBoot, Sys.blank, Sys.poolStart,
    Sys.getEmodManagerPaStart, add64, ne_eq, not_true_eq_false, if_false] at h
  omega

theorem imageBoot_inv (img : List UInt8) :
    PtInv (imageBoot img) ∧ ∀ x, (imageBoot img).leaf x = none := by
  have hr : ∀ x, Sys.smallBoot.TableRange x → (imageBoot img).mem x = Sys.smallBoot.mem x :=
    fun x hx => if_neg fun hc => by
      have := imageBoot_range img hx
      omega
  obtain ⟨h1, h2⟩ := Sys.smallBoot_inv.1.of_mem rfl hr
  exact ⟨h1, fun x => (h2 x).trans (Sys.smallBoot_inv.2 x)⟩

theorem imageBoot_user (img : List UInt8) : UserInv (imageBoot img) := by
  obtain ⟨h1, h2⟩ := imageBoot_inv img
  refine ⟨h1, fun x _ pte hl => ?_, fun x _ l pte hl => ?_⟩ <;> simp [h2 x] at hl

theorem headersOk_done {elfPaddr phdr fuel i : ℕ} {s : Sys} {rs : List SmReply}
    (h : ePhnum s.mem elfPaddr ≤ i) : HeadersOk elfPaddr phdr s rs fuel i := by
  cases fuel with
  | zero => trivial
  | succ fuel => exact fun hi => absurd hi (by omega)

theorem codeBoot_segment :
    SegmentOk (imageBoot codeImage) 0x300000 codeHeader [] := by
  have hlt : ¬ codeHeader.pFilesz < codeHeader.pMemsz := by decide
  refine ⟨by unfold HasPerm; decide, fun i hi => ?_, fun h => absurd h hlt, fun h => absurd h hlt,
    fun h => absurd h hlt, fun h => absurd h hlt⟩
  have h0 : i = 0 := by
    have : codeHeader.filePages = 1 := by decide
    omega
  subst h0
  refine ⟨by decide, fun y h1 _ h3 => ?_⟩
  have h4 : 0x1000 * 0x300 ≤ y := h1
  have h5 := imageBoot_range _ h3
  omega

theorem codeBoot_headers :
    HeadersOk 0x300000 (0x300000 + ePhoff (imageBoot codeImage).mem 0x300000) (imageBoot codeImage) []
      Sys.headerRounds 0 := by
  have hph : (imageBoot codeImage).phdrAt
      (0x300000 + ePhoff (imageBoot codeImage).mem 0x300000) 0 = codeHeader := by
    decide +kernel
  have hrun : ((imageBoot codeImage).mapHeader 0x300000
      (0x300000 + ePhoff (imageBoot codeImage).mem 0x300000) 0 []).toOption.map
      (fun r => ePhnum r.1.mem 0x300000) = some 1 := by
    decide +kernel
  refine fun _ => ⟨fun _ => ?_, fun s' rs' hr => headersOk_done ?_⟩
  · rw [hph]
    exact codeBoot_segment
  · rw [hr] at hrun
    simp only [Except.toOption, Option.map_some, Option.some.injEq] at hrun
    omega

/-- One page of code, at `EMOD_MANAGER_VA_START`. -/
def managerHeader : Phdr := ⟨1, 5, 0, 0xffffffe000000000, 0x78, 0x78⟩

/-- The state with that image and the first page of the manager mapped `R|W|X` for
the supervisor. -/
def managerBoot : Res Sys :=
  (imageBoot (headerImage [managerHeader])).mapPage 0xffffffe000000000 0x400000 (pteV + pteR + pteW + pteX) .page

/-- The first page of the manager: its frame, and whether it is the user's. -/
def Sys.managerPage (s : Sys) : ℕ × Option Bool :=
  ((s.getPa 0xffffffe000000000).2, (s.leaf 0xffffffe000000000).map fun l => l.2.u)

end Coffer
