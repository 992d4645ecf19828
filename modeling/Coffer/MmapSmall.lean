/-
# Small pages for a region

`alloc_small_page` takes pages from the blocks of `free_page`, and if they do not suffice a
partition from the security monitor, of which the rest becomes a block. When the list is used up
and the partition has no rest, the code goes on to the head of the empty list. That takes a
request for all the pages of a partition and no page on the list.

`allocSmallPage_iff`: in every other case the call returns, if only there are pages for the tables,
with as many new pages as asked for, readable and writable for the user, at the frames of listed
pages and of the new partition.
-/
import Coffer.MmapFrames

namespace Coffer

open Lib

/-- What the call finds: the listed pages are mapped to the distinct frames `F`, which come from
grants; the area above the top is free and large enough; and the monitor grants a partition that
it has not granted before. -/
structure SmallEnv (st : MmapState) (F : List ℕ) (r : SmReply) (num : ℕ) : Prop where
  holds : Holds st.sys.TableRange st.sys st.mmapTop (st.freePage.flatMap blockPages) F
  nodup : F.Nodup
  source : ∀ f ∈ F, f ∈ grantFrames st.granted
  granted : ¬ r.Refused
  log : FreshLog st.sys.TableRange ((r.paddr, 1) :: st.granted)
  room : st.mmapTop + 0x1000 * num + 0x200000 ≤ poolVaStart

/-- What the call delivers: `num` pages from `mem`, all for the user to read and write, with distinct
frames, each from the list or from the partition; and what is left of both is on the list. -/
structure SmallOk (st st' : MmapState) (F : List ℕ) (r : SmReply) (num mem : ℕ) : Prop where
  maps : ∀ x, mem ≤ x → x < mem + 0x1000 * num → ∃ pa, st'.sys.Maps mmapFlags x pa
  distinct : ((pagesFrom mem num).map st'.sys.frameOf).Nodup
  taken : ∀ p ∈ pagesFrom mem num, ∃ f, st'.sys.frameOf p = some f ∧
    (f ∈ F ∨ f ∈ grantFrames [(r.paddr, 1)])
  rest : ∃ new, (new = [] ∨ new = [(r.paddr, 1)]) ∧ st'.granted = new ++ st.granted ∧
    ((pagesFrom mem num ++ st'.freePage.flatMap blockPages).map st'.sys.frameOf).Perm
      ((grantFrames new ++ F).map some)

namespace MmapState

variable {T : ℕ → Prop} {st st' : MmapState} {rs rs' : List SmReply} {H F : List ℕ} {num : ℕ}

/-! ### The loop returns -/

theorem smallLoop_empty {free : List (ℕ × ℕ)} (h : freeCount free = 0) (hn : num ≠ 0) :
    smallLoop rs free st num = st.smallFromPartition num rs := by
  induction free with
  | nil => rw [smallLoop, if_neg hn]
  | cons b free ih =>
    obtain ⟨va, count⟩ := b
    simp only [freeCount, List.map_cons, List.sum_cons] at h
    have hc : count = 0 := by omega
    subst hc
    rw [smallLoop, if_neg hn, if_pos (Nat.zero_le _), recyclePages, Res.ok_bind, Nat.sub_zero]
    exact ih (by rw [freeCount]; omega)

/-- `num` pages from `top` are for the user, what is below is as before, and at most the
partition of `r` has been granted. -/
structure Grown (top num : ℕ) (r : SmReply) (st st' : MmapState) : Prop where
  user : st'.sys.UserRange top (top + 0x1000 * num)
  leaf : ∀ x < top, st'.sys.leaf x = st.sys.leaf x
  granted : st'.granted = st.granted ∨ st'.granted = (r.paddr, 1) :: st.granted

theorem Grown.none (r : SmReply) (st : MmapState) (free : List (ℕ × ℕ)) (rs : List SmReply) (c : ℕ) :
    Served st.sys c (.ok ({ st with freePage := free }, rs)) (fun p => p.1.sys)
      fun p => Grown st.mmapTop 0 r st p.1 := by
  have hg : Grown st.mmapTop 0 r st { st with freePage := free } :=
    ⟨fun x h1 h2 => by omega, fun _ _ => rfl, Or.inl rfl⟩
  exact Or.inl ⟨_, rfl, hg, fun k hk => hk.mono (Nat.le_add_left k c)⟩

theorem Grown.trans {st₁ st₂ : MmapState} {top m n : ℕ} {r : SmReply} (h : Grown top m r st st₁)
    (hg : st₁.granted = st.granted) (h' : Grown (top + 0x1000 * m) n r st₁ st₂) :
    Grown top (m + n) r st st₂ := by
  refine ⟨?_, fun x hx => (h'.leaf x (by omega)).trans (h.leaf x hx), hg ▸ h'.granted⟩
  rw [Nat.mul_add, ← Nat.add_assoc]
  exact (h.user.of_leaf fun x _ hx => h'.leaf x hx).append h'.user

theorem smallFromPartition_served {r : SmReply} (rs : List SmReply) (h : Holds T st.sys st.mmapTop H F)
    (hlog : FreshLog T [(r.paddr, 1)]) (hgr : ¬ r.Refused)
    (hlt : st.mmapTop + 0x200000 ≤ poolVaStart) (hnum : num < 512) :
    Served st.sys 1024 (st.smallFromPartition num (r :: rs)) (fun p => p.1.sys)
      fun p => Grown st.mmapTop num r st p.1 := by
  have hpool := poolVaStart_eq
  have hal := h.aligned
  have hral : r.paddr % 0x200000 = 0 := hlog.aligned _ List.mem_cons_self
  have hfit : r.paddr + 0x200000 * 1 ≤ 2 ^ 44 := hlog.fits _ List.mem_cons_self
  have hsz : Level.page.size * 512 = 0x200000 := rfl
  rw [smallFromPartition]
  refine (Sys.mapRange_served st.sys _ _ _ 512 .page).bind (d := 0) fun s hr _ => ?_
  have hm := Sys.mapRange_mapped h.inv (by simp only [Level.size]; omega)
    (by simp only [Level.size]; omega) hasPerm_mmapFlags (by rw [hsz]; omega) (by rw [hsz]; omega)
    (fun x h1 h2 => h.free x h1 (by rw [hsz] at h2; omega)) hr
  rw [hsz] at hm
  rw [if_pos hnum]
  refine Served.pure ⟨fun x h1 h2 => ⟨_, hm.maps x h1 (by omega)⟩, fun x hx => ?_, Or.inr ?_⟩ rfl
  · exact hm.leaf x (by omega) (by omega)
  · simp only [if_neg hgr]

theorem recyclePages_grown {va n : ℕ} (r : SmReply)
    (h : Holds T st.sys st.mmapTop (blockPages (va, n) ++ H) F) (hF : Usable T F)
    (hlt : st.mmapTop + 0x1000 * n ≤ poolVaStart) (hr : st.recyclePages va n = .ok st') :
    Grown st.mmapTop n r st st' := by
  have hpool := poolVaStart_eq
  obtain ⟨h1, -⟩ := recyclePages_new rfl h hF hlt hr
  obtain ⟨-, -, hg, -⟩ := recyclePages_holds h hF hlt hr
  exact ⟨h1.user, fun x hx => h1.leaf x (by omega) (by omega), Or.inl hg⟩

theorem blockPages_take {va count : ℕ} (h : Holds T st.sys st.mmapTop (blockPages (va, count) ++ H) F)
    (hle : num ≤ count) :
    ∃ H', Holds T st.sys st.mmapTop (blockPages (va, num) ++ H') F := by
  refine ⟨pagesFrom (pageDown va + 0x1000 * num) (count - num) ++ H, ?_⟩
  rw [← List.append_assoc, blockPages, ← pagesFrom_add, Nat.add_sub_of_le hle]
  exact h

/-- The loop returns, unless it is to take a whole partition or the pool is out of pages. -/
theorem smallLoop_served {free : List (ℕ × ℕ)} {r : SmReply} (rs : List SmReply)
    (h : Holds T st.sys st.mmapTop (free.flatMap blockPages ++ H) F) (hF : Usable T F)
    (hlog : FreshLog T [(r.paddr, 1)]) (hgr : ¬ r.Refused)
    (hlt : st.mmapTop + 0x1000 * num + 0x200000 ≤ poolVaStart)
    (hnum : num < 512 ∨ (num = 512 ∧ freeCount free ≠ 0)) :
    Served st.sys (2 * num + 1024) (smallLoop (r :: rs) free st num) (fun p => p.1.sys)
      fun p => Grown st.mmapTop num r st p.1 := by
  induction free generalizing st num H with
  | nil =>
    rw [smallLoop]
    split
    · rename_i h0
      subst h0
      exact Grown.none r st _ _ _
    · have hnum' : num < 512 := hnum.resolve_right fun hc => hc.2 rfl
      exact (smallFromPartition_served rs h hlog hgr (by omega) hnum').mono (by omega) fun _ => id
  | cons b free ih =>
    obtain ⟨va, count⟩ := b
    rw [List.flatMap_cons, List.append_assoc] at h
    rw [smallLoop]
    split
    · rename_i h0
      subst h0
      exact Grown.none r st _ _ _
    split
    · rename_i hle
      have hcost : 2 * count + (2 * (num - count) + 1024) ≤ 2 * num + 1024 := by
        rw [← Nat.add_assoc, ← Nat.mul_add, Nat.add_sub_of_le hle]
      refine ((recyclePages_served rfl h hF (by omega)).bind fun st1 hr1 _ => ?_).mono hcost
        fun _ => id
      obtain ⟨h1, htop, hg1, -⟩ := recyclePages_holds h hF (by omega) hr1
      have h2 : Holds T st1.sys st1.mmapTop
          (free.flatMap blockPages ++ (pagesFrom st.mmapTop count ++ H)) F := by
        refine h1.perm ?_
        rw [← List.append_assoc, ← List.append_assoc]
        exact List.Perm.append_right H List.perm_append_comm
      -- a block with a page makes the request smaller than a partition
      have hnum' : num - count < 512 ∨ (num - count = 512 ∧ freeCount free ≠ 0) := by
        simp only [freeCount, List.map_cons, List.sum_cons] at hnum ⊢
        omega
      have hend : st1.mmapTop + 0x1000 * (num - count) = st.mmapTop + 0x1000 * num := by
        rw [htop, Nat.add_assoc, ← Nat.mul_add, Nat.add_sub_of_le hle]
      refine (ih h2 (by rw [hend]; exact hlt) hnum').mono (le_refl _) fun p hp => ?_
      have hsum := (recyclePages_grown r h hF (by omega) hr1).trans hg1 (htop ▸ hp)
      rwa [Nat.add_sub_of_le hle] at hsum
    · rename_i hle
      obtain ⟨H', h'⟩ := blockPages_take h (show num ≤ count by omega)
      refine ((recyclePages_served rfl h' hF (by omega)).bind (d := 0) fun st1 hr1 _ => ?_).mono
        (by omega) fun _ => id
      obtain ⟨hu, hl, hg⟩ := recyclePages_grown r h' hF (by omega) hr1
      exact Served.pure ⟨hu, hl, hg⟩ rfl

end MmapState

/-! ### When the call delivers -/

/-- The frames of the list and of the partition are distinct. -/
theorem SmallEnv.frames_nodup {st : MmapState} {F : List ℕ} {r : SmReply} {num : ℕ}
    (h : SmallEnv st F r num) {new : List (ℕ × ℕ)} (hnew : new = [] ∨ new = [(r.paddr, 1)]) :
    (grantFrames new ++ F).Nodup := by
  rcases hnew with rfl | rfl
  · exact h.nodup
  · have h1 : (grantFrames ([(r.paddr, 1)] ++ st.granted)).Nodup := h.log.nodup
    rw [grantFrames_append, List.nodup_append] at h1
    rw [List.nodup_append]
    exact ⟨h1.1, h.nodup, fun f hf f' hf' => h1.2.2 f hf f' (h.source f' hf')⟩

theorem SmallEnv.smallOk {st st' : MmapState} {F : List ℕ} {r : SmReply} {num : ℕ}
    {new : List (ℕ × ℕ)} (h : SmallEnv st F r num) (hnew : new = [] ∨ new = [(r.paddr, 1)])
    (hg : st'.granted = new ++ st.granted)
    (hu : st'.sys.UserRange st.mmapTop (st.mmapTop + 0x1000 * num))
    (hf : ((pagesFrom st.mmapTop num ++ st'.freePage.flatMap blockPages).map st'.sys.frameOf).Perm
      ((grantFrames new ++ F).map some)) : SmallOk st st' F r num st.mmapTop := by
  have hnd : ((grantFrames new ++ F).map some).Nodup :=
    (h.frames_nodup hnew).map (Option.some_injective _)
  refine ⟨hu, ?_, fun p hp => ?_, new, hnew, hg, hf⟩
  · have h1 := hf.nodup_iff.mpr hnd
    rw [List.map_append] at h1
    exact (List.nodup_append.mp h1).1
  · have h1 : st'.sys.frameOf p ∈ (grantFrames new ++ F).map some :=
      hf.subset (List.mem_map_of_mem (List.mem_append_left _ hp))
    obtain ⟨f, hf1, hf2⟩ := List.mem_map.mp h1
    refine ⟨f, hf2.symm, ?_⟩
    rcases List.mem_append.mp hf1 with h2 | h2
    · rcases hnew with rfl | rfl
      · exact absurd h2 List.not_mem_nil
      · exact Or.inr h2
    · exact Or.inl h2

/-- **`alloc_small_page` delivers.** Unless the pool is out of pages for tables, exactly when the
request is not for a whole partition with no page on the list: the call then returns, and its
pages are as specified. -/
theorem MmapState.allocSmallPage_iff {st : MmapState} {F : List ℕ} {r : SmReply} {num : ℕ}
    (rs : List SmReply) (h : SmallEnv st F r num) (hpos : 1 ≤ num) (hle : num ≤ 512)
    (hpool : st.allocSmallPage num (r :: rs) ≠ .error poolPanic) :
    (∃ mem st' rs', st.allocSmallPage num (r :: rs) = .ok (mem, st', rs') ∧
        SmallOk st st' F r num mem) ↔
      ¬ (num = 512 ∧ freeCount st.freePage = 0) := by
  have hlog : FreshLog st.sys.TableRange [(r.paddr, 1)] :=
    h.log.of_sublist (List.Sublist.cons_cons _ (List.nil_sublist _))
  have hF : Usable st.sys.TableRange F := fun f hf =>
    (h.log.of_sublist (List.sublist_cons_self _ _)).frame (h.source f hf)
  rw [allocSmallPage, if_neg (by omega)] at hpool ⊢
  constructor
  · rintro ⟨mem, st', rs', hr, -⟩ ⟨rfl, hc⟩
    obtain ⟨⟨st1, rs1⟩, hr1, -⟩ := Res.bind_ok hr
    rw [smallLoop_empty hc (by omega), smallFromPartition] at hr1
    obtain ⟨sys, -, hr2⟩ := Res.bind_ok hr1
    rw [if_neg (by omega)] at hr2
    cases hr2
  · intro hc
    have hnum : num < 512 ∨ (num = 512 ∧ freeCount st.freePage ≠ 0) := by omega
    have hholds := h.holds
    rw [← List.append_nil (st.freePage.flatMap blockPages)] at hholds
    have hne : smallLoop (r :: rs) st.freePage st num ≠ .error poolPanic := fun hp => by
      rw [hp] at hpool
      exact hpool rfl
    obtain ⟨⟨st', rs'⟩, hr, hu, -, hg⟩ :=
      (smallLoop_served rs hholds hF hlog h.granted h.room hnum).of_ne hne
    refine ⟨st.mmapTop, st', rs', by rw [hr, Res.ok_bind], ?_⟩
    have hlog' : FreshLog st.sys.TableRange st'.granted := by
      rcases hg with hg | hg
      · rw [hg]
        exact h.log.of_sublist (List.sublist_cons_self _ _)
      · rw [hg]
        exact h.log
    have hfirst : FirstGranted (r :: rs) := h.granted
    obtain ⟨new, hnew, -, h1⟩ := smallLoop_holds hholds hF hlog' h.room (Or.inr hfirst) hr
    have hnew' : new = [] ∨ new = [(r.paddr, 1)] := by
      rcases hg with hg | hg
      · exact Or.inl (List.append_left_eq_self.mp (hnew.symm.trans hg))
      · exact Or.inr (List.append_cancel_right (hnew.symm.trans hg))
    rw [List.append_nil] at h1
    exact h.smallOk hnew' hnew hu h1.frames

theorem SmallEnv.boot (num : ℕ) (hle : num ≤ 512) :
    SmallEnv (MmapState.init Sys.wideBoot) [] ⟨0, 0x90000000⟩ num where
  holds := (Tracks.init Sys.wideBoot_inv.1 fun x _ _ => Sys.wideBoot_inv.2 x).holds
  nodup := List.nodup_nil
  source := fun f hf => absurd hf List.not_mem_nil
  granted := by decide
  log := freshLog_partition (by norm_num) (by norm_num) fun x hx => lt_trans (Sys.wideBoot_range hx)
    (by norm_num)
  room := by
    have hpool := poolVaStart_eq
    have htop : (MmapState.init Sys.wideBoot).mmapTop = 0x1000000000 := rfl
    omega

theorem MmapState.allocSmallPage_iff_two :
    SmallEnv (init Sys.wideBoot) [] ⟨0, 0x90000000⟩ 2 ∧
      ∃ mem st' rs', (init Sys.wideBoot).allocSmallPage 2 [⟨0, 0x90000000⟩] = .ok (mem, st', rs') ∧
        SmallOk (init Sys.wideBoot) st' [] ⟨0, 0x90000000⟩ 2 mem := by
  refine ⟨SmallEnv.boot 2 (by norm_num), (allocSmallPage_iff [] (SmallEnv.boot 2 (by norm_num))
    (by norm_num) (by norm_num) fun hp => ?_).mpr (by decide)⟩
  obtain ⟨s, hr, -⟩ := Sys.wideBoot_partition 0x90000000
  have hr' : (init Sys.wideBoot).sys.mapRange (init Sys.wideBoot).mmapTop 0x90000000 mmapFlags .page
    512 = .ok s := hr
  rw [allocSmallPage, if_neg (by norm_num), smallLoop_empty rfl (by norm_num), smallFromPartition, hr',
    Res.ok_bind, if_pos (by norm_num)] at hp
  cases hp

/-- The first region is of one byte less than a partition: the code reads through `NULL`. -/
theorem MmapState.wholePartition_faults :
    SmallEnv (init Sys.wideBoot) [] ⟨0, 0x90000000⟩ 512 ∧
      (init Sys.wideBoot).allocSmallPage 512 [⟨0, 0x90000000⟩] = .error (.fault 16) ∧
      (init Sys.wideBoot).call [⟨0, 0x90000000⟩] (.mmap 0 0x1fffff 3 0x22 (2 ^ 32 - 1) 0) =
        .error (.fault 16) := by
  have halloc : (init Sys.wideBoot).allocSmallPage 512 [⟨0, 0x90000000⟩] = .error (.fault 16) := by
    obtain ⟨s, hr, -⟩ := Sys.wideBoot_partition 0x90000000
    have hr' : (init Sys.wideBoot).sys.mapRange (init Sys.wideBoot).mmapTop 0x90000000 mmapFlags .page
      512 = .ok s := hr
    rw [allocSmallPage, if_neg (by norm_num), smallLoop_empty rfl (by norm_num), smallFromPartition,
      hr', Res.ok_bind, if_neg (by norm_num)]
    rfl
  refine ⟨SmallEnv.boot 512 (le_refl _), halloc, ?_⟩
  have hnum : pageUp 0x1fffff / 0x1000 = 512 := by decide
  rw [call, mmap, if_neg (by norm_num), if_neg (by decide), if_neg (by simp), allocRegion,
    if_neg (by norm_num), hnum, halloc]
  rfl

end Coffer
