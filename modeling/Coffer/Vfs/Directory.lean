/-
# Listing a directory

`getdents` reads entries one by one through `readdir_r`; the position in the directory is the
`f_offset` of the descriptor, and every entry is found by going through the children again. The
loop of `syscall_handler_getdents` compares the number of records it has written with the size of
the buffer in bytes.

A directory with its descriptor (`DirFd`) lists as `.`, `..` and its children (`listing`).
`DirFd.getdents_eq` says what one call writes; the offset is an `off_t` and ends the listing where
it wraps (`shown`). `getdents_iff`: in a run of calls no buffer overflows and the listing is
complete exactly if every call has room for all records that are left.

Key definitions: `listing`, `DirFd`, `listStep`, `Listed`, `Fits`.
-/
import Coffer.Vfs.Descriptors

namespace Coffer

open Lib Lib.Cmd

namespace Fs

variable {count : BitVec 64} {o : ℕ} {st : List Dirent × Fs}

/-! ### The listing -/

/-- The record of the child `i` of a directory. -/
def direntOf (i : ℕ) (np : RamNode) : Dirent := ⟨i + 2, np.rnType, np.rnName.take 255⟩

/-- A directory as it is to be listed: `.`, `..` and the children in their order. -/
def listing (kids : List RamNode) : List Dirent :=
  ⟨0, .dir, ['.']⟩ :: ⟨1, .dir, ['.', '.']⟩ :: kids.mapIdx direntOf

/-- The part of a listing that has an offset. -/
def shown (kids : List RamNode) : List Dirent := (listing kids).take (2 ^ 63)

/-- The record `ramfs_readdir` finds at an offset. -/
def readAt (kids : List RamNode) (off : ℤ) : Option Dirent :=
  if off = 0 then some ⟨off, .dir, ['.']⟩
  else if off = 1 then some ⟨off, .dir, ['.', '.']⟩
  else if off < 2 then none
  else kids[(off - 2).toNat]?.map fun np => ⟨off, np.rnType, np.rnName.take 255⟩

theorem readAt_nat (kids : List RamNode) (o : ℕ) : readAt kids o = (listing kids)[o]? := by
  rcases o with _ | _ | o
  · rfl
  · rfl
  · have h0 : ((o + 1 + 1 : ℕ) : ℤ) ≠ 0 := by omega
    have h1 : ((o + 1 + 1 : ℕ) : ℤ) ≠ 1 := by omega
    have h2 : ¬ ((o + 1 + 1 : ℕ) : ℤ) < 2 := by omega
    have hi : (((o + 1 + 1 : ℕ) : ℤ) - 2).toNat = o := by omega
    rw [readAt, if_neg h0, if_neg h1, if_neg h2, hi]
    simp only [listing, List.getElem?_cons_succ, List.getElem?_mapIdx]
    rcases kids[o]? with _ | np
    · rfl
    · simp only [Option.map_some, direntOf, Option.some.injEq, Dirent.mk.injEq, and_true]
      omega

theorem readAt_toOff (kids : List RamNode) (h : o ≤ 2 ^ 63) : readAt kids (toOff o) = (shown kids)[o]? := by
  rcases Nat.lt_or_ge o (2 ^ 63) with hlt | hge
  · rw [toOff_eq (by omega) (by omega), readAt_nat, shown, List.getElem?_take_of_lt hlt]
  · -- the offset has wrapped
    have hneg : toOff o < 0 := by
      unfold toOff
      omega
    have h0 : toOff o ≠ 0 := by omega
    have h1 : toOff o ≠ 1 := by omega
    rw [readAt, if_neg h0, if_neg h1, if_pos (by omega), shown, List.getElem?_take, if_neg (by omega)]

theorem toOff_succ (o : ℕ) : toOff (toOff o + 1) = toOff (o + 1 : ℕ) := by
  unfold toOff
  omega

/-! ### A directory and its descriptor -/

end Fs

namespace VFile

/-- The object with another `f_offset`. -/
def withOffset (x : VFile) (off : ℤ) : VFile := { x with fOffset := off }

variable (x : VFile) (off : ℤ)

theorem withOffset_fDentry : (x.withOffset off).fDentry = x.fDentry := rfl

theorem withOffset_fCount : (x.withOffset off).fCount = x.fCount := rfl

theorem withOffset_fOffset : (x.withOffset off).fOffset = off := rfl

theorem withOffset_withOffset (off' : ℤ) : (x.withOffset off).withOffset off' = x.withOffset off' := rfl

theorem hold_withOffset : Fs.hold (x.withOffset off) = (Fs.hold x).withOffset off := rfl

theorem withOffset_self (h : x.fOffset = off) : x.withOffset off = x := by
  subst h
  rfl

end VFile

namespace Fs

/-- An open directory: the file object, its dentry and vnode, the node and its children. -/
structure DirFd (s : Fs) (fd : ℤ) where
  f : ℕ
  x : VFile
  d : ℕ
  y : Dentry
  v : Vnode
  n : RamNode
  kids : List RamNode
  opened : Opened s fd f x
  dentry : x.fDentry = some d
  hd : s.dentries d = some y
  hv : s.vnodes y.dVnode = some v
  dir : v.vType = .dir
  hn : s.nodes v.vData = some n
  hkids : n.rnChild.map s.nodes = kids.map some

/-- `ramfs_readdir` on a directory whose children are there. -/
theorem ramfsReaddir_eq {s : Fs} {n : RamNode} {kids : List RamNode}
    (hkids : ∀ i : ℕ, kids[i]? = (n.rnChild[i]?).bind s.nodes) (hall : ∀ c ∈ n.rnChild, (s.nodes c).isSome)
    (f : ℕ) (x : VFile) :
    ramfsReaddir f x n s =
      match readAt kids x.fOffset with
      | none => .ok (.error .enoent, s)
      | some entry => .ok (.ok entry, s.setFile f (x.withOffset (toOff (x.fOffset + 1)))) := by
  unfold ramfsReaddir readAt
  by_cases h0 : x.fOffset = 0
  · rw [if_pos h0, if_pos h0]
    rfl
  rw [if_neg h0, if_neg h0]
  by_cases h1 : x.fOffset = 1
  · rw [if_pos h1, if_pos h1]
    rfl
  rw [if_neg h1, if_neg h1]
  by_cases h2 : x.fOffset < 2
  · rw [if_pos h2, if_pos h2]
    rfl
  rw [if_neg h2, if_neg h2, hkids]
  rcases hc : n.rnChild[(x.fOffset - 2).toNat]? with _ | c
  · rfl
  · obtain ⟨np, hnp⟩ := Option.isSome_iff_exists.mp (hall c (List.mem_of_getElem? hc))
    simp only [Option.bind_some, hnp, Option.map_some]
    show ((getNode c >>= fun np => (pure (some ⟨x.fOffset, np.rnType, np.rnName.take 255⟩) :
      FsM (Option Dirent))) >>= _) s = _
    rw [bind_of_ok (show (getNode c >>= fun np => (pure (some ⟨x.fOffset, np.rnType, np.rnName.take 255⟩) :
      FsM (Option Dirent))) s = .ok (some ⟨x.fOffset, np.rnType, np.rnName.take 255⟩, s) from by
        rw [bind_of_ok (getNode_ok hnp)]
        rfl)]
    rfl

namespace DirFd

variable {s : Fs} {fd : ℤ} (D : DirFd s fd)

theorem child (i : ℕ) : D.kids[i]? = (D.n.rnChild[i]?).bind s.nodes := by
  have h := congrArg (fun l => l[i]?) D.hkids
  simp only [List.getElem?_map] at h
  rcases hc : D.n.rnChild[i]? with _ | c
  · rw [hc] at h
    simpa using h.symm
  · rw [hc] at h
    rcases hk : D.kids[i]? with _ | np
    · rw [hk] at h
      cases h
    · rw [hk] at h
      exact (Option.some.inj h).symm

theorem child_isSome {c : ℕ} (hc : c ∈ D.n.rnChild) : (s.nodes c).isSome := by
  have h : s.nodes c ∈ D.kids.map some := by
    rw [← D.hkids]
    exact List.mem_map_of_mem hc
  obtain ⟨np, -, hnp⟩ := List.mem_map.mp h
  rw [← hnp]
  rfl

/-- The object of the file at the record `o`. -/
def obj (o : ℕ) : VFile := D.x.withOffset (toOff o)

theorem obj_fDentry (o : ℕ) : (D.obj o).fDentry = some D.d := by
  rw [obj, VFile.withOffset_fDentry, D.dentry]

theorem obj_fCount (o : ℕ) : 1 ≤ (D.obj o).fCount := by
  rw [obj, VFile.withOffset_fCount]
  exact D.opened.count

theorem obj_fOffset (o : ℕ) : (D.obj o).fOffset = toOff o := by rw [obj, VFile.withOffset_fOffset]

/-- The object once the record has been read. -/
theorem obj_succ (o : ℕ) :
    (hold (D.obj o)).withOffset (toOff ((hold (D.obj o)).fOffset + 1)) = hold (D.obj (o + 1)) := by
  rw [hold_fOffset, obj_fOffset, toOff_succ, obj, obj, VFile.hold_withOffset, VFile.withOffset_withOffset,
    VFile.hold_withOffset]

/-- The state with `f_offset` at the record `o`. -/
def atRecord (o : ℕ) : Fs := s.setFile D.f (D.obj o)

theorem sysReaddir_at (ho : o ≤ 2 ^ 63) :
    sysReaddir D.f ((D.atRecord o).setFile D.f (hold (D.obj o))) =
      match (shown D.kids)[o]? with
      | none => .ok (.error .enoent, s.setFile D.f (hold (D.obj o)))
      | some entry => .ok (.ok entry, s.setFile D.f (hold (D.obj (o + 1)))) := by
  rw [atRecord, setFile_setFile, sysReaddir, bind_of_ok (getFile_ok (setFile_self ..))]
  simp only [hold_fDentry, obj_fDentry]
  have hv : vnodeOf D.d (s.setFile D.f (hold (D.obj o))) = .ok (D.v, s.setFile D.f (hold (D.obj o))) := by
    rw [vnodeOf, bind_of_ok (getDentry_ok (show (s.setFile D.f _).dentries D.d = some D.y from D.hd))]
    exact getVnode_ok D.hv
  rw [bind_of_ok hv, if_neg (not_not.mpr D.dir),
    bind_of_ok (getNode_ok (show (s.setFile D.f _).nodes D.v.vData = some D.n from D.hn))]
  refine (ramfsReaddir_eq (s := s.setFile D.f (hold (D.obj o))) D.child
    (fun c => D.child_isSome) D.f _).trans ?_
  have hat : readAt D.kids (hold (D.obj o)).fOffset = (shown D.kids)[o]? := by
    rw [hold_fOffset, obj_fOffset, readAt_toOff D.kids ho]
  rw [hat, D.obj_succ]
  rcases (shown D.kids)[o]? with _ | entry
  · rfl
  · simp only [setFile_setFile]

/-- `readdir_r`: the record at the position, which moves on. -/
theorem readdirR_at (ho : o ≤ 2 ^ 63) :
    readdirR fd (D.atRecord o) =
      match (shown D.kids)[o]? with
      | none => .ok (.ok none, D.atRecord o)
      | some entry => .ok (.ok (some entry), D.atRecord (o + 1)) := by
  have hop : Opened (D.atRecord o) fd D.f (D.obj o) := D.opened.setFile (D.obj_fCount o)
  have hr := D.sysReaddir_at ho
  unfold readdirR
  rcases he : (shown D.kids)[o]? with _ | entry
  · rw [he] at hr
    have hw := hop.withFile sysReaddir hr (setFile_self ..) (D.obj_fCount _)
    rw [setFile_setFile] at hw
    rw [bind_of_ok hw]
    rfl
  · rw [he] at hr
    have hw := hop.withFile sysReaddir hr (setFile_self ..) (D.obj_fCount _)
    rw [setFile_setFile] at hw
    rw [bind_of_ok hw]
    rfl

theorem shown_length_le (kids : List RamNode) : (shown kids).length ≤ 2 ^ 63 := by
  rw [shown, List.length_take]
  exact min_le_left _ _

/-- **What the loop of `getdents` writes**: the next records, until there is none or the count of them
is reached. -/
theorem getdentsLoop_at (n : ℕ) (entries : List Dirent) (ho : o ≤ (shown D.kids).length) :
    getdentsLoop fd n entries (D.atRecord o) =
      .ok (.ok (entries ++ ((shown D.kids).drop o).take n),
        D.atRecord (o + min n ((shown D.kids).length - o))) := by
  induction n generalizing entries o with
  | zero =>
    rw [List.take_zero, List.append_nil, Nat.zero_min, Nat.add_zero]
    rfl
  | succ n ih =>
    have hr := D.readdirR_at (ho.trans (shown_length_le _))
    rcases Nat.lt_or_ge o (shown D.kids).length with hlt | hge
    · rw [List.getElem?_eq_getElem hlt] at hr
      rw [getdentsLoop, bind_of_ok hr]
      have hmin : o + 1 + min n ((shown D.kids).length - (o + 1)) =
          o + min (n + 1) ((shown D.kids).length - o) := by omega
      have htake : entries ++ [(shown D.kids)[o]] ++ ((shown D.kids).drop (o + 1)).take n =
          entries ++ ((shown D.kids).drop o).take (n + 1) := by
        rw [List.drop_eq_getElem_cons hlt, List.take_succ_cons, List.append_assoc]
        rfl
      rw [← hmin, ← htake]
      exact ih _ hlt
    · rw [List.getElem?_eq_none hge] at hr
      rw [getdentsLoop, bind_of_ok hr, List.drop_eq_nil_of_le hge, List.take_nil, List.append_nil,
        Nat.sub_eq_zero_of_le hge, Nat.min_zero, Nat.add_zero]
      rfl

/-- `syscall_handler_getdents` at a record; with a count of 0 it writes nothing. -/
theorem getdents_at (count : ℕ) (ho : o ≤ (shown D.kids).length) :
    syscallHandlerGetdents fd true count (D.atRecord o) =
      .ok (.ok (((shown D.kids).drop o).take count), D.atRecord (o + min count ((shown D.kids).length - o))) := by
  unfold syscallHandlerGetdents
  by_cases h0 : count = 0
  · rw [if_pos (Or.inr h0), h0, List.take_zero, Nat.zero_min, Nat.add_zero]
    rfl
  · rw [if_neg (by simp [h0]), D.getdentsLoop_at count [] ho, List.nil_append]

end DirFd

/-! ### Runs -/

/-- One `getdents` of a run: the records it writes are put behind those of the calls before. -/
def listStep (fd : ℤ) (count : BitVec 64) : Cmd (List Dirent × Fs) FsFault (Except Errno (List Dirent)) := fun st =>
  match syscallHandlerGetdents fd true count.toNat st.2 with
  | .error e => .error e
  | .ok (.error e, s') => .ok (.error e, st.1, s')
  | .ok (.ok entries, s') => .ok (.ok entries, st.1 ++ entries, s')

/-- What a call is to do: it writes no more than `count` bytes, and if it returns 0 and had room for a
record, then the records so far are the directory. -/
def Listed (fd : ℤ) (kids : List RamNode) (count : BitVec 64) (st : List Dirent × Fs) : Prop :=
  ∃ entries st', listStep fd count st = .ok (.ok entries, st') ∧ entries.length * direntSize ≤ count.toNat ∧
    (toInt (entries.length * direntSize) = 0 → direntSize ≤ count.toNat → st'.1 = listing kids)

/-- The call has room for all records that are left, or none at all. -/
def Fits (kids : List RamNode) (count : BitVec 64) (st : List Dirent × Fs) : Prop :=
  count.toNat = 0 ∨ ((listing kids).length - st.1.length) * direntSize ≤ count.toNat

namespace DirFd

variable {s : Fs} {fd : ℤ} (D : DirFd s fd)

/-- The records so far are those before the position. A position that is not the first is that of a
directory whose records all have an offset. -/
def At (o : ℕ) (st : List Dirent × Fs) : Prop :=
  o ≤ (shown D.kids).length ∧ st = ((shown D.kids).take o, D.atRecord o) ∧
    (o = 0 ∨ shown D.kids = listing D.kids)

theorem listStep_at (count : BitVec 64) (ho : o ≤ (shown D.kids).length) :
    listStep fd count ((shown D.kids).take o, D.atRecord o) =
      .ok (.ok (((shown D.kids).drop o).take count.toNat),
        (shown D.kids).take (o + min count.toNat ((shown D.kids).length - o)),
        D.atRecord (o + min count.toNat ((shown D.kids).length - o))) := by
  have htake : (shown D.kids).take o ++ ((shown D.kids).drop o).take count.toNat =
      (shown D.kids).take (o + min count.toNat ((shown D.kids).length - o)) := by
    rw [List.take_add, ← List.length_drop, ← List.take_eq_take_min]
  rw [listStep, D.getdents_at count.toNat ho]
  simp only [htake]

/-- Where a call has room for the rest, all records have an offset. -/
theorem shown_of_fits (h : D.At o st)
    (hf : Fits D.kids count st) (h0 : count.toNat ≠ 0) : shown D.kids = listing D.kids := by
  obtain ⟨-, rfl, rfl | hall⟩ := h
  · have hlt := count.isLt
    have hb : (listing D.kids).length * direntSize ≤ count.toNat := by
      rcases hf with hf | hf
      · exact absurd hf h0
      · simpa using hf
    rw [shown, List.take_of_length_le]
    unfold direntSize at hb
    omega
  · exact hall

/-- The arithmetic of a call that writes no more than it may. A listing that does not end before the
offsets do would take more bytes than there are. -/
theorem room_left {count shownLen allLen : ℕ} (hc : count < 2 ^ 64) (h0 : count ≠ 0)
    (hb : min count (shownLen - o) * direntSize ≤ count)
    (hs : shownLen = allLen ∨ (o = 0 ∧ shownLen = min (2 ^ 63) allLen)) :
    (allLen - o) * direntSize ≤ count := by
  have hd : direntSize = 280 := rfl
  rcases Nat.le_total count (shownLen - o) with hle | hle
  · rw [min_eq_left hle, hd] at hb
    omega
  rw [min_eq_right hle] at hb
  rcases hs with rfl | ⟨rfl, hs⟩
  · exact hb
  · have hall : shownLen = allLen := by
      rw [hd] at hb
      omega
    rw [← hall]
    exact hb

/-- A call lists as it is to exactly if it has room for the records that are left. -/
theorem listed_iff (h : D.At o st) :
    Listed fd D.kids count st ↔ Fits D.kids count st := by
  obtain ⟨ho, rfl, hall⟩ := id h
  have hstep := D.listStep_at count ho
  have hlt := count.isLt
  constructor
  · rintro ⟨entries, st', he, hb, -⟩
    rw [hstep] at he
    simp only [Except.ok.injEq, Prod.mk.injEq] at he
    rw [← he.1, List.length_take, List.length_drop] at hb
    refine or_iff_not_imp_left.mpr fun h0 => ?_
    show ((listing D.kids).length - ((shown D.kids).take o).length) * direntSize ≤ count.toNat
    rw [List.length_take, min_eq_left ho]
    refine room_left hlt h0 hb ?_
    rcases hall with rfl | hall
    · exact Or.inr ⟨rfl, by rw [shown, List.length_take]⟩
    · exact Or.inl (by rw [hall])
  · intro hf
    by_cases h0 : count.toNat = 0
    · refine ⟨_, _, hstep, ?_, fun _ hc => ?_⟩
      · rw [h0]
        simp
      · rw [h0] at hc
        exact absurd hc (by decide)
    · have heq := D.shown_of_fits h hf h0
      have hb : ((listing D.kids).length - o) * direntSize ≤ count.toNat := by
        rcases hf with hf | hf
        · exact absurd hf h0
        · rw [List.length_take, min_eq_left ho] at hf
          exact hf
      rw [heq] at hstep ho
      have hk : (listing D.kids).length - o ≤ count.toNat :=
        le_trans (Nat.le_mul_of_pos_right _ (by decide)) hb
      refine ⟨_, _, by rw [heq]; exact hstep, ?_, fun _ _ => ?_⟩
      · rw [List.length_take, List.length_drop, min_eq_right hk]
        exact hb
      · show (listing D.kids).take _ = _
        rw [min_eq_right hk, Nat.add_sub_cancel' ho, List.take_length]

theorem At.next {D : DirFd s fd} {st' : List Dirent × Fs} {r : Except Errno (List Dirent)}
    (h : D.At o st) (hl : Listed fd D.kids count st) (hr : listStep fd count st = .ok (r, st')) :
    ∃ o', D.At o' st' := by
  have hf := (D.listed_iff h).mp hl
  by_cases h0 : count.toNat = 0
  · obtain ⟨ho, rfl, hall⟩ := h
    rw [D.listStep_at count ho, h0, Nat.zero_min, Nat.add_zero] at hr
    simp only [Except.ok.injEq, Prod.mk.injEq] at hr
    exact ⟨o, ho, hr.2.symm, hall⟩
  · have heq := D.shown_of_fits h hf h0
    obtain ⟨ho, rfl, -⟩ := h
    rw [D.listStep_at count ho] at hr
    simp only [Except.ok.injEq, Prod.mk.injEq] at hr
    refine ⟨_, ?_, hr.2.symm, Or.inr heq⟩
    omega

end DirFd

/-- **Listing a directory.** In a run of `getdents` calls on a descriptor at the beginning of a directory,
with any counts, no call writes more than `count` bytes and the records are the directory once a call
returns 0, exactly if every call has room for all records that are left (or a count of 0). A buffer for
some of them only overflows. -/
theorem getdents_iff {s : Fs} {fd : ℤ} (D : DirFd s fd) (h0 : D.x.fOffset = 0) (counts : List (BitVec 64)) :
    EachStep (listStep fd) (Listed fd D.kids) counts ([], s) ↔
      EachStep (listStep fd) (Fits D.kids) counts ([], s) := by
  have hs : D.At 0 ([], s) := by
    refine ⟨Nat.zero_le _, ?_, Or.inl rfl⟩
    have hx : D.obj 0 = D.x := by
      rw [DirFd.obj, Nat.cast_zero, toOff_eq (by norm_num) (by norm_num)]
      exact D.x.withOffset_self 0 h0
    rw [DirFd.atRecord, hx, setFile_eq D.opened.file, List.take_zero]
  refine eachStep_iff (I := fun st => ∃ o, D.At o st) ?_ ?_ counts _ ⟨0, hs⟩
  · rintro count st ⟨o, ho⟩
    exact D.listed_iff ho
  · rintro count st r st' ⟨o, ho⟩ hl hr
    exact ho.next hl hr

/-- The state after `vfs_init` with a descriptor 3 for the root directory. -/
def rootOpen : Fs :=
  { boot with
    dentries := fun d => if d = 2 then some ⟨2, ['/'], 1, none⟩ else none
    files := fun f => if f = 3 then some ⟨3, 2, 0, none⟩ else if f = 4 then some ⟨1, 1, 0, some 2⟩ else none
    bitmap := fun fd => fd < 4
    slots := fun fd => if fd < 3 then some 3 else if fd = 3 then some 4 else none
    next := 5 }

/-- Its descriptor. -/
def rootFd : DirFd rootOpen 3 where
  f := 4
  x := ⟨1, 1, 0, some 2⟩
  d := 2
  y := ⟨2, ['/'], 1, none⟩
  v := ⟨0, .dir, true, 0o40700, 0, 1⟩
  n := ⟨['/'], .dir, none, 0, 0, []⟩
  kids := []
  opened := ⟨by decide, by decide, rfl, rfl, rfl, le_refl _⟩
  dentry := rfl
  hd := rfl
  hv := rfl
  dir := rfl
  hn := rfl
  hkids := rfl

theorem getdents_iff_root : EachStep (listStep 3) (Listed 3 []) [560] ([], rootOpen) :=
  (getdents_iff rootFd rfl [560]).mpr ⟨Or.inr (by decide), fun _ _ _ => trivial⟩

/-- **A buffer that overflows.** `getdents` on the root directory with a buffer of one byte writes a record
of 280 bytes; with one of 280 bytes it writes both records. -/
theorem getdents_overflows :
    (exec (.getdents 3 true 1) rootOpen).toOption.map Prod.fst = some 280 ∧
    (exec (.getdents 3 true 280) rootOpen).toOption.map Prod.fst = some 560 := by
  refine ⟨?_, ?_⟩ <;> decide +kernel

end Fs
end Coffer
