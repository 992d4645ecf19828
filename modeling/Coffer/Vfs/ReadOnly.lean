/-
# Descriptors opened to read

A file object carries the access it was opened with as bits of `f_flags`, and each call that
changes a file looks at them itself. `sys_write` does; `sys_ftruncate` does not. `F_SETFL` takes
the flags apart and puts them together again, and the access comes out as it was.

`readOnly_iff`: in a run of calls on the descriptors of one `open` to read, the file keeps its size
and its bytes exactly if every `ftruncate` fails or asks for the size the file has.

Key definitions: `ReadOnly`, `TableOk`, `Call.OnFile`, `Unmodified`, `Refused`.
Key theorems: `ReadOnly.setfl`, `exec_stays`, `readOnly_iff`.
-/
import Coffer.Vfs.RegularFile

namespace Coffer

open Lib Lib.Cmd

/-! ### The access bits -/

/-- The flags of a file opened with `O_RDONLY`. -/
def ReadOnly (flags : Flags) : Prop := flags &&& oAccmode = ukFread

theorem ReadOnly.and {flags : Flags} (h : ReadOnly flags) {mask : Flags} (hm : mask &&& oAccmode = oAccmode) :
    ReadOnly (flags &&& mask) := by
  unfold ReadOnly
  rw [BitVec.and_assoc, hm]
  exact h

theorem ReadOnly.or {flags : Flags} (h : ReadOnly flags) {mask : Flags} (hm : mask &&& oAccmode = 0) :
    ReadOnly (flags ||| mask) := by
  unfold ReadOnly
  rw [BitVec.and_comm, BitVec.and_or_distrib_left, BitVec.and_comm, BitVec.and_comm oAccmode mask, hm]
  rw [show flags &&& oAccmode = ukFread from h]
  rfl

theorem ReadOnly.of_fflags {oflags : Flags} (h : oflags &&& oAccmode = 0) : ReadOnly (vfscoreFflags oflags) := by
  unfold ReadOnly vfscoreFflags
  rw [h, BitVec.and_comm, BitVec.and_or_distrib_left, BitVec.and_comm oAccmode (oflags &&& _),
    BitVec.and_assoc, show ~~~oAccmode &&& oAccmode = 0#32 from rfl, BitVec.and_zero]
  rfl

theorem ReadOnly.not_write {flags : Flags} (h : ReadOnly flags) : Flags.has flags ukFwrite = false := by
  unfold Flags.has
  have hz : flags &&& ukFwrite = 0 := by
    rw [show ukFwrite = oAccmode &&& ukFwrite from rfl, ← BitVec.and_assoc,
      show flags &&& oAccmode = ukFread from h]
    rfl
  rw [hz]
  rfl

theorem ReadOnly.setfl {flags : Flags} (h : ReadOnly flags) (arg : Flags) :
    ReadOnly (vfscoreFflags ((vfscoreOflags flags &&& ~~~Fs.setfl) ||| (arg &&& Fs.setfl))) := by
  apply ReadOnly.of_fflags
  have hrw : flags &&& (ukFread ||| ukFwrite) = 1 := by
    rw [show ukFread ||| ukFwrite = oAccmode &&& 3 from rfl, ← BitVec.and_assoc,
      show flags &&& oAccmode = ukFread from h]
    rfl
  have ho : vfscoreOflags flags = flags &&& ~~~(ukFread ||| ukFwrite) := by
    rw [vfscoreOflags, hrw]
    exact BitVec.zero_or
  have h1 : flags &&& ~~~(ukFread ||| ukFwrite) &&& ~~~Fs.setfl &&& oAccmode = 0 := by
    rw [BitVec.and_assoc, BitVec.and_assoc,
      show ~~~(ukFread ||| ukFwrite) &&& (~~~Fs.setfl &&& oAccmode) =
        oAccmode &&& ~~~(ukFread ||| ukFwrite) from rfl, ← BitVec.and_assoc,
      show flags &&& oAccmode = ukFread from h]
    rfl
  have h2 : arg &&& Fs.setfl &&& oAccmode = 0 := by
    rw [BitVec.and_assoc, show Fs.setfl &&& oAccmode = 0#32 from rfl, BitVec.and_zero]
    rfl
  rw [ho, BitVec.and_comm, BitVec.and_or_distrib_left, BitVec.and_comm, h1, BitVec.and_comm, h2]
  rfl

theorem ReadOnly.setfd {flags : Flags} (h : ReadOnly flags) (on : Bool) :
    ReadOnly ((flags &&& ~~~oCloexec) ||| if on then oCloexec else 0) := by
  refine (h.and (by rfl)).or ?_
  cases on <;> rfl

/-! ### The size of a file -/

/-- The file has this size, in its node and in its vnode. -/
def RamFile.HasSize (file : RamFile) (length : ℤ) : Prop := file.vSize = length ∧ file.rnSize = toU64 length

/-- A new buffer keeps the bytes of a file whose two sizes agree. -/
theorem RamFile.replaceBuf_bytes (f : RamFile) (newBuf : ℕ → UInt8) (newSize : ℕ) (h : f.rnSize = toU64 f.vSize)
    {i : ℕ} (hi : i < f.rnSize) : (f.replaceBuf newBuf newSize).1.bytes i = f.bytes i := by
  unfold RamFile.replaceBuf
  rw [if_pos (by omega)]
  show (if i < toU64 f.vSize then f.bytes i else newBuf i) = _
  rw [if_pos (h ▸ hi)]

/-- **A file keeps its bytes and its size** in an `ftruncate` exactly if it has the new size. -/
theorem RamFile.truncate_same_iff {f f' : RamFile} {cs : List Copy} {length : ℤ} {a : Answer}
    (hr : f.truncate length a = .ok (f', cs)) :
    f'.contents = f.contents ∧ f'.vSize = f.vSize ↔ f.HasSize length := by
  obtain ⟨hn, hv⟩ := RamFile.truncate_sizes hr
  constructor
  · rintro ⟨hc, hs⟩
    have hl := congrArg List.length hc
    simp only [RamFile.contents, List.length_map, List.length_range, hn] at hl
    exact ⟨hs.symm.trans hv, hl.symm⟩
  · rintro ⟨hs, hl⟩
    refine ⟨?_, hv.trans hs.symm⟩
    unfold RamFile.contents
    rw [hn, ← hl]
    refine List.map_congr_left fun i hi => ?_
    rw [List.mem_range] at hi
    unfold RamFile.truncate at hr
    dsimp only at hr
    split at hr
    · rename_i h0
      rw [hl, h0] at hi
      exact absurd hi (Nat.not_lt_zero i)
    split at hr
    · split at hr
      · cases hr
      · simp only [Except.ok.injEq, Prod.mk.injEq] at hr
        rw [← hr.1]
        exact RamFile.replaceBuf_bytes f _ _ (by rw [hs, hl]) hi
    · simp only [Except.ok.injEq, Prod.mk.injEq] at hr
      rw [← hr.1]
      rfl

namespace Fs

/-! ### Calls that leave the file -/

/-- The object of a file opened to read, with its dentry. -/
structure RoObj (d : ℕ) (x : VFile) : Prop where
  dentry : x.fDentry = some d
  count : 1 ≤ x.fCount
  flags : ReadOnly x.fFlags

/-- The file `f` is open to read, with the dentry `d`. -/
def RoFile (f d : ℕ) (s : Fs) : Prop := TableOk s ∧ ∃ x, s.files f = some x ∧ RoObj d x

/-- Only the file object of `f` and the table have changed, and `f` is open to read as before. -/
structure Stays (f d : ℕ) (s s' : Fs) : Prop where
  nodes : s'.nodes = s.nodes
  vnodes : s'.vnodes = s.vnodes
  dentries : s'.dentries = s.dentries
  ro : RoFile f d s'

/-- The bytes and the size of the file of a file object. -/
def contentsOf (s : Fs) (f : ℕ) : Option (List UInt8 × ℤ) :=
  (s.fileOf f).map fun file => (file.contents, file.vSize)

variable {s : Fs} {fd : ℤ} {f d : ℕ} {x : VFile}

theorem Stays.contentsOf {s' : Fs} (h : Stays f d s s') (hs : RoFile f d s) :
    s'.contentsOf f = s.contentsOf f := by
  obtain ⟨-, x, hx, ho⟩ := hs
  obtain ⟨-, x', hx', ho'⟩ := h.ro
  simp [Fs.contentsOf, fileOf, hx, hx', ho.dentry, ho'.dentry, h.nodes, h.vnodes, h.dentries]

theorem Stays.setFile {y : VFile} (ht : TableOk s) (hy : RoObj d y) : Stays f d s (s.setFile f y) :=
  ⟨rfl, rfl, rfl, ht, y, setFile_self s f y, hy⟩

theorem RoObj.hold (h : RoObj d x) : RoObj d (hold x) :=
  ⟨h.dentry, h.count.trans (Int.le_add_one (le_refl _)), h.flags⟩

/-- In a call only the object of the file it holds has changed. -/
def Held (s : Fs) (f d : ℕ) (t : Fs) : Prop := ∃ y, t = s.setFile f (hold y) ∧ RoObj d y

theorem wp_vnodeOf {Q : Vnode → Fs → Prop} (h : ∀ v, Q v s) : wp (vnodeOf d) Q (fun _ => True) s :=
  (wp_bind ..).mpr (wp_load_any fun _ => wp_load_any h)

/-- A call on an open descriptor, from what it does on its file. -/
theorem Opened.wp_withFile (h : Opened s fd f x) {α : Type} {op : ℕ → FsM (Except Errno α)}
    {R : Except Errno α → Prop}
    (hop : wp (op f) (fun r t => R r ∧ Held s f d t) (fun _ => True) (s.setFile f (hold x))) :
    wp (Fs.withFile fd op) (fun r t => R r ∧ ∃ y, t = s.setFile f y ∧ RoObj d y) (fun _ => True) s := by
  rw [Fs.withFile, wp_bind, wp_ok h.getFile]
  refine (wp_bind ..).mpr (wp_mono hop ?_)
  rintro r t ⟨hr, y, rfl, hy⟩
  rw [wp_bind, wp_ok (fdrop_held (setFile_self ..) hy.count), setFile_setFile]
  exact ⟨hr, y, rfl, hy⟩

section Inside

variable (ho : RoObj d x)

include ho

theorem RoObj.held : Held s f d (s.setFile f (Fs.hold x)) := ⟨x, rfl, ho⟩

theorem sysRead_held (lens : List ℕ) (offset : ℤ) :
    wp (sysRead f lens offset) (fun _ t => Held s f d t) (fun _ => True) (s.setFile f (hold x)) := by
  rw [sysRead, wp_bind, wp_ok (getFile_ok (setFile_self ..))]
  split
  · exact ho.held
  · exact ho.held
  · simp only [hold_fDentry, ho.dentry]
    refine (wp_bind ..).mpr (wp_vnodeOf fun v => ?_)
    cases v.vType with
    | dir => exact ho.held
    | lnk => exact ho.held
    | reg =>
      refine (wp_bind ..).mpr (wp_mono (ramfsRead_same ..) fun r t ht => ?_)
      subst t
      rcases r with e | data
      · exact ho.held
      · simp only
        rw [wp_bind, wp_ok (putFile_ok ..), setFile_setFile, advance_hold]
        refine ⟨advance x offset data.length, rfl, ?_, ?_, ?_⟩
        · rw [advance_fDentry]
          exact ho.dentry
        · rw [advance_fCount]
          exact ho.count
        · unfold advance
          split <;> exact ho.flags

theorem sysWrite_held (iov : List (List UInt8)) (offset : ℤ) :
    sysWrite f iov offset (s.setFile f (hold x)) = .ok (.error .ebadf, s.setFile f (hold x)) := by
  rw [sysWrite, bind_of_ok (getFile_ok (setFile_self ..)), hold_fFlags, ho.flags.not_write]
  rfl

theorem sysLseek_held (off : ℤ) (whence : ℕ) :
    wp (sysLseek f off whence) (fun _ t => Held s f d t) (fun _ => True) (s.setFile f (hold x)) := by
  rw [sysLseek, wp_bind, wp_ok (getFile_ok (setFile_self ..))]
  simp only [hold_fDentry, ho.dentry]
  refine (wp_bind ..).mpr ((wp_bind ..).mpr (wp_vnodeOf fun v => ?_))
  refine wp_ite (fun _ => ho.held) fun _ => ?_
  rw [wp_bind, wp_ok (putFile_ok ..), setFile_setFile]
  exact ⟨⟨x.fFlags, x.fCount, _, some d⟩, rfl, rfl, ho.count, ho.flags⟩

theorem fcntlFile_held (cmd : ℕ) (arg : Flags) :
    wp (fcntlFile f cmd arg) (fun _ t => Held s f d t) (fun _ => True) (s.setFile f (hold x)) := by
  have hput (fl : Flags) (hfl : ReadOnly fl) :
      Held s f d ((s.setFile f (hold x)).setFile f { hold x with fFlags := fl }) := by
    rw [setFile_setFile]
    exact ⟨{ x with fFlags := fl }, rfl, ho.dentry, ho.count, hfl⟩
  rw [fcntlFile, wp_bind, wp_ok (getFile_ok (setFile_self ..))]
  refine wp_ite (fun _ => ho.held) fun _ => wp_ite (fun _ => ?_) fun _ => wp_ite (fun _ => ho.held) fun _ =>
    wp_ite (fun _ => ?_) fun _ => wp_ite (fun _ => ho.held) fun _ => ho.held
  · exact hput _ (ho.flags.setfd _)
  · exact hput _ (ho.flags.setfl arg)

theorem checked_held {α : Type} {m : FsM (Except Errno α)} {R : Except Errno α → Prop}
    (hR : R (.error .einval))
    (hm : wp m (fun r t => R r ∧ Held s f d t) (fun _ => True) (s.setFile f (hold x))) :
    wp (getFile f >>= fun y => if offsetOk y then m else pure (.error .einval))
      (fun r t => R r ∧ Held s f d t) (fun _ => True) (s.setFile f (hold x)) := by
  rw [wp_bind, wp_ok (getFile_ok (setFile_self ..))]
  exact wp_ite (fun _ => hm) fun _ => ⟨hR, ho.held⟩

end Inside

/-! ### One call -/

/-- The calls that write bytes. -/
def Call.IsWrite : Call → Prop
  | .write _ _ | .pwrite _ _ _ => True
  | _ => False

/-- A read, write, seek or `ftruncate` through a descriptor of the file, or an `fcntl`. -/
def Call.OnFile (f : ℕ) (c : Call) (s : Fs) : Prop :=
  (match c with
    | .read _ _ | .pread _ _ _ | .write _ _ | .pwrite _ _ _ | .lseek _ _ _ | .ftruncate _ _ | .fcntl _ _ _ => True
    | _ => False) ∧
  ∃ fd x, c.fd? = some fd ∧ Opened s fd f x

section Steps

variable (ht : TableOk s) (h : Opened s fd f x) (ho : RoObj d x)

include ht h ho

omit ho in
/-- A call that goes through `withFile` and returns what it returned. -/
theorem withFile_stays {α : Type} {op : ℕ → FsM (Except Errno α)} {R : Except Errno α → Prop} {ok : α → ℤ}
    {P : ℤ → Prop} (hRP : ∀ r, R r → P (retOf r ok))
    (hop : wp (op f) (fun r t => R r ∧ Held s f d t) (fun _ => True) (s.setFile f (hold x))) :
    wp (Fs.withFile fd op >>= fun r => pure (retOf r ok)) (fun v t => P v ∧ Stays f d s t) (fun _ => True) s := by
  refine (wp_bind ..).mpr (wp_mono (h.wp_withFile hop) ?_)
  rintro r t ⟨hr, y, rfl, hy⟩
  exact ⟨hRP r hr, Stays.setFile ht hy⟩

/-- `F_DUPFD`: one more descriptor, or none if the table is full. -/
theorem dupfd_stays (cloexec : Bool) :
    wp (syscallHandlerDupfd fd cloexec) (fun _ t => Stays f d s t) (fun _ => True) s := by
  have hx := setFile_self s f (hold x)
  have ht' : TableOk (s.setFile f (hold x)) := ht
  rw [syscallHandlerDupfd, wp_bind, wp_ok h.getFile]
  rcases hfree : s.freeFd with _ | fd'
  · refine (wp_bind ..).mpr ((wp_ok (fdalloc_full hx (by rw [freeFd_setFile, hfree]))).mpr ?_)
    rw [setFile_setFile]
    exact Stays.setFile ht ho.hold.hold
  · have hc : 0 ≤ (hold x).fCount := le_trans (by norm_num) ho.hold.count
    refine (wp_bind ..).mpr ((wp_ok (fdalloc_free ht' hx (by rw [freeFd_setFile, hfree]) hc)).mpr ?_)
    rw [setFile_setFile]
    show wp _ _ _ ((s.addFd fd' f).setFile f (hold (hold x)))
    have hend (y : VFile) (hy : RoObj d y) : wp (fdrop f >>= fun _ => (pure (fd' : ℤ) : FsM ℤ))
        (fun _ t => Stays f d s t) (fun _ => True) ((s.addFd fd' f).setFile f (hold y)) := by
      rw [wp_bind, wp_ok (fdrop_held (setFile_self ..) hy.count)]
      exact ⟨rfl, rfl, rfl, ht.addFd fd' f, y, setFile_self .., hy⟩
    refine (wp_bind ..).mpr ?_
    cases cloexec with
    | false => exact hend _ ho.hold
    | true =>
      refine (wp_bind ..).mpr ((wp_ok (getFile_ok (setFile_self ..))).mpr ?_)
      have hb := hend { hold x with fFlags := x.fFlags ||| oCloexec }
        ⟨ho.dentry, ho.hold.count, ho.flags.or rfl⟩
      rw [← setFile_setFile _ f (hold (hold x))] at hb
      exact hb

theorem fcntl_stays (cmd : ℕ) (arg : Flags) :
    wp (syscallHandlerFcntl fd cmd arg) (fun _ t => Stays f d s t) (fun _ => True) s := by
  refine wp_ite (fun _ => dupfd_stays ht h ho false) fun _ => wp_ite (fun _ => dupfd_stays ht h ho true) fun _ => ?_
  rw [wp_bind, wp_ok h.getFile]
  refine (wp_bind ..).mpr (wp_mono (fcntlFile_held ho cmd arg) ?_)
  rintro v t ⟨y, rfl, hy⟩
  rw [wp_bind, wp_ok (fdrop_held (setFile_self ..) hy.count), setFile_setFile]
  exact Stays.setFile ht hy

/-- **Any call but `ftruncate`** leaves the file, and a write is refused. -/
theorem exec_stays {c : Call} (hfd : c.fd? = some fd) (hc : c.OnFile f s) (hnt : ∀ n, c ≠ .ftruncate fd n) :
    wp (exec c) (fun v t => (c.IsWrite → v < 0) ∧ Stays f d s t) (fun _ => True) s := by
  have hread (lens : List ℕ) (offset : ℤ) := wp_mono (sysRead_held (s := s) (f := f) ho lens offset)
    fun r t ht => (⟨trivial, ht⟩ : True ∧ Held s f d t)
  have hwrite (iov : List (List UInt8)) (offset : ℤ) : wp (sysWrite f iov offset)
      (fun r t => (∃ e, r = .error e) ∧ Held s f d t) (fun _ => True) (s.setFile f (hold x)) :=
    (wp_ok (sysWrite_held ho iov offset)).mpr ⟨⟨_, rfl⟩, ho.held⟩
  -- with a dentry the call is not on the console
  have hpos {α : Type} {m : FsM (Except Errno α)} {R : Except Errno α → Prop}
      (hm : wp (getFile f >>= fun y => if offsetOk y then m else pure (.error .einval))
        (fun r t => R r ∧ Held s f d t) (fun _ => True) (s.setFile f (hold x))) :
      wp (getFile f >>= fun y => if y.fDentry = none then pure (.error .espipe)
          else if offsetOk y then m else pure (.error .einval))
        (fun r t => R r ∧ Held s f d t) (fun _ => True) (s.setFile f (hold x)) := by
    rw [wp_bind, wp_ok (getFile_ok (setFile_self ..))] at hm ⊢
    rw [if_neg (by simp [ho.dentry])]
    exact hm
  cases c with
  | read fd' lens =>
    cases hfd
    exact withFile_stays ht h (fun _ _ hw => hw.elim) (checked_held ho trivial (hread lens _))
  | pread fd' lens offset =>
    cases hfd
    exact withFile_stays ht h (fun _ _ hw => hw.elim) (hpos (checked_held ho trivial (hread lens _)))
  | write fd' iov =>
    cases hfd
    refine withFile_stays ht h ?_ (checked_held ho ⟨_, rfl⟩ (hwrite iov _))
    rintro r ⟨e, rfl⟩ -
    exact retOf_neg e _
  | pwrite fd' iov offset =>
    cases hfd
    refine withFile_stays ht h ?_ (hpos (checked_held ho ⟨_, rfl⟩ (hwrite iov _)))
    rintro r ⟨e, rfl⟩ -
    exact retOf_neg e _
  | lseek fd' off whence =>
    cases hfd
    refine withFile_stays (R := fun _ => True) ht h (fun _ _ hw => hw.elim) ?_
    exact wp_mono (sysLseek_held ho off whence) fun r t ht => ⟨trivial, ht⟩
  | fcntl fd' cmd arg =>
    cases hfd
    exact wp_mono (fcntl_stays ht h ho cmd arg) fun v t hst => ⟨fun hw => hw.elim, hst⟩
  | ftruncate fd' n =>
    cases hfd
    exact absurd rfl (hnt n)
  | _ => exact hc.1.elim

end Steps

/-! ### ftruncate -/

/-- What `sys_ftruncate` does to the file behind the object, whatever the access. -/
theorem ftruncate_wp (ht : TableOk s) (h : Opened s fd f x) (ho : RoObj d x) (length : ℤ) :
    wp (exec (.ftruncate fd length)) (fun v t => RoFile f d t ∧ ∃ file, s.fileOf f = some file ∧
        ((∃ e, file.truncate length (s.mem s.asked) = .error e ∧ v = -e.code ∧
          t.contentsOf f = s.contentsOf f) ∨
        ∃ file' cs, file.truncate length (s.mem s.asked) = .ok (file', cs) ∧ v = 0 ∧
          t.contentsOf f = some (file'.contents, file'.vSize))) (fun _ => s.fileOf f = none) s := by
  rw [exec, wp_bind, syscallHandlerFtruncate, Fs.withFile, wp_bind, wp_ok h.getFile]
  refine (wp_bind ..).mpr ?_
  rw [sysFtruncate, wp_bind, wp_ok (getFile_ok (setFile_self ..))]
  simp only [hold_fDentry, ho.dentry]
  refine (wp_bind ..).mpr (wp_load_iff.mpr ⟨fun y hy => ?_, fun hy => ?_⟩)
  swap
  · replace hy : s.dentries d = none := hy
    simp [fileOf, h.file, ho.dentry, hy]
  replace hy : s.dentries d = some y := hy
  refine (wp_bind ..).mpr (wp_load_iff.mpr ⟨fun v hv => ?_, fun hv => ?_⟩)
  swap
  · replace hv : s.vnodes y.dVnode = none := hv
    simp [fileOf, h.file, ho.dentry, hy, hv]
  replace hv : s.vnodes y.dVnode = some v := hv
  rcases hn : s.nodes v.vData with _ | n
  · refine (wp_bind ..).mpr (wp_load_iff.mpr ⟨fun n hn' => ?_, fun _ => ?_⟩)
    · cases hn.symm.trans hn'
    · simp [fileOf, h.file, ho.dentry, hy, hv, hn]
  have hfile : s.fileOf f = some (ramFile n v) := by
    simp [fileOf, h.file, ho.dentry, hy, hv, hn]
  have hcmd := ramfsTruncate_ok (show (s.setFile f (hold x)).nodes v.vData = some n from hn) y.dVnode length
  rcases hr : (ramFile n v).truncate length (s.mem s.asked) with e | ⟨file', cs⟩
  · simp only [show (ramFile n v).truncate length ((s.setFile f (hold x)).mem (s.setFile f (hold x)).asked) = _
      from hr] at hcmd
    replace hcmd : ramfsTruncate y.dVnode v length (s.setFile f (hold x)) =
      .ok (.error e, (s.askIf ((ramFile n v).TruncateAsks length)).setFile f (hold x)) := hcmd
    rw [wp_ok hcmd]
    refine (wp_bind ..).mpr ((wp_ok (fdrop_held (setFile_self ..) ho.count)).mpr ?_)
    rw [setFile_setFile, setFile_eq (show (s.askIf _).files f = some x from h.file)]
    exact ⟨⟨ht, x, h.file, ho⟩, _, hfile, Or.inl ⟨e, hr, rfl, rfl⟩⟩
  · simp only [show (ramFile n v).truncate length ((s.setFile f (hold x)).mem (s.setFile f (hold x)).asked) = _
      from hr] at hcmd
    set t := (s.askIf ((ramFile n v).TruncateAsks length)).setRamFile y.dVnode v n file' with ht'
    replace hcmd : ramfsTruncate y.dVnode v length (s.setFile f (hold x)) =
      .ok (.ok (), t.setFile f (hold x)) := hcmd
    rw [wp_ok hcmd]
    refine (wp_bind ..).mpr ((wp_ok (fdrop_held (setFile_self ..) ho.count)).mpr ?_)
    have hx' : t.files f = some x := h.file
    rw [setFile_setFile, setFile_eq hx']
    refine ⟨⟨ht, x, h.file, ho⟩, _, hfile, Or.inr ⟨file', cs, hr, rfl, ?_⟩⟩
    have hd' : t.dentries d = some y := hy
    have hv' : t.vnodes y.dVnode = some { v with vSize := file'.vSize } := Function.update_self ..
    have hn' : t.nodes v.vData = some { n with
        rnBuf := file'.rnBuf, rnBufsize := file'.rnBufsize, rnSize := file'.rnSize } := Function.update_self ..
    simp [contentsOf, fileOf, hx', ho.dentry, hd', hv', hn', ramFile]

/-! ### Runs -/

/-- `ramfs_truncate` fails exactly if it asks for a buffer and there is none. -/
theorem truncate_fails_iff (f : RamFile) (length : ℤ) (a : Answer) :
    (∃ e, f.truncate length a = .error e) ↔
      length ≠ 0 ∧ f.rnBufsize < toU64 length ∧ a.granted = false := by
  unfold RamFile.truncate Answer.kmalloc
  by_cases h0 : length = 0
  · simp [h0]
  by_cases h1 : f.rnBufsize < toU64 length
  · cases hg : a.granted <;> simp [h0, h1]
  · simp [h0, h1]

/-- The call would change the file if it were allowed to. -/
def Call.Modifies (f : ℕ) (s : Fs) : Call → Prop
  | .write _ _ | .pwrite _ _ _ => True
  | .ftruncate _ length => ∃ file, s.fileOf f = some file ∧ ¬ file.HasSize length
  | _ => False

/-- The call leaves the bytes and the size of the file, and fails if it would change them. -/
def Unmodified (f : ℕ) (c : Call) (s : Fs) : Prop :=
  ∀ v s', exec c s = .ok (v, s') → s'.contentsOf f = s.contentsOf f ∧ (c.Modifies f s → v < 0)

/-- An `ftruncate` asks for the size the file has, or for more than its buffer holds when the allocator
has no memory. -/
def Refused (f : ℕ) (c : Call) (s : Fs) : Prop :=
  ∀ fd length, c = .ftruncate fd length → ∀ file, s.fileOf f = some file →
    file.HasSize length ∨
      (length ≠ 0 ∧ file.rnBufsize < toU64 length ∧ (s.mem s.asked).granted = false)

/-- A call on a descriptor of the file leaves it exactly if it is refused where it truncates. -/
theorem unmodified_iff (hs : RoFile f d s) {c : Call} (hc : c.OnFile f s) : Unmodified f c s ↔ Refused f c s := by
  obtain ⟨ht, x, hx, ho⟩ := hs
  obtain ⟨hcall, fd, x', hfd, hop⟩ := id hc
  obtain rfl : x' = x := Option.some.inj (hop.file.symm.trans hx)
  by_cases htr : ∃ n, c = .ftruncate fd n
  · obtain ⟨length, rfl⟩ := htr
    have hw := ftruncate_wp ht hop ho length
    constructor
    · rintro hu fd' length' he file hfile
      cases he
      by_contra hno
      push Not at hno
      obtain ⟨hsize, hne⟩ := hno
      rcases hr : exec (.ftruncate fd length) s with e | ⟨v, s'⟩
      · have hnone : s.fileOf f = none := fault_of_wp (e := e) hw hr
        cases hfile.symm.trans hnone
      · obtain ⟨-, file', hfile', hcase⟩ := of_wp hw hr
        cases hfile.symm.trans hfile'
        rcases hcase with ⟨e, htrunc, -, -⟩ | ⟨-, -, -, rfl, -⟩
        · obtain ⟨h1, h2, h3⟩ := (truncate_fails_iff ..).mp ⟨e, htrunc⟩
          exact hne h1 h2 h3
        · exact absurd ((hu _ _ hr).2 ⟨file, hfile, hsize⟩) (lt_irrefl _)
    · intro href v s' hr
      obtain ⟨-, file, hfile, hcase⟩ := of_wp hw hr
      rcases hcase with ⟨e, htrunc, rfl, hsame⟩ | ⟨file', cs, htrunc, rfl, hsame⟩
      · exact ⟨hsame, fun _ => by have := e.code_pos; omega⟩
      · have hsize : file.HasSize length := by
          rcases href fd length rfl file hfile with hsize | hno
          · exact hsize
          · obtain ⟨e, he⟩ := (truncate_fails_iff ..).mpr hno
            rw [htrunc] at he
            cases he
        obtain ⟨hcont, hv⟩ := (RamFile.truncate_same_iff htrunc).mpr hsize
        refine ⟨by rw [hsame, contentsOf, hfile, Option.map_some, hcont, hv], ?_⟩
        rintro ⟨file₂, hfile₂, hnot⟩
        cases hfile.symm.trans hfile₂
        exact absurd hsize hnot
  · have hw := exec_stays ht hop ho hfd hc fun n he => htr ⟨n, he⟩
    refine ⟨fun _ fd' length he => ?_, fun _ v s' hr => ?_⟩
    · subst he
      cases hfd
      exact absurd ⟨length, rfl⟩ htr
    · obtain ⟨hneg, hst⟩ := of_wp hw hr
      refine ⟨hst.contentsOf ⟨ht, x', hx, ho⟩, fun hm => hneg ?_⟩
      cases c with
      | write fd' iov => trivial
      | pwrite fd' iov offset => trivial
      | ftruncate fd' n =>
        cases hfd
        exact absurd ⟨n, rfl⟩ htr
      | _ => exact hm.elim

theorem RoFile.keeps (hs : RoFile f d s) {c : Call} (hc : c.OnFile f s) {v : ℤ} {s' : Fs}
    (hr : exec c s = .ok (v, s')) : RoFile f d s' := by
  obtain ⟨ht, x, hx, ho⟩ := hs
  obtain ⟨hcall, fd, x', hfd, hop⟩ := id hc
  obtain rfl : x' = x := Option.some.inj (hop.file.symm.trans hx)
  by_cases htr : ∃ n, c = .ftruncate fd n
  · obtain ⟨length, rfl⟩ := htr
    exact (of_wp (ftruncate_wp ht hop ho length) hr).1
  · exact (of_wp (exec_stays ht hop ho hfd hc fun n he => htr ⟨n, he⟩) hr).2.ro

/-! ### open -/

theorem sysOpen_ro {path : Str} {oflags : Flags} (hro : oflags &&& oAccmode = 0)
    (htr : Flags.has oflags oTrunc = false) :
    wp (sysOpen path oflags) (fun r t => ∀ f, r = .ok f → ∃ d x, t.files f = some x ∧ RoObj d x)
      (fun _ => True) s := by
  refine SameTable.wp_sysOpen (fun e t _ f h => (by cases h)) fun dp mask t hm _ => ?_
  have htr' : Flags.has (vfscoreFflags oflags &&& mask) oTrunc = false :=
    Flags.has_trunc_and (by rw [vfscoreFflags_trunc, htr]) mask
  unfold openDentry
  refine wp_bind_any fun a t => wp_ite (fun _ => wp_bind_any fun _ t f h => (by cases h)) fun _ =>
    wp_bind_any fun f t => ?_
  rw [wp_bind, wp_ok (putFile_ok ..), htr']
  rintro f' h
  cases h
  exact ⟨dp, _, setFile_self .., rfl, le_refl _, (ReadOnly.of_fflags hro).and hm⟩

/-- **A file opened to read.** -/
theorem open_ro {path : Str} {flags : Flags} {s₀ s₁ : Fs} (ht : TableOk s₀) (hro : flags &&& oAccmode = 0)
    (htr : Flags.has flags oTrunc = false) (hopen : sysOpen path flags s₀ = .ok (.ok f, s₁))
    (hfd : openFd f s₁ = .ok (fd, s)) : ∃ d, RoFile f d s := by
  obtain ⟨d, x, hx, ho⟩ := of_wp (sysOpen_ro hro htr) hopen f rfl
  have ht₁ : TableOk s₁ := by
    obtain ⟨hslots, hbits, -⟩ := of_wp (SameTable.sysOpen path flags s₀) hopen
    intro i hi
    rw [hslots]
    exact ht i (by rw [← hbits]; exact hi)
  refine ⟨d, ?_⟩
  rcases hfree : s₁.freeFd with _ | fd'
  · rw [openFd_full hx ho.count hfree] at hfd
    simp only [Except.ok.injEq, Prod.mk.injEq] at hfd
    rw [← hfd.2]
    exact ⟨ht₁, x, hx, ho⟩
  · rw [openFd_free ht₁ hx ho.count hfree] at hfd
    simp only [Except.ok.injEq, Prod.mk.injEq] at hfd
    rw [← hfd.2]
    exact ⟨ht₁.addFd fd' f, x, setFile_self .., ho⟩

/-- **A descriptor opened to read leaves its file.** The file is opened with `O_RDONLY` and without
`O_TRUNC`, and the calls go through the descriptors of that file object. Every call leaves the bytes and
the size of the file, those that would change it fail, exactly if each `ftruncate` asks for the size
the file has or gets no memory: nothing else keeps `ftruncate` from a file opened to read. -/
theorem readOnly_iff (path : Str) (flags : Flags) (s₀ s₁ s : Fs) (f : ℕ) (fd : ℤ) (ht : TableOk s₀)
    (hro : flags &&& oAccmode = 0) (htr : Flags.has flags oTrunc = false)
    (hopen : sysOpen path flags s₀ = .ok (.ok f, s₁)) (hfd : openFd f s₁ = .ok (fd, s))
    (calls : List Call) (hcalls : EachStep exec (Call.OnFile f) calls s) :
    EachStep exec (Unmodified f) calls s ↔ EachStep exec (Refused f) calls s := by
  obtain ⟨d, hs⟩ := open_ro ht hro htr hopen hfd
  refine eachStep_iff_of (fun c t ht hc => unmodified_iff ht hc) ?_ calls s hs hcalls
  rintro c t v t' hst hc - hr
  exact hst.keeps hc hr

/-- The file system of `threeBytes` once `/f` has been opened to read. -/
def threeBytesRo : Fs :=
  { (threeBytes 3 0).ask with
    dentries := Function.update (threeBytes 3 0).dentries 6 (some ⟨2, ['/', 'f'], 5, some 2⟩)
    files := Function.update (threeBytes 3 0).files 8 (some ⟨1, 1, 0, some 6⟩)
    next := 9 }

theorem threeBytesRo_table : TableOk threeBytesRo := by
  intro fd hfd
  have h4 : ¬ fd < 4 := of_decide_eq_false hfd
  show (if fd < 3 then some 3 else if fd = 3 then some 7 else none) = none
  rw [if_neg (by omega), if_neg (by omega)]

theorem readOnly_iff_write :
    EachStep exec (Unmodified 8) [.write 4 [[7]]] ((threeBytesRo.addFd 4 8).setFile 8 ⟨1, 1, 0, some 6⟩) := by
  have hfree : threeBytesRo.freeFd = some 4 := by decide +kernel
  refine (readOnly_iff ['/', 'f'] 0 (threeBytes 3 0) threeBytesRo _ 8 4 threeBytesRo_table rfl rfl rfl
    (openFd_free threeBytesRo_table rfl (le_refl _) hfree) [.write 4 [[7]]] ?_).mpr ?_
  · exact ⟨⟨trivial, 4, _, rfl, by decide, by decide, rfl, rfl, rfl, le_refl _⟩, fun _ _ _ => trivial⟩
  · exact ⟨fun fd length he => (by cases he), fun _ _ _ => trivial⟩

/-- **A file truncated through a descriptor opened to read.** The file `/f` has three bytes, is opened with
`O_RDONLY`, and `ftruncate` of the new descriptor to 0 bytes returns 0. -/
theorem readOnly_truncated :
    ((do
      let fd ← exec (.open ['/', 'f'] 0 [])
      let before ← get
      let ret ← exec (.ftruncate fd 0)
      let after ← get
      pure ([fd, ret], [before.contentsOf 8, after.contentsOf 8]) :
        FsM (List ℤ × List (Option (List UInt8 × ℤ)))).run' (threeBytes 3 0)).toOption =
      some ([4, 0], [some ([1, 2, 3], 3), some ([], 0)]) := by
  decide +kernel

end Fs
end Coffer
