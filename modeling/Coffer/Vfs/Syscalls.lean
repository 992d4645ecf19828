/-
# The system calls on paths and files

`vfs/syscalls.c` with `vfs/fops.c`. Of a path there are `sys_open`, `sys_mkdir` and `sys_unlink`;
of a file `sys_read`, `sys_write`, `sys_lseek`, `sys_fstat` and `sys_ftruncate`. What they do to
the bytes of a file is in `RamFile`. On the console they change no object; what is typed and
printed there is left out.
-/
import Mathlib.Data.Nat.Bitwise
import Coffer.Vfs.Files

namespace Coffer

open Lib

/-! ### Flags -/

/-- Open flags. -/
abbrev Flags := BitVec 32

def oCreat : Flags := 0o100
def oExcl : Flags := 0o200
def oTrunc : Flags := 0o1000
def oAppend : Flags := 0o2000
def oDirectory : Flags := 0o40000
def oNofollow : Flags := 0o100000
def oCloexec : Flags := 0o2000000
def oWronly : Flags := 0o1
def oNonblock : Flags := 0o4000
def oAsync : Flags := 0o20000
def oDirect : Flags := 0o200000
def oNoatime : Flags := 0o1000000

/-- `O_ACCMODE`, with `O_SEARCH`. -/
def oAccmode : Flags := 0o10000003

/-- `UK_FREAD` and `UK_FWRITE` of `f_flags`. -/
def ukFread : Flags := 1
@[inherit_doc ukFread] def ukFwrite : Flags := 2

/-- A flag is set. -/
def Flags.has (flags bit : Flags) : Bool := flags &&& bit ≠ 0

/-- One `ramfs_write`: the node, the size in its vnode, and the arguments. -/
structure FileWrite where
  node : ℕ
  vSize : ℤ
  offset : ℤ
  data : List UInt8
  append : Bool
  answer : Answer

/-- The write on a file. -/
def FileWrite.apply (w : FileWrite) (f : RamFile) : Except Errno (RamFile × List Copy) :=
  f.write w.offset w.data w.append w.answer

def vfscoreFflags (oflags : Flags) : Flags := ((oflags &&& oAccmode) + 1) ||| (oflags &&& ~~~oAccmode)

def vfscoreOflags (fflags : Flags) : Flags :=
  ((fflags &&& (ukFread ||| ukFwrite)) - 1) ||| (fflags &&& ~~~(ukFread ||| ukFwrite))

theorem land_accmode (y : ℕ) : y &&& 0o10000003 = 2 ^ 21 * (y / 2 ^ 21 % 2) + y % 4 := by
  have h4 : y &&& 3 = y % 4 := Nat.and_two_pow_sub_one_eq_mod y 2
  have h21 : y &&& 0o10000000 = 2 ^ 21 * (y / 2 ^ 21 % 2) := by
    rw [show (0o10000000 : ℕ) = 2 ^ 21 from rfl, Nat.and_two_pow, Nat.testBit_eq_decide_div_mod_eq]
    rcases Nat.mod_two_eq_zero_or_one (y / 2 ^ 21) with h | h <;> rw [h] <;> rfl
  have hor : y &&& 0o10000003 = (y &&& 0o10000000) ||| (y &&& 3) := by
    rw [← Nat.and_or_distrib_left]
    rfl
  rw [hor, h4, h21, show 2 ^ 21 * (y / 2 ^ 21 % 2) = 2 ^ 2 * (2 ^ 19 * (y / 2 ^ 21 % 2)) by ring]
  exact (Nat.two_pow_add_eq_or_of_lt (Nat.mod_lt _ (by norm_num)) _).symm

/-- `vfscore_fflags` leaves the flags beyond the access mode. -/
theorem vfscoreFflags_getLsbD (oflags : Flags) {i : ℕ} (h : 3 ≤ i) (h' : i < 21) :
    (vfscoreFflags oflags).getLsbD i = oflags.getLsbD i := by
  have hlow : ((oflags &&& oAccmode) + 1).getLsbD i = false := by
    rw [BitVec.getLsbD, BitVec.toNat_add, BitVec.toNat_and, show oAccmode.toNat = 0o10000003 from rfl,
      land_accmode, show (1 : Flags).toNat = 1 from rfl, Nat.testBit_eq_decide_div_mod_eq]
    have hlt : 2 ^ 21 * (oflags.toNat / 2 ^ 21 % 2) + oflags.toNat % 4 + 1 < 2 ^ 32 := by omega
    rw [Nat.mod_eq_of_lt hlt]
    interval_cases i <;> simp only [decide_eq_false_iff_not] <;> omega
  have hacc : oAccmode.getLsbD i = false := by
    interval_cases i <;> rfl
  unfold vfscoreFflags
  rw [BitVec.getLsbD_or, hlow, BitVec.getLsbD_and, BitVec.getLsbD_not, hacc]
  simp only [Bool.not_false, Bool.and_true, Bool.false_or]
  rw [decide_eq_true (show i < 32 by omega), Bool.and_true]

theorem Flags.has_twoPow (flags : Flags) (i : ℕ) :
    Flags.has flags (BitVec.twoPow 32 i) = flags.getLsbD i := by
  unfold Flags.has
  rw [BitVec.and_twoPow]
  cases hb : flags.getLsbD i with
  | false => simp
  | true =>
    have hi : i < 32 := BitVec.lt_of_getLsbD hb
    simp only [if_true, ne_eq, decide_eq_true_eq]
    intro h0
    have := congrArg BitVec.toNat h0
    rw [BitVec.toNat_twoPow_of_lt hi] at this
    simp at this

theorem vfscoreFflags_has (oflags : Flags) {i : ℕ} (h : 3 ≤ i) (h' : i < 21) :
    Flags.has (vfscoreFflags oflags) (BitVec.twoPow 32 i) = Flags.has oflags (BitVec.twoPow 32 i) := by
  rw [Flags.has_twoPow, Flags.has_twoPow]
  exact vfscoreFflags_getLsbD oflags h h'

theorem vfscoreFflags_trunc (oflags : Flags) :
    Flags.has (vfscoreFflags oflags) oTrunc = Flags.has oflags oTrunc :=
  vfscoreFflags_has oflags (i := 9) (by norm_num) (by norm_num)

theorem vfscoreFflags_creat (oflags : Flags) :
    Flags.has (vfscoreFflags oflags) oCreat = Flags.has oflags oCreat :=
  vfscoreFflags_has oflags (i := 6) (by norm_num) (by norm_num)

theorem vfscoreFflags_excl (oflags : Flags) :
    Flags.has (vfscoreFflags oflags) oExcl = Flags.has oflags oExcl :=
  vfscoreFflags_has oflags (i := 7) (by norm_num) (by norm_num)

theorem vfscoreFflags_directory (oflags : Flags) :
    Flags.has (vfscoreFflags oflags) oDirectory = Flags.has oflags oDirectory :=
  vfscoreFflags_has oflags (i := 14) (by norm_num) (by norm_num)

theorem Flags.has_trunc_and {flags : Flags} (h : Flags.has flags oTrunc = false) (mask : Flags) :
    Flags.has (flags &&& mask) oTrunc = false := by
  rw [show oTrunc = BitVec.twoPow 32 9 from rfl, Flags.has_twoPow] at h ⊢
  rw [BitVec.getLsbD_and, h, Bool.false_and]

namespace Fs

/-! ### Paths -/

def openNoFollowChk (path : Str) : FsM (Except Errno Unit) := do
  match ← lookup path with
  | .error e => pure (.error e)
  | .ok (ddp, _) =>
    match ← nameiLastNofollow path ddp with
    | .error e => do
      drele ddp
      pure (.error e)
    | .ok dp => do
      let v ← vnodeOf dp
      drele dp
      drele ddp
      pure (if v.vType = .lnk then .error .eloop else .ok ())

/-- `ramfs_truncate`, which takes a node of any type. -/
def ramfsTruncate (vp : ℕ) (v : Vnode) (length : ℤ) : FsM (Except Errno Unit) := do
  let np ← getNode v.vData
  let a ← kmallocIf ((ramFile np v).TruncateAsks length)
  match (ramFile np v).truncate length a with
  | .error e => pure (.error e)
  | .ok (file, _) => do
    putRamFile vp v np file
    pure (.ok ())

/-- The end of `sys_open`: a new file for the dentry, with the count 1. -/
def openDentry (dp : ℕ) (flags : Flags) : FsM (Except Errno ℕ) := do
  let a ← kmalloc
  if a.granted = false then do
    drele dp
    pure (.error .enomem)
  else do
    let f ← newId
    putFile f (some ⟨flags, 1, 0, some dp⟩)
    if Flags.has flags oTrunc then do
      let d ← getDentry dp
      let v ← getVnode d.dVnode
      if Flags.has flags ukFwrite = false ∨ v.vType = .dir then do
        putFile f none
        drele dp
        pure (.error .einval)
      else do
        match ← ramfsTruncate d.dVnode v 0 with
        | .error e => do
          putFile f none
          drele dp
          pure (.error e)
        | .ok _ => pure (.ok f)
    else pure (.ok f)

/-- The branch of `sys_open` with `O_CREAT`. -/
def openCreate (path : Str) (flags : Flags) : FsM (Except Errno ℕ) := do
  match ← namei path with
  | .ok dp =>
    if Flags.has flags oExcl then do
      drele dp
      pure (.error .eexist)
    else openDentry dp (flags &&& ~~~oCreat)
  | .error .enoent => do
    match ← lookup path with
    | .error e => pure (.error e)
    | .ok (ddp, filename) => do
      let v ← vnodeOf ddp
      match vnAccessWrite v with
      | .error e => do
        drele ddp
        pure (.error e)
      | .ok _ => do
        let r ← ramfsCreate v.vData filename .reg
        drele ddp
        match r with
        | .error e => pure (.error e)
        | .ok _ => do
          match ← namei path with
          | .error e => pure (.error e)
          | .ok dp => openDentry dp (flags &&& ~~~oTrunc &&& ~~~oCreat)
  | .error e => pure (.error e)

/-- The branch of `sys_open` without `O_CREAT`. -/
def openExisting (path : Str) (flags : Flags) : FsM (Except Errno ℕ) := do
  let r ← (if Flags.has flags oNofollow then openNoFollowChk path else pure (.ok ()))
  match r with
  | .error e => pure (.error e)
  | .ok _ => do
    match ← namei path with
    | .error e => pure (.error e)
    | .ok dp => do
      let v ← vnodeOf dp
      let err :=
        if Flags.has flags ukFwrite ∨ Flags.has flags oTrunc then
          match vnAccessWrite v with
          | .error e => some e
          | .ok _ => if v.vType = .dir then some Errno.eisdir else none
        else none
      let err := err.or (if Flags.has flags oDirectory ∧ v.vType ≠ .dir then some .enotdir else none)
      match err with
      | some e => do
        drele dp
        pure (.error e)
      | none => openDentry dp flags

def sysOpen (path : Str) (oflags : Flags) : FsM (Except Errno ℕ) :=
  let flags := vfscoreFflags oflags
  if Flags.has flags oCreat then openCreate path flags else openExisting path flags

def sysMkdir (path : Str) : FsM (Except Errno Unit) := do
  match ← namei path with
  | .ok dp => do
    drele dp
    pure (.error .eexist)
  | .error _ => do
    match ← lookup path with
    | .error e => pure (.error e)
    | .ok (ddp, name) => do
      let v ← vnodeOf ddp
      match vnAccessWrite v with
      | .error e => do
        drele ddp
        pure (.error e)
      | .ok _ => do
        let r ← ramfsCreate v.vData name .dir
        drele ddp
        pure r

/-- `sys_unlink`. The dentry leaves the hash table whether or not the node was removed. -/
def sysUnlink (path : Str) : FsM (Except Errno Unit) := do
  match ← lookup path with
  | .error e => pure (.error e)
  | .ok (ddp, _) =>
    match ← nameiLastNofollow path ddp with
    | .error e => do
      drele ddp
      pure (.error e)
    | .ok dp => do
      let v ← vnodeOf dp
      let dv ← vnodeOf ddp
      let err :=
        if v.vType = .dir then some Errno.eisdir
        else if v.vRoot then some .ebusy
        else
          match vnAccessWrite dv with
          | .error e => some e
          | .ok _ => none
      match err with
      | some e => do
        drele dp
        drele ddp
        pure (.error e)
      | none => do
        let r ← ramfsRemoveNode dv.vData v.vData
        dentryRemove dp
        drele ddp
        drele dp
        pure r

/-! ### Files -/

/-- The position of a transfer: the offset −1 stands for `f_offset`. -/
def uioOffset (x : VFile) (offset : ℤ) : ℤ := if offset = -1 then x.fOffset else offset

/-- `f_offset` after a transfer of `count` bytes. -/
def advance (x : VFile) (offset : ℤ) (count : ℕ) : VFile :=
  if offset = -1 then { x with fOffset := toOff (x.fOffset + count) } else x

/-- `ramfs_read` of a regular file: the bytes moved. The node is used only past the early
returns. -/
def ramfsRead (v : Vnode) (offset : ℤ) (resid : ℕ) : FsM (Except Errno (List UInt8)) :=
  if offset < 0 then pure (.error .einval)
  else if resid = 0 then pure (.ok [])
  else if v.vSize ≤ offset then pure (.ok [])
  else do
    let np ← getNode v.vData
    pure ((ramFile np v).read offset resid)

/-- `sys_read` with `vfs_read`: the bytes read. `stdio_read` waits for what is typed. -/
def sysRead (f : ℕ) (lens : List ℕ) (offset : ℤ) : FsM (Except Errno (List UInt8)) := do
  let x ← getFile f
  match rwChecks (Flags.has x.fFlags ukFread) lens with
  | .error e => pure (.error e)
  | .ok 0 => pure (.ok [])
  | .ok bytes =>
    match x.fDentry with
    | none => if uioOffset x offset ≠ 0 then pure (.error .espipe) else Cmd.fault .blocked
    | some d => do
      let v ← vnodeOf d
      match v.vType with
      | .dir => pure (.error .eisdir)
      | .lnk => pure (.error .einval)
      | .reg => do
        match ← ramfsRead v (uioOffset x offset) bytes with
        | .error e => pure (.error e)
        | .ok data => do
          putFile f (some (advance x offset data.length))
          pure (.ok data)

/-- `ramfs_write` of a regular file: the record of the write. The node is used only past the early
returns. -/
def ramfsWrite (vp : ℕ) (v : Vnode) (offset : ℤ) (data : List UInt8) (append : Bool) :
    FsM (Except Errno (List FileWrite)) :=
  if offset < 0 then pure (.error .einval)
  else if 2 ^ 63 - 1 ≤ offset then pure (.error .efbig)
  else if data = [] then pure (.ok [])
  else do
    let np ← getNode v.vData
    let a ← kmallocIf ((ramFile np v).WriteAsks offset data append)
    let w : FileWrite := ⟨v.vData, v.vSize, offset, data, append, a⟩
    match w.apply (ramFile np v) with
    | .error e => pure (.error e)
    | .ok (file, _) => do
      putRamFile vp v np file
      pure (.ok [w])

/-- `sys_write` with `vfs_write`: the number of bytes written, and the record of it. -/
def sysWrite (f : ℕ) (iov : List (List UInt8)) (offset : ℤ) : FsM (Except Errno (ℕ × List FileWrite)) := do
  let x ← getFile f
  match rwChecks (Flags.has x.fFlags ukFwrite) (iov.map List.length) with
  | .error e => pure (.error e)
  | .ok 0 => pure (.ok (0, []))
  | .ok bytes =>
    match x.fDentry with
    | none => if uioOffset x offset ≠ 0 then pure (.error .espipe) else pure (.ok (bytes, []))
    | some d => do
      let y ← getDentry d
      let v ← getVnode y.dVnode
      match v.vType with
      | .dir => pure (.error .eisdir)
      | .lnk => pure (.error .einval)
      | .reg => do
        match ← ramfsWrite y.dVnode v (uioOffset x offset) iov.flatten (Flags.has x.fFlags oAppend) with
        | .error e => pure (.error e)
        | .ok ws => do
          putFile f (some (advance x offset bytes))
          pure (.ok (bytes, ws))

/-- `sys_lseek`; `VOP_SEEK` does nothing. `whence` 1 and 2 are `SEEK_CUR` and `SEEK_END`. -/
def sysLseek (f : ℕ) (off : ℤ) (whence : ℕ) : FsM (Except Errno ℤ) := do
  let x ← getFile f
  let vSize ← (match x.fDentry with
    | none => pure 0
    | some d => do
      let v ← vnodeOf d
      pure v.vSize)
  let off := if whence = 1 then toOff (x.fOffset + off) else if whence = 2 then toOff (vSize + off) else off
  if off < 0 then pure (.error .einval)
  else do
    putFile f (some { x with fOffset := off })
    pure (.ok off)

/-- `sys_fstat` with `vn_stat` and `ramfs_getattr`: the size and the type. -/
def sysFstat (f : ℕ) : FsM (Except Errno (ℤ × Option VType)) := do
  let x ← getFile f
  match x.fDentry with
  | none => pure (.ok (0, none))
  | some d => do
    let v ← vnodeOf d
    let n ← getNode v.vData
    pure (.ok (v.vSize, some n.rnType))

def sysFtruncate (f : ℕ) (length : ℤ) : FsM (Except Errno Unit) := do
  let x ← getFile f
  match x.fDentry with
  | none => pure (.ok ())
  | some d => do
    let y ← getDentry d
    let v ← getVnode y.dVnode
    ramfsTruncate y.dVnode v length

/-- `sys_fsync`; `VOP_FSYNC` does nothing. -/
def sysFsync (f : ℕ) : FsM (Except Errno Unit) := do
  let x ← getFile f
  match x.fDentry with
  | none => pure (.ok ())
  | some d => do
    let _ ← vnodeOf d
    pure (.ok ())

/-- `struct dirent`; `d_reclen` is its constant size, and nothing sets `d_off`. -/
structure Dirent where
  dIno : ℤ
  dType : VType
  dName : Str
deriving DecidableEq, Repr

/-- `sizeof(struct dirent)`. -/
def direntSize : ℕ := 280

/-- `ramfs_readdir`: the entry at `f_offset`, which moves on. The name is cut to `d_name`. -/
def ramfsReaddir (f : ℕ) (x : VFile) (dnp : RamNode) : FsM (Except Errno Dirent) := do
  let entry ← (if x.fOffset = 0 then pure (some ⟨x.fOffset, .dir, ['.']⟩)
    else if x.fOffset = 1 then pure (some ⟨x.fOffset, .dir, ['.', '.']⟩)
    else if x.fOffset < 2 then pure none
    else
      match dnp.rnChild[(x.fOffset - 2).toNat]? with
      | none => pure none
      | some n => do
        let np ← getNode n
        pure (some ⟨x.fOffset, np.rnType, np.rnName.take 255⟩))
  match entry with
  | none => pure (.error .enoent)
  | some entry => do
    putFile f (some { x with fOffset := toOff (x.fOffset + 1) })
    pure (.ok entry)

def sysReaddir (f : ℕ) : FsM (Except Errno Dirent) := do
  let x ← getFile f
  match x.fDentry with
  | none => pure (.error .enotdir)
  | some d => do
    let v ← vnodeOf d
    if v.vType ≠ .dir then pure (.error .enotdir)
    else do
      let dnp ← getNode v.vData
      ramfsReaddir f x dnp

end Fs
end Coffer
