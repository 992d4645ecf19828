/-
# Files and the descriptor table

`vfs/file.c` and `vfs/fd.c`. A file is counted by `fhold` and `fdrop`; the last `fdrop` closes
and frees it. The table has `FDTABLE_MAX_FILES` slots and a bitmap.

A descriptor comes from the user and is not compared with the size of the table before
`uk_test_bit` reads its bit: beyond the bitmap that is a bit of what follows it, `fd_start` and
the pointers of the slots.

The functions of the table return a negative error, those of the system calls a positive one.
-/
import Coffer.Vfs.Lookup

namespace Coffer

open Lib

/-- The numbers of `vfs/errno.h`. -/
def Errno.code : Errno → ℤ
  | .enoent => 2
  | .eio => 5
  | .ebadf => 9
  | .enomem => 12
  | .eacces => 13
  | .ebusy => 16
  | .eexist => 17
  | .enotdir => 20
  | .eisdir => 21
  | .einval => 22
  | .enfile => 23
  | .emfile => 24
  | .efbig => 27
  | .espipe => 29
  | .eloop => 62
  | .enametoolong => 63

theorem Errno.code_pos (e : Errno) : 0 < e.code := by cases e <;> decide

def fdtableMaxFiles : ℕ := 1024

namespace Fs

/-! ### Files -/

def fhold (f : ℕ) : FsM Unit := do
  let x ← getFile f
  putFile f (some { x with fCount := x.fCount + 1 })

/-- `fdrop`, with `vfs_close`, whose `VOP_CLOSE` does nothing. The file of the console is not on
the heap. -/
def fdrop (f : ℕ) : FsM Unit := do
  let x ← getFile f
  putFile f (some { x with fCount := x.fCount - 1 })
  if x.fCount = 0 then Cmd.fault .panic
  else if x.fCount = 1 then
    match x.fDentry with
    | none => Cmd.fault .stray
    | some d => do
      drele d
      putFile f none
  else pure ()

/-! ### The table -/

/-- `uk_test_bit` on the bitmap of the table. -/
def testBit (s : Fs) (fd : ℤ) : Bool :=
  if 0 ≤ fd ∧ fd < 1024 then s.bitmap fd.toNat
  else if 1024 ≤ fd ∧ fd < 1088 then false
  else if 1088 ≤ fd ∧ fd < 1088 + 64 * 1024 then
    match s.slots ((fd - 1088) / 64).toNat with
    | none => false
    | some f => (s.addr f).testBit ((fd - 1088) % 64).toNat
  else s.around fd

/-- A byte of the bitmap, or a slot, by its index. -/
inductive TableAccess
  | bitmap (index : ℤ)
  | slot (index : ℤ)

/-- The access stays inside the table. -/
def TableAccess.Inside : TableAccess → Prop
  | .bitmap i => 0 ≤ i ∧ i < 128
  | .slot i => 0 ≤ i ∧ i < fdtableMaxFiles

/-- What `vfscore_get_file` reads of the table: `uk_test_bit` the byte `nr >> 3`, and the slot if
the bit is set. -/
def getFileAccesses (s : Fs) (fd : ℤ) : List TableAccess :=
  .bitmap (fd / 8) :: if s.testBit fd then [.slot fd] else []

/-- `vfscore_get_file`: a new reference to the file of the slot. -/
def vfscoreGetFile (fd : ℤ) : FsM (Option ℕ) := do
  let s ← get
  if s.testBit fd = false then pure none
  else if 0 ≤ fd ∧ fd < fdtableMaxFiles then
    match s.slots fd.toNat with
    | none => Cmd.fault .null
    | some f => do
      fhold f
      pure (some f)
  else Cmd.fault .stray

/-- The first slot that is free in the bitmap. -/
@[irreducible] def freeFd (s : Fs) : Option ℕ := (List.range fdtableMaxFiles).find? fun fd => s.bitmap fd = false

def vfscoreAllocFd : FsM (Except ℤ ℕ) := do
  let s ← get
  match s.freeFd with
  | none => pure (.error (-Errno.enfile.code))
  | some fd => do
    modify fun s => { s with bitmap := Function.update s.bitmap fd true }
    pure (.ok fd)

def vfscoreInstallFd (fd f : ℕ) : FsM ℤ :=
  if fdtableMaxFiles ≤ fd then pure (-Errno.ebadf.code)
  else do
    fhold f
    let s ← get
    modify fun s => { s with slots := Function.update s.slots fd (some f) }
    fdrop f
    (match s.slots fd with
      | none => pure ()
      | some orig => fdrop orig)
    pure 0

def fdalloc (f : ℕ) : FsM (Except ℤ ℕ) := do
  fhold f
  match ← vfscoreAllocFd with
  | .error e => pure (.error e)
  | .ok fd => do
    let ret ← vfscoreInstallFd fd f
    if ret ≠ 0 then do
      fdrop f
      pure (.error ret)
    else pure (.ok fd)

def vfscorePutFd (fd : ℕ) : FsM Unit := do
  let s ← get
  modify fun s => { s with
    bitmap := Function.update s.bitmap fd false
    slots := Function.update s.slots fd none }
  match s.slots fd with
  | none => pure ()
  | some f => fdrop f

/-- A call on the file of a descriptor: `fget`, the call, `fdrop`. -/
def withFile {α : Type} (fd : ℤ) (op : ℕ → FsM (Except Errno α)) : FsM (Except Errno α) := do
  match ← vfscoreGetFile fd with
  | none => pure (.error .ebadf)
  | some f => do
    let r ← op f
    fdrop f
    pure r

end Fs
end Coffer
