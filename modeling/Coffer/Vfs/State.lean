/-
# Nodes, vnodes, dentries and files

The objects of the VFS (`vfs/vnode.c`, `vfs/dentry.c`, `vfs/file.c`, `ramfs/ramfs_vnops.c`) and
what the code does to one of them. An object is a number in one of four tables; what is freed is
no longer in its table, and to use it is the fault `dangling`. Numbers are not given twice.

There is one mount, of ramfs at `/`. A hash table of dentries is the list of its entries, the
newest first; entries with one path are in one bucket, so the order between buckets does not
matter.
-/
import Coffer.Lib.Command
import Coffer.Vfs.Path

namespace Coffer

open Lib

/-! ### Objects -/

/-- `enum vtype`, as far as ramfs has it. -/
inductive VType
  | reg
  | dir
  | lnk
deriving DecidableEq, Repr

/-- `struct ramfs_node`; `rn_child` with the `rn_next` links is a list. -/
structure RamNode where
  rnName : Str
  rnType : VType
  rnBuf : Option (ℕ → UInt8)
  rnBufsize : ℕ
  rnSize : ℕ
  rnChild : List ℕ

/-- `struct vnode`; `vRoot` is `VROOT` of `v_flags`. -/
structure Vnode where
  vData : ℕ
  vType : VType
  vRoot : Bool
  vMode : ℕ
  vSize : ℤ
  vRefcnt : ℤ

/-- `struct dentry`. -/
structure Dentry where
  dRefcnt : ℤ
  dPath : Str
  dVnode : ℕ
  dParent : Option ℕ

/-- `struct vfscore_file`. The file of the console has no dentry here: its vnode has operations of
its own, and `UK_VFSCORE_NOPOS` is set for it alone. -/
structure VFile where
  fFlags : BitVec 32
  fCount : ℤ
  fOffset : ℤ
  fDentry : Option ℕ

/-- The state of the VFS. `mem` is what the allocator answers, one answer for each request;
`addr` is the address of a file object, and `around` the memory around the descriptor table. -/
structure Fs where
  nodes : ℕ → Option RamNode
  vnodes : ℕ → Option Vnode
  dentries : ℕ → Option Dentry
  files : ℕ → Option VFile
  hash : List ℕ
  bitmap : ℕ → Bool
  slots : ℕ → Option ℕ
  next : ℕ
  mRoot : ℕ
  cwd : Str
  mem : ℕ → Answer
  asked : ℕ
  addr : ℕ → ℕ
  around : ℤ → Bool

/-- The state `vfs_init` builds: the root directory, and the console at the descriptors 0 to 2. -/
def Fs.init (mem : ℕ → Answer) (addr : ℕ → ℕ) (around : ℤ → Bool) : Fs where
  nodes n := if n = 0 then some ⟨['/'], .dir, none, 0, 0, []⟩ else none
  vnodes v := if v = 1 then some ⟨0, .dir, true, 0o40700, 0, 1⟩ else none
  dentries d := if d = 2 then some ⟨1, ['/'], 1, none⟩ else none
  files f := if f = 3 then some ⟨3, 2, 0, none⟩ else none
  hash := [2]
  bitmap fd := fd < 3
  slots fd := if fd < 3 then some 3 else none
  next := 4
  mRoot := 2
  cwd := ['/']
  mem := mem
  asked := 0
  addr := addr
  around := around

/-- A command on the VFS. -/
abbrev FsM := Cmd Fs FsFault

namespace Fs

def getNode (n : ℕ) : FsM RamNode := Cmd.load (fun s => s.nodes n) .dangling
def getVnode (v : ℕ) : FsM Vnode := Cmd.load (fun s => s.vnodes v) .dangling
def getDentry (d : ℕ) : FsM Dentry := Cmd.load (fun s => s.dentries d) .dangling
def getFile (f : ℕ) : FsM VFile := Cmd.load (fun s => s.files f) .dangling

theorem getNode_ok {s : Fs} {n : ℕ} {x : RamNode} (h : s.nodes n = some x) : getNode n s = .ok (x, s) :=
  Cmd.load_of_some h

theorem getVnode_ok {s : Fs} {v : ℕ} {x : Vnode} (h : s.vnodes v = some x) : getVnode v s = .ok (x, s) :=
  Cmd.load_of_some h

theorem getDentry_ok {s : Fs} {d : ℕ} {x : Dentry} (h : s.dentries d = some x) : getDentry d s = .ok (x, s) :=
  Cmd.load_of_some h

/-- An entry of a table is set, or removed. -/
def putNode (n : ℕ) (x : Option RamNode) : FsM Unit :=
  modify fun s => { s with nodes := Function.update s.nodes n x }

@[inherit_doc putNode] def putVnode (v : ℕ) (x : Option Vnode) : FsM Unit :=
  modify fun s => { s with vnodes := Function.update s.vnodes v x }

@[inherit_doc putNode] def putDentry (d : ℕ) (x : Option Dentry) : FsM Unit :=
  modify fun s => { s with dentries := Function.update s.dentries d x }

@[inherit_doc putNode] def putFile (f : ℕ) (x : Option VFile) : FsM Unit :=
  modify fun s => { s with files := Function.update s.files f x }

/-- A request to the allocator. -/
def kmalloc : FsM Answer := do
  let s ← get
  modify fun s => { s with asked := s.asked + 1 }
  pure (s.mem s.asked)

/-- The allocator has been asked once more. -/
def ask (s : Fs) : Fs := { s with asked := s.asked + 1 }

theorem kmalloc_ok (s : Fs) : kmalloc s = .ok (s.mem s.asked, s.ask) := rfl

/-- A request to the allocator where `c` holds. Elsewhere the answer is not used. -/
def kmallocIf (c : Prop) [Decidable c] : FsM Answer :=
  if c then kmalloc
  else do
    let s ← get
    pure (s.mem s.asked)

/-- The allocator has been asked once more, where `c` holds. -/
def askIf (s : Fs) (c : Prop) [Decidable c] : Fs := { s with asked := s.asked + if c then 1 else 0 }

theorem kmallocIf_ok (s : Fs) (c : Prop) [Decidable c] :
    kmallocIf c s = .ok (s.mem s.asked, s.askIf c) := by
  unfold kmallocIf askIf
  split <;> rfl

theorem askIf_neg (s : Fs) {c : Prop} [Decidable c] (h : ¬ c) : s.askIf c = s := by
  rw [askIf, if_neg h]
  rfl

/-- The number of a new object. -/
def newId : FsM ℕ := do
  let s ← get
  modify fun s => { s with next := s.next + 1 }
  pure s.next

/-! ### vnodes -/

def vref (v : ℕ) : FsM Unit := do
  let x ← getVnode v
  putVnode v (some { x with vRefcnt := x.vRefcnt + 1 })

/-- `vrele`; `vop_inactive` of ramfs does nothing. -/
def vrele (v : ℕ) : FsM Unit := do
  let x ← getVnode v
  putVnode v (some { x with vRefcnt := x.vRefcnt - 1 })
  if 0 < x.vRefcnt - 1 then pure () else putVnode v none

def vput (v : ℕ) : FsM Unit := vrele v

/-- `vn_access` for `VWRITE`; the mount is not read-only. -/
def vnAccessWrite (x : Vnode) : Except Errno Unit :=
  if x.vMode &&& 0o222 = 0 then .error .eacces else .ok ()

/-! ### dentries -/

def dref (d : ℕ) : FsM Unit := do
  let x ← getDentry d
  putDentry d (some { x with dRefcnt := x.dRefcnt + 1 })

/-- `drele`, through at most `n` parents. -/
def dreleUpTo : ℕ → ℕ → FsM Unit
  | 0, _ => Cmd.fault .stray
  | n + 1, d => do
    let x ← getDentry d
    putDentry d (some { x with dRefcnt := x.dRefcnt - 1 })
    if x.dRefcnt - 1 ≠ 0 then pure ()
    else do
      modify fun s => { s with hash := s.hash.filter (· ≠ d) }
      (match x.dParent with
        | some p => dreleUpTo n p
        | none => pure ())
      vrele x.dVnode
      putDentry d none

/-- `drele`; a parent has a smaller number than its child. -/
def drele (d : ℕ) : FsM Unit := dreleUpTo (d + 1) d

/-- `dentry_alloc`: two requests to the allocator, for the dentry and its path. -/
def dentryAlloc (parent v : ℕ) (path : Str) : FsM (Option ℕ) := do
  let a ← kmalloc
  if a.granted = false then pure none
  else do
    let a ← kmalloc
    if a.granted = false then pure none
    else do
      vref v
      let d ← newId
      dref parent
      putDentry d (some ⟨1, path, v, some parent⟩)
      modify fun s => { s with hash := d :: s.hash }
      pure (some d)

def dentryLookup (path : Str) : FsM (Option ℕ) := do
  let s ← get
  match s.hash.find? fun d => (s.dentries d).map Dentry.dPath = some path with
  | none => pure none
  | some d => do
    dref d
    pure (some d)

/-- `dentry_remove`: the dentry leaves the hash table. -/
def dentryRemove (d : ℕ) : FsM Unit := modify fun s => { s with hash := s.hash.filter (· ≠ d) }

/-- The vnode of a dentry. -/
def vnodeOf (d : ℕ) : FsM Vnode := do
  let x ← getDentry d
  getVnode x.dVnode

/-! ### Nodes of ramfs -/

/-- `ramfs_add_node` with `ramfs_allocate_node`: two requests, for the node and its name. The new
node is the last child. -/
def ramfsAddNode (dnp : ℕ) (name : Str) (type : VType) : FsM (Except Errno Unit) := do
  let a ← kmalloc
  if a.granted = false then pure (.error .enomem)
  else do
    let a ← kmalloc
    if a.granted = false then pure (.error .enomem)
    else do
      let n ← newId
      putNode n (some ⟨name, type, none, 0, 0, []⟩)
      let x ← getNode dnp
      putNode dnp (some { x with rnChild := x.rnChild ++ [n] })
      pure (.ok ())

/-- `ramfs_create` and `ramfs_mkdir`, with the mode of their caller. -/
def ramfsCreate (dnp : ℕ) (name : Str) (type : VType) : FsM (Except Errno Unit) :=
  if nameMax < name.length then pure (.error .enametoolong) else ramfsAddNode dnp name type

/-- `ramfs_remove_node`: the node leaves its directory and is freed. -/
def ramfsRemoveNode (dnp np : ℕ) : FsM (Except Errno Unit) := do
  let x ← getNode dnp
  if x.rnChild = [] then pure (.error .ebusy)
  else if np ∈ x.rnChild then do
    putNode dnp (some { x with rnChild := x.rnChild.erase np })
    let _ ← getNode np
    putNode np none
    pure (.ok ())
  else pure (.error .enoent)

/-- The search of `ramfs_lookup` among the children. -/
def findChild (name : Str) : List ℕ → FsM (Option ℕ)
  | [] => pure none
  | n :: ns => do
    let x ← getNode n
    if x.rnName = name then pure (some n) else findChild name ns

/-- `ramfs_lookup` with `vfscore_vget`: every lookup makes a new vnode, as every inode number is
new. -/
def ramfsLookup (dvp : Vnode) (name : Str) : FsM (Except Errno ℕ) :=
  if name = [] then pure (.error .enoent)
  else do
    let dnp ← getNode dvp.vData
    match ← findChild name dnp.rnChild with
    | none => pure (.error .enoent)
    | some n => do
      let a ← kmalloc
      if a.granted = false then Cmd.fault .panic
      else do
        let x ← getNode n
        let v ← newId
        putVnode v (some ⟨n, x.rnType, false, 0o7777, toOff x.rnSize, 1⟩)
        pure (.ok v)

/-- `read_link` with `ramfs_readlink`, into a buffer of `PATH_MAX` bytes, as a string. A link
that fills the buffer has its NUL written behind it. -/
def readLink (v : Vnode) : FsM Str := do
  let x ← getNode v.vData
  if pathMax ≤ v.vSize.toNat then Cmd.fault .stray
  else
    let bytes := (List.range v.vSize.toNat).map (x.rnBuf.getD fun _ => 0)
    pure ((bytes.map fun b => Char.ofNat b.toNat).takeWhile (· ≠ '\x00'))

/-- The regular file of a node and its vnode. -/
def ramFile (x : RamNode) (v : Vnode) : RamFile := ⟨x.rnBuf, x.rnBufsize, x.rnSize, v.vSize⟩

/-- A regular file is stored. -/
def putRamFile (v : ℕ) (y : Vnode) (x : RamNode) (f : RamFile) : FsM Unit := do
  putNode y.vData (some { x with rnBuf := f.rnBuf, rnBufsize := f.rnBufsize, rnSize := f.rnSize })
  putVnode v (some { y with vSize := f.vSize })

end Fs

end Coffer
