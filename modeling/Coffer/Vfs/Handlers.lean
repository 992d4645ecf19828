/-
# The handlers of the system calls

`vfs/syscall_handlers.c`: what a user program calls. An `open` that fails for whatever reason asks
the host for the file (`fetch_from_host`), which makes the directories, opens the same name once
more with `O_WRONLY | O_CREAT`, writes what the host sent, and closes it; then the first open is
tried again. The open inside can fail and fetch in its turn. `syscallHandlerOpen` runs with a
list of replies, one for each fetch in that chain, and with no reply left it waits for ever.

`exec` is the union of the calls, for runs.
-/
import Coffer.Vfs.Syscalls

namespace Coffer

open Lib

/-- What comes from outside in one fetch: the size the host reports (`-1` for a file that does not
exist), what it sends, and what is on the stack behind the path in `mkdir_dir_for_fetch`. -/
structure HostReply where
  size : ℕ
  data : ℕ → UInt8
  stack : Str

/-- The reply to a fetch of a file that does not exist. -/
def HostReply.missing : HostReply := ⟨2 ^ 64 - 1, fun _ => 0, []⟩

/-- The prefixes `fetch_from_host` does not fetch. -/
def noCopyDir : List Str := [['/', 'd', 'e', 'v'], ['/', 'p', 'r', 'o', 'c'], ['s', 'y', 's']]

/-- `strncmp` of a prefix with the path, over the shorter length; that of the path is a `u32`. -/
def noCopy (pathname : Str) : Bool :=
  noCopyDir.any fun dir =>
    let len := min dir.length (pathname.length % 2 ^ 32)
    dir.take len = pathname.take len

/-- The string at the beginning of a buffer. -/
def cString (buf : Str) : Str := buf.takeWhile (· ≠ '\x00')

/-- `strchr(buf + p, '/')`, as an index of the buffer. -/
def strchrSlash (buf : Str) (p : ℕ) : Option ℕ :=
  let s := cString (buf.drop p)
  if '/' ∈ s then some (p + (s.takeWhile (· ≠ '/')).length) else none

/-- The loop of `mkdir_dir_for_fetch`: the directories it makes. `p` goes on from where it was by
the length of the whole prefix, and so may leave the path. -/
def mkdirLoop (dir : Str) : ℕ → ℕ → List Str
  | 0, _ => []
  | n + 1, p =>
    match strchrSlash dir p with
    | none => []
    | some file => ('/' :: cString (dir.take file)) :: mkdirLoop dir n (p + file + 1)

/-- The directories `mkdir_dir_for_fetch` makes, the last one being that of the path. -/
def mkdirPaths (pathname stack : Str) : List Str :=
  match lastSlash (strlcpy pathname) with
  | none => []
  | some ([], _) => mkdirLoop ['/', '\x00'] 2 0 ++ [['/', '/']]
  | some (dir, name) =>
    let buf := dir ++ ['\x00'] ++ name ++ ['\x00'] ++ stack
    mkdirLoop buf buf.length 0 ++ ['/' :: dir]

/-- A prefix of `PATH_MAX - 1` bytes or more does not fit into `dir_buf`, which the loop copies it
to. -/
def mkdirOverruns (dir : Str) : ℕ → ℕ → Bool
  | 0, _ => false
  | n + 1, p =>
    match strchrSlash dir p with
    | none => false
    | some file => pathMax ≤ file + 1 || mkdirOverruns dir n (p + file + 1)

@[inherit_doc mkdirOverruns] def mkdirStrays (pathname stack : Str) : Bool :=
  match lastSlash (strlcpy pathname) with
  | none => false
  | some ([], _) => false
  | some (dir, name) =>
    let buf := dir ++ ['\x00'] ++ name ++ ['\x00'] ++ stack
    mkdirOverruns buf buf.length 0

namespace Fs

def taskConv (cpath : Str) : FsM (Except Errno Str) := fun s =>
  match pathConv s.cwd cpath with
  | .error e => .error e
  | .ok r => .ok (r, s)

/-! ### Descriptors -/

/-- `syscall_handler_close` with `fdclose`. -/
def syscallHandlerClose (fd : ℤ) : FsM ℤ :=
  if fd = 0 ∨ fd = 1 ∨ fd = 2 then pure 0
  else do
    match ← vfscoreGetFile fd with
    | none => pure (-Errno.ebadf.code)
    | some f => do
      vfscorePutFd fd.toNat
      fdrop f
      pure 0

/-- `syscall_handler_fcntl` for `F_DUPFD`, and `F_DUPFD_CLOEXEC` if `cloexec`. -/
def syscallHandlerDupfd (fd : ℤ) (cloexec : Bool) : FsM ℤ := do
  match ← vfscoreGetFile fd with
  | none => pure (-Errno.ebadf.code)
  | some f =>
    match ← fdalloc f with
    | .error e => pure (-e)
    | .ok ret => do
      (if cloexec then do
          let x ← getFile f
          putFile f (some { x with fFlags := x.fFlags ||| oCloexec })
        else pure ())
      fdrop f
      pure ret

/-- What `F_SETFL` may change. -/
def setfl : Flags := oAppend ||| oAsync ||| oDirect ||| oNoatime ||| oNonblock

/-- The commands of `syscall_handler_fcntl` that make no descriptor; those on locks and owners do
nothing. -/
def fcntlFile (f cmd : ℕ) (arg : Flags) : FsM ℤ := do
  let x ← getFile f
  -- F_GETFD, F_SETFD, F_GETFL, F_SETFL, then F_GETLK to F_SETOWN
  if cmd = 1 then pure (if Flags.has x.fFlags oCloexec then 1 else 0)
  else if cmd = 2 then do
    putFile f (some { x with
      fFlags := (x.fFlags &&& ~~~oCloexec) ||| if Flags.has arg 1 then oCloexec else 0 })
    pure 0
  else if cmd = 3 then pure (((vfscoreOflags x.fFlags &&& ~~~oCloexec) ||| 0o100000).toInt)
  else if cmd = 4 then do
    putFile f (some { x with
      fFlags := vfscoreFflags ((vfscoreOflags x.fFlags &&& ~~~setfl) ||| (arg &&& setfl)) })
    pure 0
  else if 5 ≤ cmd ∧ cmd ≤ 8 then pure 0
  else pure (-Errno.einval.code)

/-- `syscall_handler_fcntl`; `F_DUPFD` is 0 and `F_DUPFD_CLOEXEC` 1030. -/
def syscallHandlerFcntl (fd : ℤ) (cmd : ℕ) (arg : Flags) : FsM ℤ :=
  if cmd = 0 then syscallHandlerDupfd fd false
  else if cmd = 1030 then syscallHandlerDupfd fd true
  else do
    match ← vfscoreGetFile fd with
    | none => pure (-Errno.ebadf.code)
    | some f => do
      let ret ← fcntlFile f cmd arg
      fdrop f
      pure ret

/-- A value returned through an `int`. -/
def toInt (x : ℤ) : ℤ := (x + 2 ^ 31) % 2 ^ 32 - 2 ^ 31

theorem toInt_eq {x : ℤ} (h : -2 ^ 31 ≤ x) (h' : x < 2 ^ 31) : toInt x = x := by
  unfold toInt
  omega

/-- A result of `sys_read` and the like as the value of the call. -/
def retOf {α : Type} (r : Except Errno α) (ok : α → ℤ) : ℤ :=
  match r with
  | .error e => -e.code
  | .ok a => ok a

theorem retOf_neg {α : Type} (e : Errno) (ok : α → ℤ) : retOf (.error e) ok < 0 := by
  have := e.code_pos
  show -e.code < 0
  omega

/-- The check of the handlers of `read` and `write` on `f_offset`. -/
def offsetOk (x : VFile) : Bool := ¬ (x.fOffset < 0 ∧ x.fDentry ≠ none)

def syscallHandlerReadv (fd : ℤ) (lens : List ℕ) : FsM (Except Errno (List UInt8)) :=
  withFile fd fun f => do
    let x ← getFile f
    if offsetOk x then sysRead f lens (-1) else pure (.error .einval)

def syscallHandlerWritev (fd : ℤ) (iov : List (List UInt8)) : FsM (Except Errno (ℕ × List FileWrite)) :=
  withFile fd fun f => do
    let x ← getFile f
    if offsetOk x then sysWrite f iov (-1) else pure (.error .einval)

/-- `syscall_handler_preadv`; the console has `UK_VFSCORE_NOPOS`. -/
def syscallHandlerPreadv (fd : ℤ) (lens : List ℕ) (offset : ℤ) : FsM (Except Errno (List UInt8)) :=
  withFile fd fun f => do
    let x ← getFile f
    if x.fDentry = none then pure (.error .espipe)
    else if offsetOk x then sysRead f lens offset
    else pure (.error .einval)

def syscallHandlerPwritev (fd : ℤ) (iov : List (List UInt8)) (offset : ℤ) :
    FsM (Except Errno (ℕ × List FileWrite)) :=
  withFile fd fun f => do
    let x ← getFile f
    if x.fDentry = none then pure (.error .espipe)
    else if offsetOk x then sysWrite f iov offset
    else pure (.error .einval)

def syscallHandlerLseek (fd : ℤ) (off : ℤ) (whence : ℕ) : FsM (Except Errno ℤ) :=
  withFile fd fun f => sysLseek f off whence

def syscallHandlerFstat (fd : ℤ) : FsM (Except Errno (ℤ × Option VType)) := withFile fd sysFstat

def syscallHandlerFtruncate (fd : ℤ) (length : ℤ) : FsM (Except Errno Unit) :=
  withFile fd fun f => sysFtruncate f length

def syscallHandlerFsync (fd : ℤ) : FsM (Except Errno Unit) := withFile fd sysFsync

/-- `readdir_r`: `none` at the end of the directory. -/
def readdirR (fd : ℤ) : FsM (Except Errno (Option Dirent)) := do
  let r ← withFile fd sysReaddir
  match r with
  | .error .enoent => pure (.ok none)
  | .error e => pure (.error e)
  | .ok entry => pure (.ok (some entry))

/-- The loop of `syscall_handler_getdents`, for at most `n` more entries. -/
def getdentsLoop (fd : ℤ) : ℕ → List Dirent → FsM (Except Errno (List Dirent))
  | 0, entries => pure (.ok entries)
  | n + 1, entries => do
    match ← readdirR fd with
    | .error e => pure (.error e)
    | .ok none => pure (.ok entries)
    | .ok (some entry) => getdentsLoop fd n (entries ++ [entry])

/-- `syscall_handler_getdents`: the entries written to `dirp`; `count` is in bytes, and compared
with the number of entries. -/
def syscallHandlerGetdents (fd : ℤ) (dirp : Bool) (count : ℕ) : FsM (Except Errno (List Dirent)) :=
  if dirp = false ∨ count = 0 then pure (.ok [])
  else getdentsLoop fd count []

def syscallHandlerUnlinkat (pathname : Str) : FsM (Except Errno Unit) := do
  match ← taskConv pathname with
  | .error e => pure (.error e)
  | .ok path => sysUnlink path

/-! ### open and the host -/

/-- The directories are made one by one; errors are not looked at. -/
def mkdirAll : List Str → FsM Unit
  | [] => pure ()
  | path :: paths => do
    let _ ← sysMkdir path
    mkdirAll paths

/-- `mkdir_dir_for_fetch`. A fault leaves no state, so that of an overrun may come last. -/
def mkdirDirForFetch (pathname stack : Str) : FsM Unit := do
  mkdirAll (mkdirPaths pathname stack)
  if mkdirStrays pathname stack then Cmd.fault .stray else pure ()

/-- `fetch_from_host`, with `openAgain` for its call of `syscall_handler_open`. The result is what
was written of the replies. -/
def fetchFromHost (pathname : Str) (reply : Option HostReply) (openAgain : FsM (ℤ × List FileWrite)) :
    FsM (List FileWrite) :=
  if noCopy pathname then pure []
  else
    match reply with
    | none => Cmd.fault .blocked
    | some r =>
      if r.size = 2 ^ 64 - 1 then pure []
      else do
        mkdirDirForFetch pathname r.stack
        let (fd, ws) ← openAgain
        if fd < 0 then Cmd.fault .panic
        else do
          let a ← kmalloc
          if a.granted = false then Cmd.fault .null
          else do
            let w ← syscallHandlerWritev fd [(List.range r.size).map r.data]
            let error ← syscallHandlerClose fd
            if error ≠ 0 then Cmd.fault .panic
            else
              match w with
              | .error _ => pure ws
              | .ok (_, w) => pure (ws ++ w)

/-- The end of `syscall_handler_open`: a descriptor for the file. -/
def openFd (f : ℕ) : FsM ℤ := do
  match ← fdalloc f with
  | .error e => do
    fdrop f
    pure (-e)
  | .ok fd => do
    fdrop f
    pure fd

/-- `syscall_handler_open` with `fetch` for its call of `fetch_from_host`. -/
def openWith (pathname : Str) (flags : Flags) (fetch : FsM (List FileWrite)) : FsM (ℤ × List FileWrite) := do
  match ← taskConv pathname with
  | .error e => pure (-e.code, [])
  | .ok path =>
    match ← sysOpen path flags with
    | .ok f => do
      let ret ← openFd f
      pure (ret, [])
    | .error _ => do
      let ws ← fetch
      match ← sysOpen path flags with
      | .error e => pure (-e.code, ws)
      | .ok f => do
        let ret ← openFd f
        pure (ret, ws)

/-- `syscall_handler_open`, with the replies of the host. -/
def syscallHandlerOpen : List HostReply → Str → Flags → FsM (ℤ × List FileWrite)
  | [], pathname, flags => openWith pathname flags (fetchFromHost pathname none (Cmd.fault .blocked))
  | r :: rs, pathname, flags =>
    openWith pathname flags
      (fetchFromHost pathname (some r) (syscallHandlerOpen rs pathname (oWronly ||| oCreat)))

/-- `syscall_handler_openat`; `AT_FDCWD` is −100. The path is that of the one mount, `/`, the path of the
directory and the name. The console has a dentry without a mount. -/
def syscallHandlerOpenat (replies : List HostReply) (dirfd : ℤ) (pathname : Str) (flags : Flags) :
    FsM (ℤ × List FileWrite) :=
  if pathname.head? = some '/' ∨ dirfd = -100 then syscallHandlerOpen replies pathname flags
  else do
    match ← vfscoreGetFile dirfd with
    | none => pure (-1, [])
    | some fp => do
      let x ← getFile fp
      match x.fDentry with
      | none => Cmd.fault .null
      | some d => do
        let y ← getDentry d
        let p := strlcat (strlcat (strlcat (strlcpy ['/']) y.dPath) ['/']) pathname
        let (error, ws) ← syscallHandlerOpen replies p flags
        fdrop fp
        pure (-error, ws)

/-! ### Runs -/

/-- A system call with its arguments, and what the host replies. `read` and `write` are `readv` and
`writev` with one entry. -/
inductive Call
  | open (pathname : Str) (flags : Flags) (replies : List HostReply)
  | read (fd : ℤ) (lens : List ℕ)
  | pread (fd : ℤ) (lens : List ℕ) (offset : ℤ)
  | write (fd : ℤ) (iov : List (List UInt8))
  | pwrite (fd : ℤ) (iov : List (List UInt8)) (offset : ℤ)
  | lseek (fd off : ℤ) (whence : ℕ)
  | fstat (fd : ℤ)
  | ftruncate (fd length : ℤ)
  | fsync (fd : ℤ)
  | fcntl (fd : ℤ) (cmd : ℕ) (arg : Flags)
  | getdents (fd : ℤ) (dirp : Bool) (count : ℕ)
  | close (fd : ℤ)
  | unlinkat (pathname : Str)

/-- The handler of a call; the value is what the user sees, bytes read, entries and attributes
aside. `fstat` reports every error as -1. -/
def exec : Call → FsM ℤ
  | .open pathname flags replies => do
    let r ← syscallHandlerOpen replies pathname flags
    pure r.1
  | .read fd lens => do
    let r ← syscallHandlerReadv fd lens
    pure (retOf r fun data => data.length)
  | .pread fd lens offset => do
    let r ← syscallHandlerPreadv fd lens offset
    pure (retOf r fun data => data.length)
  | .write fd iov => do
    let r ← syscallHandlerWritev fd iov
    pure (retOf r fun n => n.1)
  | .pwrite fd iov offset => do
    let r ← syscallHandlerPwritev fd iov offset
    pure (retOf r fun n => n.1)
  | .lseek fd off whence => do
    let r ← syscallHandlerLseek fd off whence
    pure (retOf r toInt)
  | .fstat fd => do
    let r ← syscallHandlerFstat fd
    pure (match r with | .error _ => -1 | .ok _ => 0)
  | .ftruncate fd length => do
    let r ← syscallHandlerFtruncate fd length
    pure (retOf r fun _ => 0)
  | .fsync fd => do
    let r ← syscallHandlerFsync fd
    pure (retOf r fun _ => 0)
  | .fcntl fd cmd arg => syscallHandlerFcntl fd cmd arg
  | .getdents fd dirp count => do
    let r ← syscallHandlerGetdents fd dirp count
    pure (retOf r fun entries => toInt (entries.length * direntSize))
  | .close fd => syscallHandlerClose fd
  | .unlinkat pathname => do
    let r ← syscallHandlerUnlinkat pathname
    pure (retOf r fun _ => 0)

end Fs
end Coffer
