/-
# Strings and paths

The C strings of the VFS are lists of characters without a NUL; a buffer of `PATH_MAX` bytes
cuts what does not fit (`strlcpy`, `strlcat`). `pathConv` is `path_conv` of `vfs/task.c`:
a path and a working directory to a full path, `.` and `..` resolved by name.
-/
import Coffer.Vfs.Ramfs

namespace Coffer

/-- A C string. -/
abbrev Str := List Char

/-- What stops the VFS: an object is used after it was freed, a null pointer is followed, memory
outside an object is used, `panic` is called, or the host does not answer or nothing is typed. -/
inductive FsFault
  | dangling
  | null
  | stray
  | panic
  | blocked
deriving DecidableEq, Repr

def pathMax : ℕ := 4096

def nameMax : ℕ := 255

/-- `strlcpy` to a buffer of `PATH_MAX` bytes. -/
def strlcpy (s : Str) : Str := s.take (pathMax - 1)

/-- `strlcat` in a buffer of `PATH_MAX` bytes. -/
def strlcat (a b : Str) : Str := a ++ b.take (pathMax - 1 - a.length)

/-- What is before and after the last `/`, as `strrchr` finds it. -/
def lastSlash (s : Str) : Option (Str × Str) :=
  if '/' ∈ s then
    let name := (s.reverse.takeWhile (· ≠ '/')).reverse
    some (s.take (s.length - name.length - 1), name)
  else none

/-- `..` in `path_conv`: back to the `/` before the last component, which goes too unless it is
the first character. There may be none. -/
def upOne (full : Str) : Except FsFault Str :=
  if full.length < 2 then .ok full
  else
    match ((full.take (full.length - 1)).reverse.dropWhile (· ≠ '/')).length with
    | 0 => .error .stray
    | 1 => .ok (full.take 1)
    | i + 1 => .ok (full.take i)

/-- The loop of `path_conv` over the components of `src`, from `full` on. -/
def pathConvLoop : ℕ → Str → Str → Except FsFault Str
  | 0, full, _ => .ok full
  | n + 1, full, src =>
    if src = [] then .ok full
    else
      let name := src.takeWhile (· ≠ '/')
      let rest := src.dropWhile (· ≠ '/')
      match (if name = ['.', '.'] then upOne full else .ok (if name = ['.'] then full else full ++ name)) with
      | .error e => .error e
      | .ok full =>
        if rest = [] then .ok full
        else
          pathConvLoop n (if full ≠ [] ∧ full.getLast? ≠ some '/' then full ++ ['/'] else full) rest.tail

def pathConv (wd cpath : Str) : Except FsFault (Except Errno Str) :=
  let path := strlcpy cpath
  if pathMax ≤ wd.length + path.length then .ok (.error .enametoolong)
  else
    let full :=
      if path.head? = some '/' then ['/']
      else strlcpy wd ++ if 1 < wd.length ∧ path.head? ≠ some '.' then ['/'] else []
    let src := if path.head? = some '/' then path.tail else path
    (pathConvLoop src.length full src).map .ok

/-- `vfs_findroot` with the one mount point `/`: the rest of the path. -/
def findRoot (path : Str) : Option Str :=
  if path.head? = some '/' then
    some (if path.tail.head? = some '/' then path.tail.tail else path.tail)
  else none

/-- The components of a path, and whether a `/` follows: what `namei` takes from it one by one.
`name` is what was read of the first one. -/
def components (name : Str) : Str → List (Str × Bool)
  | [] => if name = [] then [] else [(name, false)]
  | c :: p =>
    if c = '/' then if name = [] then components [] p else (name, true) :: components [] p
    else components (name ++ [c]) p

end Coffer
