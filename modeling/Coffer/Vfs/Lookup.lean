/-
# From a path to a dentry

`vfs/lookup.c`. `namei` looks the whole path up in the hash table, and if it is not there walks
from the root directory, one component at a time: the dentry from the hash table, or else a new
one with a new vnode. While it walks it holds a reference to the dentry it stands on. A symbolic
link gives a new path, and the walk starts again.

The result of `namei` is a dentry with a reference for the caller.
-/
import Coffer.Vfs.State

namespace Coffer
namespace Fs

open Lib

/-- A component of a path: the dentry in the hash table, or else a new one for what the directory
of `ddp` has under that name. -/
def childDentry (ddp : ℕ) (name node : Str) : FsM (Except Errno ℕ) := do
  match ← dentryLookup node with
  | some dp => pure (.ok dp)
  | none => do
    let dvp ← vnodeOf ddp
    match ← ramfsLookup dvp name with
    | .error e => pure (.error e)
    | .ok vp => do
      let dp ← dentryAlloc ddp vp node
      vput vp
      match dp with
      | none => pure (.error .enomem)
      | some dp => pure (.ok dp)

/-- `namei_follow_link`: the path with the link put in. `node` is the path of the link, `name`
its last component, and `mountpointLen` the length of what `fp` has before it. -/
def nameiFollowLink (dp : ℕ) (node name fp : Str) (mountpointLen : ℕ) : FsM Str := do
  let v ← vnodeOf dp
  let link ← readLink v
  let p := fp.drop (mountpointLen + node.length)
  if link.head? = some '/' then pure (strlcpy (strlcat link p))
  else
    let dir := fp.take (mountpointLen + (node.length - name.length - 1))
    match pathConv dir link with
    | .error e => Cmd.fault e
    | .ok (.error _) => pure (strlcat fp p)
    | .ok (.ok full) => pure (strlcat full p)

/-- The walk of `namei` over the components of a path, from `ddp` on: the dentry at the end, or
the path to start again with. `dp` is the last dentry, `node` its path. -/
def walk (fp : Str) (mountpointLen : ℕ) (ddp : ℕ) (dp : Option ℕ) (node : Str) :
    List (Str × Bool) → FsM (Except Errno (ℕ ⊕ Str))
  | [] =>
    match dp with
    | some dp => pure (.ok (.inl dp))
    | none => Cmd.fault .null
  | (name, slash) :: p => do
    let node := strlcat (strlcat node ['/']) name
    match ← childDentry ddp name node with
    | .error e => do
      drele ddp
      pure (.error e)
    | .ok dp => do
      drele ddp
      let v ← vnodeOf dp
      if v.vType = .lnk then do
        let fp ← nameiFollowLink dp node name fp mountpointLen
        drele dp
        pure (.ok (.inr fp))
      else if slash ∧ v.vType ≠ .dir then do
        drele dp
        pure (.error .enotdir)
      else walk fp mountpointLen dp (some dp) node p

/-- The loop of `namei`; `MAXSYMLINKS` is 20. -/
def nameiLoop : ℕ → Str → FsM (Except Errno ℕ)
  | 0, _ => pure (.error .eloop)
  | n + 1, fp =>
    match findRoot fp with
    | none => pure (.error .enotdir)
    | some p => do
      match ← dentryLookup (strlcat ['/'] p) with
      | some dp => pure (.ok dp)
      | none => do
        let s ← get
        dref s.mRoot
        match ← walk fp (fp.length - p.length - 1) s.mRoot none [] (components [] p) with
        | .error e => pure (.error e)
        | .ok (.inl dp) => pure (.ok dp)
        | .ok (.inr fp) => nameiLoop n fp

def namei (path : Str) : FsM (Except Errno ℕ) := nameiLoop 20 (strlcpy path)

/-- `lookup`: the dentry of the directory a path is in, and the name in it. -/
def lookup (path : Str) : FsM (Except Errno (ℕ × Str)) :=
  if path = [] then pure (.error .enotdir)
  else
    match lastSlash (strlcpy path), lastSlash path with
    | some (dir, _), some (_, name) => do
      match ← namei (if dir = [] then ['/'] else dir) with
      | .error e => pure (.error e)
      | .ok dp => do
        let v ← vnodeOf dp
        if v.vType ≠ .dir then do
          drele dp
          pure (.error .enotdir)
        else pure (.ok (dp, name))
    | _, _ => Cmd.fault .null

/-- `namei_last_nofollow`: the dentry of a path in the directory of `ddp`, a link not
followed. -/
def nameiLastNofollow (path : Str) (ddp : ℕ) : FsM (Except Errno ℕ) :=
  match findRoot path, lastSlash path with
  | some p, some (_, name) =>
    let node := strlcat ['/'] p
    childDentry ddp name (if 1 < node.length ∧ node.getLast? = some '/' then node.dropLast else node)
  | _, _ => pure (.error .enotdir)

end Fs
end Coffer
