/-
# What a lookup leaves as it was

To find a path the VFS makes and frees dentries and vnodes; the nodes of ramfs, the files and the
descriptor table stay as they are (`Lookups`). The functions on the way to `namei` and the two
lookups besides it are gone through once, for any property of commands that their few basic steps
have (`LookupRules`). The same is done for what calls do on files (`FileRules`), on the descriptor
table (`TableRules`) and for the calls that make files and directories (`SysRules`).
-/
import Coffer.Vfs.Handlers

namespace Coffer
namespace Fs

open Lib Lib.Cmd

/-- From `s` to `s'` only dentries, vnodes and the hash table may have changed. -/
structure Lookups (s s' : Fs) : Prop where
  nodes : s'.nodes = s.nodes
  files : s'.files = s.files
  slots : s'.slots = s.slots
  bitmap : s'.bitmap = s.bitmap
  mRoot : s'.mRoot = s.mRoot
  cwd : s'.cwd = s.cwd
  mem : s'.mem = s.mem
  addr : s'.addr = s.addr
  around : s'.around = s.around
  next : s.next ≤ s'.next

theorem Lookups.refl (s : Fs) : Lookups s s := ⟨rfl, rfl, rfl, rfl, rfl, rfl, rfl, rfl, rfl, le_refl _⟩

theorem Lookups.trans (a b c : Fs) (h : Lookups a b) (h' : Lookups b c) : Lookups a c :=
  ⟨h'.nodes.trans h.nodes, h'.files.trans h.files, h'.slots.trans h.slots, h'.bitmap.trans h.bitmap,
    h'.mRoot.trans h.mRoot, h'.cwd.trans h.cwd, h'.mem.trans h.mem, h'.addr.trans h.addr,
    h'.around.trans h.around, h.next.trans h'.next⟩

/-! ### What a lookup is made of -/

theorem pathConvLoop_error {n : ℕ} {full src : Str} {e : FsFault} (h : pathConvLoop n full src = .error e) :
    e = .stray := by
  induction n generalizing full src with
  | zero => cases h
  | succ n ih =>
    rw [pathConvLoop] at h
    split at h
    · cases h
    · dsimp only at h
      split at h
      · rename_i e' hup
        cases h
        split at hup
        · unfold upOne at hup
          split at hup
          · cases hup
          · split at hup <;> cases hup
            rfl
        · cases hup
      · split at h
        · cases h
        · exact ih h

theorem pathConv_error {wd cpath : Str} {e : FsFault} (h : pathConv wd cpath = .error e) : e = .stray := by
  unfold pathConv at h
  dsimp only at h
  split at h
  · cases h
  · split at h <;>
    · generalize hl : pathConvLoop _ _ _ = r at h
      cases r with
      | error e' =>
        cases h
        exact pathConvLoop_error hl
      | ok full => cases h

/-- A property of commands that passes to the functions below: that of the steps a lookup takes and of
sequences of them. A lookup does not wait for the host. -/
structure LookupRules (P : ∀ α : Type, FsM α → Prop) : Prop where
  pure : ∀ {α : Type} (a : α), P α (pure a)
  bind : ∀ {α β : Type} {m : FsM α} {k : α → FsM β}, P α m → (∀ a, P β (k a)) → P β (m >>= k)
  fault : ∀ {α : Type} {e : FsFault}, e ≠ .blocked → P α (Cmd.fault e)
  get : P Fs get
  find : ∀ {α : Type} (f : Fs → Option α), P α (Cmd.load f .dangling)
  putDentry : ∀ d x, P Unit (putDentry d x)
  putVnode : ∀ v x, P Unit (putVnode v x)
  setHash : ∀ f : Fs → List ℕ, P Unit (modify fun s => { s with hash := f s })
  kmalloc : P Answer kmalloc
  newId : P ℕ newId

namespace LookupRules

variable {P : ∀ α : Type, FsM α → Prop}

theorem ite {α : Type} {c : Prop} [Decidable c] {m m' : FsM α} (hm : P α m) (hm' : P α m') :
    P α (if c then m else m') := by
  split
  · exact hm
  · exact hm'

variable (h : LookupRules P)

include h

theorem kmallocIf (c : Prop) [Decidable c] : P _ (kmallocIf c) :=
  ite h.kmalloc (h.bind h.get fun _ => h.pure _)

theorem vref (v : ℕ) : P _ (vref v) := h.bind (h.find _) fun _ => h.putVnode _ _

theorem vrele (v : ℕ) : P _ (vrele v) :=
  h.bind (h.find _) fun _ => h.bind (h.putVnode _ _) fun _ => ite (h.pure _) (h.putVnode _ _)

theorem dref (d : ℕ) : P _ (dref d) := h.bind (h.find _) fun _ => h.putDentry _ _

theorem dreleUpTo (n d : ℕ) : P _ (dreleUpTo n d) := by
  induction n generalizing d with
  | zero => exact h.fault (by simp)
  | succ n ih =>
    refine h.bind (h.find _) fun x => h.bind (h.putDentry _ _) fun _ => ite (h.pure _) ?_
    refine h.bind (h.setHash _) fun _ => ?_
    refine h.bind ?_ fun _ => h.bind (h.vrele _) fun _ => h.putDentry _ _
    cases x.dParent with
    | none => exact h.pure _
    | some p => exact ih p

theorem drele (d : ℕ) : P _ (drele d) := h.dreleUpTo _ _

theorem dentryAlloc (parent v : ℕ) (path : Str) : P _ (dentryAlloc parent v path) := by
  refine h.bind h.kmalloc fun _ => ite (h.pure _) (h.bind h.kmalloc fun _ => ite (h.pure _) ?_)
  refine h.bind (h.vref _) fun _ => h.bind h.newId fun _ => h.bind (h.dref _) fun _ => ?_
  exact h.bind (h.putDentry _ _) fun _ => h.bind (h.setHash _) fun _ => h.pure _

theorem dentryLookup (path : Str) : P _ (dentryLookup path) := by
  refine h.bind h.get fun s => ?_
  cases s.hash.find? fun d => (s.dentries d).map Dentry.dPath = some path with
  | none => exact h.pure _
  | some d => exact h.bind (h.dref d) fun _ => h.pure _

theorem vnodeOf (d : ℕ) : P _ (vnodeOf d) := h.bind (h.find _) fun _ => h.find _

theorem findChild (name : Str) (ns : List ℕ) : P _ (findChild name ns) := by
  induction ns with
  | nil => exact h.pure _
  | cons n ns ih => exact h.bind (h.find _) fun _ => ite (h.pure _) ih

theorem ramfsLookup (dvp : Vnode) (name : Str) : P _ (ramfsLookup dvp name) := by
  refine ite (h.pure _) (h.bind (h.find _) fun dnp => h.bind (h.findChild _ _) fun r => ?_)
  cases r with
  | none => exact h.pure _
  | some n =>
    refine h.bind h.kmalloc fun _ => ite (h.fault (by simp)) (h.bind (h.find _) fun _ => h.bind h.newId fun _ => ?_)
    exact h.bind (h.putVnode _ _) fun _ => h.pure _

theorem childDentry (ddp : ℕ) (name node : Str) : P _ (childDentry ddp name node) := by
  refine h.bind (h.dentryLookup _) fun r => ?_
  cases r with
  | some dp => exact h.pure _
  | none =>
    refine h.bind (h.vnodeOf _) fun _ => h.bind (h.ramfsLookup _ _) fun r => ?_
    cases r with
    | error e => exact h.pure _
    | ok vp =>
      refine h.bind (h.dentryAlloc _ _ _) fun dp => h.bind (h.vrele _) fun _ => ?_
      cases dp with
      | none => exact h.pure _
      | some dp => exact h.pure _

theorem readLink (v : Vnode) : P _ (readLink v) :=
  h.bind (h.find _) fun _ => ite (h.fault (by simp)) (h.pure _)

theorem nameiFollowLink (dp : ℕ) (node name fp : Str) (len : ℕ) :
    P _ (nameiFollowLink dp node name fp len) := by
  refine h.bind (h.vnodeOf _) fun _ => h.bind (h.readLink _) fun link => ite (h.pure _) ?_
  dsimp only
  cases hc : pathConv (fp.take (len + (node.length - name.length - 1))) link with
  | error e => exact h.fault (by simp [pathConv_error hc])
  | ok r =>
    cases r with
    | error e => exact h.pure _
    | ok full => exact h.pure _

theorem walk (fp : Str) (len ddp : ℕ) (dp : Option ℕ) (node : Str) (p : List (Str × Bool)) :
    P _ (walk fp len ddp dp node p) := by
  induction p generalizing ddp dp node with
  | nil =>
    cases dp with
    | none => exact h.fault (by simp)
    | some dp => exact h.pure _
  | cons c p ih =>
    refine h.bind (h.childDentry _ _ _) fun r => ?_
    cases r with
    | error e => exact h.bind (h.drele _) fun _ => h.pure _
    | ok dp =>
      refine h.bind (h.drele _) fun _ => h.bind (h.vnodeOf _) fun v => ite ?_ (ite ?_ (ih _ _ _))
      · exact h.bind (h.nameiFollowLink _ _ _ _ _) fun _ => h.bind (h.drele _) fun _ => h.pure _
      · exact h.bind (h.drele _) fun _ => h.pure _

theorem nameiLoop (n : ℕ) (fp : Str) : P _ (nameiLoop n fp) := by
  induction n generalizing fp with
  | zero => exact h.pure _
  | succ n ih =>
    rw [Fs.nameiLoop]
    cases findRoot fp with
    | none => exact h.pure _
    | some p =>
      refine h.bind (h.dentryLookup _) fun r => ?_
      cases r with
      | some dp => exact h.pure _
      | none =>
        refine h.bind h.get fun _ => h.bind (h.dref _) fun _ => h.bind (h.walk _ _ _ _ _ _) fun r => ?_
        rcases r with e | (dp | fp)
        · exact h.pure _
        · exact h.pure _
        · exact ih fp

theorem namei (path : Str) : P _ (namei path) := h.nameiLoop _ _

theorem lookup (path : Str) : P _ (lookup path) := by
  refine ite (h.pure _) ?_
  cases lastSlash (strlcpy path) with
  | none => exact h.fault (by simp)
  | some x =>
    cases lastSlash path with
    | none => exact h.fault (by simp)
    | some y =>
      refine h.bind (h.namei _) fun r => ?_
      cases r with
      | error e => exact h.pure _
      | ok dp => exact h.bind (h.vnodeOf _) fun _ => ite (h.bind (h.drele _) fun _ => h.pure _) (h.pure _)

theorem nameiLastNofollow (path : Str) (ddp : ℕ) : P _ (nameiLastNofollow path ddp) := by
  unfold Fs.nameiLastNofollow
  cases findRoot path with
  | none => exact h.pure _
  | some p =>
    cases lastSlash path with
    | none => exact h.pure _
    | some y => exact h.childDentry _ _ _

theorem openNoFollowChk (path : Str) : P _ (openNoFollowChk path) := by
  refine h.bind (h.lookup _) fun r => ?_
  rcases r with e | ⟨ddp, name⟩
  · exact h.pure _
  · refine h.bind (h.nameiLastNofollow _ _) fun r => ?_
    cases r with
    | error e => exact h.bind (h.drele _) fun _ => h.pure _
    | ok dp => exact h.bind (h.vnodeOf _) fun _ => h.bind (h.drele _) fun _ => h.bind (h.drele _) fun _ => h.pure _

end LookupRules

/-! ### What the calls are made of -/

/-- Beside lookups, file objects are set. -/
structure FileRules (P : ∀ α : Type, FsM α → Prop) : Prop extends LookupRules P where
  putFile : ∀ f x, P Unit (putFile f x)

/-- The descriptor table is set too. -/
structure TableRules (P : ∀ α : Type, FsM α → Prop) : Prop extends FileRules P where
  setTable : ∀ (f : Fs → ℕ → Bool) (g : Fs → ℕ → Option ℕ),
    P Unit (modify fun s => { s with bitmap := f s, slots := g s })

/-- Nodes are made too. -/
structure SysRules (P : ∀ α : Type, FsM α → Prop) : Prop extends FileRules P where
  ramfsCreate : ∀ dnp name type, P _ (ramfsCreate dnp name type)

namespace FileRules

open LookupRules (ite)

variable {P : ∀ α : Type, FsM α → Prop} (h : FileRules P)

include h

theorem fhold (f : ℕ) : P _ (fhold f) := h.bind (h.find _) fun _ => h.putFile _ _

theorem fdrop (f : ℕ) : P _ (fdrop f) := by
  refine h.bind (h.find _) fun x => h.bind (h.putFile _ _) fun _ => ite (h.fault (by simp)) (ite ?_ (h.pure _))
  cases x.fDentry with
  | none => exact h.fault (by simp)
  | some d => exact h.bind (h.drele d) fun _ => h.putFile _ _

theorem vfscoreGetFile (fd : ℤ) : P _ (vfscoreGetFile fd) := by
  refine h.bind h.get fun s => ite (h.pure _) (ite ?_ (h.fault (by simp)))
  cases s.slots fd.toNat with
  | none => exact h.fault (by simp)
  | some f => exact h.bind (h.fhold f) fun _ => h.pure _

theorem withFile {α : Type} (fd : ℤ) {op : ℕ → FsM (Except Errno α)} (hop : ∀ f, P _ (op f)) :
    P _ (withFile fd op) := by
  refine h.bind (h.vfscoreGetFile fd) fun r => ?_
  cases r with
  | none => exact h.pure _
  | some f => exact h.bind (hop f) fun _ => h.bind (h.fdrop f) fun _ => h.pure _

theorem ramfsTruncate (hn : ∀ n x, P Unit (putNode n x)) (vp : ℕ) (v : Vnode) (length : ℤ) :
    P _ (ramfsTruncate vp v length) := by
  refine h.bind (h.find _) fun x => h.bind (h.kmallocIf _) fun a => ?_
  cases (ramFile x v).truncate length a with
  | error e => exact h.pure _
  | ok r => exact h.bind (h.bind (hn _ _) fun _ => h.putVnode _ _) fun _ => h.pure _

/-- A new file object; nodes are touched if the file is truncated. -/
theorem openDentry (hn : ∀ n x, P Unit (putNode n x)) (dp : ℕ) (flags : Flags) :
    P _ (openDentry dp flags) := by
  refine h.bind h.kmalloc fun _ => ite (h.bind (h.drele dp) fun _ => h.pure _) ?_
  refine h.bind h.newId fun f => h.bind (h.putFile _ _) fun _ => ite ?_ (h.pure _)
  have hclose : ∀ e : Errno, P _ (Fs.putFile f none >>= fun _ => Fs.drele dp >>= fun _ =>
      Pure.pure (.error e : Except Errno ℕ)) := fun e =>
    h.bind (h.putFile _ _) fun _ => h.bind (h.drele dp) fun _ => h.pure _
  refine h.bind (h.find _) fun d => h.bind (h.find _) fun v => ite (hclose _) ?_
  refine h.bind (h.ramfsTruncate hn _ _ _) fun r => ?_
  cases r with
  | error e => exact hclose e
  | ok r => exact h.pure _

/-- The node of a new file and its directory. -/
theorem ramfsCreate (hn : ∀ n x, P Unit (putNode n x)) (dnp : ℕ) (name : Str) (type : VType) :
    P _ (ramfsCreate dnp name type) := by
  refine ite (h.pure _) (h.bind h.kmalloc fun _ => ite (h.pure _) ?_)
  refine h.bind h.kmalloc fun _ => ite (h.pure _) (h.bind h.newId fun _ => ?_)
  refine h.bind (hn _ _) fun _ => h.bind (h.find _) fun _ => ?_
  exact h.bind (hn _ _) fun _ => h.pure _

theorem ramfsWrite (hn : ∀ n x, P Unit (putNode n x)) (vp : ℕ) (v : Vnode) (offset : ℤ)
    (data : List UInt8) (append : Bool) : P _ (ramfsWrite vp v offset data append) := by
  refine ite (h.pure _) (ite (h.pure _) (ite (h.pure _) ?_))
  refine h.bind (h.find _) fun x => h.bind (h.kmallocIf _) fun a => ?_
  dsimp only
  split
  · exact h.pure _
  · exact h.bind (h.bind (hn _ _) fun _ => h.putVnode _ _) fun _ => h.pure _

theorem sysWrite (hn : ∀ n x, P Unit (putNode n x)) (f : ℕ) (iov : List (List UInt8)) (offset : ℤ) :
    P _ (sysWrite f iov offset) := by
  refine h.bind (h.find _) fun x => ?_
  split
  · exact h.pure _
  · exact h.pure _
  · split
    · exact ite (h.pure _) (h.pure _)
    · refine h.bind (h.find _) fun y => h.bind (h.find _) fun v => ?_
      cases v.vType with
      | dir => exact h.pure _
      | lnk => exact h.pure _
      | reg =>
        refine h.bind (h.ramfsWrite hn _ _ _ _ _) fun r => ?_
        cases r with
        | error e => exact h.pure _
        | ok ws => exact h.bind (h.putFile _ _) fun _ => h.pure _

theorem syscallHandlerWritev (hn : ∀ n x, P Unit (putNode n x)) (fd : ℤ) (iov : List (List UInt8)) :
    P _ (syscallHandlerWritev fd iov) :=
  h.withFile fd fun f => h.bind (h.find _) fun _ => ite (h.sysWrite hn f iov (-1)) (h.pure _)

end FileRules

namespace TableRules

open LookupRules (ite)

variable {P : ∀ α : Type, FsM α → Prop} (h : TableRules P)

include h

theorem vfscoreAllocFd : P _ vfscoreAllocFd := by
  refine h.bind h.get fun s => ?_
  cases s.freeFd with
  | none => exact h.pure _
  | some fd => exact h.bind (h.setTable (fun s => Function.update s.bitmap fd true) Fs.slots) fun _ => h.pure _

theorem vfscoreInstallFd (fd f : ℕ) : P _ (vfscoreInstallFd fd f) := by
  refine ite (h.pure _) (h.bind (h.fhold f) fun _ => h.bind h.get fun s => ?_)
  refine h.bind (h.setTable Fs.bitmap fun s => Function.update s.slots fd (some f)) fun _ => ?_
  refine h.bind (h.fdrop f) fun _ => h.bind ?_ fun _ => h.pure _
  cases s.slots fd with
  | none => exact h.pure _
  | some orig => exact h.fdrop orig

theorem fdalloc (f : ℕ) : P _ (fdalloc f) := by
  refine h.bind (h.fhold f) fun _ => h.bind h.vfscoreAllocFd fun r => ?_
  cases r with
  | error e => exact h.pure _
  | ok fd =>
    refine h.bind (h.vfscoreInstallFd fd f) fun ret => ?_
    exact ite (h.bind (h.fdrop f) fun _ => h.pure _) (h.pure _)

theorem vfscorePutFd (fd : ℕ) : P _ (vfscorePutFd fd) := by
  refine h.bind h.get fun s => ?_
  refine h.bind (h.setTable (fun s => Function.update s.bitmap fd false)
    fun s => Function.update s.slots fd none) fun _ => ?_
  cases s.slots fd with
  | none => exact h.pure _
  | some f => exact h.fdrop f

theorem openFd (f : ℕ) : P _ (openFd f) := by
  refine h.bind (h.fdalloc f) fun r => ?_
  cases r with
  | error e => exact h.bind (h.fdrop f) fun _ => h.pure _
  | ok fd => exact h.bind (h.fdrop f) fun _ => h.pure _

theorem syscallHandlerClose (fd : ℤ) : P _ (syscallHandlerClose fd) := by
  refine ite (h.pure _) (h.bind (h.vfscoreGetFile fd) fun r => ?_)
  cases r with
  | none => exact h.pure _
  | some f => exact h.bind (h.vfscorePutFd _) fun _ => h.bind (h.fdrop f) fun _ => h.pure _

end TableRules

namespace SysRules

open LookupRules (ite)

variable {P : ∀ α : Type, FsM α → Prop} (h : SysRules P)

include h

theorem openCreate (path : Str) {flags : Flags}
    (hod : ∀ dp mask, P _ (openDentry dp (flags &&& mask))) : P _ (openCreate path flags) := by
  refine h.bind (h.namei path) fun r => ?_
  split
  · exact ite (h.bind (h.drele _) fun _ => h.pure _) (hod _ _)
  · refine h.bind (h.lookup path) fun r => ?_
    rcases r with e | ⟨ddp, filename⟩
    · exact h.pure _
    refine h.bind (h.vnodeOf ddp) fun v => ?_
    cases vnAccessWrite v with
    | error e => exact h.bind (h.drele ddp) fun _ => h.pure _
    | ok _ =>
      refine h.bind (h.ramfsCreate _ _ _) fun r => h.bind (h.drele ddp) fun _ => ?_
      cases r with
      | error e => exact h.pure _
      | ok _ =>
        refine h.bind (h.namei path) fun r => ?_
        cases r with
        | error e => exact h.pure _
        | ok dp =>
          have hd := hod dp (~~~oTrunc &&& ~~~oCreat)
          rw [← BitVec.and_assoc] at hd
          exact hd
  · exact h.pure _

theorem openExisting (path : Str) {flags : Flags} (hod : ∀ dp, P _ (openDentry dp flags)) :
    P _ (openExisting path flags) := by
  refine h.bind (ite (h.openNoFollowChk path) (h.pure _)) fun r => ?_
  cases r with
  | error e => exact h.pure _
  | ok _ =>
    refine h.bind (h.namei path) fun r => ?_
    cases r with
    | error e => exact h.pure _
    | ok dp =>
      refine h.bind (h.vnodeOf dp) fun v => ?_
      dsimp only
      split
      · exact h.bind (h.drele dp) fun _ => h.pure _
      · exact hod _

/-- `sys_open`, where a part of the flags will do for the new file object. -/
theorem sysOpen (path : Str) {oflags : Flags}
    (hod : ∀ dp mask, P _ (openDentry dp (vfscoreFflags oflags &&& mask))) :
    P _ (sysOpen path oflags) := by
  refine ite (h.openCreate path hod) (h.openExisting path fun dp => ?_)
  have hd := hod dp (BitVec.allOnes 32)
  rw [BitVec.and_allOnes] at hd
  exact hd

theorem sysMkdir (path : Str) : P _ (sysMkdir path) := by
  refine h.bind (h.namei path) fun r => ?_
  cases r with
  | ok dp => exact h.bind (h.drele dp) fun _ => h.pure _
  | error e =>
    refine h.bind (h.lookup path) fun r => ?_
    rcases r with e | ⟨ddp, name⟩
    · exact h.pure _
    refine h.bind (h.vnodeOf ddp) fun v => ?_
    cases vnAccessWrite v with
    | error e => exact h.bind (h.drele ddp) fun _ => h.pure _
    | ok _ => exact h.bind (h.ramfsCreate _ _ _) fun _ => h.bind (h.drele ddp) fun _ => h.pure _

theorem mkdirAll (paths : List Str) : P _ (mkdirAll paths) := by
  induction paths with
  | nil => exact h.pure _
  | cons path paths ih => exact h.bind (h.sysMkdir path) fun _ => ih

theorem mkdirDirForFetch (pathname stack : Str) : P _ (mkdirDirForFetch pathname stack) :=
  h.bind (h.mkdirAll _) fun _ => ite (h.fault (by simp)) (h.pure _)

end SysRules

/-! ### The frame of a lookup -/

namespace Lookups

theorem rules : LookupRules fun _ m => Keeps Lookups m where
  pure a := Keeps.of_pure refl a
  bind h hk := Keeps.of_bind trans h hk
  fault _ := Keeps.of_fault _
  get := Keeps.of_get refl
  find f := Keeps.of_load refl f _
  putDentry _ _ := Keeps.of_modify fun _ => ⟨rfl, rfl, rfl, rfl, rfl, rfl, rfl, rfl, rfl, le_refl _⟩
  putVnode _ _ := Keeps.of_modify fun _ => ⟨rfl, rfl, rfl, rfl, rfl, rfl, rfl, rfl, rfl, le_refl _⟩
  setHash _ := Keeps.of_modify fun _ => ⟨rfl, rfl, rfl, rfl, rfl, rfl, rfl, rfl, rfl, le_refl _⟩
  kmalloc := Keeps.of_bind trans (Keeps.of_get refl) fun _ =>
    Keeps.of_bind trans (Keeps.of_modify fun _ => ⟨rfl, rfl, rfl, rfl, rfl, rfl, rfl, rfl, rfl, le_refl _⟩)
      fun _ => Keeps.of_pure refl _
  newId := Keeps.of_bind trans (Keeps.of_get refl) fun _ =>
    Keeps.of_bind trans (Keeps.of_modify fun _ => ⟨rfl, rfl, rfl, rfl, rfl, rfl, rfl, rfl, rfl, Nat.le_succ _⟩)
      fun _ => Keeps.of_pure refl _

end Lookups

/-! ### The frame of what does not touch the table -/

/-- The descriptor table is as it was; objects may have been made. -/
structure SameTable (s s' : Fs) : Prop where
  slots : s'.slots = s.slots
  bitmap : s'.bitmap = s.bitmap
  next : s.next ≤ s'.next

namespace SameTable

theorem refl (s : Fs) : SameTable s s := ⟨rfl, rfl, le_refl _⟩

theorem trans (a b c : Fs) (h : SameTable a b) (h' : SameTable b c) : SameTable a c :=
  ⟨h'.slots.trans h.slots, h'.bitmap.trans h.bitmap, h.next.trans h'.next⟩

theorem files : FileRules fun _ m => Keeps SameTable m where
  pure a := Keeps.of_pure refl a
  bind h hk := Keeps.of_bind trans h hk
  fault _ := Keeps.of_fault _
  get := Keeps.of_get refl
  find f := Keeps.of_load refl f _
  putDentry _ _ := Keeps.of_modify fun _ => ⟨rfl, rfl, le_refl _⟩
  putVnode _ _ := Keeps.of_modify fun _ => ⟨rfl, rfl, le_refl _⟩
  setHash _ := Keeps.of_modify fun _ => ⟨rfl, rfl, le_refl _⟩
  kmalloc := Keeps.of_bind trans (Keeps.of_get refl) fun _ =>
    Keeps.of_bind trans (Keeps.of_modify fun _ => ⟨rfl, rfl, le_refl _⟩) fun _ => Keeps.of_pure refl _
  newId := Keeps.of_bind trans (Keeps.of_get refl) fun _ =>
    Keeps.of_bind trans (Keeps.of_modify fun _ => ⟨rfl, rfl, Nat.le_succ _⟩) fun _ => Keeps.of_pure refl _
  putFile _ _ := Keeps.of_modify fun _ => ⟨rfl, rfl, le_refl _⟩

theorem putNode (n : ℕ) (x : Option RamNode) : Keeps SameTable (putNode n x) :=
  Keeps.of_modify fun _ => ⟨rfl, rfl, le_refl _⟩

theorem sys : SysRules fun _ m => Keeps SameTable m :=
  { files with ramfsCreate := files.ramfsCreate putNode }

theorem sysOpen (path : Str) (oflags : Flags) : Keeps SameTable (sysOpen path oflags) :=
  sys.sysOpen path fun dp _ => files.openDentry putNode dp _

variable {s : Fs}

/-- A step that leaves the table, and what follows it. -/
theorem wp_bind {α β : Type} {m : FsM α} {k : α → FsM β} {Q : β → Fs → Prop} {t : Fs} (hm : Keeps SameTable m)
    (ht : SameTable s t) (hk : ∀ a t', SameTable s t' → wp (k a) Q (fun _ => True) t') :
    wp (m >>= k) Q (fun _ => True) t :=
  (Cmd.wp_bind ..).mpr (wp_mono (hm t) fun a t' h => hk a t' (trans s t t' ht h))

/-- What `sys_open` returns is what `openDentry` returns, or an error. -/
theorem wp_sysOpen {Q : Except Errno ℕ → Fs → Prop} {path : Str} {oflags : Flags}
    (he : ∀ e t, SameTable s t → Q (.error e) t)
    (hod : ∀ dp mask t, mask &&& oAccmode = oAccmode → SameTable s t →
      wp (openDentry dp (vfscoreFflags oflags &&& mask)) Q (fun _ => True) t) :
    wp (Fs.sysOpen path oflags) Q (fun _ => True) s := by
  have hdrop {t : Fs} (dp : ℕ) (e : Errno) (ht : SameTable s t) :
      wp (drele dp >>= fun _ => (pure (.error e) : FsM (Except Errno ℕ))) Q (fun _ => True) t :=
    wp_bind (files.drele dp) ht fun _ t => he e t
  refine wp_ite (fun _ => wp_bind (files.namei path) (refl s) fun r t ht => ?_) fun _ =>
    wp_bind (LookupRules.ite (P := fun _ m => Keeps SameTable m) (files.openNoFollowChk path) (files.pure _))
      (refl s) fun r t ht => ?_
  · split
    · exact wp_ite (fun _ => hdrop _ _ ht) fun _ => hod _ _ _ rfl ht
    · refine wp_bind (files.lookup path) ht fun r t ht => ?_
      rcases r with e | ⟨ddp, name⟩
      · exact he _ _ ht
      refine wp_bind (files.vnodeOf ddp) ht fun v t ht => ?_
      cases vnAccessWrite v with
      | error e => exact hdrop _ _ ht
      | ok _ =>
        refine wp_bind (sys.ramfsCreate _ _ _) ht fun r t ht => wp_bind (files.drele ddp) ht fun _ t ht => ?_
        cases r with
        | error e => exact he _ _ ht
        | ok _ =>
          refine wp_bind (files.namei path) ht fun r t ht => ?_
          cases r with
          | error e => exact he _ _ ht
          | ok dp =>
            have hd := hod dp (~~~oTrunc &&& ~~~oCreat) t rfl ht
            rw [← BitVec.and_assoc] at hd
            exact hd
    · exact he _ _ ht
  · cases r with
    | error e => exact he _ _ ht
    | ok _ =>
      refine wp_bind (files.namei path) ht fun r t ht => ?_
      cases r with
      | error e => exact he _ _ ht
      | ok dp =>
        refine wp_bind (files.vnodeOf dp) ht fun v t ht => ?_
        dsimp only
        split
        · exact hdrop _ _ ht
        · have hd := hod dp (BitVec.allOnes 32) t rfl ht
          rw [BitVec.and_allOnes] at hd
          exact hd

end SameTable

end Fs
end Coffer
