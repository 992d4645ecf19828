/-
# Calls on the descriptor of a regular file

`RegFd s fd` is an open descriptor of a regular file with the objects behind it: the file object,
its dentry, the vnode and the node of ramfs. The handlers of `read`, `write` and `lseek` are
functions of these (`readOut`, `writeOut`, `seekOut`), and the descriptor is one of a regular file
again after each.

Key definitions: `RegFd`, `RegFd.readOut`, `RegFd.writeOut`, `RegFd.seekOut`.
Key theorems: `RegFd.preadv_eq`, `RegFd.pwritev_eq`, `RegFd.lseek_eq`.
-/
import Coffer.Vfs.Descriptors

namespace Coffer
namespace Fs

open Lib Lib.Cmd

/-- An open descriptor of a regular file, with the objects behind it. -/
structure RegFd (s : Fs) (fd : ℤ) where
  f : ℕ
  x : VFile
  d : ℕ
  y : Dentry
  v : Vnode
  n : RamNode
  opened : Opened s fd f x
  dentry : x.fDentry = some d
  hd : s.dentries d = some y
  hv : s.vnodes y.dVnode = some v
  reg : v.vType = .reg
  hn : s.nodes v.vData = some n

/-- The state after `putRamFile`. -/
def setRamFile (s : Fs) (v : ℕ) (y : Vnode) (n : RamNode) (file : RamFile) : Fs :=
  { s with
    nodes := Function.update s.nodes y.vData
      (some { n with rnBuf := file.rnBuf, rnBufsize := file.rnBufsize, rnSize := file.rnSize })
    vnodes := Function.update s.vnodes v (some { y with vSize := file.vSize }) }

/-! ### The commands of ramfs on a node that is there -/

theorem ramfsTruncate_ok {s : Fs} {v : Vnode} {n : RamNode} (hn : s.nodes v.vData = some n) (vp : ℕ)
    (length : ℤ) : ramfsTruncate vp v length s =
      match (ramFile n v).truncate length (s.mem s.asked) with
      | .error e => .ok (.error e, s.askIf ((ramFile n v).TruncateAsks length))
      | .ok (file, _) =>
        .ok (.ok (), (s.askIf ((ramFile n v).TruncateAsks length)).setRamFile vp v n file) := by
  rw [ramfsTruncate, bind_of_ok (getNode_ok hn), bind_of_ok (kmallocIf_ok s _)]
  rcases (ramFile n v).truncate length (s.mem s.asked) with e | ⟨file, cs⟩ <;> rfl

theorem ramfsRead_ok {s : Fs} {v : Vnode} {n : RamNode} (hn : s.nodes v.vData = some n) (offset : ℤ)
    (resid : ℕ) : ramfsRead v offset resid s = .ok ((ramFile n v).read offset resid, s) := by
  have hsize : (ramFile n v).vSize = v.vSize := rfl
  unfold ramfsRead
  by_cases h0 : offset < 0
  · rw [if_pos h0, RamFile.read, if_pos h0, pure_run]
  by_cases h1 : resid = 0
  · rw [if_neg h0, if_pos h1, RamFile.read, if_neg h0, if_pos h1, pure_run]
  by_cases h2 : v.vSize ≤ offset
  · rw [if_neg h0, if_neg h1, if_pos h2, RamFile.read, if_neg h0, if_neg h1, hsize, if_pos h2, pure_run]
  · rw [if_neg h0, if_neg h1, if_neg h2, bind_of_ok (getNode_ok hn), pure_run]

/-- A read leaves the state as it is, whether or not it comes to the node. -/
theorem ramfsRead_same (s : Fs) (v : Vnode) (offset : ℤ) (resid : ℕ) :
    wp (ramfsRead v offset resid) (fun _ t => t = s) (fun _ => True) s := by
  unfold ramfsRead
  exact wp_ite (fun _ => rfl) fun _ => wp_ite (fun _ => rfl) fun _ => wp_ite (fun _ => rfl) fun _ =>
    (wp_bind ..).mpr (wp_load_any fun _ => rfl)

theorem ramfsWrite_ok {s : Fs} {v : Vnode} {n : RamNode} (hn : s.nodes v.vData = some n) (vp : ℕ)
    (offset : ℤ) {data : List UInt8} (hdata : data ≠ []) (append : Bool) :
    ramfsWrite vp v offset data append s =
      match (ramFile n v).write offset data append (s.mem s.asked) with
      | .error e => .ok (.error e, s.askIf ((ramFile n v).WriteAsks offset data append))
      | .ok (file, _) =>
        .ok (.ok [⟨v.vData, v.vSize, offset, data, append, s.mem s.asked⟩],
          (s.askIf ((ramFile n v).WriteAsks offset data append)).setRamFile vp v n file) := by
  unfold ramfsWrite
  by_cases h0 : offset < 0
  · rw [if_pos h0, RamFile.write, if_pos h0, askIf_neg s fun hc => absurd hc.1 (by omega)]
    rfl
  by_cases h1 : 2 ^ 63 - 1 ≤ offset
  · rw [if_neg h0, if_pos h1, RamFile.write, if_neg h0, if_pos h1, 
      askIf_neg s fun hc => absurd hc.2.1 (by omega)]
    rfl
  rw [if_neg h0, if_neg h1, if_neg hdata, bind_of_ok (getNode_ok hn),
    bind_of_ok (kmallocIf_ok s _)]
  show (match (ramFile n v).write offset data append (s.mem s.asked) with
    | .error e => pure (.error e)
    | .ok (file, _) => _ : FsM (Except Errno (List FileWrite))) _ = _
  rcases (ramFile n v).write offset data append (s.mem s.asked) with e | ⟨file, cs⟩ <;> rfl

theorem advance_hold (x : VFile) (offset : ℤ) (k : ℕ) : advance (hold x) offset k = hold (advance x offset k) := by
  unfold advance
  split <;> rfl

@[simp] theorem advance_fCount (x : VFile) (offset : ℤ) (k : ℕ) : (advance x offset k).fCount = x.fCount := by
  unfold advance
  split <;> rfl

@[simp] theorem advance_fDentry (x : VFile) (offset : ℤ) (k : ℕ) :
    (advance x offset k).fDentry = x.fDentry := by
  unfold advance
  split <;> rfl

theorem uioOffset_hold (x : VFile) (offset : ℤ) : uioOffset (hold x) offset = uioOffset x offset := rfl

theorem advance_ne {x : VFile} {offset : ℤ} (h : offset ≠ -1) (k : ℕ) : advance x offset k = x := if_neg h

/-- The file behind a file object. -/
def fileOf (s : Fs) (f : ℕ) : Option RamFile := do
  let x ← s.files f
  let d ← x.fDentry
  let y ← s.dentries d
  let v ← s.vnodes y.dVnode
  let n ← s.nodes v.vData
  some (ramFile n v)

namespace RegFd

variable {s : Fs} {fd : ℤ} (R : RegFd s fd)

/-- The regular file. -/
def file : RamFile := ramFile R.n R.v

/-- The objects behind a descriptor are those its slot leads to. -/
theorem unique (R R' : RegFd s fd) : R = R' := by
  obtain ⟨f, x, d, y, v, n, h, hd, hdd, hv, hr, hn⟩ := R
  obtain ⟨f', x', d', y', v', n', h', hd', hdd', hv', hr', hn'⟩ := R'
  obtain rfl := Option.some.inj (h.slot.symm.trans h'.slot)
  obtain rfl := Option.some.inj (h.file.symm.trans h'.file)
  obtain rfl := Option.some.inj (hd.symm.trans hd')
  obtain rfl := Option.some.inj (hdd.symm.trans hdd')
  obtain rfl := Option.some.inj (hv.symm.trans hv')
  obtain rfl := Option.some.inj (hn.symm.trans hn')
  rfl

theorem fileOf_eq : s.fileOf R.f = some R.file := by
  simp [fileOf, R.opened.file, R.dentry, R.hd, R.hv, R.hn, file]

/-- The descriptor with its file object changed. -/
def withObj {x' : VFile} (hc : x'.fCount = R.x.fCount) (hd : x'.fDentry = R.x.fDentry) :
    RegFd (s.setFile R.f x') fd where
  f := R.f
  x := x'
  d := R.d
  y := R.y
  v := R.v
  n := R.n
  opened := R.opened.setFile (by rw [hc]; exact R.opened.count)
  dentry := hd.trans R.dentry
  hd := R.hd
  hv := R.hv
  reg := R.reg
  hn := R.hn

/-- The descriptor with the contents of its file changed. -/
def withContents (file : RamFile) : RegFd (s.setRamFile R.y.dVnode R.v R.n file) fd where
  f := R.f
  x := R.x
  d := R.d
  y := R.y
  v := { R.v with vSize := file.vSize }
  n := { R.n with rnBuf := file.rnBuf, rnBufsize := file.rnBufsize, rnSize := file.rnSize }
  opened := ⟨R.opened.nonneg, R.opened.lt, R.opened.bit, R.opened.slot, R.opened.file, R.opened.count⟩
  dentry := R.dentry
  hd := R.hd
  hv := Function.update_self ..
  reg := R.reg
  hn := Function.update_self ..

/-- The descriptor after a request to the allocator. -/
def asked (c : Prop) [Decidable c] : RegFd (s.askIf c) fd where
  f := R.f
  x := R.x
  d := R.d
  y := R.y
  v := R.v
  n := R.n
  opened := ⟨R.opened.nonneg, R.opened.lt, R.opened.bit, R.opened.slot, R.opened.file, R.opened.count⟩
  dentry := R.dentry
  hd := R.hd
  hv := R.hv
  reg := R.reg
  hn := R.hn

/-- The state inside a call: its descriptor holds one more reference. -/
def inCall : Fs := s.setFile R.f (hold R.x)

theorem getFile_inCall : getFile R.f R.inCall = .ok (hold R.x, R.inCall) := getFile_ok (setFile_self ..)

theorem vnodeOf_inCall : vnodeOf R.d R.inCall = .ok (R.v, R.inCall) := by
  rw [vnodeOf, bind_of_ok (getDentry_ok (show R.inCall.dentries R.d = some R.y from R.hd))]
  exact getVnode_ok R.hv

/-- A call that leaves the state as it is. -/
theorem withFile_same {α : Type} (op : ℕ → FsM (Except Errno α)) {r : Except Errno α}
    (hop : op R.f R.inCall = .ok (r, R.inCall)) : Fs.withFile fd op s = .ok (r, s) := by
  have h := R.opened.withFile op hop (setFile_self ..) R.opened.count
  rw [inCall, setFile_setFile, setFile_eq R.opened.file] at h
  exact h

/-! ### Reading -/

/-- What `sys_read` returns, and the file object after it. -/
def readFile (x : VFile) (file : RamFile) (lens : List ℕ) (offset : ℤ) :
    Except Errno (List UInt8) × VFile :=
  match rwChecks (Flags.has x.fFlags ukFread) lens with
  | .error e => (.error e, x)
  | .ok 0 => (.ok [], x)
  | .ok bytes =>
    match file.read (uioOffset x offset) bytes with
    | .error e => (.error e, x)
    | .ok data => (.ok data, advance x offset data.length)

/-- The handlers look at `f_offset` first. -/
def readOut (lens : List ℕ) (offset : ℤ) : Except Errno (List UInt8) × VFile :=
  if R.x.fOffset < 0 then (.error .einval, R.x) else readFile R.x R.file lens offset

theorem sysRead_inCall (lens : List ℕ) (offset : ℤ) :
    sysRead R.f lens offset R.inCall =
      .ok ((readFile R.x R.file lens offset).1, s.setFile R.f (hold (readFile R.x R.file lens offset).2)) := by
  rw [sysRead, bind_of_ok R.getFile_inCall, readFile, hold_fFlags]
  rcases rwChecks (Flags.has R.x.fFlags ukFread) lens with e | _ | bytes
  · rfl
  · rfl
  · simp only [hold_fDentry, R.dentry]
    rw [bind_of_ok R.vnodeOf_inCall]
    simp only [R.reg]
    rw [bind_of_ok (ramfsRead_ok (show R.inCall.nodes R.v.vData = some R.n from R.hn) ..),
      uioOffset_hold, file]
    rcases (ramFile R.n R.v).read (uioOffset R.x offset) (bytes + 1) with e | data
    · rfl
    · simp only
      rw [bind_of_ok (putFile_ok ..), advance_hold, inCall, setFile_setFile]
      rfl

/-- A read fails, is one of no bytes, or returns what the file has at the position. -/
theorem readOut_cases (lens : List ℕ) (offset : ℤ) :
    (∃ e, R.readOut lens offset = (.error e, R.x)) ∨
    (0 ≤ R.x.fOffset ∧ rwChecks (Flags.has R.x.fFlags ukFread) lens = .ok 0 ∧
      R.readOut lens offset = (.ok [], R.x)) ∨
    ∃ bytes data, 0 ≤ R.x.fOffset ∧
      rwChecks (Flags.has R.x.fFlags ukFread) lens = .ok (bytes + 1) ∧
      R.file.read (uioOffset R.x offset) (bytes + 1) = .ok data ∧
      R.readOut lens offset = (.ok data, advance R.x offset data.length) := by
  unfold readOut readFile
  by_cases h0 : R.x.fOffset < 0
  · exact Or.inl ⟨.einval, if_pos h0⟩
  rw [if_neg h0]
  rcases hc : rwChecks (Flags.has R.x.fFlags ukFread) lens with e | _ | bytes
  · exact Or.inl ⟨e, rfl⟩
  · exact Or.inr (Or.inl ⟨not_lt.mp h0, rfl, rfl⟩)
  · cases hr : R.file.read (uioOffset R.x offset) (bytes + 1) with
    | error e => exact Or.inl ⟨e, by simp only [hr]⟩
    | ok data => exact Or.inr (Or.inr ⟨bytes, data, not_lt.mp h0, rfl, hr, by simp only [hr]⟩)

/-- A read leaves the references and the dentry of the file object. -/
theorem readOut_rest (lens : List ℕ) (offset : ℤ) :
    (R.readOut lens offset).2.fCount = R.x.fCount ∧
      (R.readOut lens offset).2.fDentry = R.x.fDentry := by
  rcases R.readOut_cases lens offset with ⟨e, h⟩ | ⟨-, -, h⟩ | ⟨bytes, data, -, -, -, h⟩
  · rw [h]
    exact ⟨rfl, rfl⟩
  · rw [h]
    exact ⟨rfl, rfl⟩
  · rw [h]
    exact ⟨advance_fCount .., advance_fDentry ..⟩

/-- The handlers of reading, once they have the file. -/
def readOp (lens : List ℕ) (offset : ℤ) (f : ℕ) : FsM (Except Errno (List UInt8)) := do
  let x ← Fs.getFile f
  if offsetOk x then sysRead f lens offset else pure (.error .einval)

theorem withFile_read (lens : List ℕ) (offset : ℤ) : Fs.withFile fd (readOp lens offset) s =
    .ok ((R.readOut lens offset).1, s.setFile R.f (R.readOut lens offset).2) := by
  have hop : readOp lens offset R.f R.inCall =
      .ok ((R.readOut lens offset).1, s.setFile R.f (hold (R.readOut lens offset).2)) := by
    rw [readOp, bind_of_ok R.getFile_inCall, readOut]
    by_cases h : R.x.fOffset < 0
    · have ho : offsetOk (hold R.x) = false := by simp [offsetOk, h, R.dentry]
      rw [if_pos h, ho]
      rfl
    · have ho : offsetOk (hold R.x) = true := by simp [offsetOk, h]
      rw [if_neg h, if_pos ho]
      exact R.sysRead_inCall lens offset
  have h := R.opened.withFile (readOp lens offset) hop (setFile_self ..)
    (by rw [(R.readOut_rest lens offset).1]; exact R.opened.count)
  rw [setFile_setFile] at h
  exact h

theorem readv_eq (lens : List ℕ) : syscallHandlerReadv fd lens s =
    .ok ((R.readOut lens (-1)).1, s.setFile R.f (R.readOut lens (-1)).2) := R.withFile_read lens (-1)

theorem preadv_eq (lens : List ℕ) (offset : ℤ) : syscallHandlerPreadv fd lens offset s =
    .ok ((R.readOut lens offset).1, s.setFile R.f (R.readOut lens offset).2) := by
  rw [← R.withFile_read lens offset, syscallHandlerPreadv]
  apply R.opened.withFile_congr
  show (Fs.getFile R.f >>= _) R.inCall = (Fs.getFile R.f >>= _) R.inCall
  rw [bind_of_ok R.getFile_inCall, bind_of_ok R.getFile_inCall, if_neg (by simp [R.dentry])]

/-! ### Writing -/

/-- What the handlers check before they write. -/
def writeChecks (iov : List (List UInt8)) : Except Errno ℕ :=
  if R.x.fOffset < 0 then .error .einval
  else rwChecks (Flags.has R.x.fFlags ukFwrite) (iov.map List.length)

theorem writeChecks_length {iov : List (List UInt8)} {n : ℕ} (h : R.writeChecks iov = .ok n) :
    n = iov.flatten.length ∧ n < 2 ^ 31 := by
  unfold writeChecks at h
  split at h
  · cases h
  · rw [List.length_flatten]
    exact rwChecks_ok h

/-- The write that ramfs is asked for. -/
def fileWrite (iov : List (List UInt8)) (offset : ℤ) : FileWrite :=
  ⟨R.v.vData, R.v.vSize, uioOffset R.x offset, iov.flatten, Flags.has R.x.fFlags oAppend, s.mem s.asked⟩

/-- The state after `ramfs_write` has asked for the buffer it needs, if it needs one. -/
def writeAsked (iov : List (List UInt8)) (offset : ℤ) : Fs :=
  s.askIf (R.file.WriteAsks (uioOffset R.x offset) iov.flatten (Flags.has R.x.fFlags oAppend))

/-- What a handler of writing returns, and the state after it. -/
def writeOut (iov : List (List UInt8)) (offset : ℤ) : Except Errno (ℕ × List FileWrite) × Fs :=
  match R.writeChecks iov with
  | .error e => (.error e, s)
  | .ok 0 => (.ok (0, []), s)
  | .ok bytes =>
    match (R.fileWrite iov offset).apply R.file with
    | .error e => (.error e, R.writeAsked iov offset)
    | .ok (file, _) =>
      (.ok (bytes, [R.fileWrite iov offset]),
        ((R.writeAsked iov offset).setRamFile R.y.dVnode R.v R.n file).setFile R.f (advance R.x offset bytes))

/-- A write fails before or in ramfs, is one of no bytes, or changes the file. -/
theorem writeOut_cases (iov : List (List UInt8)) (offset : ℤ) :
    (∃ e, R.writeChecks iov = .error e ∧ R.writeOut iov offset = (.error e, s)) ∨
    (R.writeChecks iov = .ok 0 ∧ R.writeOut iov offset = (.ok (0, []), s)) ∨
    (∃ bytes e, R.writeChecks iov = .ok (bytes + 1) ∧ (R.fileWrite iov offset).apply R.file = .error e ∧
      R.writeOut iov offset = (.error e, R.writeAsked iov offset)) ∨
    ∃ bytes file cs, R.writeChecks iov = .ok (bytes + 1) ∧
      (R.fileWrite iov offset).apply R.file = .ok (file, cs) ∧
      R.writeOut iov offset = (.ok (bytes + 1, [R.fileWrite iov offset]),
        ((R.writeAsked iov offset).setRamFile R.y.dVnode R.v R.n file).setFile R.f
          (advance R.x offset (bytes + 1))) := by
  unfold writeOut
  rcases hc : R.writeChecks iov with e | _ | bytes
  · exact Or.inl ⟨e, rfl, rfl⟩
  · exact Or.inr (Or.inl ⟨rfl, rfl⟩)
  · right
    right
    rcases hw : (R.fileWrite iov offset).apply R.file with e | ⟨file, cs⟩
    · exact Or.inl ⟨bytes, e, rfl, rfl, by simp only⟩
    · exact Or.inr ⟨bytes, file, cs, rfl, rfl, by simp only⟩

/-- The state inside a call, after the handler has written. -/
theorem sysWrite_inCall {iov : List (List UInt8)} {bytes : ℕ} (offset : ℤ)
    (hc : rwChecks (Flags.has R.x.fFlags ukFwrite) (iov.map List.length) = .ok (bytes + 1)) :
    sysWrite R.f iov offset R.inCall =
      match (R.fileWrite iov offset).apply R.file with
      | .error e => .ok (.error e, (R.writeAsked iov offset).setFile R.f (hold R.x))
      | .ok (file, _) => .ok (.ok (bytes + 1, [R.fileWrite iov offset]),
          ((R.writeAsked iov offset).setRamFile R.y.dVnode R.v R.n file).setFile R.f
            (hold (advance R.x offset (bytes + 1)))) := by
  have hdata := rwChecks_data hc
  rw [sysWrite, bind_of_ok R.getFile_inCall, hold_fFlags, hc]
  simp only [hold_fDentry, R.dentry]
  rw [bind_of_ok (getDentry_ok (show R.inCall.dentries R.d = some R.y from R.hd)),
    bind_of_ok (getVnode_ok (show R.inCall.vnodes R.y.dVnode = some R.v from R.hv))]
  simp only [R.reg]
  have hw := ramfsWrite_ok (show R.inCall.nodes R.v.vData = some R.n from R.hn) R.y.dVnode
    (uioOffset R.x offset) hdata (Flags.has R.x.fFlags oAppend)
  rw [uioOffset_hold]
  rcases ha : (R.fileWrite iov offset).apply R.file with e | ⟨file, cs⟩
  · simp only [show (ramFile R.n R.v).write (uioOffset R.x offset) iov.flatten
      (Flags.has R.x.fFlags oAppend) (R.inCall.mem R.inCall.asked) = _ from ha] at hw
    rw [bind_of_ok hw]
    rfl
  · simp only [show (ramFile R.n R.v).write (uioOffset R.x offset) iov.flatten
      (Flags.has R.x.fFlags oAppend) (R.inCall.mem R.inCall.asked) = _ from ha] at hw
    rw [bind_of_ok hw]
    show Except.ok (_, (((R.writeAsked iov offset).setFile R.f (hold R.x)).setRamFile R.y.dVnode R.v R.n
      file).setFile R.f (advance (hold R.x) offset (bytes + 1))) = _
    rw [advance_hold]
    exact congrArg (fun t => Except.ok (_, t)) (setFile_setFile
      ((R.writeAsked iov offset).setRamFile R.y.dVnode R.v R.n file) ..)

/-- The handlers of writing, once they have the file. -/
def writeOp (iov : List (List UInt8)) (offset : ℤ) (f : ℕ) : FsM (Except Errno (ℕ × List FileWrite)) := do
  let x ← Fs.getFile f
  if offsetOk x then sysWrite f iov offset else pure (.error .einval)

theorem withFile_write (iov : List (List UInt8)) (offset : ℤ) : Fs.withFile fd (writeOp iov offset) s =
    .ok (R.writeOut iov offset) := by
  by_cases h0 : R.x.fOffset < 0
  · have ho : offsetOk (hold R.x) = false := by simp [offsetOk, h0, R.dentry]
    have hop : writeOp iov offset R.f R.inCall = .ok (.error .einval, R.inCall) := by
      rw [writeOp, bind_of_ok R.getFile_inCall, ho]
      rfl
    rw [R.withFile_same _ hop, writeOut, writeChecks, if_pos h0]
  · have ho : offsetOk (hold R.x) = true := by simp [offsetOk, h0]
    have hop : writeOp iov offset R.f R.inCall = sysWrite R.f iov offset R.inCall := by
      rw [writeOp, bind_of_ok R.getFile_inCall, if_pos ho]
    rw [writeOut, writeChecks, if_neg h0]
    rcases hc : rwChecks (Flags.has R.x.fFlags ukFwrite) (iov.map List.length) with e | _ | bytes
    · refine R.withFile_same _ (hop.trans ?_)
      rw [sysWrite, bind_of_ok R.getFile_inCall, hold_fFlags, hc]
      rfl
    · refine R.withFile_same _ (hop.trans ?_)
      rw [sysWrite, bind_of_ok R.getFile_inCall, hold_fFlags, hc]
      rfl
    · rw [R.sysWrite_inCall offset hc] at hop
      rcases hw : (R.fileWrite iov offset).apply R.file with e | ⟨file, cs⟩
      · rw [hw] at hop
        have h := R.opened.withFile (writeOp iov offset) hop (setFile_self ..) R.opened.count
        rw [h]
        have hs : ((R.writeAsked iov offset).setFile R.f (hold R.x)).setFile R.f R.x =
            R.writeAsked iov offset := by
          rw [setFile_setFile]
          exact setFile_eq R.opened.file
        exact congrArg (fun t => Except.ok (_, t)) hs
      · rw [hw] at hop
        have h := R.opened.withFile (writeOp iov offset) hop (setFile_self ..)
          (by rw [advance_fCount]; exact R.opened.count)
        rw [setFile_setFile] at h
        exact h

theorem writev_eq (iov : List (List UInt8)) :
    syscallHandlerWritev fd iov s = .ok (R.writeOut iov (-1)) := R.withFile_write iov (-1)

theorem pwritev_eq (iov : List (List UInt8)) (offset : ℤ) :
    syscallHandlerPwritev fd iov offset s = .ok (R.writeOut iov offset) := by
  rw [← R.withFile_write iov offset, syscallHandlerPwritev]
  apply R.opened.withFile_congr
  show (Fs.getFile R.f >>= _) R.inCall = (Fs.getFile R.f >>= _) R.inCall
  rw [bind_of_ok R.getFile_inCall, bind_of_ok R.getFile_inCall, if_neg (by simp [R.dentry])]

/-! ### Seeking -/

/-- The position `sys_lseek` computes. -/
def seekTo (off : ℤ) (whence : ℕ) : ℤ :=
  if whence = 1 then toOff (R.x.fOffset + off) else if whence = 2 then toOff (R.v.vSize + off) else off

/-- What `syscall_handler_lseek` finds, and the file object after it. -/
def seekOut (off : ℤ) (whence : ℕ) : Except Errno ℤ × VFile :=
  if R.seekTo off whence < 0 then (.error .einval, R.x)
  else (.ok (R.seekTo off whence), { R.x with fOffset := R.seekTo off whence })

theorem lseek_eq (off : ℤ) (whence : ℕ) : syscallHandlerLseek fd off whence s =
    .ok ((R.seekOut off whence).1, s.setFile R.f (R.seekOut off whence).2) := by
  have hop : sysLseek R.f off whence R.inCall =
      .ok ((R.seekOut off whence).1, s.setFile R.f (hold (R.seekOut off whence).2)) := by
    rw [sysLseek, bind_of_ok R.getFile_inCall]
    simp only [hold_fDentry, R.dentry]
    have hsize : (vnodeOf R.d >>= fun v => (pure v.vSize : FsM ℤ)) R.inCall = .ok (R.v.vSize, R.inCall) := by
      rw [bind_of_ok R.vnodeOf_inCall]
      rfl
    rw [bind_of_ok hsize]
    show (if R.seekTo off whence < 0 then pure (.error .einval) else _ : FsM (Except Errno ℤ)) R.inCall = _
    unfold seekOut
    split
    · rfl
    · show Except.ok (_, (s.setFile R.f (hold R.x)).setFile R.f _) = _
      rw [setFile_setFile, ← R.dentry]
      rfl
  have hc : (R.seekOut off whence).2.fCount = R.x.fCount := by
    unfold seekOut
    split <;> rfl
  have h := R.opened.withFile (fun f => sysLseek f off whence) hop (setFile_self ..)
    (by rw [hc]; exact R.opened.count)
  rw [setFile_setFile] at h
  exact h

end RegFd

/-! ### A file -/

/-- The file system with one file, `/f` with the bytes 1, 2 and 3, and a descriptor 3 for it. -/
def threeBytes (flags : Flags) (offset : ℤ) : Fs :=
  { boot with
    nodes := fun n =>
      if n = 0 then some ⟨['/'], .dir, none, 0, 0, [4]⟩
      else if n = 4 then some ⟨['f'], .reg, some fun i => UInt8.ofNat (i + 1), 0x1000, 3, []⟩
      else none
    vnodes := fun v =>
      if v = 1 then some ⟨0, .dir, true, 0o40700, 0, 1⟩
      else if v = 5 then some ⟨4, .reg, false, 0o7777, 3, 1⟩
      else none
    dentries := fun d =>
      if d = 2 then some ⟨2, ['/'], 1, none⟩
      else if d = 6 then some ⟨1, ['/', 'f'], 5, some 2⟩
      else none
    files := fun f =>
      if f = 3 then some ⟨3, 2, 0, none⟩ else if f = 7 then some ⟨flags, 1, offset, some 6⟩ else none
    hash := [6, 2]
    bitmap := fun fd => fd < 4
    slots := fun fd => if fd < 3 then some 3 else if fd = 3 then some 7 else none
    next := 8 }

/-- The descriptor of the file. -/
def threeBytesFd (flags : Flags) (offset : ℤ) : RegFd (threeBytes flags offset) 3 where
  f := 7
  x := ⟨flags, 1, offset, some 6⟩
  d := 6
  y := ⟨1, ['/', 'f'], 5, some 2⟩
  v := ⟨4, .reg, false, 0o7777, 3, 1⟩
  n := ⟨['f'], .reg, some fun i => UInt8.ofNat (i + 1), 0x1000, 3, []⟩
  opened := ⟨by decide, by decide, rfl, rfl, rfl, le_refl _⟩
  dentry := rfl
  hd := rfl
  hv := rfl
  reg := rfl
  hn := rfl

end Fs
end Coffer
