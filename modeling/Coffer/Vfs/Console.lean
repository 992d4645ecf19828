/-
# write and writev of the dispatcher

The dispatcher of `emod_manager/trap/syscalls.c` takes `SYS_write` on the descriptors 0 to 2 to a
routine of its own, which writes to the console whatever the VFS has at these descriptors and stops
the enclave for 0 and 2. `SYS_writev` always goes to the VFS. A descriptor comes in a register of 64
bits; `is_stdio` compares all of them, the handlers take an `int`.

`write_agrees_iff`: the two calls agree exactly if the descriptor is not 0 or 2 and, if it is 1, the VFS
has the console there, ready to be written.

Key definitions: `sysWriteCase`, `sysWritevCase`, `Agree`, `Stdout`.
-/
import Coffer.Vfs.RegularFile

namespace Coffer
namespace Fs

open Lib Lib.Cmd

/-! ### The dispatcher -/

def isStdio (fd : BitVec 64) : Bool := fd = 0 ∨ fd = 1 ∨ fd = 2

/-- The register of a descriptor as an `int`. -/
def fdArg (fd : BitVec 64) : ℤ := toInt fd.toNat

/-- `syscall_handler_write_stdio`: the value, and what it puts on the console. -/
def syscallHandlerWriteStdio (fd : ℤ) (buf : List UInt8) : FsM (ℤ × List UInt8) :=
  if fd ≠ 1 then Cmd.fault .panic else pure (toInt buf.length, buf)

/-- The file of a descriptor has the operations of `vfs/stdio.c`. -/
def onConsole (s : Fs) (fd : ℤ) : Bool :=
  match s.slots fd.toNat with
  | none => false
  | some f => (s.files f).any fun x => x.fDentry.isNone

/-- What a `writev` puts on the console: `stdio_write` puts all bytes there if it is called, and returns
`ESPIPE` before the first one or 0. -/
def consoleBytes (s : Fs) (fd : ℤ) (iov : List (List UInt8)) (r : Except Errno (ℕ × List FileWrite)) :
    List UInt8 :=
  match r with
  | .error _ => []
  | .ok _ => if s.onConsole fd then iov.flatten else []

/-- `syscall_handler_writev`, with what it puts on the console. -/
def writevOut (fd : ℤ) (iov : List (List UInt8)) : FsM (ℤ × List UInt8) := do
  let s ← get
  let r ← syscallHandlerWritev fd iov
  pure (retOf r fun n => n.1, consoleBytes s fd iov r)

/-- `SYS_writev` in `syscall_handler`. -/
def sysWritevCase (fd : BitVec 64) (iov : List (List UInt8)) : FsM (ℤ × List UInt8) := writevOut (fdArg fd) iov

/-- `SYS_write` in `syscall_handler`; `syscall_handler_write` is `syscall_handler_writev` with one entry. -/
def sysWriteCase (fd : BitVec 64) (buf : List UInt8) : FsM (ℤ × List UInt8) :=
  if isStdio fd then syscallHandlerWriteStdio (fdArg fd) buf else writevOut (fdArg fd) [buf]

/-! ### When they agree -/

/-- The two calls return the same value, put the same bytes on the console and leave the same state, and
neither panics. -/
def Agree (s : Fs) (fd : BitVec 64) (buf : List UInt8) : Prop :=
  sysWriteCase fd buf s = sysWritevCase fd [buf] s ∧
    sysWriteCase fd buf s ≠ .error .panic ∧ sysWritevCase fd [buf] s ≠ .error .panic

/-- The descriptor 1 has a file that is open to write, and it is the console at the position 0, or there
is nothing to write. -/
def Stdout (s : Fs) (buf : List UInt8) : Prop :=
  ∃ f x, s.bitmap 1 = true ∧ s.slots 1 = some f ∧ s.files f = some x ∧ x.fCount ≠ 0 ∧ x.fCount ≠ -1 ∧
    Flags.has x.fFlags ukFwrite = true ∧
    ((x.fDentry = none ∧ x.fOffset = 0) ∨ (buf = [] ∧ offsetOk x = true))

variable {s : Fs} {buf : List UInt8}

theorem fdArg_of_lt {fd : BitVec 64} (h : fd.toNat < 2 ^ 31) : fdArg fd = fd.toNat :=
  toInt_eq (by omega) (by omega)

theorem fdArg_one : fdArg 1 = 1 := fdArg_of_lt (by decide)

theorem sysWriteCase_panic {fd : BitVec 64} (h : fd = 0 ∨ fd = 2) : sysWriteCase fd buf s = .error .panic := by
  rcases h with rfl | rfl <;>
  · rw [sysWriteCase, if_pos (by decide), syscallHandlerWriteStdio, fdArg_of_lt (by decide), if_pos (by decide)]
    rfl

theorem sysWriteCase_one (hn : buf.length < 2 ^ 31) :
    sysWriteCase 1 buf s = .ok ((buf.length, buf), s) := by
  have h : toInt buf.length = buf.length := toInt_eq (by omega) (by omega)
  rw [sysWriteCase, if_pos (by decide), syscallHandlerWriteStdio, fdArg_one, if_neg (by decide), h]
  rfl

theorem rwChecks_single {allowed : Bool} (hn : buf.length < 2 ^ 31) :
    rwChecks allowed [buf.length] = if allowed then .ok buf.length else .error .ebadf := by
  cases allowed with
  | false => rfl
  | true =>
    simp only [rwChecks, iovTotal]
    rw [if_neg (by decide), if_neg (by omega)]
    simp

theorem sysWrite_stdout {f : ℕ} {x : VFile} (hn : buf.length < 2 ^ 31) (hx : s.files f = some x)
    (hw : Flags.has x.fFlags ukFwrite = true)
    (hd : (x.fDentry = none ∧ x.fOffset = 0) ∨ buf = []) :
    ∃ ws, sysWrite f [buf] (-1) s = .ok (.ok (buf.length, ws), s) := by
  refine ⟨[], ?_⟩
  rw [sysWrite, bind_of_ok (getFile_ok hx)]
  simp only [List.map_cons, List.map_nil]
  rw [rwChecks_single hn, hw, if_pos rfl]
  rcases hbuf : buf.length with _ | k
  · rfl
  · rcases hd with ⟨hd, h0⟩ | rfl
    · have hu : ¬ uioOffset x (-1) ≠ 0 := not_not.mpr h0
      simp only [hd, if_neg hu]
      rfl
    · cases hbuf

theorem writevOut_one (hn : buf.length < 2 ^ 31) (h : Stdout s buf) :
    sysWritevCase 1 [buf] s = .ok ((buf.length, buf), s) := by
  obtain ⟨f, x, hb, hslot, hx, hc0, hc1, hw, hd⟩ := h
  have hoff : offsetOk x = true := by
    rcases hd with ⟨hd, -⟩ | ⟨-, ho⟩
    · simp [offsetOk, hd]
    · exact ho
  have hget : vfscoreGetFile 1 s = .ok (some f, s.setFile f (hold x)) := by
    rw [vfscoreGetFile, bind_get, testBit_inside s (by decide) (by decide)]
    rw [if_neg (by rw [show (1 : ℤ).toNat = 1 from rfl, hb]; decide), if_pos (by decide),
      show (1 : ℤ).toNat = 1 from rfl, hslot]
    show (fhold f >>= fun _ => pure (some f)) s = _
    rw [bind_of_ok (fhold_ok hx)]
    rfl
  obtain ⟨ws, hop⟩ := sysWrite_stdout (f := f) (x := hold x) hn (setFile_self s f (hold x)) hw
    (hd.imp id And.left)
  have hwv : syscallHandlerWritev 1 [buf] s = .ok (.ok (buf.length, ws), s) := by
    rw [syscallHandlerWritev, Fs.withFile, bind_of_ok hget]
    show ((getFile f >>= fun y => if offsetOk y then sysWrite f [buf] (-1) else pure (.error .einval)) >>=
      fun r => fdrop f >>= fun _ => pure r) (s.setFile f (hold x)) = _
    have hin : (getFile f >>= fun y => if offsetOk y then sysWrite f [buf] (-1) else pure (.error .einval))
        (s.setFile f (hold x)) = .ok (.ok (buf.length, ws), s.setFile f (hold x)) := by
      rw [bind_of_ok (getFile_ok (setFile_self ..)), if_pos (show offsetOk (hold x) = true from hoff), hop]
    rw [bind_of_ok hin, bind_of_ok (fdrop_hold (setFile_self ..) hc0 hc1), setFile_setFile, setFile_eq hx]
    rfl
  have hout : consoleBytes s 1 [buf] (.ok (buf.length, ws)) = buf := by
    show (if s.onConsole 1 then [buf].flatten else []) = buf
    rcases hd with ⟨hd, -⟩ | ⟨rfl, -⟩
    · have : s.onConsole 1 = true := by
        simp [onConsole, hslot, hx, hd]
      simp [this]
    · simp
  rw [sysWritevCase, writevOut, bind_get, fdArg_one, bind_of_ok hwv]
  show Except.ok (((buf.length : ℤ), consoleBytes s 1 [buf] (.ok (buf.length, ws))), s) = _
  rw [hout]

/-! ### When they do not -/

/-- If the state is as it was once the reference is dropped, it was not the last one. -/
theorem fdrop_back {f : ℕ} {x : VFile} (hx : s.files f = some x) :
    wp (fdrop f) (fun _ t => t = s → x.fCount ≠ 0 ∧ x.fCount ≠ -1) (fun _ => True) (s.setFile f (hold x)) := by
  by_cases hc : x.fCount = 0 ∨ x.fCount = -1
  · rw [fdrop, wp_bind, wp_ok (getFile_ok (setFile_self ..)), wp_bind, wp_ok (putFile_ok ..)]
    refine wp_ite (fun _ => trivial) fun h0 => wp_ite (fun _ => ?_) fun h1 => ?_
    · rw [hold_fDentry]
      rcases x.fDentry with _ | d
      · trivial
      · refine wp_bind_any fun _ t => ?_
        rintro hts
        have hgone : (Function.update t.files f none : ℕ → Option VFile) f = some x := by
          rw [← hx, ← hts]
        rw [Function.update_self] at hgone
        cases hgone
    · have h0' : x.fCount + 1 ≠ 0 := h0
      have h1' : x.fCount + 1 ≠ 1 := h1
      omega
  · push Not at hc
    exact wp_of_forall fun _ _ _ => hc

/-- A `writev` on the descriptor 1 that leaves the state and writes to the console, or has nothing to
write, found the descriptor ready. -/
theorem writev_one_wp (s : Fs) (hn : buf.length < 2 ^ 31) :
    wp (syscallHandlerWritev 1 [buf]) (fun r t => t = s → (∃ a, r = .ok a) →
      (buf = [] ∨ s.onConsole 1 = true) → Stdout s buf) (fun _ => True) s := by
  rw [syscallHandlerWritev, Fs.withFile, wp_bind, vfscoreGetFile, wp_bind, wp_get,
    testBit_inside s (by decide) (by decide), show (1 : ℤ).toNat = 1 from rfl]
  refine wp_ite (fun _ => ?_) fun hbit => wp_ite (fun _ => ?_) fun _ => trivial
  · rintro - ⟨a, ha⟩
    cases ha
  have hbit' : s.bitmap 1 = true := by simpa using hbit
  rcases hslot : s.slots 1 with _ | f
  · trivial
  refine (wp_bind ..).mpr ((wp_bind ..).mpr (wp_load_iff.mpr ⟨fun x hx => ?_, fun _ => trivial⟩))
  replace hx : s.files f = some x := hx
  show wp (_ >>= fun r => fdrop f >>= fun _ => pure r) _ _ (s.setFile f (hold x))
  rw [wp_bind, wp_bind, wp_ok (getFile_ok (setFile_self ..))]
  -- what the call has seen of the file, if it returns a number of bytes
  have hdrop (r : Except Errno (ℕ × List FileWrite))
      (hready : (∃ a, r = .ok a) → Flags.has x.fFlags ukFwrite = true ∧
        ((x.fDentry = none ∧ x.fOffset = 0) ∨ (buf = [] ∧ offsetOk x = true))) :
      wp (fdrop f >>= fun _ => (pure r : FsM _)) (fun r t => t = s → (∃ a, r = .ok a) →
        (buf = [] ∨ s.onConsole 1 = true) → Stdout s buf) (fun _ => True) (s.setFile f (hold x)) := by
    refine (wp_bind ..).mpr (wp_mono (fdrop_back hx) fun _ t hc => ?_)
    rintro hts hr -
    obtain ⟨hw, hd⟩ := hready hr
    exact ⟨f, x, hbit', hslot, hx, (hc hts).1, (hc hts).2, hw, hd⟩
  have herr (e : Errno) := hdrop (.error e) (by rintro ⟨a, ha⟩; cases ha)
  refine wp_ite (fun hoff => ?_) fun _ => herr _
  rw [sysWrite, wp_bind, wp_ok (getFile_ok (setFile_self ..)), hold_fFlags]
  simp only [List.map_cons, List.map_nil]
  rw [rwChecks_single hn]
  rcases hw : Flags.has x.fFlags ukFwrite with _ | _
  · exact herr _
  rw [if_pos rfl]
  rcases hk : buf.length with _ | k
  · have hnil : buf = [] := List.length_eq_zero_iff.mp hk
    exact hdrop _ fun _ => ⟨hw, Or.inr ⟨hnil, hoff⟩⟩
  simp only [hold_fDentry]
  rcases hd : x.fDentry with _ | d
  · exact wp_ite (fun _ => herr _) fun hu => hdrop _ fun _ => ⟨hw, Or.inl ⟨hd, not_not.mp hu⟩⟩
  · -- a file that is not the console: nothing is put there
    have hcons : ¬ (buf = [] ∨ s.onConsole 1 = true) := by
      rintro (rfl | hon)
      · cases hk
      · simp [onConsole, hslot, hx, hd] at hon
    exact wp_of_forall fun r t => wp_of_forall fun _ t _ _ hout => absurd hout hcons

/-! ### No panic -/

/-- No fault of this command is a panic. -/
def NoPanic {α : Type} (m : FsM α) (Q : α → Fs → Prop) (s : Fs) : Prop := wp m Q (fun e => e ≠ .panic) s

theorem dreleUpTo_noPanic (n d : ℕ) (s : Fs) : NoPanic (dreleUpTo n d) (fun _ _ => True) s := by
  induction n generalizing d s with
  | zero => exact fun h => (by cases h)
  | succ n ih =>
    refine (wp_bind ..).mpr (wp_load_iff.mpr ⟨fun x _ => ?_, fun _ h => (by cases h)⟩)
    refine wp_ite (fun _ => trivial) fun _ => ?_
    rw [wp_bind, wp_modify, wp_bind]
    have hend (t : Fs) : wp (vrele x.dVnode >>= fun _ => putDentry d none) (fun _ _ => True)
        (fun e => e ≠ .panic) t := by
      refine (wp_bind ..).mpr ((wp_bind ..).mpr (wp_load_iff.mpr ⟨fun v _ => ?_, fun _ h => (by cases h)⟩))
      exact wp_ite (fun _ => trivial) fun _ => trivial
    rcases x.dParent with _ | p
    · exact hend _
    · exact wp_mono (ih p _) fun _ t _ => hend t

/-- The objects that a write of `buf` through the file object comes to are there. -/
def WriteLands (s : Fs) (x : VFile) (buf : List UInt8) : Prop :=
  ∀ d, x.fDentry = some d → 0 ≤ x.fOffset → Flags.has x.fFlags ukFwrite = true → buf ≠ [] →
    ∃ y v, s.dentries d = some y ∧ s.vnodes y.dVnode = some v ∧
      (v.vType = .reg → x.fOffset < 2 ^ 63 - 1 → (s.nodes v.vData).isSome)

/-- A write to a regular file returns and leaves the file objects, or its node is gone. -/
theorem ramfsWrite_ends (vp : ℕ) (v : Vnode) {offset : ℤ} (h0 : 0 ≤ offset) (data : List UInt8) (hd : data ≠ [])
    (append : Bool) (s : Fs) :
    ((offset < 2 ^ 63 - 1 → (s.nodes v.vData).isSome) ∧
      ∃ r t, ramfsWrite vp v offset data append s = .ok (r, t) ∧ t.files = s.files) ∨
    ¬ (offset < 2 ^ 63 - 1 → (s.nodes v.vData).isSome) ∧
      ramfsWrite vp v offset data append s = .error .dangling := by
  by_cases hbig : 2 ^ 63 - 1 ≤ offset
  · refine Or.inl ⟨fun h => absurd h (not_lt.mpr hbig), .error .efbig, s, ?_, rfl⟩
    rw [ramfsWrite, if_neg (not_lt.mpr h0), if_pos hbig]
    rfl
  rcases hn : s.nodes v.vData with _ | n
  · refine Or.inr ⟨fun h => absurd (h (not_le.mp hbig)) (by simp), ?_⟩
    rw [ramfsWrite, if_neg (not_lt.mpr h0), if_neg hbig, if_neg hd]
    exact bind_of_error (load_of_none hn)
  · refine Or.inl ⟨fun _ => rfl, ?_⟩
    rw [ramfsWrite_ok hn vp offset hd append]
    rcases (ramFile n v).write offset data append (s.mem s.asked) with e | ⟨file, cs⟩
    · exact ⟨_, _, rfl, rfl⟩
    · exact ⟨_, _, rfl, rfl⟩

/-- `sys_write` at the position: it returns and keeps the count of the file, or one of its objects is
gone. -/
theorem sysWrite_ends {f : ℕ} {x : VFile} (hx : s.files f = some x) (hn : buf.length < 2 ^ 31) :
    (WriteLands s x buf ∧ ∃ r t y, RegFd.writeOp [buf] (-1) f s = .ok (r, t) ∧ t.files f = some y ∧
      y.fCount = x.fCount) ∨
    ¬ WriteLands s x buf ∧ RegFd.writeOp [buf] (-1) f s = .error .dangling := by
  have hsame (r : Except Errno (ℕ × List FileWrite)) (h : RegFd.writeOp [buf] (-1) f s = .ok (r, s)) :
      ∃ r t y, RegFd.writeOp [buf] (-1) f s = .ok (r, t) ∧ t.files f = some y ∧ y.fCount = x.fCount :=
    ⟨r, s, x, h, hx, rfl⟩
  have hop : RegFd.writeOp [buf] (-1) f s =
      (if offsetOk x then sysWrite f [buf] (-1) else pure (.error .einval) : FsM _) s := by
    rw [RegFd.writeOp, bind_of_ok (getFile_ok hx)]
  by_cases hoff : offsetOk x = true
  swap
  · refine Or.inl ⟨fun d hd h0 => ?_, hsame (.error .einval) (hop.trans (by rw [if_neg hoff]; rfl))⟩
    exact absurd h0 (not_le.mpr (by simpa [offsetOk, hd] using hoff))
  rw [if_pos hoff, sysWrite, bind_of_ok (getFile_ok hx)] at hop
  simp only [List.map_cons, List.map_nil] at hop
  rw [rwChecks_single hn] at hop
  rcases hw : Flags.has x.fFlags ukFwrite with _ | _
  · rw [hw] at hop
    exact Or.inl ⟨fun d _ _ h => absurd (hw.symm.trans h) Bool.false_ne_true, hsame _ hop⟩
  rw [hw, if_pos rfl] at hop
  rcases hk : buf.length with _ | k
  · rw [hk] at hop
    exact Or.inl ⟨fun d _ _ _ h => absurd (List.length_eq_zero_iff.mp hk) h, hsame _ hop⟩
  have hbuf : buf ≠ [] := by
    rintro rfl
    cases hk
  rw [hk] at hop
  simp only at hop
  rcases hd : x.fDentry with _ | d
  · refine Or.inl ⟨fun d h => absurd (hd.symm.trans h) (Option.some_ne_none d).symm, ?_⟩
    simp only [hd] at hop
    by_cases hu : uioOffset x (-1) ≠ 0
    · rw [if_pos hu] at hop
      exact hsame _ hop
    · rw [if_neg hu] at hop
      exact hsame _ hop
  simp only [hd] at hop
  have h0 : 0 ≤ x.fOffset := by simpa [offsetOk, hd] using hoff
  have hlands : WriteLands s x buf ↔ ∃ y v, s.dentries d = some y ∧ s.vnodes y.dVnode = some v ∧
      (v.vType = .reg → x.fOffset < 2 ^ 63 - 1 → (s.nodes v.vData).isSome) := by
    constructor
    · exact fun h => h d hd h0 hw hbuf
    · intro h d' hd' _ _ _
      obtain rfl := Option.some.inj (hd.symm.trans hd')
      exact h
  rw [hlands]
  rcases hy : s.dentries d with _ | y
  · refine Or.inr ⟨?_, hop.trans (bind_of_error (load_of_none hy))⟩
    rintro ⟨y, v, h, -⟩
    cases h
  rw [bind_of_ok (getDentry_ok hy)] at hop
  rcases hv : s.vnodes y.dVnode with _ | v
  · refine Or.inr ⟨?_, hop.trans (bind_of_error (load_of_none hv))⟩
    rintro ⟨y', v, h, h', -⟩
    obtain rfl := Option.some.inj h
    rw [hv] at h'
    cases h'
  rw [bind_of_ok (getVnode_ok hv)] at hop
  have hthere : (∃ y' v', some y = some y' ∧ s.vnodes y'.dVnode = some v' ∧
      (v'.vType = .reg → x.fOffset < 2 ^ 63 - 1 → (s.nodes v'.vData).isSome)) ↔
      (v.vType = .reg → x.fOffset < 2 ^ 63 - 1 → (s.nodes v.vData).isSome) := by
    constructor
    · rintro ⟨y', v', h, h', hs⟩
      obtain rfl := Option.some.inj h
      obtain rfl := Option.some.inj (hv.symm.trans h')
      exact hs
    · exact fun hs => ⟨y, v, rfl, hv, hs⟩
  rw [hthere]
  cases ht : v.vType with
  | dir =>
    simp only [ht] at hop
    exact Or.inl ⟨fun h => absurd h (by decide), hsame _ hop⟩
  | lnk =>
    simp only [ht] at hop
    exact Or.inl ⟨fun h => absurd h (by decide), hsame _ hop⟩
  | reg =>
    simp only [ht] at hop
    rcases ramfsWrite_ends y.dVnode v h0 [buf].flatten (by simpa using hbuf) (Flags.has x.fFlags oAppend) s
      with ⟨hs, r, t, hr, hfiles⟩ | ⟨hs, hr⟩
    · refine Or.inl ⟨fun _ => hs, ?_⟩
      rw [show uioOffset x (-1) = x.fOffset from rfl, bind_of_ok hr] at hop
      rcases r with e | ws
      · exact ⟨_, t, x, hop, (congrFun hfiles f).trans hx, rfl⟩
      · exact ⟨_, _, _, hop, Function.update_self .., advance_fCount ..⟩
    · refine Or.inr ⟨fun h => hs (h rfl), ?_⟩
      rw [show uioOffset x (-1) = x.fOffset from rfl, bind_of_error hr] at hop
      exact hop

/-- The descriptor leads to a file with the count −1, and its write comes to the end, where that count
is dropped. -/
def CountFails (s : Fs) (fd : ℤ) (buf : List UInt8) : Prop :=
  ∃ f x, 0 ≤ fd ∧ fd < fdtableMaxFiles ∧ s.bitmap fd.toNat = true ∧ s.slots fd.toNat = some f ∧
    s.files f = some x ∧ x.fCount = -1 ∧ WriteLands s x buf

theorem fdrop_panic_iff {f : ℕ} {x : VFile} (hx : s.files f = some x) :
    fdrop f s = .error .panic ↔ x.fCount = 0 := by
  constructor
  · intro he
    by_contra hc
    have h : wp (fdrop f) (fun _ _ => True) (fun e => e ≠ .panic) s := by
      rw [fdrop, wp_bind, wp_ok (getFile_ok hx), wp_bind, wp_ok (putFile_ok ..), if_neg hc]
      refine wp_ite (fun _ => ?_) fun _ => trivial
      rcases x.fDentry with _ | d
      · exact fun h => (by cases h)
      · exact (wp_bind ..).mpr (wp_mono (dreleUpTo_noPanic _ d _) fun _ _ _ => trivial)
    exact fault_of_wp h he rfl
  · intro hc
    rw [fdrop, bind_of_ok (getFile_ok hx), bind_of_ok (putFile_ok ..), if_pos hc]
    rfl

/-- **When a `writev` panics**: exactly if it drops a count that was −1. -/
theorem writev_panic_iff (fd : ℤ) (s : Fs) (hn : buf.length < 2 ^ 31) :
    syscallHandlerWritev fd [buf] s = .error .panic ↔ CountFails s fd buf := by
  have hcall : syscallHandlerWritev fd [buf] s = Fs.withFile fd (RegFd.writeOp [buf] (-1)) s := rfl
  rw [hcall, Fs.withFile]
  by_cases hin : 0 ≤ fd ∧ fd < fdtableMaxFiles
  swap
  · -- outside the table there is no file
    have hnot : ¬ CountFails s fd buf := by
      rintro ⟨f, x, h0, h1, -⟩
      exact hin ⟨h0, h1⟩
    refine iff_of_false (fun h => ?_) hnot
    by_cases hb : s.testBit fd = false
    · have hget : vfscoreGetFile fd s = .ok (none, s) := by
        rw [vfscoreGetFile, bind_get, if_pos hb]
        rfl
      rw [bind_of_ok hget] at h
      cases h
    · have hget : vfscoreGetFile fd s = .error .stray := by
        rw [vfscoreGetFile, bind_get, if_neg hb, if_neg hin]
        rfl
      rw [bind_of_error hget] at h
      cases h
  have hbit := testBit_inside s hin.1 hin.2
  by_cases hb : s.bitmap fd.toNat = true
  swap
  · have hget : vfscoreGetFile fd s = .ok (none, s) := by
      rw [vfscoreGetFile, bind_get, hbit, if_pos (by simpa using hb)]
      rfl
    rw [bind_of_ok hget]
    refine iff_of_false (fun h => by cases h) ?_
    rintro ⟨f, x, -, -, h, -⟩
    exact hb h
  rcases hs : s.slots fd.toNat with _ | f
  · have hget : vfscoreGetFile fd s = .error .null := by
      rw [vfscoreGetFile, bind_get, hbit, if_neg (by simp [hb]), if_pos hin, hs]
      rfl
    rw [bind_of_error hget]
    refine iff_of_false (fun h => by cases h) ?_
    rintro ⟨f, x, -, -, -, h, -⟩
    cases hs.symm.trans h
  have hfind : vfscoreGetFile fd s = (fhold f >>= fun _ => pure (some f) : FsM _) s := by
    rw [vfscoreGetFile, bind_get, hbit, if_neg (by simp [hb]), if_pos hin, hs]
  rcases hx : s.files f with _ | x
  · have hget : vfscoreGetFile fd s = .error .dangling :=
      hfind.trans (bind_of_error (bind_of_error (load_of_none hx)))
    rw [bind_of_error hget]
    refine iff_of_false (fun h => by cases h) ?_
    rintro ⟨f', x, -, -, -, h, h', -⟩
    obtain rfl := Option.some.inj (hs.symm.trans h)
    rw [hx] at h'
    cases h'
  have hget : vfscoreGetFile fd s = .ok (some f, s.setFile f (hold x)) := by
    rw [hfind, bind_of_ok (fhold_ok hx)]
    rfl
  have hfails : CountFails s fd buf ↔ x.fCount = -1 ∧ WriteLands s x buf := by
    constructor
    · rintro ⟨f', x', -, -, -, h, h', hc⟩
      obtain rfl := Option.some.inj (hs.symm.trans h)
      obtain rfl := Option.some.inj (hx.symm.trans h')
      exact hc
    · exact fun hc => ⟨f, x, hin.1, hin.2, hb, hs, hx, hc⟩
  rw [bind_of_ok hget, hfails]
  show (RegFd.writeOp [buf] (-1) f >>= fun r => fdrop f >>= fun _ => pure r) (s.setFile f (hold x)) = _ ↔ _
  rcases sysWrite_ends (s := s.setFile f (hold x)) (setFile_self ..) hn with ⟨hl, r, t, y, hr, hy, hc⟩ | ⟨hl, hr⟩
  · replace hl : WriteLands s x buf := hl
    rw [bind_of_ok hr, and_iff_left hl]
    have hc : y.fCount = x.fCount + 1 := hc
    have hdrop := fdrop_panic_iff hy
    rcases hd : fdrop f t with e | ⟨a, u⟩
    · have hcount : y.fCount = 0 ↔ x.fCount = -1 := by omega
      rw [bind_of_error hd, ← hcount, ← hdrop, hd]
      simp only [Except.error.injEq]
    · rw [bind_of_ok hd]
      rw [hd] at hdrop
      exact iff_of_false (fun h => by cases h) fun h => by cases hdrop.mpr (by omega)
  · rw [bind_of_error hr]
    exact iff_of_false (fun h => by cases h) fun h => hl h.2

/-! ### write and writev -/

/-- **`write` and `writev` agree** on a descriptor exactly if it is neither 0 nor 2 and, if it is 1, the VFS
has the console there, at the position 0 and open to write, or a file open to write and no bytes; and
the call does not drop a count that was −1. -/
theorem write_agrees_iff (s : Fs) (fd : BitVec 64) (buf : List UInt8) (hn : buf.length < 2 ^ 31) :
    Agree s fd buf ↔ fd ≠ 0 ∧ fd ≠ 2 ∧ (fd = 1 → Stdout s buf) ∧ ¬ CountFails s (fdArg fd) buf := by
  have hpanic : sysWritevCase fd [buf] s ≠ .error .panic ↔ ¬ CountFails s (fdArg fd) buf := by
    rw [← writev_panic_iff (fdArg fd) s hn, sysWritevCase, writevOut, bind_get]
    rcases hr : syscallHandlerWritev (fdArg fd) [buf] s with e | ⟨r, t⟩
    · rw [bind_of_error hr]
      simp
    · rw [bind_of_ok hr]
      exact iff_of_true (fun h => (by cases h)) (by simp)
  by_cases h0 : fd = 0
  · subst h0
    exact iff_of_false (fun h => h.2.1 (sysWriteCase_panic (Or.inl rfl))) fun h => h.1 rfl
  by_cases h2 : fd = 2
  · subst h2
    exact iff_of_false (fun h => h.2.1 (sysWriteCase_panic (Or.inr rfl))) fun h => h.2.1 rfl
  by_cases h1 : fd = 1
  · subst h1
    constructor
    · rintro ⟨he, -, hp⟩
      refine ⟨h0, h2, fun _ => ?_, hpanic.mp hp⟩
      rw [sysWriteCase_one hn, sysWritevCase, writevOut, bind_get, fdArg_one] at he
      rcases hr : syscallHandlerWritev 1 [buf] s with e | ⟨r, t⟩
      · rw [bind_of_error hr] at he
        cases he
      · rw [bind_of_ok hr] at he
        simp only [pure_run, Except.ok.injEq, Prod.mk.injEq] at he
        obtain ⟨⟨hv, hout⟩, hts⟩ := he
        rcases r with e | a
        · have := retOf_neg e fun n : ℕ × List FileWrite => (n.1 : ℤ)
          omega
        · refine of_wp (writev_one_wp s hn) hr hts.symm ⟨a, rfl⟩ ?_
          by_cases hcons : s.onConsole 1 = true
          · exact Or.inr hcons
          · refine Or.inl (hout.trans ?_)
            show (if s.onConsole 1 then [buf].flatten else []) = []
            rw [if_neg hcons]
    · rintro ⟨-, -, hst, hp⟩
      have heq := writevOut_one hn (hst rfl)
      refine ⟨by rw [heq, sysWriteCase_one hn], ?_, hpanic.mpr hp⟩
      rw [sysWriteCase_one hn]
      exact fun h => (by cases h)
  · have hcase : sysWriteCase fd buf s = sysWritevCase fd [buf] s := by
      have hstd : ¬ isStdio fd = true := by
        simp only [isStdio, decide_eq_true_eq, not_or]
        exact ⟨h0, h1, h2⟩
      rw [sysWriteCase, if_neg hstd]
      rfl
    constructor
    · rintro ⟨-, -, hp⟩
      exact ⟨h0, h2, fun h => absurd h h1, hpanic.mp hp⟩
    · rintro ⟨-, -, -, hp⟩
      exact ⟨hcase, by rw [hcase]; exact hpanic.mpr hp, hpanic.mpr hp⟩

theorem boot_stdout (buf : List UInt8) : Stdout boot buf :=
  ⟨3, ⟨3, 2, 0, none⟩, rfl, rfl, rfl, by decide, by decide, rfl, Or.inl ⟨rfl, rfl⟩⟩

theorem boot_counts (fd : ℤ) (buf : List UInt8) : ¬ CountFails boot fd buf := by
  rintro ⟨f, x, -, -, -, -, hx, hc, -⟩
  simp only [boot, Fs.init] at hx
  split at hx
  · cases hx
    cases hc
  · cases hx

theorem write_agrees_hello : Agree boot 1 [104, 105] :=
  (write_agrees_iff boot 1 [104, 105] (by norm_num)).mpr
    ⟨by decide, by decide, fun _ => boot_stdout _, boot_counts _ _⟩

/-- **`write` and `writev` that differ.** `writev` to the standard error puts its byte on the console;
`write` panics. After `lseek` to 5 on the standard output, `write` still writes and `writev` answers
`ESPIPE`. -/
theorem write_panics : sysWriteCase 2 [65] boot = .error .panic ∧
    (sysWritevCase 2 [[65]] boot).toOption.map Prod.fst = some (1, [65]) ∧
    ((exec (.lseek 1 5 0) boot).toOption.map fun r =>
      ((sysWriteCase 1 [65] r.2).toOption.map Prod.fst, (sysWritevCase 1 [[65]] r.2).toOption.map Prod.fst)) =
      some (some (1, [65]), some (-29, [])) := by
  refine ⟨sysWriteCase_panic (Or.inr rfl), ?_, ?_⟩ <;> decide +kernel

end Fs
end Coffer
