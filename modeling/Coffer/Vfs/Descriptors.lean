/-
# Descriptors, open and not open

Every call on a descriptor begins with `vfscore_get_file`. On a descriptor that is open, the call
gets one more reference to the file and gives it back at the end: `Opened.withFile` takes the two
out, so that what is left to look at is the call on the file.

On a descriptor that is not open the bit decides, and the bit of a number outside the table is
read from the memory around the bitmap. `badFd_iff`: the calls answer `-EBADF`, change nothing and
read inside the table exactly if the number is in the table and the call is not one of the two
that answer something else.

Key definitions: `IsOpen`, `Opened`, `Call.fd?`, `Call.accesses`.
Key theorems: `Opened.withFile`, `badFd_iff`.
-/
import Coffer.Vfs.Frame

namespace Coffer
namespace Fs

open Lib Lib.Cmd

/-! ### A descriptor that is open -/

/-- A file object is set. -/
def setFile (s : Fs) (f : ℕ) (x : VFile) : Fs := { s with files := Function.update s.files f (some x) }

@[simp] theorem setFile_self (s : Fs) (f : ℕ) (x : VFile) : (s.setFile f x).files f = some x :=
  Function.update_self ..

@[simp] theorem setFile_setFile (s : Fs) (f : ℕ) (x y : VFile) :
    (s.setFile f x).setFile f y = s.setFile f y := by
  simp only [setFile, Function.update_idem]

theorem setFile_eq {s : Fs} {f : ℕ} {x : VFile} (h : s.files f = some x) : s.setFile f x = s := by
  rw [setFile, ← h, Function.update_eq_self]

theorem putFile_ok (s : Fs) (f : ℕ) (x : VFile) : putFile f (some x) s = .ok ((), s.setFile f x) := rfl

theorem getFile_ok {s : Fs} {f : ℕ} {x : VFile} (h : s.files f = some x) : getFile f s = .ok (x, s) :=
  load_of_some h

/-- The file with one more reference. -/
def hold (x : VFile) : VFile := { x with fCount := x.fCount + 1 }

@[simp] theorem hold_fFlags (x : VFile) : (hold x).fFlags = x.fFlags := rfl

@[simp] theorem hold_fOffset (x : VFile) : (hold x).fOffset = x.fOffset := rfl

@[simp] theorem hold_fDentry (x : VFile) : (hold x).fDentry = x.fDentry := rfl

/-- The descriptor is the index of an open slot. -/
def IsOpen (s : Fs) (fd : ℤ) : Prop :=
  0 ≤ fd ∧ fd < fdtableMaxFiles ∧ s.bitmap fd.toNat = true ∧ ∃ f, s.slots fd.toNat = some f

/-- The slot of `fd` is open and holds the file `f`, the object of which is `x`. -/
structure Opened (s : Fs) (fd : ℤ) (f : ℕ) (x : VFile) : Prop where
  nonneg : 0 ≤ fd
  lt : fd < fdtableMaxFiles
  bit : s.bitmap fd.toNat = true
  slot : s.slots fd.toNat = some f
  file : s.files f = some x
  count : 1 ≤ x.fCount

theorem testBit_inside (s : Fs) {fd : ℤ} (h : 0 ≤ fd) (h' : fd < fdtableMaxFiles) :
    s.testBit fd = s.bitmap fd.toNat := if_pos ⟨h, h'⟩

theorem fhold_ok {s : Fs} {f : ℕ} {x : VFile} (h : s.files f = some x) :
    fhold f s = .ok ((), s.setFile f (hold x)) := by
  rw [fhold, bind_of_ok (getFile_ok h)]
  rfl

theorem fdrop_hold {s : Fs} {f : ℕ} {x : VFile} (h : s.files f = some (hold x)) (hc : x.fCount ≠ 0)
    (hc' : x.fCount ≠ -1) : fdrop f s = .ok ((), s.setFile f x) := by
  have h0 : (hold x).fCount ≠ 0 := by
    show x.fCount + 1 ≠ 0
    omega
  have h1 : (hold x).fCount ≠ 1 := by
    show x.fCount + 1 ≠ 1
    omega
  have hx : { hold x with fCount := (hold x).fCount - 1 } = x := by
    show { x with fCount := x.fCount + 1 - 1 } = x
    rw [add_sub_cancel_right]
  rw [fdrop, bind_of_ok (getFile_ok h), hx, bind_of_ok (putFile_ok s f x), if_neg h0, if_neg h1]
  rfl

/-- `fdrop` of a reference that is not the last. -/
theorem fdrop_held {s : Fs} {f : ℕ} {x : VFile} (h : s.files f = some (hold x)) (hc : 1 ≤ x.fCount) :
    fdrop f s = .ok ((), s.setFile f x) := fdrop_hold h (by omega) (by omega)

namespace Opened

variable {s : Fs} {fd : ℤ} {f : ℕ} {x : VFile}

theorem getFile (h : Opened s fd f x) : vfscoreGetFile fd s = .ok (some f, s.setFile f (hold x)) := by
  have hb : s.testBit fd ≠ false := by
    rw [testBit_inside s h.nonneg h.lt, h.bit]
    decide
  rw [vfscoreGetFile, bind_get, if_neg hb, if_pos ⟨h.nonneg, h.lt⟩, h.slot]
  show (fhold f >>= fun _ => pure (some f)) s = _
  rw [bind_of_ok (fhold_ok h.file)]
  rfl

/-- The descriptor stays open when its file changes, its count aside. -/
theorem setFile (h : Opened s fd f x) {y : VFile} (hy : 1 ≤ y.fCount) : Opened (s.setFile f y) fd f y :=
  ⟨h.nonneg, h.lt, h.bit, h.slot, setFile_self s f y, hy⟩

/-- **A call on an open descriptor** is the call on its file with one more reference; that reference
is dropped at the end. -/
theorem withFile (h : Opened s fd f x) {α : Type} (op : ℕ → FsM (Except Errno α)) {r : Except Errno α}
    {s' : Fs} {y : VFile} (hop : op f (s.setFile f (hold x)) = .ok (r, s'))
    (hy : s'.files f = some (hold y)) (hc : 1 ≤ y.fCount) :
    withFile fd op s = .ok (r, s'.setFile f y) := by
  rw [Fs.withFile, bind_of_ok h.getFile]
  show (op f >>= fun r => fdrop f >>= fun _ => pure r) (s.setFile f (hold x)) = _
  rw [bind_of_ok hop, bind_of_ok (fdrop_held hy hc)]
  rfl

/-- Only what the call does on the file matters. -/
theorem withFile_congr (h : Opened s fd f x) {α : Type} {op op' : ℕ → FsM (Except Errno α)}
    (hop : op f (s.setFile f (hold x)) = op' f (s.setFile f (hold x))) :
    Fs.withFile fd op s = Fs.withFile fd op' s := by
  rw [Fs.withFile, Fs.withFile, bind_of_ok h.getFile, bind_of_ok h.getFile]
  show (op f (s.setFile f (hold x)) >>= _) = (op' f (s.setFile f (hold x)) >>= _)
  rw [hop]

end Opened

/-! ### A new descriptor -/

/-- A slot whose bit is clear is empty. -/
def TableOk (s : Fs) : Prop := ∀ fd, s.bitmap fd = false → s.slots fd = none

/-- The state with a descriptor `fd` for the file `f`. -/
def addFd (s : Fs) (fd f : ℕ) : Fs :=
  { s with bitmap := Function.update s.bitmap fd true, slots := Function.update s.slots fd (some f) }

theorem TableOk.addFd {s : Fs} (h : TableOk s) (fd f : ℕ) : TableOk (s.addFd fd f) := by
  intro i hi
  by_cases he : i = fd
  · subst he
    simp [Fs.addFd] at hi
  · simp only [Fs.addFd, Function.update_of_ne he] at hi ⊢
    exact h i hi

theorem freeFd_some {s : Fs} {fd : ℕ} (h : s.freeFd = some fd) : fd < fdtableMaxFiles ∧ s.bitmap fd = false := by
  unfold freeFd at h
  exact ⟨List.mem_range.mp (List.mem_of_find?_eq_some h), by simpa using List.find?_some h⟩

theorem freeFd_none {s : Fs} (h : s.freeFd = none) {fd : ℕ} (hfd : fd < fdtableMaxFiles) :
    s.bitmap fd = true := by
  unfold freeFd at h
  simpa using List.find?_eq_none.mp h fd (List.mem_range.mpr hfd)

theorem freeFd_setFile (s : Fs) (f : ℕ) (x : VFile) : (s.setFile f x).freeFd = s.freeFd := by
  unfold freeFd
  rfl

/-- `fdalloc` with a full table keeps the reference it took. -/
theorem fdalloc_full {s : Fs} {f : ℕ} {x : VFile} (h : s.files f = some x) (hfree : s.freeFd = none) :
    fdalloc f s = .ok (.error (-Errno.enfile.code), s.setFile f (hold x)) := by
  have ha : vfscoreAllocFd (s.setFile f (hold x)) =
      .ok (.error (-Errno.enfile.code), s.setFile f (hold x)) := by
    rw [vfscoreAllocFd, bind_get, freeFd_setFile, hfree]
    rfl
  rw [fdalloc, bind_of_ok (fhold_ok h), bind_of_ok ha]
  rfl

theorem vfscoreInstallFd_ok {s : Fs} {f fd : ℕ} {x : VFile} (hfd : fd < fdtableMaxFiles)
    (hslot : s.slots fd = none) (h : s.files f = some x) (hc : 1 ≤ x.fCount) :
    vfscoreInstallFd fd f s = .ok (0, { s with slots := Function.update s.slots fd (some f) }) := by
  rw [vfscoreInstallFd, if_neg (not_le.mpr hfd), bind_of_ok (fhold_ok h), bind_get, bind_modify]
  have hd := fdrop_held (s := { s.setFile f (hold x) with slots := Function.update s.slots fd (some f) })
    (setFile_self s f (hold x)) hc
  refine (bind_of_ok hd).trans ?_
  have hback : ((s.setFile f (hold x)).setFile f x) = s := by
    rw [setFile_setFile, setFile_eq h]
  rw [show (s.setFile f (hold x)).slots fd = none from hslot]
  show (.ok (0, { (s.setFile f (hold x)).setFile f x with slots := Function.update s.slots fd (some f) }) :
    Except FsFault (ℤ × Fs)) = _
  rw [hback]

/-- `fdalloc` takes the first free slot. -/
theorem fdalloc_free {s : Fs} {f fd : ℕ} {x : VFile} (ht : TableOk s) (h : s.files f = some x)
    (hfree : s.freeFd = some fd) (hc : 0 ≤ x.fCount) :
    fdalloc f s = .ok (.ok fd, (s.setFile f (hold x)).addFd fd f) := by
  obtain ⟨hlt, hbit⟩ := freeFd_some hfree
  have ha : vfscoreAllocFd (s.setFile f (hold x)) = .ok (.ok fd,
      { s.setFile f (hold x) with bitmap := Function.update s.bitmap fd true }) := by
    rw [vfscoreAllocFd, bind_get, freeFd_setFile, hfree]
    rfl
  have hi := vfscoreInstallFd_ok (f := f)
    (s := { s.setFile f (hold x) with bitmap := Function.update s.bitmap fd true })
    (x := hold x) hlt (ht fd hbit) (setFile_self s f (hold x)) (by show 1 ≤ x.fCount + 1; omega)
  rw [fdalloc, bind_of_ok (fhold_ok h), bind_of_ok ha]
  refine (bind_of_ok hi).trans ?_
  rw [if_neg (by decide)]
  rfl

/-- `openFd` with a free slot. -/
theorem openFd_free {s : Fs} {f : ℕ} {x : VFile} (ht : TableOk s) (hx : s.files f = some x) (hc : 1 ≤ x.fCount) {fd : ℕ}
    (hfree : s.freeFd = some fd) : openFd f s = .ok (fd, (s.addFd fd f).setFile f x) := by
  rw [openFd, bind_of_ok (fdalloc_free ht hx hfree (by omega))]
  show (fdrop f >>= fun _ => pure (fd : ℤ)) ((s.addFd fd f).setFile f (hold x)) = _
  rw [bind_of_ok (fdrop_held (setFile_self ..) hc), setFile_setFile]
  rfl

/-- `openFd` with a full table. -/
theorem openFd_full {s : Fs} {f : ℕ} {x : VFile} (hx : s.files f = some x) (hc : 1 ≤ x.fCount) (hfree : s.freeFd = none) :
    openFd f s = .ok (Errno.enfile.code, s) := by
  rw [openFd, bind_of_ok (fdalloc_full hx hfree)]
  refine (bind_of_ok (fdrop_held (setFile_self s f (hold x)) hc)).trans ?_
  rw [setFile_setFile, setFile_eq hx]
  rfl

/-! ### A descriptor that is not open -/

/-- The descriptor of a call on one. -/
def Call.fd? : Call → Option ℤ
  | .open .. => none
  | .read fd _ => some fd
  | .pread fd _ _ => some fd
  | .write fd _ => some fd
  | .pwrite fd _ _ => some fd
  | .lseek fd _ _ => some fd
  | .fstat fd => some fd
  | .ftruncate fd _ => some fd
  | .fsync fd => some fd
  | .fcntl fd _ _ => some fd
  | .getdents fd _ _ => some fd
  | .close fd => some fd
  | .unlinkat _ => none

/-- What a call on a descriptor that is not open reads of the table; `getdents` does not look if
there is nothing to fill. -/
def Call.accesses (s : Fs) : Call → List TableAccess
  | .getdents fd dirp count => if dirp = false ∨ count = 0 then [] else getFileAccesses s fd
  | c => (c.fd?.map (getFileAccesses s)).getD []

/-- The two ways to answer something else than `-EBADF`: `fstat` answers -1 to every error, and
`getdents` looks at its buffer first. -/
def Call.Reports : Call → Prop
  | .fstat _ => False
  | .getdents _ dirp count => dirp = true ∧ count ≠ 0
  | _ => True

/-- `close` answers 0 to the standard streams. -/
def Call.NotStdio : Call → Prop
  | .close fd => 2 < fd
  | _ => True

variable {s : Fs} {fd : ℤ}

/-- The bit is clear, or something is read that is not there. -/
theorem vfscoreGetFile_not_open (h : ¬ IsOpen s fd) :
    (s.testBit fd = false ∧ vfscoreGetFile fd s = .ok (none, s)) ∨
      (s.testBit fd = true ∧ ∃ e, vfscoreGetFile fd s = .error e) := by
  rw [vfscoreGetFile, bind_get]
  cases hb : s.testBit fd with
  | false => exact Or.inl ⟨rfl, rfl⟩
  | true =>
    right
    refine ⟨rfl, ?_⟩
    rw [if_neg (by decide)]
    by_cases hr : 0 ≤ fd ∧ fd < fdtableMaxFiles
    · rw [if_pos hr]
      cases hs : s.slots fd.toNat with
      | none => exact ⟨.null, rfl⟩
      | some f =>
        rw [testBit_inside s hr.1 hr.2] at hb
        exact absurd ⟨hr.1, hr.2, hb, f, hs⟩ h
    · rw [if_neg hr]
      exact ⟨.stray, rfl⟩

/-- The value and the state of a call on a descriptor whose bit is clear. -/
def Call.closedValue : Call → ℤ
  | .fstat _ => -1
  | .getdents _ dirp count => if dirp = false ∨ count = 0 then 0 else -Errno.ebadf.code
  | _ => -Errno.ebadf.code

theorem withFile_closed (h : vfscoreGetFile fd s = .ok (none, s)) {α : Type}
    (op : ℕ → FsM (Except Errno α)) : withFile fd op s = .ok (.error .ebadf, s) := by
  rw [withFile, bind_of_ok h]
  rfl

theorem withFile_stray {e : FsFault} (h : vfscoreGetFile fd s = .error e) {α : Type}
    (op : ℕ → FsM (Except Errno α)) : withFile fd op s = .error e := bind_of_error h

/-- **On a descriptor whose bit is clear** every call gives up at once. -/
theorem exec_closed {c : Call} (hfd : c.fd? = some fd) (hc : c.NotStdio)
    (h : vfscoreGetFile fd s = .ok (none, s)) : exec c s = .ok (c.closedValue, s) := by
  cases c with
  | «open» => cases hfd
  | unlinkat => cases hfd
  | close fd' =>
    cases hfd
    have hne : ¬ (fd = 0 ∨ fd = 1 ∨ fd = 2) := by
      have : 2 < fd := hc
      omega
    rw [exec, syscallHandlerClose, if_neg hne, bind_of_ok h]
    rfl
  | fcntl fd' cmd arg =>
    cases hfd
    rw [exec, syscallHandlerFcntl]
    split
    · rw [syscallHandlerDupfd, bind_of_ok h]
      rfl
    split
    · rw [syscallHandlerDupfd, bind_of_ok h]
      rfl
    · rw [bind_of_ok h]
      rfl
  | getdents fd' dirp count =>
    cases hfd
    rw [exec, syscallHandlerGetdents, Call.closedValue]
    by_cases hn : dirp = false ∨ count = 0
    · rw [if_pos hn, if_pos hn]
      rfl
    · rw [if_neg hn, if_neg hn]
      obtain ⟨n, rfl⟩ : ∃ n, count = n + 1 := Nat.exists_eq_succ_of_ne_zero fun h0 => hn (Or.inr h0)
      have hr : readdirR fd s = .ok (.error .ebadf, s) := by
        rw [readdirR, bind_of_ok (withFile_closed h _)]
        rfl
      have hl : getdentsLoop fd (n + 1) [] s = .ok (.error .ebadf, s) := by
        rw [getdentsLoop, bind_of_ok hr]
        rfl
      rw [bind_of_ok hl]
      rfl
  | _ =>
    cases hfd
    rw [exec]
    exact bind_of_ok (withFile_closed h _)

/-- A call that does not come back from `vfscore_get_file`. -/
theorem exec_stray {c : Call} {e : FsFault} (hfd : c.fd? = some fd) (hc : c.NotStdio)
    (hrep : c.Reports) (h : vfscoreGetFile fd s = .error e) : exec c s = .error e := by
  cases c with
  | «open» => cases hfd
  | unlinkat => cases hfd
  | fstat => exact hrep.elim
  | close fd' =>
    cases hfd
    have hne : ¬ (fd = 0 ∨ fd = 1 ∨ fd = 2) := by
      have : 2 < fd := hc
      omega
    rw [exec, syscallHandlerClose, if_neg hne]
    exact bind_of_error h
  | fcntl fd' cmd arg =>
    cases hfd
    rw [exec, syscallHandlerFcntl]
    split
    · exact bind_of_error h
    split
    · exact bind_of_error h
    · exact bind_of_error h
  | getdents fd' dirp count =>
    cases hfd
    obtain ⟨hd, h0⟩ := hrep
    obtain ⟨n, rfl⟩ := Nat.exists_eq_succ_of_ne_zero h0
    have hn : ¬ (dirp = false ∨ n + 1 = 0) := by simp [hd]
    rw [exec, syscallHandlerGetdents, if_neg hn]
    exact bind_of_error (bind_of_error (bind_of_error (withFile_stray h _)))
  | _ =>
    cases hfd
    rw [exec]
    exact bind_of_error (withFile_stray h _)

theorem bitmap_inside_iff (fd : ℤ) :
    (TableAccess.bitmap (fd / 8)).Inside ↔ 0 ≤ fd ∧ fd < fdtableMaxFiles := by
  show 0 ≤ fd / 8 ∧ fd / 8 < 128 ↔ 0 ≤ fd ∧ fd < (1024 : ℤ)
  omega

theorem Call.accesses_eq {c : Call} (hfd : c.fd? = some fd) (hrep : c.Reports) (s : Fs) :
    c.accesses s = getFileAccesses s fd := by
  cases c with
  | getdents fd' dirp count =>
    cases hfd
    have hn : ¬ (dirp = false ∨ count = 0) := by simp [hrep.1, hrep.2]
    exact if_neg hn
  | _ => cases hfd <;> rfl

theorem Call.closedValue_eq_iff (c : Call) : c.closedValue = -Errno.ebadf.code ↔ c.Reports := by
  cases c with
  | getdents fd' dirp count =>
    by_cases hn : dirp = false ∨ count = 0
    · simp only [Call.closedValue, if_pos hn, Call.Reports]
      constructor
      · intro h
        exact absurd (show (0 : ℤ) = -9 from h) (by decide)
      · rintro ⟨h1, h2⟩
        rcases hn with hn | hn
        · rw [h1] at hn
          cases hn
        · exact absurd hn h2
    · simp only [Call.closedValue, if_neg hn, Call.Reports, true_iff]
      push Not at hn
      exact ⟨by simpa using hn.1, hn.2⟩
  | fstat => exact ⟨fun h => absurd (show (-1 : ℤ) = -9 from h) (by decide), False.elim⟩
  | _ => exact ⟨fun _ => trivial, fun _ => rfl⟩

/-- **Bad descriptors.** A call on a descriptor that is not open answers `-EBADF`, leaves the state
and reads inside the table only, exactly if the number is in the table with its bit clear, and the
call is neither `fstat` nor a `getdents` with nothing to fill. -/
theorem badFd_iff (s : Fs) (c : Call) (fd : ℤ) (hfd : c.fd? = some fd) (hopen : ¬ IsOpen s fd)
    (hc : c.NotStdio) :
    (exec c s = .ok (-Errno.ebadf.code, s) ∧ ∀ a ∈ c.accesses s, a.Inside) ↔
      (0 ≤ fd ∧ fd < fdtableMaxFiles ∧ s.bitmap fd.toNat = false) ∧ c.Reports := by
  constructor
  · rintro ⟨hr, ha⟩
    have hrep : c.Reports := by
      rcases vfscoreGetFile_not_open hopen with ⟨-, h⟩ | ⟨-, e, h⟩
      · rw [exec_closed hfd hc h] at hr
        simp only [Except.ok.injEq, Prod.mk.injEq, and_true] at hr
        exact c.closedValue_eq_iff.mp hr
      · by_contra hn
        cases c with
        | fstat fd' =>
          cases hfd
          rw [exec, syscallHandlerFstat, bind_of_error (withFile_stray h _)] at hr
          cases hr
        | getdents fd' dirp count =>
          cases hfd
          by_cases h0 : dirp = false ∨ count = 0
          · rw [exec, syscallHandlerGetdents, if_pos h0] at hr
            have hv : (.ok (0, s) : Except FsFault (ℤ × Fs)) = .ok (-9, s) := hr
            simp at hv
          · push Not at h0
            exact hn ⟨by simpa using h0.1, h0.2⟩
        | _ => exact hn trivial
    rw [Call.accesses_eq hfd hrep] at ha
    have hin := (bitmap_inside_iff fd).mp (ha _ (List.mem_cons_self ..))
    refine ⟨⟨hin.1, hin.2, ?_⟩, hrep⟩
    rcases vfscoreGetFile_not_open hopen with ⟨hb, -⟩ | ⟨-, e, h⟩
    · rw [← hb, testBit_inside s hin.1 hin.2]
    · rw [exec_stray hfd hc hrep h] at hr
      cases hr
  · rintro ⟨⟨h0, h1, hb⟩, hrep⟩
    rw [← testBit_inside s h0 h1] at hb
    rcases vfscoreGetFile_not_open hopen with ⟨-, h⟩ | ⟨hb', -⟩
    · refine ⟨?_, ?_⟩
      · rw [exec_closed hfd hc h, c.closedValue_eq_iff.mpr hrep]
      · rw [Call.accesses_eq hfd hrep, getFileAccesses, hb]
        intro a ha
        rw [List.mem_singleton.mp ha]
        exact (bitmap_inside_iff fd).mpr ⟨h0, h1⟩
    · rw [hb] at hb'
      cases hb'

/-- The state after `vfs_init`, with the object of the console at an address whose bit 3 is set and
zeros around the table. -/
def boot : Fs := Fs.init (fun _ => ⟨true, fun _ => 0⟩) (fun _ => 8) fun _ => false

theorem not_isOpen_boot {fd : ℤ} (h : 3 ≤ fd) : ¬ IsOpen boot fd := by
  rintro ⟨-, -, hb, -⟩
  have hlt : fd.toNat < 3 := of_decide_eq_true hb
  omega

theorem badFd_iff_five : exec (.read 5 [1]) boot = .ok (-9, boot) ∧
    ∀ a ∈ (Call.read 5 [1]).accesses boot, a.Inside :=
  (badFd_iff boot (.read 5 [1]) 5 rfl (not_isOpen_boot (by norm_num)) trivial).mpr
    ⟨⟨by norm_num, by decide, rfl⟩, trivial⟩

/-- **Descriptors that are not rejected.** `read` of the descriptor 1091 finds bit 3 of the pointer
in slot 0 and takes what lies behind the table for a file; a read of the descriptor -1 looks before
the bitmap; `fstat` of a descriptor that is not open answers -1, and `getdents` with a count of 0
answers 0. -/
theorem badFd_strays : ¬ IsOpen boot 1091 ∧ exec (.read 1091 [1]) boot = .error .stray ∧
    (∃ a ∈ (Call.read (-1) [1]).accesses boot, ¬ a.Inside) ∧
    ¬ IsOpen boot 5 ∧ exec (.fstat 5) boot = .ok (-1, boot) ∧
    exec (.getdents 5 true 0) boot = .ok (0, boot) := by
  refine ⟨not_isOpen_boot (by norm_num), rfl, ⟨.bitmap (-1), ?_, ?_⟩, not_isOpen_boot (by norm_num),
    rfl, rfl⟩
  · exact List.mem_cons_self ..
  · rintro ⟨h, -⟩
    exact absurd h (by decide)

end Fs
end Coffer
