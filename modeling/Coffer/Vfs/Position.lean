/-
# The position of a descriptor

`sys_read` and `sys_write` serve both the calls at the position of the descriptor and those at an
offset; the offset −1 stands for the former, and a user can pass it to the latter.
`positional_iff`: what a `pread` or `pwrite` is to do, it does exactly if the offset is not
negative and a write ends below `2 ^ 63`, or the call is refused for another reason than its mode or
its length 0.

`position_iff` is about runs of `read`, `write` and `lseek`. The position is 64 bits wide and an
`int` is returned; and a write in append mode moves the position by the number of bytes, from
wherever it was.

Key definitions: `Positional.Faithful`, `SeqCall.Tracked`, `SeqCall.Tracks`.
Key theorems: `positional_iff`, `position_iff`.
-/
import Coffer.Vfs.RegularFile

namespace Coffer

open Lib Lib.Cmd

variable {a : Answer} {allowed : Bool} {cs : List Copy} {data : List UInt8} {e : Errno}
  {f f' : RamFile} {iov : List (List UInt8)} {n : ℕ} {offset : ℤ}

/-! ### What ramfs copies -/

/-- **A write that succeeds**: the file `g`, with a new buffer or size if the write ends beyond
`v_size`, and the bytes copied into it. -/
theorem RamFile.write_ok
    {append : Bool} (hd : data ≠ []) (hr : f.write offset data append a = .ok (f', cs)) :
    0 ≤ offset ∧ offset < 2 ^ 63 - 1 ∧ ∃ g gs,
      (if toU64 f.vSize < add64 (toU64 (f.writeOffset offset append)) data.length then
        f.expand (toOff (f.writeOffset offset append + data.length)) a = .ok (g, gs)
      else g = f ∧ gs = []) ∧
      f' = (g.uiomove (f.writeOffset offset append) data).1 ∧
      cs = gs ++ [(g.uiomove (f.writeOffset offset append) data).2] := by
  unfold RamFile.write at hr
  by_cases h0 : offset < 0
  · rw [if_pos h0] at hr
    cases hr
  rw [if_neg h0] at hr
  by_cases h1 : 2 ^ 63 - 1 ≤ offset
  · rw [if_pos h1] at hr
    cases hr
  rw [if_neg h1, if_neg hd] at hr
  refine ⟨not_lt.mp h0, not_le.mp h1, ?_⟩
  simp only at hr
  by_cases h2 : toU64 f.vSize < add64 (toU64 (f.writeOffset offset append)) data.length
  · rw [if_pos h2] at hr
    rcases hx : f.expand (toOff (f.writeOffset offset append + data.length)) a with e | ⟨g, gs⟩
    · rw [hx] at hr
      cases hr
    · rw [hx] at hr
      simp only [Except.ok.injEq, Prod.mk.injEq] at hr
      refine ⟨g, gs, ?_, hr.1.symm, hr.2.symm⟩
      rw [if_pos h2]
  · rw [if_neg h2] at hr
    simp only [Except.ok.injEq, Prod.mk.injEq] at hr
    refine ⟨f, [], ?_, hr.1.symm, hr.2.symm⟩
    rw [if_neg h2]
    exact ⟨rfl, rfl⟩

/-- What `ramfs_write` sets the sizes to when it expands the file. -/
theorem RamFile.expand_size {g : RamFile} {gs : List Copy} {endPos : ℤ}
    (h : f.expand endPos a = .ok (g, gs)) : g.rnSize = toU64 endPos ∧ g.vSize = endPos := by
  unfold RamFile.expand at h
  split at h
  · split at h
    · cases h
    · simp only [Except.ok.injEq, Prod.mk.injEq] at h
      rw [← h.1]
      exact ⟨rfl, rfl⟩
  · simp only [Except.ok.injEq, Prod.mk.injEq] at h
    rw [← h.1]
    exact ⟨rfl, rfl⟩

/-- The sizes after a write: the end of the write if it is beyond `v_size`. -/
theorem RamFile.write_size
    {append : Bool} (hd : data ≠ []) (hr : f.write offset data append a = .ok (f', cs)) :
    (toU64 f.vSize < add64 (toU64 (f.writeOffset offset append)) data.length →
      f'.rnSize = toU64 (toOff (f.writeOffset offset append + data.length)) ∧
        f'.vSize = toOff (f.writeOffset offset append + data.length)) ∧
    (¬ toU64 f.vSize < add64 (toU64 (f.writeOffset offset append)) data.length →
      f'.rnSize = f.rnSize ∧ f'.vSize = f.vSize) := by
  obtain ⟨-, -, g, gs, hg, rfl, -⟩ := RamFile.write_ok hd hr
  refine ⟨fun h => ?_, fun h => ?_⟩
  · rw [if_pos h] at hg
    have hs := RamFile.expand_size hg
    exact hs
  · rw [if_neg h] at hg
    rw [hg.1]
    exact ⟨rfl, rfl⟩

theorem RamFile.expand_error {endPos : ℤ}
    (h : f.expand endPos a = .error e) : e = .eio := by
  unfold RamFile.expand at h
  split at h
  · split at h
    · simp only [Except.error.injEq] at h
      exact h.symm
    · cases h
  · cases h

/-- A read returns bytes of the buffer from its position on, and no more than asked for. -/
theorem RamFile.read_bytes
    (hr : f.read offset n = .ok data) :
    data.length ≤ n ∧ (data ≠ [] → offset + data.length ≤ f.vSize) ∧
      ∀ i < data.length, data.getD i 0 = f.bytes (toU64 offset + i) := by
  unfold RamFile.read at hr
  split at hr
  · cases hr
  split at hr
  · simp only [Except.ok.injEq] at hr
    rw [← hr]
    exact ⟨Nat.zero_le _, fun h => absurd rfl h, fun i hi => absurd hi (Nat.not_lt_zero i)⟩
  split at hr
  · simp only [Except.ok.injEq] at hr
    rw [← hr]
    exact ⟨Nat.zero_le _, fun h => absurd rfl h, fun i hi => absurd hi (Nat.not_lt_zero i)⟩
  · simp only [Except.ok.injEq] at hr
    set len := if f.vSize - offset < n then (f.vSize - offset).toNat else n with hlen
    have hle : len ≤ n ∧ offset + len ≤ f.vSize := by
      rw [hlen]
      split <;> omega
    have hcount : RamFile.uiomoveCount len ≤ len := min_le_left _ _
    have hl : data.length = RamFile.uiomoveCount len := by
      rw [← hr, List.length_map, List.length_range]
    refine ⟨by omega, fun _ => by omega, fun i hi => ?_⟩
    rw [← hr, List.getD_eq_getElem?_getD, List.getElem?_map, List.getElem?_range (by omega)]
    rfl

theorem RamFile.read_ne_einval (h : 0 ≤ offset) (n : ℕ) :
    ∃ data, f.read offset n = .ok data := by
  unfold RamFile.read
  rw [if_neg (not_lt.mpr h)]
  split
  · exact ⟨_, rfl⟩
  split
  · exact ⟨_, rfl⟩
  · exact ⟨_, rfl⟩

theorem RamFile.read_negative (f : RamFile) (h : offset < 0) (n : ℕ) :
    f.read offset n = .error .einval := if_pos h

theorem RamFile.write_ne_einval (h : 0 ≤ offset) (data : List UInt8)
    (append : Bool) (a : Answer) : f.write offset data append a ≠ .error .einval := by
  intro hr
  unfold RamFile.write at hr
  rw [if_neg (not_lt.mpr h)] at hr
  split at hr
  · cases hr
  split at hr
  · cases hr
  simp only at hr
  split at hr
  · rcases hx : f.expand (toOff (f.writeOffset offset append + data.length)) a with e | x
    · rw [hx] at hr
      simp only [Except.error.injEq] at hr
      rw [hr] at hx
      cases RamFile.expand_error hx
    · rw [hx] at hr
      cases hr
  · cases hr

theorem RamFile.write_negative (f : RamFile) (h : offset < 0) (data : List UInt8)
    (append : Bool) (a : Answer) : f.write offset data append a = .error .einval := if_pos h

theorem toU64_toNat (h : 0 ≤ offset) (h' : offset < 2 ^ 63) : toU64 offset = offset.toNat := by
  unfold toU64
  omega

/-- `data` was written to the file `f` at `off`: it is in the buffer there, the file ends no earlier,
and what the file had elsewhere it has still. -/
structure RamFile.Stored (f f' : RamFile) (off : ℕ) (data : List UInt8) : Prop where
  order : FileInv f'
  size : f'.rnSize = max f.rnSize (off + data.length)
  kept : ∀ i < f.rnSize, i < off ∨ off + data.length ≤ i → f'.bytes i = f.bytes i
  stored : ∀ i < data.length, f'.bytes (off + i) = data.getD i 0

theorem FileInv.write_refused (h : FileInv f) (hbuf : f.rnBufsize < 2 ^ 63)
    (h0 : 0 ≤ offset) (h1 : offset < 2 ^ 63) (hd : data ≠ []) (hlen : data.length < 2 ^ 31)
    (hr : f.write offset data false a = .error e) :
    offset = 2 ^ 63 - 1 ∨
      offset + data.length < 2 ^ 63 ∧ f.rnBufsize < offset + data.length ∧ a.granted = false := by
  have hle := h.le
  unfold RamFile.write at hr
  rw [if_neg (not_lt.mpr h0)] at hr
  by_cases hbig : 2 ^ 63 - 1 ≤ offset
  · exact Or.inl (by omega)
  rw [if_neg hbig, if_neg hd] at hr
  simp only [RamFile.writeOffset, Bool.false_eq_true, if_false] at hr
  rw [h.toU64_vSize, toU64_toNat h0 h1, add64_eq (by omega)] at hr
  right
  by_cases hlong : f.rnSize < offset.toNat + data.length
  swap
  · rw [if_neg hlong] at hr
    cases hr
  rw [if_pos hlong, RamFile.expand, toOff_eq (x := (f.rnBufsize : ℤ)) (by omega) (by omega)] at hr
  by_cases hsmall : (f.rnBufsize : ℤ) < toOff (offset + data.length)
  swap
  · rw [if_neg hsmall] at hr
    cases hr
  rw [if_pos hsmall, Answer.calloc] at hr
  have hend : offset + data.length < 2 ^ 63 ∧ f.rnBufsize < offset + data.length := by
    unfold toOff at hsmall
    omega
  refine ⟨hend.1, hend.2, ?_⟩
  cases hg : a.granted with
  | false => rfl
  | true =>
    rw [hg] at hr
    cases hr

theorem FileInv.write_stored (h : FileInv f) (h0 : 0 ≤ offset)
    (hfit : offset + data.length < 2 ^ 63) (hd : data ≠ []) (hlen : data.length < 2 ^ 31)
    (hr : f.write offset data false a = .ok (f', cs)) : f.Stored f' offset.toNat data := by
  obtain ⟨p, hp, hf', hsize, -, hb⟩ := h.write_spec (show f.writeOffset offset false + _ < _ from hfit) hlen hd hr
  obtain rfl : offset.toNat = p := by
    have hp : offset = p := hp
    omega
  refine ⟨hf', hsize, fun i hi hout => ?_, fun i hi => ?_⟩
  · rw [hb, if_neg (by omega), if_pos (Or.inl hi)]
  · rw [hb, if_pos (by omega), Nat.add_sub_cancel_left]

/-- A write that ends beyond: the size it sets is negative. -/
theorem RamFile.write_wraps (h : FileInv f) (h0 : 0 ≤ offset)
    (h1 : offset < 2 ^ 63) (hfit : 2 ^ 63 ≤ offset + data.length) (hd : data ≠ [])
    (hlen : data.length < 2 ^ 31) (hr : f.write offset data false a = .ok (f', cs)) :
    ¬ FileInv f' := by
  intro hf'
  have hsz := h.size_lt
  have hgrow : toU64 f.vSize < add64 (toU64 (f.writeOffset offset false)) data.length := by
    show _ < add64 (toU64 offset) _
    rw [h.toU64_vSize, toU64_toNat h0 h1, add64_eq (by omega)]
    omega
  have hv : f'.vSize = toOff (offset + data.length) := ((RamFile.write_size hd hr).1 hgrow).2
  have hnn := hf'.size
  rw [hv] at hnn
  unfold toOff at hnn
  omega

namespace Fs

/-! ### Calls at an offset -/

/-- No byte was read or written and no position moved; requests to the allocator aside. -/
structure SameObjects (s s' : Fs) : Prop where
  nodes : s'.nodes = s.nodes
  vnodes : s'.vnodes = s.vnodes
  dentries : s'.dentries = s.dentries
  files : s'.files = s.files
  slots : s'.slots = s.slots

theorem SameObjects.refl (s : Fs) : SameObjects s s := ⟨rfl, rfl, rfl, rfl, rfl⟩

theorem SameObjects.askIf (s : Fs) (c : Prop) [Decidable c] : SameObjects s (s.askIf c) :=
  ⟨rfl, rfl, rfl, rfl, rfl⟩

/-- `f_offset` of a file. -/
def position (s : Fs) (f : ℕ) : Option ℤ := (s.files f).map VFile.fOffset

theorem position_setFile (s : Fs) (f : ℕ) (x : VFile) : (s.setFile f x).position f = some x.fOffset := by
  rw [position, setFile_self, Option.map_some]

theorem RegFd.position {s : Fs} {fd : ℤ} (R : RegFd s fd) : s.position R.f = some R.x.fOffset := by
  rw [Fs.position, R.opened.file, Option.map_some]

/-- A call at an offset. -/
inductive Positional
  | pread (lens : List ℕ)
  | pwrite (iov : List (List UInt8))

/-- The access a call needs. -/
def Positional.mode : Positional → Flags
  | .pread _ => ukFread
  | .pwrite _ => ukFwrite

/-- The lengths of its vector. -/
def Positional.lens : Positional → List ℕ
  | .pread lens => lens
  | .pwrite iov => iov.map List.length

/-- The descriptor has the access, its position is one, and the vector is not too long. -/
def Positional.Admitted {s : Fs} {fd : ℤ} (R : RegFd s fd) (p : Positional) : Prop :=
  0 ≤ R.x.fOffset ∧ Flags.has R.x.fFlags p.mode = true ∧ iovTotal p.lens 0 ≠ none

/-- What a call at an offset is to do. It leaves `f_offset`, and refuses a negative offset with `EINVAL`
and without a byte moved. Else a `pread` returns the bytes of the file from the offset on, as many as
there are and the vector takes; and a `pwrite` to a file not opened to append stores its bytes there,
in no other file, unless it is not admitted, the offset is `LONG_MAX` or there is no memory for a larger
buffer. -/
def Positional.Faithful {s : Fs} {fd : ℤ} (R : RegFd s fd) (offset : ℤ) (p : Positional) : Prop :=
  match p with
  | .pread lens => ∃ r s', syscallHandlerPreadv fd lens offset s = .ok (r, s') ∧ SameObjects s s' ∧
      (offset < 0 → r = .error .einval) ∧
      (0 ≤ offset → p.Admitted R → r = .ok (File.read R.file.contents offset.toNat lens.sum)) ∧
      (¬ p.Admitted R → ∃ e, r = .error e)
  | .pwrite iov => ∃ r s', syscallHandlerPwritev fd iov offset s = .ok (r, s') ∧
      s'.position R.f = s.position R.f ∧
      (∀ e, r = .error e → SameObjects s s') ∧
      (offset < 0 → r = .error .einval) ∧
      (0 ≤ offset → Flags.has R.x.fFlags oAppend = false →
        (∀ e, r = .error e → ¬ p.Admitted R ∨ offset = 2 ^ 63 - 1 ∨
          (R.file.rnBufsize < offset + iov.flatten.length ∧ (s.mem s.asked).granted = false)) ∧
        ∀ k ws, r = .ok (k, ws) → p.Admitted R ∧ k = iov.flatten.length ∧
          (iov.flatten = [] → SameObjects s s') ∧
          (iov.flatten ≠ [] → (∀ m, m ≠ R.v.vData → s'.nodes m = s.nodes m) ∧
            ∃ file, s'.fileOf R.f = some file ∧ R.file.Stored file offset.toNat iov.flatten))

/-- A `pwrite` with something to store, in a file not opened to append, ends below `2 ^ 63`. -/
def Positional.Ends {s : Fs} {fd : ℤ} (R : RegFd s fd) (offset : ℤ) (p : Positional) : Prop :=
  match p with
  | .pread _ => True
  | .pwrite iov => p.Admitted R → Flags.has R.x.fFlags oAppend = false → iov.flatten ≠ [] →
      offset ≠ 2 ^ 63 - 1 → offset + iov.flatten.length < 2 ^ 63

/-- The offset is not negative and the write ends below `2 ^ 63`; or it is negative and the call is
refused for it: `f_offset` is negative, or the descriptor has the access and the vector is too long, or
the offset is not −1 and there is something to transfer. -/
def Positional.Checked {s : Fs} {fd : ℤ} (R : RegFd s fd) (offset : ℤ) (p : Positional) : Prop :=
  if 0 ≤ offset then p.Ends R offset
  else R.x.fOffset < 0 ∨ (Flags.has R.x.fFlags p.mode = true ∧
    (iovTotal p.lens 0 = none ∨ (offset ≠ -1 ∧ p.lens.sum ≠ 0)))

variable {s : Fs} {fd : ℤ}

/-- What the checks of `sys_read` and `sys_write` say of a vector that is refused, one of no bytes,
and one with something in it; `P` is what is left to ask of the last. -/
theorem rwChecks_error_iff {lens : List ℕ} (P : Prop)
    (h : rwChecks allowed lens = .error e) :
    e = .einval ↔ allowed = true ∧ (iovTotal lens 0 = none ∨ (P ∧ lens.sum ≠ 0)) := by
  unfold rwChecks at h
  cases allowed with
  | false =>
    rw [if_pos rfl] at h
    simp only [Except.error.injEq] at h
    simp [← h]
  | true =>
    rw [if_neg (by decide)] at h
    rcases ht : iovTotal lens 0 with _ | n
    · rw [ht] at h
      simp only [Except.error.injEq] at h
      simp [← h]
    · rw [ht] at h
      cases h

theorem rwChecks_ok_iff {lens : List ℕ} (P : Prop)
    (h : rwChecks allowed lens = .ok n) :
    (allowed = true ∧ (iovTotal lens 0 = none ∨ (P ∧ lens.sum ≠ 0))) ↔ P ∧ n ≠ 0 := by
  rw [← (rwChecks_ok h).1]
  unfold rwChecks at h
  cases allowed with
  | false =>
    rw [if_pos rfl] at h
    cases h
  | true =>
    rw [if_neg (by decide)] at h
    rcases ht : iovTotal lens 0 with _ | m
    · rw [ht] at h
      cases h
    · simp

/-- A position that is −1 or negative, where `f_offset` is not. -/
theorem uioOffset_neg_iff {x : VFile} (hx : ¬ x.fOffset < 0) (h : offset < 0) :
    uioOffset x offset < 0 ↔ offset ≠ -1 := by
  unfold uioOffset
  split
  · rename_i he
    exact ⟨fun hn => absurd hn hx, fun hn => absurd he hn⟩
  · rename_i hne
    exact ⟨fun _ => hne, fun _ => h⟩

theorem RegFd.readOut_einval_iff (R : RegFd s fd) (lens : List ℕ) (h : offset < 0) :
    (R.readOut lens offset).1 = .error .einval ↔ R.x.fOffset < 0 ∨
      (Flags.has R.x.fFlags ukFread = true ∧
        (iovTotal lens 0 = none ∨ (offset ≠ -1 ∧ lens.sum ≠ 0))) := by
  unfold RegFd.readOut RegFd.readFile
  by_cases h0 : R.x.fOffset < 0
  · rw [if_pos h0]
    exact ⟨fun _ => Or.inl h0, fun _ => rfl⟩
  rw [if_neg h0, or_iff_right h0]
  rcases hc : rwChecks (Flags.has R.x.fFlags ukFread) lens with e | _ | bytes
  · rw [← rwChecks_error_iff _ hc]
    simp
  · rw [rwChecks_ok_iff _ hc]
    simp
  · rw [rwChecks_ok_iff _ hc, ← uioOffset_neg_iff h0 h]
    by_cases hu : uioOffset R.x offset < 0
    · simp [RamFile.read_negative _ hu, hu]
    · obtain ⟨data, hr⟩ := RamFile.read_ne_einval (f := R.file) (not_lt.mp hu) (bytes + 1)
      simp [hr, hu]

theorem RegFd.writeOut_einval_iff (R : RegFd s fd) (iov : List (List UInt8)) (h : offset < 0) :
    (R.writeOut iov offset).1 = .error .einval ↔ R.x.fOffset < 0 ∨
      (Flags.has R.x.fFlags ukFwrite = true ∧
        (iovTotal (iov.map List.length) 0 = none ∨ (offset ≠ -1 ∧ (iov.map List.length).sum ≠ 0))) := by
  unfold RegFd.writeOut RegFd.writeChecks
  by_cases h0 : R.x.fOffset < 0
  · rw [if_pos h0]
    exact ⟨fun _ => Or.inl h0, fun _ => rfl⟩
  rw [if_neg h0, or_iff_right h0]
  rcases hc : rwChecks (Flags.has R.x.fFlags ukFwrite) (iov.map List.length) with e | _ | bytes
  · rw [← rwChecks_error_iff _ hc]
    simp
  · rw [rwChecks_ok_iff _ hc]
    simp
  · rw [rwChecks_ok_iff _ hc, ← uioOffset_neg_iff h0 h]
    by_cases hu : uioOffset R.x offset < 0
    · have hw : (R.fileWrite iov offset).apply R.file = .error .einval := RamFile.write_negative _ hu ..
      simp [hw, hu]
    · have hw : (R.fileWrite iov offset).apply R.file ≠ .error .einval :=
        RamFile.write_ne_einval (not_lt.mp hu) _ _ _
      rcases hr : (R.fileWrite iov offset).apply R.file with e | x
      · rw [hr] at hw
        simpa [hu] using hw
      · simp [hu]

theorem RegFd.fileWrite_data (R : RegFd s fd) {bytes : ℕ}
    (h : R.writeChecks iov = .ok (bytes + 1)) (offset : ℤ) : (R.fileWrite iov offset).data ≠ [] := by
  intro hd
  have hlen := (R.writeChecks_length h).1
  rw [show iov.flatten = [] from hd] at hlen
  cases hlen

/-- The descriptor after a write that changed the file. -/
def RegFd.written (R : RegFd s fd) (iov : List (List UInt8)) (file : RamFile) (offset : ℤ) (k : ℕ) :
    RegFd (((R.writeAsked iov offset).setRamFile R.y.dVnode R.v R.n file).setFile R.f (advance R.x offset k)) fd :=
  ((R.asked _).withContents file).withObj (advance_fCount R.x offset k) (advance_fDentry R.x offset k)

theorem RegFd.written_file (R : RegFd s fd) (iov : List (List UInt8)) (file : RamFile) (offset : ℤ) (k : ℕ) :
    (R.written iov file offset k).file = file := rfl

/-- What the checks before ramfs find, for a position that is one. -/
theorem rwChecks_admitted {lens : List ℕ} :
    (∃ n, rwChecks allowed lens = .ok n) ↔ allowed = true ∧ iovTotal lens 0 ≠ none := by
  unfold rwChecks
  cases allowed with
  | false => simp
  | true => rcases iovTotal lens 0 with _ | n <;> simp

theorem RegFd.readOut_admitted (R : RegFd s fd) (lens : List ℕ) (offset : ℤ)
    (h : ¬ (Positional.pread lens).Admitted R) : ∃ e, (R.readOut lens offset).1 = .error e := by
  unfold RegFd.readOut RegFd.readFile
  by_cases h0 : R.x.fOffset < 0
  · rw [if_pos h0]
    exact ⟨_, rfl⟩
  rw [if_neg h0]
  rcases hc : rwChecks (Flags.has R.x.fFlags ukFread) lens with e | n
  · exact ⟨e, rfl⟩
  · exact absurd ⟨not_lt.mp h0, rwChecks_admitted.mp ⟨n, hc⟩⟩ h

theorem RegFd.writeChecks_admitted (R : RegFd s fd) (iov : List (List UInt8)) :
    (Positional.pwrite iov).Admitted R ↔ ∃ n, R.writeChecks iov = .ok n := by
  unfold RegFd.writeChecks Positional.Admitted
  by_cases h0 : R.x.fOffset < 0
  · rw [if_pos h0]
    exact iff_of_false (fun h => absurd h.1 (not_le.mpr h0)) nofun
  · rw [if_neg h0, rwChecks_admitted, and_iff_right (not_lt.mp h0)]
    rfl

/-- A read at an offset leaves the state, unless the offset stands for the position. -/
theorem RegFd.readOut_same (R : RegFd s fd) (lens : List ℕ)
    (h : offset ≠ -1 ∨ ∃ e, (R.readOut lens offset).1 = .error e) : (R.readOut lens offset).2 = R.x := by
  rcases R.readOut_cases lens offset with ⟨e, hr⟩ | ⟨-, -, hr⟩ | ⟨bytes, data, -, -, -, hr⟩
  · rw [hr]
  · rw [hr]
  · rcases h with hne | ⟨e, he⟩
    · rw [hr]
      exact advance_ne hne _
    · rw [hr] at he
      cases he

/-- A `pread` at an offset returns what the file has there. -/
theorem RegFd.readOut_contents (R : RegFd s fd) (hf : FileInv R.file) {lens : List ℕ}
    (h0 : 0 ≤ offset) (h : offset < 2 ^ 63) (ha : (Positional.pread lens).Admitted R) :
    (R.readOut lens offset).1 = .ok (File.read R.file.contents offset.toNat lens.sum) := by
  obtain ⟨hpos, ha⟩ := ha
  obtain ⟨n, hc⟩ := rwChecks_admitted.mpr ha
  replace hc : rwChecks (Flags.has R.x.fFlags ukFread) lens = .ok n := hc
  obtain ⟨hn, hlt⟩ := rwChecks_ok hc
  have hspec := hf.read_spec hlt (show offset.toNat < 2 ^ 63 by omega)
  rw [Int.toNat_of_nonneg h0] at hspec
  unfold RegFd.readOut RegFd.readFile
  rw [if_neg (not_lt.mpr hpos), hc, ← hn]
  rcases n with _ | n
  · simp [File.read]
  · simp only [uioOffset, if_neg (show offset ≠ -1 by omega), hspec]

/-- A `pread` is what it is to be exactly if its offset is checked. -/
theorem pread_iff (R : RegFd s fd) (hf : FileInv R.file) (lens : List ℕ) (offset : ℤ) (h : offset < 2 ^ 63) :
    (Positional.pread lens).Faithful R offset ↔ (Positional.pread lens).Checked R offset := by
  have heq := R.preadv_eq lens offset
  have hsame (hx : (R.readOut lens offset).2 = R.x) :
      SameObjects s (s.setFile R.f (R.readOut lens offset).2) := by
    rw [hx, setFile_eq R.opened.file]
    exact SameObjects.refl s
  by_cases h0 : 0 ≤ offset
  · rw [Positional.Checked, if_pos h0]
    refine iff_of_true ⟨_, _, heq, hsame (R.readOut_same lens (Or.inl (by omega))), ?_, ?_, ?_⟩ trivial
    · exact fun hn => absurd h0 (not_le.mpr hn)
    · exact fun _ ha => R.readOut_contents hf h0 h ha
    · exact fun ha => R.readOut_admitted lens offset ha
  · have hneg : offset < 0 := not_le.mp h0
    rw [Positional.Checked, if_neg h0]
    refine Iff.trans ?_ (R.readOut_einval_iff lens hneg)
    constructor
    · rintro ⟨r, s', hr, -, hn, -⟩
      rw [heq] at hr
      obtain ⟨rfl, -⟩ := Prod.mk.inj (Except.ok.inj hr)
      exact hn hneg
    · intro hr
      refine ⟨_, _, heq, hsame (R.readOut_same lens (Or.inr ⟨_, hr⟩)), fun _ => hr, ?_, ?_⟩
      · exact fun hn => absurd hn h0
      · exact fun ha => R.readOut_admitted lens offset ha

theorem pwrite_nonneg_iff (R : RegFd s fd) (hf : FileInv R.file) (hbuf : R.file.rnBufsize < 2 ^ 63) (iov : List (List UInt8))
    (h0 : 0 ≤ offset) (h : offset < 2 ^ 63) :
    (Positional.pwrite iov).Faithful R offset ↔ (Positional.pwrite iov).Ends R offset := by
  have heq := R.pwritev_eq iov offset
  have hne : offset ≠ -1 := by omega
  have hu : uioOffset R.x offset = offset := if_neg hne
  have hneg : ¬ offset < 0 := not_lt.mpr h0
  rcases R.writeOut_cases iov offset with ⟨e, hc, hr⟩ | ⟨hc, hr⟩ | ⟨bytes, e, hc, hw, hr⟩ |
    ⟨bytes, file, cs, hc, hw, hr⟩
  · -- the call is not admitted
    have hno : ¬ (Positional.pwrite iov).Admitted R := by
      rw [R.writeChecks_admitted, hc]
      exact nofun
    rw [hr] at heq
    refine iff_of_true ⟨_, _, heq, rfl, fun _ _ => SameObjects.refl s, fun hn => absurd hn hneg, fun _ _ =>
      ⟨fun _ _ => Or.inl hno, fun _ _ hk => (by cases hk)⟩⟩ fun ha => absurd ha hno
  · -- there is nothing to write
    have ha := (R.writeChecks_admitted iov).mpr ⟨_, hc⟩
    have hnil : iov.flatten = [] := List.length_eq_zero_iff.mp (R.writeChecks_length hc).1.symm
    rw [hr] at heq
    refine iff_of_true ⟨_, _, heq, rfl, fun _ _ => SameObjects.refl s, fun hn => absurd hn hneg, fun _ _ =>
      ⟨fun _ he => (by cases he), fun k ws hk => ?_⟩⟩ fun _ _ hn => absurd hnil hn
    cases hk
    exact ⟨ha, (R.writeChecks_length hc).1, fun _ => SameObjects.refl s, fun hn => absurd hnil hn⟩
  · -- ramfs refuses
    have hd := R.fileWrite_data hc offset
    have hlen := R.writeChecks_length hc
    rw [hr] at heq
    have hwhy (happ : Flags.has R.x.fFlags oAppend = false) : offset = 2 ^ 63 - 1 ∨
        offset + iov.flatten.length < 2 ^ 63 ∧ R.file.rnBufsize < offset + iov.flatten.length ∧
          (s.mem s.asked).granted = false := by
      refine hf.write_refused hbuf h0 h hd (hlen.1 ▸ hlen.2) (a := s.mem s.asked) (e := e) ?_
      rw [← hw, FileWrite.apply, RegFd.fileWrite, happ, hu]
    refine iff_of_true ⟨_, _, heq, rfl, fun _ _ => SameObjects.askIf .., fun hn => absurd hn hneg,
      fun _ happ => ⟨fun _ _ => Or.inr ((hwhy happ).imp_right And.right), fun _ _ hk => (by cases hk)⟩⟩
      fun _ happ _ hmax => ?_
    exact ((hwhy happ).resolve_left hmax).1
  · -- the bytes are stored, at the offset or where the sum wraps to
    have ha := (R.writeChecks_admitted iov).mpr ⟨_, hc⟩
    have hd := R.fileWrite_data hc offset
    replace hd : iov.flatten ≠ [] := hd
    have hlen := R.writeChecks_length hc
    have hlen' : iov.flatten.length < 2 ^ 31 := hlen.1 ▸ hlen.2
    have hw' (happ : Flags.has R.x.fFlags oAppend = false) :
        R.file.write offset iov.flatten false (s.mem s.asked) = .ok (file, cs) := by
      rw [← hw, FileWrite.apply, RegFd.fileWrite, happ, hu]
    have hfile := (R.written iov file offset (bytes + 1)).fileOf_eq
    rw [hr] at heq
    constructor
    · rintro ⟨r, s', hrun, -, -, -, hon⟩ - happ hnil hmax
      rw [heq] at hrun
      obtain ⟨rfl, rfl⟩ := Prod.mk.inj (Except.ok.inj hrun)
      obtain ⟨-, -, -, hst⟩ := (hon h0 happ).2 (bytes + 1) [R.fileWrite iov offset] rfl
      obtain ⟨-, file', hfile', hst⟩ := hst hnil
      obtain rfl : file = file' := Option.some.inj (hfile.symm.trans hfile')
      by_contra hbig
      exact RamFile.write_wraps hf h0 h (not_lt.mp hbig) hd hlen' (hw' happ) hst.order
    · intro hends
      refine ⟨_, _, heq, ?_, fun _ he => (by cases he), fun hn => absurd hn hneg, fun _ happ =>
        ⟨fun _ he => (by cases he), fun k ws hk => ?_⟩⟩
      · rw [position_setFile, advance_ne hne, R.position]
      cases hk
      refine ⟨ha, hlen.1, fun hn => absurd hn hd, fun _ => ⟨fun m hm => ?_, file, hfile, ?_⟩⟩
      · exact Function.update_of_ne hm ..
      · have hmax : offset ≠ 2 ^ 63 - 1 := by
          have := (RamFile.write_ok hd (hw' happ)).2.1
          omega
        exact hf.write_stored h0 (hends ha happ hd hmax) hd hlen' (hw' happ)

/-- A `pwrite` is what it is to be exactly if its offset is checked. -/
theorem pwrite_iff (R : RegFd s fd) (hf : FileInv R.file) (hbuf : R.file.rnBufsize < 2 ^ 63)
    (iov : List (List UInt8)) (offset : ℤ) (h : offset < 2 ^ 63) :
    (Positional.pwrite iov).Faithful R offset ↔ (Positional.pwrite iov).Checked R offset := by
  have heq := R.pwritev_eq iov offset
  by_cases h0 : 0 ≤ offset
  · rw [Positional.Checked, if_pos h0]
    exact pwrite_nonneg_iff R hf hbuf iov h0 h
  have hneg : offset < 0 := not_le.mp h0
  rw [Positional.Checked, if_neg h0]
  refine Iff.trans ?_ (R.writeOut_einval_iff iov hneg)
  constructor
  · rintro ⟨r, s', hr, -, -, hn, -⟩
    rw [heq] at hr
    rw [Except.ok.inj hr]
    exact hn hneg
  · intro hr
    have hs : SameObjects s (R.writeOut iov offset).2 ∧
        (R.writeOut iov offset).2.position R.f = s.position R.f := by
      rcases R.writeOut_cases iov offset with ⟨e, -, h1⟩ | ⟨-, h1⟩ | ⟨bytes, e, -, -, h1⟩ |
        ⟨bytes, file, cs, -, -, h1⟩
      · rw [h1]
        exact ⟨SameObjects.refl s, rfl⟩
      · rw [h1]
        exact ⟨SameObjects.refl s, rfl⟩
      · rw [h1]
        exact ⟨SameObjects.askIf .., rfl⟩
      · rw [h1] at hr
        cases hr
    exact ⟨(R.writeOut iov offset).1, (R.writeOut iov offset).2, heq, hs.2, fun _ _ => hs.1, fun _ => hr,
      fun hn => absurd hn h0⟩

/-- **Calls at an offset.** For every descriptor of a regular file in order, every call and every offset
of 64 bits: the call leaves the position, refuses a negative offset and transfers at the offset exactly
if the offset is not negative and a write ends below `2 ^ 63`, or the call is refused anyway. -/
theorem positional_iff (R : RegFd s fd) (hf : FileInv R.file) (hbuf : R.file.rnBufsize < 2 ^ 63)
    (p : Positional) (offset : BitVec 64) : p.Faithful R offset.toInt ↔ p.Checked R offset.toInt := by
  have h : offset.toInt < 2 ^ 63 := BitVec.toInt_lt
  cases p with
  | pread lens => exact pread_iff R hf lens _ h
  | pwrite iov => exact pwrite_iff R hf hbuf iov _ h

theorem threeBytes_order (flags : Flags) (offset : ℤ) : FileInv (threeBytesFd flags offset).file :=
  ⟨rfl, show 3 ≤ 0x1000 by norm_num, show 3 < 2 ^ 63 by norm_num, show 0x1000 < 2 ^ 64 by norm_num,
    iff_of_true rfl (show 0 < 0x1000 by norm_num)⟩

theorem threeBytes_buf (flags : Flags) (offset : ℤ) : (threeBytesFd flags offset).file.rnBufsize < 2 ^ 63 :=
  show 0x1000 < 2 ^ 63 by norm_num

/-- A write of two bytes beyond the end, and a read that runs over it. -/
theorem positional_iff_three : (Positional.pwrite [[8], [9]]).Faithful (threeBytesFd 3 0) 5 ∧
    (Positional.pread [1, 2]).Faithful (threeBytesFd 3 0) 1 :=
  ⟨(positional_iff (threeBytesFd 3 0) (threeBytes_order 3 0) (threeBytes_buf 3 0) _ 5).mpr
      fun _ _ _ _ => by decide,
    (positional_iff (threeBytesFd 3 0) (threeBytes_order 3 0) (threeBytes_buf 3 0) _ 1).mpr trivial⟩

theorem pread_minus_one : ((threeBytesFd 3 0).readOut [2] (-1)).1 = .ok [1, 2] ∧
    ((threeBytesFd 3 0).readOut [2] (-1)).2.fOffset = 2 := by decide +kernel

/-- **Calls at an offset that do something else.** `pread` of two bytes at −1 reads at the position and
moves it; `pwrite` of nothing at −5 answers 0; on a descriptor to read only, `pwrite` at −5 answers
`-EBADF`; and `pwrite` of three bytes at `2 ^ 63 - 2` answers 3 and leaves a file of negative size, with
the bytes outside the buffer. -/
theorem positional_negative :
    ¬ (Positional.pread [2]).Faithful (threeBytesFd 3 0) (-1) ∧
    (∃ s', syscallHandlerPreadv 3 [2] (-1) (threeBytes 3 0) = .ok (.ok [1, 2], s') ∧ s'.position 7 = some 2) ∧
    (syscallHandlerPwritev 3 [] (-5) (threeBytes 3 0)).map Prod.fst = .ok (.ok (0, [])) ∧
    (syscallHandlerPwritev 3 [[9]] (-5) (threeBytes 1 0)).map Prod.fst = .ok (.error .ebadf) ∧
    ¬ (Positional.pwrite [[7, 8, 9]]).Faithful (threeBytesFd 3 0) (2 ^ 63 - 2) ∧
    (∃ k ws s', syscallHandlerPwritev 3 [[7, 8, 9]] (2 ^ 63 - 2) (threeBytes 3 0) = .ok (.ok (k, ws), s') ∧
      k = 3 ∧ (s'.fileOf 7).map RamFile.vSize = some (-2 ^ 63 + 1)) := by
  have heq := (threeBytesFd 3 0).preadv_eq [2] (-1)
  rw [pread_minus_one.1] at heq
  refine ⟨?_, ⟨_, heq, ?_⟩, ?_, ?_, ?_, ?_⟩
  · rw [pread_iff _ (threeBytes_order 3 0) _ _ (by norm_num)]
    rintro (h | ⟨-, h | ⟨h, -⟩⟩)
    · exact absurd h (lt_irrefl 0)
    · cases h
    · exact h rfl
  · exact (position_setFile ..).trans (congrArg some pread_minus_one.2)
  · rw [(threeBytesFd 3 0).pwritev_eq]
    rfl
  · rw [(threeBytesFd 1 0).pwritev_eq]
    rfl
  · rw [pwrite_iff _ (threeBytes_order 3 0) (threeBytes_buf 3 0) _ _ (by norm_num)]
    intro h
    exact absurd (h ⟨le_refl _, rfl, by decide⟩ rfl (by decide) (by norm_num)) (by decide)
  · have hv : ((threeBytesFd 3 0).writeOut [[7, 8, 9]] (2 ^ 63 - 2)).1.map Prod.fst = .ok 3 := by decide +kernel
    have hsize : (((threeBytesFd 3 0).writeOut [[7, 8, 9]] (2 ^ 63 - 2)).2.fileOf 7).map RamFile.vSize =
        some (-2 ^ 63 + 1) := by decide +kernel
    rcases hr : (threeBytesFd 3 0).writeOut [[7, 8, 9]] (2 ^ 63 - 2) with ⟨e | ⟨k, ws⟩, s'⟩
    · rw [hr] at hv
      cases hv
    · rw [hr] at hv hsize
      exact ⟨k, ws, s', ((threeBytesFd 3 0).pwritev_eq ..).trans (congrArg Except.ok hr), Except.ok.inj hv, hsize⟩

/-! ### Runs at the position -/

/-- A call at the position of a descriptor, or one that sets it. -/
inductive SeqCall
  | read (lens : List ℕ)
  | write (iov : List (List UInt8))
  | lseek (off : BitVec 64) (whence : ℕ)

/-- The system call. -/
def SeqCall.call (fd : ℤ) : SeqCall → Call
  | .read lens => .read fd lens
  | .write iov => .write fd iov
  | .lseek off whence => .lseek fd off.toInt whence

/-- The file object was opened to append. -/
def appends (s : Fs) (f : ℕ) : Bool := ((s.files f).map fun x => Flags.has x.fFlags oAppend).getD false

/-- The position is tracked and reported: an `lseek` that succeeds returns the new `f_offset`, which
is not negative, and one that fails leaves it; a read of `k` bytes, or a write of `k` bytes not in
append mode, moves it by `k`; and after a write in append mode it is the size of the file. -/
def SeqCall.Tracked (fd : ℤ) (f : ℕ) (c : SeqCall) (s : Fs) : Prop :=
  match c with
  | .lseek off whence => ∃ r v s', syscallHandlerLseek fd off.toInt whence s = .ok (r, s') ∧
      exec (c.call fd) s = .ok (v, s') ∧
      (∀ o, r = .ok o → s'.position f = some v ∧ 0 ≤ v) ∧
      (∀ e, r = .error e → s'.position f = s.position f)
  | .read lens => ∃ r s', syscallHandlerReadv fd lens s = .ok (r, s') ∧
      ∀ data, r = .ok data → s'.position f = (s.position f).map (· + (data.length : ℤ))
  | .write iov => ∃ r s', syscallHandlerWritev fd iov s = .ok (r, s') ∧ ∀ k ws, r = .ok (k, ws) →
      if s.appends f then s'.position f = (s'.fileOf f).map fun file => (file.rnSize : ℤ)
      else s'.position f = (s.position f).map (· + (k : ℤ))

/-- The size of a file after `k` bytes were appended to it. -/
def appendSize (file : RamFile) (k : ℕ) : ℕ :=
  if toU64 file.vSize < add64 (toU64 (toOff file.rnSize)) k then toU64 (toOff (toOff file.rnSize + k))
  else file.rnSize

/-- For a file in order: an append ends where `f_offset` says exactly if it starts there. -/
theorem append_position_iff {file : RamFile} (h : FileInv file) (h0 : 0 ≤ offset)
    (h1 : offset < 2 ^ 63) {k : ℕ} (hk : 0 < k) (hk' : k < 2 ^ 31) :
    toOff (offset + k) = appendSize file k ↔ offset = file.rnSize ∧ file.rnSize + k < 2 ^ 63 := by
  have hlt := h.size_lt
  have hp : toOff file.rnSize = file.rnSize := toOff_eq (by omega) (by omega)
  rw [appendSize, hp, h.toU64_vSize, toU64_nat (by omega), add64_eq (by omega), if_pos (by omega)]
  unfold toU64 toOff
  omega

/-- A write in append mode of `k` bytes ends where `f_offset` says: in a file in order, it starts at the
end of the file and ends below `2 ^ 63`. In another the sizes that the code computes agree. -/
def RegFd.AppendsAtEnd {s : Fs} {fd : ℤ} (R : RegFd s fd) (k : ℕ) : Prop :=
  (FileInv R.file → R.x.fOffset = R.file.rnSize ∧ R.file.rnSize + k < 2 ^ 63) ∧
  (¬ FileInv R.file →
    if k = 0 then R.x.fOffset = R.file.rnSize else toOff (R.x.fOffset + k) = appendSize R.file k)

theorem RegFd.appendsAtEnd_iff {s : Fs} {fd : ℤ} (R : RegFd s fd) {k : ℕ} (h0 : 0 ≤ R.x.fOffset)
    (h1 : R.x.fOffset < 2 ^ 63) (hk : k < 2 ^ 31) : R.AppendsAtEnd k ↔
      if k = 0 then R.x.fOffset = R.file.rnSize else toOff (R.x.fOffset + k) = appendSize R.file k := by
  by_cases hf : FileInv R.file
  · have hlt := hf.size_lt
    rw [RegFd.AppendsAtEnd, and_iff_left fun h => absurd hf h, forall_prop_of_true hf]
    split
    · omega
    · exact (append_position_iff hf h0 h1 (by omega) hk).symm
  · rw [RegFd.AppendsAtEnd, and_iff_right fun h => absurd h hf, forall_prop_of_true hf]

/-- When a call tracks the position: a new position fits in an `int`; a write that succeeds ends
at most at `LONG_MAX`, and in append mode it ends where `f_offset` says. -/
def RegFd.Tracks {s : Fs} {fd : ℤ} (R : RegFd s fd) : SeqCall → Prop
  | .read _ => True
  | .lseek off whence => R.seekTo off.toInt whence < 2 ^ 31
  | .write iov => ∀ k ws, (R.writeOut iov (-1)).1 = .ok (k, ws) →
      if Flags.has R.x.fFlags oAppend then R.AppendsAtEnd k else R.x.fOffset + k < 2 ^ 63

theorem RegFd.appends_eq (R : RegFd s fd) : s.appends R.f = Flags.has R.x.fFlags oAppend := by
  rw [appends, R.opened.file]
  rfl

theorem RegFd.writeChecks_ok (R : RegFd s fd)
    (h : R.writeChecks iov = .ok n) : 0 ≤ R.x.fOffset := by
  unfold RegFd.writeChecks at h
  split at h
  · cases h
  · omega

theorem advance_fOffset (x : VFile) (k : ℕ) : (advance x (-1) k).fOffset = toOff (x.fOffset + k) := rfl

theorem toInt_eq_iff {x : ℤ} (h : 0 ≤ x) : toInt x = x ↔ x < 2 ^ 31 := by
  unfold toInt
  omega

theorem toOff_eq_iff {x : ℤ} (h : 0 ≤ x) : toOff x = x ↔ x < 2 ^ 63 := by
  unfold toOff
  omega

theorem lseek_tracked_iff (R : RegFd s fd) (off : BitVec 64) (whence : ℕ) :
    (SeqCall.lseek off whence).Tracked fd R.f s ↔ R.Tracks (.lseek off whence) := by
  have heq := R.lseek_eq off.toInt whence
  have hx : exec (.lseek fd off.toInt whence) s = .ok (retOf (R.seekOut off.toInt whence).1 toInt,
      s.setFile R.f (R.seekOut off.toInt whence).2) := by
    rw [exec, bind_of_ok heq]
    rfl
  simp only [SeqCall.Tracked, SeqCall.call, RegFd.Tracks]
  by_cases hneg : R.seekTo off.toInt whence < 0
  · have hout : R.seekOut off.toInt whence = (.error .einval, R.x) := if_pos hneg
    rw [hout] at heq hx
    refine ⟨fun _ => by omega, fun _ => ⟨_, _, _, heq, hx, fun o ho => (by cases ho), fun e _ => ?_⟩⟩
    rw [setFile_eq R.opened.file]
  · have hout : R.seekOut off.toInt whence = (.ok (R.seekTo off.toInt whence),
        { R.x with fOffset := R.seekTo off.toInt whence }) := if_neg hneg
    rw [hout] at heq hx
    rw [← toInt_eq_iff (not_lt.mp hneg)]
    constructor
    · rintro ⟨r, v, s', hr, hv, hok, -⟩
      rw [heq] at hr
      rw [hx] at hv
      simp only [Except.ok.injEq, Prod.mk.injEq] at hr hv
      have hp := (hok _ hr.1.symm).1
      rw [← hr.2, position_setFile] at hp
      rw [← hv.1] at hp
      exact (Option.some.inj hp).symm
    · intro hi
      refine ⟨_, _, _, heq, hx, fun o _ => ⟨?_, ?_⟩, fun e he => (by cases he)⟩
      · rw [position_setFile]
        exact congrArg some hi.symm
      · show 0 ≤ toInt (R.seekTo off.toInt whence)
        rw [hi]
        exact not_lt.mp hneg

theorem read_tracked (R : RegFd s fd) (hx : R.x.fOffset < 2 ^ 63) (hv : R.v.vSize < 2 ^ 63) (lens : List ℕ) :
    (SeqCall.read lens).Tracked fd R.f s := by
  refine ⟨_, _, R.readv_eq lens, fun data hdata => ?_⟩
  rw [position_setFile, R.position, Option.map_some]
  rcases R.readOut_cases lens (-1) with ⟨e, hr⟩ | ⟨-, -, hr⟩ | ⟨bytes, data', h0, -, hrd, hr⟩
  · rw [hr] at hdata
    cases hdata
  · rw [hr] at hdata ⊢
    cases hdata
    simp
  · rw [hr] at hdata ⊢
    cases hdata
    obtain ⟨-, hle, -⟩ := RamFile.read_bytes hrd
    have hlt : R.x.fOffset + data.length < 2 ^ 63 := by
      by_cases hd : data = []
      · simpa [hd] using hx
      · exact lt_of_le_of_lt (hle hd) hv
    rw [advance_fOffset, toOff_eq (by omega) hlt]

theorem RegFd.append_size (R : RegFd s fd) {bytes : ℕ} {file : RamFile}
    (happ : Flags.has R.x.fFlags oAppend = true)
    (hc : R.writeChecks iov = .ok (bytes + 1))
    (hw : (R.fileWrite iov offset).apply R.file = .ok (file, cs)) :
    file.rnSize = appendSize R.file (bytes + 1) := by
  have hlen : (R.fileWrite iov offset).data.length = bytes + 1 := (R.writeChecks_length hc).1.symm
  have hp : R.file.writeOffset (R.fileWrite iov offset).offset (R.fileWrite iov offset).append =
      toOff R.file.rnSize := if_pos happ
  obtain ⟨h1, h2⟩ := RamFile.write_size (R.fileWrite_data hc offset) hw
  rw [hp, hlen] at h1 h2
  unfold appendSize
  split
  · rename_i hg
    exact (h1 hg).1
  · rename_i hg
    exact (h2 hg).1

theorem write_tracked_iff (R : RegFd s fd) (hx : R.x.fOffset < 2 ^ 63) (iov : List (List UInt8)) :
    (SeqCall.write iov).Tracked fd R.f s ↔ R.Tracks (.write iov) := by
  have hp := R.position
  have heq := R.writev_eq iov
  have hstep : (SeqCall.write iov).Tracked fd R.f s ↔ ∀ k ws, (R.writeOut iov (-1)).1 = .ok (k, ws) →
      if Flags.has R.x.fFlags oAppend then (R.writeOut iov (-1)).2.position R.f =
        ((R.writeOut iov (-1)).2.fileOf R.f).map fun file => (file.rnSize : ℤ)
      else (R.writeOut iov (-1)).2.position R.f = some (R.x.fOffset + k) := by
    simp only [SeqCall.Tracked, R.appends_eq, hp, Option.map_some]
    constructor
    · rintro ⟨r, s', hr, h⟩
      rw [heq] at hr
      simp only [Except.ok.injEq] at hr
      rw [hr]
      exact h
    · exact fun h => ⟨_, _, heq, h⟩
  rw [hstep]
  refine forall_congr' fun k => forall_congr' fun ws => imp_congr_right fun hk => ?_
  rcases R.writeOut_cases iov (-1) with ⟨e, -, hr⟩ | ⟨hc, hr⟩ | ⟨bytes, e, -, -, hr⟩ |
    ⟨bytes, file, cs, hc, hw, hr⟩
  · rw [hr] at hk
    cases hk
  · -- nothing to write: the state is as it was
    rw [hr] at hk ⊢
    cases hk
    have h0 := R.writeChecks_ok hc
    rw [hp, R.fileOf_eq]
    split
    · rw [R.appendsAtEnd_iff h0 hx (by norm_num), if_pos rfl, Option.map_some, Option.some_inj]
    · simpa using hx
  · rw [hr] at hk
    cases hk
  · rw [hr] at hk ⊢
    cases hk
    have h0 := R.writeChecks_ok hc
    have hf := (R.written iov file (-1) (bytes + 1)).fileOf_eq
    rw [R.written_file] at hf
    rw [position_setFile, advance_fOffset, show (R.written iov file (-1) (bytes + 1)).f = R.f from rfl] at *
    rw [hf]
    split
    · rename_i happ
      rw [R.appendsAtEnd_iff h0 hx (R.writeChecks_length hc).2, if_neg (Nat.succ_ne_zero _), Option.map_some,
        Option.some_inj, R.append_size happ hc hw]
    · rw [Option.some_inj, toOff_eq_iff (by omega)]

/-- The position and the size of the vnode are of the type `off_t`. -/
structure RegFd.Typed (R : RegFd s fd) : Prop where
  pos : R.x.fOffset < 2 ^ 63
  size : R.v.vSize < 2 ^ 63

theorem tracked_iff (R : RegFd s fd) (h : R.Typed) (c : SeqCall) :
    c.Tracked fd R.f s ↔ R.Tracks c := by
  cases c with
  | read lens => exact ⟨fun _ => trivial, fun _ => read_tracked R h.pos h.size lens⟩
  | write iov => exact write_tracked_iff R h.pos iov
  | lseek off whence => exact lseek_tracked_iff R off whence

theorem advance_lt {x : VFile} (h : x.fOffset < 2 ^ 63) (offset : ℤ) (k : ℕ) :
    (advance x offset k).fOffset < 2 ^ 63 := by
  unfold advance
  split
  · exact toOff_lt _
  · exact h

/-- After a call the descriptor is one of the same file object. -/
theorem SeqCall.keeps (R : RegFd s fd) (h : R.Typed) (c : SeqCall) {v : ℤ} {s' : Fs}
    (hr : exec (c.call fd) s = .ok (v, s')) : ∃ R' : RegFd s' fd, R'.f = R.f ∧ R'.Typed := by
  cases c with
  | read lens =>
    have hx : exec (.read fd lens) s = .ok (retOf (R.readOut lens (-1)).1 fun data => (data.length : ℤ),
        s.setFile R.f (R.readOut lens (-1)).2) := by
      rw [exec, bind_of_ok (R.readv_eq lens)]
      rfl
    obtain ⟨-, rfl⟩ := Prod.mk.inj (Except.ok.inj (hx.symm.trans hr))
    obtain ⟨h1, h2⟩ := R.readOut_rest lens (-1)
    refine ⟨R.withObj h1 h2, rfl, ?_, h.size⟩
    show (R.readOut lens (-1)).2.fOffset < 2 ^ 63
    rcases R.readOut_cases lens (-1) with ⟨e, ho⟩ | ⟨-, -, ho⟩ | ⟨bytes, data, -, -, -, ho⟩
    · rw [ho]
      exact h.pos
    · rw [ho]
      exact h.pos
    · rw [ho]
      exact advance_lt h.pos _ _
  | write iov =>
    have hx : exec (.write fd iov) s = .ok (retOf (R.writeOut iov (-1)).1 fun n => (n.1 : ℤ),
        (R.writeOut iov (-1)).2) := by
      rw [exec, bind_of_ok (R.writev_eq iov)]
      rfl
    obtain ⟨-, rfl⟩ := Prod.mk.inj (Except.ok.inj (hx.symm.trans hr))
    rcases R.writeOut_cases iov (-1) with ⟨e, -, ho⟩ | ⟨-, ho⟩ | ⟨bytes, e, -, -, ho⟩ |
      ⟨bytes, file, cs, hc, hw, ho⟩
    · rw [ho]
      exact ⟨R, rfl, h⟩
    · rw [ho]
      exact ⟨R, rfl, h⟩
    · rw [ho]
      exact ⟨R.asked _, rfl, h.pos, h.size⟩
    · rw [ho]
      refine ⟨R.written iov file (-1) (bytes + 1), rfl, advance_lt h.pos _ _, ?_⟩
      show file.vSize < 2 ^ 63
      obtain ⟨h1, h2⟩ := RamFile.write_size (R.fileWrite_data hc (-1)) hw
      by_cases hg : toU64 R.file.vSize < add64 (toU64 (R.file.writeOffset (R.fileWrite iov (-1)).offset
          (R.fileWrite iov (-1)).append)) (R.fileWrite iov (-1)).data.length
      · rw [(h1 hg).2]
        exact toOff_lt _
      · rw [(h2 hg).2]
        exact h.size
  | lseek off whence =>
    have hx : exec (.lseek fd off.toInt whence) s = .ok (retOf (R.seekOut off.toInt whence).1 toInt,
        s.setFile R.f (R.seekOut off.toInt whence).2) := by
      rw [exec, bind_of_ok (R.lseek_eq off.toInt whence)]
      rfl
    obtain ⟨-, rfl⟩ := Prod.mk.inj (Except.ok.inj (hx.symm.trans hr))
    have hoff : off.toInt < 2 ^ 63 := BitVec.toInt_lt
    by_cases hneg : R.seekTo off.toInt whence < 0
    · rw [show R.seekOut off.toInt whence = (.error .einval, R.x) from if_pos hneg,
        setFile_eq R.opened.file]
      exact ⟨R, rfl, h⟩
    · rw [show R.seekOut off.toInt whence = (.ok (R.seekTo off.toInt whence),
        { R.x with fOffset := R.seekTo off.toInt whence }) from if_neg hneg]
      refine ⟨R.withObj rfl rfl, rfl, ?_, h.size⟩
      show R.seekTo off.toInt whence < 2 ^ 63
      unfold RegFd.seekTo
      split
      · exact toOff_lt _
      split
      · exact toOff_lt _
      · exact hoff

/-- The call tracks the position of the descriptor in this state. -/
def SeqCall.Tracks (fd : ℤ) (f : ℕ) (c : SeqCall) (s : Fs) : Prop :=
  ∃ R : RegFd s fd, R.f = f ∧ R.Tracks c

/-- **The position of a descriptor.** In a run of reads, writes and seeks on a descriptor of a
regular file, the position is tracked and reported by every call exactly if every new position of
an `lseek` fits in an `int`, and every write that succeeds ends at most at `LONG_MAX`, and in append
mode where `f_offset` says. -/
theorem position_iff (s : Fs) (fd : ℤ) (R : RegFd s fd) (h : R.Typed) (calls : List SeqCall) :
    EachStep (fun c : SeqCall => exec (c.call fd)) (SeqCall.Tracked fd R.f) calls s ↔
      EachStep (fun c : SeqCall => exec (c.call fd)) (SeqCall.Tracks fd R.f) calls s := by
  refine eachStep_iff (I := fun t => ∃ R' : RegFd t fd, R'.f = R.f ∧ R'.Typed) ?_ ?_ calls s ⟨R, rfl, h⟩
  · rintro c t ⟨R', hf, h'⟩
    rw [← hf, tracked_iff R' h' c]
    constructor
    · exact fun ht => ⟨R', rfl, ht⟩
    · rintro ⟨R'', -, ht⟩
      rw [R'.unique R'']
      exact ht
  · rintro c t v t' ⟨R', hf, h'⟩ - hr
    obtain ⟨R'', hf', h''⟩ := SeqCall.keeps R' h' c hr
    exact ⟨R'', hf'.trans hf, h''⟩

theorem threeBytesFd_typed (flags : Flags) : (threeBytesFd flags 0).Typed :=
  ⟨show (0 : ℤ) < 2 ^ 63 by norm_num, show (3 : ℤ) < 2 ^ 63 by norm_num⟩

/-- A seek to 1 and a read. -/
theorem position_iff_seek : EachStep (fun c : SeqCall => exec (c.call 3)) (SeqCall.Tracked 3 7)
    [.lseek 1 0, .read [2]] (threeBytes 3 0) := by
  refine (position_iff (threeBytes 3 0) 3 (threeBytesFd 3 0) (threeBytesFd_typed 3) _).mpr
    ⟨⟨threeBytesFd 3 0, rfl, show (threeBytesFd 3 0).seekTo 1 0 < 2 ^ 31 by decide +kernel⟩, fun v s' hr => ⟨?_, fun _ _ _ => trivial⟩⟩
  obtain ⟨R, hf, -⟩ := SeqCall.keeps (threeBytesFd 3 0) (threeBytesFd_typed 3) (.lseek 1 0) hr
  exact ⟨R, hf, trivial⟩

/-- **A position that is not reported, and one that is lost.** `lseek` to `2 ^ 31` succeeds and
returns `-2 ^ 31`. A write of one byte to a file of three opened to append, from the position 0,
leaves the position 1 where the file has four bytes. -/
theorem position_lost :
    (∃ s', exec (.lseek 3 (2 ^ 31) 0) (threeBytes 3 0) = .ok (-2 ^ 31, s') ∧
      s'.position 7 = some (2 ^ 31)) ∧
    (∃ s', exec (.write 3 [[9]]) (threeBytes 0o2003 0) = .ok (1, s') ∧ s'.position 7 = some 1 ∧
      (s'.fileOf 7).map RamFile.rnSize = some 4) := by
  refine ⟨⟨(threeBytes 3 0).setFile 7 ((threeBytesFd 3 0).seekOut (2 ^ 31) 0).2, ?_, ?_⟩,
    ⟨((threeBytesFd 0o2003 0).writeOut [[9]] (-1)).2, ?_, ?_, ?_⟩⟩
  · rw [exec, bind_of_ok ((threeBytesFd 3 0).lseek_eq (2 ^ 31) 0)]
    rfl
  · rw [position_setFile]
    decide +kernel
  · have hv : ((threeBytesFd 0o2003 0).writeOut [[9]] (-1)).1.map Prod.fst = .ok 1 := by decide +kernel
    rw [exec, bind_of_ok ((threeBytesFd 0o2003 0).writev_eq [[9]])]
    rcases hr : ((threeBytesFd 0o2003 0).writeOut [[9]] (-1)).1 with e | ⟨k, ws⟩
    · rw [hr] at hv
      cases hv
    · rw [hr] at hv
      cases hv
      rfl
  · decide +kernel
  · decide +kernel

end Fs
end Coffer
