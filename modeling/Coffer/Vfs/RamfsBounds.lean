/-
# The buffer of a ramfs file under the system calls

`write`, `pwrite` and `ftruncate` (`vfs/syscall_handlers.c`, `vfs/syscalls.c`, `vfs/fops.c`) on
the descriptors of one file. Offsets and lengths come from user registers. A position beyond
`LONG_MAX` is refused, but the end of the write is not looked at; a length that is negative is
not refused at all.

`ramfs_bounds_iff`: the sizes of the file stay in order, and every byte goes into the buffer,
exactly if every call that is carried out ends at most at `LONG_MAX` and truncates to no
negative length. `ramfs_bounds_wrap` has a write outside the buffer in each of the two cases.
-/
import Coffer.Vfs.Ramfs

namespace Coffer

/-! ### The calls -/

/-- A descriptor: `f_offset`, and `UK_FWRITE` and `O_APPEND` of `f_flags`. -/
structure Descriptor where
  fOffset : ℤ
  fwrite : Bool
  append : Bool

/-- A file and its descriptors. -/
structure OpenFile where
  file : RamFile
  desc : ℕ → Descriptor

/-- A call with its arguments; those that are `off_t` are the values of a register. -/
inductive FileCall
  | writev (iov : List (List UInt8))
  | pwritev (iov : List (List UInt8)) (offset : ℤ)
  | ftruncate (length : ℤ)

namespace OpenFile

/-- `uio_offset` in `vfs_write`: the offset −1 stands for `f_offset`. -/
def position (o : OpenFile) (fd : ℕ) (offset : ℤ) : ℤ :=
  if offset = -1 then (o.desc fd).fOffset else offset

/-- `sys_write` with `vfs_write`. -/
def sysWrite (o : OpenFile) (fd : ℕ) (iov : List (List UInt8)) (offset : ℤ) (a : Answer) :
    Except Errno (OpenFile × List Copy) :=
  match rwChecks (o.desc fd).fwrite (iov.map List.length) with
  | .error e => .error e
  | .ok 0 => .ok (o, [])
  | .ok bytes =>
    match o.file.write (o.position fd offset) iov.flatten (o.desc fd).append a with
    | .error e => .error e
    | .ok (f, cs) =>
      let d := o.desc fd
      let d := if offset = -1 then { d with fOffset := toOff (d.fOffset + bytes) } else d
      .ok (⟨f, Function.update o.desc fd d⟩, cs)

/-- The handlers of the calls. -/
def exec (o : OpenFile) (fd : ℕ) (a : Answer) : FileCall → Except Errno (OpenFile × List Copy)
  | .writev iov => if (o.desc fd).fOffset < 0 then .error .einval else o.sysWrite fd iov (-1) a
  | .pwritev iov offset =>
    if (o.desc fd).fOffset < 0 then .error .einval else o.sysWrite fd iov (toOff offset) a
  | .ftruncate length =>
    match o.file.truncate (toOff length) a with
    | .error e => .error e
    | .ok (f, cs) => .ok ({ o with file := f }, cs)

/-- A write from `offset` on ends at most at `LONG_MAX`, where there is something to write. -/
def WriteFits (o : OpenFile) (fd : ℕ) (iov : List (List UInt8)) (offset : ℤ) : Prop :=
  iov.flatten ≠ [] →
    o.file.writeOffset (o.position fd offset) (o.desc fd).append + iov.flatten.length ≤ 2 ^ 63 - 1

/-- The file the call asks for has a size. -/
def Fits (o : OpenFile) (fd : ℕ) : FileCall → Prop
  | .writev iov => o.WriteFits fd iov (-1)
  | .pwritev iov offset => o.WriteFits fd iov (toOff offset)
  | .ftruncate length => 0 ≤ toOff length

end OpenFile

/-- What is to hold of the sizes and the buffer of a file. -/
structure RamFile.InBounds (f : RamFile) : Prop where
  le : f.rnSize ≤ f.rnBufsize
  size : f.vSize = f.rnSize
  buf : 0 < f.rnBufsize → f.rnBuf.isSome = true

theorem FileInv.inBounds {f : RamFile} (h : FileInv f) : f.InBounds := ⟨h.le, h.size, h.buf.mpr⟩

theorem RamFile.InBounds.vSize_nonneg {f : RamFile} (h : f.InBounds) : 0 ≤ f.vSize := by
  rw [h.size]
  exact Int.natCast_nonneg _

/-! ### One call -/

/-- A write that ends beyond `LONG_MAX` makes the size of the vnode negative. -/
theorem FileInv.write_wraps {f f' : RamFile} {cs : List Copy} {offset : ℤ} {data : List UInt8}
    {append : Bool} {a : Answer} (h : FileInv f) (hdata : data ≠ []) (hlen : data.length < 2 ^ 31)
    (hbig : ¬ f.writeOffset offset append + data.length ≤ 2 ^ 63 - 1)
    (hr : f.write offset data append a = .ok (f', cs)) : f'.vSize < 0 := by
  have hsz := h.size_lt
  unfold RamFile.write at hr
  by_cases h0 : offset < 0
  · rw [if_pos h0] at hr
    cases hr
  rw [if_neg h0] at hr
  by_cases h1 : 2 ^ 63 - 1 ≤ offset
  · rw [if_pos h1] at hr
    cases hr
  rw [if_neg h1, if_neg hdata] at hr
  obtain ⟨p, hp, hp'⟩ : ∃ p : ℕ, f.writeOffset offset append = p ∧ p < 2 ^ 63 := by
    unfold RamFile.writeOffset
    split
    · exact ⟨f.rnSize, toOff_eq (by omega) (by omega), hsz⟩
    · exact ⟨offset.toNat, (Int.toNat_of_nonneg (by omega)).symm, by omega⟩
  simp only [hp] at hr hbig
  have hneg : toOff (p + data.length) < 0 := by
    unfold toOff
    omega
  rw [toU64_nat (by omega), h.toU64_vSize, add64_eq (by omega), if_pos (by omega)] at hr
  -- the expansion sets the size to the end of the write, whatever it does to the buffer
  have hexp : ∀ {g : RamFile} {gs : List Copy}, f.expand (toOff (p + data.length)) a = .ok (g, gs) →
      g.vSize = toOff (p + data.length) := by
    intro g gs hx
    unfold RamFile.expand at hx
    split at hx
    · split at hx
      · cases hx
      · simp only [Except.ok.injEq, Prod.mk.injEq] at hx
        rw [← hx.1]
        rfl
    · simp only [Except.ok.injEq, Prod.mk.injEq] at hx
      rw [← hx.1]
      rfl
  cases hx : f.expand (toOff (p + data.length)) a with
  | error e =>
    rw [hx] at hr
    cases hr
  | ok x =>
    rw [hx] at hr
    simp only [Except.ok.injEq, Prod.mk.injEq] at hr
    rw [← hr.1]
    show x.1.vSize < 0
    rw [hexp hx]
    exact hneg

/-- One call: the file is in order again and the copies are inside, or the sizes disagree. -/
structure CallSpec (o' : OpenFile) (cs : List Copy) (fits : Prop) : Prop where
  inv : fits → FileInv o'.file ∧ ∀ c ∈ cs, c.Inside
  only : ¬ fits → o'.file.vSize < 0

theorem OpenFile.sysWrite_spec {o o' : OpenFile} {fd : ℕ} {iov : List (List UInt8)} {offset : ℤ}
    {a : Answer} {cs : List Copy} (h : FileInv o.file) (hr : o.sysWrite fd iov offset a = .ok (o', cs)) :
    CallSpec o' cs (o.WriteFits fd iov offset) := by
  unfold OpenFile.sysWrite at hr
  cases ht : rwChecks (o.desc fd).fwrite (iov.map List.length) with
  | error e =>
    rw [ht] at hr
    cases hr
  | ok bytes =>
    obtain ⟨hb, hlt⟩ := rwChecks_ok ht
    rw [← List.length_flatten] at hb
    rw [ht] at hr
    by_cases hz : bytes = 0
    · -- nothing to write
      rw [hz] at hr hb
      obtain ⟨rfl, rfl⟩ := Res.ok_pair hr
      have hnil : iov.flatten = [] := List.eq_nil_of_length_eq_zero hb.symm
      exact ⟨fun _ => ⟨h, by simp⟩, fun hn => absurd (fun hne => absurd hnil hne) hn⟩
    · have hne : iov.flatten ≠ [] := fun he => hz (by rw [hb, he]; rfl)
      simp only at hr
      cases hw : o.file.write (o.position fd offset) iov.flatten (o.desc fd).append a with
      | error e =>
        rw [hw] at hr
        cases hr
      | ok x =>
        obtain ⟨f, cs'⟩ := x
        rw [hw] at hr
        obtain ⟨rfl, rfl⟩ := Res.ok_pair hr
        refine ⟨fun hfit => ?_, fun hn => ?_⟩
        · obtain ⟨p, -, hI, -, hcs, -⟩ :=
            h.write_spec (Int.lt_of_le_sub_one (hfit hne)) (by omega) hne hw
          exact ⟨hI, hcs⟩
        · exact h.write_wraps hne (by omega) (fun hle => hn fun _ => hle) hw

theorem OpenFile.exec_spec {o o' : OpenFile} {fd : ℕ} {a : Answer} {call : FileCall} {cs : List Copy}
    (h : FileInv o.file) (hr : o.exec fd a call = .ok (o', cs)) : CallSpec o' cs (o.Fits fd call) := by
  cases call with
  | writev iov =>
    simp only [OpenFile.exec] at hr
    split at hr
    · cases hr
    · exact OpenFile.sysWrite_spec h hr
  | pwritev iov offset =>
    simp only [OpenFile.exec] at hr
    split at hr
    · cases hr
    · exact OpenFile.sysWrite_spec h hr
  | ftruncate length =>
    simp only [OpenFile.exec] at hr
    cases ht : o.file.truncate (toOff length) a with
    | error e =>
      rw [ht] at hr
      cases hr
    | ok x =>
      obtain ⟨f, cs'⟩ := x
      rw [ht] at hr
      obtain ⟨rfl, rfl⟩ := Res.ok_pair hr
      refine ⟨fun hfit => ?_, fun hn => ?_⟩
      · obtain ⟨n, hn⟩ := Int.eq_ofNat_of_zero_le (show 0 ≤ toOff length from hfit)
        have hlt := toOff_lt length
        rw [hn] at ht
        obtain ⟨hI, -, hcs, -⟩ := h.truncate_spec (by omega) ht
        exact ⟨hI, hcs⟩
      · rw [(RamFile.truncate_sizes ht).2]
        exact not_le.mp hn

/-! ### Runs -/

/-- In every state of the run the sizes are in order, and every byte a call copies goes into the
buffer. A call that fails has changed nothing. -/
def CallsInBounds (o : OpenFile) : List (ℕ × FileCall × Answer) → Prop
  | [] => o.file.InBounds
  | (fd, call, a) :: calls => o.file.InBounds ∧
    match o.exec fd a call with
    | .error _ => CallsInBounds o calls
    | .ok (o', cs) => (∀ c ∈ cs, c.Inside) ∧ CallsInBounds o' calls

/-- Every call that does not fail asks for a file that has a size. -/
def CallsFit (o : OpenFile) : List (ℕ × FileCall × Answer) → Prop
  | [] => True
  | (fd, call, a) :: calls =>
    match o.exec fd a call with
    | .error _ => CallsFit o calls
    | .ok (o', _) => o.Fits fd call ∧ CallsFit o' calls

theorem CallsInBounds.head {o : OpenFile} {calls : List (ℕ × FileCall × Answer)}
    (h : CallsInBounds o calls) : o.file.InBounds := by
  cases calls with
  | nil => exact h
  | cons x calls => exact h.1

/-- **The buffer of a ramfs file stays in bounds exactly if every call fits.** For the
descriptors of a file in order, an empty one in particular, and any calls, with any arguments
and whatever the allocator answers: in every state reached the sizes are in order and every
copy inside the buffer, if and only if each call that does not fail ends at most at `LONG_MAX`
and truncates to no negative length. -/
theorem ramfs_bounds_iff (o : OpenFile) (h : FileInv o.file) (calls : List (ℕ × FileCall × Answer)) :
    CallsInBounds o calls ↔ CallsFit o calls := by
  induction calls generalizing o with
  | nil => exact ⟨fun _ => trivial, fun _ => h.inBounds⟩
  | cons x calls ih =>
    obtain ⟨fd, call, a⟩ := x
    rw [CallsInBounds, CallsFit]
    cases hr : o.exec fd a call with
    | error e => exact ⟨fun hx => (ih o h).mp hx.2, fun hx => ⟨h.inBounds, (ih o h).mpr hx⟩⟩
    | ok x =>
      obtain ⟨o', cs⟩ := x
      have hspec := OpenFile.exec_spec h hr
      constructor
      · rintro ⟨-, -, hx⟩
        have hfit : o.Fits fd call := by
          by_contra hn
          have hneg := hspec.only hn
          have hnn := hx.head.vSize_nonneg
          omega
        exact ⟨hfit, (ih o' (hspec.inv hfit).1).mp hx⟩
      · rintro ⟨hfit, hx⟩
        obtain ⟨hI, hcs⟩ := hspec.inv hfit
        exact ⟨h.inBounds, hcs, (ih o' hI).mpr hx⟩

/-- A new file with a descriptor to write, and one to append. -/
def newFile : OpenFile := ⟨RamFile.empty, fun fd => ⟨0, true, fd == 1⟩⟩

/-- The allocator has memory. -/
def someMemory : Answer := ⟨true, fun _ => 0⟩

/-- A write, an append, a write at 5000 and a truncation. -/
def fittingCalls : List (ℕ × FileCall × Answer) :=
  [(0, .writev [[1, 2], [3]], someMemory), (1, .writev [[4]], someMemory),
    (0, .pwritev [[5]] 5000, someMemory), (0, .ftruncate 3, someMemory)]

theorem ramfs_bounds_iff_fitting : CallsInBounds newFile fittingCalls := by
  refine (ramfs_bounds_iff newFile FileInv.empty fittingCalls).mpr ?_
  exact ⟨fun _ => by decide +kernel, fun _ => by decide +kernel, fun _ => by decide +kernel,
    show 0 ≤ toOff 3 by decide, trivial⟩

/-- **Two calls that break the bounds.** `ftruncate` to −1 on an empty file gets 4 MiB from the
allocator and sets the size to `2 ^ 64 - 1`; a `pwrite` of one byte at 4 MiB then writes behind
the buffer. A `pwrite` of two bytes at `LONG_MAX - 1` to an empty file gets no buffer at all. -/
theorem ramfs_bounds_wrap :
    ((newFile.exec 0 someMemory (.ftruncate (-1))).toOption.map fun x =>
      (x.1.file.rnSize, x.1.file.rnBufsize, x.1.file.vSize)) = some (2 ^ 64 - 1, 0x400000, -1) ∧
    ((do
      let x ← newFile.exec 0 someMemory (.ftruncate (-1))
      x.1.exec 0 someMemory (.pwritev [[7]] 0x400000)).toOption.map Prod.snd) =
        some [⟨0x400000, 1, 0x400000⟩] ∧
    ((newFile.exec 0 someMemory (.pwritev [[7, 7]] (2 ^ 63 - 2))).toOption.map fun x =>
      (x.1.file.rnSize, x.1.file.rnBufsize, x.1.file.vSize, x.2)) =
        some (2 ^ 63, 0, -2 ^ 63, [⟨2 ^ 63 - 2, 2, 0⟩]) := by
  decide +kernel

end Coffer
