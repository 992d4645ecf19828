/-
# A ramfs file against an array of bytes

The reference for a regular file is `Lib.File`: writes overwrite or extend, truncation cuts or
extends, and what an extension brings into existence is 0 until it is written. The file of
ramfs is a prefix of its buffer. Shrinking it leaves the rest of the buffer as it was, and
growing it within the buffer shows that rest again; `ramfs_truncate` beyond the buffer takes
memory from `kmalloc` and does not clear it.

`ramfs_reads_iff`: the file reads as the reference exactly if every call that extends it does so
over zeros. `ramfs_reads_stale` has one run of each kind that does not.
-/
import Coffer.Vfs.Ramfs

namespace Coffer

open Lib

variable {a : Answer} {append : Bool} {cs : List Copy} {data : List UInt8} {f f' : RamFile}

/-! ### Calls -/

/-- A call that changes a file. -/
inductive FileOp
  | write (offset : ℕ) (data : List UInt8) (append : Bool)
  | truncate (length : ℕ)

/-- Where a write begins. -/
def writeStart (size offset : ℕ) (append : Bool) : ℕ := if append then size else offset

namespace FileOp

/-- The call on the file. -/
def exec (f : RamFile) (a : Answer) : FileOp → Except Errno RamFile
  | write offset data append => (f.write offset data append a).map Prod.fst
  | truncate length => (f.truncate length a).map Prod.fst

/-- The call on the reference. -/
def apply (l : List UInt8) : FileOp → List UInt8
  | write offset data append => File.write 0 l (writeStart l.length offset append) data
  | truncate length => File.truncate 0 l length

/-- The arguments fit: a size is an `off_t`, and a count an `int`. -/
def Fits (f : RamFile) : FileOp → Prop
  | write offset data append =>
    writeStart f.rnSize offset append + data.length < 2 ^ 63 ∧ data.length < 2 ^ 31
  | truncate length => length < 2 ^ 63

/-- The call extends the file over zeros: what it shows of the buffer beyond the old size, and
does not write, is 0. A new buffer of `ramfs_write` always is. -/
def Clean (f : RamFile) (a : Answer) : FileOp → Prop
  | write offset data append =>
    data ≠ [] →
    ((writeStart f.rnSize offset append + data.length : ℕ) : ℤ) ≤ toOff f.rnBufsize →
      ∀ i, f.rnSize ≤ i → i < writeStart f.rnSize offset append → f.bytes i = 0
  | truncate length => ∀ i, f.rnSize ≤ i → i < length →
    (if length ≤ f.rnBufsize then f.bytes i else a.fill i) = 0

end FileOp

/-! ### One call -/

theorem RamFile.getD_contents (f : RamFile) (i : ℕ) :
    f.contents.getD i 0 = if i < f.rnSize then f.bytes i else 0 := by
  rw [List.getD_eq_getElem?_getD, RamFile.getElem?_contents]
  split <;> rfl

theorem RamFile.write_nil {offset : ℤ}
    (hdata : data = []) (hr : f.write offset data append a = .ok (f', cs)) :
    f' = f := by
  unfold RamFile.write at hr
  rw [if_pos hdata] at hr
  split at hr
  · cases hr
  split at hr
  · cases hr
  · simp only [Except.ok.injEq, Prod.mk.injEq] at hr
    exact hr.1.symm

theorem FileInv.writeOffset_eq (h : FileInv f) (offset : ℕ) (append : Bool) :
    f.writeOffset offset append = writeStart f.rnSize offset append := by
  have hsz := h.size_lt
  unfold RamFile.writeOffset writeStart
  split
  · exact toOff_eq (by omega) (by omega)
  · rfl

theorem FileOp.exec_write {offset : ℕ}
    (hr : (FileOp.write offset data append).exec f a = .ok f') :
    ∃ cs, f.write offset data append a = .ok (f', cs) := by
  unfold FileOp.exec at hr
  cases hw : f.write offset data append a with
  | error e => simp only [hw, Except.map, reduceCtorEq] at hr
  | ok x =>
    simp only [hw, Except.map, Except.ok.injEq] at hr
    exact ⟨x.2, by rw [← hr]⟩

theorem FileOp.exec_truncate {length : ℕ}
    (hr : (FileOp.truncate length).exec f a = .ok f') :
    ∃ cs, f.truncate length a = .ok (f', cs) := by
  unfold FileOp.exec at hr
  cases hw : f.truncate length a with
  | error e => simp only [hw, Except.map, reduceCtorEq] at hr
  | ok x =>
    simp only [hw, Except.map, Except.ok.injEq] at hr
    exact ⟨x.2, by rw [← hr]⟩

/-- A write leaves the reference exactly if it is clean. -/
theorem FileInv.write_iff {offset : ℕ}
    (h : FileInv f)
    (hfit : writeStart f.rnSize offset append + data.length < 2 ^ 63) (hlen : data.length < 2 ^ 31)
    (hr : f.write offset data append a = .ok (f', cs)) :
    FileInv f' ∧ (f'.contents = (FileOp.write offset data append).apply f.contents ↔
      (FileOp.write offset data append).Clean f a) := by
  by_cases hdata : data = []
  · -- nothing to write
    rw [RamFile.write_nil hdata hr]
    exact ⟨h, fun _ hne => absurd hdata hne, fun _ => by rw [FileOp.apply, File.write, if_pos hdata]⟩
  have hstart := h.writeOffset_eq offset append
  obtain ⟨p, hp, hI, hsize, -, hb⟩ := h.write_spec (by rw [hstart]; omega) hlen hdata hr
  rw [hstart] at hp
  have hp' : writeStart f.rnSize offset append = p := by exact_mod_cast hp
  refine ⟨hI, ?_⟩
  simp only [FileOp.apply, FileOp.Clean, RamFile.length_contents, hp']
  constructor
  · intro heq _ hold i hi hi'
    have h1 := f'.getElem?_contents i
    rw [heq, File.getElem?_write 0 hdata, if_pos hi', RamFile.getD_contents, if_neg (by omega),
      if_pos (by omega), hb i, if_neg (by omega), if_pos (Or.inr (Or.inl hold)), Option.some.injEq] at h1
    exact h1.symm
  · intro hclean
    refine List.ext_getElem? fun i => ?_
    rw [f'.getElem?_contents, File.getElem?_write 0 hdata, hsize, hb i, RamFile.getD_contents,
      RamFile.getElem?_contents]
    by_cases h1 : i < p
    · -- before the data
      rw [if_pos h1, if_pos (by omega), if_neg (by omega)]
      by_cases h2 : i < f.rnSize
      · rw [if_pos (Or.inl h2), if_pos h2]
      · rw [if_neg h2]
        split
        · rename_i hor
          rcases hor with h3 | h3 | h3
          · omega
          · rw [hclean hdata h3 i (by omega) h1]
          · omega
        · rfl
    · rw [if_neg h1]
      by_cases h2 : i < p + data.length
      · -- the data
        rw [if_pos (by omega), if_pos ⟨by omega, h2⟩, if_pos h2, List.getD_eq_getElem?_getD,
          List.getElem?_eq_getElem (show i - p < data.length by omega), Option.getD_some]
      · -- what was behind it
        rw [if_neg (by omega : ¬ (p ≤ i ∧ i < p + data.length)), if_neg h2]
        by_cases h3 : i < f.rnSize
        · rw [if_pos (by omega), if_pos (Or.inl h3), if_pos h3]
        · rw [if_neg (by omega), if_neg h3]

/-- A truncation leaves the reference exactly if it is clean. -/
theorem FileInv.truncate_iff {n : ℕ} (h : FileInv f)
    (hn : n < 2 ^ 63) (hr : f.truncate n a = .ok (f', cs)) :
    FileInv f' ∧ (f'.contents = (FileOp.truncate n).apply f.contents ↔ (FileOp.truncate n).Clean f a) := by
  obtain ⟨hI, hsize, -, hb⟩ := h.truncate_spec hn hr
  refine ⟨hI, ?_⟩
  simp only [FileOp.apply, FileOp.Clean]
  constructor
  · intro heq i hi hi'
    have h1 := f'.getElem?_contents i
    rw [heq, File.getElem?_truncate, if_pos hi', RamFile.getD_contents, if_neg (by omega),
      if_pos (by omega), hb i hi', Option.some.injEq] at h1
    have hor : (i < f.rnSize ∨ n ≤ f.rnBufsize) ↔ n ≤ f.rnBufsize := by omega
    simp only [hor] at h1
    exact h1.symm
  · intro hclean
    refine List.ext_getElem? fun i => ?_
    rw [f'.getElem?_contents, File.getElem?_truncate, hsize, RamFile.getD_contents]
    by_cases h1 : i < n
    · rw [if_pos h1, if_pos h1, hb i h1]
      by_cases h2 : i < f.rnSize
      · rw [if_pos (Or.inl h2), if_pos h2]
      · rw [if_neg h2, ← hclean i (by omega) h1]
        have hor : (i < f.rnSize ∨ n ≤ f.rnBufsize) ↔ n ≤ f.rnBufsize := by omega
        simp only [hor]
    · rw [if_neg h1, if_neg h1]

/-- **One call.** -/
theorem FileInv.exec {op : FileOp} (h : FileInv f) (hfit : op.Fits f)
    (hr : op.exec f a = .ok f') :
    FileInv f' ∧ (f'.contents = op.apply f.contents ↔ op.Clean f a) := by
  cases op with
  | write offset data append =>
    obtain ⟨cs, hw⟩ := FileOp.exec_write hr
    exact h.write_iff hfit.1 hfit.2 hw
  | truncate length =>
    obtain ⟨cs, hw⟩ := FileOp.exec_truncate hr
    exact h.truncate_iff hfit hw

/-! ### Runs -/

/-- Every `ramfs_read` returns the bytes of `l`. -/
def RamFile.ReadsAs (f : RamFile) (l : List UInt8) : Prop :=
  ∀ off n, off < 2 ^ 63 → n < 2 ^ 31 → f.read (off : ℕ) n = .ok (File.read l off n)

theorem FileInv.readsAs_iff (h : FileInv f) {l : List UInt8} :
    f.ReadsAs l ↔ f.contents = l := by
  constructor
  · intro hr
    refine File.eq_of_read (n := 2 ^ 63) (by rw [f.length_contents]; exact h.size_lt) fun off hoff => ?_
    have h1 := hr off 1 hoff (by norm_num)
    rw [h.read_spec (by norm_num) hoff] at h1
    exact Except.ok.inj h1
  · rintro rfl off n hoff hn
    exact h.read_spec hn hoff

/-- The arguments of every call fit. -/
def RunFits (f : RamFile) : List (FileOp × Answer) → Prop
  | [] => True
  | (op, a) :: ops => op.Fits f ∧
    match op.exec f a with
    | .error _ => RunFits f ops
    | .ok f' => RunFits f' ops

instance (f : RamFile) (op : FileOp) : Decidable (op.Fits f) := by
  cases op <;> unfold FileOp.Fits <;> infer_instance

instance decidableRunFits (f : RamFile) : (ops : List (FileOp × Answer)) → Decidable (RunFits f ops)
  | [] => isTrue trivial
  | (op, a) :: ops =>
    have : Decidable (match op.exec f a with | .error _ => RunFits f ops | .ok f' => RunFits f' ops) :=
      match op.exec f a with
      | .error _ => decidableRunFits f ops
      | .ok f' => decidableRunFits f' ops
    inferInstanceAs (Decidable (_ ∧ _))

/-- In every state of the run the file reads as the reference, to which a call that fails does
nothing. -/
def RunReads (f : RamFile) (l : List UInt8) : List (FileOp × Answer) → Prop
  | [] => f.ReadsAs l
  | (op, a) :: ops => f.ReadsAs l ∧
    match op.exec f a with
    | .error _ => RunReads f l ops
    | .ok f' => RunReads f' (op.apply l) ops

/-- Every call that does not fail is clean. -/
def RunClean (f : RamFile) : List (FileOp × Answer) → Prop
  | [] => True
  | (op, a) :: ops =>
    match op.exec f a with
    | .error _ => RunClean f ops
    | .ok f' => op.Clean f a ∧ RunClean f' ops

theorem RunReads.head {l : List UInt8} {ops : List (FileOp × Answer)}
    (h : RunReads f l ops) : f.ReadsAs l := by
  cases ops with
  | nil => exact h
  | cons x ops => exact h.1

/-- **A ramfs file reads as an array of bytes exactly if it is extended over zeros only.** For a
file in order and any run of writes and truncations with arguments that fit, whatever the
allocator answers: every read in every state returns the bytes of the reference if and only if
every call that extends the file shows nothing but zeros of the buffer. -/
theorem ramfs_reads_iff (f : RamFile) (h : FileInv f) (ops : List (FileOp × Answer))
    (hfit : RunFits f ops) : RunReads f f.contents ops ↔ RunClean f ops := by
  induction ops generalizing f with
  | nil => exact ⟨fun _ => trivial, fun _ => h.readsAs_iff.mpr rfl⟩
  | cons x ops ih =>
    obtain ⟨op, a⟩ := x
    have hhead : f.ReadsAs f.contents := h.readsAs_iff.mpr rfl
    obtain ⟨hfit1, hfit2⟩ := hfit
    rw [RunReads, RunClean]
    cases hr : op.exec f a with
    | error e =>
      rw [hr] at hfit2
      exact ⟨fun hx => (ih f h hfit2).mp hx.2, fun hx => ⟨hhead, (ih f h hfit2).mpr hx⟩⟩
    | ok f' =>
      rw [hr] at hfit2
      obtain ⟨hI, hiff⟩ := h.exec hfit1 hr
      constructor
      · rintro ⟨-, hx⟩
        have heq := hI.readsAs_iff.mp hx.head
        refine ⟨hiff.mp heq, (ih f' hI hfit2).mp ?_⟩
        rw [heq]
        exact hx
      · rintro ⟨hc, hx⟩
        refine ⟨hhead, ?_⟩
        show RunReads f' (op.apply f.contents) ops
        rw [← hiff.mpr hc]
        exact (ih f' hI hfit2).mpr hx

/-- The allocator has memory, and it is full of ones. -/
def dirtyAnswer : Answer := ⟨true, fun _ => 0xff⟩

/-- Two bytes are written and the file is cut to nothing; one byte is written at 3. -/
def rewriteRun : List (FileOp × Answer) :=
  [(.write 0 [1, 2] false, dirtyAnswer), (.truncate 0, dirtyAnswer), (.write 3 [7] false, dirtyAnswer)]

theorem ramfs_reads_rewrite : RunReads RamFile.empty [] rewriteRun := by
  refine (ramfs_reads_iff RamFile.empty FileInv.empty rewriteRun (by decide +kernel)).mpr ?_
  exact ⟨fun _ _ i _ hi => absurd hi (Nat.not_lt_zero i), fun i _ hi => absurd hi (Nat.not_lt_zero i),
    fun _ hle => absurd hle (by decide +kernel), trivial⟩

/-- **Two runs that read what they should not.** Two bytes are written, the file is cut to one
and extended to two: the second byte is back. And a file of two bytes made by `ramfs_truncate`
has the bytes of the allocator. The reference has zeros in both. -/
theorem ramfs_reads_stale :
    ((do
      let f ← (FileOp.write 0 [1, 2] false).exec .empty dirtyAnswer
      let f ← (FileOp.truncate 1).exec f dirtyAnswer
      let f ← (FileOp.truncate 2).exec f dirtyAnswer
      f.read 0 2).toOption = some [1, 2] ∧
      File.read ((FileOp.truncate 2).apply ((FileOp.truncate 1).apply
        ((FileOp.write 0 [1, 2] false).apply []))) 0 2 = [1, 0]) ∧
    ((do
      let f ← (FileOp.truncate 2).exec .empty dirtyAnswer
      f.read 0 2).toOption = some [0xff, 0xff] ∧
      File.read ((FileOp.truncate 2).apply []) 0 2 = [0, 0]) := by
  decide +kernel

end Coffer
