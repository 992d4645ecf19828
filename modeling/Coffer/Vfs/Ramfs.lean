/-
# The files of ramfs

A regular file of `ramfs/ramfs_vnops.c` is a node with a buffer, its size and the size of the
file, and a vnode with the size once more. The visible file is a prefix of the buffer. Offsets
and lengths are `off_t`, sizes are `size_t`; the code mixes the two, and here as there a value
changes its meaning when it changes its type (`toU64`, `toOff`).

Whether the allocator has memory, and what is in it, is an argument of every call that asks for
some. The calls also return what they copy into the buffer, as index and count. What `sys_read` and
`sys_write` check before they call ramfs is here too.

`write_spec` and `truncate_spec` say what a call does to a file in order whose new size is one.
-/
import Coffer.Lib.File
import Coffer.Memory

namespace Coffer

open Lib

/-! ### Numbers and errors -/

/-- `off_t` to `size_t`. -/
def toU64 (x : ℤ) : ℕ := (x % 2 ^ 64).toNat

/-- A sum, or a `size_t`, as `off_t`. -/
def toOff (x : ℤ) : ℤ := (x + 2 ^ 63) % 2 ^ 64 - 2 ^ 63

theorem toU64_nat {n : ℕ} (h : n < 2 ^ 64) : toU64 n = n := by unfold toU64; omega

theorem toOff_lt (x : ℤ) : toOff x < 2 ^ 63 := by unfold toOff; omega

theorem toOff_eq {x : ℤ} (h : -2 ^ 63 ≤ x) (h' : x < 2 ^ 63) : toOff x = x := by unfold toOff; omega

/-- The errors of the VFS. -/
inductive Errno
  | enoent
  | eio
  | ebadf
  | enomem
  | eacces
  | ebusy
  | eexist
  | enotdir
  | eisdir
  | einval
  | enfile
  | emfile
  | efbig
  | espipe
  | eloop
  | enametoolong
deriving DecidableEq, Repr

/-! ### The file -/

/-- A regular file: `rn_buf`, `rn_bufsize` and `rn_size` of its node, `v_size` of its vnode.
`rn_buf` is none for `NULL`. -/
structure RamFile where
  rnBuf : Option (ℕ → UInt8)
  rnBufsize : ℕ
  rnSize : ℕ
  vSize : ℤ

/-- An answer of the allocator: whether there is memory, and what is in it. -/
structure Answer where
  granted : Bool
  fill : ℕ → UInt8

def Answer.kmalloc (a : Answer) : Option (ℕ → UInt8) := if a.granted then some a.fill else none

def Answer.calloc (a : Answer) : Option (ℕ → UInt8) := if a.granted then some fun _ => 0 else none

/-- `count` bytes are copied into a buffer of `limit` bytes, from `index` on; `limit` is 0 for
`NULL`. -/
structure Copy where
  index : ℕ
  count : ℕ
  limit : ℕ
deriving DecidableEq, Repr

/-- The copy stays in the buffer. -/
def Copy.Inside (c : Copy) : Prop := c.index + c.count ≤ c.limit

namespace RamFile

/-- The file `ramfs_create` makes. -/
def empty : RamFile := ⟨none, 0, 0, 0⟩

/-- The bytes of the buffer. -/
def bytes (f : RamFile) : ℕ → UInt8 := f.rnBuf.getD fun _ => 0

/-- The visible file. -/
def contents (f : RamFile) : List UInt8 := (List.range f.rnSize).map f.bytes

/-- The new buffer of `ramfs_write` and `ramfs_truncate`: `v_size` bytes are copied if
`rn_size` is not 0. -/
def replaceBuf (f : RamFile) (newBuf : ℕ → UInt8) (newSize : ℕ) : RamFile × List Copy :=
  if f.rnSize ≠ 0 then
    ({ f with
        rnBuf := some fun i => if i < toU64 f.vSize then f.bytes i else newBuf i
        rnBufsize := newSize }, [⟨0, toU64 f.vSize, newSize⟩])
  else ({ f with rnBuf := some newBuf, rnBufsize := newSize }, [])

/-- `rn_size` and `v_size` are set. -/
def setSize (f : RamFile) (size : ℤ) : RamFile := { f with rnSize := toU64 size, vSize := size }

/-- `ramfs_truncate`. -/
def truncate (f : RamFile) (length : ℤ) (a : Answer) : Except Errno (RamFile × List Copy) :=
  if length = 0 then
    let f := if f.rnBuf.isSome then { f with rnBuf := none, rnBufsize := 0 } else f
    .ok (f.setSize length, [])
  else if f.rnBufsize < toU64 length then
    match a.kmalloc with
    | none => .error .eio
    | some newBuf =>
      let (f, cs) := f.replaceBuf newBuf (add64 (partitionUp (toU64 length)) (2 * 0x200000))
      .ok (f.setSize length, cs)
  else .ok (f.setSize length, [])

/-- `ramfs_truncate` asks the allocator for a buffer. -/
def TruncateAsks (f : RamFile) (length : ℤ) : Prop := length ≠ 0 ∧ f.rnBufsize < toU64 length

instance (f : RamFile) (length : ℤ) : Decidable (f.TruncateAsks length) :=
  inferInstanceAs (Decidable (_ ∧ _))

/-- The expansion in `ramfs_write`. -/
def expand (f : RamFile) (endPos : ℤ) (a : Answer) : Except Errno (RamFile × List Copy) :=
  if toOff f.rnBufsize < endPos then
    match a.calloc with
    | none => .error .eio
    | some newBuf =>
      let newSize :=
        if f.rnBufsize ≠ 0 then add64 (partitionUp (toU64 endPos)) (100 * 0x200000)
        else pageUp (toU64 endPos)
      let (f, cs) := f.replaceBuf newBuf newSize
      .ok (f.setSize endPos, cs)
  else .ok (f.setSize endPos, [])

/-- How much `vfscore_uiomove` moves of `n` bytes: its parameter is an `int`. -/
def uiomoveCount (n : ℕ) : ℕ :=
  let k := n % 2 ^ 32
  min n (if k < 2 ^ 31 then k else k + (2 ^ 64 - 2 ^ 32))

/-- `vfscore_uiomove` into the buffer. -/
def uiomove (f : RamFile) (offset : ℤ) (data : List UInt8) : RamFile × Copy :=
  let index := toU64 offset
  let count := uiomoveCount data.length
  ({ f with rnBuf := f.rnBuf.map fun buf i =>
      if index ≤ i ∧ i < index + count then data.getD (i - index) 0 else buf i },
    ⟨index, count, if f.rnBuf.isSome then f.rnBufsize else 0⟩)

/-- `uio_offset` of a write, after `IO_APPEND`. -/
def writeOffset (f : RamFile) (offset : ℤ) (append : Bool) : ℤ :=
  if append then toOff f.rnSize else offset

/-- `ramfs_write` asks the allocator for a buffer. -/
def WriteAsks (f : RamFile) (offset : ℤ) (data : List UInt8) (append : Bool) : Prop :=
  0 ≤ offset ∧ offset < 2 ^ 63 - 1 ∧ data ≠ [] ∧
    toU64 f.vSize < add64 (toU64 (f.writeOffset offset append)) data.length ∧
    toOff f.rnBufsize < toOff (f.writeOffset offset append + data.length)

instance (f : RamFile) (offset : ℤ) (data : List UInt8) (append : Bool) :
    Decidable (f.WriteAsks offset data append) := inferInstanceAs (Decidable (_ ∧ _))

/-- `ramfs_write`; `LONG_MAX` is `2 ^ 63 - 1`. -/
def write (f : RamFile) (offset : ℤ) (data : List UInt8) (append : Bool) (a : Answer) :
    Except Errno (RamFile × List Copy) :=
  if offset < 0 then .error .einval
  else if 2 ^ 63 - 1 ≤ offset then .error .efbig
  else if data = [] then .ok (f, [])
  else
    let offset := f.writeOffset offset append
    if toU64 f.vSize < add64 (toU64 offset) data.length then
      match f.expand (toOff (offset + data.length)) a with
      | .error e => .error e
      | .ok (f, cs) => .ok ((f.uiomove offset data).1, cs ++ [(f.uiomove offset data).2])
    else .ok ((f.uiomove offset data).1, [(f.uiomove offset data).2])

/-- `ramfs_read`: the bytes moved to the user. -/
def read (f : RamFile) (offset : ℤ) (resid : ℕ) : Except Errno (List UInt8) :=
  if offset < 0 then .error .einval
  else if resid = 0 then .ok []
  else if f.vSize ≤ offset then .ok []
  else
    let len := if f.vSize - offset < resid then (f.vSize - offset).toNat else resid
    .ok ((List.range (uiomoveCount len)).map fun i => f.bytes (toU64 offset + i))

end RamFile

/-- The sum of the lengths of an `iovec`, at most `IOSIZE_MAX`. -/
def iovTotal : List ℕ → ℕ → Option ℕ
  | [], bytes => some bytes
  | len :: lens, bytes => if 2 ^ 31 - 1 - bytes < len then none else iovTotal lens (bytes + len)

/-- What `sys_read` and `sys_write` check first: the mode of the descriptor and the number of
bytes. -/
def rwChecks (allowed : Bool) (lens : List ℕ) : Except Errno ℕ :=
  if allowed = false then .error .ebadf
  else
    match iovTotal lens 0 with
    | none => .error .einval
    | some bytes => .ok bytes

/-- `ramfs_truncate` sets both sizes. -/
theorem RamFile.truncate_sizes {f f' : RamFile} {cs : List Copy} {length : ℤ} {a : Answer}
    (hr : f.truncate length a = .ok (f', cs)) : f'.rnSize = toU64 length ∧ f'.vSize = length := by
  unfold RamFile.truncate at hr
  dsimp only at hr
  split at hr
  · simp only [Except.ok.injEq, Prod.mk.injEq] at hr
    rw [← hr.1]
    exact ⟨rfl, rfl⟩
  split at hr
  · split at hr
    · cases hr
    · simp only [Except.ok.injEq, Prod.mk.injEq] at hr
      rw [← hr.1]
      exact ⟨rfl, rfl⟩
  · simp only [Except.ok.injEq, Prod.mk.injEq] at hr
    rw [← hr.1]
    exact ⟨rfl, rfl⟩

theorem iovTotal_eq {lens : List ℕ} {bytes n : ℕ} (hb : bytes < 2 ^ 31)
    (h : iovTotal lens bytes = some n) : n = bytes + lens.sum ∧ n < 2 ^ 31 := by
  induction lens generalizing bytes with
  | nil =>
    simp only [iovTotal, Option.some.injEq] at h
    rw [← h]
    exact ⟨rfl, hb⟩
  | cons len lens ih =>
    unfold iovTotal at h
    split at h
    · cases h
    · obtain ⟨h1, h2⟩ := ih (by omega) h
      rw [List.sum_cons]
      exact ⟨by omega, h2⟩

theorem rwChecks_ok {allowed : Bool} {lens : List ℕ} {n : ℕ} (h : rwChecks allowed lens = .ok n) :
    n = lens.sum ∧ n < 2 ^ 31 := by
  unfold rwChecks at h
  split at h
  · cases h
  cases ht : iovTotal lens 0 with
  | none =>
    rw [ht] at h
    cases h
  | some bytes =>
    rw [ht] at h
    obtain ⟨h1, h2⟩ := iovTotal_eq (by norm_num) ht
    simp only [Except.ok.injEq] at h
    omega

theorem rwChecks_data {allowed : Bool} {iov : List (List UInt8)} {n : ℕ}
    (h : rwChecks allowed (iov.map List.length) = .ok (n + 1)) : iov.flatten ≠ [] := by
  intro h0
  have hlen := (rwChecks_ok h).1
  rw [← List.length_flatten, h0] at hlen
  cases hlen

theorem RamFile.uiomoveCount_eq {n : ℕ} (h : n < 2 ^ 31) : RamFile.uiomoveCount n = n := by
  unfold RamFile.uiomoveCount
  simp only
  rw [Nat.mod_eq_of_lt (by omega), if_pos h, min_self]

theorem RamFile.getElem?_contents (f : RamFile) (i : ℕ) :
    f.contents[i]? = if i < f.rnSize then some (f.bytes i) else none := by
  unfold RamFile.contents
  by_cases hi : i < f.rnSize
  · rw [if_pos hi, List.getElem?_map, List.getElem?_range hi, Option.map_some]
  · rw [if_neg hi, List.getElem?_eq_none (by simpa using hi)]

theorem RamFile.length_contents (f : RamFile) : f.contents.length = f.rnSize := by
  simp [RamFile.contents]

/-! ### What a call does to a file in order -/

/-- The file is in order: the sizes agree and fit in the buffer, which is there if it has a
size. -/
structure FileInv (f : RamFile) : Prop where
  size : f.vSize = f.rnSize
  le : f.rnSize ≤ f.rnBufsize
  size_lt : f.rnSize < 2 ^ 63
  buf_lt : f.rnBufsize < 2 ^ 64
  buf : f.rnBuf.isSome = true ↔ 0 < f.rnBufsize

theorem FileInv.empty : FileInv RamFile.empty := ⟨rfl, le_refl _, by decide, by decide, by decide⟩

namespace FileInv

variable {f f' : RamFile} {cs : List Copy}

theorem toU64_vSize (h : FileInv f) : toU64 f.vSize = f.rnSize := by
  have := h.size_lt
  rw [h.size, toU64_nat (by omega)]

/-- A new buffer that is large enough for the old file and the new size. -/
theorem replaceBuf (h : FileInv f) (newBuf : ℕ → UInt8) {newSize n : ℕ} (hpos : 0 < newSize)
    (hold : f.rnSize ≤ newSize) (hn : n ≤ newSize) (hn' : n < 2 ^ 63) (hlt : newSize < 2 ^ 64) :
    FileInv ((f.replaceBuf newBuf newSize).1.setSize n) ∧
      (∀ c ∈ (f.replaceBuf newBuf newSize).2, c.Inside) ∧
      ((f.replaceBuf newBuf newSize).1.setSize n).rnBufsize = newSize ∧
      ∀ i, ((f.replaceBuf newBuf newSize).1.setSize n).bytes i =
        if i < f.rnSize then f.bytes i else newBuf i := by
  unfold RamFile.replaceBuf
  by_cases h0 : f.rnSize ≠ 0
  · rw [if_pos h0]
    refine ⟨⟨?_, ?_, ?_, hlt, ?_⟩, ?_, rfl, fun i => ?_⟩
    · simp only [RamFile.setSize, toU64_nat (show n < 2 ^ 64 by omega)]
    · simpa only [RamFile.setSize, toU64_nat (show n < 2 ^ 64 by omega)] using hn
    · simpa only [RamFile.setSize, toU64_nat (show n < 2 ^ 64 by omega)] using hn'
    · simpa only [RamFile.setSize, Option.isSome_some, true_iff] using hpos
    · intro c hc
      rw [List.mem_singleton.mp hc, Copy.Inside, h.toU64_vSize]
      simpa using hold
    · simp only [RamFile.bytes, RamFile.setSize, Option.getD_some, h.toU64_vSize]
  · rw [if_neg h0]
    have hz : f.rnSize = 0 := by simpa using h0
    refine ⟨⟨?_, ?_, ?_, hlt, ?_⟩, by simp, rfl, fun i => ?_⟩
    · simp only [RamFile.setSize, toU64_nat (show n < 2 ^ 64 by omega)]
    · simpa only [RamFile.setSize, toU64_nat (show n < 2 ^ 64 by omega)] using hn
    · simpa only [RamFile.setSize, toU64_nat (show n < 2 ^ 64 by omega)] using hn'
    · simpa only [RamFile.setSize, Option.isSome_some, true_iff] using hpos
    · rw [if_neg (by omega)]
      rfl

/-- The size is set, within the buffer. -/
theorem setSize (h : FileInv f) {n : ℕ} (hn : n ≤ f.rnBufsize) (hn' : n < 2 ^ 63) :
    FileInv (f.setSize n) := by
  refine ⟨?_, ?_, ?_, h.buf_lt, h.buf⟩
  · simp only [RamFile.setSize, toU64_nat (show n < 2 ^ 64 by omega)]
  · simpa only [RamFile.setSize, toU64_nat (show n < 2 ^ 64 by omega)] using hn
  · simpa only [RamFile.setSize, toU64_nat (show n < 2 ^ 64 by omega)] using hn'

/-- **What `ramfs_truncate` does.** Up to the old size the bytes stay; beyond it they are what
the old or the new buffer has there. -/
theorem truncate_spec (h : FileInv f) {n : ℕ} (hn : n < 2 ^ 63) {a : Answer}
    (hr : f.truncate n a = .ok (f', cs)) :
    FileInv f' ∧ f'.rnSize = n ∧ (∀ c ∈ cs, c.Inside) ∧ ∀ i < n, f'.bytes i =
      if i < f.rnSize ∨ n ≤ f.rnBufsize then f.bytes i else a.fill i := by
  have hu : toU64 n = n := toU64_nat (by omega)
  have hsz : ∀ g : RamFile, (g.setSize n).rnSize = n := fun g => hu
  unfold RamFile.truncate at hr
  by_cases h0 : (n : ℤ) = 0
  · rw [if_pos h0] at hr
    obtain ⟨rfl, rfl⟩ := Res.ok_pair hr
    have hn0 : n = 0 := by exact_mod_cast h0
    have hI : FileInv (if f.rnBuf.isSome = true then { f with rnBuf := none, rnBufsize := 0 } else f) ∨
        f.rnBuf.isSome = true := by
      by_cases hb : f.rnBuf.isSome = true
      · exact Or.inr hb
      · rw [if_neg hb]
        exact Or.inl h
    refine ⟨?_, hsz _, by simp, fun i hi => by omega⟩
    rcases hI with hI | hb
    · exact hI.setSize (by omega) hn
    · rw [if_pos hb, hn0]
      exact FileInv.empty
  rw [if_neg h0, hu] at hr
  by_cases h1 : f.rnBufsize < n
  · -- the buffer is replaced, and not cleared
    rw [if_pos h1] at hr
    cases hm : a.kmalloc with
    | none =>
      rw [hm] at hr
      cases hr
    | some newBuf =>
      rw [hm] at hr
      simp only [Except.ok.injEq, Prod.mk.injEq] at hr
      obtain ⟨rfl, rfl⟩ := hr
      have hfill : newBuf = a.fill := by
        unfold Answer.kmalloc at hm
        split at hm
        · simpa using hm.symm
        · cases hm
      have hup := partitionUp_spec (a := n) (by omega)
      have hnew : add64 (partitionUp n) (2 * 0x200000) = partitionUp n + 0x400000 :=
        add64_eq (by omega)
      have hle := h.le
      rw [hnew]
      obtain ⟨hI, hcs, -, hb⟩ := h.replaceBuf newBuf (show 0 < partitionUp n + 0x400000 by omega)
        (by omega) (show n ≤ _ by omega) hn (by omega)
      refine ⟨hI, hsz _, hcs, fun i hi => ?_⟩
      rw [hb i, hfill]
      by_cases hi' : i < f.rnSize
      · rw [if_pos hi', if_pos (Or.inl hi')]
      · rw [if_neg hi', if_neg (by omega)]
  · rw [if_neg h1] at hr
    obtain ⟨rfl, rfl⟩ := Res.ok_pair hr
    refine ⟨h.setSize (by omega) hn, hsz _, by simp, fun i hi => ?_⟩
    rw [if_pos (Or.inr (by omega))]
    rfl

theorem uiomove (h : FileInv f) {p : ℕ} {data : List UInt8} (hlen : data.length < 2 ^ 31)
    (hpos : 0 < data.length) (hp : p + data.length ≤ f.rnSize) :
    FileInv (f.uiomove p data).1 ∧ (f.uiomove p data).2.Inside ∧
      (f.uiomove p data).1.rnSize = f.rnSize ∧ ∀ i, (f.uiomove p data).1.bytes i =
        if p ≤ i ∧ i < p + data.length then data.getD (i - p) 0 else f.bytes i := by
  have hle := h.le
  have hlt := h.size_lt
  have hu : toU64 p = p := toU64_nat (by omega)
  obtain ⟨buf, hbuf⟩ := Option.isSome_iff_exists.mp (h.buf.mpr (by omega))
  refine ⟨⟨h.size, h.le, h.size_lt, h.buf_lt, ?_⟩, ?_, rfl, fun i => ?_⟩
  · simp only [RamFile.uiomove, Option.isSome_map]
    exact h.buf
  · simp only [RamFile.uiomove, Copy.Inside, hu, RamFile.uiomoveCount_eq hlen, hbuf, Option.isSome_some,
      if_true]
    omega
  · simp only [RamFile.bytes, RamFile.uiomove, hu, RamFile.uiomoveCount_eq hlen, hbuf, Option.map_some,
      Option.getD_some]

/-- The expansion of a write that ends beyond the file. A new buffer is blank. -/
theorem expand (h : FileInv f) {n : ℕ} (hn : n < 2 ^ 63) (hlt : f.rnSize < n) {a : Answer}
    (hr : f.expand n a = .ok (f', cs)) :
    FileInv f' ∧ f'.rnSize = n ∧ (∀ c ∈ cs, c.Inside) ∧ ∀ i, f'.bytes i =
      if i < f.rnSize ∨ (n : ℤ) ≤ toOff f.rnBufsize then f.bytes i else 0 := by
  have hu : toU64 n = n := toU64_nat (by omega)
  have hsz : ∀ g : RamFile, (g.setSize n).rnSize = n := fun g => hu
  unfold RamFile.expand at hr
  by_cases h1 : toOff f.rnBufsize < n
  · rw [if_pos h1] at hr
    cases hm : a.calloc with
    | none =>
      rw [hm] at hr
      cases hr
    | some newBuf =>
      rw [hm, hu] at hr
      simp only [Except.ok.injEq, Prod.mk.injEq] at hr
      have hzero : newBuf = fun _ => 0 := by
        unfold Answer.calloc at hm
        split at hm
        · simpa using hm.symm
        · cases hm
      have hpart := partitionUp_spec (a := n) (by omega)
      have hpage := pageUp_spec (a := n) (by omega)
      have hadd : add64 (partitionUp n) (100 * 0x200000) = partitionUp n + 0xc800000 :=
        add64_eq (by omega)
      obtain ⟨newSize, hnew, hge, hlt'⟩ : ∃ m, (if f.rnBufsize ≠ 0 then
          add64 (partitionUp n) (100 * 0x200000) else pageUp n) = m ∧ n ≤ m ∧ m < 2 ^ 64 := by
        refine ⟨_, rfl, ?_, ?_⟩ <;> split <;> omega
      rw [hnew] at hr
      obtain ⟨rfl, rfl⟩ := hr
      obtain ⟨hI, hcs, -, hb⟩ := h.replaceBuf newBuf (show 0 < newSize by omega) (by omega) hge hn hlt'
      refine ⟨hI, hsz _, hcs, fun i => ?_⟩
      rw [hb i, hzero]
      by_cases hi : i < f.rnSize
      · rw [if_pos hi, if_pos (Or.inl hi)]
      · rw [if_neg hi, if_neg (by omega)]
  · rw [if_neg h1] at hr
    obtain ⟨rfl, rfl⟩ := Res.ok_pair hr
    -- a buffer that is large enough as an `off_t` is large enough
    have hbuf := h.buf_lt
    refine ⟨h.setSize (by unfold toOff at h1; omega) hn, hsz _, by simp, fun i => ?_⟩
    rw [if_pos (Or.inr (by omega))]
    rfl

/-- **What `ramfs_write` does.** The data is written, and the file extended to its end; a gap
before it shows what the old buffer has there, or is blank if there is a new one. -/
theorem write_spec (h : FileInv f) {offset : ℤ} {data : List UInt8} {append : Bool} {a : Answer}
    (hfit : f.writeOffset offset append + data.length < 2 ^ 63) (hlen : data.length < 2 ^ 31)
    (hdata : data ≠ []) (hr : f.write offset data append a = .ok (f', cs)) :
    ∃ p : ℕ, f.writeOffset offset append = p ∧ FileInv f' ∧
      f'.rnSize = max f.rnSize (p + data.length) ∧ (∀ c ∈ cs, c.Inside) ∧ ∀ i, f'.bytes i =
        if p ≤ i ∧ i < p + data.length then data.getD (i - p) 0
        else if i < f.rnSize ∨ ((p + data.length : ℕ) : ℤ) ≤ toOff f.rnBufsize ∨
          p + data.length ≤ f.rnSize then f.bytes i
        else 0 := by
  have hsz := h.size_lt
  have hpos : 0 < data.length := List.length_pos_iff.mpr hdata
  unfold RamFile.write at hr
  by_cases h0 : offset < 0
  · rw [if_pos h0] at hr
    cases hr
  rw [if_neg h0] at hr
  by_cases h1 : 2 ^ 63 - 1 ≤ offset
  · rw [if_pos h1] at hr
    cases hr
  rw [if_neg h1, if_neg hdata] at hr
  obtain ⟨p, hp⟩ : ∃ p : ℕ, f.writeOffset offset append = p := by
    have hnn : 0 ≤ f.writeOffset offset append := by
      unfold RamFile.writeOffset
      split
      · rw [toOff_eq (by omega) (by omega)]
        omega
      · omega
    exact ⟨_, (Int.toNat_of_nonneg hnn).symm⟩
  refine ⟨p, hp, ?_⟩
  simp only [hp] at hr hfit
  have hu : toU64 p = p := toU64_nat (by omega)
  have hend : toOff (p + data.length) = ((p + data.length : ℕ) : ℤ) := by
    rw [toOff_eq (by omega) (by omega)]
    push_cast
    rfl
  rw [hu, hend, h.toU64_vSize, add64_eq (by omega)] at hr
  by_cases h2 : f.rnSize < p + data.length
  · rw [if_pos h2] at hr
    cases hx : f.expand ((p + data.length : ℕ) : ℤ) a with
    | error e =>
      rw [hx] at hr
      cases hr
    | ok x =>
      obtain ⟨f1, cs1⟩ := x
      rw [hx] at hr
      simp only [Except.ok.injEq, Prod.mk.injEq] at hr
      obtain ⟨rfl, rfl⟩ := hr
      obtain ⟨hI, hsize, hcs, hb⟩ := h.expand (by omega) h2 hx
      obtain ⟨hI', hc, hsize', hb'⟩ := hI.uiomove (p := p) hlen hpos (by omega)
      refine ⟨hI', by rw [hsize', hsize]; omega, fun c hc' => ?_, fun i => ?_⟩
      · rcases List.mem_append.mp hc' with hm | hm
        · exact hcs c hm
        · rw [List.mem_singleton.mp hm]
          exact hc
      · rw [hb' i, hb i]
        have hnot : ¬ p + data.length ≤ f.rnSize := by omega
        simp only [hnot, or_false]
  · rw [if_neg h2] at hr
    obtain ⟨rfl, rfl⟩ := Res.ok_pair hr
    obtain ⟨hI', hc, hsize', hb'⟩ := h.uiomove hlen hpos (show p + data.length ≤ f.rnSize by omega)
    refine ⟨hI', by rw [hsize']; omega, fun c hc' => ?_, fun i => ?_⟩
    · rw [List.mem_singleton.mp hc']
      exact hc
    · rw [hb' i]
      have hin : p + data.length ≤ f.rnSize := by omega
      simp only [hin, or_true, if_true]

/-- **What `ramfs_read` returns.** -/
theorem read_spec (h : FileInv f) {off n : ℕ} (hn : n < 2 ^ 31) (hoff : off < 2 ^ 63) :
    f.read off n = .ok (File.read f.contents off n) := by
  have hlt := h.size_lt
  have hu : toU64 off = off := toU64_nat (by omega)
  have hnil : n = 0 ∨ f.rnSize ≤ off → File.read f.contents off n = [] := by
    intro hc
    refine List.ext_getElem? fun i => ?_
    rw [File.getElem?_read, RamFile.getElem?_contents, List.getElem?_nil]
    split
    · rw [if_neg (by omega)]
    · rfl
  unfold RamFile.read
  rw [if_neg (by omega), h.size]
  by_cases h0 : n = 0
  · rw [if_pos h0, hnil (Or.inl h0)]
  rw [if_neg h0]
  by_cases h1 : (f.rnSize : ℤ) ≤ off
  · rw [if_pos h1, hnil (Or.inr (by omega))]
  rw [if_neg h1]
  have hmin : (if (f.rnSize : ℤ) - off < n then ((f.rnSize : ℤ) - off).toNat else n) =
      min (f.rnSize - off) n := by
    split <;> omega
  simp only [hmin, RamFile.uiomoveCount_eq (show min (f.rnSize - off) n < 2 ^ 31 by omega), hu,
    Except.ok.injEq]
  refine List.ext_getElem? fun i => ?_
  rw [File.getElem?_read, RamFile.getElem?_contents, List.getElem?_map]
  by_cases hi : i < min (f.rnSize - off) n
  · rw [List.getElem?_range hi, if_pos (by omega), if_pos (by omega), Option.map_some]
  · rw [List.getElem?_eq_none (by rw [List.length_range]; omega)]
    split
    · rw [if_neg (by omega)]
      rfl
    · rfl

end FileInv

end Coffer
