/-
# The ELF loader

`elf/elf_loader.c` over the physical memory that holds the image. The headers
are read where they lie, again in every round, and the zero fill goes through
the addresses it is meant for: each byte is written where the page table puts
it at that moment.
-/
import Coffer.Access
import Coffer.Partition

namespace Coffer

open Lib

/-! ### Headers -/

/-- `Elf64_Phdr`, less `p_paddr` and `p_align`. -/
structure Phdr where
  pType : ℕ
  pFlags : ℕ
  pOffset : ℕ
  pVaddr : ℕ
  pFilesz : ℕ
  pMemsz : ℕ
deriving DecidableEq, Repr

/-- The program header at `a`. -/
def readPhdr (m : Mem) (a : ℕ) : Phdr :=
  ⟨m.load a 4, m.load (a + 4) 4, m.load (a + 8) 8, m.load (a + 16) 8, m.load (a + 32) 8,
    m.load (a + 40) 8⟩

/-- `e_phoff`, `e_phnum`, `e_entry` of the `Elf64_Ehdr` at `a`. -/
def ePhoff (m : Mem) (a : ℕ) : ℕ := m.load (a + 32) 8
@[inherit_doc ePhoff] def ePhnum (m : Mem) (a : ℕ) : ℕ := m.load (a + 56) 2
@[inherit_doc ePhoff] def eEntry (m : Mem) (a : ℕ) : ℕ := m.load (a + 24) 8

/-- The product of two `u16` as an `int`, converted to `u64`. -/
def mulInt (a b : ℕ) : ℕ :=
  let p := a * b % 2 ^ 32
  if p < 2 ^ 31 then p else p + (2 ^ 64 - 2 ^ 32)

def elfCheck (m : Mem) (ehdr elfSize : ℕ) : Res Unit :=
  let phdrEnd := add64 (ePhoff m ehdr) (mulInt (m.load (ehdr + 54) 2) (ePhnum m ehdr))
  let shoff := m.load (ehdr + 40) 8
  let shdrEnd := add64 shoff (mulInt (m.load (ehdr + 58) 2) (m.load (ehdr + 60) 2))
  if m ehdr ≠ 0x7f ∨ m (ehdr + 1) ≠ 0x45 ∨ m (ehdr + 2) ≠ 0x4c ∨ m (ehdr + 3) ≠ 0x46 then
    .error (.panic "Invalid ELF!\n")
  else if m (ehdr + 4) ≠ 2 then .error (.panic "Not 64-bit ELF\n")
  else if m.load (ehdr + 16) 2 ≠ 2 then .error (.panic "Not executable file!\n")
  else if m.load (ehdr + 18) 2 ≠ 243 then .error (.panic "Invalid machine platform\n")
  else if elfSize < phdrEnd ∨ phdrEnd < ePhoff m ehdr then .error (.panic "Program header error\n")
  else if elfSize < shdrEnd ∨ shdrEnd < shoff then .error (.panic "Section header error\n")
  else .ok ()

/-- `pte_flag_from_Elf64_word`: `PF_X` is bit 0, `PF_W` bit 1, `PF_R` bit 2. -/
def pteFlag (word : ℕ) : ℕ :=
  pteV + pteU + (if word.testBit 2 then pteR else 0) + (if word.testBit 1 then pteW else 0) +
    (if word.testBit 0 then pteX else 0)

namespace Phdr

def startVaddr (ph : Phdr) : ℕ := pageDown ph.pVaddr

def endVaddr (ph : Phdr) : ℕ := pageUp (add64 ph.pVaddr ph.pFilesz)

/-- `start_paddr`, for the image at `elfPaddr`. -/
def startPaddr (ph : Phdr) (elfPaddr : ℕ) : ℕ := pageDown (add64 elfPaddr ph.pOffset)

/-- `number_of_pages` of the file. -/
def filePages (ph : Phdr) : ℕ := sub64 ph.endVaddr ph.startVaddr / 0x1000

def sizeDiff (ph : Phdr) : ℕ := sub64 (pageUp ph.pMemsz) (pageUp ph.pFilesz)

def gap (ph : Phdr) : ℕ := sub64 (partitionUp ph.endVaddr) ph.endVaddr

/-- The flags of the segment's pages. -/
def flags (ph : Phdr) : ℕ := pteFlag ph.pFlags

end Phdr

/-! ### Loading -/

namespace Sys

/-- The pages after the file's, from the pool. -/
def mapPoolTail (s : Sys) (ph : Phdr) : Res Sys := do
  let numberOfPages := ph.sizeDiff / 0x1000
  let (extraPagePaddr, s) ← s.allocUmodePage numberOfPages
  s.mapRange ph.endVaddr extraPagePaddr ph.flags .page numberOfPages

/-- The pages up to the next partition boundary, from a partition of their own. -/
def mapGap (s : Sys) (ph : Phdr) (rs : List SmReply) : Res (Sys × List SmReply) :=
  if ph.gap = 0 then .ok (s, rs)
  else
    match rs with
    | [] => .error .noReply
    | r :: rs => do
      let s ← s.mapRange ph.endVaddr (add64 r.paddr (ph.endVaddr % 0x200000)) ph.flags .page
        (ph.gap / 0x1000)
      .ok (s, rs)

/-- The partitions of a large segment. -/
def mapPartitions (s : Sys) (ph : Phdr) (rs : List SmReply) : Res (Sys × List SmReply) := do
  let (evs, rest) := elfPartitions (partitionUp ph.endVaddr) ph.sizeDiff rs
  let s ← s.execCalls ph.flags evs
  match rest with
  | none => .error .noReply
  | some rest => .ok (s, rest)

theorem mapPartitions_ok {s s' : Sys} {ph : Phdr} {rs rs' : List SmReply}
    (h : s.mapPartitions ph rs = .ok (s', rs')) :
    s.execCalls ph.flags (elfPartitions (partitionUp ph.endVaddr) ph.sizeDiff rs).1 = .ok s' ∧
      (elfPartitions (partitionUp ph.endVaddr) ph.sizeDiff rs).2 = some rs' := by
  unfold mapPartitions at h
  generalize elfPartitions (partitionUp ph.endVaddr) ph.sizeDiff rs = p at h ⊢
  obtain ⟨evs, rest⟩ := p
  obtain ⟨s1, h1, h2⟩ := Res.bind_ok h
  cases rest with
  | none => cases h2
  | some rest =>
    cases h2
    exact ⟨h1, rfl⟩

/-- The memory a segment has beyond its file. -/
def mapTail (s : Sys) (ph : Phdr) (rs : List SmReply) : Res (Sys × List SmReply) :=
  if ph.sizeDiff < 0x200000 then do
    let s ← s.mapPoolTail ph
    .ok (s, rs)
  else do
    let (s, rs) ← s.mapGap ph rs
    s.mapPartitions ph rs

/-- One round of `map_elf`, for a `PT_LOAD` header. -/
def mapSegment (s : Sys) (elfPaddr : ℕ) (ph : Phdr) (rs : List SmReply) :
    Res (Sys × List SmReply) := do
  let s ← s.mapRange ph.startVaddr (ph.startPaddr elfPaddr) ph.flags .page ph.filePages
  if ph.pFilesz < ph.pMemsz then do
    let (s, rs) ← s.mapTail ph rs
    let s ← s.memset (add64 ph.pVaddr ph.pFilesz) 0 (sub64 ph.pMemsz ph.pFilesz)
    .ok (s, rs)
  else .ok (s, rs)

/-- `phdr[i]`; `phdr` is where the table was when `map_elf` began. -/
def phdrAt (s : Sys) (phdr i : ℕ) : Phdr := readPhdr s.mem (phdr + 56 * i)

/-- One round of `map_elf`; `PT_LOAD` is 1. -/
def mapHeader (s : Sys) (elfPaddr phdr i : ℕ) (rs : List SmReply) : Res (Sys × List SmReply) :=
  if (s.phdrAt phdr i).pType ≠ 1 then .ok (s, rs)
  else s.mapSegment elfPaddr (s.phdrAt phdr i) rs

/-- The loop of `map_elf` from header `i`. `e_phnum` is read in every round; it is
a `u16`, so `headerRounds` are enough for any image. -/
def mapElfLoop (s : Sys) (elfPaddr phdr : ℕ) (rs : List SmReply) : ℕ → ℕ → Res (Sys × List SmReply)
  | 0, _ => .ok (s, rs)
  | fuel + 1, i =>
    if i < ePhnum s.mem elfPaddr then do
      let (s, rs) ← s.mapHeader elfPaddr phdr i rs
      s.mapElfLoop elfPaddr phdr rs fuel (i + 1)
    else .ok (s, rs)

/-- More rounds than any image has headers. -/
def headerRounds : ℕ := 2 ^ 16

def mapElf (s : Sys) (elfPaddr : ℕ) (rs : List SmReply) : Res (Sys × List SmReply) :=
  s.mapElfLoop elfPaddr (elfPaddr + ePhoff s.mem elfPaddr) rs headerRounds 0

/-- `load_elf`: the entry point and the state. -/
def loadElf (s : Sys) (elfPaddr elfSize : ℕ) (rs : List SmReply) :
    Res (ℕ × Sys × List SmReply) := do
  elfCheck s.mem elfPaddr elfSize
  let (s, rs) ← s.mapElf elfPaddr rs
  .ok (eEntry s.mem elfPaddr, s, rs)

/-- The state with `img` in physical memory at `a`. -/
def withImage (s : Sys) (a : ℕ) (img : List UInt8) : Sys :=
  { s with mem := fun x => if a ≤ x ∧ x < a + img.length then img.getD (x - a) 0 else s.mem x }

end Sys

/-! ### Small images -/

/-- `n` bytes of `v`, little end first. -/
def leBytes (v : ℕ) : ℕ → List UInt8
  | 0 => []
  | n + 1 => UInt8.ofNat v :: leBytes (v / 256) n

/-- A program header as it lies in an image. -/
def Phdr.bytes (ph : Phdr) : List UInt8 :=
  leBytes ph.pType 4 ++ leBytes ph.pFlags 4 ++ leBytes ph.pOffset 8 ++ leBytes ph.pVaddr 8 ++
    leBytes 0 8 ++ leBytes ph.pFilesz 8 ++ leBytes ph.pMemsz 8 ++ leBytes 0x1000 8

/-- An image of an ELF header and program headers. -/
def headerImage (phs : List Phdr) : List UInt8 :=
  [0x7f, 0x45, 0x4c, 0x46, 2] ++ leBytes 0 11 ++ leBytes 2 2 ++ leBytes 243 2 ++ leBytes 1 4 ++
    leBytes 0 8 ++ leBytes 64 8 ++ leBytes 0 8 ++ leBytes 0 4 ++ leBytes 64 2 ++ leBytes 56 2 ++
    leBytes phs.length 2 ++ leBytes 0 6 ++ phs.flatMap Phdr.bytes

end Coffer
