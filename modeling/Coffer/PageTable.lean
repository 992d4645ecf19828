/-
# The Sv39 page table of the manager

`memory/page_table.c` over the byte memory: entries are the eight-byte words of
a table, read and written through the bit-fields of `pte_t`. `getLeafPte` is
the walker for writes (bit-fields, tables allocated on demand from the S-mode
pool), `walkPageTable` the walker for reads (masks and shifts). A table is
reached at its physical address: before `satp` is set pointers are physical, and
after it the linear map translates `pa + linear_map_offset` back to `pa`.

`tables` is the same memory seen as a family of tables (`Lib.Radix`), and `leaf`
the translation it gives; the mask-and-shift walker computes `leaf`
(`walkPageTable_eq`).
-/
import Coffer.Lib.Radix
import Coffer.PagePool

namespace Coffer

open Lib

/-! ### Entries and addresses -/

/-- `pte_t`. -/
structure Pte where
  v : Bool
  r : Bool
  w : Bool
  x : Bool
  u : Bool
  g : Bool
  a : Bool
  d : Bool
  rsw0 : BitVec 2
  ppn : BitVec 44
  rsw1 : BitVec 10
deriving DecidableEq, Repr

namespace Pte

/-- The bit-fields of a word. -/
def ofNat (n : ℕ) : Pte :=
  ⟨n % 2 = 1, n / 2 % 2 = 1, n / 4 % 2 = 1, n / 8 % 2 = 1, n / 16 % 2 = 1, n / 32 % 2 = 1,
    n / 64 % 2 = 1, n / 128 % 2 = 1, BitVec.ofNat 2 (n / 2 ^ 8), BitVec.ofNat 44 (n / 2 ^ 10),
    BitVec.ofNat 10 (n / 2 ^ 54)⟩

/-- The word of the bit-fields. -/
def toNat (p : Pte) : ℕ :=
  p.v.toNat + 2 * p.r.toNat + 4 * p.w.toNat + 8 * p.x.toNat + 16 * p.u.toNat + 32 * p.g.toNat +
    64 * p.a.toNat + 128 * p.d.toNat + 2 ^ 8 * p.rsw0.toNat + 2 ^ 10 * p.ppn.toNat +
    2 ^ 54 * p.rsw1.toNat

/-- The zero word. -/
def zero : Pte := ⟨false, false, false, false, false, false, false, false, 0, 0, 0⟩

/-- What `get_leaf_pte` makes of a zero word: a pointer to the table at `ppn`. -/
def pointer (ppn : BitVec 44) : Pte := { zero with ppn := ppn, v := true }

/-- `r | w | x`. -/
def isLeaf (p : Pte) : Bool := p.r || p.w || p.x

/-- The writes of `map_page`: the bits of `flags` are set and never cleared. -/
def map (p : Pte) (flags pa : ℕ) : Pte :=
  { p with
    r := p.r || flags.testBit 1
    w := p.w || flags.testBit 2
    x := p.x || flags.testBit 3
    u := p.u || flags.testBit 4
    g := p.g || flags.testBit 5
    v := true
    a := true
    d := true
    ppn := BitVec.ofNat 44 (pa / 0x1000) }

theorem ofNat_zero : ofNat 0 = zero := by decide

theorem zero_toNat : zero.toNat = 0 := by decide

theorem toNat_lt (p : Pte) : p.toNat < 2 ^ 64 := by
  have h1 := p.rsw0.isLt
  have h2 := p.ppn.isLt
  have h3 := p.rsw1.isLt
  have := p.v.toNat_le
  have := p.r.toNat_le
  have := p.w.toNat_le
  have := p.x.toNat_le
  have := p.u.toNat_le
  have := p.g.toNat_le
  have := p.a.toNat_le
  have := p.d.toNat_le
  unfold toNat
  omega

theorem ofNat_toNat (p : Pte) : ofNat p.toNat = p := by
  have h1 := p.rsw0.isLt
  have h2 := p.ppn.isLt
  have h3 := p.rsw1.isLt
  have hb : ∀ b : Bool, b.toNat ≤ 1 := Bool.toNat_le
  have := hb p.v
  have := hb p.r
  have := hb p.w
  have := hb p.x
  have := hb p.u
  have := hb p.g
  have := hb p.a
  have := hb p.d
  have bit : ∀ (b : Bool) (n : ℕ), n = b.toNat → (decide (n = 1)) = b := by
    rintro b n rfl
    cases b <;> rfl
  have e0 : p.toNat % 2 = p.v.toNat := by unfold toNat; omega
  have e1 : p.toNat / 2 % 2 = p.r.toNat := by unfold toNat; omega
  have e2 : p.toNat / 4 % 2 = p.w.toNat := by unfold toNat; omega
  have e3 : p.toNat / 8 % 2 = p.x.toNat := by unfold toNat; omega
  have e4 : p.toNat / 16 % 2 = p.u.toNat := by unfold toNat; omega
  have e5 : p.toNat / 32 % 2 = p.g.toNat := by unfold toNat; omega
  have e6 : p.toNat / 64 % 2 = p.a.toNat := by unfold toNat; omega
  have e7 : p.toNat / 128 % 2 = p.d.toNat := by unfold toNat; omega
  have e8 : BitVec.ofNat 2 (p.toNat / 2 ^ 8) = p.rsw0 := by
    apply BitVec.eq_of_toNat_eq
    rw [BitVec.toNat_ofNat]
    unfold toNat
    omega
  have e9 : BitVec.ofNat 44 (p.toNat / 2 ^ 10) = p.ppn := by
    apply BitVec.eq_of_toNat_eq
    rw [BitVec.toNat_ofNat]
    unfold toNat
    omega
  have e10 : BitVec.ofNat 10 (p.toNat / 2 ^ 54) = p.rsw1 := by
    apply BitVec.eq_of_toNat_eq
    rw [BitVec.toNat_ofNat]
    unfold toNat
    omega
  unfold ofNat
  rw [bit _ _ e0, bit _ _ e1, bit _ _ e2, bit _ _ e3, bit _ _ e4, bit _ _ e5, bit _ _ e6,
    bit _ _ e7, e8, e9, e10]

end Pte

/-- `PTE_V`, `PTE_R`, `PTE_W`, `PTE_X`, `PTE_U`: the bits of `flags`. -/
def pteV : ℕ := 0x1
@[inherit_doc pteV] def pteR : ℕ := 0x2
@[inherit_doc pteV] def pteW : ℕ := 0x4
@[inherit_doc pteV] def pteX : ℕ := 0x8
@[inherit_doc pteV] def pteU : ℕ := 0x10

/-- `SV39_LEVEL_GIGA`, `SV39_LEVEL_MEGA`, `SV39_LEVEL_PAGE`: how many tables lie
above the entry. -/
inductive Level
  | giga
  | mega
  | page
deriving DecidableEq, Repr

namespace Level

/-- The source's number of a level. -/
def toNat : Level → ℕ
  | giga => 0
  | mega => 1
  | page => 2

/-- The size of a page at this level. -/
def size : Level → ℕ
  | giga => 0x40000000
  | mega => 0x200000
  | page => 0x1000

end Level

/-- A table has entries. -/
instance tableNeZero : NeZero 512 := ⟨by decide⟩

/-- `get_vpn` on the bit-fields of an address. -/
def getVpn (va i : ℕ) : Fin 512 := Fin.ofNat 512 (va / 2 ^ (12 + 9 * i))

/-- The `vpn`s that the loop of `get_leaf_pte` goes through, `i` from 2 while
`i > 2 - level`. -/
def upperVpns (va : ℕ) : Level → List (Fin 512)
  | .giga => []
  | .mega => [getVpn va 2]
  | .page => [getVpn va 2, getVpn va 1]

/-- `get_vpn(va, 2 - level)`. -/
def lastVpn (va : ℕ) (level : Level) : Fin 512 := getVpn va (2 - level.toNat)

/-- `layer_offset` of `walk_page_table`: the same indices by mask and shift. -/
def layerOffset (va : ℕ) : List ℕ :=
  [(va &&& 0x7fc0000000) >>> 30, (va &&& 0x3fe00000) >>> 21, (va &&& 0x1ff000) >>> 12]

namespace Sys

/-! ### `page_table.c` -/

/-- `*(pte_t *)addr`. -/
def readPte (s : Sys) (addr : ℕ) : Pte := .ofNat (s.mem.load addr 8)

/-- `*(pte_t *)addr = pte`. -/
def writePte (s : Sys) (addr : ℕ) (pte : Pte) : Sys :=
  { s with mem := s.mem.store addr 8 pte.toNat }

/-- One round of the loop of `get_leaf_pte`: the next table, allocated if the
entry is invalid and `alloc` says so. -/
def nextTable (s : Sys) (table : ℕ) (vpn : Fin 512) (alloc : Bool) : Res (ℕ × Sys) :=
  let addr := table + 8 * vpn
  if (s.readPte addr).v = false then
    if alloc = false then .error (.panic "Page not mapped!\n")
    else do
      let (nextTablePa, s) ← s.allocSmodePage 1
      let pte := { s.readPte addr with ppn := BitVec.ofNat 44 (nextTablePa / 0x1000), v := true }
      .ok (nextTablePa, s.writePte addr pte)
  else .ok (0x1000 * (s.readPte addr).ppn.toNat, s)

/-- The loop of `get_leaf_pte`. -/
def descendTables (s : Sys) (table : ℕ) (alloc : Bool) : List (Fin 512) → Res (ℕ × Sys)
  | [] => .ok (table, s)
  | vpn :: vpns => do
    let (table, s) ← s.nextTable table vpn alloc
    s.descendTables table alloc vpns

/-- `get_leaf_pte`: the address of the entry of `va` at `level`. -/
def getLeafPte (s : Sys) (va : ℕ) (level : Level) (alloc : Bool) : Res (ℕ × Sys) := do
  let (table, s) ← s.descendTables s.tableRoot alloc (upperVpns va level)
  let addr := table + 8 * lastVpn va level
  if (s.readPte addr).v = false ∧ alloc = false then .error (.panic "Page not mapped!\n")
  else .ok (addr, s)

def mapPage (s : Sys) (va pa flags : ℕ) (level : Level) : Res Sys := do
  let (addr, s) ← s.getLeafPte va level true
  .ok (s.writePte addr ((s.readPte addr).map flags pa))

/-- `for (i = 0; i < n; i++) map_page(va + i * SIZE, pa + i * SIZE, flags, level)`. -/
def mapRange (s : Sys) (va pa flags : ℕ) (level : Level) : ℕ → Res Sys
  | 0 => .ok s
  | i + 1 => do
    let s ← s.mapRange va pa flags level i
    s.mapPage (add64 va (level.size * i)) (add64 pa (level.size * i)) flags level

def unmapPage (s : Sys) (va : ℕ) (level : Level) : Res Sys := do
  let (addr, s) ← s.getLeafPte va level false
  .ok { s with mem := s.mem.store addr 8 0 }

/-- The loop of `walk_page_table`: what it prints, and the level and entry it
returns (`level` is `(u8)-1` for none). -/
def walkLoop (s : Sys) (root : ℕ) : List ℕ → ℕ → List String × Option (ℕ × Pte)
  | [], _ => ([], none)
  | offset :: offsets, i =>
    let entry := s.readPte (root + 8 * offset)
    if entry.v = false then (["not valid\n"], none)
    else if entry.isLeaf then ([], some (i, entry))
    else s.walkLoop (0x1000 * entry.ppn.toNat) offsets (i + 1)

def walkPageTable (s : Sys) (va : ℕ) : List String × Option (ℕ × Pte) :=
  s.walkLoop s.tableRoot (layerOffset va) 0

/-- `get_pa`: what it prints and returns. The shift of the 44-bit field `ppn` is
itself 44 bits wide. -/
def getPa (s : Sys) (va : ℕ) : List String × ℕ :=
  match s.walkPageTable va with
  | (out, none) => (out ++ [notValid va], 0)
  | (out, some (level, pte)) =>
    let base := 0x1000 * pte.ppn.toNat % 2 ^ 44
    let mask := 2 ^ (12 + (2 - level) * 9) - 1
    (out, add64 base (mask &&& va))
where
  /-- `KRED "VA 0x%lx not valid\n" RESET`. -/
  notValid (va : ℕ) : String :=
    "\x1B[31mVA 0x" ++ String.ofList (Nat.toDigits 16 va) ++ " not valid\n\x1B[0m"

end Sys

end Coffer
