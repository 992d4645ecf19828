/-
# The heap of the S-mode modules

`heap.c`: chunks lie one behind the other from `heap.start` to `heap.end`, each with a header of 32 bytes before
its payload and a footer of 8 bytes behind it that points back to the header. Free chunks (holes) are in one of 44
bins by size. The last chunk is the wilderness; it grows by partitions from the security monitor (`expand`).

The memory is that of the virtual addresses of the heap, apart from the physical memory of `Sys` in which `map_page`
keeps its tables. What new partitions contain is what the memory has there. Pointers and sizes are 64-bit words;
`contract` does nothing, and the dumps are left out.

Key definitions: `getBinIndex`, `searchFitNode`, `expand`, `heapAlloc`, `heapMemalign`, `heapCalloc`, `heapFree`,
`initHeap`.
-/
import Coffer.Heap.Bins
import Coffer.Partition

namespace Coffer

open Lib

/-- The state of the allocator: `heap_t` (`stop` is `heap.end`) with the heads of its bins, the memory of the heap,
the manager, and what the security monitor will answer. -/
structure Heap where
  start : ℕ
  stop : ℕ
  bins : ℕ → ℕ
  mem : Mem
  sys : Sys
  replies : List SmReply

namespace Heap

/-- `sizeof(footer_t) + sizeof(node_t)`. -/
def overhead : ℕ := 40

def binCount : ℕ := 0x2c

def minAllocSz : ℕ := 4

def minWilderness : ℕ := 0x10000

def heapInitSize : ℕ := 0x200000

/-- A walk along a list that never ends does not return. -/
def walked {α : Type} : Option α → Res α
  | some a => .ok a
  | none => .error .noReply

/-! ### Sizes, footers and bins -/

/-- `while (sz >>= 1) index++`, for at most `n` rounds. -/
def shiftCount : ℕ → ℕ → ℕ
  | 0, _ => 0
  | n + 1, sz => if sz / 2 = 0 then 0 else shiftCount n (sz / 2) + 1

/-- `get_bin_index`. A 64-bit word is 0 after 64 shifts. -/
def getBinIndex (sz : ℕ) : ℕ :=
  let index := shiftCount 64 (if sz < 4 then 4 else sz) - 2
  if index > binCount - 1 then binCount - 1 else index

def getFoot (m : Mem) (node : ℕ) : ℕ := add64 (node + 32) (nodeSize m node)

def createFoot (m : Mem) (head : ℕ) : Mem := m.store (getFoot m head) 8 head

def getWilderness (h : Heap) : ℕ := h.mem.load (sub64 h.stop 8) 8

/-- `add_node(heap.bins[index], node)`. -/
def binAdd (h : Heap) (index node : ℕ) : Res Heap := do
  let (head, mem) ← walked (addNode h.mem (h.bins index) node)
  .ok { h with bins := Function.update h.bins index head, mem := mem }

/-- `remove_node(heap.bins[index], node)`. -/
def binRemove (h : Heap) (index node : ℕ) : Res Heap := do
  let (head, mem) ← walked (removeNode h.mem (h.bins index) node)
  .ok { h with bins := Function.update h.bins index head, mem := mem }

def addNodeToBin (h : Heap) (node : ℕ) : Res Heap :=
  if node = 0 ∨ nodeHole h.mem node = 0 ∨ nodeSize h.mem node = 0 then .error (.panic "error adding node\n")
  else h.binAdd (getBinIndex (nodeSize h.mem node)) node

/-! ### Searching -/

/-- The loop of `get_best_fit`. -/
def bestFitLoop (m : Mem) (size : ℕ) : ℕ → ℕ → Option ℕ
  | 0, _ => none
  | n + 1, temp =>
    if temp = 0 then some 0
    else if size ≤ nodeSize m temp then some temp
    else bestFitLoop m size n (nodeNext m temp)

/-- `get_best_fit`; null is 0. -/
def getBestFit (m : Mem) (head size : ℕ) : Option ℕ :=
  if head = 0 then some 0 else bestFitLoop m size maxSteps head

/-- The bins from `index` on, `n` of them: the node that is found, or null, and what is left in `*index_ptr`. -/
def searchLoop (h : Heap) (size : ℕ) : ℕ → ℕ → Option (ℕ × ℕ)
  | 0, _ => some (0, 2 ^ 32 - 1)
  | n + 1, index => do
    let found ← getBestFit h.mem (h.bins index) size
    if found ≠ 0 then some (found, index) else h.searchLoop size n (index + 1)

def searchFitNode (h : Heap) (size : ℕ) : Option (ℕ × ℕ) :=
  h.searchLoop size (binCount - getBinIndex size) (getBinIndex size)

/-! ### Growing -/

/-- The partitions that a loop is granted are mapped. -/
def mapGrants (h : Heap) (loop : List MapEvent × Option (List SmReply)) : Res Heap := do
  let sys ← h.sys.execCalls (pteR + pteW + pteX) loop.1
  match loop.2 with
  | none => .error .noReply
  | some rest => .ok { h with sys := sys, replies := rest }

/-- The second half of `expand`: the wilderness takes in the new addresses. -/
def growWilderness (h : Heap) (sz : ℕ) : Res (ℕ × Heap) := do
  let wild := h.getWilderness
  let h := { h with mem := h.mem.store (getFoot h.mem wild) 8 0 }
  let h ← h.binRemove (getBinIndex (nodeSize h.mem wild)) wild
  let h := { h with mem := setSize h.mem wild (add64 (nodeSize h.mem wild) sz), stop := add64 h.stop sz }
  let h := { h with mem := createFoot h.mem wild }
  let h ← h.binAdd (getBinIndex (nodeSize h.mem wild)) wild
  .ok (1, h)

/-- `nr_part` of `expand`. -/
def nrPart (h : Heap) (sz : ℕ) : ℕ := sub64 (partitionUp (add64 h.stop sz)) (partitionUp h.stop) / 0x200000

def expand (h : Heap) (sz : ℕ) : Res (ℕ × Heap) := do
  let h ← h.mapGrants (partitionLoop id h.replies (h.nrPart sz) (h.nrPart sz) (partitionUp h.stop))
  h.growWilderness sz

def getWildSize (h : Heap) : Res ℕ :=
  if h.getWilderness = 0 then .error (.panic "NULL wild!\n") else .ok (nodeSize h.mem h.getWilderness)

/-- The node for a request of `heap_alloc` and `heap_memalign`: the wilderness is grown if there is none. -/
def findNode (h : Heap) (size : ℕ) : Res (ℕ × ℕ × Heap) := do
  let (found, index) ← walked (h.searchFitNode size)
  if found ≠ 0 then .ok (found, index, h)
  else do
    let wildSize ← h.getWildSize
    let (_, h) ← h.expand (sub64 (add64 size 0x10000) wildSize)
    let (found, index) ← walked (h.searchFitNode size)
    if found = 0 then .error (.panic "cannot alloc\n") else .ok (found, index, h)

/-- What both do about the wilderness in the end. -/
def refillWilderness (h : Heap) : Res Heap :=
  let wild := h.getWilderness
  if wild = 0 then .error (.panic "wild == NULL\n")
  else if nodeSize h.mem wild < minWilderness then do
    let (success, h) ← h.expand (minWilderness - nodeSize h.mem wild)
    if success = 0 then .error (.panic "expand failed\n") else .ok h
  else .ok h

/-! ### `heap_alloc`, `heap_calloc` -/

/-- The end of the node beyond `size` becomes a hole of its own. -/
def splitNode (h : Heap) (found size : ℕ) : Res Heap := do
  let split := add64 (found + 32 + 8) size
  let m := setSize h.mem split (sub64 (sub64 (nodeSize h.mem found) size) overhead)
  let m := setHole m split 1
  let h := { h with mem := createFoot m split }
  let h ← h.binAdd (getBinIndex (nodeSize h.mem split)) split
  .ok { h with mem := createFoot (setSize h.mem found size) found }

def heapAlloc (h : Heap) (size : ℕ) : Res (ℕ × Heap) := do
  let (found, index, h) ← h.findNode size
  let h ← (if sub64 (nodeSize h.mem found) size > overhead + minAllocSz then h.splitNode found size else .ok h)
  let h := { h with mem := setHole h.mem found 0 }
  let h ← h.binRemove index found
  let h ← h.refillWilderness
  .ok (add64 found 32, { h with mem := setNext (setPrev h.mem found 0) found 0 })

def heapCalloc (h : Heap) (number size : ℕ) : Res (ℕ × Heap) := do
  let (ret, h) ← h.heapAlloc (mul64 number size)
  .ok (ret, { h with mem := h.mem.fill ret (mul64 number size) 0 })

/-! ### `heap_memalign` -/

/-- A word as `ssize_t`. -/
def toSsize (x : ℕ) : ℤ := (BitVec.ofNat 64 x).toInt

/-- A piece of the found chunk becomes a hole, if it is large enough. -/
def keepPiece (h : Heap) (node : ℕ) (sz : ℤ) : Res Heap :=
  if sz > minAllocSz then
    let m := setSize (setHole h.mem node 1) node sz.toNat
    { h with mem := createFoot m node }.addNodeToBin node
  else .ok h

def heapMemalign (h : Heap) (sz align : ℕ) : Res (ℕ × Heap) := do
  let sz := roundup sz align
  let size := roundup (add64 sz overhead) align
  let (found, index, h) ← h.findNode size
  if add64 found 32 % align = 0 then h.heapAlloc size
  else do
    let h ← h.binRemove index found
    let p := roundup (add64 found 32) align
    let node := sub64 p 32
    let h := { h with mem := setSize (setHole h.mem node 0) node sz }
    let dist := toSsize (sub64 node found)
    let prevSz := if dist > overhead then dist - overhead else 0
    let remainSz := toSsize (sub64 (sub64 (sub64 (nodeSize h.mem found) prevSz.toNat) sz) (2 * overhead))
    let h := { h with mem := createFoot h.mem node }
    let h ← h.keepPiece found prevSz
    let h ← h.keepPiece (add64 (add64 node sz) overhead) remainSz
    let h ← h.refillWilderness
    .ok (p, h)

/-! ### `heap_free` -/

/-- The chunk before, if it is a hole, takes the chunk in. Returns the head of what is freed then. -/
def mergePrev (h : Heap) (head prev : ℕ) : Res (ℕ × Heap) :=
  if nodeHole h.mem prev = 0 then .ok (head, h)
  else do
    let h ← h.binRemove (getBinIndex (nodeSize h.mem prev)) prev
    let m := setSize h.mem prev (add64 (nodeSize h.mem prev) (add64 overhead (nodeSize h.mem head)))
    .ok (prev, { h with mem := m.store (getFoot m head) 8 prev })

/-- The chunk takes in the one behind it, if that is a hole. -/
def mergeNext (h : Heap) (head next : ℕ) : Res Heap :=
  if nodeHole h.mem next = 0 then .ok h
  else do
    let h ← h.binRemove (getBinIndex (nodeSize h.mem next)) next
    let m := setSize h.mem head (add64 (nodeSize h.mem head) (add64 overhead (nodeSize h.mem next)))
    let m := m.store (getFoot m next) 8 0
    let m := setHole (setSize m next 0) next 0
    .ok { h with mem := createFoot m head }

def heapFree (h : Heap) (p : ℕ) : Res Heap :=
  let head := sub64 p 32
  if head = h.start then { h with mem := setHole h.mem head 1 }.addNodeToBin head
  else do
    let next := add64 (getFoot h.mem head) 8
    let prev := h.mem.load (sub64 head 8) 8
    let (head, h) ← h.mergePrev head prev
    let h ← h.mergeNext head next
    let h := { h with mem := setHole h.mem head 1 }
    h.binAdd (getBinIndex (nodeSize h.mem head)) head

/-! ### `init_heap` -/

/-- The loop of `init_heap`. Its `va` is declared inside, and is `start_va` for every grant. -/
def initLoop (startVa : ℕ) : List SmReply → ℕ → ℕ → List MapEvent × Option (List SmReply)
  | rs, 0, _ => ([], some rs)
  | [], _ + 1, _ => ([], none)
  | r :: rs, left + 1, sug =>
    if r.Refused then initLoop startVa rs (left + 1) r.ret
    else
      let left' := sub64 (left + 1) sug
      let next := initLoop startVa rs left' left'
      (.grant r.paddr sug :: mapCalls startVa r.paddr sug ++ next.1, next.2)

/-- `init_heap`: one hole from `start_va` to the end of the first partition. -/
def initHeap (m : Mem) (sys : Sys) (replies : List SmReply) : Res Heap := do
  let h : Heap := ⟨0, 0, fun _ => 0, m, sys, replies⟩
  let h ← h.mapGrants (initLoop poolVaStart replies 1 1)
  let m := setSize (setHole h.mem poolVaStart 1) poolVaStart (heapInitSize - overhead)
  let h ← { h with mem := createFoot m poolVaStart }.addNodeToBin poolVaStart
  .ok { h with start := poolVaStart, stop := add64 poolVaStart heapInitSize }

end Heap
end Coffer
