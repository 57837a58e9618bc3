import DArc.Library.Noted
import DArc.Library.Words
import DArc.SREP.Matches
import DArc.SREP.MemoryManager

/-!
# The virtual memory manager

The decompressor keeps the matches whose destination it has not reached in a heap ordered by destination, with the
data of each saved in memory.  When memory runs out, `saveToDisk` moves matches with large destinations to a block
of the VM file and marks the place at which they are needed by a pseudo-match; `restoreFromDisk` brings the matches
of a block back.

The loop of `saveToDisk` walks the heap with a reverse iterator: `front` are the matches in front of the base of the
iterator, nearest first, and `back` those from the base on.  Erasing a match leaves the base in place, so the walk
goes on behind the match in front of the erased one; when the erased match was the first of the heap, the iterator
is moved in front of the first match, which has no defined behaviour.

### Outline

* matches with saved data, and the heap;
* `saveToDisk`, `restoreFromDisk`, and the loops that wait for free memory.
-/

namespace DArc.SREP

/-! ## Matches with saved data -/

/-- A match with the index of its saved data; index 0 is a match without data. -/
structure FutureMatch extends LZMatch where
  index : ℕ
  deriving DecidableEq, Repr

/-- The loop barrier at the end of the heap. -/
def barrier : FutureMatch := ⟨⟨2 ^ 64 - 1, 2 ^ 64 - 1, 2 ^ 32 - 1⟩, 0⟩

/-- A pseudo-match that marks where a block is restored. -/
def FutureMatch.isMarkingPoint (m : FutureMatch) : Bool := m.len = 0

/-- Inserts a match behind those with the same or a smaller destination. -/
def heapInsert (m : FutureMatch) : List FutureMatch → List FutureMatch
  | [] => [m]
  | h :: hs => if m.dest < h.dest then m :: h :: hs else h :: heapInsert m hs

/-- Removes all matches with a destination. -/
def heapErase (dest : ℕ) (heap : List FutureMatch) : List FutureMatch := heap.filter fun m => m.dest ≠ dest

/-- Appends the data of a match: from memory, or from the part of the block that is already there. -/
def FutureMatch.restoreMatchData (m : FutureMatch) (mm : MemoryManager) (out : List UInt8) (blockStart : ℕ) :
    List UInt8 :=
  if m.index ≠ 0 then out ++ mm.restore m.index m.len else memcpyLZMatch out (m.src - blockStart) m.len

/-! ## The VM file -/

/-- The VM file: the contents of its blocks, the free ones among them and the number of the next new one. -/
structure VirtualMemory where
  blockSize : ℕ
  file : ℕ → List UInt8
  freeBlocks : List ℕ
  newBlock : ℕ

/-- A VM file that has not been used. -/
def VirtualMemory.init (blockSize : ℕ) : VirtualMemory := ⟨blockSize, fun _ => [], [], 0⟩

/-- The memory, the VM file and the heap of the decompressor. -/
structure Spill where
  mm : MemoryManager
  vm : VirtualMemory
  heap : List FutureMatch

/-- The bytes of a match in a block of the VM file. -/
def diskRecord (m : LZMatch) (bytes : List UInt8) : List UInt8 :=
  leBytes 4 m.len ++ leBytes 8 m.src ++ leBytes 8 m.dest ++ bytes

/-- The loop of `saveToDisk`: what is left in memory and in the heap, the bytes of the block and the smallest
destination in it; `none` is a step of the iterator that is not defined. -/
def saveLoop (blockSize : ℕ) : List FutureMatch → List FutureMatch → MemoryManager → List UInt8 → ℕ →
    Option (MemoryManager × List FutureMatch × List UInt8 × ℕ)
  | [], _, _, _, _ => none
  | [base], back, mm, block, minDest => some (mm, base :: back, block, minDest)
  | base :: m :: front, back, mm, block, minDest =>
    if m.index = 0 then saveLoop blockSize (m :: front) (base :: back) mm block minDest
    else if blockSize - block.length < 24 + m.len then
      some (mm, (m :: front).reverse ++ base :: back, block, minDest)
    else if base.dest = m.dest then none
    else
      saveLoop blockSize (heapErase m.dest front) (heapErase m.dest (base :: back)) (mm.free m.index)
        (block ++ diskRecord m.toLZMatch (mm.restore m.index m.len)) m.dest
termination_by front => front.length
decreasing_by
  · exact Nat.lt_succ_self _
  · have hle : (heapErase m.dest front).length ≤ front.length := List.length_filter_le _ _
    simp only [List.length_cons]
    omega

/-- Saves matches with the largest destinations to a block of the VM file, with a mark at the smallest of them. -/
def saveToDisk (s : Spill) : Option Spill := do
  let (mm, heap, block, minDest) ← saveLoop s.vm.blockSize s.heap.reverse [] s.mm [] (2 ^ 64 - 1)
  let number := s.vm.freeBlocks.headD s.vm.newBlock
  let vm := { s.vm with
    file := Function.update s.vm.file number (block ++ leBytes 4 0)
    freeBlocks := s.vm.freeBlocks.tail
    newBlock := if s.vm.freeBlocks.isEmpty then s.vm.newBlock + 1 else s.vm.newBlock }
  return ⟨mm, vm, heapInsert ⟨⟨number, minDest, 0⟩, 0⟩ heap⟩

/-- Waits until there is memory for `need` bytes; every call of `saveToDisk` is noted with the state it meets. -/
def waitForSpace (need : ℕ) : ℕ → Spill → Noted Spill Spill
  | 0, s => if need ≤ s.mm.availableSpace then pure s else Noted.fail
  | fuel + 1, s =>
    if need ≤ s.mm.availableSpace then pure s
    else do
      Noted.note s
      let s ← Noted.ofOption (saveToDisk s)
      waitForSpace need fuel s

/-- The loop of `restoreFromDisk` over the matches of a block. -/
def loadLoop : ℕ → List UInt8 → MemoryManager → List FutureMatch → MemoryManager × List FutureMatch
  | 0, _, mm, heap => (mm, heap)
  | fuel + 1, p, mm, heap =>
    let len := leValue (p.take 4)
    if len = 0 then (mm, heap)
    else
      let saved := mm.save ((p.drop 20).take len)
      let m : FutureMatch := ⟨⟨leValue ((p.drop 4).take 8), leValue ((p.drop 12).take 8), len⟩, saved.1⟩
      loadLoop fuel (p.drop (20 + len)) saved.2 (heapInsert m heap)

/-- Restores the matches that a mark stands for. -/
def restoreFromDisk (fuel : ℕ) (mark : FutureMatch) (s : Spill) : Noted Spill Spill := do
  let s ← waitForSpace s.vm.blockSize fuel s
  let block := s.vm.file mark.src
  let loaded := loadLoop block.length block s.mm s.heap
  return ⟨loaded.1, { s.vm with freeBlocks := mark.src :: s.vm.freeBlocks }, loaded.2⟩

end DArc.SREP
