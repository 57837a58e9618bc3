import DArc.SREP.Blocks
import DArc.SREP.VirtualMemory

/-!
# Decompression of the Future-LZ and Index-LZ formats

A block lists the matches whose *source* it has.  `decompressFutureLZ` first puts those into the heap that are
copied inside the block, then writes the block, taking the matches from the heap in the order of their
destinations, and last saves the data of the matches that are copied to later blocks.  Matches of at least
`maximumSave` bytes are not saved but read from the output file again.

The loops that wait for memory and the loop that writes the block get `fuel`, a bound for the number of their turns;
a run that needs more fails for the lack of it.

### Outline

* the three steps of one block;
* `decompressFutureFile`: the loop over the blocks.
-/

namespace DArc.SREP

/-- A match with the record it is read from, in the place behind the match in front of it. -/
def futureMatch (roundMatches : Bool) (baseLen blockPos : ℕ) (r : StatRecord) : LZMatch :=
  decodeLZMatch true roundMatches baseLen blockPos r

/-- First step: the matches that are copied inside the block are put into the heap; `none` is the answer for bad
compressed data. -/
def insertNear (roundMatches : Bool) (baseLen blockEnd : ℕ) :
    ℕ → List StatRecord → List FutureMatch → Option (List FutureMatch)
  | _, [], heap => some heap
  | blockPos, r :: rs, heap =>
    let m := futureMatch roundMatches baseLen blockPos r
    if m.src < blockPos ∨ blockEnd ≤ m.src ∨ blockEnd - m.src < m.len ∨ m.dest ≤ m.src then none
    else
      insertNear roundMatches baseLen blockEnd m.src rs
        (if m.dest < blockEnd then heapInsert ⟨m, 0⟩ heap else heap)

/-- The state of the loop that writes a block: the literals that are left and the bytes written so far. -/
structure Output where
  spill : Spill
  input : List UInt8
  out : List UInt8

/-- Writes the literals in front of a match and the match itself; `none` is the answer for bad compressed data. -/
def outputMatch (maximumSave : ℕ) (fout : List UInt8) (blockStart outSize : ℕ) (m : FutureMatch)
    (heap : List FutureMatch) (o : Output) : Option Output :=
  let litLen := m.dest - blockStart - o.out.length
  if m.dest < blockStart + o.out.length ∨ o.input.length < litLen ∨ outSize < o.out.length + litLen + m.len then none
  else
    let out := o.out ++ o.input.take litLen
    let out :=
      if maximumSave ≤ m.len ∧ m.src < blockStart then out ++ span fout m.src m.len
      else m.restoreMatchData o.spill.mm out blockStart
    some ⟨⟨o.spill.mm.free m.index, o.spill.vm, heap⟩, o.input.drop litLen, out⟩

/-- Second step: the matches with a destination in the block, in the order of their destinations. -/
def outputLoop (maximumSave waitFuel : ℕ) (fout : List UInt8) (blockStart outSize : ℕ) :
    ℕ → Output → Noted Spill Output
  | 0, _ => Noted.fail
  | fuel + 1, o =>
    match o.spill.heap with
    | [] => Noted.fail
    | m :: heap =>
      if blockStart + outSize ≤ m.dest then pure o
      else if m.isMarkingPoint then do
        let s ← restoreFromDisk waitFuel m o.spill
        outputLoop maximumSave waitFuel fout blockStart outSize fuel
          { o with spill := { s with heap := s.heap.erase m } }
      else do
        let o ← Noted.ofOption (outputMatch maximumSave fout blockStart outSize m heap o)
        outputLoop maximumSave waitFuel fout blockStart outSize fuel o

/-- Third step: the data of the matches that are copied to later blocks is saved. -/
def insertFuture (roundMatches : Bool) (baseLen maximumSave waitFuel blockStart blockEnd : ℕ) (outbuf : List UInt8) :
    ℕ → List StatRecord → Spill → Noted Spill Spill
  | _, [], s => pure s
  | blockPos, r :: rs, s =>
    let m := futureMatch roundMatches baseLen blockPos r
    if m.dest < blockEnd then
      insertFuture roundMatches baseLen maximumSave waitFuel blockStart blockEnd outbuf m.src rs s
    else if maximumSave ≤ m.len then
      insertFuture roundMatches baseLen maximumSave waitFuel blockStart blockEnd outbuf m.src rs
        { s with heap := heapInsert ⟨m, 0⟩ s.heap }
    else do
      let s ← waitForSpace m.len waitFuel s
      let saved := s.mm.save (span outbuf (m.src - blockStart) m.len)
      insertFuture roundMatches baseLen maximumSave waitFuel blockStart blockEnd outbuf m.src rs
        ⟨saved.2, s.vm, heapInsert ⟨m, saved.1⟩ s.heap⟩

/-- Decompresses one block of the Future-LZ format. -/
def decompressFutureLZ (roundMatches : Bool) (baseLen maximumSave fuel : ℕ) (fout : List UInt8) (blockStart : ℕ)
    (b : CompressedBlock) (s : Spill) : Noted Spill (List UInt8 × Spill) := do
  let blockEnd := blockStart + b.origsize
  let records := statRecords roundMatches b.stat
  let heap ← Noted.ofOption (insertNear roundMatches baseLen blockEnd blockStart records s.heap)
  let o ← outputLoop maximumSave fuel fout blockStart b.origsize fuel ⟨{ s with heap }, b.literals, []⟩
  if o.input.length ≠ b.origsize - o.out.length then Noted.fail
  else do
    let out := o.out ++ o.input
    let s ← insertFuture roundMatches baseLen maximumSave fuel blockStart blockEnd out blockStart records o.spill
    return (out, s)

/-- Decompresses the blocks of a file behind the bytes already written; at the end of the file only the barrier may
be left in the heap. -/
def decompressFutureFile (roundMatches : Bool) (baseLen maximumSave fuel : ℕ) :
    List UInt8 → Spill → List CompressedBlock → Noted Spill (List (List UInt8) × Spill)
  | _, s, [] => if s.heap.length = 1 then pure ([], s) else Noted.fail
  | fout, s, b :: bs => do
    let (out, s) ← decompressFutureLZ roundMatches baseLen maximumSave fuel fout fout.length b s
    let (outs, s) ← decompressFutureFile roundMatches baseLen maximumSave fuel (fout ++ out) s bs
    return (out :: outs, s)

/-- The state in which decompression begins. -/
def Spill.init (usefulMemory vmBlockSize : ℕ) : Spill :=
  ⟨MemoryManager.init usefulMemory, VirtualMemory.init vmBlockSize, [barrier]⟩

end DArc.SREP
