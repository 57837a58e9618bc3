import DArc.Compression.Common
import DArc.Library.ChunkedInput
import DArc.Library.SlidingWindow

/-!
# The REP compressor

`repCompress` models `rep_compress`: it reads the input block by block into a window of `BlockSize`
bytes, indexes every `k`-th position of the window by a rolling hash of the next `L` bytes, looks
for long repetitions in the first `test` positions of every `L` bytes, and writes for each block
the lengths and offsets of the matches and the unmatched bytes.  When the window is full, writing
restarts at its beginning, and older data stay available as the previous lap.

Memory is explicit: the window starts with arbitrary contents `mem`, an access outside the window
or the hash table makes the run fail (`none`), and a loop of the source that does not end exhausts
every `fuel`.  Allocations succeed.  The side buffers are lists, so their capacity is not part of
this model.

### Outline

* `Params` and the constants `rep_compress` derives from it;
* `findMatchStart`, `findMatchEnd`, and the body of the search loop (`tryMatch`, `insert`, `roll`);
* the loops of one block (`testLoop`, `fillLoop`, `scanLoop`) and `compressBlock`;
* the loop over the blocks, `compressLoop`, and `repCompress`.
-/

namespace DArc.Rep

/-! ## Parameters -/

/-- The parameters of the method, as `rep_compress` receives them. -/
structure Params where
  blockSize : ℕ
  minMatchLen : Int
  barrier : Int
  smallestLen : Int
  hashBits : Int
  amplifier : Int

/-- `MAX_READ`: no more than this is read at once. -/
abbrev maxRead : ℕ := 8 * mb

/-- `PRIME`, the base of the rolling hash. -/
def prime : UInt32 := 153191

/-- The power function of `rep_compress`, with wrapping multiplication. -/
def power (base : UInt32) : ℕ → UInt32
  | 0 => 1
  | n + 1 => power base n * base

namespace Params

variable (P : Params)

/-- `SmallestLen` after its adjustment to `MinMatchLen`. -/
def smallest : Int := if P.smallestLen > P.minMatchLen then P.minMatchLen else P.smallestLen

/-- `L`, the size of the indexed blocks. -/
def L : ℕ := roundupToPowerOf (uint32 (P.smallest.tdiv 2))

/-- `L * 2`, computed in `int`. -/
def twoL : Int := int32 (P.L * 2)

/-- `k`, the distance of indexed positions. -/
def k : ℕ := sqrtb (uint32 P.twoL)

/-- `k1`, the mask of the low bits that hold a check sum. -/
def k1 : ℕ := P.k - 1

/-- `test`, the number of positions tried in each `L` bytes. -/
def test : Int := min (int32 (P.k * P.amplifier)) P.L

/-- `cPOWER_PRIME_L`, the weight of the byte that leaves the hash. -/
def cPowerPrimeL : UInt32 := power prime P.L

/-- `CalcHashSize`, converted to `int`. -/
def hashSize : Int :=
  if uint32 P.hashBits > 0 then int32 (2 ^ (uint32 P.hashBits % 32))
  else int32 (roundupToPowerOf (uint32 (P.blockSize / 3 * 2 : ℕ)) / max P.k 16 : ℕ)

/-- `HashMask`. -/
def hashMask : UInt32 := UInt32.ofNat (uint32 (P.hashSize - 1))

/-- The slot of the hash table a hash value selects; it has to lie inside the table. -/
def slot (hash : UInt32) : Option ℕ :=
  let s := (hash &&& P.hashMask).toNat
  if (s : Int) < P.hashSize then some s else none

/-- `chksum`: the high bits of the hash, shifted as a signed number, under the mask `k1`. -/
def chksum (hash : UInt32) : ℕ :=
  ((hash.toInt32 >>> 28).toUInt32 &&& UInt32.ofNat P.k1).toNat

/-- `update_hash`: a byte leaves the hash and another one enters. -/
def updateHash (hash : UInt32) (sub add : UInt8) : UInt32 :=
  hash * prime + add.toUInt32 - sub.toUInt32 * P.cPowerPrimeL

end Params

/-! ## Match boundaries -/

/-- `find_match_start`: go back from `p` and `q` while the bytes before them are equal, not beyond
`start`.  The loop also stops when `p` reaches the beginning of the window; the bound the caller
passes never lets that happen. -/
def findMatchStart (buf : ℕ → UInt8) : ℕ → ℕ → ℕ → ℕ
  | p + 1, q + 1, start =>
    if q + 1 > start then
      if buf p ≠ buf q then q + 1 else findMatchStart buf p q start
    else q + 1
  | _, q, _ => q

/-- `find_match_end`: go forward from `p` and `q` while the bytes there are equal, not beyond
`stop`. -/
def findMatchEnd (buf : ℕ → UInt8) (p q stop : ℕ) : ℕ :=
  if q < stop ∧ buf p = buf q then findMatchEnd buf (p + 1) (q + 1) stop else q
termination_by stop - q

/-! ## Searching one block -/

/-- One found match: the literals before it and the match itself.  The four fields go to the four
side buffers. -/
structure Record where
  dataOffset : ℕ
  datalen : ℕ
  offset : ℕ
  len : ℕ
  deriving DecidableEq, Repr

/-- The variables of the search loop. -/
structure Scan where
  i : ℕ
  hash : UInt32
  hasharr : ℕ → ℕ
  lastMatch : ℕ
  records : List Record

variable (P : Params)

/-- The record of a match around `i` whose other copy is at `m`, or `none` when it is too short.
`hi` is the end `Base+Size` of the data read so far. -/
def extendMatch (buf : ℕ → UInt8) (hi lastMatch i m : ℕ) : Option Record :=
  let lowBound := if m < i then i - m else if m - hi > i then 0 else i - (m - hi)
  let highBound := int32 (P.blockSize - m + i)
  let start := findMatchStart buf m i (max lastMatch lowBound)
  let stop := findMatchEnd buf m i (min (hi : Int) highBound).toNat
  if (stop : Int) - start ≥ (if (i : Int) - m < P.barrier then P.minMatchLen else P.smallest) then
    some
      { dataOffset := lastMatch
        datalen := start - lastMatch
        offset := if m ≤ i then i - m else i + P.blockSize - m
        len := stop - start }
  else none

/-- Look up the current hash and record a match when there is a good one.  An entry that points
to data not yet processed in this lap is out of date. -/
def tryMatch (buf : ℕ → UInt8) (hi : ℕ) (s : Scan) : Option Scan :=
  if s.i ≥ s.lastMatch then do
    let entry := s.hasharr (← P.slot s.hash)
    if entry ≠ 0 ∧ P.chksum s.hash = entry &&& P.k1 then
      let m := entry - (entry &&& P.k1)
      if m ≥ s.i ∧ m < hi then some s
      else
        match extendMatch P buf hi s.lastMatch s.i m with
        | some r =>
          some { s with
            lastMatch := r.dataOffset + r.datalen + r.len
            records := s.records ++ [r] }
        | none => some s
    else some s
  else some s

/-- Enter the current position into the hash table. -/
def insert (s : Scan) : Option Scan := do
  let slot ← P.slot s.hash
  some { s with hasharr := Function.update s.hasharr slot (s.i + P.chksum s.hash) }

/-- Move the hash one byte on; `buf[i+L]` has to lie inside the window. -/
def roll (buf : ℕ → UInt8) (s : Scan) : Option Scan :=
  if s.i + P.L < P.blockSize then
    some { s with i := s.i + 1, hash := P.updateHash s.hash (buf s.i) (buf (s.i + P.L)) }
  else none

/-- One iteration of the loop over the first `test` positions. -/
def testStep (buf : ℕ → UInt8) (hi : ℕ) (s : Scan) : Option Scan := do
  let s ← tryMatch P buf hi s
  let s ← if s.i &&& P.k1 = 0 then insert P s else some s
  roll P buf s

/-- The loop over the first `test` positions. -/
def testLoop (buf : ℕ → UInt8) (hi : ℕ) : ℕ → Scan → Option Scan
  | 0, s => some s
  | n + 1, s => do testLoop buf hi n (← testStep P buf hi s)

/-- The hash moved `n` bytes on. -/
def rollBy (buf : ℕ → UInt8) : ℕ → Scan → Option Scan
  | 0, s => some s
  | n + 1, s => do rollBy buf n (← roll P buf s)

/-- The loop that indexes the rest of the `L` bytes without searching. -/
def fillLoop (buf : ℕ → UInt8) : ℕ → Scan → Option Scan
  | 0, _ => none
  | fuel + 1, s =>
    if s.i &&& (P.L - 1) ≠ 0 then do
      let s ← insert P s
      fillLoop buf fuel (← rollBy P buf P.k s)
    else some s

/-- The main loop over one block; each iteration handles `L` bytes, and `L` bytes of lookahead are
needed.  The loop condition is computed in `int`. -/
def scanLoop (buf : ℕ → UInt8) (hi : ℕ) : ℕ → Scan → Option Scan
  | 0, _ => none
  | fuel + 1, s =>
    if int32 (s.i + P.twoL) < hi then do
      let s ← testLoop P buf hi P.test.toNat s
      scanLoop buf hi fuel (← fillLoop P buf fuel s)
    else some s

/-! ## Blocks -/

/-- The variables that live from block to block. -/
structure Enc where
  buf : ℕ → UInt8
  base : ℕ
  lastI : ℕ
  lastMatch : ℕ
  hash : UInt32
  hasharr : ℕ → ℕ

/-- The hash of the first `n` bytes of the window. -/
def firstHash (buf : ℕ → UInt8) (n : ℕ) : UInt32 :=
  (segment buf 0 n).foldl (fun h b => P.updateHash h 0 b) 0

/-- The bytes of a compressed block: its size, the number of matches, the tables of lengths,
offsets and literal runs, the literals.  `last` is the final literal run as address and length. -/
def blockBytes (buf : ℕ → UInt8) (records : List Record) (last : ℕ × ℕ) : List UInt8 :=
  let literals := (records.map fun r => segment buf r.dataOffset r.datalen).flatten
    ++ segment buf last.1 last.2
  let outsize := 4 * 2 + 4 * records.length + 4 * records.length + 4 * (records.length + 1)
    + literals.length
  put32 (outsize - 4) ++ put32 records.length
    ++ (records.map fun r => put32 r.len).flatten
    ++ (records.map fun r => put32 r.offset).flatten
    ++ (records.map fun r => put32 r.datalen).flatten ++ put32 last.2
    ++ literals

/-- Process the block of data `chunk` just read to `buf+Base`. -/
def compressBlock (fuel : ℕ) (e : Enc) (chunk : List UInt8) : Option (Enc × List UInt8) := do
  let buf := store e.buf e.base chunk
  let hash := if e.base = 0 then firstHash P buf (min P.L chunk.length) else e.hash
  let hi := e.base + chunk.length
  let s ← scanLoop P buf hi fuel ⟨e.lastI, hash, e.hasharr, e.lastMatch, []⟩
  let lastI := if hi = P.blockSize then hi else s.i
  let (last, lastMatch) :=
    if s.lastMatch > lastI then ((s.lastMatch, 0), s.lastMatch)
    else ((s.lastMatch, lastI - s.lastMatch), lastI)
  let bytes := blockBytes buf s.records last
  -- the window is full: start filling it from the beginning
  if hi = P.blockSize then some (⟨buf, 0, 0, 0, s.hash, s.hasharr⟩, bytes)
  else some (⟨buf, hi, lastI, lastMatch, s.hash, s.hasharr⟩, bytes)

/-- The final block: the rest of the data as literals, and the end mark. -/
def finalBytes (e : Enc) : List UInt8 :=
  let datalen := e.base - e.lastMatch
  put32 (4 * 2 + datalen) ++ put32 0 ++ put32 datalen ++ segment e.buf e.lastMatch datalen ++ put32 0

/-- How much the next read asks for. -/
def readSize (first : Bool) (base : ℕ) : ℕ :=
  min (P.blockSize - base) (if first then maxRead else min (P.blockSize / 8) maxRead)

/-- The loop over the blocks of the input. -/
def compressLoop : ℕ → Bool → Enc → Source UInt8 → Option (List UInt8)
  | 0, _, _, _ => none
  | fuel + 1, first, e, src =>
    let chunk := (src.read (readSize P first e.base)).1
    if chunk = [] then some (finalBytes e)
    else do
      let (e', bytes) ← compressBlock P fuel e chunk
      let rest ← compressLoop fuel false e' (src.read (readSize P first e.base)).2
      some (bytes ++ rest)

/-- `rep_compress` on a window with initial contents `mem`.  The size of the side buffers divides
by `SmallestLen`. -/
def repCompress (fuel : ℕ) (mem : ℕ → UInt8) (src : Source UInt8) : Option Outcome :=
  if P.smallest = 0 then none
  else do
    let bytes ← compressLoop P fuel true ⟨mem, 0, 0, 0, 0, fun _ => 0⟩ src
    some ⟨.ok, put32 P.blockSize ++ bytes⟩

end DArc.Rep
