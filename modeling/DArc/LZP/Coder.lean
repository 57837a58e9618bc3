import DArc.Compression.Common
import DArc.Library.ChunkedInput
import DArc.Library.Walk

/-!
# The LZP method

`lzp_compress` predicts the data from a hash of the last five bytes: where the four bytes in front of the last place
with this hash are those in front of the current place, the bytes that agree there are replaced by a flag.  Flags and
literals are written from the beginning of the output, the lengths of matches and the marks of literals that look like
flags from its end towards the front, until the two meet.  A block that does not get small enough is stored.

The program has 64-bit pointers.  A place in a block is its distance from the beginning of the block.  An access outside
a buffer makes a run fail (`none`); allocations succeed, save that of a hash table of a negative size.

### Outline

* `Params`, `lzpC`, `lzpH`, `Table`: contexts and what both directions keep of the past;
* `chooseMove`, `encodeStep`, `lzpEncode`: the coder of one block;
* `decodeStep`, `lzpDecode`: its decoder;
* `lzpCompress`, `lzpDecompress`: the streams of blocks.
-/

namespace DArc.Lzp

/-! ## Parameters -/

/-- The parameters of the method. -/
structure Params where
  blockSize : ℕ
  blockSize_pos : 0 < blockSize
  blockSize_lt : blockSize < 2 ^ 32
  minCompression : Int
  minMatchLen : Int
  hashSizeLog : Int
  barrier : Int
  smallestLen : Int

/-- `1<<HashSizeLog`, as the processor shifts. -/
def Params.hashSize (P : Params) : Int := int32 (2 ^ (uint32 P.hashSizeLog % 32))

/-- `HashMask`. -/
def Params.hashMask (P : Params) : UInt32 := UInt32.ofNat (uint32 (P.hashSize - 1))

/-- The shortest match at a distance. -/
def Params.minLen (P : Params) (distance : Int) : Int :=
  if distance > P.barrier then P.smallestLen else P.minMatchLen

/-- `LZP_MATCH_FLAG`. -/
def lzpMatchFlag : UInt8 := 0xB5

/-! ## Contexts -/

/-- `lzpC`: the four bytes in front of a place. -/
def lzpC (data : List UInt8) (p : Int) : Option ℕ :=
  if 4 ≤ p ∧ p ≤ data.length then some (leValue ((data.drop (p.toNat - 4)).take 4)) else none

/-- `ROR`. -/
def ror (x : UInt32) (n : UInt32) : UInt32 := (x >>> n) ||| (x <<< (32 - n))

/-- `lzpH`, which is always called with the context of the place itself. -/
def lzpH (data : List UInt8) (p : Int) (hashMask : UInt32) : Option ℕ := do
  let c := UInt32.ofNat (← lzpC data p)
  let before := UInt32.ofNat (← lzpC data (p - 1))
  some ((c + 5 * ror c 17 + 3 * before) &&& hashMask).toNat

/-- `HTable` and the counters of both directions. -/
structure Table where
  slots : ℕ → ℕ
  n : ℕ
  n1 : ℕ

namespace Table

/-- `LZP_INIT`. -/
def start : Table := ⟨fun _ => 5, 1, 1⟩

/-- `HTable[k]=pos`. -/
def set (t : Table) (k pos : ℕ) : Table := { t with slots := Function.update t.slots k pos }

/-- Every `n`-th place is entered. -/
def tick (t : Table) (k pos : ℕ) : Table :=
  if t.n - 1 = 0 then { t.set k pos with n := t.n1 } else { t with n := t.n - 1 }

/-- What a match at `p` does; places are entered less often when the distances are large. -/
def matched (P : Params) (t : Table) (k pos p : ℕ) : Table :=
  { t.set k pos with
    n1 := if (pos : Int) - p > uint32 ((t.n1 + 1 : ℕ) * P.hashSize) ∧ t.n1 < 7 then t.n1 + 1 else t.n1 }

/-- How far the places inside a match that are entered are from each other. -/
def stride (t : Table) : ℕ := 2 * t.n1 + 1

/-- Enter a place. -/
def enter (P : Params) (data : List UInt8) (pos : ℕ) (t : Table) : Option Table := do
  let k ← lzpH data pos P.hashMask
  some (t.set k pos)

end Table

/-! ## The coder -/

section Encode

variable (P : Params) (data : List UInt8)

/-- The first loop over a match: four bytes at a time, up to `i`. -/
def matchWords (p pos : ℕ) : ℕ → ℕ → ℕ
  | 0, i => i
  | fuel + 1, i =>
    if pos + i ≤ data.length ∧ lzpC data (p + i : ℕ) = lzpC data (pos + i : ℕ) then matchWords p pos fuel (i + 4)
    else i

/-- The second loop: the bytes behind. -/
def matchBytes (p pos : ℕ) : ℕ → ℕ → ℕ
  | 0, i => i
  | fuel + 1, i =>
    if pos + i < data.length ∧ data[pos + i]? = data[p + i]? then matchBytes p pos fuel (i + 1) else i

/-- How many bytes at `pos` are those at `p`. -/
def matchLen (p pos : ℕ) : ℕ := matchBytes data p pos data.length (matchWords data p pos data.length 4 - 4)

/-- How the coder goes on: with a literal, which is marked if the decoder could take it for a match, or with a match
of `len` bytes, where at least `ml` were asked for. -/
inductive Move
  | literal (marked : Bool)
  | copy (len : ℕ) (ml : Int)
  deriving DecidableEq, Repr

/-- The choice at the place `pos` when the table has the place `p`. -/
def chooseMove (pos p : ℕ) : Option Move := do
  if (← lzpC data pos) ≠ (← lzpC data p) then return .literal false
  let ml := P.minLen ((pos : Int) - p)
  if (pos : Int) + ml > data.length then return .literal true
  if (← lzpC data (p + ml)) ≠ (← lzpC data (pos + ml)) then return .literal true
  -- `i` is unsigned, and so is the comparison
  if matchLen data p pos < uint32 ml then return .literal true
  return .copy (matchLen data p pos) ml

/-- The state of the coder; `back` are the bytes at the end of the output, the last one first. -/
structure Enc where
  pos : ℕ
  table : Table
  out : List UInt8
  back : List UInt8

/-- The loop that writes the length of a match while there is room between the two ends of the output. -/
def lengthBytes : ℕ → ℕ → List UInt8
  | 0, i => [UInt8.ofNat (i + 1)]
  | room + 1, i => if i ≥ 254 then 0 :: lengthBytes room (i - 254) else [UInt8.ofNat (i + 1)]

/-- The loop that enters places inside a match that ends at `stop`; `k` is the distance to the end. -/
def enterSkipped (stop stride : ℕ) : ℕ → ℕ → Table → Option Table
  | 0, _, t => some t
  | fuel + 1, k, t =>
    if stride < k then do
      let t ← t.enter P data (stop - (k - stride))
      enterSkipped stop stride fuel (k - stride) t
    else some t

/-- One turn of the loop of `LZPEncode`.  The two ends of the output are kept apart: where they run into each other
the output is thrown away. -/
def encodeMove (s : Enc) : Option Enc := do
  let k ← lzpH data s.pos P.hashMask
  let p := s.table.slots k
  let table := s.table.tick k s.pos
  match ← chooseMove P data s.pos p with
  | .literal marked =>
    let b ← data[s.pos]?
    some ⟨s.pos + 1, table, s.out ++ [b],
      if marked ∧ b = lzpMatchFlag then s.back ++ [255] else s.back⟩
  | .copy len ml =>
    let table := table.matched P k s.pos p
    let room := data.length - s.back.length - (s.out.length + 1)
    let table ← enterSkipped P data (s.pos + len) table.stride len len table
    some ⟨s.pos + len, table, s.out ++ [lzpMatchFlag], s.back ++ lengthBytes room (len - uint32 ml)⟩

/-- One turn and the condition of the loop. -/
def encodeStep (s : Enc) : Option Enc ⊕ Enc :=
  match encodeMove P data s with
  | none => .inl none
  | some s =>
    if s.pos < data.length ∧ s.out.length + s.back.length < data.length then .inr s else .inl (some s)

/-- The state in front of the loop. -/
def encodeStart : Enc := ⟨12, .start, data.take 12, []⟩

/-- What `LZPEncode` returns: an error, 0, or the size of the packed block. -/
inductive Encoded
  | failed (code : ErrCode)
  | unpacked
  | packed (bytes : List UInt8)
  deriving DecidableEq, Repr

/-- `LZPEncode`. -/
def lzpEncode : Option Encoded :=
  if data.length < 32 then some .unpacked
  else if P.hashSize < 0 then some (.failed .notEnoughMemory)
  else
    match walk (encodeStep P data) data.length (encodeStart data) with
    | some (some s) =>
      if s.out.length + s.back.length ≥ data.length then some .unpacked
      else some (.packed (s.out ++ s.back.reverse))
    | _ => none

end Encode

/-! ## The decoder -/

section Decode

variable (P : Params)

/-- The loop that copies a match, with `k` places to go to the next one that is entered. -/
def copyMatch (stride : ℕ) : ℕ → ℕ → ℕ → List UInt8 → Table → Option (List UInt8 × Table)
  | 0, _, _, out, t => some (out, t)
  | i + 1, k, p, out, t => do
    let (k, t) ← if k - 1 = 0 then do some (stride, ← t.enter P out out.length) else some (k - 1, t)
    let b ← out[p]?
    copyMatch stride i k (p + 1) (out ++ [b]) t

/-- The loop that reads a length back from its byte at `inEnd`: the end of the lengths, and the length. -/
def readLength (buf : List UInt8) : ℕ → ℕ → Option (ℕ × ℕ)
  | 0, i => do
    let b ← buf[0]?
    if b ≠ 0 then some (0, i + b.toNat) else none
  | inEnd + 1, i => do
    let b ← buf[inEnd + 1]?
    if b ≠ 0 then some (inEnd + 1, i + b.toNat) else readLength buf inEnd (i + 254)

/-- The state of the decoder. -/
structure Dec where
  inPos : ℕ
  inEnd : ℕ
  out : List UInt8
  table : Table

variable (buf : List UInt8)

/-- A literal. -/
def literalMove (b : UInt8) (inEnd : ℕ) (table : Table) (s : Dec) : Option Dec :=
  if s.out.length < P.blockSize then some ⟨s.inPos + 1, inEnd, s.out ++ [b], table⟩ else none

/-- One turn of the loop of `LZPDecode`; the output buffer has the size of a block. -/
def decodeMove (s : Dec) : Option Dec := do
  let k ← lzpH s.out s.out.length P.hashMask
  let p := s.table.slots k
  let table := s.table.tick k s.out.length
  let b ← buf[s.inPos]?
  if b ≠ lzpMatchFlag then literalMove P b s.inEnd table s
  else if (← lzpC s.out s.out.length) ≠ (← lzpC s.out p) then literalMove P b s.inEnd table s
  else
    match s.inEnd with
    | 0 => none
    | inEnd + 1 =>
      if (← buf[inEnd]?) = 255 then literalMove P b inEnd table s
      else
        let table := table.matched P k s.out.length p
        let (inEnd, i) ← readLength buf inEnd 0
        let i := uint32 (P.minLen ((s.out.length : Int) - p) - 1 + i)
        -- `while (--i)` goes on when `i` was 0
        let count := if i = 0 then 2 ^ 32 else i
        if P.blockSize < s.out.length + count then none
        else
          let (out, table) ← copyMatch P table.stride count (table.stride + 1) p s.out table
          some ⟨s.inPos + 1, inEnd, out, table⟩

/-- One turn and the condition of the loop. -/
def decodeStep (s : Dec) : Option Dec ⊕ Dec :=
  match decodeMove P buf s with
  | none => .inl none
  | some s => if s.inPos < s.inEnd then .inr s else .inl (some s)

/-- The state in front of the loop. -/
def decodeStart : Dec := ⟨12, buf.length, buf.take 12, .start⟩

/-- `LZPDecode`. -/
def lzpDecode : Option (Except ErrCode (List UInt8)) :=
  if P.hashSize < 0 then some (.error .notEnoughMemory)
  else if buf.length < 12 ∨ P.blockSize < 12 then none
  else
    match walk (decodeStep P buf) buf.length (decodeStart buf) with
    | some (some s) => some (.ok s.out)
    | _ => none

end Decode

/-! ## Streams -/

section Streams

variable (P : Params)

/-- The block is stored, for it is not packed or not packed well enough. -/
def storedBlock (block : List UInt8) : List UInt8 := put32 (uint32 (-(block.length : Int))) ++ block

/-- The block is not packed well enough. -/
def tooLarge (inSize outSize : ℕ) : Prop :=
  P.minCompression > 0 ∧ Int.tdiv outSize P.minCompression ≥ (inSize / 100 : ℕ)

instance (inSize outSize : ℕ) : Decidable (tooLarge P inSize outSize) := inferInstanceAs (Decidable (_ ∧ _))

/-- One block in `lzp_compress`. -/
def compressBlock (block : List UInt8) : Option (Except ErrCode (List UInt8)) :=
  (lzpEncode P block).map fun
    | .failed code => .error code
    | .unpacked => .ok (storedBlock block)
    | .packed bytes =>
      .ok (if tooLarge P block.length bytes.length then storedBlock block else put32 bytes.length ++ bytes)

/-- How many bytes `lzp_compress` asks for at once; a callback that is asked for a negative number of them has none
to give. -/
def Params.readSize (P : Params) : ℕ := (int32 P.blockSize).toNat

/-- `lzp_compress`. -/
def lzpCompress : ℕ → Source UInt8 → Option Outcome
  | 0, _ => none
  | fuel + 1, src =>
    let block := (src.read P.readSize).1
    if block = [] then some ⟨.ok, []⟩
    else
      (compressBlock P block).bind fun
        | .error code => some ⟨code, []⟩
        | .ok bytes => (lzpCompress fuel (src.read P.readSize).2).map fun r => ⟨r.code, bytes ++ r.written⟩

/-- What `lzp_decompress` finds at its place in the stream. -/
inductive Header
  /-- The end of the stream. -/
  | eof
  /-- Fewer bytes than asked for. -/
  | short
  /-- A stored block of `INT_MIN` bytes, for which there is no memory. -/
  | noMemory
  /-- A stored block, and what follows it. -/
  | stored (block rest : List UInt8)
  /-- A packed block, and what follows it. -/
  | packed (block rest : List UInt8)

/-- Read the size of the next block and the block; the size of a stored block is negative. -/
def readBlock (stream : List UInt8) : Header :=
  if stream = [] then .eof
  else
    match takeExact 4 stream with
    | none => .short
    | some (word, stream) =>
      let inSize := int32 (leValue word)
      if inSize < 0 then
        if int32 (-inSize) < 0 then .noMemory
        else
          match takeExact (int32 (-inSize)).toNat stream with
          | none => .short
          | some (block, rest) => .stored block rest
      else
        match takeExact inSize.toNat stream with
        | none => .short
        | some (block, rest) => .packed block rest

/-- `lzp_decompress`. -/
def lzpDecompress : ℕ → List UInt8 → Option Outcome
  | 0, _ => none
  | fuel + 1, stream =>
    match readBlock stream with
    | .eof => some ⟨.ok, []⟩
    | .short => some ⟨.io, []⟩
    | .noMemory => some ⟨.notEnoughMemory, []⟩
    | .stored block rest => (lzpDecompress fuel rest).map fun r => ⟨r.code, block ++ r.written⟩
    | .packed block rest =>
      (lzpDecode P block).bind fun
        | .error code => some ⟨code, []⟩
        | .ok out => (lzpDecompress fuel rest).map fun r => ⟨r.code, out ++ r.written⟩

end Streams

end DArc.Lzp
