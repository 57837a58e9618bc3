import DArc.REP.Compressor

/-!
# The REP decompressor

`repDecompress` models `rep_decompress`.  It reads the window size, then one compressed block after
another, copies literal runs and matches into its window, and writes what each block added.

As in the compressor, memory is explicit: a copy that would leave the window or the block, or a
negative size, makes the run fail (`none`).  Reads that come up short end it with the code `io`.
-/

namespace DArc.Rep

/-- The output window and the address of the next byte in it. -/
structure Dec where
  data0 : ℕ → UInt8
  data : ℕ

variable (blockSize : ℕ)

/-- Copy a literal run of `n` bytes from `buf` to the window; the rest of `buf` is returned. -/
def copyLiterals (n : Int) (buf : List UInt8) (d : Dec) : Option (Dec × List UInt8) :=
  if 0 ≤ n ∧ d.data + n ≤ blockSize then do
    let (run, rest) ← takeExact n.toNat buf
    some (⟨store d.data0 d.data run, d.data + n.toNat⟩, rest)
  else none

/-- Copy a match.  An offset that reaches before the beginning of the window is wrapped around by
the size of the window. -/
def copyMatch (off len : Int) (d : Dec) : Option Dec :=
  let offset := if off ≤ d.data then off else int32 (off - blockSize)
  let src := d.data - offset
  if 0 ≤ len ∧ d.data + len ≤ blockSize ∧ 0 ≤ src ∧ src + len ≤ blockSize then
    some ⟨copyForward d.data0 d.data src.toNat len.toNat, d.data + len.toNat⟩
  else none

/-- The loop over the matches of a block, from number `i` on with `n` matches to go. -/
def decodeMatches (lens offsets datalens : List UInt8) :
    ℕ → ℕ → List UInt8 → Dec → Option (Dec × List UInt8)
  | 0, _, buf, d => some (d, buf)
  | n + 1, i, buf, d => do
    let (d, buf) ← copyLiterals blockSize (← tableAt datalens i) buf d
    let d ← copyMatch blockSize (← tableAt offsets i) (← tableAt lens i) d
    decodeMatches lens offsets datalens n (i + 1) buf d

/-- Decode one block: the number of matches, the tables, the literals. -/
def decodeBlock (buf : List UInt8) (d : Dec) : Option Dec := do
  let num ← tableAt buf 0
  if num < 0 then none
  else
    let num := num.toNat
    let lens := buf.drop 4
    let offsets := lens.drop (4 * num)
    let datalens := offsets.drop (4 * num)
    let (d, buf) ← decodeMatches blockSize lens offsets datalens num 0
      (datalens.drop (4 * (num + 1))) d
    let (d, _) ← copyLiterals blockSize (← tableAt datalens num) buf d
    some d

/-- What the decompressor finds at its place in the stream. -/
inductive Header
  /-- Fewer bytes than asked for. -/
  | short
  /-- The end mark. -/
  | eof
  /-- A negative size. -/
  | negative
  /-- A compressed block, and what follows it. -/
  | block (buf rest : List UInt8)

/-- Read the size of the next compressed block and the block. -/
def readBlock (stream : List UInt8) : Header :=
  match takeExact 4 stream with
  | none => .short
  | some (word, stream) =>
    let comprSize := int32 (leValue word)
    if comprSize = 0 then .eof
    else if comprSize < 0 then .negative
    else
      match takeExact comprSize.toNat stream with
      | none => .short
      | some (buf, rest) => .block buf rest

/-- The loop over the compressed blocks. -/
def decompressLoop : ℕ → Dec → List UInt8 → List UInt8 → Option Outcome
  | 0, _, _, _ => none
  | fuel + 1, d, stream, written =>
    match readBlock stream with
    | .short => some ⟨.io, written⟩
    | .eof => some ⟨.ok, written⟩
    | .negative => none
    | .block buf rest => do
      let d' ← decodeBlock blockSize buf d
      let written := written ++ segment d'.data0 d.data (d'.data - d.data)
      decompressLoop fuel ⟨d'.data0, if d'.data = blockSize then 0 else d'.data⟩ rest written

/-- `rep_decompress` on a window with initial contents `mem`; the size of the window is read from
the stream. -/
def repDecompress (fuel : ℕ) (mem : ℕ → UInt8) (stream : List UInt8) : Option Outcome :=
  match takeExact 4 stream with
  | none => some ⟨.io, []⟩
  | some (word, stream) => decompressLoop (leValue word) fuel ⟨mem, 0⟩ stream []

end DArc.Rep
