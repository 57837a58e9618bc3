import DArc.Compression.Common

/-!
# The decompression process

`decompressProcess` answers requests for files, one after another.  A file lies at a position of the
decompressed stream of a block, and the process goes through the stream of the block in which the file
lies: `decompressStep` takes a buffer of the stream, skips what is in front of the file and delivers what
belongs to it.  A block is decompressed again from its beginning when the next file is not ahead in it.

### Outline

* `Request`, `Event` and `Process`: what is asked for, what is sent back, and the state;
* `decompressStep`: a buffer of the stream;
* `decompressBlock`: a run of the decompressor, that is, of the whole chain of methods of a block;
* `turn`: a round of the loop of `decompressProcess`.

The decompressors are a parameter: `written n block start` are the buffers that the decompressor writes
which was started as the `n`-th one, for a block and from a position of its stream, and `code block` is
what it ends with when it wrote all of them.
-/

namespace DArc.Extract

variable {β : Type}

/-- A file that is asked for, `CompressedFile`. -/
structure Request (β : Type) where
  /-- `cfArcBlock`: the block with the file, as `==` compares blocks, by archive and position. -/
  block : β
  /-- `cfPos`: where the file begins in the stream of the block. -/
  pos : Int
  /-- `fiSize`. -/
  size : Int

/-- What the process sends back. -/
inductive Event where
  /-- Bytes of the file. -/
  | data (bytes : List UInt8)
  /-- The end of the file: `aFREEARC_ERRCODE_NO_MORE_DATA_REQUIRED`. -/
  | endOfData
  /-- Decompression has failed: `aFREEARC_ERRCODE_OPERATION_TERMINATED`. -/
  | terminated
  deriving DecidableEq

/-- `aStopDecompressThread`. -/
def stopDecompressThread : Int := -99

/-- The state of the process. -/
structure Process (β : Type) where
  /-- `cfile`: the file that was asked for last; `none` stands for an undefined one. -/
  cfile : Option (Request β)
  /-- The position of the next buffer in the stream of the block, or a negative mark. -/
  blockPos : Int
  /-- Where the rest of the file begins, `0` when it is undefined. -/
  pos : Int
  /-- The size of the rest of the file, `0` when it is undefined. -/
  size : Int
  /-- The requests to come; `Nothing` comes behind them. -/
  requests : List (Request β)
  /-- What was sent back. -/
  out : List Event
  /-- `operationTerminated`. -/
  operationTerminated : Bool
  /-- How many decompressors were started. -/
  started : ℕ

/-- The decompressors of the blocks. -/
structure Decoders (β : Type) where
  /-- Whether the block is stored without compression: `compressor==aNO_COMPRESSION`. -/
  storing : β → Bool
  /-- The buffers that a decompressor writes. -/
  written : ℕ → β → Int → List (List UInt8)
  /-- What it ends with when it wrote all of them. -/
  code : β → Int

/-- The test of `decompressFile`, which asks for a file only if it is neither empty nor `fake`. -/
def decompressFile (fake : β → Bool) (r : Request β) : Bool := 0 < r.size && !fake r.block

variable [DecidableEq β]

/-- `decompressStep`, for the buffer `buf` and the requests to come: the result of the write, and the
process behind it. -/
def decompressStep (d : Decoders β) (buf : List UInt8) :
    List (Request β) → Process β → Int × Process β
  | requests, p =>
    if p.blockPos < 0 then (ErrCode.noMoreDataRequired.toInt, { p with requests := requests })
    else
      let len : Int := buf.length
      let skipBytes := min (p.pos - p.blockPos) len
      let dataSize := min p.size (len - skipBytes)
      let blockEnd := p.blockPos + len
      let sent := if 0 < dataSize then [Event.data ((buf.drop skipBytes.toNat).take dataSize.toNat)]
        else []
      if dataSize < p.size then
        (len, { p with blockPos := blockEnd, pos := p.pos + dataSize, size := p.size - dataSize,
                       requests := requests, out := p.out ++ sent })
      else
        let out := p.out ++ sent ++ [.endOfData]
        match requests with
        | [] =>
          (ErrCode.noMoreDataRequired.toInt,
            { p with cfile := none, blockPos := stopDecompressThread, pos := 0, size := 0,
                     requests := [], out := out })
        | r :: requests =>
          if p.cfile.map Request.block ≠ some r.block ∨ r.pos < p.blockPos ∨
              blockEnd < r.pos ∧ d.storing r.block then
            (ErrCode.noMoreDataRequired.toInt,
              { p with cfile := some r, blockPos := -1, pos := 0, size := 0, requests := requests,
                       out := out })
          else
            decompressStep d buf requests
              { p with cfile := some r, pos := r.pos, size := r.size, out := out }

/-- A decompressor writes its buffers, until a write is refused, and ends with the refusal or with
`code`. -/
def decompress (d : Decoders β) (code : Int) : List (List UInt8) → Process β → Int × Process β
  | [], p => (code, p)
  | buf :: bufs, p =>
    let (len, p) := decompressStep d buf p.requests p
    if len < 0 then (len, p) else decompress d code bufs p

/-- The results that are no errors. -/
def isOk (result : Int) : Bool :=
  result = ErrCode.ok.toInt || result = ErrCode.noMoreDataRequired.toInt

/-- `decompressBlock`. -/
def decompressBlock (d : Decoders β) (p : Process β) : Process β :=
  match p.cfile with
  | none => p
  | some r =>
    let startPos := if d.storing r.block then r.pos else 0
    let (result, p) := decompress d (d.code r.block) (d.written p.started r.block startPos)
      { p with blockPos := startPos, pos := r.pos, size := r.size, started := p.started + 1 }
    { p with operationTerminated := p.operationTerminated || !isOk result }

/-- The condition under which the loop of `decompressProcess` ends. -/
def Process.done (p : Process β) : Bool :=
  p.blockPos = stopDecompressThread || p.operationTerminated

/-- A round of the loop of `decompressProcess`, unless the loop has ended. -/
def turn (d : Decoders β) (p : Process β) : Process β :=
  if p.done then p
  else
    let p := decompressBlock d p
    if p.operationTerminated then { p with out := p.out ++ [.terminated] } else p

/-- `decompressProcess` with the first of the requests. -/
def start : List (Request β) → Process β
  | [] =>
    { cfile := none, blockPos := stopDecompressThread, pos := 0, size := 0, requests := [], out := [],
      operationTerminated := false, started := 0 }
  | r :: requests =>
    { cfile := some r, blockPos := 0, pos := 0, size := 0, requests := requests, out := [],
      operationTerminated := false, started := 0 }

/-- The process after `n` rounds. -/
def decompressProcess (d : Decoders β) (requests : List (Request β)) (n : ℕ) : Process β :=
  (turn d)^[n] (start requests)

end DArc.Extract
