import Mathlib
import DArc.Compression.Common
import DArc.Environment.CRC

/-!
# Extraction of a solid block by unarc

The files of a solid block lie one behind the other in the stream that the decompressor writes.
`ExtractFiles` goes over them twice: directories and empty files are made in the first pass, and in the
second the write callback cuts the stream into the others.  A file that is not accepted is skipped, and
its bytes are dropped.

### Outline

* `outfileOpen`, `outfileWrite`, `outfileClose`: the operations on the current output file;
* `writeLoop`, `callbackFunc`: one write of the decompressor;
* `firstPass`, `multiDecompress`, `extractFiles`: the two passes over the block.

The file on disk is addressed by its number in the directory block.  A decompressor is known by what it
writes and by the code it returns; it may or may not stop when a write returns an error code.
-/

namespace DArc.Unarc

open DArc.Environment

/-! ## The directory and the command -/

/-- What the directory block holds of a file. -/
structure Entry where
  size : ℕ
  isdir : Bool
  crc : CRC
  deriving DecidableEq

/-- A solid block: the files of the directory from `blockStart` on, up to `blockEnd`. -/
structure Block where
  dir : ℕ → Entry
  blockStart : ℕ
  blockEnd : ℕ
  ordered : blockStart ≤ blockEnd

/-- Extraction without and with path names, and the test of an archive. -/
inductive Cmd
  | e
  | x
  | t
  deriving DecidableEq

/-- What comes of the check for an existing file. -/
inductive Overwrite
  | write
  | skip
  | quit
  deriving DecidableEq

/-- The command: which files it accepts, and what comes of an output file that exists already, by the
options or by the answer of the user.  A file that does not exist is written. -/
structure Command where
  cmd : Cmd
  acceptFile : ℕ → Bool
  overwrite : ℕ → Overwrite

/-- The reasons for `quit`. -/
inductive Failure
  | userQuit
  | failedCRC (i : ℕ)
  | fileWrite
  | unsupportedMethod
  | decompressionFails
  deriving DecidableEq

/-- What was made on disk for a file of the archive. -/
inductive Output
  | directory
  | file (bytes : List UInt8)
  deriving DecidableEq

/-! ## The current output file -/

/-- The state of the output. -/
structure Outfile where
  included : Bool
  bytesToWrite : ℕ
  crc : CRC
  disk : ℕ → Option Output

/-- Nothing was written yet. -/
def Outfile.start : Outfile :=
  { included := false, bytesToWrite := 0, crc := initCRC, disk := fun _ => none }

/-- Makes `o` of the file `curfile`. -/
def Outfile.put (out : Outfile) (curfile : ℕ) (o : Output) : Outfile :=
  { out with disk := Function.update out.disk curfile (some o) }

/-- The first pass takes directories and empty files, the second pass the others. -/
inductive Pass
  | first
  | second
  deriving DecidableEq

/-- Opens the output file `curfile`. -/
def outfileOpen (dir : ℕ → Entry) (command : Command) (pass : Pass) (curfile : ℕ) (out : Outfile) :
    Except Failure Outfile :=
  let out := { out with crc := initCRC, bytesToWrite := (dir curfile).size }
  if pass = .second ∧ out.bytesToWrite = 0 then
    .ok out
  else
    let out := { out with included := command.acceptFile curfile }
    if out.included = true ∧ command.cmd ≠ .t then
      if (dir curfile).isdir then
        .ok (if command.cmd ≠ .e then out.put curfile .directory else out)
      else
        match command.overwrite curfile with
        | .write => .ok (out.put curfile (.file []))
        | .skip => .ok { out with included := false }
        | .quit => .error .userQuit
    else .ok out

/-- Writes to the output file.  For a directory no file is open, and the write fails. -/
def outfileWrite (command : Command) (curfile : ℕ) (buf : List UInt8) (out : Outfile) :
    Except Failure Outfile :=
  let out := { out with crc := updateCRC buf out.crc }
  if out.included = true ∧ command.cmd ≠ .t ∧ buf ≠ [] then
    match out.disk curfile with
    | some (.file bytes) => .ok (out.put curfile (.file (bytes ++ buf)))
    | _ => .error .fileWrite
  else .ok out

/-- Closes the output file. -/
def outfileClose (dir : ℕ → Entry) (curfile : ℕ) (out : Outfile) : Except Failure Outfile :=
  if out.included = true ∧ out.crc ^^^ initCRC ≠ (dir curfile).crc then
    .error (.failedCRC curfile)
  else .ok { out with included := false }

/-! ## The callback -/

/-- The state of the second pass. -/
structure Extraction where
  curfile : ℕ
  out : Outfile

/-- The loop of the write callback, over the files that the buffer reaches. -/
def writeLoop (dir : ℕ → Entry) (command : Command) (extractUntil origsize curfile : ℕ) (out : Outfile)
    (buf : List UInt8) : Except Failure (Extraction × Int) :=
  if buf = [] then
    .ok (⟨curfile, out⟩, origsize)
  else
    let n := min out.bytesToWrite buf.length
    let left := out.bytesToWrite - n
    do
      let out ← outfileWrite command curfile (buf.take n) out
      let out := { out with bytesToWrite := left }
      if left = 0 then
        let out ← outfileClose dir curfile out
        if extractUntil < curfile + 1 then
          return (⟨curfile + 1, out⟩, ErrCode.noMoreDataRequired.toInt)
        else
          let out ← outfileOpen dir command .second (curfile + 1) out
          writeLoop dir command extractUntil origsize (curfile + 1) out (buf.drop n)
      else
        writeLoop dir command extractUntil origsize curfile out (buf.drop n)
termination_by (extractUntil + 1 - curfile, buf.length)
decreasing_by
  · apply Prod.Lex.left
    omega
  · apply Prod.Lex.right
    have hlen : buf.length ≠ 0 := by simpa using ‹¬ buf = []›
    rw [List.length_drop]
    omega

/-- The write callback. -/
def callbackFunc (dir : ℕ → Entry) (command : Command) (extractUntil : ℕ) (buf : List UInt8)
    (st : Extraction) : Except Failure (Extraction × Int) :=
  if extractUntil < st.curfile then
    .ok (st, ErrCode.noMoreDataRequired.toInt)
  else writeLoop dir command extractUntil buf.length st.curfile st.out buf

/-! ## The passes -/

/-- The directories and empty files, and the last file the stream is needed for. -/
def firstPass (dir : ℕ → Entry) (command : Command) :
    List ℕ → Outfile → Option ℕ → Except Failure (Outfile × Option ℕ)
  | [], out, extractUntil => .ok (out, extractUntil)
  | curfile :: files, out, extractUntil =>
    if command.acceptFile curfile then
      if (dir curfile).size = 0 then do
        let out ← outfileOpen dir command .first curfile out
        let out ← outfileClose dir curfile out
        firstPass dir command files out extractUntil
      else firstPass dir command files out (some curfile)
    else firstPass dir command files out extractUntil

/-- A decompressor: the buffers it writes, and its return code. -/
structure Decompressor where
  writes : List (List UInt8)
  result : Int

/-- The writes of the decompressor, one after the other. -/
def multiDecompress (dir : ℕ → Entry) (command : Command) (extractUntil : ℕ) :
    List (List UInt8) → Extraction → Except Failure Extraction
  | [], st => .ok st
  | buf :: writes, st => do
    let (st, _) ← callbackFunc dir command extractUntil buf st
    multiDecompress dir command extractUntil writes st

/-- What is checked of the return code of the decompressor. -/
def checkResult (result : Int) : Except Failure Unit :=
  if result = ErrCode.invalidCompressor.toInt then .error .unsupportedMethod
  else if 0 ≤ result ∨ result = ErrCode.noMoreDataRequired.toInt then .ok ()
  else .error .decompressionFails

/-- Extracts or tests the files of a solid block. -/
def extractFiles (b : Block) (command : Command) (d : Decompressor) : Except Failure Outfile := do
  let (out, extractUntil) ← firstPass b.dir command
    (List.range' b.blockStart (b.blockEnd - b.blockStart)) .start none
  match extractUntil with
  | none => return out
  | some extractUntil =>
    let out ← outfileOpen b.dir command .second b.blockStart out
    let st ← multiDecompress b.dir command extractUntil d.writes ⟨b.blockStart, out⟩
    checkResult d.result
    outfileClose b.dir st.curfile st.out

end DArc.Unarc
