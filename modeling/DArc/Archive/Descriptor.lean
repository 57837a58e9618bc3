import DArc.Archive.Footer
import DArc.Compression.Common
import DArc.Environment.CRC

/-!
# Block descriptors, and the scan of a broken archive

A control block is followed by its descriptor: a signature, the fields of the block, and the CRC of all this.
`findBlocksInBrokenArchive` looks for descriptors from the end of the file, in chunks that begin at multiples
of `aHUGE_BUFFER_SIZE`, and goes on in front of each block that it finds.

### Outline

* `archiveWriteBlockDescriptor`, `archiveReadBlockDescriptor`: one descriptor;
* `archiveFindBlockDescriptor`: the last descriptor in a buffer;
* `Scan`, `scanStep`: a call of `scanArchiveSearchingDescriptors` or of `scanMem`, up to the next such call;
* `findBlocksInBrokenArchive`: the scan with fuel, since it need not end;
* `layout`: a file of control blocks with their descriptors, and other data between them.
-/

namespace DArc.Archive

open DArc.Environment (CRC calcCRC)

/-! ## Descriptors -/

/-- `aSIGNATURE`, `ArC` and a byte 1. -/
def signature : BitVec (8 * 4) := 0x01437241

/-- `aSCAN_MAX`. -/
def scanMax : ℕ := 4096

/-- `aHUGE_BUFFER_SIZE`. -/
def hugeBufferSize : ℕ := 8 * mb

/-- The errors of a broken archive. -/
inductive ArchiveError
  /-- 0354: the block descriptor at this position is corrupted. -/
  | corruptedDescriptor (arcpos : ℕ)
  /-- 0355: the block is corrupted. -/
  | corruptedBlock (b : ArchiveBlock)
  /-- 0356: the archive directory was not found. -/
  | directoryNotFound
  /-- 0357: the archive signature was not found at the end of the archive. -/
  | signatureNotFound

/-- What is written in front of the CRC of the descriptor. -/
def writeDescriptor (b : ArchiveBlock) : Option (List UInt8) :=
  joinAll [writeStorable signature, writeBlockType b.blType, writeCompressor b.blCompressor,
    writeInteger b.blOrigSize, writeInteger b.blCompSize, writeStorable b.blCRC]

/-- `archiveWriteBlockDescriptor`. -/
def archiveWriteBlockDescriptor (b : ArchiveBlock) : Option (List UInt8) :=
  (writeDescriptor b).map fun d => d ++ leBytes 4 (calcCRC d).toNat

/-- The fields of a descriptor. -/
structure Descriptor where
  sign : BitVec (8 * 4)
  blockType : BlockType
  compressor : List Str
  origSize : Int
  compSize : Int
  crc : BitVec (8 * 4)

/-- `ByteStream.readMemory` for the fields of a descriptor. -/
def readDescriptor : Decoder UInt8 Descriptor := fun s => do
  let (sign, s) ← readStorable 4 s
  let (blockType, s) ← readBlockType s
  let (compressor, s) ← readCompressor s
  let (origSize, s) ← readInteger s
  let (compSize, s) ← readInteger s
  let (crc, s) ← readStorable 4 s
  return ({ sign, blockType, compressor, origSize, compSize, crc }, s)

/-- The block in front of a descriptor at `arcpos`; `blFiles` is `undefined` there. -/
def Descriptor.block (isEncryption : Str → Bool) (arcpos : ℕ) (d : Descriptor) : ArchiveBlock :=
  { blType := d.blockType, blCompressor := d.compressor, blPos := arcpos - d.compSize,
    blOrigSize := d.origSize, blCompSize := d.compSize, blCRC := d.crc, blFiles := 0,
    blIsEncrypted := d.compressor.any isEncryption }

section

variable (isEncryption : Str → Bool)

/-- `archiveReadBlockDescriptor`, where `none` is the failure of `readMemory`. -/
def archiveReadBlockDescriptor (arcpos : ℕ) (buf : List UInt8) :
    Option (Except ArchiveError ArchiveBlock) :=
  let rightCrc := peek 4 (buf.drop (buf.length - 4))
  let descriptorCrc := calcCRC (buf.take (buf.length - 4))
  if descriptorCrc.toNat ≠ rightCrc then some (.error (.corruptedDescriptor arcpos))
  else
    match readDescriptor buf with
    | none => none
    | some (d, _) =>
      let block := d.block isEncryption arcpos
      if d.sign ≠ signature ∨ block.blPos < 0 then some (.error (.corruptedBlock block))
      else some (.ok block)

/-- `go` in `archiveFindBlockDescriptor`, from below the position on. -/
def findFrom (basePos : ℕ) (buf : List UInt8) :
    ℕ → ArchiveError → Option (Except ArchiveError ArchiveBlock)
  | 0, err => some (.error err)
  | pos + 1, err =>
    if peek 4 (buf.drop pos) = signature.toNat then
      match archiveReadBlockDescriptor isEncryption (basePos + pos) (buf.drop pos) with
      | none => none
      | some (.error err) => findFrom basePos buf pos err
      | some (.ok block) => some (.ok block)
    else findFrom basePos buf pos err

/-- `archiveFindBlockDescriptor`. -/
def archiveFindBlockDescriptor (basePos : ℕ) (buf : List UInt8) (size len : ℕ) :
    Option (Except ArchiveError ArchiveBlock) :=
  findFrom isEncryption basePos (buf.take size) (max (size - 4) (len - 1) + 1) .signatureNotFound

/-! ## The scan -/

/-- A call of `scanArchiveSearchingDescriptors` or of `scanMem`. -/
inductive Scan
  | archive (pos : ℕ)
  | mem (basePos : ℕ) (buf : List UInt8) (len : ℕ)

/-- How a call goes on. -/
inductive Scanned
  | failed
  | finished
  /-- A block was found, or none, and this is the next call. -/
  | next (found : Option ArchiveBlock) (s : Scan)

/-- The position in front of `pos` at which a chunk begins. -/
def basePos (pos : ℕ) : ℕ := (pos - 1) / hugeBufferSize * hugeBufferSize

/-- What `archiveReadBuf` reads in front of `pos` and `aSCAN_MAX` bytes behind it. -/
def readBuf (file : List UInt8) (pos : ℕ) : List UInt8 :=
  (file.drop (basePos pos)).take (pos - basePos pos + scanMax)

/-- A call, up to the next one. -/
def scanStep (file : List UInt8) : Scan → Scanned
  | .archive pos =>
    if 0 < pos then
      let data := readBuf file pos
      .next none (.mem (basePos pos) (data ++ List.replicate scanMax 0)
        (min (pos - basePos pos) data.length))
    else .finished
  | .mem basePos buf len =>
    match archiveFindBlockDescriptor isEncryption basePos buf (len + scanMax) len with
    | none => .failed
    | some (.error _) => .next none (.archive basePos)
    | some (.ok block) =>
      .next (some block)
        (if basePos < block.blPos then .mem basePos buf (block.blPos - basePos).toNat
        else .archive block.blPos.toNat)

/-- The blocks that the scan finds one after another, with fuel; `some none` is a failure. -/
def scanArchive (file : List UInt8) : ℕ → Scan → Option (Option (List ArchiveBlock))
  | 0, _ => none
  | fuel + 1, s =>
    match scanStep isEncryption file s with
    | .failed => some none
    | .finished => some (some [])
    | .next found s => (scanArchive file fuel s).map fun r => r.map fun bs => found.toList ++ bs

/-- The smallest of the positions of the blocks. -/
def minimumPos : List ArchiveBlock → Int
  | [] => 0
  | [b] => b.blPos
  | b :: bs => min b.blPos (minimumPos bs)

/-- `findBlocksInBrokenArchive`. -/
def findBlocksInBrokenArchive (file : List UInt8) (fuel : ℕ) :
    Option (Option (Except ArchiveError FooterBlock)) :=
  (scanArchive isEncryption file fuel (.archive file.length)).map fun r => r.map fun blocks =>
    if blocks = [] then .error .directoryNotFound
    else .ok
      { ftBlocks := blocks.reverse, ftLocked := false, ftComment := [], ftRecovery := [],
        ftSFXSize := minimumPos blocks }

/-! ## Files -/

/-- A part of a file: other data, or a control block with its data and the fields of its descriptor. -/
inductive Item
  | data (bytes : List UInt8)
  | control (bytes : List UInt8) (blockType : BlockType) (compressor : List Str) (origSize : Int)
      (crc : BitVec (8 * 4))

/-- The control block at `pos`. -/
def controlBlock (pos : ℕ) (bytes : List UInt8) (blockType : BlockType) (compressor : List Str)
    (origSize : Int) (crc : BitVec (8 * 4)) : ArchiveBlock :=
  { blType := blockType, blCompressor := compressor, blPos := pos, blOrigSize := origSize,
    blCompSize := bytes.length, blCRC := crc, blFiles := 0,
    blIsEncrypted := compressor.any isEncryption }

/-- The file of the items from `pos` on, and its control blocks. -/
def layout (pos : ℕ) : List Item → Option (List UInt8 × List ArchiveBlock)
  | [] => some ([], [])
  | .data bytes :: items => do
    let (file, blocks) ← layout (pos + bytes.length) items
    return (bytes ++ file, blocks)
  | .control bytes blockType compressor origSize crc :: items => do
    let block := controlBlock isEncryption pos bytes blockType compressor origSize crc
    let descriptor ← archiveWriteBlockDescriptor block
    let (file, blocks) ← layout (pos + bytes.length + descriptor.length) items
    return (bytes ++ descriptor ++ file, block :: blocks)

end

end DArc.Archive
