import DArc.Archive.Footer
import DArc.Environment.CRC
import DArc.Recovery.Memory

/-!
# Recovery records

`writeRecoveryBlocks` protects a range of the archive by two blocks: recovery sectors, each of which is the
sum of the sectors of the range that are dealt to it, and the CRCs of all sectors.  `scanArchive` adds the
sectors of the archive to the recovery sectors once more and compares the CRCs, and `runArchiveRecovery`
writes a copy of the archive in which the damaged sectors are restored.

### Outline

* `writeRecoveryBlocks`: the contents of the two blocks;
* `readControlInfo`, `scanArchive`: the list of damaged sectors, and what is left in the recovery sectors;
* `runArchiveRecovery`: the fixed archive.

Recovery blocks are stored without compression.  An exception is `none`.
-/

namespace DArc.Recovery

open DArc.Archive DArc.Environment

/-! ## Writing -/

/-- The method of blocks that are not compressed. -/
def aNoCompression : List Str := [[115, 116, 111, 114, 105, 110, 103]]

/-- The versions of recovery records that can be read, `0.36` and `0.39`. -/
def aRecVersions : List Str := [[48, 46, 51, 54], [48, 46, 51, 57]]

/-- The version of a record, which depends on the number of recovery sectors. -/
def aRecVersion (recSectors : ℕ) : Str :=
  if recSectors = 0 then [48, 46, 51, 57] else [48, 46, 51, 54]

/-- The recovery sector for the first sector of the range, so that the last one falls on the last. -/
def firstIdx (arcSectors recSectors : ℕ) : ℕ := (-(arcSectors : Int) % recSectors).toNat

/-- Adds a sector of the archive to the recovery sector `idx`. -/
def xorInto (ss idx : ℕ) (recovery buf : List UInt8) : List UInt8 :=
  recovery.take (idx * ss) ++ memxor (recovery.drop (idx * ss)) buf buf.length

/-- The state of the loop over the archive. -/
structure Protection where
  idx : ℕ
  crcStream : List UInt8
  recovery : List UInt8

/-- One sector of the archive. -/
def protectSector (ss recSectors : ℕ) (buf : List UInt8) (st : Protection) : Option Protection := do
  let crc ← writeStorable (k := 4) (calcCRC buf)
  let st := { st with crcStream := st.crcStream ++ crc }
  if 0 < recSectors then
    return { st with
      idx := (st.idx + 1) % recSectors
      recovery := xorInto ss st.idx st.recovery buf }
  else return st

/-- What the second block begins with: version, size and offset of the range, size and number of the
recovery sectors. -/
def writeControlInfo (recSectors : ℕ) (arcsize offset : Int) (ss : ℕ) : Option (List UInt8) :=
  joinAll [writeString (aRecVersion recSectors), writeInteger arcsize, writeInteger offset,
    writeCounted (fun p : Int × Int => joinAll [writeInteger p.1, writeInteger p.2])
      [((ss : Int), (recSectors : Int))]]

/-- The contents of the two recovery blocks for the range of the archive, when the second block is at
`offset` from the beginning of the range. -/
def writeRecoveryBlocks (range : List UInt8) (offset : Int) (ss recSectors : ℕ) :
    Option (List UInt8 × List UInt8) := do
  let arcSectors := divRoundUp range.length ss
  let (_, st) ← doChunks range.length ss (reading (protectSector ss recSectors))
    (range, { idx := firstIdx arcSectors recSectors, crcStream := [],
              recovery := List.replicate (recSectors * ss) 0 })
  let recoveryCRCs ← encodeAll (writeStorable (k := 4))
    ((List.range recSectors).map fun i => calcCRC (sector ss st.recovery i))
  let info ← writeControlInfo recSectors range.length offset ss
  return (st.recovery, info ++ (st.crcStream ++ recoveryCRCs))

/-! ## Scanning -/

/-- Reads the bytes of the archive from `pos` on. -/
def readAt (file : List UInt8) (pos size : Int) : List UInt8 := (file.drop pos.toNat).take size.toNat

/-- The contents of a block, with the check of the CRC. -/
def archiveBlockReadAll (file : List UInt8) (b : ArchiveBlock) : Option (List UInt8) :=
  let buf := readAt file b.blPos b.blOrigSize
  if calcCRC buf = b.blCRC then some buf else none

/-- The contents of a block without the check. -/
def archiveBlockReadUnchecked (file : List UInt8) (b : ArchiveBlock) : Option (List UInt8) :=
  if b.blCompressor = aNoCompression then some (readAt file b.blPos b.blOrigSize) else none

/-- What the second block begins with: position and size of the range, size and number of the recovery
sectors. -/
structure ControlInfo where
  initPos : Int
  arcsize : ℕ
  sectorSize : ℕ
  recSectors : ℕ
  deriving DecidableEq

/-- Reads a pair of numbers. -/
def readPair : Decoder UInt8 (Int × Int) := fun s => do
  let (a, s) ← readInteger s
  let (b, s) ← readInteger s
  return ((a, b), s)

/-- Reads the beginning of the second block; `none` is a version that is not known. -/
def readControlInfo (crcsBlock : ArchiveBlock) : Decoder UInt8 (Option ControlInfo) := fun s => do
  let (version, s) ← readString s
  if version ∉ aRecVersions then return (none, s)
  else
    let ((arcsize, offset), s) ← readPair s
    let (pairs, s) ← readCounted readPair s
    let (ss, recSectors) ← pairs.head?
    return (some { initPos := crcsBlock.blPos - offset, arcsize := arcsize.toNat,
                   sectorSize := ss.toNat, recSectors := recSectors.toNat }, s)

/-- The state of the loop over the archive. -/
structure Scan where
  idx : ℕ
  n : ℕ
  crcStream : List UInt8
  recovery : List UInt8
  badCrcs : List ℕ

/-- One sector of the archive. -/
def scanSector (recovery : Bool) (ss recSectors : ℕ) (buf : List UInt8) (st : Scan) : Option Scan := do
  let st := if recovery = true ∧ 0 < recSectors then
      { st with
        idx := (st.idx + 1) % recSectors
        recovery := xorInto ss st.idx st.recovery buf }
    else st
  let (originalCRC, crcStream) ← readStorable 4 st.crcStream
  let st := { st with n := st.n + 1, crcStream }
  if calcCRC buf ≠ originalCRC then
    return { st with badCrcs := st.badCrcs ++ [st.n - 1] }
  else return st

/-- What `scanArchive` returns. -/
structure Scanned where
  crcsBlock : ArchiveBlock
  crcStream : List UInt8
  recovery : List UInt8
  sectorSize : ℕ
  badCrcs : List ℕ

/-- Compares the sectors of the archive with their CRCs; the result `some none` is an archive without a
record that can be read. -/
def scanArchive (file : List UInt8) (ftBlocks : List ArchiveBlock) (recovery : Bool) :
    Option (Option Scanned) :=
  match ftBlocks.filter (fun b => b.blType = .recoveryBlock) with
  | sectorsBlock :: crcsBlock :: _ => do
    let recoverySectors ← if recovery then archiveBlockReadUnchecked file sectorsBlock else some []
    let crcbuf ← archiveBlockReadAll file crcsBlock
    let (info, crcStream) ← readControlInfo crcsBlock crcbuf
    match info with
    | none => return none
    | some info =>
      let arcSectors := divRoundUp info.arcsize info.sectorSize
      let (_, st) ← doChunks info.arcsize info.sectorSize
        (reading (scanSector recovery info.sectorSize info.recSectors))
        (file.drop info.initPos.toNat,
          { idx := firstIdx arcSectors info.recSectors, n := 0, crcStream,
            recovery := recoverySectors, badCrcs := [] })
      return some { crcsBlock, crcStream := crcbuf, recovery := st.recovery,
                    sectorSize := info.sectorSize, badCrcs := st.badCrcs }
  | _ => some none

/-! ## Recovery -/

/-- `sort_and_groupOn`. -/
def sortAndGroupOn (f : ℕ → ℕ) (xs : List ℕ) : List (List ℕ) :=
  (xs.mergeSort fun a b => f a ≤ f b).splitBy fun a b => f a = f b

/-- The sectors that can be recovered, and those that share a recovery sector. -/
def recoverable (recSectors : ℕ) (badCrcs : List ℕ) : List ℕ × List ℕ :=
  if recSectors = 0 then ([], badCrcs)
  else
    let groups := sortAndGroupOn (· % recSectors) badCrcs
    let (single, shared) := groups.partition fun g => g.tail.isEmpty
    (single.flatten, shared.flatten)

/-- The archive given with `--original`. -/
inductive Original
  | notGiven
  | notOpened
  | opened (file : List UInt8)

/-- The state of the loop that copies the archive. -/
structure Copy where
  idx : ℕ
  n : ℕ
  crcStream : List UInt8
  output : List UInt8
  errors : List ℕ

/-- Restores the sector from the recovery sector, unless the CRC shows that this is wrong. -/
def restoreSector (recovery : List UInt8) (ss : ℕ) (toRecover : List ℕ) (idx n : ℕ) (originalCRC : CRC)
    (buf : List UInt8) (errors : List ℕ) : List UInt8 × List ℕ :=
  if n ∈ toRecover then
    let src := recovery.drop (idx * ss)
    let fixed := memxor buf src buf.length
    if calcCRC fixed ≠ originalCRC then (memxor fixed src buf.length, n :: errors) else (fixed, errors)
  else (buf, errors)

/-- Takes a sector that cannot be restored from the original. -/
def downloadSector (original : Original) (archiveFullSize : ℕ) (pos : Int) (n : ℕ) (originalCRC : CRC)
    (buf : List UInt8) (errors : List ℕ) : List UInt8 × List ℕ :=
  match original with
  | .opened file =>
    if n ∈ errors ∧ file.length = archiveFullSize then
      let temp := readAt file pos buf.length
      if calcCRC temp = originalCRC then (temp, errors.erase n) else (buf, errors)
    else (buf, errors)
  | _ => (buf, errors)

/-- One sector of the archive. -/
def copySector (recovery : List UInt8) (info : ControlInfo) (original : Original) (archiveFullSize : ℕ)
    (toRecover : List ℕ) (buf : List UInt8) (st : Copy) : Option Copy := do
  let (originalCRC, crcStream) ← readStorable 4 st.crcStream
  let (buf, errors) := restoreSector recovery info.sectorSize toRecover st.idx st.n originalCRC buf
    st.errors
  let (buf, errors) := downloadSector original archiveFullSize
    (st.n * info.sectorSize + info.initPos) st.n originalCRC buf errors
  return { idx := if 0 < info.recSectors then (st.idx + 1) % info.recSectors else st.idx
           n := st.n + 1
           crcStream
           output := st.output ++ buf
           errors }

/-- What `runArchiveRecovery` comes to.  In the last case `output` was written, and the sectors `errors`
remain damaged. -/
inductive Outcome
  | cantBeRecovered
  | archiveOk
  | nothingRestored (badSectors : List ℕ)
  | recovered (output : List UInt8) (errors : List ℕ)
  deriving DecidableEq

/-- Recovers an archive with the blocks `ftBlocks`; `sfx` is what `writeSFX` begins the new archive with. -/
def runArchiveRecovery (file : List UInt8) (ftBlocks : List ArchiveBlock) (sfx : List UInt8)
    (original : Original) : Option Outcome := do
  match ← scanArchive file ftBlocks true with
  | none => return .cantBeRecovered
  | some scanned =>
    if scanned.badCrcs = [] then return .archiveOk
    else
      let (info, crcStream) ← readControlInfo scanned.crcsBlock scanned.crcStream
      let info ← info
      let (toRecover, bad) := recoverable info.recSectors scanned.badCrcs
      match toRecover, original with
      | [], .notGiven => return .nothingRestored bad
      | _, _ =>
        let arcSectors := divRoundUp info.arcsize info.sectorSize
        let (rest, st) ← doChunks info.arcsize info.sectorSize
          (reading (copySector scanned.recovery info original file.length toRecover))
          (file.drop info.initPos.toNat,
            { idx := firstIdx arcSectors info.recSectors, n := 0, crcStream, output := sfx,
              errors := bad })
        return .recovered (st.output ++ rest) st.errors

end DArc.Recovery
