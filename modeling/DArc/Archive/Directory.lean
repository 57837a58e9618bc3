import DArc.Archive.Paths

/-!
# The directory block of an archive

`archiveWriteDir` writes the data blocks and the files of an archive column by column, with a table
of the directories in which the files lie, and `archiveReadDir` puts the columns together again.

### Outline

* the names of files (`PackedFilePath`), files and blocks;
* `enumDirectories`: the table of directories and the number of the directory of each file;
* `Columns`: what is written and read, `writeColumns` and `readColumns`;
* `archiveWriteDir` and `archiveReadDir`.

The size `w` of a `CTime` and the predicate `isEncryption` are parameters.  `none` stands for a call
that ends with an exception.
-/

namespace DArc.Archive

/-! ## File names -/

/-- `PackedFilePath`: a directory, a name in it, a hash, and the directory as a path of its own. -/
inductive PackedFilePath where
  | packed (directory basename : Str) (hash : UInt32) (parent : PackedFilePath)
  | rootDir
  deriving DecidableEq

namespace PackedFilePath

/-- `fpDirectory`. -/
def fpDirectory : PackedFilePath → Option Str
  | packed d _ _ _ => some d
  | rootDir => none

/-- `fpBasename`. -/
def fpBasename : PackedFilePath → Option Str
  | packed _ b _ _ => some b
  | rootDir => none

/-- `fpHash`. -/
def fpHash : PackedFilePath → Option UInt32
  | packed _ _ h _ => some h
  | rootDir => none

/-- `fpParent`. -/
def fpParent : PackedFilePath → Option PackedFilePath
  | packed _ _ _ p => some p
  | rootDir => none

/-- `fpFullname`. -/
def fpFullname (win : Bool) (fp : PackedFilePath) : Option Str := do
  return combine win (← fp.fpDirectory) (← fp.fpBasename)

/-- `fpPackedFullname`. -/
def fpPackedFullname (win : Bool) (fp : PackedFilePath) : Option Str := do
  if (← fp.fpDirectory) = [] then fp.fpBasename else fp.fpFullname win

/-- `(==)` on `PackedFilePath`. -/
def beq : PackedFilePath → PackedFilePath → Option Bool
  | packed d b h _, packed d' b' h' _ => some (decide (h = h' ∧ b = b' ∧ d = d'))
  | _, _ => none

end PackedFilePath

/-- `filenameHash`. -/
def filenameHash (dirhash : UInt32) (basename : Str) : UInt32 :=
  basename.foldl (fun h c => h * 37 + UInt32.ofNat c.val) dirhash

/-- `packFilePathPacked2`. -/
def packFilePathPacked2 (parent : PackedFilePath) (dir name : Str) : Option PackedFilePath := do
  return .packed dir name (filenameHash (← parent.fpHash) name) parent

/-- `packParentDirPath`. -/
def packParentDirPath (win : Bool) (dir : Str) : PackedFilePath :=
  .packed [] dir (filenameHash 0 (dir.filter fun c => !isPathSeparator win c)) .rootDir

/-! ## Files and blocks -/

/-- `FileInfo`. -/
structure FileInfo (w : ℕ) where
  /-- The name that is compared with the names in the command line. -/
  fiFilteredName : PackedFilePath
  /-- The name on the disk. -/
  fiDiskName : PackedFilePath
  /-- The name in the archive. -/
  fiStoredName : PackedFilePath
  /-- The size. -/
  fiSize : Int
  /-- The time of the last modification. -/
  fiTime : BitVec (8 * w)
  /-- The attributes. -/
  fiAttr : UInt32
  /-- Whether the file is a directory. -/
  fiIsDir : Bool
  /-- The number of a group in `arc.groups`. -/
  fiGroup : Int
  deriving DecidableEq

/-- `aMINIMAL_POSSIBLE_DATETIME`. -/
def minimalPossibleDatetime (w : ℕ) : BitVec (8 * w) := 0

/-- `fiUndefinedGroup`. -/
def fiUndefinedGroup : Int := -1

/-- `BlockType`. -/
inductive BlockType where
  | descrBlock | headerBlock | dataBlock | dirBlock | footerBlock | recoveryBlock
  | unknownBlock | unknownBlock2 | unknownBlock3
  deriving DecidableEq

/-- `ArchiveBlock`. -/
structure ArchiveBlock where
  /-- The kind of the block. -/
  blType : BlockType
  /-- The compression methods. -/
  blCompressor : List Str
  /-- The position in the archive. -/
  blPos : Int
  /-- The size of the data. -/
  blOrigSize : Int
  /-- The size of the compressed data. -/
  blCompSize : Int
  /-- The CRC of the data, in service blocks. -/
  blCRC : BitVec (8 * 4)
  /-- The number of files, in data blocks. -/
  blFiles : ℕ
  /-- Whether the block is encrypted. -/
  blIsEncrypted : Bool
  deriving DecidableEq

/-- `FileWithCRC`. -/
structure FileWithCRC (w : ℕ) where
  /-- The CRC of the data. -/
  fwCRC : BitVec (8 * 4)
  /-- The file. -/
  fwFileInfo : FileInfo w

/-- `CompressedFile`. -/
structure CompressedFile (w : ℕ) where
  /-- The file. -/
  cfFileInfo : FileInfo w
  /-- The block with its data. -/
  cfArcBlock : ArchiveBlock
  /-- Where its data begin in the block. -/
  cfPos : Int
  /-- The CRC of the data. -/
  cfCRC : BitVec (8 * 4)
  deriving DecidableEq

/-- `tupleToDataBlock`. -/
def tupleToDataBlock (isEncryption : Str → Bool) (arcpos : Int) (c : List Str) (p o s : Int) (f : ℕ) :
    ArchiveBlock :=
  { blType := .dataBlock, blCompressor := c, blPos := arcpos - p, blOrigSize := o, blCompSize := s,
    blCRC := 0, blFiles := f, blIsEncrypted := c.any isEncryption }

/-! ## The table of directories -/

/-- `Hash.lookup`: the newest entry whose key is equal to `key`. -/
def lookup (key : PackedFilePath) : List (PackedFilePath × ℕ) → Option (Option ℕ)
  | [] => some none
  | (k, v) :: rest => do
    if ← key.beq k then return some v else lookup key rest

/-- The loop `go` of `enumDirectories`. -/
def enumFrom {w : ℕ} (table : List (PackedFilePath × ℕ)) :
    List (FileInfo w) → List Str → List ℕ → ℕ → Option (ℕ × List Str × List ℕ)
  | [], dirnames, dirNumbers, n => some (n, dirnames.reverse, dirNumbers.reverse)
  | fileinfo :: rest, dirnames, dirNumbers, n => do
    let dirname ← fileinfo.fiStoredName.fpParent
    match ← lookup dirname table with
    | none =>
      let directory ← fileinfo.fiStoredName.fpDirectory
      enumFrom ((dirname, n) :: table) rest (directory :: dirnames) (n :: dirNumbers) (n + 1)
    | some x => enumFrom table rest dirnames (x :: dirNumbers) n

/-- `enumDirectories`. -/
def enumDirectories {w : ℕ} (filelist : List (FileInfo w)) : Option (ℕ × List Str × List ℕ) :=
  enumFrom [] filelist [] [] 0

/-! ## Columns -/

/-- The columns of a directory block. -/
structure Columns (w : ℕ) where
  /-- The number of files of each block. -/
  numOfFiles : List ℕ
  /-- The compression methods of each block. -/
  blCompressors : List (List Str)
  /-- The distance of each block from the directory block. -/
  blOffsets : List Int
  /-- The compressed size of each block. -/
  blCompSizes : List Int
  /-- The directories. -/
  dirnames : List Str
  /-- The name of each file. -/
  names : List Str
  /-- The number of the directory of each file. -/
  dirNumbers : List ℕ
  /-- The size of each file. -/
  sizes : List Int
  /-- The time of each file. -/
  times : List (BitVec (8 * w))
  /-- Whether each file is a directory. -/
  dirFlags : List Bool
  /-- The CRC of each file. -/
  crcs : List (BitVec (8 * 4))

/-- `writeLength`, and `writeInteger` for an `Int`. -/
def writeLength (n : ℕ) : Option (List UInt8) := writeInteger n

/-- `readLength`. -/
def readLength : Decoder UInt8 ℕ := fun s => (readInteger s).map fun r => (r.1.toNat, r.2)

/-- The separator of compression methods. -/
def plus : Chr := 43

/-- `write` for `Compressor`, by `join_compressor`. -/
def writeCompressor (c : List Str) : Option (List UInt8) := writeString (joinWith [plus] c)

/-- `read` for `Compressor`, by `split_compressor`. -/
def readCompressor : Decoder UInt8 (List Str) := fun s =>
  (readString s).map fun r => (split plus r.1, r.2)

/-- `aTAG_END`. -/
def tagEnd : Int := 0

/-- The calls of `write` in `archiveWriteDir`. -/
def writeColumns {w : ℕ} (c : Columns w) : Option (List UInt8) :=
  joinAll [writeLength c.numOfFiles.length, encodeAll writeLength c.numOfFiles,
    encodeAll writeCompressor c.blCompressors, encodeAll writeInteger c.blOffsets,
    encodeAll writeInteger c.blCompSizes, writeLength c.dirnames.length,
    encodeAll writeString c.dirnames, encodeAll writeString c.names,
    encodeAll writeLength c.dirNumbers, encodeAll writeInteger c.sizes,
    encodeAll writeStorable c.times, encodeAll writeBool c.dirFlags,
    encodeAll writeStorable c.crcs, writeInteger tagEnd]

/-- The calls of `read` in `archiveReadDir`; what follows the last column is not read. -/
def readColumns (w : ℕ) (s : List UInt8) : Option (Columns w) := do
  let (numOfBlocks, s) ← readLength s
  let (numOfFiles, s) ← decodeMany readLength numOfBlocks s
  let (blCompressors, s) ← decodeMany readCompressor numOfBlocks s
  let (blOffsets, s) ← decodeMany readInteger numOfBlocks s
  let (blCompSizes, s) ← decodeMany readInteger numOfBlocks s
  let (totalDirs, s) ← readLength s
  let (dirnames, s) ← decodeMany readString totalDirs s
  let totalFiles := numOfFiles.sum
  let (names, s) ← decodeMany readString totalFiles s
  let (dirNumbers, s) ← decodeMany readLength totalFiles s
  let (sizes, s) ← decodeMany readInteger totalFiles s
  let (times, s) ← decodeMany (readStorable w) totalFiles s
  let (dirFlags, s) ← decodeMany readBool totalFiles s
  let (crcs, _) ← decodeMany (readStorable 4) totalFiles s
  return { numOfFiles, blCompressors, blOffsets, blCompSizes, dirnames, names, dirNumbers, sizes,
           times, dirFlags, crcs }

/-! ## Writing -/

/-- The files of all blocks. -/
def filesOf {w : ℕ} (dirdata : List (ArchiveBlock × List (FileWithCRC w))) : List (FileWithCRC w) :=
  (dirdata.map Prod.snd).flatten

/-- `archiveWriteDir`, where `nodates` is the option of that name. -/
def archiveWriteDir {w : ℕ} (nodates : Bool) (arcpos : Int)
    (dirdata : List (ArchiveBlock × List (FileWithCRC w))) : Option (List UInt8) := do
  let blocks := dirdata.map Prod.fst
  let crcfilelist := filesOf dirdata
  let filelist := crcfilelist.map FileWithCRC.fwFileInfo
  let (_, dirnames, dirNumbers) ← enumDirectories filelist
  let names ← filelist.mapM fun fi => fi.fiStoredName.fpBasename
  writeColumns
    { numOfFiles := dirdata.map fun d => d.2.length
      blCompressors := blocks.map ArchiveBlock.blCompressor
      blOffsets := blocks.map fun b => arcpos - b.blPos
      blCompSizes := blocks.map ArchiveBlock.blCompSize
      dirnames := dirnames.map unixifyPath
      names := names
      dirNumbers := dirNumbers
      sizes := filelist.map FileInfo.fiSize
      times := filelist.map fun fi => if nodates then minimalPossibleDatetime w else fi.fiTime
      dirFlags := filelist.map FileInfo.fiIsDir
      crcs := crcfilelist.map FileWithCRC.fwCRC }

/-! ## Reading -/

/-- `startFrom`. -/
def startFrom : Str → Str → Option Str
  | [], str => some str
  | x :: xs, y :: ys => if x = y then startFrom xs ys else none
  | _ :: _, [] => none

/-- `isParentDirOf`. -/
def isParentDirOf (win : Bool) (dir file : Str) : Bool :=
  match startFrom dir file with
  | some [] => true
  | some (x :: _) => isPathSeparator win x
  | none => false

/-- `splitByLens`. -/
def splitByLens {α : Type*} : List ℕ → List α → Option (List (List α))
  | len :: lens, list => do return list.take len :: (← splitByLens lens (list.drop len))
  | [], [] => some []
  | [], _ :: _ => none

/-- `scanl1 (+)`. -/
def scanl1 : List Int → List Int
  | [] => []
  | x :: xs => xs.scanl (· + ·) x

/-- `scanningSum`. -/
def scanningSum : List Int → List Int
  | [] => []
  | x :: xs => 0 :: scanl1 (x :: xs).dropLast

/-- The options of `archiveReadDir`. -/
structure ReadOptions (w : ℕ) where
  /-- The base directory in the archive. -/
  arcBasedir : Str
  /-- The base directory on the disk. -/
  diskBasedir : Str
  /-- How much of the path is kept. -/
  ep : Int
  /-- Which files are kept. -/
  filterF : FileInfo w → Bool

/-- `drop_arc_basedir`. -/
def dropArcBasedir (arcBasedir : Str) (d : Str) : Str :=
  if arcBasedir ≠ [] then d.drop (arcBasedir.length + 1) else d

/-- `make_disk_name`. -/
def makeDiskName (win : Bool) (ep : Int) (d : Str) : Str :=
  if ep = 0 then [] else if ep = 3 then d else dropDrive win d

/-- The name of a file in a directory of the archive. -/
def nameIn (win : Bool) (dir name : Str) : Option PackedFilePath := do
  let parent := packParentDirPath win dir
  packFilePathPacked2 parent (← parent.fpPackedFullname win) name

/-- `make_fi`, for a file in the directory `storedName`. -/
def makeFi {w : ℕ} (win : Bool) (o : ReadOptions w) (storedName name : Str) (size : Int)
    (time : BitVec (8 * w)) (dirFlag : Bool) : Option (Option (FileInfo w)) := do
  let filteredName := dropArcBasedir o.arcBasedir storedName
  let diskName := combine win o.diskBasedir (makeDiskName win o.ep filteredName)
  let dirIncluded := o.arcBasedir = [] || isParentDirOf win o.arcBasedir storedName
  let fiStoredName ← nameIn win storedName name
  let fiFilteredName ← nameIn win filteredName name
  let fiDiskName ← nameIn win diskName name
  let fiFiltered := if o.arcBasedir ≠ [] then fiFilteredName else fiStoredName
  let fileinfo : FileInfo w :=
    { fiFilteredName := fiFiltered
      fiDiskName := if o.diskBasedir ≠ [] ∨ o.ep ≠ 3 then fiDiskName else fiFiltered
      fiStoredName := fiStoredName
      fiSize := size
      fiTime := time
      fiAttr := 0
      fiIsDir := dirFlag
      fiGroup := fiUndefinedGroup }
  return if dirIncluded && o.filterF fileinfo then some fileinfo else none

/-- The files that were kept, each with its block, its position in it and its CRC. -/
def keptFiles {w : ℕ} (fileinfos : List (Option (FileInfo w))) (arcblocks : List ArchiveBlock)
    (positions : List Int) (crcs : List (BitVec (8 * 4))) : List (CompressedFile w) :=
  (fileinfos.zip (arcblocks.zip (positions.zip crcs))).filterMap fun (fi, block, pos, crc) =>
    fi.map fun fi => { cfFileInfo := fi, cfArcBlock := block, cfPos := pos, cfCRC := crc }

/-- What `archiveReadDir` makes of the columns. -/
def fromColumns {w : ℕ} (win : Bool) (isEncryption : Str → Bool) (o : ReadOptions w) (arcpos : Int)
    (c : Columns w) : Option (List ArchiveBlock × List (CompressedFile w)) := do
  let storedName := c.dirnames.map fun d => removeUnsafeDirs win (makeOSNativePath win d)
  let rows := c.dirNumbers.zip (c.names.zip (c.sizes.zip (c.times.zip c.dirFlags)))
  let fileinfos ← rows.mapM fun (dir, name, size, time, dirFlag) => do
    makeFi win o (← storedName[dir]?) name size time dirFlag
  let filesizes ← splitByLens c.numOfFiles c.sizes
  let tuples := c.blCompressors.zip (c.blOffsets.zip ((filesizes.map List.sum).zip
    (c.blCompSizes.zip c.numOfFiles)))
  let blocks := tuples.map fun (c, p, o, s, f) => tupleToDataBlock isEncryption arcpos c p o s f
  let arcblocks := ((c.numOfFiles.zip blocks).map fun (n, block) => List.replicate n block).flatten
  let positions := (filesizes.map scanningSum).flatten
  return (blocks, keptFiles fileinfos arcblocks positions c.crcs)

/-- `archiveReadDir`. -/
def archiveReadDir {w : ℕ} (win : Bool) (isEncryption : Str → Bool) (o : ReadOptions w) (arcpos : Int)
    (s : List UInt8) : Option (List ArchiveBlock × List (CompressedFile w)) := do
  fromColumns win isEncryption o arcpos (← readColumns w s)

end DArc.Archive
