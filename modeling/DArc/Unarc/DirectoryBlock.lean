import DArc.Library.Segments
import DArc.Unarc.FooterDescriptor

/-!
# The directory block, as the archiver and the unpacker read it

`DIRECTORY_BLOCK` parses the columns that `archiveWriteDir` writes, and replaces the numbers of files of the
blocks by the numbers of the first files behind them.

### Outline

* `readDirectoryColumns`, `DirectoryColumns.directoryBlock`: the parser;
* `Agrees`: the blocks and files of the two readers are the same.

### Main results

* `readDirectoryColumns_eq`: columns are parsed as they were written;
* `directoryBlock_agrees`: the two readers agree, up to the path delimiters and the original sizes of blocks;
* `not_directoryBlock_agrees`: but not on these.
-/

namespace DArc.Unarc

open DArc.Archive

/-! ## The parser -/

/-- `PATH_DELIMITER`. -/
def pathDelimiter (win : Bool) : UInt8 := if win then 0x5C else 0x2F

/-- `UNSUPPORTED_PATH_DELIMITERS`. -/
def unsupportedPathDelimiters (win : Bool) : List UInt8 := if win then [0x2F] else [0x3A, 0x5C]

/-- `replace`, of the one by the other. -/
def replaceDelimiters (win : Bool) (str : List UInt8) : List UInt8 :=
  str.map fun c => if c ∈ unsupportedPathDelimiters win then pathDelimiter win else c

/-- What the constructor of `DIRECTORY_BLOCK` reads. -/
structure DirectoryColumns where
  numOfFiles : List ℕ
  compressors : List (List UInt8)
  offsets : List ℕ
  compsizes : List ℕ
  dirs : List (List UInt8)
  name : List (List UInt8)
  dirNumbers : List ℕ
  size : List ℕ
  time : List ℕ
  isdir : List ℕ
  crc : List ℕ

/-- The calls of `read` in the constructor of `DIRECTORY_BLOCK`. -/
def readDirectoryColumns (behind s : List UInt8) : Option DirectoryColumns := do
  let (numOfBlocks, s) ← readInteger behind s
  let numOfBlocks := (int32 numOfBlocks).toNat
  let (numOfFiles, s) ← decodeMany (readInteger behind) numOfBlocks s
  let (compressors, s) ← decodeMany readChars numOfBlocks s
  let (offsets, s) ← decodeMany (readInteger behind) numOfBlocks s
  let (compsizes, s) ← decodeMany (readInteger behind) numOfBlocks s
  let totalFiles := (numOfFiles.map fun n : ℕ => int32 n).sum.toNat
  let (numOfDirs, s) ← readInteger behind s
  let (dirs, s) ← decodeMany readChars (int32 numOfDirs).toNat s
  let (name, s) ← decodeMany readChars totalFiles s
  let (dirNumbers, s) ← decodeMany (readInteger behind) totalFiles s
  let (size, s) ← decodeMany (readInteger behind) totalFiles s
  let (time, s) ← decodeMany (read4 behind) totalFiles s
  let (isdir, s) ← decodeMany (read1 behind) totalFiles s
  let (crc, _) ← decodeMany (read4 behind) totalFiles s
  return { numOfFiles, compressors, offsets, compsizes, dirs, name, dirNumbers, size, time, isdir, crc }

/-- `DIRECTORY_BLOCK`. -/
structure DirectoryBlock where
  /-- The number of files. -/
  totalFiles : Int
  /-- The number of the first file behind each block. -/
  numOfFiles : List Int
  /-- The blocks. -/
  dataBlock : List BlockDescriptor
  /-- The directories. -/
  dirs : List (List UInt8)
  /-- The name of each file. -/
  name : List (List UInt8)
  /-- The number of the directory of each file. -/
  dirNumbers : List Int
  /-- The size of each file. -/
  size : List Int
  /-- The time of each file, as the word that was read. -/
  time : List ℕ
  /-- Whether each file is a directory. -/
  isdir : List ℕ
  /-- The CRC of each file. -/
  crc : List ℕ

/-- The loop that turns `num_of_files` into the numbers of the files behind the blocks. -/
def accumulate : Int → List Int → List Int
  | _, [] => []
  | totalFiles, n :: ns => (totalFiles + n) :: accumulate (totalFiles + n) ns

/-- `data_block[i]`; the original size and the CRC are not known. -/
def dataBlock (pos : Int) (compressor : List UInt8) (offset compsize : ℕ) : BlockDescriptor :=
  { type := 2, compressor, pos := pos - int64 offset, origsize := 0, compsize := int64 compsize, crc := 0 }

/-- What the constructor makes of the columns, for a directory block at `pos`. -/
def DirectoryColumns.directoryBlock (win : Bool) (pos : Int) (c : DirectoryColumns) : DirectoryBlock :=
  { totalFiles := (c.numOfFiles.map fun n : ℕ => int32 n).sum
    numOfFiles := accumulate 0 (c.numOfFiles.map fun n : ℕ => int32 n)
    dataBlock := (c.compressors.zip (c.offsets.zip c.compsizes)).map fun b => dataBlock pos b.1 b.2.1 b.2.2
    dirs := c.dirs.map (replaceDelimiters win)
    name := c.name
    dirNumbers := c.dirNumbers.map fun n : ℕ => int32 n
    size := c.size.map int64
    time := c.time
    isdir := c.isdir
    crc := c.crc }

/-- The constructor of `DIRECTORY_BLOCK`, for a block at `pos` with the contents `s`. -/
def directoryBlock (win : Bool) (behind : List UInt8) (pos : Int) (s : List UInt8) : Option DirectoryBlock :=
  (readDirectoryColumns behind s).map (DirectoryColumns.directoryBlock win pos)

namespace DirectoryBlock

variable (u : DirectoryBlock)

/-- `block_start`. -/
def blockStart (blockNum : ℕ) : Option Int := if blockNum > 0 then u.numOfFiles[blockNum - 1]? else some 0

/-- `block_end`. -/
def blockEnd (blockNum : ℕ) : Option Int := u.numOfFiles[blockNum]?

/-- `dirname`. -/
def dirname (i : ℕ) : Option (List UInt8) := do u.dirs[(← u.dirNumbers[i]?).toNat]?

end DirectoryBlock

/-! ## Agreement -/

/-- The blocks and files of the two readers are the same: a directory of the archiver is `asDir` of it for
the unpacker, and a block is `asBlock`. -/
structure Agrees (asDir : List UInt8 → List UInt8) (asBlock : ArchiveBlock → BlockDescriptor)
    (blocks : List ArchiveBlock) (files : List (CompressedFile 4)) (u : DirectoryBlock) : Prop where
  /-- The blocks are the same. -/
  sameBlocks : u.dataBlock = blocks.map asBlock
  /-- The files of a block end where those of its predecessors and its own do. -/
  ends : ∀ i < blocks.length, u.blockEnd i = some ((blocks.take (i + 1)).map ArchiveBlock.blFiles).sum
  /-- There are as many files. -/
  total : u.totalFiles = files.length
  /-- The directories are the same. -/
  directories : ∀ (k : ℕ) (f : CompressedFile 4), files[k]? = some f →
    u.dirname k = f.cfFileInfo.fiStoredName.fpDirectory.map fun d => asDir (toUTF8List d)
  /-- The names are the same. -/
  names : ∀ (k : ℕ) (f : CompressedFile 4), files[k]? = some f →
    u.name[k]? = f.cfFileInfo.fiStoredName.fpBasename.map toUTF8List
  /-- The sizes, times, flags and CRCs are the same. -/
  data : u.size = (files.map fun f => f.cfFileInfo.fiSize) ∧
    u.time = (files.map fun f => f.cfFileInfo.fiTime.toNat) ∧
    u.isdir = (files.map fun f => f.cfFileInfo.fiIsDir.toNat) ∧ u.crc = files.map fun f => f.cfCRC.toNat
  /-- A file is in the range of the block that owns it. -/
  owners : ∀ (k : ℕ) (f : CompressedFile 4), files[k]? = some f → ∃ i start stop,
    blocks[i]? = some f.cfArcBlock ∧ u.blockStart i = some start ∧ u.blockEnd i = some stop ∧
      start ≤ k ∧ k < stop

/-! ## Columns -/

/-- What the parser reads from columns. -/
def asRead (c : Columns 4) : DirectoryColumns :=
  { numOfFiles := c.numOfFiles
    compressors := c.blCompressors.map fun m => toUTF8List (joinWith [plus] m)
    offsets := c.blOffsets.map Int.toNat
    compsizes := c.blCompSizes.map Int.toNat
    dirs := c.dirnames.map toUTF8List
    name := c.names.map toUTF8List
    dirNumbers := c.dirNumbers
    size := c.sizes.map Int.toNat
    time := c.times.map BitVec.toNat
    isdir := c.dirFlags.map Bool.toNat
    crc := c.crcs.map BitVec.toNat }

/-- A count in an `int`. -/
lemma toNat_int32 {n : ℕ} (h : n < 2 ^ 31) : (int32 n).toNat = n := by
  rw [int32_of_mem (by omega) (by exact_mod_cast h), Int.toNat_natCast]

/-- The counts of the blocks are small when their sum is. -/
lemma map_int32 {ns : List ℕ} (h : ns.sum < 2 ^ 31) :
    (ns.map fun n : ℕ => int32 n) = ns.map fun n : ℕ => (n : Int) := by
  refine List.map_congr_left fun n hn => ?_
  have hle := List.le_sum_of_mem hn
  exact int32_of_mem (by omega) (by omega)

/-- Their sum. -/
lemma sum_int32 {ns : List ℕ} (h : ns.sum < 2 ^ 31) : (ns.map fun n : ℕ => int32 n).sum = ns.sum := by
  rw [map_int32 h]
  exact (Nat.cast_list_sum ns).symm

/-- Columns are parsed as they were written. -/
lemma readDirectoryColumns_eq (behind : List UInt8) {s : List UInt8} {c : Columns 4} (h : c.Regular)
    (hblocks : c.numOfFiles.length < 2 ^ 31) (hdirs : c.dirnames.length < 2 ^ 31)
    (hsum : c.numOfFiles.sum < 2 ^ 31) (hs : writeColumns c = some s) :
    readDirectoryColumns behind s = some (asRead c) := by
  obtain ⟨hcompressors, hoffsets, hcompSizes⟩ := h.blocks
  obtain ⟨hnames, hdirNumbers, hsizes, htimes, hdirFlags, hcrcs⟩ := h.files
  obtain ⟨w₁, v₁, hw₁, h₁, rfl⟩ := joinAll_cons_eq_some hs
  obtain ⟨w₂, v₂, hw₂, h₂, rfl⟩ := joinAll_cons_eq_some h₁
  obtain ⟨w₃, v₃, hw₃, h₃, rfl⟩ := joinAll_cons_eq_some h₂
  obtain ⟨w₄, v₄, hw₄, h₄, rfl⟩ := joinAll_cons_eq_some h₃
  obtain ⟨w₅, v₅, hw₅, h₅, rfl⟩ := joinAll_cons_eq_some h₄
  obtain ⟨w₆, v₆, hw₆, h₆, rfl⟩ := joinAll_cons_eq_some h₅
  obtain ⟨w₇, v₇, hw₇, h₇, rfl⟩ := joinAll_cons_eq_some h₆
  obtain ⟨w₈, v₈, hw₈, h₈, rfl⟩ := joinAll_cons_eq_some h₇
  obtain ⟨w₉, v₉, hw₉, h₉, rfl⟩ := joinAll_cons_eq_some h₈
  obtain ⟨w₁₀, v₁₀, hw₁₀, h₁₀, rfl⟩ := joinAll_cons_eq_some h₉
  obtain ⟨w₁₁, v₁₁, hw₁₁, h₁₁, rfl⟩ := joinAll_cons_eq_some h₁₀
  obtain ⟨w₁₂, v₁₂, hw₁₂, h₁₂, rfl⟩ := joinAll_cons_eq_some h₁₁
  obtain ⟨w₁₃, v₁₃, hw₁₃, -, rfl⟩ := joinAll_cons_eq_some h₁₂
  have hlength (n : ℕ) {v : List UInt8} (hv : writeLength n = some v) :
      Encodes (readInteger behind) v n := readInteger_encodes (x := (n : Int)) hv
  have hinteger {x : Int} {v : List UInt8} (hv : writeInteger x = some v) :
      Encodes (readInteger behind) v x.toNat := readInteger_encodes hv
  have hchars {d : Str} (hd : (0 : Chr) ∉ d) {v : List UInt8} (hv : writeString d = some v) :
      Encodes readChars v (toUTF8List d) := Option.some.inj hv ▸ readChars_encodes hd
  have hword (x : BitVec (8 * 4)) {v : List UInt8} (hv : writeStorable x = some v) :
      Encodes (read4 behind) v x.toNat := Option.some.inj hv ▸ read4_encodes x
  have hflag (x : Bool) {v : List UInt8} (hv : writeBool x = some v) :
      Encodes (read1 behind) v x.toNat := Option.some.inj hv ▸ read1_encodes x
  have hr₁ := hlength _ hw₁
  have hr₂ := decodeMany_encodes (fun n _ _ hv => hlength n hv) hw₂
  have hr₃ := decodeMany_encodes (fun m hm _ hv => hchars (h.compressors m hm).nul_notMem hv) hw₃
  have hr₄ := decodeMany_encodes (fun _ _ _ hv => hinteger hv) hw₄
  have hr₅ := decodeMany_encodes (fun _ _ _ hv => hinteger hv) hw₅
  have hr₆ := hlength _ hw₆
  have hr₇ := decodeMany_encodes (fun d hd _ hv => hchars (h.strings.1 d hd) hv) hw₇
  have hr₈ := decodeMany_encodes (fun d hd _ hv => hchars (h.strings.2 d hd) hv) hw₈
  have hr₉ := decodeMany_encodes (fun n _ _ hv => hlength n hv) hw₉
  have hr₁₀ := decodeMany_encodes (fun _ _ _ hv => hinteger hv) hw₁₀
  have hr₁₁ := decodeMany_encodes (fun x _ _ hv => hword x hv) hw₁₁
  have hr₁₂ := decodeMany_encodes (fun x _ _ hv => hflag x hv) hw₁₂
  have hr₁₃ := decodeMany_encodes (fun x _ _ hv => hword x hv) hw₁₃
  -- the numbers of items as the parser computes them
  have htotal : (c.numOfFiles.map fun n : ℕ => int32 n).sum.toNat = c.numOfFiles.sum := by
    rw [sum_int32 hsum, Int.toNat_natCast]
  rw [List.map_id', ← toNat_int32 hblocks] at hr₂
  rw [hcompressors, ← toNat_int32 hblocks] at hr₃
  rw [hoffsets, ← toNat_int32 hblocks] at hr₄
  rw [hcompSizes, ← toNat_int32 hblocks] at hr₅
  rw [← toNat_int32 hdirs] at hr₇
  rw [hnames, ← htotal] at hr₈
  rw [List.map_id', hdirNumbers, ← htotal] at hr₉
  rw [hsizes, ← htotal] at hr₁₀
  rw [htimes, ← htotal] at hr₁₁
  rw [hdirFlags, ← htotal] at hr₁₂
  rw [hcrcs, ← htotal] at hr₁₃
  refine Option.bind_eq_some_iff.mpr ⟨_, hr₁ _, ?_⟩
  refine Option.bind_eq_some_iff.mpr ⟨_, hr₂ _, ?_⟩
  refine Option.bind_eq_some_iff.mpr ⟨_, hr₃ _, ?_⟩
  refine Option.bind_eq_some_iff.mpr ⟨_, hr₄ _, ?_⟩
  refine Option.bind_eq_some_iff.mpr ⟨_, hr₅ _, ?_⟩
  refine Option.bind_eq_some_iff.mpr ⟨_, hr₆ _, ?_⟩
  refine Option.bind_eq_some_iff.mpr ⟨_, hr₇ _, ?_⟩
  refine Option.bind_eq_some_iff.mpr ⟨_, hr₈ _, ?_⟩
  refine Option.bind_eq_some_iff.mpr ⟨_, hr₉ _, ?_⟩
  refine Option.bind_eq_some_iff.mpr ⟨_, hr₁₀ _, ?_⟩
  refine Option.bind_eq_some_iff.mpr ⟨_, hr₁₁ _, ?_⟩
  refine Option.bind_eq_some_iff.mpr ⟨_, hr₁₂ _, ?_⟩
  exact Option.bind_eq_some_iff.mpr ⟨_, hr₁₃ _, rfl⟩

/-! ## Blocks -/

/-- The running sums. -/
lemma accumulate_eq {ns : List Int} {i : ℕ} (t : Int) (hi : i < ns.length) :
    (accumulate t ns)[i]? = some (t + (ns.take (i + 1)).sum) := by
  induction ns generalizing t i with
  | nil => exact absurd hi (Nat.not_lt_zero i)
  | cons n ns ih =>
    cases i with
    | zero => simp [accumulate]
    | succ i =>
      rw [accumulate, List.getElem?_cons_succ, ih _ (Nat.lt_of_succ_lt_succ hi), List.take_succ_cons,
        List.sum_cons, add_assoc]

variable {win nodates : Bool} {isEncryption : Str → Bool} {arcpos : Int}
  {dirdata : List (ArchiveBlock × List (FileWithCRC 4))} {dirnames : List Str} {numbers : List ℕ}

/-- The directory block that the unpacker makes of what the archiver writes. -/
def unarcBlock (win nodates : Bool) (arcpos : Int) (dirdata : List (ArchiveBlock × List (FileWithCRC 4)))
    (dirnames : List Str) (numbers : List ℕ) : DirectoryBlock :=
  (asRead (toColumns nodates arcpos dirdata dirnames numbers)).directoryBlock win arcpos

/-- Behind each block there are the files of the blocks up to it. -/
lemma unarcBlock_blockEnd (hfiles : (filesOf dirdata).length < 2 ^ 31) {i : ℕ} (hi : i < dirdata.length) :
    (unarcBlock win nodates arcpos dirdata dirnames numbers).blockEnd i =
      some (((dirdata.take (i + 1)).map fun d => d.2.length).sum : ℕ) := by
  rw [length_filesOf] at hfiles
  have hlen : i < ((dirdata.map fun d => d.2.length).map fun n : ℕ => (n : Int)).length := by
    rwa [List.length_map, List.length_map]
  unfold DirectoryBlock.blockEnd unarcBlock DirectoryColumns.directoryBlock asRead toColumns
  dsimp only
  rw [map_int32 hfiles, accumulate_eq 0 hlen, zero_add, ← List.map_take, ← List.map_take]
  exact congrArg some (Nat.cast_list_sum _).symm

/-- A block begins where its predecessors end. -/
lemma unarcBlock_blockStart (hfiles : (filesOf dirdata).length < 2 ^ 31) {i : ℕ}
    (hi : i < dirdata.length) :
    (unarcBlock win nodates arcpos dirdata dirnames numbers).blockStart i =
      some (((dirdata.take i).map fun d => d.2.length).sum : ℕ) := by
  cases i with
  | zero => rfl
  | succ i =>
    have hstart : (unarcBlock win nodates arcpos dirdata dirnames numbers).blockStart (i + 1) =
        (unarcBlock win nodates arcpos dirdata dirnames numbers).blockEnd i := rfl
    rw [hstart]
    exact unarcBlock_blockEnd hfiles (by omega)

/-- The data block of the unpacker for a block of the archiver. -/
def asDataBlock (b : ArchiveBlock) : BlockDescriptor := { asUnarc b with origsize := 0 }

/-- The blocks are the same but for their original sizes. -/
lemma unarcBlock_dataBlock
    (hoffsets : ∀ d ∈ dirdata, 0 ≤ arcpos - d.1.blPos ∧ arcpos - d.1.blPos < 2 ^ 63)
    (hsizes : ∀ d ∈ dirdata, 0 ≤ d.1.blCompSize ∧ d.1.blCompSize < 2 ^ 63) :
    (unarcBlock win nodates arcpos dirdata dirnames numbers).dataBlock =
      (dirdata.map (restoredBlock isEncryption)).map asDataBlock := by
  unfold unarcBlock DirectoryColumns.directoryBlock asRead toColumns
  dsimp only
  simp only [List.map_map, List.zip_map']
  refine List.map_congr_left fun d hd => ?_
  obtain ⟨hoffset, hoffset'⟩ := hoffsets d hd
  obtain ⟨hsize, hsize'⟩ := hsizes d hd
  simp only [Function.comp_apply, dataBlock, asDataBlock, asUnarc, restoredBlock]
  rw [int64_toNat hoffset hoffset', int64_toNat hsize hsize', sub_sub_cancel]
  rfl

/-! ## Files -/

/-- What is told about a file without its block and its position is told about the files in their order. -/
lemma map_archivedFiles {β : Type} {φ : StoredFile 4 → β} {ψ : FileWithCRC 4 → β}
    (h : ∀ block pos f, φ (archivedFile nodates block pos f) = ψ f) :
    (dirdata.map (archivedFiles nodates isEncryption)).flatten.map φ = (filesOf dirdata).map ψ := by
  unfold filesOf
  rw [List.map_flatten, List.map_flatten, List.map_map, List.map_map]
  congr 1
  refine List.map_congr_left fun d _ => List.ext_getElem? fun j => ?_
  simp only [Function.comp_apply, archivedFiles, List.getElem?_map, List.getElem?_mapIdx,
    Option.map_map]
  congr 1
  exact funext fun f => h _ _ f

/-- The unpacker does not see which separator was written. -/
lemma replaceDelimiters_unixifyPath (win : Bool) (d : Str) :
    replaceDelimiters win (toUTF8List (unixifyPath d)) = replaceDelimiters win (toUTF8List d) := by
  have hslash : replaceDelimiters win (toUTF8 slash) = replaceDelimiters win (toUTF8 backslash) := by
    cases win <;> decide
  induction d with
  | nil => rfl
  | cons c d ih =>
    have hcons (c : Chr) (d : Str) : replaceDelimiters win (toUTF8List (c :: d)) =
        replaceDelimiters win (toUTF8 c) ++ replaceDelimiters win (toUTF8List d) := List.map_append
    have hunix : unixifyPath (c :: d) = (if c = backslash then slash else c) :: unixifyPath d := rfl
    rw [hunix, hcons, hcons, ih]
    split
    case isTrue h => rw [h, hslash]
    case isFalse => rfl

/-- The numbers of the directories lead to the directories. -/
lemma unarcBlock_dirname {f : FileWithCRC 4} {k : ℕ} (hlen : dirnames.length < 2 ^ 31)
    (hnumbers : List.Forall₂ (NumberOf dirnames) ((filesOf dirdata).map FileWithCRC.fwFileInfo) numbers)
    (hf : (filesOf dirdata)[k]? = some f) :
    (unarcBlock win nodates arcpos dirdata dirnames numbers).dirname k =
      f.fwFileInfo.fiStoredName.fpDirectory.map fun d => replaceDelimiters win (toUTF8List d) := by
  obtain ⟨hlt, hget⟩ := List.getElem?_eq_some_iff.mp hf
  have hcount := hnumbers.length_eq
  rw [List.length_map] at hcount
  obtain ⟨hin, hdir⟩ := hnumbers.get (by rwa [List.length_map]) (show k < numbers.length by omega)
  have hinfo : ((filesOf dirdata).map FileWithCRC.fwFileInfo).get ⟨k, by rwa [List.length_map]⟩ =
      f.fwFileInfo := by
    rw [List.get_eq_getElem, List.getElem_map, hget]
  rw [hinfo] at hdir
  generalize hn : numbers.get ⟨k, by omega⟩ = n at hin hdir
  have hnumber : numbers[k]? = some n := List.getElem?_eq_some_iff.mpr ⟨by omega, hn⟩
  unfold DirectoryBlock.dirname unarcBlock DirectoryColumns.directoryBlock asRead toColumns
  dsimp only
  simp only [List.getElem?_map, hnumber, Option.map_some, Option.bind_eq_bind, Option.bind_some]
  rw [toNat_int32 (by omega), hdir]
  simp only [Option.map_map]
  congr 1
  exact funext fun d => replaceDelimiters_unixifyPath win d

/-- The sizes of files fit in their variables. -/
lemma map_int64 {xs : List Int} (h : ∀ x ∈ xs, 0 ≤ x ∧ x < 2 ^ 63) :
    (xs.map Int.toNat).map int64 = xs := by
  have hid : ∀ x ∈ xs, (int64 ∘ Int.toNat) x = id x := by
    intro x hx
    rw [Function.comp_apply, int64_toNat (h x hx).1 (h x hx).2]
    rfl
  rw [List.map_map, List.map_congr_left hid, List.map_id]

/-- A file lies in the range of its block. -/
lemma exists_owner (hfiles : (filesOf dirdata).length < 2 ^ 31) {k : ℕ} {f : StoredFile 4}
    (hf : (dirdata.map (archivedFiles nodates isEncryption)).flatten[k]? = some f) :
    ∃ i start stop, (dirdata.map (restoredBlock isEncryption))[i]? = some f.block ∧
      (unarcBlock win nodates arcpos dirdata dirnames numbers).blockStart i = some start ∧
      (unarcBlock win nodates arcpos dirdata dirnames numbers).blockEnd i = some stop ∧
      start ≤ k ∧ k < stop := by
  have hsegment (i : ℕ) : segmentStart (dirdata.map (archivedFiles nodates isEncryption)) i =
      ((dirdata.take i).map fun d => d.2.length).sum := by
    unfold segmentStart archivedFiles
    rw [← List.map_take, List.length_flatten, List.map_map]
    congr 1
    exact List.map_congr_left fun d _ => List.length_mapIdx
  obtain ⟨i, fs, hi, hmem, hstart, hend⟩ := exists_segment hf
  rw [List.getElem?_map] at hi
  obtain ⟨d, hd, rfl⟩ := Option.map_eq_some_iff.mp hi
  obtain ⟨hlt, -⟩ := List.getElem?_eq_some_iff.mp hd
  obtain ⟨j, hj, rfl⟩ := List.mem_mapIdx.mp hmem
  refine ⟨i, _, _, ?_, unarcBlock_blockStart hfiles hlt, unarcBlock_blockEnd hfiles hlt, ?_, ?_⟩
  · rw [List.getElem?_map, hd]
    rfl
  · rw [← hsegment i]
    exact_mod_cast hstart
  · rw [← hsegment (i + 1)]
    exact_mod_cast hend

/-! ## Agreement of the readers -/

/-- The files of the unpacker are those that were written. -/
lemma unarcBlock_agrees {files : List (CompressedFile 4)} (h : WellFormed win dirdata)
    (hfiles : (filesOf dirdata).length < 2 ^ 31) (hlen : dirnames.length < 2 ^ 31)
    (hrepr : ∀ x ∈ writtenNumbers arcpos dirdata, 0 ≤ x ∧ x < 2 ^ 63)
    (hnumbers : List.Forall₂ (NumberOf dirnames) ((filesOf dirdata).map FileWithCRC.fwFileInfo) numbers)
    (hread : files.map CompressedFile.stored =
      (dirdata.map (archivedFiles nodates isEncryption)).flatten) :
    Agrees (replaceDelimiters win) asDataBlock (dirdata.map (restoredBlock isEncryption)) files
      (unarcBlock win nodates arcpos dirdata dirnames numbers) := by
  have hmap {β : Type} (φ : StoredFile 4 → β) (ψ : FileWithCRC 4 → β)
      (hφ : ∀ block pos f, φ (archivedFile nodates block pos f) = ψ f) :
      files.map (φ ∘ CompressedFile.stored) = (filesOf dirdata).map ψ := by
    rw [← List.map_map, hread, map_archivedFiles hφ]
  have hat {β : Type} (φ : StoredFile 4 → β) (ψ : FileWithCRC 4 → β)
      (hφ : ∀ block pos f, φ (archivedFile nodates block pos f) = ψ f) {k : ℕ} {f : CompressedFile 4}
      (hf : files[k]? = some f) : ∃ g, (filesOf dirdata)[k]? = some g ∧ ψ g = φ f.stored := by
    have hk := congrArg (fun l => l[k]?) (hmap φ ψ hφ)
    simp only [List.getElem?_map, hf, Option.map_some] at hk
    exact Option.map_eq_some_iff.mp hk.symm
  have hcount : files.length = (filesOf dirdata).length := by
    have hlength := congrArg List.length (hmap (fun _ => ()) (fun _ => ()) fun _ _ _ => rfl)
    rwa [List.length_map, List.length_map] at hlength
  refine
    { sameBlocks := unarcBlock_dataBlock ?_ ?_
      ends := fun i hi => ?_
      total := ?_
      directories := fun k f hf => ?_
      names := fun k f hf => ?_
      data := ⟨?_, ?_, ?_, ?_⟩
      owners := fun k f hf => ?_ }
  · exact fun d hd => hrepr _ (List.mem_append_left _ (List.mem_append_left _ (List.mem_map_of_mem hd)))
  · exact fun d hd => hrepr _ (List.mem_append_left _ (List.mem_append_right _ (List.mem_map_of_mem hd)))
  · rw [List.length_map] at hi
    rw [unarcBlock_blockEnd hfiles hi, ← List.map_take, List.map_map]
    rfl
  · rw [hcount, length_filesOf]
    rw [length_filesOf] at hfiles
    exact sum_int32 hfiles
  · obtain ⟨g, hg, hdir⟩ := hat StoredFile.directory (fun g => g.fwFileInfo.fiStoredName.fpDirectory)
      (fun _ _ _ => rfl) hf
    rw [unarcBlock_dirname hlen hnumbers hg]
    exact congrArg (Option.map fun d => replaceDelimiters win (toUTF8List d)) hdir
  · obtain ⟨g, hg, hname⟩ := hat StoredFile.basename (fun g => g.fwFileInfo.fiStoredName.fpBasename)
      (fun _ _ _ => rfl) hf
    obtain ⟨d, b, ⟨hash, parent, hpath, -⟩, -⟩ := h.names g (List.mem_of_getElem? hg)
    have hbase : g.fwFileInfo.fiStoredName.fpBasename = some b := by
      rw [hpath]
      rfl
    have hresult : f.cfFileInfo.fiStoredName.fpBasename = some b := hname.symm.trans hbase
    have hcolumn : (unarcBlock win nodates arcpos dirdata dirnames numbers).name =
        ((filesOf dirdata).map basenameOf).map toUTF8List := rfl
    rw [hresult, hcolumn, List.getElem?_map, List.getElem?_map, hg]
    simp only [Option.map_some, basenameOf, hbase, Option.getD_some]
  · have hsizes := hmap StoredFile.size (fun g => g.fwFileInfo.fiSize) fun _ _ _ => rfl
    refine Eq.trans (map_int64 fun x hx => ?_) hsizes.symm
    exact hrepr x (List.mem_append_right _ hx)
  · have htimes := hmap (fun f => f.time.toNat) (fun g => (writtenTime nodates g).toNat) fun _ _ _ => rfl
    exact (List.map_map ..).trans htimes.symm
  · have hflags := hmap (fun f => f.isDir.toNat) (fun g => g.fwFileInfo.fiIsDir.toNat) fun _ _ _ => rfl
    exact (List.map_map ..).trans hflags.symm
  · have hcrcs := hmap (fun f => f.crc.toNat) (fun g => g.fwCRC.toNat) fun _ _ _ => rfl
    exact (List.map_map ..).trans hcrcs.symm
  · refine exists_owner hfiles (f := f.stored) ?_
    rw [← hread, List.getElem?_map, hf]
    rfl

/-- **The two readers of a directory agree**, up to the path delimiters and the original sizes of the blocks,
which the unpacker does not compute. -/
theorem directoryBlock_agrees (win nodates : Bool) (isEncryption : Str → Bool) (ep : Int)
    (behind : List UInt8) (arcpos : Int) (dirdata : List (ArchiveBlock × List (FileWithCRC 4)))
    (s : List UInt8) (h : WellFormed win dirdata)
    (hkept : ∀ f ∈ filesOf dirdata, ∀ d ∈ f.fwFileInfo.fiStoredName.fpDirectory,
      restoredDirectory win d = d)
    (hblocks : dirdata.length < 2 ^ 31) (hfiles : (filesOf dirdata).length < 2 ^ 31)
    (hnumbers : ∀ x ∈ writtenNumbers arcpos dirdata, x < 2 ^ 63)
    (hwrite : archiveWriteDir nodates arcpos dirdata = some s) :
    ∃ blocks files u,
      archiveReadDir win isEncryption
          { arcBasedir := [], diskBasedir := [], ep := ep, filterF := fun _ => true } arcpos s =
        some (blocks, files) ∧
      directoryBlock win behind arcpos s = some u ∧
      Agrees (replaceDelimiters win) asDataBlock blocks files u := by
  have hrepr : ∀ x ∈ writtenNumbers arcpos dirdata, Representable x := by
    intro x hx
    by_contra hnot
    exact absurd (hwrite.symm.trans (archiveWriteDir_eq_none hnot hx)) (Option.some_ne_none _)
  have hrange : InRange arcpos dirdata :=
    { blocks := hblocks.trans (by norm_num)
      files := hfiles.trans (by norm_num)
      numbers := hrepr }
  obtain ⟨s', files, hwrite', hread, hstored⟩ := archiveReadDir_archiveWriteDir nodates isEncryption
    (o := ⟨[], [], ep, fun _ => true⟩) rfl (fun _ => rfl) h hrange
  obtain rfl := Option.some.inj (hwrite.symm.trans hwrite')
  rw [map_restored_of_kept hkept] at hstored
  obtain ⟨dirnames, numbers, hcolumns, hregular, hdirs, hnumber⟩ := exists_columns nodates h hrange
  have hblocks' : (toColumns nodates arcpos dirdata dirnames numbers).numOfFiles.length < 2 ^ 31 :=
    (List.length_map ..).trans_lt hblocks
  have hdirs' : (toColumns nodates arcpos dirdata dirnames numbers).dirnames.length < 2 ^ 31 :=
    (List.length_map ..).trans_lt (hdirs.trans_lt hfiles)
  have hsum : (toColumns nodates arcpos dirdata dirnames numbers).numOfFiles.sum < 2 ^ 31 :=
    (length_filesOf dirdata).symm.trans_lt hfiles
  have hparse := readDirectoryColumns_eq behind hregular hblocks' hdirs' hsum
    (hcolumns.symm.trans hwrite)
  refine ⟨_, files, unarcBlock win nodates arcpos dirdata dirnames numbers, hread, ?_,
    unarcBlock_agrees h hfiles (hdirs.trans_lt hfiles) (fun x hx => ⟨(hrepr x hx).1, hnumbers x hx⟩)
      hnumber hstored⟩
  unfold directoryBlock
  rw [hparse]
  rfl

/-- The directory `a:b`. -/
def colonDirectory : Str := [97, 58, 98]

/-- It is not changed by the archiver where drives have no letters. -/
lemma restoredDirectory_colon : restoredDirectory false colonDirectory = colonDirectory := by
  have hsplit : split slash colonDirectory = [colonDirectory] :=
    split_joinWith (List.cons_ne_nil colonDirectory []) (by decide)
  refine restoredDirectory_eq ⟨by decide, Or.inr ?_⟩ fun hwin => absurd hwin (by decide)
  rw [hsplit]
  decide

/-- A file of seven bytes in this directory. -/
theorem directoryBlock_agrees_colon :
    ∃ s blocks files u, archiveWriteDir false 5 (oneFile false colonDirectory 7) = some s ∧
      archiveReadDir false (fun _ => false)
          { arcBasedir := [], diskBasedir := [], ep := -1, filterF := fun _ => true } 5 s =
        some (blocks, files) ∧
      directoryBlock false [] 5 s = some u ∧ Agrees (replaceDelimiters false) asDataBlock blocks files u := by
  have hwrite : archiveWriteDir false 5 (oneFile false colonDirectory 7) =
      some [2, 2, 115, 0, 10, 10, 2, 97, 58, 98, 0, 98, 0, 0, 14, 9, 0, 0, 0, 0, 7, 0, 0, 0, 0] := by
    decide +kernel
  obtain ⟨blocks, files, u, h⟩ := directoryBlock_agrees false false (fun _ => false) (-1) [] 5
    (oneFile false colonDirectory 7) _ (oneFile_wellFormed (by decide) 7)
    (fun f hf d hd => by
      obtain rfl := List.mem_singleton.mp hf
      obtain rfl := Option.some.inj hd
      exact restoredDirectory_colon)
    (by decide) (by decide) (by decide +kernel) hwrite
  exact ⟨_, blocks, files, u, hwrite, h⟩

/-- **The two readers do not agree on everything**: for the unpacker the original size of a block is 0, and
where drives have no letters the directory `a:b` is `a/b`. -/
theorem not_directoryBlock_agrees :
    ∃ s u, ∃ files : List (CompressedFile 4), archiveWriteDir false 5 (oneFile false colonDirectory 7) = some s ∧
      restoredDirectory false colonDirectory = colonDirectory ∧
      archiveReadDir false (fun _ => false)
          { arcBasedir := [], diskBasedir := [], ep := -1, filterF := fun _ => true } 5 s =
        some ((oneFile false colonDirectory 7).map (restoredBlock fun _ => false), files) ∧
      directoryBlock false [] 5 s = some u ∧
      ((oneFile false colonDirectory 7).map (restoredBlock fun _ => false)).map ArchiveBlock.blOrigSize = [7] ∧
      u.dataBlock.map BlockDescriptor.origsize = [0] ∧
      files.map (fun f => f.cfFileInfo.fiStoredName.fpDirectory.map toUTF8List) = [some [97, 58, 98]] ∧
      u.dirname 0 = some [97, 47, 98] ∧
      ¬Agrees id asUnarc ((oneFile false colonDirectory 7).map (restoredBlock fun _ => false)) files u := by
  have hwell : WellFormed false (oneFile false colonDirectory 7) := oneFile_wellFormed (by decide) 7
  obtain ⟨s, files, hwrite, hread, hfiles⟩ := archiveReadDir_archiveWriteDir false (fun _ => false)
    (o := ⟨[], [], -1, fun _ => true⟩) rfl (fun _ => rfl) hwell (oneFile_inRange ⟨by decide, by decide⟩)
  have hbytes : archiveWriteDir false 5 (oneFile false colonDirectory 7) =
      some [2, 2, 115, 0, 10, 10, 2, 97, 58, 98, 0, 98, 0, 0, 14, 9, 0, 0, 0, 0, 7, 0, 0, 0, 0] := by
    decide +kernel
  obtain rfl := Option.some.inj (hwrite.symm.trans hbytes)
  have hunarc : ((directoryBlock false [] 5
      [2, 2, 115, 0, 10, 10, 2, 97, 58, 98, 0, 98, 0, 0, 14, 9, 0, 0, 0, 0, 7, 0, 0, 0, 0]).map fun u =>
        (u.dataBlock.map BlockDescriptor.origsize, u.dirname 0)) = some ([0], some [97, 47, 98]) := by
    decide +kernel
  obtain ⟨u, hu, hpair⟩ := Option.map_eq_some_iff.mp hunarc
  obtain ⟨hsize, hdir⟩ := Prod.mk.inj hpair
  have hdirs := congrArg (List.map fun f : StoredFile 4 => f.directory.map toUTF8List) hfiles
  rw [List.map_map] at hdirs
  have hrestored : ((oneFile false colonDirectory 7).map
      (archivedFiles false fun _ => false)).flatten.map (StoredFile.restored false) =
      [{ directory := some (restoredDirectory false colonDirectory), basename := some [98], size := 7
         time := 9, isDir := false, crc := 7
         block := restoredBlock (fun _ => false) ((oneFile false colonDirectory 7).head (by decide))
         pos := 0 }] := rfl
  rw [hrestored, restoredDirectory_colon] at hdirs
  refine ⟨_, u, files, hwrite, restoredDirectory_colon, hread, hu, by decide, hsize, hdirs, hdir, ?_⟩
  intro hagrees
  rw [hagrees.sameBlocks] at hsize
  exact absurd hsize (by decide)

end DArc.Unarc
