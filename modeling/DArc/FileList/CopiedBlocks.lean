import DArc.Archive.PathSafety
import DArc.Extract.Delivery
import DArc.FileList.SolidBlocks
import DArc.Library.Placed

/-!
# Solid blocks that are copied

A list of files that is found to be a whole solid block of an old archive is not compressed again: the block is
copied byte for byte, and the new directory tells only the sizes and the order of the files.

### Outline

* `dirParts`: the files of a directory, block by block;
* `copyBlock`, `copiedBlock`: the copy;
* `CopiesRight`: the list has all files of one block, and they are found again in the copy.

### Main results

* `copiesRight_iff`: this is so if and only if the files were taken from one block, each at most once;
* `not_copiesRight`: two blocks at one position are taken for one.
-/

namespace DArc.FileList

open DArc.Archive (Str FileInfo ArchiveBlock CompressedFile FileWithCRC StoredFile Columns ReadOptions
  keptFiles scanningSum readColumns splitByLens tupleToDataBlock makeRow archiveReadDir archiveWriteDir
  sumsFrom filesOf WellFormed InRange)
open DArc.Compression (text Compressor)
open DArc.Extract (slice)

variable {w : ℕ}

/-! ## The files of a block -/

/-- The size of a file. -/
def fileSize (f : CompressedFile w) : Int := f.cfFileInfo.fiSize

/-- The files of each block. -/
def blockParts : List ArchiveBlock → List (Option (FileInfo w)) → List (List Int) →
    List (BitVec (8 * 4)) → List (List (CompressedFile w))
  | block :: blocks, infos, sizes :: filesizes, crcs =>
    keptFiles (infos.take block.blFiles) (List.replicate block.blFiles block) (scanningSum sizes)
        (crcs.take block.blFiles) ::
      blockParts blocks (infos.drop block.blFiles) filesizes (crcs.drop block.blFiles)
  | _, _, _, _ => []

/-- The blocks of the columns. -/
def columnBlocks (isEncryption : Str → Bool) (arcpos : Int) (c : Columns w) (filesizes : List (List Int)) :
    List ArchiveBlock :=
  (c.blCompressors.zip (c.blOffsets.zip ((filesizes.map List.sum).zip
    (c.blCompSizes.zip c.numOfFiles)))).map fun (c, p, o, s, f) =>
      tupleToDataBlock isEncryption arcpos c p o s f

/-- The files that `archiveReadDir` returns, block by block. -/
def dirParts (win : Bool) (isEncryption : Str → Bool) (o : ReadOptions w) (arcpos : Int) (s : List UInt8) :
    Option (List (List (CompressedFile w))) := do
  let c ← readColumns w s
  let infos ← c.rows.mapM (makeRow win o c)
  let filesizes ← splitByLens c.numOfFiles c.sizes
  return blockParts (columnBlocks isEncryption arcpos c filesizes) infos filesizes c.crcs

/-- Files of one block, each behind those in front of it. -/
structure PartOf (block : ArchiveBlock) (part : List (CompressedFile w)) : Prop where
  /-- The files are from the block. -/
  from_block : ∀ f ∈ part, f.cfArcBlock = block
  /-- The sizes are not negative. -/
  size_nonneg : ∀ f ∈ part, 0 ≤ fileSize f
  /-- There are no more files than the block has. -/
  length_le : part.length ≤ block.blFiles
  /-- When no file is left out, the files are one behind the other. -/
  placed : part.length = block.blFiles → Placed CompressedFile.cfPos fileSize 0 part

/-- The information about a file has its size. -/
def HasSize (size : Int) (info : Option (FileInfo w)) : Prop := 0 ≤ size ∧ ∀ fi ∈ info, fi.fiSize = size

/-- Files that are kept of a block. -/
lemma keptFiles_part {sizes : List Int} {infos : List (Option (FileInfo w))}
    (h : List.Forall₂ HasSize sizes infos) (block : ArchiveBlock) (p : Int) {crcs : List (BitVec (8 * 4))}
    (hcrcs : crcs.length = infos.length) {part : List (CompressedFile w)}
    (hpart : part = keptFiles infos (List.replicate infos.length block) (sumsFrom p sizes) crcs) :
    (∀ f ∈ part, f.cfArcBlock = block ∧ 0 ≤ fileSize f) ∧ part.length ≤ infos.length ∧
      (part.length = infos.length → Placed CompressedFile.cfPos fileSize p part) := by
  induction h generalizing p crcs part with
  | nil =>
    subst hpart
    exact ⟨fun f hf => absurd hf List.not_mem_nil, le_rfl, fun _ => trivial⟩
  | @cons size info sizes infos hinfo hrest ih =>
    obtain ⟨crc, crcs, rfl⟩ := List.exists_cons_of_length_eq_add_one hcrcs
    obtain ⟨hall, hle, hplaced⟩ := ih (p + size) (Nat.succ.inj hcrcs) rfl
    cases info with
    | none =>
      have hskip : part = keptFiles infos (List.replicate infos.length block) (sumsFrom (p + size) sizes)
          crcs := hpart
      rw [← hskip] at hall hle hplaced
      rw [List.length_cons]
      exact ⟨hall, by omega, fun heq => by omega⟩
    | some fi =>
      have hcons : part = { cfFileInfo := fi, cfArcBlock := block, cfPos := p, cfCRC := crc } ::
          keptFiles infos (List.replicate infos.length block) (sumsFrom (p + size) sizes) crcs := hpart
      have hsize : fi.fiSize = size := hinfo.2 fi rfl
      rw [hcons]
      refine ⟨fun f hf => ?_, by rw [List.length_cons, List.length_cons]; omega, fun heq => ⟨rfl, ?_⟩⟩
      · rcases List.mem_cons.mp hf with rfl | hf
        · exact ⟨rfl, by rw [fileSize, hsize]; exact hinfo.1⟩
        · exact hall f hf
      · have hrestPlaced := hplaced (Nat.succ.inj heq)
        rwa [fileSize, hsize]

/-- The parts are the files, and every part is from its block. -/
lemma blockParts_spec {blocks : List ArchiveBlock} {filesizes : List (List Int)}
    (h : List.Forall₂ (fun block sizes => sizes.length = block.blFiles) blocks filesizes)
    {infos : List (Option (FileInfo w))} (hinfos : List.Forall₂ HasSize filesizes.flatten infos)
    {crcs : List (BitVec (8 * 4))} (hcrcs : crcs.length = infos.length) :
    (blockParts blocks infos filesizes crcs).flatten =
        keptFiles infos (blocks.map fun block => List.replicate block.blFiles block).flatten
          (filesizes.map scanningSum).flatten crcs ∧
      List.Forall₂ PartOf blocks (blockParts blocks infos filesizes crcs) := by
  induction h generalizing infos crcs with
  | nil =>
    cases hinfos
    exact ⟨rfl, .nil⟩
  | @cons block sizes blocks filesizes hlen hrest ih =>
    rw [List.flatten_cons] at hinfos
    have hfirst := List.forall₂_take_append infos sizes filesizes.flatten hinfos.flip
    have hthen := List.forall₂_drop_append infos sizes filesizes.flatten hinfos.flip
    rw [hlen] at hfirst hthen
    have hlenInfos : (infos.take block.blFiles).length = block.blFiles := hfirst.length_eq.trans hlen
    have hlenCrcs : (crcs.take block.blFiles).length = (infos.take block.blFiles).length := by
      rw [List.length_take, List.length_take, hcrcs]
    have hlenRest : (crcs.drop block.blFiles).length = (infos.drop block.blFiles).length := by
      rw [List.length_drop, List.length_drop, hcrcs]
    obtain ⟨hflat, hparts⟩ := ih hthen.flip hlenRest
    obtain ⟨hall, hle, hplaced⟩ := keptFiles_part hfirst.flip block 0 hlenCrcs rfl
    rw [hlenInfos] at hall hle hplaced
    rw [blockParts, DArc.Archive.scanningSum_eq]
    constructor
    · have hsums : (List.replicate block.blFiles block).length = (sumsFrom 0 sizes).length := by
        rw [List.length_replicate, DArc.Archive.length_sumsFrom, hlen]
      have hcount : (sumsFrom 0 sizes).length = (crcs.take block.blFiles).length := by
        rw [DArc.Archive.length_sumsFrom, hlenCrcs, hlenInfos, hlen]
      have hsplit : keptFiles (infos.take block.blFiles ++ infos.drop block.blFiles)
          (List.replicate block.blFiles block ++
            (blocks.map fun block => List.replicate block.blFiles block).flatten)
          (sumsFrom 0 sizes ++ (filesizes.map scanningSum).flatten)
          (crcs.take block.blFiles ++ crcs.drop block.blFiles) = _ :=
        DArc.Archive.keptFiles_append (hlenInfos.trans (List.length_replicate).symm) hsums hcount
      rw [List.take_append_drop, List.take_append_drop] at hsplit
      rw [List.flatten_cons, hflat, List.map_cons, List.map_cons, List.flatten_cons, List.flatten_cons,
        DArc.Archive.scanningSum_eq, hsplit]
    · refine .cons ⟨fun f hf => (hall f hf).1, fun f hf => (hall f hf).2, hle, hplaced⟩ hparts

/-- The block of each file, by the number of files. -/
lemma map_replicate_zip (blocks : List ArchiveBlock) :
    (((blocks.map ArchiveBlock.blFiles).zip blocks).map fun (n, block) => List.replicate n block) =
      blocks.map fun block => List.replicate block.blFiles block := by
  induction blocks with
  | nil => rfl
  | cons block blocks ih =>
    rw [List.map_cons, List.zip_cons_cons, List.map_cons, ih]
    rfl

/-- A list is split into lists of the given lengths. -/
lemma map_length_splitByLens {α : Type} {lens : List ℕ} {xs : List α} {xss : List (List α)}
    (h : splitByLens lens xs = some xss) (hlen : xs.length = lens.sum) : xss.map List.length = lens := by
  induction lens generalizing xs xss with
  | nil =>
    obtain rfl := List.length_eq_zero_iff.mp hlen
    cases h
    rfl
  | cons len lens ih =>
    rw [List.sum_cons] at hlen
    obtain ⟨rest, hrest, heq⟩ := Option.bind_eq_some_iff.mp h
    cases heq
    rw [List.map_cons, List.length_take, ih hrest (by rw [List.length_drop]; omega), min_eq_left (by omega)]

/-- The sizes that are read are not negative. -/
lemma sizes_nonneg {s : List UInt8} {c : Columns w} (h : readColumns w s = some c) :
    ∀ size ∈ c.sizes, 0 ≤ size := by
  obtain ⟨⟨_, _⟩, -, h⟩ := Option.bind_eq_some_iff.mp h
  obtain ⟨⟨_, _⟩, -, h⟩ := Option.bind_eq_some_iff.mp h
  obtain ⟨⟨_, _⟩, -, h⟩ := Option.bind_eq_some_iff.mp h
  obtain ⟨⟨_, _⟩, -, h⟩ := Option.bind_eq_some_iff.mp h
  obtain ⟨⟨_, _⟩, -, h⟩ := Option.bind_eq_some_iff.mp h
  obtain ⟨⟨_, _⟩, -, h⟩ := Option.bind_eq_some_iff.mp h
  obtain ⟨⟨_, _⟩, -, h⟩ := Option.bind_eq_some_iff.mp h
  obtain ⟨⟨_, _⟩, -, h⟩ := Option.bind_eq_some_iff.mp h
  obtain ⟨⟨_, _⟩, -, h⟩ := Option.bind_eq_some_iff.mp h
  obtain ⟨⟨sizes, _⟩, hsizes, h⟩ := Option.bind_eq_some_iff.mp h
  obtain ⟨⟨_, _⟩, -, h⟩ := Option.bind_eq_some_iff.mp h
  obtain ⟨⟨_, _⟩, -, h⟩ := Option.bind_eq_some_iff.mp h
  obtain ⟨⟨_, _⟩, -, h⟩ := Option.bind_eq_some_iff.mp h
  cases h
  exact forall_of_decodeMany (fun _ _ _ hread => DArc.Archive.readInteger_nonneg hread) hsizes

/-- What is made of a row has the size of the row. -/
lemma makeRow_size {win : Bool} {o : ReadOptions w} {c : Columns w}
    {r : ℕ × Str × Int × BitVec (8 * w) × Bool} {info : Option (FileInfo w)}
    (h : makeRow win o c r = some info) : ∀ fi ∈ info, fi.fiSize = r.2.2.1 := by
  obtain ⟨stored, -, h⟩ := Option.bind_eq_some_iff.mp h
  unfold DArc.Archive.makeFi at h
  dsimp only at h
  obtain ⟨_, -, h⟩ := Option.bind_eq_some_iff.mp h
  obtain ⟨_, -, h⟩ := Option.bind_eq_some_iff.mp h
  obtain ⟨_, -, h⟩ := Option.bind_eq_some_iff.mp h
  have hinfo := Option.some.inj h
  intro fi hfi
  rw [← hinfo, Option.mem_def, Option.ite_some_none_eq_some] at hfi
  rw [← hfi.2]

/-- The rows have the sizes that are read. -/
lemma rows_sizes {s : List UInt8} {c : Columns w} (h : readColumns w s = some c) :
    c.rows.map (fun r => r.2.2.1) = c.sizes := by
  obtain ⟨-, hnames, hdirNumbers, hsizes, htimes, hdirFlags, -⟩ := DArc.Archive.length_of_readColumns h
  have hmap : c.rows.map (fun r => r.2.2.1) =
      ((c.rows.map Prod.snd).map Prod.snd).map Prod.fst := by
    rw [List.map_map, List.map_map]
    rfl
  rw [hmap, Columns.rows, List.map_snd_zip, List.map_snd_zip, List.map_fst_zip]
  all_goals simp only [List.length_zip, hnames, hdirNumbers, hsizes, htimes, hdirFlags, min_self, le_refl]

/-- The blocks have the numbers of files that are read. -/
lemma columnBlocks_files {s : List UInt8} {c : Columns w} (h : readColumns w s = some c)
    (isEncryption : Str → Bool) (arcpos : Int) {filesizes : List (List Int)}
    (hlen : filesizes.length = c.numOfFiles.length) :
    (columnBlocks isEncryption arcpos c filesizes).map ArchiveBlock.blFiles = c.numOfFiles := by
  obtain ⟨⟨hcompressors, hoffsets, hcompSizes⟩, -⟩ := DArc.Archive.length_of_readColumns h
  have hfiles : ((columnBlocks isEncryption arcpos c filesizes).map ArchiveBlock.blFiles) =
      ((((c.blCompressors.zip (c.blOffsets.zip ((filesizes.map List.sum).zip
        (c.blCompSizes.zip c.numOfFiles)))).map Prod.snd).map Prod.snd).map Prod.snd).map Prod.snd := by
    unfold columnBlocks
    rw [List.map_map, List.map_map, List.map_map, List.map_map]
    rfl
  rw [hfiles, List.map_snd_zip, List.map_snd_zip, List.map_snd_zip, List.map_snd_zip]
  all_goals simp only [List.length_zip, List.length_map, hcompressors, hoffsets, hcompSizes, hlen, min_self,
    le_refl]

/-- The files that are read are those of the blocks. -/
lemma dirParts_spec {win : Bool} {isEncryption : Str → Bool} {o : ReadOptions w} {arcpos : Int}
    {s : List UInt8} {blocks : List ArchiveBlock} {files : List (CompressedFile w)}
    (h : archiveReadDir win isEncryption o arcpos s = some (blocks, files)) :
    ∃ parts, dirParts win isEncryption o arcpos s = some parts ∧ parts.flatten = files ∧
      List.Forall₂ PartOf blocks parts := by
  obtain ⟨c, hc, hfrom⟩ := Option.bind_eq_some_iff.mp h
  obtain ⟨infos, hinfos, hfrom⟩ := Option.bind_eq_some_iff.mp hfrom
  obtain ⟨filesizes, hsplit, hfrom⟩ := Option.bind_eq_some_iff.mp hfrom
  have hrows : c.rows.mapM (makeRow win o c) = some infos := hinfos
  obtain ⟨-, -, -, hsizes, -, -, hcrcs⟩ := DArc.Archive.length_of_readColumns hc
  have hlens := map_length_splitByLens hsplit hsizes
  have hflat : filesizes.flatten = c.sizes := by
    obtain ⟨xss, hxss, hflat, -⟩ := DArc.Archive.splitByLens_of_length hsizes
    exact Option.some.inj (hsplit.symm.trans hxss) ▸ hflat
  have hfiles := columnBlocks_files hc isEncryption arcpos
    (by rw [← hlens, List.length_map] : filesizes.length = c.numOfFiles.length)
  have hall := mapM_eq_some_iff.mp hrows
  have hhas : List.Forall₂ HasSize c.sizes infos := by
    refine (List.forall₂_and_left _ _).mpr ⟨sizes_nonneg hc, ?_⟩
    rw [← rows_sizes hc, List.forall₂_map_left_iff]
    exact hall.imp fun r info hrow => makeRow_size hrow
  have hblocks : List.Forall₂ (fun (block : ArchiveBlock) (sizes : List Int) => sizes.length = block.blFiles)
      (columnBlocks isEncryption arcpos c filesizes) filesizes := by
    have heqs : List.Forall₂ Eq ((columnBlocks isEncryption arcpos c filesizes).map ArchiveBlock.blFiles)
        (filesizes.map List.length) := by
      rw [List.forall₂_eq_eq_eq, hfiles, hlens]
    rw [List.forall₂_map_left_iff, List.forall₂_map_right_iff] at heqs
    exact heqs.imp fun _ _ heq => heq.symm
  have hcount : c.crcs.length = infos.length := by
    rw [hcrcs, ← hhas.length_eq, hsizes]
  obtain ⟨hparts, hpartOf⟩ := blockParts_spec hblocks (hflat ▸ hhas) hcount
  have heq := Option.some.inj hfrom
  refine ⟨_, Option.bind_eq_some_iff.mpr ⟨c, hc, Option.bind_eq_some_iff.mpr ⟨infos, hrows,
    Option.bind_eq_some_iff.mpr ⟨filesizes, hsplit, rfl⟩⟩⟩, ?_, ?_⟩
  · rw [hparts, ← map_replicate_zip, hfiles]
    exact congrArg Prod.snd heq
  · have hfst : columnBlocks isEncryption arcpos c filesizes = blocks := congrArg Prod.fst heq
    rwa [← hfst]

/-- A part is from some block. -/
lemma exists_partOf {blocks : List ArchiveBlock} {parts : List (List (CompressedFile w))}
    (h : List.Forall₂ PartOf blocks parts) {part : List (CompressedFile w)} (hmem : part ∈ parts) :
    ∃ block, PartOf block part := by
  induction h with
  | nil => exact absurd hmem List.not_mem_nil
  | @cons block first blocks parts hfirst hrest ih =>
    rcases List.mem_cons.mp hmem with rfl | hmem
    · exact ⟨block, hfirst⟩
    · exact ih hmem

/-! ## The copy -/

/-- `copy_block`, behind the bytes that were written. -/
def copyBlock (old new : List UInt8) (block : ArchiveBlock) : List UInt8 :=
  new ++ slice old block.blPos block.blCompSize

/-- `compressionDeleteTempCompressors`. -/
def deleteTempCompressors (compressor : Compressor) : Compressor :=
  compressor.filter fun method => method ≠ text "tempfile"

/-- The block that is written for the copy; the directory does not have its other fields. -/
def copiedBlock (old new : List UInt8) (block : ArchiveBlock) : ArchiveBlock where
  blType := .dataBlock
  blCompressor := deleteTempCompressors block.blCompressor
  blPos := new.length
  blOrigSize := 0
  blCompSize := (copyBlock old new block).length - new.length
  blCRC := 0
  blFiles := 0
  blIsEncrypted := false

/-- `fileWithCRC`. -/
def fileWithCRC (f : CompressedFile w) : FileWithCRC w := { fwCRC := f.cfCRC, fwFileInfo := f.cfFileInfo }

/-- A file of the old archive is the file of the new one: the same packed bytes and methods, and the same bytes
of the data of the block. -/
structure FoundIn (old new : List UInt8) (f : CompressedFile w) (g : StoredFile w) : Prop where
  /-- The packed bytes are the same. -/
  packed : slice new g.block.blPos g.block.blCompSize =
    slice old f.cfArcBlock.blPos f.cfArcBlock.blCompSize
  /-- The methods are the same. -/
  compressor : g.block.blCompressor = deleteTempCompressors f.cfArcBlock.blCompressor
  /-- The size is the same. -/
  size : g.size = fileSize f
  /-- The bytes of the block are the same. -/
  bytes : ∀ data, slice data g.pos g.size = slice data f.cfPos (fileSize f)

/-- The files have all files of one block, with a size in the order of the archive, and are found in the copy of
the block of the first one when the new directory is written and read. -/
structure CopiesRight (parts : List (List (CompressedFile w))) (files : List (CompressedFile w)) : Prop where
  /-- The files are those of one block. -/
  whole : ∃ part ∈ parts, files.Perm part ∧ sized fileSize files = sized fileSize part
  /-- The files are found in the copy. -/
  found : ∀ (old new behind : List UInt8) (win nodates : Bool) (isEncryption : Str → Bool)
    (o : ReadOptions w) (arcpos : Int) (before after : List (ArchiveBlock × List (FileWithCRC w)))
    (dirdata : List (ArchiveBlock × List (FileWithCRC w))), ∀ first ∈ files.head?,
    dirdata = before ++ (copiedBlock old new first.cfArcBlock, files.map fileWithCRC) :: after →
    o.arcBasedir = [] → (∀ fi, o.filterF fi = true) → WellFormed win dirdata → InRange arcpos dirdata →
    ∃ s read front mine rest, archiveWriteDir nodates arcpos dirdata = some s ∧
      archiveReadDir win isEncryption o arcpos s =
        some (dirdata.map (DArc.Archive.restoredBlock isEncryption), read) ∧
      read.map CompressedFile.stored = front ++ mine ++ rest ∧ front.length = (filesOf before).length ∧
      List.Forall₂ (FoundIn old (copyBlock old new first.cfArcBlock ++ behind)) files mine

/-- What is found of a whole block. -/
lemma isWhole_spec {archiveName : Str} {files : List (CompressedFile w)}
    (h : isWholeSolidBlock (files.map (FileToCompress.compressedFile archiveName)) = true) :
    ∃ first ∈ files.head?, first.cfArcBlock.blFiles = files.length ∧
      files.Pairwise fun f g => f.cfPos ≤ g.cfPos := by
  cases files with
  | nil => exact absurd h Bool.false_ne_true
  | cons first files =>
    simp only [isWholeSolidBlock, List.map_cons, Bool.and_eq_true] at h
    refine ⟨first, rfl, ?_, ?_⟩
    · have hlen := of_decide_eq_true h.1.1.1.2
      rw [hlen, List.length_cons, List.length_cons, List.length_map]
    · have hsorted := pairwise_of_isAll h.2
      rw [← List.map_cons] at hsorted
      rwa [List.pairwise_map] at hsorted

/-- The copy has the bytes of the old block. -/
lemma slice_copyBlock (old new behind : List UInt8) (block : ArchiveBlock) :
    slice (copyBlock old new block ++ behind) (copiedBlock old new block).blPos
      (copiedBlock old new block).blCompSize = slice old block.blPos block.blCompSize := by
  generalize hpacked : slice old block.blPos block.blCompSize = packed
  have hcopy : copyBlock old new block = new ++ packed := by
    rw [copyBlock, hpacked]
  have hsize : (copiedBlock old new block).blCompSize.toNat = packed.length := by
    unfold copiedBlock
    dsimp only
    rw [hcopy, List.length_append]
    omega
  have hpos : (copiedBlock old new block).blPos.toNat = new.length := rfl
  rw [slice, hsize, hpos, hcopy, List.append_assoc, List.drop_left, List.take_left]

/-- There is an archived file for every file. -/
lemma length_archivedFiles (nodates : Bool) (isEncryption : Str → Bool)
    (dirdata : List (ArchiveBlock × List (FileWithCRC w))) :
    (dirdata.map (DArc.Archive.archivedFiles nodates isEncryption)).flatten.length =
      (filesOf dirdata).length := by
  induction dirdata with
  | nil => rfl
  | cons d dirdata ih =>
    have hfiles : filesOf (d :: dirdata) = d.2 ++ filesOf dirdata := rfl
    rw [List.map_cons, List.flatten_cons, hfiles, List.length_append, List.length_append, ih,
      DArc.Archive.archivedFiles, List.length_mapIdx]

/-- A relation of the items of a list to what is made of them and their numbers. -/
lemma forall₂_mapIdx {α β γ : Type} {R : α → γ → Prop} {g : α → β} {h : ℕ → β → γ} {xs : List α}
    (hall : ∀ before x after, xs = before ++ x :: after → R x (h before.length (g x))) :
    List.Forall₂ R xs ((xs.map g).mapIdx h) := by
  induction xs generalizing h with
  | nil => exact .nil
  | cons x xs ih =>
    rw [List.map_cons, List.mapIdx_cons]
    exact .cons (hall [] x xs rfl) (ih fun before y after heq => hall (x :: before) y after (heq ▸ rfl))

/-- The files of the copy are the files of the old block. -/
lemma found_in_copy (old new behind : List UInt8) {block : ArchiveBlock} (nodates win : Bool)
    (isEncryption : Str → Bool) {files : List (CompressedFile w)}
    (hplaced : Placed CompressedFile.cfPos fileSize 0 (sized fileSize files))
    (hblock : ∀ f ∈ files, f.cfArcBlock = block) :
    List.Forall₂ (FoundIn old (copyBlock old new block ++ behind)) files
      ((DArc.Archive.archivedFiles nodates isEncryption (copiedBlock old new block, files.map fileWithCRC)).map
        (StoredFile.restored win)) := by
  rw [List.forall₂_map_right_iff]
  refine forall₂_mapIdx fun front f rest hsplit => ?_
  have htake : (files.map fileWithCRC).take front.length = front.map fileWithCRC := by
    rw [hsplit, List.map_append]
    exact List.take_left' (List.length_map _)
  have hfrom := hblock f (hsplit ▸ List.mem_append_right _ List.mem_cons_self)
  dsimp only
  rw [htake, List.map_map]
  refine ⟨?_, by rw [hfrom]; rfl, rfl, fun data => ?_⟩
  · rw [hfrom]
    exact slice_copyBlock old new behind block
  · by_cases hzero : fileSize f = 0
    · have hsize : (fileWithCRC f).fwFileInfo.fiSize = 0 := hzero
      rw [hzero, DArc.Extract.slice_zero]
      exact (congrArg (slice data _) hsize).trans (DArc.Extract.slice_zero data _)
    · rw [hsplit] at hplaced
      rw [hplaced.pos_eq hzero, zero_add]
      rfl

/-- Files that were taken from one block, each at most once, are copied right. -/
lemma copiesRight_of_subperm {parts : List (List (CompressedFile w))} {part files : List (CompressedFile w)}
    {block : ArchiveBlock} (hmem : part ∈ parts) (hpart : PartOf block part) (hsub : files.Subperm part)
    {archiveName : Str}
    (hwhole : isWholeSolidBlock (files.map (FileToCompress.compressedFile archiveName)) = true) :
    CopiesRight parts files := by
  obtain ⟨first, hfirst, hlen, hsorted⟩ := isWhole_spec hwhole
  have hin : first ∈ part := hsub.subset (List.mem_of_mem_head? hfirst)
  have hblock := hpart.from_block first hin
  rw [hblock] at hlen
  have hle := hpart.length_le
  have hperm := hsub.perm_of_length_le (by omega)
  have hplaced := hpart.placed (by rw [← hperm.length_eq, hlen])
  have horder := hplaced.filter_eq_of_perm hpart.size_nonneg hperm hsorted
  refine ⟨⟨part, hmem, hperm, horder⟩, ?_⟩
  intro old new behind win nodates isEncryption o arcpos before after dirdata first' hfirst' hdir harc hfilter
    hwell hrange
  obtain rfl := Option.some.inj (hfirst.symm.trans hfirst')
  obtain ⟨s, read, hwrite, hread, hstored⟩ :=
    DArc.Archive.archiveReadDir_archiveWriteDir nodates isEncryption harc hfilter hwell hrange
  have hfound := found_in_copy old new behind nodates win isEncryption
    (horder ▸ hplaced.filter) fun f hf => hpart.from_block f (hperm.mem_iff.mp hf)
  rw [hblock]
  rw [hdir, List.map_append, List.map_cons, List.flatten_append, List.flatten_cons, List.map_append,
    List.map_append, hblock, ← List.append_assoc] at hstored
  refine ⟨s, read, _, _, _, hwrite, hread, hstored, ?_, hfound⟩
  rw [List.length_map, length_archivedFiles]

/-- **The list is copied right if and only if its files were taken from one block, each at most once.** -/
theorem copiesRight_iff {win : Bool} {isEncryption : Str → Bool} {o : ReadOptions w} {arcpos : Int}
    {s : List UInt8} {blocks : List ArchiveBlock} {files : List (CompressedFile w)}
    (h : archiveReadDir win isEncryption o arcpos s = some (blocks, files)) :
    ∃ parts, dirParts win isEncryption o arcpos s = some parts ∧ parts.flatten = files ∧
      ∀ (archiveName : Str) (list : List (CompressedFile w)),
        isWholeSolidBlock (list.map (FileToCompress.compressedFile archiveName)) = true →
          (CopiesRight parts list ↔ ∃ part ∈ parts, list.Subperm part) := by
  obtain ⟨parts, hparts, hflat, hall⟩ := dirParts_spec h
  refine ⟨parts, hparts, hflat, fun archiveName list hwhole => ⟨?_, ?_⟩⟩
  · rintro ⟨⟨part, hmem, hperm, -⟩, -⟩
    exact ⟨part, hmem, hperm.subperm⟩
  · rintro ⟨part, hmem, hsub⟩
    obtain ⟨block, hpart⟩ := exists_partOf hall hmem
    exact copiesRight_of_subperm hmem hpart hsub hwhole

/-! ## Two blocks at one position -/

/-- Two empty files in a block without bytes, and two files in the block behind it. -/
def twinColumns : Columns 4 where
  numOfFiles := [2, 2]
  blCompressors := [[text "storing"], [text "lzma"]]
  blOffsets := [5, 5]
  blCompSizes := [0, 5]
  dirnames := [[]]
  names := [text "a", text "b", text "c", text "d"]
  dirNumbers := [0, 0, 0, 0]
  sizes := [0, 0, 3, 4]
  times := [0, 0, 0, 0]
  dirFlags := [false, false, false, false]
  crcs := [0, 0, 0, 0]

/-- The directory of the two blocks. -/
def twinDirectory : List UInt8 := (DArc.Archive.writeColumns twinColumns).getD []

/-- All files are read. -/
def readAll : ReadOptions 4 where
  arcBasedir := []
  diskBasedir := []
  ep := 3
  filterF := fun _ => true

/-- The files of the two blocks. -/
def twinParts : List (List (CompressedFile 4)) :=
  (dirParts false (fun _ => false) readAll 5 twinDirectory).getD []

/-- The directory is read. -/
lemma twinDirectory_read : ∃ blocks files, archiveReadDir false (fun _ => false) readAll 5 twinDirectory =
    some (blocks, files) := by
  have hsome : (archiveReadDir false (fun _ => false) readAll 5 twinDirectory).isSome = true := by
    decide +kernel
  obtain ⟨⟨blocks, files⟩, heq⟩ := Option.isSome_iff_exists.mp hsome
  exact ⟨blocks, files, heq⟩

/-- The files of the two blocks are copied right when they are those of one block. -/
theorem copiesRight_iff_twin :
    ∃ parts : List (List (CompressedFile 4)), dirParts false (fun _ => false) readAll 5 twinDirectory =
        some parts ∧
      ∀ (archiveName : Str) (list : List (CompressedFile 4)),
        isWholeSolidBlock (list.map (FileToCompress.compressedFile archiveName)) = true →
          (CopiesRight parts list ↔ ∃ part ∈ parts, list.Subperm part) := by
  obtain ⟨blocks, files, hread⟩ := twinDirectory_read
  obtain ⟨parts, hparts, -, hall⟩ := copiesRight_iff hread
  exact ⟨parts, hparts, hall⟩

/-- **The first files of two blocks at one position are taken for a whole block.** -/
theorem not_copiesRight :
    ∃ parts blocks files list, dirParts false (fun _ => false) readAll 5 twinDirectory = some parts ∧
      archiveReadDir false (fun _ => false) readAll 5 twinDirectory = some (blocks, files) ∧
      list.Sublist files ∧ isWholeSolidBlock (list.map (FileToCompress.compressedFile [])) = true ∧
      ¬CopiesRight parts list := by
  obtain ⟨blocks, files, hread⟩ := twinDirectory_read
  have hfiles : (archiveReadDir false (fun _ => false) readAll 5 twinDirectory).map Prod.snd =
      some twinParts.flatten := by
    decide +kernel
  rw [hread] at hfiles
  have hflat : files = twinParts.flatten := Option.some.inj hfiles
  have hparts : dirParts false (fun _ => false) readAll 5 twinDirectory = some twinParts := by
    decide +kernel
  refine ⟨twinParts, blocks, files, twinParts.filterMap List.head?, hparts, hread, ?_, ?_, ?_⟩
  · rw [hflat]
    decide +kernel
  · decide +kernel
  · rintro ⟨⟨part, hmem, hperm, -⟩, -⟩
    have hnone : ∀ part ∈ twinParts, ¬(twinParts.filterMap List.head?).Perm part := by
      decide +kernel
    exact hnone part hmem hperm

end DArc.FileList
