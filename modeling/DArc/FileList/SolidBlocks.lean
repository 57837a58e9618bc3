import DArc.FileList.Types

/-!
# Solid blocks

The list of files from which an archive is made is split into solid blocks: directories, old blocks that are
copied, and blocks of files of one type.

### Outline

* `splitOneType`: the blocks of files of one type;
* `splitByType`: the files of every type;
* `splitToSolidBlocks`: all blocks.

### Main results

* `splitToSolidBlocks_spec`: the loops end, the blocks make the list but for files that cannot be opened, and
  old blocks are kept where the files of a type are split by criteria.
-/

namespace DArc.FileList

open DArc.Archive (Str FileInfo PackedFilePath)
open DArc.Compression (text Compressor noCompression isFakeMethod isFakeCompressor isDictMethod isTtaMethod
  isMmMethod isJpgMethod)

variable {w : ℕ}

/-! ## Blocks of one type -/

/-- A solid block: the compressor and the files. -/
abbrev SolidBlock (w : ℕ) := Compressor × List (FileToCompress w)

/-- `substr`. -/
def substr (haystack needle : Str) : Bool := haystack.tails.any fun rest => needle.isPrefixOf rest

/-- `makeNonSolid`. -/
def makeNonSolid (m : Str) : Bool :=
  (isTtaMethod m || isMmMethod m || isJpgMethod m) && (!substr m (text "*8") || substr m (text ":o"))

/-- `getBlockSize`, where `blockSize` is `CompressionLib.getBlockSize`. -/
def getBlockSize (blockSize : Str → ℕ) (method : Str) : ℕ :=
  if isFakeMethod method then 0 else blockSize method

/-- `addBlockSizeCrit`. -/
def addBlockSizeCrit (blockSize : Str → ℕ) (compressor : Compressor) (crits : List Grouping) : List Grouping :=
  match compressor with
  | [] => crits
  | algorithm :: rest =>
    if makeNonSolid algorithm then [.groupNone]
    else if isDictMethod algorithm then .groupByBlockSize (getBlockSize blockSize algorithm) :: crits
    else if rest = [] ∧ 0 < getBlockSize blockSize algorithm then
      .groupByBlockSize (getBlockSize blockSize algorithm) :: crits
    else crits

/-- Whether the files for this compressor are one block. -/
def undivided (compressor : Compressor) : Bool := isFakeCompressor compressor || compressor = noCompression

/-- `splitOneType`, with fuel. -/
def splitOneType (command : Command w) (disk : Disk w) (blockSize : Str → ℕ) (fuel : ℕ)
    (one : SolidBlock w) : Option (List (SolidBlock w)) :=
  if undivided one.1 then some [one]
  else
    (splitBy disk.lcExtension (addBlockSizeCrit blockSize one.1 command.optGroupData) command.optRecompress
      fuel one.2).map fun blocks => blocks.map fun files => (one.1, files)

/-! ## Files of every type -/

/-- `isCompressedFake`. -/
def isCompressedFake (file : FileToCompress w) : Bool :=
  file.isCompressedFile && isFakeCompressor file.cfCompressor

/-- `keyval (cfCompressor . head)`. -/
def withCompressor (files : List (FileToCompress w)) : SolidBlock w :=
  ((files.head?.map FileToCompress.cfCompressor).getD [], files)

/-- `concatSnds`. -/
def concatSnds (xs : List (SolidBlock w)) : SolidBlock w :=
  ((xs.head?.map Prod.fst).getD [], xs.flatMap Prod.snd)

/-- The compressor of a type. -/
def Command.typeCompressor (command : Command w) (typ : ℕ) : Compressor :=
  (command.optDataCompressor[typ]?.map Prod.snd).getD []

/-- `splitByType`, with fuel. -/
def splitByType (command : Command w) (disk : Disk w) (fuel : ℕ) (files : List (FileToCompress w)) :
    Option (List (SolidBlock w)) :=
  let (fake, normal) := files.partition isCompressedFake
  (splitFileTypes command disk fuel normal).map fun types =>
    let normalGroups := types.map fun (typ, group) => (command.typeCompressor typ, group)
    let fakeGroups := (sortAndGroupOn FileToCompress.cfCompressor fake).map withCompressor
    (sortAndGroupOn Prod.fst (fakeGroups ++ normalGroups)).map concatSnds

/-- `splitToSolidBlocks`, with fuel. -/
def splitToSolidBlocks (command : Command w) (disk : Disk w) (blockSize : Str → ℕ)
    (filelist : List (FileToCompress w)) (fuel : ℕ) : Option (List (SolidBlock w)) :=
  let (dirs, files) := filelist.partition FileToCompress.isSpecial
  let (solidBlocksToKeep, filesToSplit) :=
    if command.optKeepOriginal then files.partition FileToCompress.isCompressedFile else ([], files)
  (splitByType command disk fuel filesToSplit).bind fun types =>
    (types.mapM (splitOneType command disk blockSize fuel)).bind fun blocks =>
      some ((if dirs = [] then [] else [(noCompression, dirs)]) ++
        (groupOn FileToCompress.blockKey solidBlocksToKeep).map withCompressor ++ blocks.flatten)

/-! ## The blocks make the list -/

variable (command : Command w) (disk : Disk w) (blockSize : Str → ℕ)

/-- The blocks of one type are not empty and make its files. -/
lemma splitOneType_spec {fuel : ℕ} {one : SolidBlock w} (hfuel : one.2.length < fuel) (hne : one.2 ≠ []) :
    ∃ blocks, splitOneType command disk blockSize fuel one = some blocks ∧
      ∀ lost, Parts lost one.2 (blocks.map Prod.snd) := by
  unfold splitOneType
  split
  case isTrue =>
    exact ⟨[one], rfl, fun lost => .of_perm (by simpa using hne) (by simp)⟩
  case isFalse =>
    obtain ⟨blocks, hblocks, hblocksNe, hflat, -⟩ := splitBy_spec disk.lcExtension
      (addBlockSizeCrit blockSize one.1 command.optGroupData) command.optRecompress hfuel hne
    have hmap : (blocks.map fun files => (one.1, files)).map Prod.snd = blocks := by
      rw [List.map_map]
      exact List.map_id blocks
    refine ⟨_, by rw [hblocks]; rfl, fun lost => ?_⟩
    rw [hmap]
    exact .of_perm hblocksNe (hflat ▸ List.Perm.refl _)

/-- The files behind groups of pairs. -/
lemma map_concatSnds (groups : List (List (SolidBlock w))) :
    ((groups.map concatSnds).map Prod.snd).flatten = (groups.flatten.map Prod.snd).flatten := by
  induction groups with
  | nil => rfl
  | cons g groups ih =>
    rw [List.map_cons, List.map_cons, List.flatten_cons, ih, List.flatten_cons, List.map_append,
      List.flatten_append]
    rfl

/-- `withCompressor` keeps the files. -/
lemma map_withCompressor (groups : List (List (FileToCompress w))) :
    (groups.map withCompressor).map Prod.snd = groups := by
  rw [List.map_map]
  exact List.map_id groups

/-- Lists with one compressor are put together. -/
lemma regroup_parts {lost : FileToCompress w → Prop} {files : List (FileToCompress w)}
    {pairs : List (SolidBlock w)} (h : Parts lost files (pairs.map Prod.snd)) :
    Parts lost files (((sortAndGroupOn Prod.fst pairs).map concatSnds).map Prod.snd) := by
  have hperm := sortAndGroupOn_perm Prod.fst pairs
  refine h.refine_perm (.of_perm ?_ ?_)
  · intro p hp
    rw [List.map_map, List.mem_map] at hp
    obtain ⟨g, hg, rfl⟩ := hp
    obtain ⟨pair, rest, rfl⟩ := List.exists_cons_of_ne_nil (sortAndGroupOn_ne_nil hg)
    have hpair : pair ∈ pairs := hperm.mem_iff.mp (List.mem_flatten_of_mem hg List.mem_cons_self)
    have hne := h.ne_nil pair.2 (List.mem_map_of_mem hpair)
    exact fun hnil => hne (List.append_eq_nil_iff.mp hnil).1
  · rw [map_concatSnds]
    exact (hperm.map Prod.snd).flatten

/-- Every file is in the list of one type, or it cannot be opened. -/
lemma splitByType_spec {fuel : ℕ} {files : List (FileToCompress w)} (hfuel : files.length < fuel) :
    ∃ types, splitByType command disk fuel files = some types ∧
      Parts (Unreadable command disk) files (types.map Prod.snd) := by
  unfold splitByType
  rw [List.partition_eq_filter_filter]
  dsimp only
  have hnormal : (files.filter (not ∘ isCompressedFake)).length < fuel :=
    lt_of_le_of_lt (List.length_filter_le _ _) hfuel
  obtain ⟨types, htypes, hparts⟩ := splitFileTypes_spec command disk hnormal
  refine ⟨_, by rw [htypes]; rfl, ?_⟩
  have hfake : Parts (Unreadable command disk) (files.filter isCompressedFake)
      (sortAndGroupOn FileToCompress.cfCompressor (files.filter isCompressedFake)) :=
    .of_perm (fun g hg => sortAndGroupOn_ne_nil hg) (sortAndGroupOn_perm _ _)
  refine regroup_parts ?_
  rw [List.map_append, map_withCompressor, List.map_map]
  exact (hfake.append hparts).trans_perm (List.filter_append_perm isCompressedFake files)

/-- The blocks are not empty, and make the list but for files that cannot be opened. -/
lemma splitToSolidBlocks_parts {fuel : ℕ} {filelist : List (FileToCompress w)}
    (hfuel : filelist.length < fuel) :
    ∃ blocks, splitToSolidBlocks command disk blockSize filelist fuel = some blocks ∧
      Parts (Unreadable command disk) filelist (blocks.map Prod.snd) := by
  unfold splitToSolidBlocks
  rw [List.partition_eq_filter_filter]
  dsimp only
  generalize hdirs : filelist.filter FileToCompress.isSpecial = dirs
  generalize hfiles : filelist.filter (not ∘ FileToCompress.isSpecial) = files
  generalize hkeep : (if command.optKeepOriginal then files.partition FileToCompress.isCompressedFile
    else ([], files)) = keep
  have hall : (dirs ++ files).Perm filelist := by
    rw [← hdirs, ← hfiles]
    exact List.filter_append_perm FileToCompress.isSpecial filelist
  have hsplit : (keep.1 ++ keep.2).Perm files := by
    rw [← hkeep]
    split
    case isTrue =>
      rw [List.partition_eq_filter_filter]
      exact List.filter_append_perm FileToCompress.isCompressedFile files
    case isFalse => exact List.Perm.refl _
  have hlen : keep.2.length < fuel := by
    have hle := hsplit.length_eq
    have hle' := hall.length_eq
    rw [List.length_append] at hle hle'
    omega
  obtain ⟨types, htypes, htypesParts⟩ := splitByType_spec command disk hlen
  have hone : ∀ one ∈ types, ∃ blocks, splitOneType command disk blockSize fuel one = some blocks ∧
      Parts (Unreadable command disk) one.2 (blocks.map Prod.snd) := by
    intro one hmem
    have hmap := List.mem_map_of_mem (f := Prod.snd) hmem
    have hle : one.2.length ≤ keep.2.length := by
      obtain ⟨dropped, hperm, -⟩ := htypesParts.perm
      have hlen' := hperm.length_eq
      have hsub := (List.sublist_flatten_of_mem hmap).length_le
      rw [List.length_append] at hlen'
      omega
    obtain ⟨blocks, hblocks, hparts⟩ := splitOneType_spec command disk blockSize
      (lt_of_le_of_lt hle hlen) (htypesParts.ne_nil _ hmap)
    exact ⟨blocks, hblocks, hparts _⟩
  obtain ⟨blocks, hblocks, hparts⟩ := Parts.exists_mapM hone
  rw [htypes]
  simp only [Option.bind_some, hblocks]
  refine ⟨_, rfl, ?_⟩
  have hdirsParts : Parts (Unreadable command disk) dirs
      (((if dirs = [] then [] else [(noCompression, dirs)] : List (SolidBlock w))).map Prod.snd) := by
    split
    case isTrue hnil => exact hnil ▸ .of_perm (by simp) (List.Perm.refl _)
    case isFalse hne => exact .of_perm (by simpa using hne) (by simp)
  have hkept : Parts (Unreadable command disk) keep.1
      (((groupOn FileToCompress.blockKey keep.1).map withCompressor).map Prod.snd) := by
    rw [map_withCompressor]
    exact .of_perm (fun g hg => groupOn_ne_nil hg) (by rw [groupOn_flatten])
  have hrest : Parts (Unreadable command disk) keep.2 (blocks.flatten.map Prod.snd) :=
    htypesParts.refine_perm (by rwa [← List.flatMap_def])
  rw [List.map_append, List.map_append]
  refine ((hdirsParts.append hkept).append hrest).trans_perm ?_
  rw [List.append_assoc]
  exact (hsplit.append_left dirs).trans hall

/-- More fuel does not change the result. -/
lemma splitOneType_steady (one : SolidBlock w) :
    Steady fun fuel => splitOneType command disk blockSize fuel one := by
  unfold splitOneType
  split
  · exact steady_const _
  · exact (splitBy_steady disk.lcExtension _ _ one.2).map _

/-- More fuel does not change the result. -/
lemma splitToSolidBlocks_steady (filelist : List (FileToCompress w)) :
    Steady (splitToSolidBlocks command disk blockSize filelist) := by
  unfold splitToSolidBlocks
  refine ((splitFileTypes_steady command disk _).map _).bind fun types => ?_
  exact (Steady.mapM (splitOneType_steady command disk blockSize) types).bind fun _ => steady_const _

/-! ## Old blocks -/

/-- Whether the files for the compressor are split by criteria. -/
def splits (compressor : Compressor) : Prop :=
  undivided compressor = false ∧ addBlockSizeCrit blockSize compressor command.optGroupData ≠ []

/-- Whenever a whole old block begins what is left, the next block is the old one. -/
def KeepsOld (blocks : List (List (FileToCompress w))) : Prop :=
  ∀ before b after n, blocks = before ++ b :: after → solidBlockLen (b :: after).flatten = some n →
    b = (b :: after).flatten.take n

/-- Old blocks are kept where they are not repacked and the files are split by criteria. -/
lemma splitOneType_keeps {fuel : ℕ} {one : SolidBlock w} {blocks : List (SolidBlock w)}
    (hone : splitOneType command disk blockSize fuel one = some blocks)
    (hold : command.optRecompress = false) (hsplits : splits command blockSize one.1) :
    KeepsOld (blocks.map Prod.snd) := by
  obtain ⟨hundivided, hcrits⟩ := hsplits
  rw [splitOneType, if_neg (Bool.eq_false_iff.mp hundivided), splitBy, if_neg hcrits, hold] at hone
  obtain ⟨pieces, hpieces, rfl⟩ := Option.map_eq_some_iff.mp hone
  have hchop := chopped_of_splitByLen (fun xs hxs => computeLen_pos disk.lcExtension hcrits false hxs) hpieces
  have hmap : (pieces.map fun files => (one.1, files)).map Prod.snd = pieces := by
    rw [List.map_map]
    exact List.map_id pieces
  intro before b after n heq hn
  rw [hmap] at heq
  subst heq
  exact splitBy_keeps disk.lcExtension hchop hn

/-- Of the compressed files that are copied, an old block is a block if another one comes next. -/
lemma groupOn_keeps {files : List (FileToCompress w)} {before after : List (List (FileToCompress w))}
    {b : List (FileToCompress w)} {n : ℕ} (h : groupOn FileToCompress.blockKey files = before ++ b :: after)
    (hold : solidBlockLen (b :: after).flatten = some n)
    (hnext : ∀ file ∈ (b :: after).flatten.take n, ∀ next ∈ ((b :: after).flatten.drop n).head?,
      file.blockKey ≠ next.blockKey) : b = (b :: after).flatten.take n := by
  have hgroups := groupOn_flatten_of_append h
  have hwhole := solidBlockLen_eq_some hold
  have hkey := isWholeSolidBlock_blockKey hwhole
  have hcut := groupOn_append (isWholeSolidBlock_ne_nil hwhole) hkey hnext
  rw [List.take_append_drop, hgroups] at hcut
  exact (List.cons.inj hcut).1

/-- **The loops end, every block has files, the blocks make the list but for files that cannot be opened, and
old blocks are kept where the files of a type are split by criteria and where files are copied.** -/
theorem splitToSolidBlocks_spec (filelist : List (FileToCompress w)) :
    (∃ blocks, Converges (splitToSolidBlocks command disk blockSize filelist) blocks ∧
      Parts (Unreadable command disk) filelist (blocks.map Prod.snd)) ∧
    (∀ one blocks fuel, splitOneType command disk blockSize fuel one = some blocks →
      command.optRecompress = false → splits command blockSize one.1 → KeepsOld (blocks.map Prod.snd)) ∧
    ∀ files before b after n,
      (groupOn FileToCompress.blockKey files : List (List (FileToCompress w))) = before ++ b :: after →
      solidBlockLen (b :: after).flatten = some n →
      (∀ file ∈ (b :: after).flatten.take n, ∀ next ∈ ((b :: after).flatten.drop n).head?,
        file.blockKey ≠ next.blockKey) → b = (b :: after).flatten.take n := by
  refine ⟨?_, fun one blocks fuel hone hold hsplits =>
    splitOneType_keeps command disk blockSize hone hold hsplits,
    fun files before b after n h hold hnext => groupOn_keeps h hold hnext⟩
  obtain ⟨blocks, hblocks, hparts⟩ :=
    splitToSolidBlocks_parts command disk blockSize (Nat.lt_succ_self filelist.length)
  exact ⟨blocks, (splitToSolidBlocks_steady command disk blockSize filelist).converges hblocks, hparts⟩

/-! ## What the split does not do -/

/-- The blocks are a permutation of the list, and old blocks are kept whatever the settings are. -/
def SplitsAll (filelist : List (FileToCompress w)) : Prop :=
  ∃ blocks, Converges (splitToSolidBlocks command disk blockSize filelist) blocks ∧
    (∀ b ∈ blocks, b.2 ≠ []) ∧ (blocks.flatMap Prod.snd).Perm filelist ∧
    (command.optRecompress = false → KeepsOld (blocks.map Prod.snd))

/-- A disk where nothing can be opened. -/
def lockedDisk : Disk 4 where
  tryOpen := fun _ => false
  detectMM := fun _ => false
  detectType := fun _ _ _ => []
  detectableTypes := [text "$text"]
  roundSqrt := id
  lcExtension := fun _ => []

/-- Settings with one type. -/
def oneType (compressor : Compressor) (crits : List Grouping) (autodetect : Int) (keepOriginal : Bool) :
    Command 4 where
  optDataCompressor := [(text "$text", compressor)]
  optTypesCount := 1
  optFindType := fun _ => 0
  optGroup2type := fun _ => 0
  optAutodetect := autodetect
  optGroupData := crits
  optRecompress := false
  optKeepOriginal := keepOriginal
  findType_lt := fun _ => Nat.one_pos
  group2type_lt := fun _ => Nat.one_pos

/-- An empty file. -/
def emptyFile : FileInfo 4 where
  fiFilteredName := .rootDir
  fiDiskName := .rootDir
  fiStoredName := .rootDir
  fiSize := 0
  fiTime := 0
  fiAttr := 0
  fiIsDir := false
  fiGroup := -1

/-- The only file of a block. -/
def onlyFile (compressor : Compressor) (pos : Int) : FileToCompress 4 :=
  .compressedFile [] {
    cfFileInfo := emptyFile
    cfArcBlock := {
      blType := .dataBlock
      blCompressor := compressor
      blPos := pos
      blOrigSize := 0
      blCompSize := 0
      blCRC := 0
      blFiles := 1
      blIsEncrypted := false }
    cfPos := 0
    cfCRC := 0 }

/-- An old block is not kept when a file is put behind its files. -/
lemma not_splitsAll_of_glued {command : Command 4} {filelist : List (FileToCompress 4)} {fuel : ℕ}
    {compressor : Compressor} {old new : FileToCompress 4}
    (hrun : splitToSolidBlocks command lockedDisk (fun _ => 0) filelist fuel =
      some [(compressor, [old, new])])
    (hold : command.optRecompress = false) (hlen : solidBlockLen [old, new] = some 1) :
    ¬SplitsAll command lockedDisk (fun _ => 0) filelist := by
  rintro ⟨blocks, hblocks, -, -, hkeeps⟩
  have hconv := (splitToSolidBlocks_steady command lockedDisk (fun _ => 0) filelist).converges hrun
  obtain rfl := hblocks.unique hconv
  have hglued := hkeeps hold [] [old, new] [] 1 rfl hlen
  exact absurd (congrArg List.length hglued) (by simp)

/-- **A block is glued to a file behind it when it is stored, when its compressor is fake, when there are no
criteria, and when its file is copied twice; and a file that cannot be opened is lost.** -/
theorem not_splitsAll :
    ¬SplitsAll (oneType noCompression [.groupByNumber 1] 0 false) lockedDisk (fun _ => 0)
        [onlyFile noCompression 0, .diskFile emptyFile] ∧
      ¬SplitsAll (oneType [text "lzma"] [.groupByNumber 1] 0 false) lockedDisk (fun _ => 0)
        [onlyFile [text "crc"] 0, onlyFile [text "crc"] 1] ∧
      ¬SplitsAll (oneType [text "lzma"] [] 0 false) lockedDisk (fun _ => 0)
        [onlyFile [text "lzma"] 0, .diskFile emptyFile] ∧
      ¬SplitsAll (oneType [text "lzma"] [.groupByNumber 1] 0 true) lockedDisk (fun _ => 0)
        [onlyFile [text "lzma"] 0, onlyFile [text "lzma"] 0] ∧
      ¬SplitsAll (oneType [text "lzma"] [.groupByNumber 1] 9 false) lockedDisk (fun _ => 0)
        [.diskFile emptyFile] := by
  refine ⟨?_, ?_, ?_, ?_, ?_⟩
  · have hrun : splitToSolidBlocks (oneType noCompression [.groupByNumber 1] 0 false) lockedDisk (fun _ => 0)
        [onlyFile noCompression 0, .diskFile emptyFile] 3 =
        some [(noCompression, [onlyFile noCompression 0, .diskFile emptyFile])] := by
      decide +kernel
    exact not_splitsAll_of_glued hrun rfl (by decide +kernel)
  · have hrun : splitToSolidBlocks (oneType [text "lzma"] [.groupByNumber 1] 0 false) lockedDisk (fun _ => 0)
        [onlyFile [text "crc"] 0, onlyFile [text "crc"] 1] 3 =
        some [([text "crc"], [onlyFile [text "crc"] 0, onlyFile [text "crc"] 1])] := by
      decide +kernel
    exact not_splitsAll_of_glued hrun rfl (by decide +kernel)
  · have hrun : splitToSolidBlocks (oneType [text "lzma"] [] 0 false) lockedDisk (fun _ => 0)
        [onlyFile [text "lzma"] 0, .diskFile emptyFile] 3 =
        some [([text "lzma"], [onlyFile [text "lzma"] 0, .diskFile emptyFile])] := by
      decide +kernel
    exact not_splitsAll_of_glued hrun rfl (by decide +kernel)
  · have hrun : splitToSolidBlocks (oneType [text "lzma"] [.groupByNumber 1] 0 true) lockedDisk (fun _ => 0)
        [onlyFile [text "lzma"] 0, onlyFile [text "lzma"] 0] 3 =
        some [([text "lzma"], [onlyFile [text "lzma"] 0, onlyFile [text "lzma"] 0])] := by
      decide +kernel
    exact not_splitsAll_of_glued hrun rfl (by decide +kernel)
  · have hrun : splitToSolidBlocks (oneType [text "lzma"] [.groupByNumber 1] 9 false) lockedDisk (fun _ => 0)
        [.diskFile emptyFile] 2 = some [] := by
      decide +kernel
    rintro ⟨blocks, hblocks, -, hperm, -⟩
    have hconv := (splitToSolidBlocks_steady _ _ _ _).converges hrun
    obtain rfl := hblocks.unique hconv
    exact absurd hperm.length_eq (by simp)

end DArc.FileList
