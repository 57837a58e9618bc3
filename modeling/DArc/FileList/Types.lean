import DArc.Compression.Common
import DArc.Compression.Compressors
import DArc.FileList.Criteria

/-!
# Types of files

Before files are compressed, they are divided by types: by `arc.groups`, or by what is found in the files.
Groups of files whose probes differ are divided again.

### Outline

* `Command`: the settings;
* `Disk`: what is found when files are read;
* `check`, `bestType`, `chooseType`: the type of one file;
* `groupType`: the types of a group, with fuel;
* `splitFileTypes`: the types of all files.

### Main results

* `splitFileTypes_spec`: a file gets a type, or is lost when it was probed alone and could not be opened.
-/

namespace DArc.FileList

open DArc.Archive (Str FileInfo PackedFilePath)
open DArc.Compression (text Compressor isMMType typeByCompressor typesByCompressor)

variable {w : ℕ}

/-! ## Settings -/

/-- `Command`. -/
structure Command (w : ℕ) where
  /-- The types of files with their compressors. -/
  optDataCompressor : List (Str × Compressor)
  /-- How many types there are. -/
  optTypesCount : ℕ
  /-- The type of a file. -/
  optFindType : FileInfo w → ℕ
  /-- The type for a group of `arc.groups`. -/
  optGroup2type : Int → ℕ
  /-- The level of autodetection. -/
  optAutodetect : Int
  /-- The criteria for solid blocks. -/
  optGroupData : List Grouping
  /-- Whether old solid blocks are repacked. -/
  optRecompress : Bool
  /-- Whether compressed files are copied. -/
  optKeepOriginal : Bool
  /-- Types are less than their number. -/
  findType_lt : ∀ fi, optFindType fi < optTypesCount
  /-- Types of groups are less than their number. -/
  group2type_lt : ∀ group, optGroup2type group < optTypesCount

/-- `cfType`. -/
def Command.cfType (command : Command w) (file : FileToCompress w) : ℕ :=
  if file.cfFileInfo.fiGroup ≠ -1 then command.optGroup2type file.cfFileInfo.fiGroup
  else command.optFindType file.cfFileInfo

/-- `cfCompressor`; disk files have none. -/
def FileToCompress.cfCompressor : FileToCompress w → Compressor
  | diskFile _ => []
  | compressedFile _ file => file.cfArcBlock.blCompressor

/-- What is found when files are read. -/
structure Disk (w : ℕ) where
  /-- Whether a file of this name can be opened. -/
  tryOpen : PackedFilePath → Bool
  /-- Whether the file has multimedia data. -/
  detectMM : FileInfo w → Bool
  /-- The type of the data of a size at a position. -/
  detectType : FileInfo w → Int → Int → Str
  /-- The types that `detectType` knows. -/
  detectableTypes : List Str
  /-- `round . sqrt`. -/
  roundSqrt : Int → Int
  /-- `fpLCExtension`. -/
  lcExtension : PackedFilePath → Str

/-! ## The type of one file -/

/-- `aGroupSize`. -/
def groupSize : ℕ := 2 * mb

/-- `aCHUNKS`. -/
def maxChunks : ℕ := 5

/-- `aChunkSize`. -/
def chunkSize : ℕ := 64 * kb

/-- The name of a type. -/
def Command.typeName (command : Command w) (typ : ℕ) : Str :=
  (command.optDataCompressor[typ]?.map Prod.fst).getD []

/-- `getDefaultType`. -/
def getDefaultType (command : Command w) (disk : Disk w) (file : FileToCompress w) : Str :=
  let typ := command.typeName (command.cfType file)
  if typ = [] || disk.detectableTypes.contains typ then text "$binary" else typ

/-- `bestType`. -/
def bestType (dataTypes : List Str) : Str :=
  let x := dataTypes.filter (· ≠ text "default")
  let lenx := x.length
  let total := dataTypes.length
  match x with
  | [] => text "default"
  | typ :: _ =>
    if isAll (fun a b => a = b) x && (lenx = total || maxChunks ≤ total && lenx = total - 1 ||
        total * 11 ≤ lenx * 12) then typ
    else text "default"

/-- `chooseType`. -/
def chooseType (command : Command w) (dataTypes : List Str) (defaultType : Str) : ℕ :=
  let best := bestType dataTypes
  let best := if best = text "default" then defaultType else best
  ((command.optDataCompressor.map Prod.fst).idxOf? best).getD 0

/-- `check`; `none` when the file cannot be opened. -/
def check (disk : Disk w) (defaultType : Str) (blocksize : Int) (positions : List Int) :
    FileToCompress w → Option (List Str)
  | .compressedFile _ file =>
    if typesByCompressor.contains defaultType then some [typeByCompressor file.cfArcBlock.blCompressor]
    else some [defaultType]
  | .diskFile fi =>
    if disk.tryOpen fi.fiDiskName then
      if isMMType defaultType && disk.detectMM fi then some [defaultType]
      else some (positions.map (disk.detectType fi blocksize))
    else none

/-- `groupType [file]`. -/
def fileType (command : Command w) (disk : Disk w) (file : FileToCompress w) :
    List (ℕ × List (FileToCompress w)) :=
  let defaultType := getDefaultType command disk file
  let filesize := file.cfFileInfo.fiSize
  let chunks := filesize / chunkSize + 1
  let n := if chunks < maxChunks then chunks else disk.roundSqrt (maxChunks * chunks)
  let blocksize := min (chunkSize : Int) (filesize / n)
  let step := (filesize - n * blocksize) / n
  let positions := (List.range n.toNat).map fun k => (blocksize + step) * k
  match check disk defaultType blocksize positions file with
  | none => []
  | some dataTypes => [(chooseType command dataTypes defaultType, [file])]

/-! ## The types of a group -/

/-- `maxOn`. -/
def maxOn (f : FileToCompress w → Int) : List (FileToCompress w) → Option (FileToCompress w)
  | [] => none
  | x :: xs => some (xs.foldl (fun x y => if f y < f x then x else y) x)

/-- The groups of the files, and the files that are probed. -/
def fileGroups (disk : Disk w) (fuel : ℕ) (files : List (FileToCompress w)) :
    Option (List (List (FileToCompress w)) × List (FileToCompress w)) :=
  if files.length ≤ maxChunks then some (files.map fun file => [file], files)
  else
    let totallen := (files.map fun file => file.cfFileInfo.fiSize).sum
    (splitByLen (splitLen disk.lcExtension (.groupBySize (totallen / maxChunks))) fuel files).map fun groups =>
      (groups, groups.filterMap (maxOn fun file => file.cfFileInfo.fiSize))

/-- `groupType`, with fuel. -/
def groupType (command : Command w) (disk : Disk w) :
    ℕ → List (FileToCompress w) → Option (List (ℕ × List (FileToCompress w)))
  | 0, _ => none
  | _, [] => none
  | _, [file] => some (fileType command disk file)
  | fuel + 1, file :: files => do
    let defaultType := getDefaultType command disk file
    let (groups, filesToTry) ← fileGroups disk (fuel + 1) (file :: files)
    let dataTypes := filesToTry.flatMap fun tried =>
      (check disk defaultType chunkSize [0] tried).getD [text "default"]
    if isAll (fun a b => a = b) dataTypes then
      some [(chooseType command dataTypes defaultType, file :: files)]
    else return (← groups.mapM (groupType command disk fuel)).flatten

/-- `quick_and_dirty`. -/
def quickAndDirty (command : Command w) (disk : Disk w) : Bool :=
  command.optAutodetect ≤ 1 ||
    !(command.optDataCompressor.map Prod.fst).any fun typ => disk.detectableTypes.contains typ

/-- `deleteIf (null . snd) . zip [n..]`. -/
def numbered : ℕ → List (List (FileToCompress w)) → List (ℕ × List (FileToCompress w))
  | _, [] => []
  | n, [] :: groups => numbered (n + 1) groups
  | n, (file :: files) :: groups => (n, file :: files) :: numbered (n + 1) groups

/-- `splitFileTypes`, with fuel. -/
def splitFileTypes (command : Command w) (disk : Disk w) (fuel : ℕ) (files : List (FileToCompress w)) :
    Option (List (ℕ × List (FileToCompress w))) :=
  if quickAndDirty command disk then
    some (numbered 0 (partitionList command.optTypesCount command.cfType files))
  else do
    let groups ← splitBy disk.lcExtension [.groupByExt, .groupByBlockSize groupSize] true fuel files
    return (← groups.mapM (groupType command disk fuel)).flatten

/-! ## All files get types -/

/-- The file is on the disk and cannot be opened there, and types are found by reading files. -/
def Unreadable (command : Command w) (disk : Disk w) (file : FileToCompress w) : Prop :=
  quickAndDirty command disk = false ∧ ∃ fi, file = .diskFile fi ∧ disk.tryOpen fi.fiDiskName = false

/-- `check` fails for files that cannot be opened. -/
lemma check_eq_none {disk : Disk w} {defaultType : Str} {blocksize : Int} {positions : List Int}
    {file : FileToCompress w} (h : check disk defaultType blocksize positions file = none) :
    ∃ fi, file = .diskFile fi ∧ disk.tryOpen fi.fiDiskName = false := by
  cases file with
  | compressedFile archiveName file =>
    simp only [check] at h
    split at h <;> cases h
  | diskFile fi =>
    refine ⟨fi, rfl, ?_⟩
    simp only [check] at h
    split at h
    case isTrue => split at h <;> cases h
    case isFalse hclosed => exact Bool.eq_false_iff.mpr hclosed

/-- One position gives one type. -/
lemma length_of_check {disk : Disk w} {defaultType : Str} {blocksize position : Int}
    {file : FileToCompress w} {types : List Str}
    (h : check disk defaultType blocksize [position] file = some types) : types.length = 1 := by
  cases file with
  | compressedFile archiveName file =>
    simp only [check] at h
    split at h <;> cases h <;> rfl
  | diskFile fi =>
    simp only [check] at h
    split at h
    case isTrue => split at h <;> cases h <;> rfl
    case isFalse => cases h

/-- A file alone gets a type or is lost. -/
lemma fileType_parts {command : Command w} {disk : Disk w} (hslow : quickAndDirty command disk = false)
    (file : FileToCompress w) :
    Parts (Unreadable command disk) [file] ((fileType command disk file).map Prod.snd) := by
  unfold fileType
  dsimp only
  split
  case h_1 hnone => exact .lose ⟨hslow, check_eq_none hnone⟩
  case h_2 types hsome => exact .of_perm (by simp) (List.Perm.refl _)

/-- The groups make the files, and there is one probe for a group. -/
lemma fileGroups_spec (disk : Disk w) {fuel : ℕ} {files : List (FileToCompress w)}
    (hfuel : files.length < fuel) :
    ∃ groups tried, fileGroups disk fuel files = some (groups, tried) ∧ (∀ g ∈ groups, g ≠ []) ∧
      groups.flatten = files ∧ tried.length = groups.length := by
  unfold fileGroups
  split
  case isTrue =>
    refine ⟨files.map fun file => [file], files, rfl, fun g hg => ?_, ?_, (List.length_map _).symm⟩
    · obtain ⟨file, -, rfl⟩ := List.mem_map.mp hg
      exact List.cons_ne_nil _ _
    · rw [← List.flatMap_def, List.flatMap_singleton']
  case isFalse =>
    dsimp only
    generalize (files.map fun file => file.cfFileInfo.fiSize).sum / (maxChunks : Int) = size
    obtain ⟨groups, heq, hchop⟩ := splitByLen_spec
      (fun xs hxs => splitLen_pos disk.lcExtension (.groupBySize size) hxs) hfuel
    have hne : ∀ g ∈ groups, g ≠ [] := fun g hg => hchop.ne_nil hg
    refine ⟨groups, _, by rw [heq]; rfl, hne, hchop.flatten, ?_⟩
    clear heq hchop
    induction groups with
    | nil => rfl
    | cons g groups ih =>
      obtain ⟨x, xs, rfl⟩ := List.exists_cons_of_ne_nil (hne g List.mem_cons_self)
      have hrest := ih fun g hg => hne g (List.mem_cons_of_mem _ hg)
      rw [List.filterMap_cons, maxOn, List.length_cons, List.length_cons, hrest]

/-- One of several groups is shorter than the files. -/
lemma length_lt_of_groups {groups : List (List (FileToCompress w))} (hne : ∀ g ∈ groups, g ≠ [])
    (hlen : 2 ≤ groups.length) {g : List (FileToCompress w)} (hg : g ∈ groups) :
    g.length < groups.flatten.length := by
  obtain ⟨before, after, rfl⟩ := List.append_of_mem hg
  have hother : ∃ h ∈ before ++ after, h ≠ [] := by
    rw [List.length_append, List.length_cons] at hlen
    obtain ⟨h, hh⟩ := List.exists_mem_of_length_pos (l := before ++ after) (by
      rw [List.length_append]
      omega)
    refine ⟨h, hh, hne h ?_⟩
    rcases List.mem_append.mp hh with hh | hh
    · exact List.mem_append_left _ hh
    · exact List.mem_append_right _ (List.mem_cons_of_mem g hh)
  obtain ⟨h, hh, hpos⟩ := hother
  have hle : h.length ≤ (before ++ after).flatten.length := by
    rw [List.length_flatten]
    exact List.single_le_sum (by simp) _ (List.mem_map_of_mem hh)
  have hpos := List.length_pos_iff.mpr hpos
  simp only [List.flatten_append, List.flatten_cons, List.length_append] at hle ⊢
  omega

/-- There is one type for every file that is probed in one place. -/
lemma length_flatMap_check (disk : Disk w) (defaultType : Str) (blocksize position : Int)
    (tried : List (FileToCompress w)) :
    (tried.flatMap fun file =>
      (check disk defaultType blocksize [position] file).getD [text "default"]).length = tried.length := by
  induction tried with
  | nil => rfl
  | cons file tried ih =>
    rw [List.flatMap_cons, List.length_append, List.length_cons, ih, Nat.add_comm]
    congr 1
    cases hcheck : check disk defaultType blocksize [position] file with
    | none => rfl
    | some types => exact length_of_check hcheck

/-- Items that are not all related are two at least. -/
lemma two_le_of_not_isAll {α : Type} {f : α → α → Bool} {xs : List α} (h : ¬isAll f xs = true) :
    2 ≤ xs.length := by
  match xs with
  | [] => exact absurd rfl h
  | [x] => exact absurd rfl h
  | x :: y :: ys => simp

/-- A group gets types, or files of it are lost. -/
lemma groupType_parts {command : Command w} {disk : Disk w} (hslow : quickAndDirty command disk = false)
    {fuel : ℕ} {files : List (FileToCompress w)} (hfuel : files.length < fuel) (hne : files ≠ []) :
    ∃ groups, groupType command disk fuel files = some groups ∧
      Parts (Unreadable command disk) files (groups.map Prod.snd) := by
  induction fuel generalizing files with
  | zero => exact absurd hfuel (Nat.not_lt_zero _)
  | succ fuel ih =>
    obtain ⟨file, files, rfl⟩ := List.exists_cons_of_ne_nil hne
    cases files with
    | nil => exact ⟨_, rfl, fileType_parts hslow file⟩
    | cons second files =>
      obtain ⟨groups, tried, hgroups, hgne, hflat, htried⟩ := fileGroups_spec disk hfuel
      rw [groupType]
      swap
      · exact List.cons_ne_nil _ _
      simp only [hgroups, Option.bind_eq_bind, Option.bind_some]
      split
      case isTrue => exact ⟨_, rfl, .of_perm (by simp) (by simp)⟩
      case isFalse hdiffer =>
        have hlen := two_le_of_not_isAll hdiffer
        rw [length_flatMap_check, htried] at hlen
        have hall : ∀ g ∈ groups, ∃ parts, groupType command disk fuel g = some parts ∧
            Parts (Unreadable command disk) (id g) (parts.map Prod.snd) := by
          intro g hg
          have hlt := length_lt_of_groups hgne hlen hg
          rw [hflat] at hlt
          exact ih (by omega) (hgne g hg)
        obtain ⟨pss, hpss, hparts⟩ := Parts.exists_mapM hall
        rw [List.flatMap_id, hflat] at hparts
        exact ⟨_, by rw [hpss]; rfl, hparts⟩

/-- Only empty groups are left out. -/
lemma numbered_spec (n : ℕ) (groups : List (List (FileToCompress w))) :
    (∀ g ∈ (numbered n groups).map Prod.snd, g ≠ []) ∧
      ((numbered n groups).map Prod.snd).flatten = groups.flatten := by
  fun_induction numbered n groups with
  | case1 n => exact ⟨fun g hg => absurd hg List.not_mem_nil, rfl⟩
  | case2 n groups ih => exact ih
  | case3 n file files groups ih =>
    rw [List.map_cons, List.flatten_cons, List.flatten_cons, ih.2]
    refine ⟨fun g hg => ?_, rfl⟩
    rcases List.mem_cons.mp hg with rfl | hg
    · exact List.cons_ne_nil _ _
    · exact ih.1 g hg

/-- Types are less than their number. -/
lemma Command.cfType_lt (command : Command w) (file : FileToCompress w) :
    command.cfType file < command.optTypesCount := by
  unfold Command.cfType
  split
  · exact command.group2type_lt _
  · exact command.findType_lt _

/-- **Every file gets a type, or cannot be opened.** -/
lemma splitFileTypes_spec (command : Command w) (disk : Disk w) {fuel : ℕ}
    {files : List (FileToCompress w)} (hfuel : files.length < fuel) :
    ∃ groups, splitFileTypes command disk fuel files = some groups ∧
      Parts (Unreadable command disk) files (groups.map Prod.snd) := by
  cases hquick : quickAndDirty command disk with
  | true =>
    obtain ⟨hne, hflat⟩ := numbered_spec 0 (partitionList command.optTypesCount command.cfType files)
    refine ⟨_, if_pos hquick, .of_perm hne ?_⟩
    rw [hflat]
    exact partitionList_perm fun file _ => command.cfType_lt file
  | false =>
    have hcrits : [Grouping.groupByExt, .groupByBlockSize groupSize] ≠ [] := List.cons_ne_nil _ _
    obtain ⟨groups, hgroups, hchop⟩ := splitByLen_spec
      (fun xs hxs => computeLen_pos disk.lcExtension hcrits true hxs) hfuel
    have hall : ∀ g ∈ groups, ∃ parts, groupType command disk fuel g = some parts ∧
        Parts (Unreadable command disk) (id g) (parts.map Prod.snd) := by
      intro g hg
      have hle : g.length ≤ files.length := by
        rw [← hchop.flatten]
        exact (List.sublist_flatten_of_mem hg).length_le
      exact groupType_parts hquick (by omega) (hchop.ne_nil hg)
    obtain ⟨pss, hpss, hparts⟩ := Parts.exists_mapM hall
    rw [List.flatMap_id, hchop.flatten] at hparts
    have hsplit : splitBy disk.lcExtension [.groupByExt, .groupByBlockSize groupSize] true fuel files =
        some groups := (if_neg hcrits).trans hgroups
    refine ⟨pss.flatten, ?_, hparts⟩
    rw [splitFileTypes, if_neg (Bool.eq_false_iff.mp hquick), hsplit]
    simp only [Option.bind_eq_bind, Option.bind_some, hpss]
    rfl

/-! ## More fuel -/

/-- More fuel does not change the result. -/
lemma fileGroups_steady (disk : Disk w) (files : List (FileToCompress w)) :
    Steady fun fuel => fileGroups disk fuel files := by
  unfold fileGroups
  split
  · exact steady_const _
  · exact (splitByLen_steady _ files).map _

/-- More fuel does not change the result. -/
lemma groupType_steady (command : Command w) (disk : Disk w) (files : List (FileToCompress w)) :
    Steady fun fuel => groupType command disk fuel files := by
  intro fuel groups h
  induction fuel generalizing files groups with
  | zero => cases h
  | succ fuel ih =>
    cases files with
    | nil => cases h
    | cons file files =>
      cases files with
      | nil => exact h
      | cons second files =>
        simp only [groupType, Option.bind_eq_bind, Option.bind_eq_some_iff] at h ⊢
        obtain ⟨⟨parts, tried⟩, hparts, h⟩ := h
        refine ⟨(parts, tried), fileGroups_steady disk _ _ _ hparts, ?_⟩
        dsimp only at h ⊢
        split at h
        case isTrue hsame => rwa [if_pos hsame]
        case isFalse hdiffer =>
          rw [if_neg hdiffer]
          obtain ⟨found, hfound, heq⟩ := Option.bind_eq_some_iff.mp h
          have hmore := mapM_mono (fun part result hresult => ih part result hresult) hfound
          exact Option.bind_eq_some_iff.mpr ⟨found, hmore, heq⟩

/-- More fuel does not change the result. -/
lemma splitFileTypes_steady (command : Command w) (disk : Disk w) (files : List (FileToCompress w)) :
    Steady fun fuel => splitFileTypes command disk fuel files := by
  unfold splitFileTypes
  split
  · exact steady_const _
  · refine (splitBy_steady disk.lcExtension _ true files).bind fun groups => ?_
    exact (Steady.mapM (fun g => groupType_steady command disk g) groups).bind fun _ => steady_const _

end DArc.FileList
