import DArc.FileList.Files

/-!
# Joining the lists of files

`joinLists` makes the list of the files of a new archive from the files of the archive that is updated and
from the files that are added to it.  What the list should be is said by `chosen`: for every name, the file
that the mode of the update prescribes.

### Outline

* `removeDuplicates`, `mergeFilelists`, `joinLists`: the functions;
* `firstNamed`, `chosen`: what the mode prescribes for a name;
* `JoinsRight`: the list has one file for each name, the prescribed one.

### Main results

* `removeDuplicates_spec`: the first file of each name stays;
* `joinLists_iff`: when the list is right.
-/

namespace DArc.FileList

open DArc.Archive (Str FileInfo)

variable {w : ℕ}

/-! ## The functions -/

/-- The modes of an update: the `Char`s `a`, `f`, `u` and `s`. -/
inductive UpdateType
  | add | freshen | update | sync
  deriving DecidableEq

/-- The options that `joinLists` looks at; `ordering` is `map2cmp (keyFunc sort_order find_group)`. -/
structure JoinOptions (w : ℕ) where
  optUpdateType : UpdateType
  optAppend : Bool
  optSortOrder : Str
  ordering : Str → FileInfo w → FileInfo w → Ordering

/-- The keys of names. -/
abbrev Key := Option UInt32 × Option Str × Option Str

/-- `removeDuplicates` for the key `storedKey`, with what is in the hash table already. -/
def removeDuplicates : List (FileToCompress w) → List (Key × FileToCompress w) →
    List (FileToCompress w) × List (Key × FileToCompress w)
  | [], table => ([], table)
  | value :: values, table =>
    match table.lookup value.storedKey with
    | none =>
      let (list, table) := removeDuplicates values ((value.storedKey, value) :: table)
      (value :: list, table)
    | some _ => removeDuplicates values table

/-- `newer_file`. -/
def newerFile (arcfile diskfile : FileToCompress w) : FileToCompress w :=
  if diskfile.cfFileInfo.fiTime.toInt ≤ arcfile.cfFileInfo.fiTime.toInt then arcfile else diskfile

/-- `sync_file`. -/
def syncFile (arcfile diskfile : FileToCompress w) : FileToCompress w :=
  if arcfile.cfFileInfo.fiTime = diskfile.cfFileInfo.fiTime then arcfile else diskfile

/-- `select_file`, by the file that was found in the table. -/
def selectFile (mode : UpdateType) (arcfile : FileToCompress w) :
    Option (FileToCompress w) → Option (FileToCompress w)
  | none => if mode = .sync then none else some arcfile
  | some diskfile =>
    match mode with
    | .add => some diskfile
    | .sync => some (syncFile arcfile diskfile)
    | _ => some (newerFile arcfile diskfile)

/-- The sort order `"pn"`. -/
def pathOrder : Str := [0x70, 0x6E]

/-- `mergeFilelists`. -/
def mergeFilelists (o : JoinOptions w) (list₁ list₂ : List (FileToCompress w)) :
    List (FileToCompress w) :=
  let (dirs₁, files₁) := list₁.partition FileToCompress.isSpecial
  let (dirs₂, files₂) := list₂.partition FileToCompress.isSpecial
  merge (fun x y => o.ordering pathOrder x.cfFileInfo y.cfFileInfo) dirs₁ dirs₂ ++
    merge (fun x y => o.ordering o.optSortOrder x.cfFileInfo y.cfFileInfo) files₁ files₂

/-- `joinLists`, with the directories of the archives. -/
def joinLists (o : JoinOptions w) (mainArchive : List (FileToCompress w))
    (addedArchives : List (List (FileToCompress w))) (addedDiskfiles : List (FileInfo w)) :
    List (FileToCompress w) :=
  let (mainList, mainHash) := removeDuplicates mainArchive []
  let (addedList, addedHash) :=
    removeDuplicates (addedArchives.flatten ++ addedDiskfiles.map .diskFile) []
  if mainList = [] then addedList
  else if addedList = [] then if o.optUpdateType = .sync then [] else mainList
  else
    let list₁ := mainList.filterMap fun f => selectFile o.optUpdateType f (addedHash.lookup f.storedKey)
    let list₂ :=
      if o.optUpdateType = .freshen then []
      else addedList.filter fun f => (mainHash.lookup f.storedKey).isNone
    if o.optAppend then list₁ ++ list₂
    else if o.optSortOrder = [] then list₁ ++ list₂
    else mergeFilelists o list₁ list₂

/-! ## What the modes prescribe -/

/-- The first file with this name in a list. -/
def firstNamed (files : List (FileToCompress w)) (name : Key) : Option (FileToCompress w) :=
  files.find? fun f => f.storedKey = name

/-- The file that the mode prescribes for a name, from the files of that name in the archive and among those
that are added. -/
def chosen : UpdateType → Option (FileToCompress w) → Option (FileToCompress w) →
    Option (FileToCompress w)
  | .add, old, new => new.or old
  | .update, some old, some new => some (newerFile old new)
  | .update, old, new => new.or old
  | .freshen, some old, some new => some (newerFile old new)
  | .freshen, old, _ => old
  | .sync, some old, some new => some (syncFile old new)
  | .sync, _, new => new

/-- Whether a name is wanted, by whether it is in the archive and whether it is among the added ones. -/
def Wanted (inArchive isAdded : Prop) : UpdateType → Prop
  | .add | .update => inArchive ∨ isAdded
  | .freshen => inArchive
  | .sync => isAdded

/-- No two files have the same name, the names are the wanted ones, and for each name the list has the file
that the mode prescribes. -/
def JoinsRight (mode : UpdateType) (main added list : List (FileToCompress w)) : Prop :=
  (list.map FileToCompress.storedKey).Nodup ∧
    (∀ name, name ∈ list.map FileToCompress.storedKey ↔
      Wanted (name ∈ main.map FileToCompress.storedKey) (name ∈ added.map FileToCompress.storedKey) mode) ∧
    ∀ f, f ∈ list ↔ chosen mode (firstNamed main f.storedKey) (firstNamed added f.storedKey) = some f

/-! ## Names in lists -/

variable {mode : UpdateType} {main added list files : List (FileToCompress w)} {f : FileToCompress w}
  {name : Key}

/-- The first file with a name has that name. -/
lemma storedKey_of_firstNamed (h : firstNamed files name = some f) : f ∈ files ∧ f.storedKey = name :=
  ⟨List.mem_of_find?_eq_some h, by simpa using List.find?_some h⟩

/-- There is a first file with a name if there is one. -/
lemma firstNamed_isSome : (firstNamed files name).isSome ↔ name ∈ files.map FileToCompress.storedKey := by
  unfold firstNamed
  rw [List.find?_isSome, List.mem_map]
  simp only [decide_eq_true_eq]

/-- What is selected is one of the two files. -/
lemma selectFile_eq_some {old : FileToCompress w} {new : Option (FileToCompress w)}
    (h : selectFile mode old new = some f) : f = old ∨ new = some f := by
  have hnewer (new : FileToCompress w) : newerFile old new = old ∨ newerFile old new = new := by
    unfold newerFile
    split
    · exact .inl rfl
    · exact .inr rfl
  have hsync (new : FileToCompress w) : syncFile old new = old ∨ syncFile old new = new := by
    unfold syncFile
    split
    · exact .inl rfl
    · exact .inr rfl
  cases new with
  | none =>
    rw [selectFile] at h
    split at h
    · cases h
    · exact .inl (Option.some.inj h).symm
  | some new =>
    cases mode with
    | add => exact .inr h
    | sync =>
      obtain rfl := Option.some.inj h
      exact (hsync new).imp id fun h => congrArg some h.symm
    | freshen | update =>
      obtain rfl := Option.some.inj h
      exact (hnewer new).imp id fun h => congrArg some h.symm

/-- What is chosen for a name in the archive is what is selected. -/
lemma chosen_some (old : FileToCompress w) (new : Option (FileToCompress w)) :
    chosen mode (some old) new = selectFile mode old new := by
  cases mode <;> cases new <;> rfl

/-- What is chosen for a name that is not in the archive is what is added, unless the archive is only
freshened. -/
lemma chosen_none (new : Option (FileToCompress w)) :
    chosen mode none new = if mode = .freshen then none else new := by
  cases mode <;> cases new <;> rfl

/-- What is chosen has the name for which it is chosen. -/
lemma storedKey_of_chosen
    (h : chosen mode (firstNamed main name) (firstNamed added name) = some f) : f.storedKey = name := by
  cases hold : firstNamed main name with
  | none =>
    rw [hold, chosen_none] at h
    split at h
    · cases h
    · exact (storedKey_of_firstNamed h).2
  | some old =>
    rw [hold, chosen_some] at h
    rcases selectFile_eq_some h with rfl | hnew
    · exact (storedKey_of_firstNamed hold).2
    · exact (storedKey_of_firstNamed hnew).2

/-- Something is chosen for the wanted names. -/
lemma chosen_isSome : (chosen mode (firstNamed main name) (firstNamed added name)).isSome ↔
    Wanted (name ∈ main.map FileToCompress.storedKey) (name ∈ added.map FileToCompress.storedKey) mode := by
  rw [← firstNamed_isSome, ← firstNamed_isSome]
  cases firstNamed main name <;> cases firstNamed added name <;> cases mode <;> simp [chosen, Wanted]

/-- A list with the chosen files, none of them twice, is right. -/
lemma JoinsRight.of_chosen (hnodup : (list.map FileToCompress.storedKey).Nodup)
    (hmem : ∀ f, f ∈ list ↔
      chosen mode (firstNamed main f.storedKey) (firstNamed added f.storedKey) = some f) :
    JoinsRight mode main added list := by
  refine ⟨hnodup, fun name => ?_, hmem⟩
  rw [← chosen_isSome, List.mem_map, Option.isSome_iff_exists]
  constructor
  · rintro ⟨f, hf, rfl⟩
    exact ⟨f, (hmem f).mp hf⟩
  · rintro ⟨f, hf⟩
    have hkey := storedKey_of_chosen hf
    exact ⟨f, (hmem f).mpr (hkey.symm ▸ hf), hkey⟩

/-- The order of the list does not matter. -/
lemma JoinsRight.perm {list' : List (FileToCompress w)} (h : JoinsRight mode main added list)
    (hperm : list'.Perm list) : JoinsRight mode main added list' :=
  .of_chosen ((hperm.map _).nodup_iff.mpr h.1) fun f => hperm.mem_iff.trans (h.2.2 f)

/-! ## Removing duplicates -/

/-- **The first file of each name stays**, and it is in the table. -/
lemma removeDuplicates_spec (values : List (FileToCompress w)) (table : List (Key × FileToCompress w)) :
    ((removeDuplicates values table).1.map FileToCompress.storedKey).Nodup ∧
      (∀ f, f ∈ (removeDuplicates values table).1 ↔
        table.lookup f.storedKey = none ∧ firstNamed values f.storedKey = some f) ∧
      ∀ name, (removeDuplicates values table).2.lookup name =
        (table.lookup name).or (firstNamed values name) := by
  induction values generalizing table with
  | nil => exact ⟨List.nodup_nil, fun f => by simp [removeDuplicates, firstNamed],
      fun name => by simp [removeDuplicates, firstNamed]⟩
  | cons value values ih =>
    have hfirst (name : Key) : firstNamed (value :: values) name =
        if value.storedKey = name then some value else firstNamed values name := by
      unfold firstNamed
      rw [List.find?_cons]
      split <;> simp_all
    rw [removeDuplicates]
    cases hlookup : table.lookup value.storedKey with
    | some old =>
      obtain ⟨hnodup, hmem, htable⟩ := ih table
      refine ⟨hnodup, fun f => ?_, fun name => ?_⟩
      · rw [hmem, hfirst]
        refine and_congr_right fun hnone => ?_
        rw [if_neg]
        rintro heq
        rw [heq, hnone] at hlookup
        cases hlookup
      · rw [htable, hfirst]
        split
        next heq =>
          rw [← heq, hlookup]
          rfl
        next => rfl
    | none =>
      obtain ⟨hnodup, hmem, htable⟩ := ih ((value.storedKey, value) :: table)
      have hcons (name : Key) : List.lookup name ((value.storedKey, value) :: table) =
          if value.storedKey = name then some value else table.lookup name := by
        rw [List.lookup_cons]
        by_cases heq : value.storedKey = name
        · rw [if_pos heq, ← heq, beq_self_eq_true]
        · rw [if_neg heq, beq_false_of_ne (Ne.symm heq)]
      refine ⟨?_, fun f => ?_, fun name => ?_⟩
      · refine List.nodup_cons.mpr ⟨fun hin => ?_, hnodup⟩
        obtain ⟨f, hf, hkey⟩ := List.mem_map.mp hin
        have hnone := ((hmem f).mp hf).1
        rw [hcons, if_pos hkey.symm] at hnone
        cases hnone
      · rw [List.mem_cons, hmem, hcons, hfirst]
        by_cases heq : value.storedKey = f.storedKey
        · rw [if_pos heq, if_pos heq, ← heq, hlookup]
          simp only [reduceCtorEq, false_and, or_false, true_and, Option.some_inj]
          exact eq_comm
        · rw [if_neg heq, if_neg heq]
          exact or_iff_right fun hf => heq (hf ▸ rfl)
      · rw [htable, hcons, hfirst]
        split
        next heq =>
          rw [← heq, hlookup]
          rfl
        next => rfl

/-- A list is empty when the first file of each name stays in it and none does. -/
lemma removeDuplicates_eq_nil (values : List (FileToCompress w)) :
    (removeDuplicates values []).1 = [] ↔ values = [] := by
  cases values with
  | nil => exact iff_of_true rfl rfl
  | cons value values =>
    refine iff_of_false ?_ (List.cons_ne_nil _ _)
    rw [removeDuplicates, List.lookup_nil]
    exact List.cons_ne_nil _ _

/-! ## Both lists -/

/-- Selecting keeps names, so that no two selected files have one name. -/
lemma map_filterMap_sublist {g : FileToCompress w → Option (FileToCompress w)}
    (hg : ∀ x y, g x = some y → y.storedKey = x.storedKey) (xs : List (FileToCompress w)) :
    ((xs.filterMap g).map FileToCompress.storedKey).Sublist (xs.map FileToCompress.storedKey) := by
  induction xs with
  | nil => exact List.Sublist.refl _
  | cons x xs ih =>
    cases hx : g x with
    | none =>
      rw [List.filterMap_cons_none hx, List.map_cons]
      exact ih.cons _
    | some y =>
      rw [List.filterMap_cons_some hx, List.map_cons, List.map_cons, hg x y hx]
      exact ih.cons_cons _

/-- The selected files and the new ones are the chosen files. -/
lemma joinsRight_append {list₁ list₂ : List (FileToCompress w)}
    (h₁ : list₁ = (removeDuplicates main []).1.filterMap fun f =>
      selectFile mode f ((removeDuplicates added []).2.lookup f.storedKey))
    (h₂ : list₂ = if mode = .freshen then [] else (removeDuplicates added []).1.filter fun f =>
      ((removeDuplicates main []).2.lookup f.storedKey).isNone) :
    JoinsRight mode main added (list₁ ++ list₂) := by
  obtain ⟨hnodupMain, hmemMain, htableMain⟩ := removeDuplicates_spec main []
  obtain ⟨hnodupAdded, hmemAdded, htableAdded⟩ := removeDuplicates_spec added []
  simp only [List.lookup_nil, true_and, Option.none_or] at hmemMain hmemAdded htableMain htableAdded
  have hselect (x y : FileToCompress w)
      (h : selectFile mode x ((removeDuplicates added []).2.lookup x.storedKey) = some y) :
      y.storedKey = x.storedKey := by
    rcases selectFile_eq_some h with rfl | hnew
    · rfl
    · rw [htableAdded] at hnew
      exact (storedKey_of_firstNamed hnew).2
  have hmem₁ (f : FileToCompress w) : f ∈ list₁ ↔ ∃ old, firstNamed main f.storedKey = some old ∧
      selectFile mode old (firstNamed added f.storedKey) = some f := by
    rw [h₁, List.mem_filterMap]
    constructor
    · rintro ⟨old, hold, hf⟩
      have hkey := hselect old f hf
      rw [hmemMain, ← hkey] at hold
      rw [htableAdded, ← hkey] at hf
      exact ⟨old, hold, hf⟩
    · rintro ⟨old, hold, hf⟩
      have hkey := (storedKey_of_firstNamed hold).2
      refine ⟨old, (hmemMain old).mpr (hkey.symm ▸ hold), ?_⟩
      rwa [htableAdded, hkey]
  have hmem₂ (f : FileToCompress w) : f ∈ list₂ ↔ mode ≠ .freshen ∧
      firstNamed main f.storedKey = none ∧ firstNamed added f.storedKey = some f := by
    rw [h₂]
    by_cases hfreshen : mode = .freshen
    · simp [hfreshen]
    · rw [if_neg hfreshen, List.mem_filter, hmemAdded, htableMain, Option.isNone_iff_eq_none, and_comm]
      simp [hfreshen]
  apply JoinsRight.of_chosen
  · rw [List.map_append, List.nodup_append]
    have hsub₁ : (list₁.map FileToCompress.storedKey).Nodup :=
      (h₁ ▸ map_filterMap_sublist hselect _).nodup hnodupMain
    have hsub₂ : (list₂.map FileToCompress.storedKey).Nodup := by
      rw [h₂]
      split
      · exact List.nodup_nil
      · exact (List.filter_sublist.map _).nodup hnodupAdded
    refine ⟨hsub₁, hsub₂, ?_⟩
    rintro name hin₁ name' hin₂ rfl
    obtain ⟨f, hf, hkey⟩ := List.mem_map.mp hin₁
    obtain ⟨g, hg, hkey'⟩ := List.mem_map.mp hin₂
    obtain ⟨old, hold, -⟩ := (hmem₁ f).mp hf
    have hnone := ((hmem₂ g).mp hg).2.1
    rw [hkey', ← hkey, hold] at hnone
    cases hnone
  · intro f
    rw [List.mem_append, hmem₁, hmem₂]
    cases firstNamed main f.storedKey with
    | none =>
      rw [chosen_none]
      by_cases hfreshen : mode = .freshen <;> simp [hfreshen]
    | some old =>
      rw [chosen_some]
      simp

/-- When the archive has no files, the list of the added ones is right unless they are not wanted. -/
lemma joinsRight_nil_left : JoinsRight mode [] added (removeDuplicates added []).1 ↔
    mode ≠ .freshen ∨ added = [] := by
  obtain ⟨hnodup, hmem, -⟩ := removeDuplicates_spec added []
  simp only [List.lookup_nil, true_and] at hmem
  have hnone (name : Key) : firstNamed ([] : List (FileToCompress w)) name = none := rfl
  constructor
  · intro h
    by_contra hnot
    obtain ⟨hfreshen, hne⟩ := not_or.mp hnot
    obtain ⟨f, hf⟩ := List.exists_mem_of_ne_nil _ ((removeDuplicates_eq_nil added).not.mpr hne)
    have hchosen := (h.2.2 f).mp hf
    rw [hnone, chosen_none, if_pos (not_not.mp hfreshen)] at hchosen
    cases hchosen
  · intro h
    refine .of_chosen hnodup fun f => ?_
    rw [hmem, hnone, chosen_none]
    rcases h with hmode | rfl
    · rw [if_neg hmode]
    · rw [hnone, ite_self]

/-- When no files are added, the list of the files in the archive is right unless they are not wanted. -/
lemma joinsRight_nil_right :
    JoinsRight mode main [] (if mode = .sync then [] else (removeDuplicates main []).1) := by
  obtain ⟨hnodup, hmem, -⟩ := removeDuplicates_spec main []
  simp only [List.lookup_nil, true_and] at hmem
  have hnone (name : Key) : firstNamed ([] : List (FileToCompress w)) name = none := rfl
  have hchosen (f : FileToCompress w) :
      chosen mode (firstNamed main f.storedKey) (firstNamed [] f.storedKey) =
        if mode = .sync then none else firstNamed main f.storedKey := by
    rw [hnone]
    cases firstNamed main f.storedKey with
    | none => rw [chosen_none, ite_self, ite_self]
    | some old => rw [chosen_some, selectFile]
  by_cases hsync : mode = .sync
  · rw [if_pos hsync]
    refine .of_chosen List.nodup_nil fun f => ?_
    rw [hchosen, if_pos hsync]
    simp
  · rw [if_neg hsync]
    refine .of_chosen hnodup fun f => ?_
    rw [hchosen, if_neg hsync, hmem]

/-- Merging keeps the files of both lists. -/
lemma mergeFilelists_perm (o : JoinOptions w) (list₁ list₂ : List (FileToCompress w)) :
    (mergeFilelists o list₁ list₂).Perm (list₁ ++ list₂) := by
  unfold mergeFilelists
  simp only [List.partition_eq_filter_filter]
  refine ((merge_perm _ _ _).append (merge_perm _ _ _)).trans ?_
  have hmiddle : ((list₁.filter FileToCompress.isSpecial ++ list₂.filter FileToCompress.isSpecial) ++
      (list₁.filter (not ∘ FileToCompress.isSpecial) ++
        list₂.filter (not ∘ FileToCompress.isSpecial))).Perm
      ((list₁.filter FileToCompress.isSpecial ++ list₁.filter (not ∘ FileToCompress.isSpecial)) ++
        (list₂.filter FileToCompress.isSpecial ++ list₂.filter (not ∘ FileToCompress.isSpecial))) := by
    rw [List.append_assoc, List.append_assoc]
    refine List.Perm.append_left _ ?_
    rw [← List.append_assoc, ← List.append_assoc]
    exact List.Perm.append_right _ List.perm_append_comm
  exact hmiddle.trans ((List.filter_append_perm _ _).append (List.filter_append_perm _ _))

/-- **The list is right unless an archive without files is freshened** with files that are added. -/
theorem joinLists_iff (o : JoinOptions w) (mainArchive : List (FileToCompress w))
    (addedArchives : List (List (FileToCompress w))) (addedDiskfiles : List (FileInfo w)) :
    JoinsRight o.optUpdateType mainArchive (addedArchives.flatten ++ addedDiskfiles.map .diskFile)
        (joinLists o mainArchive addedArchives addedDiskfiles) ↔
      ¬(o.optUpdateType = .freshen ∧ mainArchive = [] ∧
        addedArchives.flatten ++ addedDiskfiles.map .diskFile ≠ []) := by
  unfold joinLists
  generalize addedArchives.flatten ++ addedDiskfiles.map .diskFile = added
  dsimp only
  rw [if_congr (removeDuplicates_eq_nil mainArchive) rfl rfl,
    if_congr (removeDuplicates_eq_nil added) rfl rfl]
  by_cases hmain : mainArchive = []
  · rw [if_pos hmain, hmain, joinsRight_nil_left]
    simp only [true_and, not_and_or, not_not, ne_eq]
  · rw [if_neg hmain]
    refine iff_of_true ?_ fun h => hmain h.2.1
    by_cases hadded : added = []
    · rw [if_pos hadded, hadded]
      exact joinsRight_nil_right
    · rw [if_neg hadded]
      have happend : JoinsRight o.optUpdateType mainArchive added (_ ++ _) := joinsRight_append rfl rfl
      split
      · exact happend
      · split
        · exact happend
        · exact happend.perm (mergeFilelists_perm o _ _)

/-- A file `a` on the disk. -/
def fileOnDisk : FileInfo w :=
  { fiFilteredName := .packed [] [0x61] 0x61 .rootDir, fiDiskName := .packed [] [0x61] 0x61 .rootDir,
    fiStoredName := .packed [] [0x61] 0x61 .rootDir, fiSize := 1, fiTime := 0, fiAttr := 0,
    fiIsDir := false, fiGroup := 0 }

/-- **Freshening an archive without files adds a file to it.** -/
theorem not_joinLists :
    ¬∀ (o : JoinOptions 4) (mainArchive : List (FileToCompress 4))
      (addedArchives : List (List (FileToCompress 4))) (addedDiskfiles : List (FileInfo 4)),
      JoinsRight o.optUpdateType mainArchive (addedArchives.flatten ++ addedDiskfiles.map .diskFile)
        (joinLists o mainArchive addedArchives addedDiskfiles) := by
  intro h
  have hright := h
    { optUpdateType := .freshen, optAppend := false, optSortOrder := [], ordering := fun _ _ _ => .eq }
    [] [] [fileOnDisk]
  have hchosen := (hright.2.2 (.diskFile fileOnDisk)).mp List.mem_cons_self
  cases hchosen

end DArc.FileList
