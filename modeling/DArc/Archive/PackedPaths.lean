import DArc.Archive.Directory
import DArc.Archive.SafePaths

/-!
# Packed paths

A `PackedFilePath` carries the hash of its full name without separators.  `packFilePath` computes it from the
hash of the parent directory and the base name, `packParentDirPath` from the name of a directory as a whole,
which it keeps as a base name without a directory.  Tables are searched with this hash, and with `(==)`, which
compares the hashes, the base names and the directories.

### Outline

* `splitDirFilename`, `packFilePath`: the constructors;
* `letters`, `fullHash`: the hash of a name from scratch;
* `Packed`: what is built by a chain of constructors, for a full name.

### Main results

* `Packed.fpHash_eq`: the hash that was carried along is that of the full name;
* `beq_iff`: equal parts make equal paths;
* `packed_consistent`: hashes, equality and lookups.
-/

namespace DArc.Archive

variable {win : Bool}

/-! ## The constructors -/

/-- `splitFileName`: the part up to the last separator, and the part behind it. -/
def splitFileName (win : Bool) (x : Str) : Str × Str :=
  let (c, d) := splitDrive win x
  let a := d.reverse.takeWhile fun c => !isPathSeparator win c
  let b := d.reverse.dropWhile fun c => !isPathSeparator win c
  (c ++ b.reverse, a.reverse)

/-- `hasTrailingPathSeparator`. -/
def hasTrailingPathSeparator (win : Bool) (x : Str) : Bool := x.getLast?.any (isPathSeparator win)

/-- `dropTrailingPathSeparator`. -/
def dropTrailingPathSeparator (win : Bool) (x : Str) : Str :=
  if hasTrailingPathSeparator win x && !isDrive win x then
    (x.reverse.dropWhile (isPathSeparator win)).reverse
  else x

/-- `splitDirFilename`. -/
def splitDirFilename (win : Bool) (str : Str) : Str × Str :=
  let (dir, name) := splitFileName win str
  match dir with
  | [d, c, s] => if c = colon then ([d, c, s], name) else (dropTrailingPathSeparator win dir, name)
  | _ => (dropTrailingPathSeparator win dir, name)

/-- `packFilePath`. -/
def packFilePath (win : Bool) (parent : PackedFilePath) (fullname : Str) : Option PackedFilePath :=
  let (dir, name) := splitDirFilename win fullname
  packFilePathPacked2 parent dir name

/-! ## Names without separators -/

/-- The characters of a name that are not separators. -/
def letters (win : Bool) (x : Str) : Str := x.filter fun c => !isPathSeparator win c

/-- The hash of a full name, computed from scratch. -/
def fullHash (win : Bool) (name : Str) : UInt32 := filenameHash 0 (letters win name)

/-- The characters of a joined name. -/
lemma letters_append (x y : Str) : letters win (x ++ y) = letters win x ++ letters win y :=
  List.filter_append x y

/-- Separators are not among the characters. -/
lemma letters_of_separators {x : Str} (h : ∀ c ∈ x, isPathSeparator win c = true) : letters win x = [] :=
  List.filter_eq_nil_iff.mpr fun c hc => by simp [h c hc]

/-- A name without separators has all its characters. -/
lemma letters_of_plain {x : Str} (h : ∀ c ∈ x, isPathSeparator win c = false) : letters win x = x :=
  List.filter_eq_self.mpr fun c hc => by simp [h c hc]

/-- The hash of a name goes on from the hash of its beginning. -/
lemma filenameHash_append (h : UInt32) (x y : Str) :
    filenameHash h (x ++ y) = filenameHash (filenameHash h x) y := List.foldl_append

/-- A drive with a name and what is behind it. -/
lemma readDriveShareName_join {x d rest : Str} (h : readDriveShareName win x = (d, rest)) :
    d ++ rest = x := by
  obtain ⟨name, seps, rfl, hx, -⟩ := readDriveShareName_eq h
  rw [List.append_assoc, ← hx]

/-- A drive with a letter and what is behind it. -/
lemma readDriveLetter_join {x : Str} {y : Str × Str} (h : readDriveLetter win x = some y) :
    y.1 ++ y.2 = x := by
  have hpair : readDriveLetter win x = some (y.1, y.2) := h
  obtain ⟨_, _, _, _, _, hx, _⟩ := readDriveLetter_eq_some hpair
  exact hx.symm

/-- A drive with a special prefix and what is behind it. -/
lemma readDriveUNC_join {x : Str} {y : Str × Str} (h : readDriveUNC win x = some y) : y.1 ++ y.2 = x := by
  unfold readDriveUNC at h
  split at h
  · next s₁ s₂ q s₃ xs =>
    split at h
    · split at h
      · generalize hname : readDriveShareName win (xs.drop 4) = name at h
        obtain rfl := Option.some.inj h
        dsimp only
        rw [List.append_assoc, readDriveShareName_join hname, List.append_assoc, List.take_append_drop]
        rfl
      · split at h
        · next a b hletter =>
          obtain rfl := Option.some.inj h
          have hjoin := readDriveLetter_join hletter
          dsimp only at hjoin ⊢
          rw [List.append_assoc, hjoin]
          rfl
        · cases h
    · cases h
  · cases h

/-- A drive that is a share and what is behind it. -/
lemma readDriveShare_join {x : Str} {y : Str × Str} (h : readDriveShare win x = some y) :
    y.1 ++ y.2 = x := by
  unfold readDriveShare at h
  split at h
  · next s₁ s₂ xs =>
    split at h
    · generalize hname : readDriveShareName win xs = name at h
      obtain rfl := Option.some.inj h
      dsimp only
      rw [List.append_assoc, readDriveShareName_join hname]
      rfl
    · cases h
  · cases h

/-- A drive and what is behind it. -/
lemma splitDrive_append (x : Str) : (splitDrive win x).1 ++ (splitDrive win x).2 = x := by
  unfold splitDrive
  split
  · exact List.takeWhile_append_dropWhile
  split
  · next y hy => exact readDriveLetter_join hy
  split
  · next y hy => exact readDriveUNC_join hy
  split
  · next y hy => exact readDriveShare_join hy
  split
  · next c xs _ _ _ =>
    split
    · unfold addSlash
      rw [List.append_assoc, List.takeWhile_append_dropWhile]
      rfl
    · rfl
  · rfl

/-- Dropping separators at the end drops nothing else. -/
lemma letters_dropTrailing (x : Str) : letters win (dropTrailingPathSeparator win x) = letters win x := by
  unfold dropTrailingPathSeparator
  split
  · have hsplit : x = (x.reverse.dropWhile (isPathSeparator win)).reverse ++
        (x.reverse.takeWhile (isPathSeparator win)).reverse := by
      rw [← List.reverse_append, List.takeWhile_append_dropWhile, List.reverse_reverse]
    conv_rhs => rw [hsplit, letters_append]
    rw [letters_of_separators (x := (x.reverse.takeWhile (isPathSeparator win)).reverse), List.append_nil]
    exact fun c hc => List.mem_takeWhile_imp (List.mem_reverse.mp hc)
  · rfl

variable (win) in
/-- A base name has no separators. -/
lemma splitFileName_plain (x : Str) : ∀ c ∈ (splitFileName win x).2, isPathSeparator win c = false := by
  intro c hc
  have hnot := List.mem_takeWhile_imp (List.mem_reverse.mp hc)
  simpa using hnot

variable (win) in
/-- A name is its directory and its base name. -/
lemma splitFileName_append (x : Str) : (splitFileName win x).1 ++ (splitFileName win x).2 = x := by
  unfold splitFileName
  dsimp only
  rw [List.append_assoc, ← List.reverse_append, List.takeWhile_append_dropWhile, List.reverse_reverse]
  exact splitDrive_append x

variable (win) in
/-- The directory and the base name have the characters of the name, and there is no separator in the base
name. -/
lemma splitDirFilename_spec (x : Str) :
    letters win (splitDirFilename win x).1 ++ (splitDirFilename win x).2 = letters win x ∧
      ∀ c ∈ (splitDirFilename win x).2, isPathSeparator win c = false := by
  have hplain := splitFileName_plain win x
  have hletters : letters win (splitFileName win x).1 ++ (splitFileName win x).2 = letters win x := by
    conv_rhs => rw [← splitFileName_append win x, letters_append, letters_of_plain hplain]
  unfold splitDirFilename
  generalize splitFileName win x = s at hplain hletters
  obtain ⟨dir, name⟩ := s
  dsimp only
  split
  · split
    · exact ⟨hletters, hplain⟩
    · rw [letters_dropTrailing]
      exact ⟨hletters, hplain⟩
  · rw [letters_dropTrailing]
    exact ⟨hletters, hplain⟩

/-! ## Chains of constructors -/

/-- A packed path is built for a full name: for a directory as a whole, or for a name whose directory, separators
apart, is the full name of the parent. -/
inductive Packed (win : Bool) : PackedFilePath → Str → Prop
  | root (dir : Str) : Packed win (packParentDirPath win dir) dir
  | child {parent fp : PackedFilePath} {dir fullname : Str} (hparent : Packed win parent dir)
      (hdir : letters win (splitDirFilename win fullname).1 = letters win dir)
      (hpack : packFilePath win parent fullname = some fp) : Packed win fp fullname

/-- The parts of a packed path, and its hash. -/
structure Consistent (win : Bool) (fp : PackedFilePath) (name dir base : Str) : Prop where
  directory_eq : fp.fpDirectory = some dir
  basename_eq : fp.fpBasename = some base
  hash_eq : fp.fpHash = some (fullHash win name)
  letters_eq : letters win dir ++ letters win base = letters win name
  plain : dir ≠ [] → ∀ c ∈ base, isPathSeparator win c = false

/-- The path of a directory as a whole is consistent. -/
lemma consistent_root (dir : Str) : Consistent win (packParentDirPath win dir) dir [] dir :=
  ⟨rfl, rfl, rfl, rfl, fun h => absurd rfl h⟩

/-- A path in a directory is consistent when the path of the directory is. -/
lemma Consistent.child {parent fp : PackedFilePath} {dir fullname d b : Str}
    (h : Consistent win parent dir d b) (hdir : letters win (splitDirFilename win fullname).1 = letters win dir)
    (hpack : packFilePath win parent fullname = some fp) :
    Consistent win fp fullname (splitDirFilename win fullname).1 (splitDirFilename win fullname).2 := by
  obtain ⟨hletters, hplain⟩ := splitDirFilename_spec win fullname
  have hhash : filenameHash (fullHash win dir) (splitDirFilename win fullname).2 = fullHash win fullname := by
    rw [fullHash, fullHash, ← filenameHash_append, ← hdir, hletters]
  have hpack' : fp = .packed (splitDirFilename win fullname).1 (splitDirFilename win fullname).2
      (filenameHash (fullHash win dir) (splitDirFilename win fullname).2) parent := by
    unfold packFilePath packFilePathPacked2 at hpack
    dsimp only at hpack
    rw [h.hash_eq] at hpack
    exact (Option.some.inj hpack).symm
  subst hpack'
  exact ⟨rfl, rfl, congrArg some hhash, by rw [letters_of_plain hplain, hletters], fun _ => hplain⟩

/-- Every path that is built by a chain of constructors is consistent. -/
lemma Packed.consistent {fp : PackedFilePath} {name : Str} (h : Packed win fp name) :
    ∃ dir base, Consistent win fp name dir base := by
  induction h with
  | root dir => exact ⟨[], dir, consistent_root dir⟩
  | child hparent hdir hpack ih =>
    obtain ⟨d, b, hconsistent⟩ := ih
    exact ⟨_, _, hconsistent.child hdir hpack⟩

/-- **The hash that is carried along is the hash of the full name.** -/
lemma Packed.fpHash_eq {fp : PackedFilePath} {name : Str} (h : Packed win fp name) :
    fp.fpHash = some (fullHash win name) := by
  obtain ⟨_, _, hconsistent⟩ := h.consistent
  exact hconsistent.hash_eq

/-- The name that is put together again has the same characters, unless a drive letter in the base name makes it
absolute. -/
lemma Consistent.fpFullname_eq {fp : PackedFilePath} {name dir base : Str}
    (h : Consistent win fp name dir base) (hdrive : win = true → dir ≠ [] → ¬ BeginsWithDrive base) :
    fp.fpFullname win = some (combine win dir base) ∧ letters win (combine win dir base) = letters win name := by
  refine ⟨?_, ?_⟩
  · unfold PackedFilePath.fpFullname
    rw [h.directory_eq, h.basename_eq]
    rfl
  · rw [← h.letters_eq]
    by_cases hdir : dir = []
    · subst hdir
      have hroot : combine win [] base = base := by
        unfold combine combineAlways
        rw [if_pos rfl, ite_self]
      rw [hroot]
      rfl
    · have hnone : hasDrive win base = false :=
        hasDrive_eq_false_iff.mpr
          ⟨fun c hc => h.plain hdir c (List.mem_of_mem_head? hc), fun hwin => hdrive hwin hdir⟩
      rw [combine_of_hasDrive_eq_false hdir hnone, letters_append, letters_append]
      congr 1
      split
      · rfl
      · rw [letters_of_separators (glue_separators win dir), List.nil_append]

/-! ## Equality and lookups -/

/-- Two paths have the same directory and base name. -/
def SameParts (p q : PackedFilePath) : Prop := p.fpDirectory = q.fpDirectory ∧ p.fpBasename = q.fpBasename

instance (p q : PackedFilePath) : Decidable (SameParts p q) := inferInstanceAs (Decidable (_ ∧ _))

/-- Paths with the same parts have the same hash. -/
lemma Packed.fpHash_congr {p q : PackedFilePath} {n m : Str} (hp : Packed win p n) (hq : Packed win q m)
    (h : SameParts p q) : p.fpHash = q.fpHash := by
  obtain ⟨d, b, hp'⟩ := hp.consistent
  obtain ⟨d', b', hq'⟩ := hq.consistent
  obtain ⟨hdir, hbase⟩ := h
  rw [hp'.directory_eq, hq'.directory_eq] at hdir
  rw [hp'.basename_eq, hq'.basename_eq] at hbase
  obtain rfl := Option.some.inj hdir
  obtain rfl := Option.some.inj hbase
  rw [hp'.hash_eq, hq'.hash_eq, fullHash, fullHash, ← hp'.letters_eq, ← hq'.letters_eq]

/-- Packed paths are equal when their parts are. -/
lemma beq_iff {p q : PackedFilePath} {n m : Str} (hp : Packed win p n) (hq : Packed win q m) :
    p.beq q = some (decide (SameParts p q)) := by
  have hcongr := hp.fpHash_congr hq
  obtain ⟨d, b, hp'⟩ := hp.consistent
  obtain ⟨d', b', hq'⟩ := hq.consistent
  cases p with
  | rootDir => cases hp'.hash_eq
  | packed dir base hash parent =>
    cases q with
    | rootDir => cases hq'.hash_eq
    | packed dir' base' hash' parent' =>
      refine congrArg some (decide_eq_decide.mpr ⟨?_, fun h => ?_⟩)
      · rintro ⟨-, rfl, rfl⟩
        exact ⟨rfl, rfl⟩
      · exact ⟨Option.some.inj (hcongr h), Option.some.inj h.2, Option.some.inj h.1⟩

/-- A lookup finds the newest entry with the same parts. -/
lemma lookup_eq {key : PackedFilePath} {m : Str} (hkey : Packed win key m)
    {table : List (PackedFilePath × ℕ)} (htable : ∀ e ∈ table, ∃ n, Packed win e.1 n) :
    lookup key table = some ((table.find? fun e => SameParts key e.1).map Prod.snd) := by
  induction table with
  | nil => rfl
  | cons e table ih =>
    obtain ⟨n, hn⟩ := htable e List.mem_cons_self
    have hrest := ih fun e' he' => htable e' (List.mem_cons_of_mem _ he')
    unfold lookup
    rw [beq_iff hkey hn]
    by_cases hsame : SameParts key e.1
    · rw [List.find?_cons, decide_eq_true hsame]
      rfl
    · rw [List.find?_cons, decide_eq_false hsame]
      exact hrest

/-- A path that `packFilePath` builds for a name which its directory and base name join to again. -/
structure Entry (win : Bool) (fp : PackedFilePath) (name : Str) : Prop where
  packed : Packed win fp name
  parts : fp.fpDirectory = some (splitDirFilename win name).1 ∧
    fp.fpBasename = some (splitDirFilename win name).2
  fullname : fp.fpFullname win = some name

/-- What `packFilePath` builds is an entry. -/
lemma entry_of_packFilePath {parent fp : PackedFilePath} {dir name : Str} (hparent : Packed win parent dir)
    (hdir : letters win (splitDirFilename win name).1 = letters win dir)
    (hpack : packFilePath win parent name = some fp) (hname : fp.fpFullname win = some name) :
    Entry win fp name := by
  obtain ⟨d, b, hconsistent⟩ := hparent.consistent
  have hchild := hconsistent.child hdir hpack
  exact ⟨.child hparent hdir hpack, ⟨hchild.directory_eq, hchild.basename_eq⟩, hname⟩

/-- Entries have the same parts when they have the same full name. -/
lemma Entry.sameParts_iff {p q : PackedFilePath} {n m : Str} (hp : Entry win p n) (hq : Entry win q m) :
    SameParts p q ↔ q.fpFullname win = some n := by
  constructor
  · rintro ⟨hdir, hbase⟩
    rw [← hp.fullname]
    unfold PackedFilePath.fpFullname
    rw [hdir, hbase]
  · intro h
    obtain rfl : m = n := Option.some.inj (hq.fullname.symm.trans h)
    exact ⟨hp.parts.1.trans hq.parts.1.symm, hp.parts.2.trans hq.parts.2.symm⟩

/-- A lookup among entries finds the newest one with the full name. -/
lemma lookup_entry {key : PackedFilePath} {m : Str} (hkey : Entry win key m)
    {table : List (PackedFilePath × ℕ)} (htable : ∀ e ∈ table, ∃ n, Entry win e.1 n) :
    lookup key table = some ((table.find? fun e => e.1.fpFullname win = some m).map Prod.snd) := by
  have hpacked : ∀ e ∈ table, ∃ n, Packed win e.1 n := fun e he =>
    let ⟨n, hn⟩ := htable e he
    ⟨n, hn.packed⟩
  rw [lookup_eq hkey.packed hpacked]
  congr 2
  refine List.find?_congr fun e he => ?_
  obtain ⟨n, hn⟩ := htable e he
  exact decide_eq_decide.mpr (hkey.sameParts_iff hn)

/-- **Packed paths are consistent**: for every chain of constructors the hash that is carried along is that of the
full name, as it was given and, unless a drive letter in the base name makes it absolute, as it is put together
again; paths with the same parts have the same hash and are equal; a lookup finds the newest entry with the same
parts, and among paths that `packFilePath` builds for names that are put together again it finds the newest
entry with the full name. -/
theorem packed_consistent (win : Bool) :
    (∀ fp name, Packed win fp name → fp.fpHash = some (fullHash win name) ∧
      ((win = true → fp.fpDirectory ≠ some [] → ∀ b ∈ fp.fpBasename, ¬ BeginsWithDrive b) →
        ∃ full, fp.fpFullname win = some full ∧ fp.fpHash = some (fullHash win full))) ∧
    (∀ p n q m, Packed win p n → Packed win q m → SameParts p q →
      p.fpHash = q.fpHash ∧ p.beq q = some true) ∧
    (∀ key m table, Packed win key m → (∀ e ∈ table, ∃ n, Packed win e.1 n) →
      lookup key table = some ((table.find? fun e => SameParts key e.1).map Prod.snd)) ∧
    ∀ key m table, Entry win key m → (∀ e ∈ table, ∃ n, Entry win e.1 n) →
      lookup key table = some ((table.find? fun e => e.1.fpFullname win = some m).map Prod.snd) := by
  refine ⟨fun fp name h => ⟨h.fpHash_eq, fun hdrive => ?_⟩, fun p n q m hp hq hsame => ⟨?_, ?_⟩,
    fun key m table hkey htable => lookup_eq hkey htable,
    fun key m table hkey htable => lookup_entry hkey htable⟩
  · obtain ⟨dir, base, hconsistent⟩ := h.consistent
    obtain ⟨hfull, hletters⟩ := hconsistent.fpFullname_eq fun hwin hdir =>
      hdrive hwin (by rw [hconsistent.directory_eq]; exact fun hnil => hdir (Option.some.inj hnil)) base
        hconsistent.basename_eq
    exact ⟨_, hfull, by rw [h.fpHash_eq, fullHash, fullHash, hletters]⟩
  · exact hp.fpHash_congr hq hsame
  · rw [beq_iff hp hq, decide_eq_true hsame]

/-- The path of the directory `a/b` as a whole. -/
def wholePath : PackedFilePath := packParentDirPath false [97, 47, 98]

/-- The path of `a/b` in the directory `a`. -/
def innerPath : PackedFilePath :=
  .packed [97] [98] (filenameHash (filenameHash 0 [97]) [98]) (packParentDirPath false [97])

/-- The path in the directory is built by a chain. -/
lemma packed_innerPath : Packed false innerPath [97, 47, 98] :=
  .child (.root [97]) (by decide +kernel) (by decide +kernel)

/-- Two paths with one full name: the hashes are the same, and a table of paths is searched by name for the one that
is built in its directory. -/
theorem packed_consistent_innerPath :
    innerPath.fpHash = some (fullHash false [97, 47, 98]) ∧
      lookup innerPath [(innerPath, 7)] =
        some (([(innerPath, 7)].find? fun e => e.1.fpFullname false = some [97, 47, 98]).map Prod.snd) := by
  have hentry : Entry false innerPath [97, 47, 98] :=
    entry_of_packFilePath (.root [97]) (by decide +kernel) (by decide +kernel) (by decide +kernel)
  refine ⟨((packed_consistent false).1 _ _ packed_innerPath).1,
    (packed_consistent false).2.2.2 _ _ _ hentry fun e he => ?_⟩
  obtain rfl := List.mem_singleton.mp he
  exact ⟨_, hentry⟩

/-- **A lookup does not find all entries with the full name**: the path of a directory as a whole is not equal to its
path in its parent directory. -/
theorem not_packed_consistent :
    ¬ ∀ win key m table, Packed win key m → (∀ e ∈ table, ∃ n, Packed win e.1 n) →
      lookup key table = some ((table.find? fun e => e.1.fpFullname win = key.fpFullname win).map Prod.snd) := by
  intro h
  have hlookup := h false innerPath _ [(wholePath, 7)] packed_innerPath fun e he => by
    obtain rfl := List.mem_singleton.mp he
    exact ⟨_, .root [97, 47, 98]⟩
  exact absurd hlookup (by decide +kernel)

end DArc.Archive
