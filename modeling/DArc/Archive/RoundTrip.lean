import DArc.Archive.Directory

/-!
# The round trip of the directory block

Two halves meet at the columns: columns of the right lengths are read as they were written
(`readColumns_writeColumns`), and `archiveReadDir` takes apart what `archiveWriteDir` put into them
(`fromColumns_eq`).  The table of directories is described by an invariant of the loop of
`enumDirectories` (`TableInvariant`): equal keys stand for equal directories.

### Main results

* `readColumns_writeColumns`: columns are read as they were written;
* `enumDirectories_eq`: the table holds the directory of every file at the number of the file;
* `archiveReadDir_archiveWriteDir`: blocks and files are read as they were written.
-/

namespace DArc.Archive

/-! ## Columns -/

/-- The numbers that can be written. -/
def Representable (x : Int) : Prop := 0 ≤ x ∧ x < 2 ^ 64

/-- A list of methods that can be told apart when they are joined by `+`. -/
def PlainCompressor (c : List Str) : Prop := c ≠ [] ∧ ∀ m ∈ c, plus ∉ m ∧ 0 ∉ m

/-- Representable lengths are read back. -/
lemma length_transmits {n : ℕ} (h : n < 2 ^ 64) : Transmits writeLength readLength n := by
  obtain ⟨w, hw, hread⟩ := integer_transmits (Int.natCast_nonneg n) (by exact_mod_cast h)
  refine ⟨w, hw, fun rest => ?_⟩
  unfold readLength
  rw [hread, Option.map_some, Int.toNat_natCast]

/-- A character of joined lists is in one of the lists or in the separator. -/
lemma mem_joinWith {a : Chr} {sep : Str} {xs : List Str} (h : a ∈ joinWith sep xs) :
    a ∈ sep ∨ ∃ x ∈ xs, a ∈ x := by
  induction xs with
  | nil => cases h
  | cons x xs ih =>
    by_cases hxs : xs = []
    · subst hxs
      exact Or.inr ⟨x, List.mem_cons_self, h⟩
    · rw [joinWith_cons _ _ hxs, List.mem_append, List.mem_append] at h
      rcases h with (h | h) | h
      · exact Or.inr ⟨x, List.mem_cons_self, h⟩
      · exact Or.inl h
      · rcases ih h with h | ⟨y, hy, h⟩
        · exact Or.inl h
        · exact Or.inr ⟨y, List.mem_cons_of_mem _ hy, h⟩

/-- There is no NUL in a plain compressor. -/
lemma PlainCompressor.nul_notMem {c : List Str} (h : PlainCompressor c) :
    (0 : Chr) ∉ joinWith [plus] c := by
  intro hmem
  rcases mem_joinWith hmem with hsep | ⟨m, hm, h₀⟩
  · exact absurd hsep (by decide)
  · exact (h.2 m hm).2 h₀

/-- Plain compressors are read back. -/
lemma compressor_transmits {c : List Str} (h : PlainCompressor c) :
    Transmits writeCompressor readCompressor c := by
  obtain ⟨w, hw, hread⟩ := string_transmits h.nul_notMem
  refine ⟨w, hw, fun rest => ?_⟩
  unfold readCompressor
  rw [hread, Option.map_some, split_joinWith h.1 fun m hm => (h.2 m hm).1]

/-- Columns that can be written: one item for each block or file, in the range of its format. -/
structure Columns.Regular {w : ℕ} (c : Columns w) : Prop where
  /-- There is an item for each block. -/
  blocks : c.blCompressors.length = c.numOfFiles.length ∧ c.blOffsets.length = c.numOfFiles.length ∧
    c.blCompSizes.length = c.numOfFiles.length
  /-- There is an item for each file. -/
  files : c.names.length = c.numOfFiles.sum ∧ c.dirNumbers.length = c.numOfFiles.sum ∧
    c.sizes.length = c.numOfFiles.sum ∧ c.times.length = c.numOfFiles.sum ∧
    c.dirFlags.length = c.numOfFiles.sum ∧ c.crcs.length = c.numOfFiles.sum
  /-- The lengths are representable. -/
  lengths : c.numOfFiles.length < 2 ^ 64 ∧ c.dirnames.length < 2 ^ 64
  /-- The counts and indices are representable. -/
  counts : (∀ n ∈ c.numOfFiles, n < 2 ^ 64) ∧ ∀ n ∈ c.dirNumbers, n < 2 ^ 64
  /-- The numbers are representable. -/
  numbers : (∀ x ∈ c.blOffsets, Representable x) ∧ (∀ x ∈ c.blCompSizes, Representable x) ∧
    ∀ x ∈ c.sizes, Representable x
  /-- The compressors can be told apart. -/
  compressors : ∀ m ∈ c.blCompressors, PlainCompressor m
  /-- There is no NUL in the strings. -/
  strings : (∀ d ∈ c.dirnames, (0 : Chr) ∉ d) ∧ ∀ n ∈ c.names, (0 : Chr) ∉ n

/-- **Columns**: what is written from regular columns is read as these columns. -/
theorem readColumns_writeColumns {w : ℕ} {c : Columns w} (h : c.Regular) :
    ∃ s, writeColumns c = some s ∧ readColumns w s = some c := by
  obtain ⟨hcompressors, hoffsets, hcompSizes⟩ := h.blocks
  obtain ⟨hnames, hdirNumbers, hsizes, htimes, hdirFlags, hcrcs⟩ := h.files
  have hinteger : ∀ x, Representable x → Transmits writeInteger readInteger x := fun _ hx =>
    integer_transmits hx.1 hx.2
  obtain ⟨w₁, hw₁, hr₁⟩ := length_transmits h.lengths.1
  obtain ⟨w₂, hw₂, hr₂⟩ := encodeAll_encodes fun n hn => length_transmits (h.counts.1 n hn)
  obtain ⟨w₃, hw₃, hr₃⟩ := encodeAll_encodes fun m hm => compressor_transmits (h.compressors m hm)
  obtain ⟨w₄, hw₄, hr₄⟩ := encodeAll_encodes fun x hx => hinteger x (h.numbers.1 x hx)
  obtain ⟨w₅, hw₅, hr₅⟩ := encodeAll_encodes fun x hx => hinteger x (h.numbers.2.1 x hx)
  obtain ⟨w₆, hw₆, hr₆⟩ := length_transmits h.lengths.2
  obtain ⟨w₇, hw₇, hr₇⟩ := encodeAll_encodes fun d hd => string_transmits (h.strings.1 d hd)
  obtain ⟨w₈, hw₈, hr₈⟩ := encodeAll_encodes fun n hn => string_transmits (h.strings.2 n hn)
  obtain ⟨w₉, hw₉, hr₉⟩ := encodeAll_encodes fun n hn => length_transmits (h.counts.2 n hn)
  obtain ⟨w₁₀, hw₁₀, hr₁₀⟩ := encodeAll_encodes fun x hx => hinteger x (h.numbers.2.2 x hx)
  obtain ⟨w₁₁, hw₁₁, hr₁₁⟩ := encodeAll_encodes fun x (_ : x ∈ c.times) => storable_transmits x
  obtain ⟨w₁₂, hw₁₂, hr₁₂⟩ := encodeAll_encodes fun x (_ : x ∈ c.dirFlags) => bool_transmits x
  obtain ⟨w₁₃, hw₁₃, hr₁₃⟩ := encodeAll_encodes fun x (_ : x ∈ c.crcs) => storable_transmits x
  obtain ⟨w₁₄, hw₁₄, -⟩ := hinteger tagEnd ⟨le_refl 0, by unfold tagEnd; omega⟩
  rw [hcompressors] at hr₃
  rw [hoffsets] at hr₄
  rw [hcompSizes] at hr₅
  rw [hnames] at hr₈
  rw [hdirNumbers] at hr₉
  rw [hsizes] at hr₁₀
  rw [htimes] at hr₁₁
  rw [hdirFlags] at hr₁₂
  rw [hcrcs] at hr₁₃
  refine ⟨[w₁, w₂, w₃, w₄, w₅, w₆, w₇, w₈, w₉, w₁₀, w₁₁, w₁₂, w₁₃, w₁₄].flatten, ?_, ?_⟩
  · unfold writeColumns
    rw [hw₁, hw₂, hw₃, hw₄, hw₅, hw₆, hw₇, hw₈, hw₉, hw₁₀, hw₁₁, hw₁₂, hw₁₃, hw₁₄]
    exact joinAll_eq_some [w₁, w₂, w₃, w₄, w₅, w₆, w₇, w₈, w₉, w₁₀, w₁₁, w₁₂, w₁₃, w₁₄]
  · refine Option.bind_eq_some_iff.mpr ⟨_, hr₁ _, ?_⟩
    refine Option.bind_eq_some_iff.mpr ⟨_, hr₂ _, ?_⟩
    refine Option.bind_eq_some_iff.mpr ⟨_, hr₃ _, ?_⟩
    refine Option.bind_eq_some_iff.mpr ⟨_, hr₄ _, ?_⟩
    refine Option.bind_eq_some_iff.mpr ⟨_, hr₅ _, ?_⟩
    refine Option.bind_eq_some_iff.mpr ⟨_, hr₆ _, ?_⟩
    refine Option.bind_eq_some_iff.mpr ⟨_, hr₇ _, ?_⟩
    refine Option.bind_eq_some_iff.mpr ⟨_, hr₈ _, ?_⟩
    refine Option.bind_eq_some_iff.mpr ⟨_, hr₉ _, ?_⟩
    refine Option.bind_eq_some_iff.mpr ⟨_, hr₁₀ _, ?_⟩
    refine Option.bind_eq_some_iff.mpr ⟨_, hr₁₁ _, ?_⟩
    refine Option.bind_eq_some_iff.mpr ⟨_, hr₁₂ _, ?_⟩
    exact Option.bind_eq_some_iff.mpr ⟨_, hr₁₃ _, rfl⟩

/-! ## The table of directories -/

section

variable {w : ℕ} {win : Bool}

/-- A path of a file in the archive: its directory is the full name of its parent. -/
def IsStored (win : Bool) (p : PackedFilePath) (directory basename : Str) : Prop :=
  ∃ hash parent, p = .packed directory basename hash parent ∧
    parent.fpPackedFullname win = some directory

/-- Paths with a full name can be compared, and equal paths have the same full name. -/
lemma beq_eq_some {p q : PackedFilePath} {d e : Str} (hp : p.fpPackedFullname win = some d)
    (hq : q.fpPackedFullname win = some e) :
    ∃ b, p.beq q = some b ∧ (b = true → d = e) := by
  cases p with
  | rootDir => cases hp
  | packed d₁ b₁ h₁ p₁ =>
    cases q with
    | rootDir => cases hq
    | packed d₂ b₂ h₂ p₂ =>
      refine ⟨_, rfl, fun h => ?_⟩
      obtain ⟨-, rfl, rfl⟩ := of_decide_eq_true h
      rw [← Option.some_inj, ← hp, ← hq]
      rfl

/-- Every entry of the table leads to the name of its directory. -/
def TableInvariant (win : Bool) (table : List (PackedFilePath × ℕ)) (dirnames : List Str) : Prop :=
  ∀ e ∈ table, ∃ d, e.1.fpPackedFullname win = some d ∧ dirnames[e.2]? = some d

/-- A directory that is found has its number in the table. -/
lemma lookup_eq_some {table : List (PackedFilePath × ℕ)} {dirnames : List Str}
    (h : TableInvariant win table dirnames) {key : PackedFilePath} {d : Str}
    (hkey : key.fpPackedFullname win = some d) :
    ∃ r, lookup key table = some r ∧ ∀ v ∈ r, dirnames[v]? = some d := by
  induction table with
  | nil => exact ⟨none, rfl, fun v hv => by cases hv⟩
  | cons e table ih =>
    obtain ⟨k, v⟩ := e
    obtain ⟨f, hf, hname⟩ := h (k, v) List.mem_cons_self
    obtain ⟨b, hb, heq⟩ := beq_eq_some hkey hf
    obtain ⟨r, hr, hfound⟩ := ih fun e he => h e (List.mem_cons_of_mem _ he)
    unfold lookup
    rw [hb, hr]
    cases b with
    | true =>
      refine ⟨some v, rfl, fun x hx => ?_⟩
      obtain rfl := Option.some.inj hx
      rw [heq rfl]
      exact hname
    | false => exact ⟨r, rfl, hfound⟩

/-- A new directory keeps the invariant. -/
lemma TableInvariant.insert {table : List (PackedFilePath × ℕ)} {dirnames : List Str}
    (h : TableInvariant win table dirnames) {key : PackedFilePath} {d : Str}
    (hkey : key.fpPackedFullname win = some d) :
    TableInvariant win ((key, dirnames.length) :: table) (dirnames ++ [d]) := by
  intro e he
  rcases List.mem_cons.mp he with rfl | he
  · exact ⟨d, hkey, List.getElem?_concat_length⟩
  · obtain ⟨f, hf, hname⟩ := h e he
    obtain ⟨hlt, -⟩ := List.getElem?_eq_some_iff.mp hname
    exact ⟨f, hf, (List.getElem?_append_left hlt).trans hname⟩

/-- The number of a file leads to its directory. -/
def NumberOf (dirnames : List Str) (fi : FileInfo w) (n : ℕ) : Prop :=
  n < dirnames.length ∧ dirnames[n]? = fi.fiStoredName.fpDirectory

/-- The numbers of the files are those of directories. -/
lemma number_lt {dirnames : List Str} {files : List (FileInfo w)} {numbers : List ℕ}
    (h : List.Forall₂ (NumberOf dirnames) files numbers) : ∀ n ∈ numbers, n < dirnames.length := by
  induction h with
  | nil => exact fun n hn => absurd hn List.not_mem_nil
  | cons hf _ ih =>
    intro n hn
    rcases List.mem_cons.mp hn with rfl | hn
    · exact hf.1
    · exact ih n hn

/-- The loop of `enumDirectories` extends the table, and numbers the files by it. -/
lemma enumFrom_eq {files : List (FileInfo w)}
    (hfiles : ∀ fi ∈ files, ∃ d b, IsStored win fi.fiStoredName d b)
    {table : List (PackedFilePath × ℕ)} {dirnames : List Str} (h : TableInvariant win table dirnames.reverse)
    (dirNumbers : List ℕ) :
    ∃ names numbers, enumFrom table files dirnames dirNumbers dirnames.length =
        some ((dirnames.reverse ++ names).length, dirnames.reverse ++ names,
          dirNumbers.reverse ++ numbers) ∧
      names.length ≤ files.length ∧ (∀ d ∈ names, ∃ fi ∈ files, fi.fiStoredName.fpDirectory = some d) ∧
      List.Forall₂ (NumberOf (dirnames.reverse ++ names)) files numbers := by
  induction files generalizing table dirnames dirNumbers with
  | nil => exact ⟨[], [], by simp [enumFrom], le_refl 0, by simp, List.Forall₂.nil⟩
  | cons fi files ih =>
    have hrest : ∀ fi ∈ files, ∃ d b, IsStored win fi.fiStoredName d b := fun f hf =>
      hfiles f (List.mem_cons_of_mem _ hf)
    obtain ⟨d, b, hash, parent, hpath, hfull⟩ := hfiles fi List.mem_cons_self
    have hdir : fi.fiStoredName.fpDirectory = some d := by rw [hpath]; rfl
    have hparent : fi.fiStoredName.fpParent = some parent := by rw [hpath]; rfl
    obtain ⟨r, hr, hfound⟩ := lookup_eq_some h hfull
    cases r with
    | none =>
      -- The directory is new: its number is the length of the table.
      have hinsert := h.insert hfull
      rw [List.length_reverse, ← List.reverse_cons] at hinsert
      obtain ⟨names, numbers, hrun, hlen, hnames, hnumbers⟩ :=
        ih hrest hinsert (dirnames.length :: dirNumbers)
      rw [List.reverse_cons, List.append_assoc, List.singleton_append] at hrun hnumbers
      refine ⟨d :: names, dirnames.length :: numbers, ?_, ?_, ?_, List.Forall₂.cons ⟨?_, ?_⟩ hnumbers⟩
      · unfold enumFrom
        rw [hparent, hdir]
        simp only [Option.bind_eq_bind, Option.bind_some, hr]
        rw [List.length_cons, List.reverse_cons, List.append_assoc, List.singleton_append] at hrun
        exact hrun
      · exact Nat.succ_le_succ hlen
      · intro x hx
        rcases List.mem_cons.mp hx with rfl | hx
        · exact ⟨fi, List.mem_cons_self, hdir⟩
        · obtain ⟨f, hf, hx⟩ := hnames x hx
          exact ⟨f, List.mem_cons_of_mem _ hf, hx⟩
      · simp
      · rw [hdir, List.getElem?_append_right (by simp), List.length_reverse, Nat.sub_self]
        rfl
    | some v =>
      obtain ⟨names, numbers, hrun, hlen, hnames, hnumbers⟩ := ih hrest h (v :: dirNumbers)
      rw [List.reverse_cons, List.append_assoc, List.singleton_append] at hrun
      have hv := hfound v rfl
      obtain ⟨hlt, -⟩ := List.getElem?_eq_some_iff.mp hv
      refine ⟨names, v :: numbers, ?_, Nat.le_succ_of_le hlen, ?_, List.Forall₂.cons ⟨?_, ?_⟩ hnumbers⟩
      · unfold enumFrom
        rw [hparent]
        simp only [Option.bind_eq_bind, Option.bind_some, hr]
        exact hrun
      · intro x hx
        obtain ⟨f, hf, hx⟩ := hnames x hx
        exact ⟨f, List.mem_cons_of_mem _ hf, hx⟩
      · rw [List.length_append]
        exact Nat.lt_add_right _ hlt
      · rw [hdir, List.getElem?_append_left hlt]
        exact hv

/-- **The table of directories**: the number of a file leads to its directory. -/
theorem enumDirectories_eq {files : List (FileInfo w)}
    (hfiles : ∀ fi ∈ files, ∃ d b, IsStored win fi.fiStoredName d b) :
    ∃ dirnames numbers, enumDirectories files = some (dirnames.length, dirnames, numbers) ∧
      dirnames.length ≤ files.length ∧
      (∀ d ∈ dirnames, ∃ fi ∈ files, fi.fiStoredName.fpDirectory = some d) ∧
      List.Forall₂ (NumberOf dirnames) files numbers := by
  have hempty : TableInvariant win [] ([] : List Str).reverse := fun e he => absurd he List.not_mem_nil
  obtain ⟨names, numbers, hrun, h⟩ := enumFrom_eq hfiles hempty []
  exact ⟨names, numbers, hrun, h⟩

end

/-! ## Reading the columns -/

section

variable {w : ℕ} (win nodates : Bool) (isEncryption : Str → Bool)

/-- The base name of a file. -/
def basenameOf (f : FileWithCRC w) : Str := f.fwFileInfo.fiStoredName.fpBasename.getD []

/-- What is stored about a file. -/
structure StoredFile (w : ℕ) where
  /-- The directory. -/
  directory : Option Str
  /-- The name without directory. -/
  basename : Option Str
  /-- The size. -/
  size : Int
  /-- The time. -/
  time : BitVec (8 * w)
  /-- Whether the file is a directory. -/
  isDir : Bool
  /-- The CRC of the data. -/
  crc : BitVec (8 * 4)
  /-- The block with the data. -/
  block : ArchiveBlock
  /-- The position of the data in the block. -/
  pos : Int
  deriving DecidableEq

/-- What a file that was read tells about itself. -/
def CompressedFile.stored (f : CompressedFile w) : StoredFile w :=
  { directory := f.cfFileInfo.fiStoredName.fpDirectory
    basename := f.cfFileInfo.fiStoredName.fpBasename
    size := f.cfFileInfo.fiSize
    time := f.cfFileInfo.fiTime
    isDir := f.cfFileInfo.fiIsDir
    crc := f.cfCRC
    block := f.cfArcBlock
    pos := f.cfPos }

/-- The data block that a block with its files is read as. -/
def restoredBlock (d : ArchiveBlock × List (FileWithCRC w)) : ArchiveBlock :=
  { blType := .dataBlock
    blCompressor := d.1.blCompressor
    blPos := d.1.blPos
    blOrigSize := (d.2.map fun f => f.fwFileInfo.fiSize).sum
    blCompSize := d.1.blCompSize
    blCRC := 0
    blFiles := d.2.length
    blIsEncrypted := d.1.blCompressor.any isEncryption }

/-- The time that is written. -/
def writtenTime (f : FileWithCRC w) : BitVec (8 * w) :=
  if nodates then minimalPossibleDatetime w else f.fwFileInfo.fiTime

/-- A file at the position `pos` of a block. -/
def archivedFile (block : ArchiveBlock) (pos : Int) (f : FileWithCRC w) : StoredFile w :=
  { directory := f.fwFileInfo.fiStoredName.fpDirectory
    basename := f.fwFileInfo.fiStoredName.fpBasename
    size := f.fwFileInfo.fiSize
    time := writtenTime nodates f
    isDir := f.fwFileInfo.fiIsDir
    crc := f.fwCRC
    block := block
    pos := pos }

/-- The files of a block, each behind the files in front of it. -/
def archivedFiles (d : ArchiveBlock × List (FileWithCRC w)) : List (StoredFile w) :=
  d.2.mapIdx fun j f => archivedFile nodates (restoredBlock isEncryption d)
    ((d.2.take j).map fun g => g.fwFileInfo.fiSize).sum f

/-- The file in the directory that its own is read as. -/
def StoredFile.restored (f : StoredFile w) : StoredFile w :=
  { f with directory := f.directory.map (restoredDirectory win) }

variable {win nodates isEncryption}

/-- The names that are written are the base names. -/
lemma mapM_basenames {files : List (FileWithCRC w)}
    (h : ∀ f ∈ files, ∃ d b, IsStored win f.fwFileInfo.fiStoredName d b) :
    (files.map FileWithCRC.fwFileInfo).mapM (fun fi => fi.fiStoredName.fpBasename) =
      some (files.map basenameOf) := by
  induction files with
  | nil => rfl
  | cons f files ih =>
    obtain ⟨d, b, hash, parent, hpath, -⟩ := h f List.mem_cons_self
    have hbase : f.fwFileInfo.fiStoredName.fpBasename = some (basenameOf f) := by
      unfold basenameOf
      rw [hpath]
      rfl
    rw [List.map_cons, List.mapM_cons, hbase, ih fun g hg => h g (List.mem_cons_of_mem _ hg)]
    rfl

/-- A file in the given directory, with the given fields. -/
lemma makeFi_eq {o : ReadOptions w} (harc : o.arcBasedir = []) (hfilter : ∀ fi, o.filterF fi = true)
    (dir name : Str) (size : Int) (time : BitVec (8 * w)) (dirFlag : Bool) :
    ∃ fi, makeFi win o dir name size time dirFlag = some (some fi) ∧
      fi.fiStoredName.fpDirectory = some dir ∧ fi.fiStoredName.fpBasename = some name ∧
      fi.fiSize = size ∧ fi.fiTime = time ∧ fi.fiIsDir = dirFlag := by
  have hname : ∀ d, nameIn win d name =
      some (.packed d name (filenameHash (filenameHash 0 (d.filter fun c => !isPathSeparator win c))
        name) (packParentDirPath win d)) := fun d => rfl
  unfold makeFi
  simp only [hname, Option.bind_eq_bind, Option.bind_some, harc, hfilter]
  exact ⟨_, rfl, rfl, rfl, rfl, rfl, rfl⟩

/-- What is read of a file. -/
def ReadAs (win nodates : Bool) (f : FileWithCRC w) (o : Option (FileInfo w)) : Prop :=
  ∃ fi, o = some fi ∧
    fi.fiStoredName.fpDirectory = f.fwFileInfo.fiStoredName.fpDirectory.map (restoredDirectory win) ∧
    fi.fiStoredName.fpBasename = f.fwFileInfo.fiStoredName.fpBasename ∧
    fi.fiSize = f.fwFileInfo.fiSize ∧ fi.fiTime = writtenTime nodates f ∧
    fi.fiIsDir = f.fwFileInfo.fiIsDir

/-- The rows of the columns are read as the files. -/
lemma mapM_rows {o : ReadOptions w} (harc : o.arcBasedir = []) (hfilter : ∀ fi, o.filterF fi = true)
    {dirnames : List Str} {files : List (FileWithCRC w)} {numbers : List ℕ}
    (h : ∀ f ∈ files, ∃ d b, IsStored win f.fwFileInfo.fiStoredName d b)
    (hnumbers : List.Forall₂ (NumberOf dirnames) (files.map FileWithCRC.fwFileInfo) numbers) :
    ∃ infos, (numbers.zip ((files.map basenameOf).zip ((files.map fun f => f.fwFileInfo.fiSize).zip
        ((files.map (writtenTime nodates)).zip (files.map fun f => f.fwFileInfo.fiIsDir))))).mapM
        (fun (dir, name, size, time, dirFlag) => do
          makeFi win o (← (dirnames.map (restoredDirectory win))[dir]?) name size time dirFlag) =
        some infos ∧ List.Forall₂ (ReadAs win nodates) files infos := by
  induction files generalizing numbers with
  | nil =>
    cases hnumbers
    exact ⟨[], rfl, List.Forall₂.nil⟩
  | cons f files ih =>
    rw [List.map_cons] at hnumbers
    cases hnumbers with
    | cons hf hrest =>
      rename_i n numbers
      obtain ⟨infos, hinfos, hread⟩ := ih (fun g hg => h g (List.mem_cons_of_mem _ hg)) hrest
      obtain ⟨d, b, hash, parent, hpath, -⟩ := h f List.mem_cons_self
      have hdir : dirnames[n]? = some d := hf.2.trans (by rw [hpath]; rfl)
      have hrestored : (dirnames.map (restoredDirectory win))[n]? = some (restoredDirectory win d) := by
        rw [List.getElem?_map, hdir, Option.map_some]
      have hbase : basenameOf f = b := by unfold basenameOf; rw [hpath]; rfl
      obtain ⟨fi, hfi, hfidir, hfibase, hsize, htime, hflag⟩ := makeFi_eq harc hfilter
        (restoredDirectory win d) (basenameOf f) f.fwFileInfo.fiSize (writtenTime nodates f)
        f.fwFileInfo.fiIsDir
      refine ⟨some fi :: infos, ?_, List.Forall₂.cons ⟨fi, rfl, ?_, ?_, hsize, htime, hflag⟩ hread⟩
      · rw [List.map_cons, List.map_cons, List.map_cons, List.map_cons, List.zip_cons_cons,
          List.zip_cons_cons, List.zip_cons_cons, List.zip_cons_cons, List.mapM_cons]
        exact Option.bind_eq_some_iff.mpr ⟨some fi, Option.bind_eq_some_iff.mpr ⟨_, hrestored, hfi⟩,
          Option.bind_eq_some_iff.mpr ⟨infos, hinfos, rfl⟩⟩
      · rw [hfidir, hpath]
        rfl
      · rw [hfibase, hpath, hbase]
        rfl

/-! ## Positions -/

/-- The sums of the items in front of each item, above `p`. -/
def sumsFrom : Int → List Int → List Int
  | _, [] => []
  | p, x :: xs => p :: sumsFrom (p + x) xs

/-- There is a position for each item. -/
@[simp]
lemma length_sumsFrom (p : Int) (xs : List Int) : (sumsFrom p xs).length = xs.length := by
  induction xs generalizing p with
  | nil => rfl
  | cons x xs ih => rw [sumsFrom, List.length_cons, List.length_cons, ih]

/-- The sums of the items without the last one. -/
lemma scanl_dropLast (p x : Int) (xs : List Int) :
    (x :: xs).dropLast.scanl (· + ·) p = sumsFrom p (x :: xs) := by
  induction xs generalizing p x with
  | nil => rfl
  | cons y xs ih =>
    rw [List.dropLast_cons_cons, List.scanl_cons, ih, sumsFrom]
    rfl

/-- `scanningSum` gives the sums of the items in front of each item. -/
lemma scanningSum_eq (xs : List Int) : scanningSum xs = sumsFrom 0 xs := by
  have hscan : ∀ ys : List Int, 0 :: scanl1 ys = ys.scanl (· + ·) 0 := by
    intro ys
    cases ys with
    | nil => rfl
    | cons y ys => rw [scanl1, List.scanl_cons, zero_add]
  cases xs with
  | nil => rfl
  | cons x xs => rw [scanningSum, hscan, scanl_dropLast]

/-- Lists are split again by their lengths. -/
lemma splitByLens_eq {α β : Type*} (f : α → β) (xss : List (List α)) :
    splitByLens (xss.map List.length) (xss.flatten.map f) = some (xss.map (List.map f)) := by
  induction xss with
  | nil => rfl
  | cons xs xss ih =>
    have hlen : (xs.map f).length = xs.length := List.length_map f
    rw [List.map_cons, List.flatten_cons, List.map_append, splitByLens, List.take_left' hlen,
      List.drop_left' hlen, ih]
    rfl

/-! ## Files -/

/-- Files of one list are kept apart from those of the next. -/
lemma keptFiles_append {i₁ i₂ : List (Option (FileInfo w))} {b₁ b₂ : List ArchiveBlock}
    {p₁ p₂ : List Int} {c₁ c₂ : List (BitVec (8 * 4))} (hi : i₁.length = b₁.length)
    (hb : b₁.length = p₁.length) (hp : p₁.length = c₁.length) :
    keptFiles (i₁ ++ i₂) (b₁ ++ b₂) (p₁ ++ p₂) (c₁ ++ c₂) =
      keptFiles i₁ b₁ p₁ c₁ ++ keptFiles i₂ b₂ p₂ c₂ := by
  unfold keptFiles
  have hpc : (p₁.zip c₁).length = p₁.length := by rw [List.length_zip, ← hp, min_self]
  have hbpc : (b₁.zip (p₁.zip c₁)).length = b₁.length := by
    rw [List.length_zip, hpc, ← hb, min_self]
  rw [List.zip_append hp, List.zip_append (by rw [hpc, hb]), List.zip_append (by rw [hbpc, hi]),
    List.filterMap_append]

/-- The files of a block, behind `p` bytes. -/
lemma keptFiles_block {files : List (FileWithCRC w)} {infos : List (Option (FileInfo w))}
    (h : List.Forall₂ (ReadAs win nodates) files infos) (block : ArchiveBlock) (p : Int) :
    (keptFiles infos (List.replicate files.length block)
        (sumsFrom p (files.map fun f => f.fwFileInfo.fiSize)) (files.map FileWithCRC.fwCRC)).map
        CompressedFile.stored =
      (files.mapIdx fun j f => archivedFile nodates block
        (p + ((files.take j).map fun g => g.fwFileInfo.fiSize).sum) f).map
        (StoredFile.restored win) := by
  induction h generalizing p with
  | nil => rfl
  | @cons f info files infos hf _ ih =>
    obtain ⟨fi, rfl, hdir, hbase, hsize, htime, hflag⟩ := hf
    rw [List.mapIdx_cons, List.length_cons, List.replicate_succ, List.map_cons, List.map_cons,
      sumsFrom]
    have hcons : keptFiles (some fi :: infos) (block :: List.replicate files.length block)
        (p :: sumsFrom (p + f.fwFileInfo.fiSize) (files.map fun f => f.fwFileInfo.fiSize))
        (f.fwCRC :: files.map FileWithCRC.fwCRC) =
        { cfFileInfo := fi, cfArcBlock := block, cfPos := p, cfCRC := f.fwCRC } ::
          keptFiles infos (List.replicate files.length block)
            (sumsFrom (p + f.fwFileInfo.fiSize) (files.map fun f => f.fwFileInfo.fiSize))
            (files.map FileWithCRC.fwCRC) := rfl
    rw [hcons, List.map_cons, ih, List.map_cons]
    congr 1
    · unfold CompressedFile.stored StoredFile.restored archivedFile
      simp only [hdir, hbase, hsize, htime, hflag, List.take_zero, List.map_nil, List.sum_nil, add_zero]
    · congr 2
      funext j g
      rw [List.take_succ_cons, List.map_cons, List.sum_cons, add_assoc]

/-- The files of all blocks. -/
lemma keptFiles_eq {dirdata : List (ArchiveBlock × List (FileWithCRC w))}
    {infos : List (Option (FileInfo w))}
    (h : List.Forall₂ (ReadAs win nodates) (filesOf dirdata) infos) :
    (keptFiles infos
        ((dirdata.map fun d => List.replicate d.2.length (restoredBlock isEncryption d)).flatten)
        ((dirdata.map fun d => sumsFrom 0 (d.2.map fun f => f.fwFileInfo.fiSize)).flatten)
        ((filesOf dirdata).map FileWithCRC.fwCRC)).map CompressedFile.stored =
      (dirdata.map (archivedFiles nodates isEncryption)).flatten.map (StoredFile.restored win) := by
  induction dirdata generalizing infos with
  | nil => cases h; rfl
  | cons d dirdata ih =>
    have hfiles : filesOf (d :: dirdata) = d.2 ++ filesOf dirdata := rfl
    rw [hfiles] at h ⊢
    have hinfos : infos = infos.take d.2.length ++ infos.drop d.2.length :=
      (List.take_append_drop _ _).symm
    have hfirst := List.forall₂_take_append infos d.2 (filesOf dirdata) h.flip
    have hrest := List.forall₂_drop_append infos d.2 (filesOf dirdata) h.flip
    have hlen : (infos.take d.2.length).length = d.2.length := hfirst.length_eq
    rw [List.map_cons, List.map_cons, List.map_cons, List.flatten_cons, List.flatten_cons,
      List.flatten_cons, List.map_append, hinfos,
      keptFiles_append (by simpa using hlen) (by simp) (by simp), List.map_append, ih hrest.flip,
      keptFiles_block hfirst.flip, List.map_append]
    unfold archivedFiles
    simp only [zero_add]

/-! ## The round trip -/

/-- What `archiveWriteDir` is given: compressors that can be told apart, and files with names without
NUL. -/
structure WellFormed (win : Bool) (dirdata : List (ArchiveBlock × List (FileWithCRC w))) : Prop where
  /-- The compressors can be told apart. -/
  compressors : ∀ d ∈ dirdata, PlainCompressor d.1.blCompressor
  /-- The names are those of files in an archive. -/
  names : ∀ f ∈ filesOf dirdata, ∃ d b, IsStored win f.fwFileInfo.fiStoredName d b ∧
    (0 : Chr) ∉ d ∧ (0 : Chr) ∉ b

/-- The positions and sizes that are written. -/
def writtenNumbers (arcpos : Int) (dirdata : List (ArchiveBlock × List (FileWithCRC w))) : List Int :=
  (dirdata.map fun d => arcpos - d.1.blPos) ++ (dirdata.map fun d => d.1.blCompSize) ++
    (filesOf dirdata).map fun f => f.fwFileInfo.fiSize

/-- There are fewer than 2^64 blocks and files, and their positions and sizes are representable. -/
structure InRange (arcpos : Int) (dirdata : List (ArchiveBlock × List (FileWithCRC w))) : Prop where
  /-- The number of blocks. -/
  blocks : dirdata.length < 2 ^ 64
  /-- The number of files. -/
  files : (filesOf dirdata).length < 2 ^ 64
  /-- The positions and sizes. -/
  numbers : ∀ x ∈ writtenNumbers arcpos dirdata, Representable x

/-- The columns that `archiveWriteDir` writes. -/
def toColumns (nodates : Bool) (arcpos : Int) (dirdata : List (ArchiveBlock × List (FileWithCRC w)))
    (dirnames : List Str) (numbers : List ℕ) : Columns w :=
  { numOfFiles := dirdata.map fun d => d.2.length
    blCompressors := dirdata.map fun d => d.1.blCompressor
    blOffsets := dirdata.map fun d => arcpos - d.1.blPos
    blCompSizes := dirdata.map fun d => d.1.blCompSize
    dirnames := dirnames.map unixifyPath
    names := (filesOf dirdata).map basenameOf
    dirNumbers := numbers
    sizes := (filesOf dirdata).map fun f => f.fwFileInfo.fiSize
    times := (filesOf dirdata).map (writtenTime nodates)
    dirFlags := (filesOf dirdata).map fun f => f.fwFileInfo.fiIsDir
    crcs := (filesOf dirdata).map FileWithCRC.fwCRC }

/-- The columns are written with the table of directories. -/
lemma archiveWriteDir_eq {dirdata : List (ArchiveBlock × List (FileWithCRC w))}
    (h : ∀ f ∈ filesOf dirdata, ∃ d b, IsStored win f.fwFileInfo.fiStoredName d b) {n : ℕ}
    {dirnames : List Str} {numbers : List ℕ}
    (henum : enumDirectories ((filesOf dirdata).map FileWithCRC.fwFileInfo) =
      some (n, dirnames, numbers)) (arcpos : Int) :
    archiveWriteDir nodates arcpos dirdata =
      writeColumns (toColumns nodates arcpos dirdata dirnames numbers) := by
  unfold archiveWriteDir
  simp only [henum, mapM_basenames h, Option.bind_eq_bind, Option.bind_some, List.map_map]
  rfl

/-- There are as many files as the blocks say. -/
lemma length_filesOf (dirdata : List (ArchiveBlock × List (FileWithCRC w))) :
    (filesOf dirdata).length = (dirdata.map fun d => d.2.length).sum := by
  unfold filesOf
  rw [List.length_flatten, List.map_map]
  rfl

/-- The columns of well-formed blocks and files are regular. -/
lemma toColumns_regular {arcpos : Int} {dirdata : List (ArchiveBlock × List (FileWithCRC w))}
    (h : WellFormed win dirdata) (hrange : InRange arcpos dirdata) {dirnames : List Str}
    {numbers : List ℕ} (hlen : dirnames.length ≤ (filesOf dirdata).length)
    (hdirs : ∀ d ∈ dirnames, (0 : Chr) ∉ d)
    (hnumbers : List.Forall₂ (NumberOf dirnames) ((filesOf dirdata).map FileWithCRC.fwFileInfo)
      numbers) :
    (toColumns nodates arcpos dirdata dirnames numbers).Regular := by
  have htotal := length_filesOf dirdata
  have hcount : numbers.length = (filesOf dirdata).length := by
    rw [← hnumbers.length_eq, List.length_map]
  obtain ⟨hblocks, hfiles, hrepr⟩ := hrange
  unfold writtenNumbers at hrepr
  exact
    { blocks := by simp [toColumns]
      files := by simp [toColumns, hcount, htotal]
      lengths := by
        simp only [toColumns, List.length_map]
        exact ⟨hblocks, hlen.trans_lt hfiles⟩
      counts := by
        constructor
        · intro n hn
          obtain ⟨d, hd, rfl⟩ := List.mem_map.mp hn
          have hsub : d.2.Sublist (filesOf dirdata) :=
            List.sublist_flatten_of_mem (List.mem_map_of_mem hd)
          exact hsub.length_le.trans_lt hfiles
        · intro n hn
          exact (number_lt hnumbers n hn).trans_le (hlen.trans hfiles.le)
      numbers := by
        refine ⟨fun x hx => hrepr x ?_, fun x hx => hrepr x ?_, fun x hx => hrepr x ?_⟩
        · exact List.mem_append_left _ (List.mem_append_left _ hx)
        · exact List.mem_append_left _ (List.mem_append_right _ hx)
        · exact List.mem_append_right _ hx
      compressors := by
        intro m hm
        obtain ⟨d, hd, rfl⟩ := List.mem_map.mp hm
        exact h.compressors d hd
      strings := by
        constructor
        · intro d hd
          obtain ⟨e, he, rfl⟩ := List.mem_map.mp hd
          intro hzero
          obtain ⟨c, hc, hc₀⟩ := List.mem_map.mp hzero
          split at hc₀
          · exact absurd hc₀ (by decide)
          · subst hc₀
            exact hdirs e he hc
        · intro n hn
          obtain ⟨f, hf, rfl⟩ := List.mem_map.mp hn
          obtain ⟨d, b, ⟨hash, parent, hpath, -⟩, -, hb⟩ := h.names f hf
          unfold basenameOf
          rw [hpath]
          exact hb }

/-- The columns are taken apart into the blocks and files. -/
lemma fromColumns_eq {o : ReadOptions w} (harc : o.arcBasedir = [])
    (hfilter : ∀ fi, o.filterF fi = true) {arcpos : Int}
    {dirdata : List (ArchiveBlock × List (FileWithCRC w))} (h : WellFormed win dirdata)
    {dirnames : List Str} {numbers : List ℕ}
    (hnumbers : List.Forall₂ (NumberOf dirnames) ((filesOf dirdata).map FileWithCRC.fwFileInfo)
      numbers) :
    ∃ files, fromColumns win isEncryption o arcpos
        (toColumns nodates arcpos dirdata dirnames numbers) =
        some (dirdata.map (restoredBlock isEncryption), files) ∧
      files.map CompressedFile.stored =
        (dirdata.map (archivedFiles nodates isEncryption)).flatten.map (StoredFile.restored win) := by
  have hstored : ∀ f ∈ filesOf dirdata, ∃ d b, IsStored win f.fwFileInfo.fiStoredName d b := by
    intro f hf
    obtain ⟨d, b, hfile, -⟩ := h.names f hf
    exact ⟨d, b, hfile⟩
  obtain ⟨infos, hinfos, (hread : List.Forall₂ (ReadAs win nodates) _ _)⟩ :=
    mapM_rows harc hfilter hstored hnumbers
  have hsizes := splitByLens_eq (fun f : FileWithCRC w => f.fwFileInfo.fiSize) (dirdata.map Prod.snd)
  have hstoredName : (dirnames.map unixifyPath).map
      (fun d => removeUnsafeDirs win (makeOSNativePath win d)) =
      dirnames.map (restoredDirectory win) := List.map_map
  have hblocks : dirdata.map (fun d => tupleToDataBlock isEncryption arcpos d.1.blCompressor
      (arcpos - d.1.blPos) ((d.2.map fun f => f.fwFileInfo.fiSize).sum) d.1.blCompSize d.2.length) =
      dirdata.map (restoredBlock isEncryption) := by
    apply List.map_congr_left
    intro d _
    unfold tupleToDataBlock restoredBlock
    rw [sub_sub_cancel]
  refine ⟨_, ?_, keptFiles_eq hread⟩
  rw [← hstoredName] at hinfos
  refine Option.bind_eq_some_iff.mpr ⟨infos, hinfos, ?_⟩
  rw [List.map_map, List.map_map] at hsizes
  refine Option.bind_eq_some_iff.mpr ⟨_, hsizes, ?_⟩
  unfold toColumns
  dsimp only
  simp only [List.map_map, List.zip_map', Function.comp_def, hblocks, scanningSum_eq]
  rfl

/-- Blocks and files in range are written as regular columns. -/
lemma exists_columns (nodates : Bool) {arcpos : Int}
    {dirdata : List (ArchiveBlock × List (FileWithCRC w))} (h : WellFormed win dirdata)
    (hrange : InRange arcpos dirdata) :
    ∃ dirnames numbers, archiveWriteDir nodates arcpos dirdata =
        writeColumns (toColumns nodates arcpos dirdata dirnames numbers) ∧
      (toColumns nodates arcpos dirdata dirnames numbers).Regular ∧
      dirnames.length ≤ (filesOf dirdata).length ∧
      List.Forall₂ (NumberOf dirnames) ((filesOf dirdata).map FileWithCRC.fwFileInfo) numbers := by
  have hstored : ∀ f ∈ filesOf dirdata, ∃ d b, IsStored win f.fwFileInfo.fiStoredName d b := by
    intro f hf
    obtain ⟨d, b, hfile, -⟩ := h.names f hf
    exact ⟨d, b, hfile⟩
  have hstored' : ∀ fi ∈ (filesOf dirdata).map FileWithCRC.fwFileInfo,
      ∃ d b, IsStored win fi.fiStoredName d b := by
    intro fi hfi
    obtain ⟨f, hf, rfl⟩ := List.mem_map.mp hfi
    exact hstored f hf
  obtain ⟨dirnames, numbers, henum, hlen, hdirs, hnumbers⟩ := enumDirectories_eq hstored'
  rw [List.length_map] at hlen
  have hnul : ∀ d ∈ dirnames, (0 : Chr) ∉ d := by
    intro d hd
    obtain ⟨fi, hfi, hdir⟩ := hdirs d hd
    obtain ⟨f, hf, rfl⟩ := List.mem_map.mp hfi
    obtain ⟨e, b, ⟨hash, parent, hpath, -⟩, he, -⟩ := h.names f hf
    rw [hpath] at hdir
    obtain rfl := Option.some.inj hdir
    exact he
  exact ⟨dirnames, numbers, archiveWriteDir_eq hstored henum arcpos,
    toColumns_regular h hrange hlen hnul hnumbers, hlen, hnumbers⟩

/-- **Writing and reading a directory**: in range, the blocks are read as they were written, and so
are the files, up to what `removeUnsafeDirs` makes of their directories. -/
theorem archiveReadDir_archiveWriteDir (nodates : Bool) (isEncryption : Str → Bool)
    {o : ReadOptions w} (harc : o.arcBasedir = [])
    (hfilter : ∀ fi, o.filterF fi = true) {arcpos : Int}
    {dirdata : List (ArchiveBlock × List (FileWithCRC w))} (h : WellFormed win dirdata)
    (hrange : InRange arcpos dirdata) :
    ∃ s files, archiveWriteDir nodates arcpos dirdata = some s ∧
      archiveReadDir win isEncryption o arcpos s =
        some (dirdata.map (restoredBlock isEncryption), files) ∧
      files.map CompressedFile.stored =
        (dirdata.map (archivedFiles nodates isEncryption)).flatten.map (StoredFile.restored win) := by
  obtain ⟨dirnames, numbers, hcolumns, hregular, -, hnumbers⟩ := exists_columns nodates h hrange
  obtain ⟨s, hwrite, hread⟩ := readColumns_writeColumns hregular
  obtain ⟨files, hfrom, hfiles⟩ := fromColumns_eq harc hfilter h hnumbers
  refine ⟨s, files, hcolumns.trans hwrite, ?_, hfiles⟩
  exact Option.bind_eq_some_iff.mpr ⟨_, hread, hfrom⟩

/-- A number that is not representable is refused. -/
lemma writeColumns_eq_none {c : Columns w} {x : Int} (hx : ¬ Representable x)
    (h : x ∈ c.blOffsets ++ c.blCompSizes ++ c.sizes) : writeColumns c = none := by
  have hnone : ∀ {xs : List Int}, x ∈ xs → none = encodeAll writeInteger xs := fun hmem =>
    (encodeAll_eq_none.mpr ⟨x, hmem, writeInteger_eq_none.mpr hx⟩).symm
  unfold writeColumns
  rw [joinAll_eq_none]
  simp only [List.mem_cons]
  rcases List.mem_append.mp h with h | h
  · rcases List.mem_append.mp h with h | h
    · exact Or.inr (Or.inr (Or.inr (Or.inl (hnone h))))
    · exact Or.inr (Or.inr (Or.inr (Or.inr (Or.inl (hnone h)))))
  · exact Or.inr (Or.inr (Or.inr (Or.inr (Or.inr (Or.inr (Or.inr (Or.inr (Or.inr (Or.inl
      (hnone h))))))))))

/-- A directory with such a number is not written. -/
lemma archiveWriteDir_eq_none {arcpos : Int} {dirdata : List (ArchiveBlock × List (FileWithCRC w))}
    {x : Int} (hx : ¬ Representable x) (h : x ∈ writtenNumbers arcpos dirdata) :
    archiveWriteDir nodates arcpos dirdata = none := by
  unfold archiveWriteDir
  refine Option.bind_eq_none_iff.mpr fun r _ => Option.bind_eq_none_iff.mpr fun names _ =>
    writeColumns_eq_none hx ?_
  simp only [List.map_map]
  exact h

/-- The directories of files are plain and have no drives. -/
def PlainDirectories (win : Bool) (dirdata : List (ArchiveBlock × List (FileWithCRC w))) : Prop :=
  ∀ f ∈ filesOf dirdata, ∀ d ∈ f.fwFileInfo.fiStoredName.fpDirectory,
    PlainDirectory d ∧ Driveless win d

/-- Files are not changed when their directories are not. -/
lemma map_restored_of_kept {dirdata : List (ArchiveBlock × List (FileWithCRC w))}
    (h : ∀ f ∈ filesOf dirdata, ∀ d ∈ f.fwFileInfo.fiStoredName.fpDirectory,
      restoredDirectory win d = d) :
    (dirdata.map (archivedFiles nodates isEncryption)).flatten.map (StoredFile.restored win) =
      (dirdata.map (archivedFiles nodates isEncryption)).flatten := by
  rw [List.map_congr_left (g := id), List.map_id]
  intro s hs
  obtain ⟨l, hl, hs⟩ := List.mem_flatten.mp hs
  obtain ⟨d, hd, rfl⟩ := List.mem_map.mp hl
  obtain ⟨j, hj, rfl⟩ := List.mem_mapIdx.mp hs
  have hf : d.2[j] ∈ filesOf dirdata :=
    List.mem_flatten.mpr ⟨d.2, List.mem_map_of_mem hd, List.getElem_mem hj⟩
  have hdir : (d.2[j].fwFileInfo.fiStoredName.fpDirectory).map (restoredDirectory win) =
      d.2[j].fwFileInfo.fiStoredName.fpDirectory := by
    cases hdir : d.2[j].fwFileInfo.fiStoredName.fpDirectory with
    | none => rfl
    | some e => rw [Option.map_some, h _ hf e (by rw [hdir]; rfl)]
  unfold StoredFile.restored archivedFile
  dsimp only
  rw [hdir]
  rfl

/-- Plain directories without drives are not changed. -/
lemma map_restored {dirdata : List (ArchiveBlock × List (FileWithCRC w))}
    (h : PlainDirectories win dirdata) :
    (dirdata.map (archivedFiles nodates isEncryption)).flatten.map (StoredFile.restored win) =
      (dirdata.map (archivedFiles nodates isEncryption)).flatten := by
  refine map_restored_of_kept fun f hf d hd => ?_
  obtain ⟨hplain, hdrive⟩ := h f hf d hd
  exact restoredDirectory_eq hplain hdrive

end

/-- **The round trip of the directory block**: in range, plain directories without drives included,
blocks and files are read as they were written; a number that is not representable is refused. -/
theorem directoryBlock_roundTrip {w : ℕ} (win nodates : Bool) (isEncryption : Str → Bool) (ep : Int)
    (arcpos : Int) (dirdata : List (ArchiveBlock × List (FileWithCRC w))) (h : WellFormed win dirdata)
    (hdirs : PlainDirectories win dirdata) :
    (InRange arcpos dirdata → ∃ s files, archiveWriteDir nodates arcpos dirdata = some s ∧
      archiveReadDir win isEncryption
          { arcBasedir := [], diskBasedir := [], ep := ep, filterF := fun _ => true } arcpos s =
        some (dirdata.map (restoredBlock isEncryption), files) ∧
      files.map CompressedFile.stored =
        (dirdata.map (archivedFiles nodates isEncryption)).flatten) ∧
    ((∃ x ∈ writtenNumbers arcpos dirdata, ¬ Representable x) →
      archiveWriteDir nodates arcpos dirdata = none) := by
  constructor
  · intro hrange
    obtain ⟨s, files, hwrite, hread, hfiles⟩ := archiveReadDir_archiveWriteDir nodates isEncryption
      (o := ⟨[], [], ep, fun _ => true⟩) rfl (fun _ => rfl) h hrange
    rw [map_restored hdirs] at hfiles
    exact ⟨s, files, hwrite, hread, hfiles⟩
  · rintro ⟨x, hmem, hx⟩
    exact archiveWriteDir_eq_none hx hmem

/-- A block with one file `b` in the given directory. -/
def oneFile (win : Bool) (directory : Str) (size : Int) : List (ArchiveBlock × List (FileWithCRC 4)) :=
  let path := .packed directory [98] 0 (packParentDirPath win directory)
  [({ blType := .dataBlock, blCompressor := [[115]], blPos := 0, blOrigSize := 5, blCompSize := 5,
      blCRC := 0, blFiles := 1, blIsEncrypted := false },
    [{ fwCRC := 7
       fwFileInfo :=
        { fiFilteredName := path, fiDiskName := path, fiStoredName := path, fiSize := size,
          fiTime := 9, fiAttr := 0, fiIsDir := false, fiGroup := 0 } }])]

/-- One file in a directory without NUL is well formed. -/
lemma oneFile_wellFormed {win : Bool} {directory : Str} (h : (0 : Chr) ∉ directory) (size : Int) :
    WellFormed win (oneFile win directory size) where
  compressors d hd := by
    obtain rfl := List.mem_singleton.mp hd
    exact show PlainCompressor [[115]] from ⟨by decide, by decide⟩
  names f hf := by
    obtain rfl := List.mem_singleton.mp hf
    exact ⟨directory, [98], ⟨0, _, rfl, rfl⟩, h, by decide⟩

/-- One file of a representable size is in range. -/
lemma oneFile_inRange {win : Bool} {directory : Str} {size : Int} (h : Representable size) :
    InRange 5 (oneFile win directory size) where
  blocks := show 1 < 2 ^ 64 by decide
  files := show 1 < 2 ^ 64 by decide
  numbers x hx := by
    simp only [writtenNumbers, oneFile, filesOf, List.map_cons, List.map_nil, List.flatten_cons,
      List.flatten_nil, List.append_nil, List.cons_append, List.nil_append, List.mem_cons,
      List.not_mem_nil, or_false] at hx
    rcases hx with rfl | rfl | rfl
    · exact ⟨by decide, by decide⟩
    · exact ⟨by decide, by decide⟩
    · exact h

/-- A file of seven bytes in the root directory. -/
theorem directoryBlock_roundTrip_oneFile :
    (∃ s files, archiveWriteDir false 5 (oneFile false [] 7) = some s ∧
      archiveReadDir false (fun _ => false)
          { arcBasedir := [], diskBasedir := [], ep := -1, filterF := fun _ => true } 5 s =
        some ((oneFile false [] 7).map (restoredBlock fun _ => false), files) ∧
      files.map CompressedFile.stored =
        ((oneFile false [] 7).map (archivedFiles false fun _ => false)).flatten) := by
  refine (directoryBlock_roundTrip false false (fun _ => false) (-1) 5 (oneFile false [] 7)
    (oneFile_wellFormed (by decide) 7) ?_).1 (oneFile_inRange ⟨by decide, by decide⟩)
  intro f hf d hd
  obtain rfl := List.mem_singleton.mp hf
  obtain rfl := Option.some.inj hd
  exact ⟨⟨by decide, Or.inl rfl⟩, fun hwin => absurd hwin (by decide)⟩

/-- On Windows `a/c:` is read as `c:`. -/
lemma restoredDirectory_drive : restoredDirectory true [97, 47, 99, 58] = [99, 58] := by
  have hnative : makeOSNativePath true (unixifyPath [97, 47, 99, 58]) = [97, 92, 99, 58] := by decide
  have hdrive : splitDrive true [97, 92, 99, 58] = ([], [97, 92, 99, 58]) := by decide
  have hsplit : splitComponents true [97, 92, 99, 58] = [[97, 92], [99, 58]] := by
    have hfirst : splitComponents true ([97] ++ 92 :: [99, 58]) =
        ([97] ++ [92]) :: splitComponents true [99, 58] :=
      splitComponents_append (List.forall_mem_singleton.mpr (by decide)) (by decide) (by decide)
        fun c hc => (Option.some.inj hc) ▸ by decide
    have hlast : splitComponents true [99, 58] = [[99, 58]] :=
      splitComponents_last (List.forall_mem_cons.mpr
        ⟨by decide, List.forall_mem_singleton.mpr (by decide)⟩) (by decide)
    rw [hlast] at hfirst
    exact hfirst
  unfold restoredDirectory removeUnsafeDirs splitDirectories splitPath hasDrive takeDrive
  rw [hnative, hdrive]
  dsimp only
  rw [hsplit]
  decide

/-- The components of `a/c:` are not special. -/
lemma plainDirectory_drive : PlainDirectory [97, 47, 99, 58] := by
  have hsplit : split slash [97, 47, 99, 58] = [[97], [99, 58]] :=
    split_joinWith (List.cons_ne_nil [97] [[99, 58]]) (by decide)
  refine ⟨by decide, Or.inr ?_⟩
  rw [hsplit]
  decide

/-- **Not every directory block is read back**: a file of 2^64 bytes is refused, and on Windows a
file in `a/c:` is read in `c:`. -/
theorem not_directoryBlock_roundTrip :
    (WellFormed false (oneFile false [] (2 ^ 64)) ∧
      archiveWriteDir false 5 (oneFile false [] (2 ^ 64)) = none) ∧
    (WellFormed true (oneFile true [97, 47, 99, 58] 7) ∧ PlainDirectory [97, 47, 99, 58] ∧
      ∃ s, ∃ files : List (CompressedFile 4),
        archiveWriteDir false 5 (oneFile true [97, 47, 99, 58] 7) = some s ∧
        archiveReadDir true (fun _ => false)
            { arcBasedir := [], diskBasedir := [], ep := -1, filterF := fun _ => true } 5 s =
          some ((oneFile true [97, 47, 99, 58] 7).map (restoredBlock fun _ => false), files) ∧
        files.map (fun f => f.cfFileInfo.fiStoredName.fpDirectory) = [some [99, 58]]) := by
  refine ⟨⟨oneFile_wellFormed (by decide) _, ?_⟩, oneFile_wellFormed (by decide) _,
    plainDirectory_drive, ?_⟩
  · have hlarge : ¬ Representable (2 ^ 64) := fun h => absurd h.2 (lt_irrefl _)
    exact archiveWriteDir_eq_none hlarge (by simp [writtenNumbers, oneFile, filesOf])
  · have hwell : WellFormed true (oneFile true [97, 47, 99, 58] 7) := oneFile_wellFormed (by decide) 7
    obtain ⟨s, files, hwrite, hread, hfiles⟩ := archiveReadDir_archiveWriteDir false (fun _ => false)
      (o := ⟨[], [], -1, fun _ => true⟩) rfl (fun _ => rfl) hwell
      (oneFile_inRange ⟨by decide, by decide⟩)
    refine ⟨s, files, hwrite, hread, ?_⟩
    have hdirs := congrArg (List.map StoredFile.directory) hfiles
    rw [List.map_map] at hdirs
    exact hdirs.trans (congrArg (fun d => [some d]) restoredDirectory_drive)

end DArc.Archive
