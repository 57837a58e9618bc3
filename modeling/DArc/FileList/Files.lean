import DArc.Archive.Directory

/-!
# Files to compress

The lists from which an archive is made have files on the disk and files of old archives in them.  They are
merged by the order of their keys, and files are told apart by the names under which they are stored.

### Main results

* `merge_perm`: merging keeps all items.
-/

namespace DArc.FileList

open DArc.Archive (Str FileInfo ArchiveBlock CompressedFile PackedFilePath)

variable {w : ℕ} {α : Type}

/-! ## Files -/

/-- `FileToCompress`, with the name of the archive of the block. -/
inductive FileToCompress (w : ℕ)
  | diskFile (fi : FileInfo w)
  | compressedFile (archiveName : Str) (file : CompressedFile w)
  deriving DecidableEq

/-- `cfFileInfo`. -/
def FileToCompress.cfFileInfo : FileToCompress w → FileInfo w
  | diskFile fi => fi
  | compressedFile _ file => file.cfFileInfo

/-- `isCompressedFile`. -/
def FileToCompress.isCompressedFile : FileToCompress w → Bool
  | diskFile _ => false
  | compressedFile _ _ => true

/-- `cfArcBlock`, which disk files do not have. -/
def FileToCompress.cfArcBlock : FileToCompress w → Option (Str × ArchiveBlock)
  | diskFile _ => none
  | compressedFile archiveName file => some (archiveName, file.cfArcBlock)

/-- What `(==)` on `ArchiveBlock` compares: the position and the archive. -/
def FileToCompress.blockKey : FileToCompress w → Option (Int × Str)
  | diskFile _ => none
  | compressedFile archiveName file => some (file.cfArcBlock.blPos, archiveName)

/-- `fiSpecialFile . cfFileInfo`. -/
def FileToCompress.isSpecial (file : FileToCompress w) : Bool := file.cfFileInfo.fiIsDir

/-- What `(==)` on `PackedFilePath` compares: the hash, the name, and the directory. -/
def pathKey (p : PackedFilePath) : Option UInt32 × Option Str × Option Str :=
  (p.fpHash, p.fpBasename, p.fpDirectory)

/-- The name under which a file is stored, as lists of files are searched for it. -/
def FileToCompress.storedKey (file : FileToCompress w) : Option UInt32 × Option Str × Option Str :=
  pathKey file.cfFileInfo.fiStoredName

/-- Paths are compared by their keys. -/
lemma beq_eq_pathKey {p q : PackedFilePath} {b : Bool} (h : p.beq q = some b) :
    b = true ↔ pathKey p = pathKey q := by
  cases p with
  | rootDir => cases h
  | packed d₁ b₁ h₁ p₁ =>
    cases q with
    | rootDir => cases h
    | packed d₂ b₂ h₂ p₂ =>
      obtain rfl := Option.some.inj h
      simp [pathKey, PackedFilePath.fpHash, PackedFilePath.fpBasename, PackedFilePath.fpDirectory]

/-! ## Merging -/

/-- `merge`. -/
def merge (cmp : α → α → Ordering) : List α → List α → List α
  | xs, [] => xs
  | [], ys => ys
  | x :: xs, y :: ys =>
    if cmp x y = .gt then y :: merge cmp (x :: xs) ys else x :: merge cmp xs (y :: ys)
termination_by xs ys => xs.length + ys.length

/-- Merging keeps all items. -/
lemma merge_perm (cmp : α → α → Ordering) (xs ys : List α) : (merge cmp xs ys).Perm (xs ++ ys) := by
  fun_induction merge cmp xs ys with
  | case1 xs => rw [List.append_nil]
  | case2 ys => rfl
  | case3 x xs y ys hgt ih => exact (ih.cons y).trans List.perm_middle.symm
  | case4 x xs y ys hle ih => exact ih.cons x

end DArc.FileList
