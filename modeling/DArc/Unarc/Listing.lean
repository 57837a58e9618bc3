import DArc.Unarc.DirectoryBlock

/-!
# Listing the files of a directory block

`ListFiles` goes through the files of a directory block and keeps the number of the current data block, which it
increases by one when a file lies behind the block; at the first file of a block it remembers whether the block
is encrypted, and its compressed size for the first file that is shown.

### Outline

* `listFile`, `listFiles`: the loop;
* `Directory`: a directory block whose columns belong to counts of files;
* `Lists`: the files are shown with the blocks they belong to;
* `Current`: what the loop knows behind a file, its invariant.

### Main results

* `listsRight_iff`: files are shown with their blocks when no block except the first is empty in front of
  them.
-/

namespace DArc.Unarc

/-! ## The loop -/

/-- The markers of encryption methods in a compressor. -/
def ciphers : List (List UInt8) :=
  ["+aes-", "+serpent-", "+blowfish-", "+twofish-"].map fun s => s.toList.map fun c => UInt8.ofNat c.toNat

/-- A block with this compressor is encrypted. -/
def isEncrypted (compressor : List UInt8) : Bool := ciphers.any fun cipher => cipher.IsInfix compressor

/-- What is shown for a file: its number and size, the number of the current block, and what is remembered
of a block. -/
structure Line where
  /-- `i`. -/
  file : ℕ
  /-- `b`. -/
  block : ℕ
  /-- `filesize`. -/
  size : Int
  /-- `Encrypted`. -/
  encrypted : Bool
  /-- `packed`. -/
  packed : BitVec 64
  deriving DecidableEq

/-- The variables of the loop, what was shown, and the totals. -/
structure Listing where
  b : ℕ
  encrypted : Bool
  packed : BitVec 64
  lines : List Line
  totalFiles : BitVec 64
  totalBytes : BitVec 64
  totalPacked : BitVec 64
  deriving DecidableEq

/-- The variables in front of the loop. -/
def Listing.start : Listing := ⟨0, false, 0, [], 0, 0, 0⟩

/-- What is remembered at the file `i` when `b` is the current block: at the first file of the block it is
collected anew. -/
def blockInfo (u : DirectoryBlock) (b i : ℕ) (s : Listing) : Option (Bool × BitVec 64) := do
  if (i : Int) = (← u.blockStart b) then
    let d ← u.dataBlock[b]?
    return (isEncrypted d.compressor, BitVec.ofInt 64 d.compsize)
  else return (s.encrypted, s.packed)

/-- The file is shown when it is accepted. -/
def showFile (u : DirectoryBlock) (acceptFile : ℕ → Bool) (b i : ℕ) (encrypted : Bool) (packed : BitVec 64)
    (s : Listing) : Option Listing := do
  if acceptFile i then
    let size ← u.size[i]?
    return {
      b, encrypted, packed := 0
      lines := s.lines ++ [⟨i, b, size, encrypted, packed⟩]
      totalFiles := s.totalFiles + 1
      totalBytes := s.totalBytes + BitVec.ofInt 64 size
      totalPacked := s.totalPacked + packed }
  else return { s with b, encrypted, packed }

/-- One turn of the loop; `none` is an index outside an array. -/
def listFile (u : DirectoryBlock) (acceptFile : ℕ → Bool) (s : Listing) (i : ℕ) : Option Listing := do
  let b := if (i : Int) ≥ (← u.blockEnd s.b) then s.b + 1 else s.b
  let (encrypted, packed) ← blockInfo u b i s
  showFile u acceptFile b i encrypted packed s

/-- `ListFiles`. -/
def listFiles (u : DirectoryBlock) (acceptFile : ℕ → Bool) : Option Listing :=
  (List.range u.totalFiles.toNat).foldlM (listFile u acceptFile) Listing.start

/-! ## Directory blocks -/

/-- A directory block as it is made of the counts of the files in its blocks. -/
structure Directory where
  /-- The directory block. -/
  block : DirectoryBlock
  /-- The number of files in each data block. -/
  counts : List ℕ
  /-- The counts are added up. -/
  numOfFiles_eq : block.numOfFiles = accumulate 0 (counts.map fun n : ℕ => (n : Int))
  /-- The files are those of all blocks. -/
  totalFiles_eq : block.totalFiles = counts.sum
  /-- Each block is described. -/
  dataBlock_length : block.dataBlock.length = counts.length
  /-- Each file has a size. -/
  size_length : block.size.length = counts.sum

/-- The directory block that is made of regular columns. -/
def Directory.ofColumns (win : Bool) (pos : Int) (c : DirectoryColumns) (hsum : c.numOfFiles.sum < 2 ^ 31)
    (hcompressors : c.compressors.length = c.numOfFiles.length)
    (hoffsets : c.offsets.length = c.numOfFiles.length)
    (hcompsizes : c.compsizes.length = c.numOfFiles.length)
    (hsize : c.size.length = c.numOfFiles.sum) : Directory where
  block := c.directoryBlock win pos
  counts := c.numOfFiles
  numOfFiles_eq := congrArg (accumulate 0) (map_int32 hsum)
  totalFiles_eq := sum_int32 hsum
  dataBlock_length := by simp [DirectoryColumns.directoryBlock, hcompressors, hoffsets, hcompsizes]
  size_length := by simp [DirectoryColumns.directoryBlock, hsize]

namespace Directory

variable (d : Directory)

/-- The number of files in front of the `b`-th block. -/
def offset (b : ℕ) : ℕ := (d.counts.take b).sum

/-- The `b`-th block owns the file `i`. -/
def Owns (b i : ℕ) : Prop :=
  ∃ start stop, d.block.blockStart b = some start ∧ d.block.blockEnd b = some stop ∧
    start ≤ (i : Int) ∧ (i : Int) < stop

/-- What is remembered of the `b`-th block in front of the file `i`: whether it is encrypted, and its compressed
size until one of its files was shown. -/
structure Remembers (acceptFile : ℕ → Bool) (b i : ℕ) (encrypted : Bool) (packed : BitVec 64) : Prop where
  /-- The encryption is that of the block. -/
  encrypted_eq : ∃ descr, d.block.dataBlock[b]? = some descr ∧ encrypted = isEncrypted descr.compressor
  /-- The size was shown with an earlier file. -/
  packed_shown : ∀ j, d.Owns b j → j < i → acceptFile j = true → packed = 0
  /-- The size was not shown yet. -/
  packed_eq : (∀ j, d.Owns b j → j < i → acceptFile j = false) →
    ∃ descr, d.block.dataBlock[b]? = some descr ∧ packed = BitVec.ofInt 64 descr.compsize

/-- The line shows its file with the block that owns it: with the encryption of this block and, at the first file
of the block that is shown, its compressed size. -/
def ShownRight (acceptFile : ℕ → Bool) (line : Line) : Prop :=
  d.Owns line.block line.file ∧
    d.Remembers acceptFile line.block line.file line.encrypted line.packed

/-- Whatever files are accepted, these are shown one after another, each with the block that owns it. -/
def ListsRight : Prop :=
  ∀ acceptFile, ∃ s, listFiles d.block acceptFile = some s ∧
    s.lines.map Line.file = (List.range d.counts.sum).filter acceptFile ∧
    ∀ line ∈ s.lines, d.ShownRight acceptFile line

/-- No block except the first one is empty in front of a file. -/
def NoGap : Prop := ∀ b, 0 < b → d.counts[b]? = some 0 → (d.counts.drop b).sum = 0

variable {d}

/-! ## Offsets -/

/-- Blocks follow each other. -/
lemma offset_mono {a b : ℕ} (h : a ≤ b) : d.offset a ≤ d.offset b :=
  (List.take_sublist_take_left h).sum_le_sum fun _ _ => Nat.zero_le _

/-- Behind all blocks there are no files. -/
lemma offset_of_length_le {b : ℕ} (h : d.counts.length ≤ b) : d.offset b = d.counts.sum := by
  rw [offset, List.take_of_length_le h]

/-- The files of the blocks up to `b`, and the others. -/
lemma offset_add_sum_drop (b : ℕ) : d.offset b + (d.counts.drop b).sum = d.counts.sum := by
  rw [offset, ← List.sum_append, List.take_append_drop]

/-- The block behind which the files of `b` lie. -/
lemma offset_succ {b n : ℕ} (h : d.counts[b]? = some n) : d.offset (b + 1) = d.offset b + n := by
  rw [offset, List.take_add_one, h, List.sum_append]
  rfl

/-- A block in front of which not all files lie. -/
lemma lt_length {b i : ℕ} (hb : d.offset b ≤ i) (hi : i < d.counts.sum) : b < d.counts.length := by
  by_contra hge
  rw [offset_of_length_le (not_lt.mp hge)] at hb
  omega

/-- Where a block ends. -/
lemma blockEnd_eq {b : ℕ} (h : b < d.counts.length) : d.block.blockEnd b = some (d.offset (b + 1) : Int) := by
  have hlen : b < (d.counts.map fun n : ℕ => (n : Int)).length := by rwa [List.length_map]
  rw [DirectoryBlock.blockEnd, d.numOfFiles_eq, accumulate_eq 0 hlen, zero_add, ← List.map_take]
  exact congrArg some (Nat.cast_list_sum _).symm

/-- Where a block starts. -/
lemma blockStart_eq {b : ℕ} (h : b ≤ d.counts.length) : d.block.blockStart b = some (d.offset b : Int) := by
  cases b with
  | zero => rfl
  | succ b => exact blockEnd_eq h

/-- There is a running sum for each count. -/
lemma length_accumulate (t : Int) (ns : List Int) : (accumulate t ns).length = ns.length := by
  induction ns generalizing t with
  | nil => rfl
  | cons n ns ih => rw [accumulate, List.length_cons, ih, List.length_cons]

/-- A block owns the files from where it starts to where it ends. -/
lemma owns_iff {b i : ℕ} (hi : i < d.counts.sum) : d.Owns b i ↔ d.offset b ≤ i ∧ i < d.offset (b + 1) := by
  constructor
  · rintro ⟨start, stop, hstart, hstop, hle, hlt⟩
    have hb : b < d.counts.length := by
      by_contra hge
      have hnone : d.block.blockEnd b = none := by
        rw [DirectoryBlock.blockEnd, d.numOfFiles_eq, List.getElem?_eq_none]
        rw [length_accumulate, List.length_map]
        exact not_lt.mp hge
      rw [hnone] at hstop
      cases hstop
    rw [blockStart_eq hb.le] at hstart
    rw [blockEnd_eq hb] at hstop
    cases hstart
    cases hstop
    omega
  · rintro ⟨hle, hlt⟩
    have hb := lt_length hle hi
    exact ⟨_, _, blockStart_eq hb.le, blockEnd_eq hb, by omega, by omega⟩

/-! ## What is remembered -/

variable {acceptFile : ℕ → Bool} {b i : ℕ} {encrypted : Bool} {packed : BitVec 64}

/-- The first file of a block. -/
lemma remembers_first {descr : BlockDescriptor} (h : d.block.dataBlock[b]? = some descr)
    (hi : i < d.counts.sum) (hstart : d.offset b = i) :
    d.Remembers acceptFile b i (isEncrypted descr.compressor) (BitVec.ofInt 64 descr.compsize) where
  encrypted_eq := ⟨descr, h, rfl⟩
  packed_shown j hj hlt _ := by
    have hle := ((owns_iff (hlt.trans hi)).mp hj).1
    omega
  packed_eq _ := ⟨descr, h, rfl⟩

/-- A file of the block goes by. -/
lemma Remembers.next (h : d.Remembers acceptFile b i encrypted packed) (howns : d.Owns b i) :
    d.Remembers acceptFile b (i + 1) encrypted (if acceptFile i then 0 else packed) where
  encrypted_eq := h.encrypted_eq
  packed_shown j hj hlt haccept := by
    split
    · rfl
    next hnot =>
      obtain hj' | rfl := Nat.lt_succ_iff_lt_or_eq.mp hlt
      · exact h.packed_shown j hj hj' haccept
      · exact absurd haccept hnot
  packed_eq hnone := by
    rw [if_neg (Bool.eq_false_iff.mp (hnone i howns (Nat.lt_succ_self i)))]
    exact h.packed_eq fun j hj hlt => hnone j hj (Nat.lt_succ_of_lt hlt)

/-! ## One turn -/

/-- What a turn leaves, for the block `b` of which `encrypted` and `packed` are remembered. -/
structure Turned (acceptFile : ℕ → Bool) (i b : ℕ) (encrypted : Bool) (packed : BitVec 64)
    (s s' : Listing) : Prop where
  b_eq : s'.b = b
  encrypted_eq : s'.encrypted = encrypted
  packed_eq : s'.packed = if acceptFile i then 0 else packed
  lines_eq : ∃ size, s'.lines = s.lines ++ if acceptFile i then [⟨i, b, size, encrypted, packed⟩] else []

variable (acceptFile b encrypted packed) in
/-- A file that exists can be shown. -/
lemma showFile_spec (hi : i < d.counts.sum) (s : Listing) :
    ∃ s', showFile d.block acceptFile b i encrypted packed s = some s' ∧
      Turned acceptFile i b encrypted packed s s' := by
  obtain ⟨size, hsize⟩ : ∃ size, d.block.size[i]? = some size :=
    ⟨_, List.getElem?_eq_getElem (d.size_length ▸ hi)⟩
  unfold showFile
  by_cases haccept : acceptFile i = true
  · rw [if_pos haccept, hsize]
    refine ⟨_, rfl, rfl, rfl, (if_pos haccept).symm, size, ?_⟩
    rw [if_pos haccept]
  · rw [if_neg haccept]
    refine ⟨_, rfl, rfl, rfl, (if_neg haccept).symm, 0, ?_⟩
    rw [if_neg haccept, List.append_nil]

/-- The number of the block at the file `i`, when it was `b` before. -/
def current (d : Directory) (b i : ℕ) : ℕ := if d.offset (b + 1) ≤ i then b + 1 else b

/-- The block at the file `i` does not begin behind it. -/
lemma offset_current_le (hb : d.offset b ≤ i) : d.offset (d.current b i) ≤ i := by
  unfold current
  split
  next hle => exact hle
  next => exact hb

variable (acceptFile) in
/-- One turn of the loop: at the first file of a block something is remembered of it. -/
lemma listFile_spec (s : Listing) (hi : i < d.counts.sum) (hb : d.offset s.b ≤ i) :
    ∃ descr encrypted packed s', d.block.dataBlock[d.current s.b i]? = some descr ∧
      listFile d.block acceptFile s i = some s' ∧
      Turned acceptFile i (d.current s.b i) encrypted packed s s' ∧
      (encrypted, packed) =
        if d.offset (d.current s.b i) = i then
          (isEncrypted descr.compressor, BitVec.ofInt 64 descr.compsize)
        else (s.encrypted, s.packed) := by
  have hlen := lt_length (offset_current_le hb) hi
  obtain ⟨descr, hdescr⟩ : ∃ descr, d.block.dataBlock[d.current s.b i]? = some descr :=
    ⟨_, List.getElem?_eq_getElem (d.dataBlock_length ▸ hlen)⟩
  have hnumber : (if (i : Int) ≥ (d.offset (s.b + 1) : Int) then s.b + 1 else s.b) = d.current s.b i :=
    if_congr (by omega) rfl rfl
  have hinfo : blockInfo d.block (d.current s.b i) i s =
      some (if d.offset (d.current s.b i) = i then
          (isEncrypted descr.compressor, BitVec.ofInt 64 descr.compsize)
        else (s.encrypted, s.packed)) := by
    unfold blockInfo
    rw [blockStart_eq hlen.le, hdescr]
    by_cases hstart : d.offset (d.current s.b i) = i
    · rw [if_pos hstart]
      exact if_pos (congrArg _ hstart.symm)
    · rw [if_neg hstart]
      exact if_neg fun h => hstart (by omega)
  generalize hremembered : (if d.offset (d.current s.b i) = i then
      (isEncrypted descr.compressor, BitVec.ofInt 64 descr.compsize)
    else (s.encrypted, s.packed)) = info at hinfo
  obtain ⟨s', hshow, hturned⟩ := showFile_spec acceptFile (d.current s.b i) info.1 info.2 hi s
  refine ⟨descr, info.1, info.2, s', hdescr, ?_, hturned, hremembered.symm⟩
  unfold listFile
  rw [blockEnd_eq (lt_length hb hi)]
  change (blockInfo d.block (if (i : Int) ≥ (d.offset (s.b + 1) : Int) then s.b + 1 else s.b) i s).bind _ = _
  rw [hnumber, hinfo]
  exact hshow

/-! ## All turns -/

/-- What holds in front of the file `m`, whatever the counts are: the block does not begin behind the last file, and
neither does the block in front of one that was shown with a file. -/
structure Behind (d : Directory) (acceptFile : ℕ → Bool) (m : ℕ) (s : Listing) : Prop where
  first : m = 0 → s.b = 0
  offset_le : d.offset s.b ≤ m - 1
  files : s.lines.map Line.file = (List.range m).filter acceptFile
  lines : ∀ line ∈ s.lines, (line.file = 0 → line.block ≤ 1) ∧ d.offset (line.block - 1) ≤ line.file - 1

/-- The loop does not end before its last turn. -/
lemma Behind.turn {m : ℕ} {s : Listing} (h : Behind d acceptFile m s) (hm : m < d.counts.sum) :
    ∃ s', listFile d.block acceptFile s m = some s' ∧ Behind d acceptFile (m + 1) s' := by
  have hle := h.offset_le
  obtain ⟨descr, e, p, s', -, hrun, hturned, -⟩ :=
    listFile_spec acceptFile s hm (by omega)
  obtain ⟨size, hlines⟩ := hturned.lines_eq
  have hblock : (m = 0 → d.current s.b m ≤ 1) ∧ d.offset (d.current s.b m - 1) ≤ m - 1 := by
    unfold current
    split
    · exact ⟨fun h0 => by rw [h.first h0], h.offset_le⟩
    · exact ⟨fun h0 => by rw [h.first h0]; exact Nat.zero_le 1,
        (offset_mono (Nat.sub_le _ _)).trans h.offset_le⟩
  refine ⟨s', hrun, fun h0 => absurd h0 (Nat.succ_ne_zero m), ?_, ?_, ?_⟩
  · rw [hturned.b_eq]
    exact offset_current_le (by omega)
  · rw [hlines, List.map_append, h.files, List.range_succ, List.filter_append]
    by_cases haccept : acceptFile m = true
    · rw [if_pos haccept, List.filter_singleton, haccept]
      rfl
    · rw [if_neg haccept, List.filter_singleton, Bool.eq_false_iff.mpr haccept]
      rfl
  · intro line hline
    rw [hlines, List.mem_append] at hline
    obtain hold | hnew := hline
    · exact h.lines line hold
    · split at hnew
      · obtain rfl := List.mem_singleton.mp hnew
        exact hblock
      · cases hnew

/-- What holds in front of the file `m` when there is no gap: the block of the last file is remembered, and the
lines are right. -/
structure Current (d : Directory) (acceptFile : ℕ → Bool) (m : ℕ) (s : Listing) : Prop where
  remembers : 0 < m → d.Owns s.b (m - 1) ∧ d.Remembers acceptFile s.b m s.encrypted s.packed
  lines : ∀ line ∈ s.lines, d.ShownRight acceptFile line

/-- Without gaps the next block is the one that owns the next file. -/
lemma NoGap.owns_current {m : ℕ} {s : Listing} (hgap : d.NoGap) (hm : m < d.counts.sum)
    (h : Behind d acceptFile m s) (howns : 0 < m → d.Owns s.b (m - 1)) : d.Owns (d.current s.b m) m := by
  have hle := h.offset_le
  have hcurrent : d.offset (d.current s.b m) ≤ m := offset_current_le (by omega)
  rw [owns_iff hm]
  refine ⟨hcurrent, ?_⟩
  by_cases hend : d.offset (s.b + 1) ≤ m
  · have heq : d.current s.b m = s.b + 1 := if_pos hend
    rw [heq] at hcurrent ⊢
    obtain ⟨n, hn⟩ : ∃ n, d.counts[s.b + 1]? = some n :=
      ⟨_, List.getElem?_eq_getElem (lt_length hcurrent hm)⟩
    rw [offset_succ hn]
    have hnext : d.offset (s.b + 1) = m := by
      refine le_antisymm hend ?_
      rcases Nat.eq_zero_or_pos m with rfl | hpos
      · exact Nat.zero_le _
      · have hlast := ((owns_iff (by omega)).mp (howns hpos)).2
        omega
    have hne : n ≠ 0 := by
      rintro rfl
      have hsum := offset_add_sum_drop (d := d) (s.b + 1)
      rw [hgap _ (Nat.succ_pos _) hn] at hsum
      omega
    omega
  · have heq : d.current s.b m = s.b := if_neg hend
    rw [heq]
    omega

/-- A turn keeps what holds when there is no gap. -/
lemma Current.turn {m : ℕ} {s s' : Listing} (hgap : d.NoGap) (hbehind : Behind d acceptFile m s)
    (h : Current d acceptFile m s) (hm : m < d.counts.sum) (hrun : listFile d.block acceptFile s m = some s') :
    Current d acceptFile (m + 1) s' := by
  have hle := hbehind.offset_le
  obtain ⟨descr, e, p, s'', hdescr, hrun', hturned, hinfo⟩ :=
    listFile_spec acceptFile s hm (by omega)
  obtain rfl : s'' = s' := Option.some.inj (hrun'.symm.trans hrun)
  have howns := hgap.owns_current hm hbehind fun hpos => (h.remembers hpos).1
  have hremembers : d.Remembers acceptFile (d.current s.b m) m e p := by
    split at hinfo
    next hstart =>
      obtain ⟨rfl, rfl⟩ := Prod.mk.inj hinfo
      exact remembers_first hdescr hm hstart
    next hstart =>
      obtain ⟨rfl, rfl⟩ := Prod.mk.inj hinfo
      have hpos : 0 < m := by
        have hstart' := ((owns_iff hm).mp howns).1
        omega
      have hsame : d.current s.b m = s.b := by
        refine if_neg fun hend => hstart ?_
        have hlast := ((owns_iff (by omega)).mp (h.remembers hpos).1).2
        have heq : d.current s.b m = s.b + 1 := if_pos hend
        rw [heq]
        omega
      rw [hsame]
      exact (h.remembers hpos).2
  obtain ⟨size, hlines⟩ := hturned.lines_eq
  refine ⟨fun _ => ?_, ?_⟩
  · rw [hturned.b_eq, hturned.encrypted_eq, hturned.packed_eq]
    exact ⟨howns, hremembers.next howns⟩
  · intro line hline
    rw [hlines, List.mem_append] at hline
    obtain hold | hnew := hline
    · exact h.lines line hold
    · split at hnew
      · obtain rfl := List.mem_singleton.mp hnew
        exact ⟨howns, hremembers⟩
      · cases hnew

/-- The first turns of the loop. -/
lemma foldlM_listFile (d : Directory) (acceptFile : ℕ → Bool) {m : ℕ} (hm : m ≤ d.counts.sum) :
    ∃ s, (List.range m).foldlM (listFile d.block acceptFile) Listing.start = some s ∧
      Behind d acceptFile m s ∧ (d.NoGap → Current d acceptFile m s) := by
  induction m with
  | zero =>
    refine ⟨_, rfl, ⟨fun _ => rfl, Nat.zero_le _, rfl, fun line hline => ?_⟩, fun _ => ⟨?_, fun line hline => ?_⟩⟩
    · cases hline
    · exact fun hpos => absurd hpos (Nat.lt_irrefl 0)
    · cases hline
  | succ m ih =>
    obtain ⟨s, hrun, hbehind, hcurrent⟩ := ih (Nat.le_of_succ_le hm)
    obtain ⟨s', hturn, hbehind'⟩ := hbehind.turn hm
    refine ⟨s', ?_, hbehind', fun hgap => (hcurrent hgap).turn hgap hbehind hm hturn⟩
    rw [List.range_succ, List.foldlM_append, hrun]
    change (listFile d.block acceptFile s m).bind some = some s'
    rw [hturn]
    rfl

/-- The loop runs to its end. -/
lemma listFiles_spec (d : Directory) (acceptFile : ℕ → Bool) :
    ∃ s, listFiles d.block acceptFile = some s ∧ Behind d acceptFile d.counts.sum s ∧
      (d.NoGap → Current d acceptFile d.counts.sum s) := by
  unfold listFiles
  rw [d.totalFiles_eq, Int.toNat_natCast]
  exact foldlM_listFile d acceptFile le_rfl

/-- Behind a gap a file is shown with the wrong block. -/
lemma noGap_of_listsRight (h : d.ListsRight) : d.NoGap := by
  intro b hpos hcount
  by_contra hne
  obtain ⟨s, hrun, hfiles, hlines⟩ := h fun _ => true
  obtain ⟨s', hrun', hbehind, -⟩ := listFiles_spec d fun _ => true
  obtain rfl : s' = s := Option.some.inj (hrun'.symm.trans hrun)
  have hfile : d.offset b < d.counts.sum := by
    have hsum := offset_add_sum_drop (d := d) b
    omega
  have hmem : d.offset b ∈ s'.lines.map Line.file := by
    rw [hfiles, List.mem_filter, List.mem_range]
    exact ⟨hfile, rfl⟩
  obtain ⟨line, hline, heq⟩ := List.mem_map.mp hmem
  obtain ⟨hfirst, hblock⟩ := hbehind.lines line hline
  have howns := (hlines line hline).1
  rw [owns_iff (heq ▸ hfile), heq] at howns
  rw [heq] at hfirst hblock
  have hsucc := offset_succ hcount
  rcases Nat.lt_or_ge b line.block with hlt | hge
  · -- The block in front of the one that is shown begins behind the last file.
    have hmono := offset_mono (d := d) (show b ≤ line.block - 1 by omega)
    omega
  · have hmono := offset_mono (d := d) (show line.block + 1 ≤ b + 1 by omega)
    omega

/-- **When files are listed with their blocks**: exactly when no block except the first one is empty in front of a
file. -/
theorem listsRight_iff (d : Directory) : d.ListsRight ↔ d.NoGap := by
  refine ⟨noGap_of_listsRight, fun hgap acceptFile => ?_⟩
  obtain ⟨s, hrun, hbehind, hcurrent⟩ := listFiles_spec d acceptFile
  exact ⟨s, hrun, hbehind.files, (hcurrent hgap).lines⟩

/-- A directory block of two files with an empty block between them. -/
def gap : Directory where
  block :=
    { totalFiles := 2, numOfFiles := [1, 1, 2]
      dataBlock := [⟨2, [], 0, 0, 10, 0⟩, ⟨2, [], 0, 0, 20, 0⟩, ⟨2, [], 0, 0, 30, 0⟩]
      dirs := [[]], name := [[97], [98]], dirNumbers := [0, 0], size := [5, 6], time := [0, 0]
      isdir := [0, 0], crc := [0, 0] }
  counts := [1, 0, 1]
  numOfFiles_eq := rfl
  totalFiles_eq := rfl
  dataBlock_length := rfl
  size_length := rfl

/-- **Not all directory blocks are listed right**: behind an empty block a file is shown with that block. -/
theorem not_listsRight : ¬ ∀ d : Directory, d.ListsRight := by
  intro h
  obtain ⟨s, hrun, -, hlines⟩ := h gap fun _ => true
  have hlist : listFiles gap.block (fun _ => true) =
      some ⟨1, false, 0, [⟨0, 0, 5, false, 10⟩, ⟨1, 1, 6, false, 20⟩], 2, 11, 30⟩ := by decide +kernel
  obtain rfl := Option.some.inj (hlist.symm.trans hrun)
  obtain ⟨start, stop, -, hstop, -, hlt⟩ := (hlines ⟨1, 1, 6, false, 20⟩ (by simp)).1
  obtain rfl : 1 = stop := Option.some.inj hstop
  exact absurd hlt (by decide)

end Directory

end DArc.Unarc
