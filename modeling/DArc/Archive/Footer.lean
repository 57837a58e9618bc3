import DArc.Archive.RoundTrip

/-!
# The footer block

The footer block lists the control blocks of an archive, with positions relative to its own, and
holds the lock flag, the recovery settings and the comment.  Strings are written in two ways: the
settings end at a NUL, the comment is a list of UTF-8 bytes with its length in front.

### Main results

* `fromUTF8_toUTF8List`: every string is decoded from its bytes;
* `archiveReadFooterBlock_archiveWriteFooterBlock`: what is written is read back;
* `footerBlock_roundTrip`: and what cannot be written or read.
-/

namespace DArc.Archive

/-! ## Fields -/

/-- `fromEnum` of `BlockType`. -/
def BlockType.fromEnum : BlockType → ℕ
  | descrBlock => 0
  | headerBlock => 1
  | dataBlock => 2
  | dirBlock => 3
  | footerBlock => 4
  | recoveryBlock => 5
  | unknownBlock => 6
  | unknownBlock2 => 7
  | unknownBlock3 => 8

/-- `toEnum` of `BlockType`, which is not defined above the last constructor. -/
def BlockType.toEnum : ℕ → Option BlockType
  | 0 => some descrBlock
  | 1 => some headerBlock
  | 2 => some dataBlock
  | 3 => some dirBlock
  | 4 => some footerBlock
  | 5 => some recoveryBlock
  | 6 => some unknownBlock
  | 7 => some unknownBlock2
  | 8 => some unknownBlock3
  | _ => none

/-- `write` for `BlockType`. -/
def writeBlockType (t : BlockType) : Option (List UInt8) := writeLength t.fromEnum

/-- `read` for `BlockType`. -/
def readBlockType : Decoder UInt8 BlockType := fun s => do
  let (n, s) ← readLength s
  return (← BlockType.toEnum n, s)

/-- Every type of block is read back. -/
lemma blockType_transmits (t : BlockType) : Transmits writeBlockType readBlockType t := by
  have hlt : t.fromEnum < 2 ^ 64 := by cases t <;> decide
  have henum : BlockType.toEnum t.fromEnum = some t := by cases t <;> rfl
  obtain ⟨w, hw, hread⟩ := length_transmits hlt
  refine ⟨w, hw, fun rest => Option.bind_eq_some_iff.mpr ⟨_, hread rest, ?_⟩⟩
  exact Option.bind_eq_some_iff.mpr ⟨t, henum, rfl⟩

/-- `write` for lists other than strings. -/
def writeCounted {α : Type} (write : α → Option (List UInt8)) (xs : List α) : Option (List UInt8) :=
  joinAll [writeLength xs.length, encodeAll write xs]

/-- `read` for lists other than strings. -/
def readCounted {α : Type} (read : Decoder UInt8 α) : Decoder UInt8 (List α) := fun s => do
  let (n, s) ← readLength s
  decodeMany read n s

/-- A list of representable length is read back when its items are. -/
lemma counted_transmits {α : Type} {write : α → Option (List UInt8)} {read : Decoder UInt8 α}
    {xs : List α} (hlen : xs.length < 2 ^ 64) (h : ∀ x ∈ xs, Transmits write read x) :
    Transmits (writeCounted write) (readCounted read) xs := by
  obtain ⟨u, hu, hread⟩ := length_transmits hlen
  obtain ⟨v, hv, hreads⟩ := encodeAll_encodes h
  refine ⟨u ++ v, ?_, fun rest => ?_⟩
  · unfold writeCounted
    rw [hu, hv]
    exact (joinAll_eq_some [u, v]).trans (by simp)
  · rw [List.append_assoc]
    exact Option.bind_eq_some_iff.mpr ⟨_, hread _, hreads _⟩

/-! ## Descriptions of blocks -/

/-- The tuples in which control blocks are written. -/
abbrev BlockTuple := BlockType × List Str × Int × Int × Int × BitVec (8 * 4)

/-- `blockToTuple`. -/
def blockToTuple (arcpos : Int) (b : ArchiveBlock) : BlockTuple :=
  (b.blType, b.blCompressor, arcpos - b.blPos, b.blOrigSize, b.blCompSize, b.blCRC)

/-- `tupleToBlock`; `blFiles` is `undefined` there. -/
def tupleToBlock (isEncryption : Str → Bool) (arcpos : Int) : BlockTuple → ArchiveBlock
  | (t, c, p, o, s, crc) =>
    { blType := t, blCompressor := c, blPos := arcpos - p, blOrigSize := o, blCompSize := s,
      blCRC := crc, blFiles := 0, blIsEncrypted := c.any isEncryption }

/-- `write` for the tuple. -/
def writeBlockTuple : BlockTuple → Option (List UInt8)
  | (t, c, p, o, s, crc) =>
    joinAll [writeBlockType t, writeCompressor c, writeInteger p, writeInteger o, writeInteger s,
      writeStorable crc]

/-- `read` for the tuple. -/
def readBlockTuple : Decoder UInt8 BlockTuple := fun s => do
  let (blType, s) ← readBlockType s
  let (compressor, s) ← readCompressor s
  let (pos, s) ← readInteger s
  let (origSize, s) ← readInteger s
  let (compSize, s) ← readInteger s
  let (crc, s) ← readStorable 4 s
  return ((blType, compressor, pos, origSize, compSize, crc), s)

/-- Tuples of a plain compressor and representable numbers are read back. -/
lemma blockTuple_transmits {t : BlockTuple} (hc : PlainCompressor t.2.1) (hp : Representable t.2.2.1)
    (ho : Representable t.2.2.2.1) (hs : Representable t.2.2.2.2.1) :
    Transmits writeBlockTuple readBlockTuple t := by
  obtain ⟨blType, c, p, o, s, crc⟩ := t
  obtain ⟨w₁, hw₁, hr₁⟩ := blockType_transmits blType
  obtain ⟨w₂, hw₂, hr₂⟩ := compressor_transmits hc
  obtain ⟨w₃, hw₃, hr₃⟩ := integer_transmits hp.1 hp.2
  obtain ⟨w₄, hw₄, hr₄⟩ := integer_transmits ho.1 ho.2
  obtain ⟨w₅, hw₅, hr₅⟩ := integer_transmits hs.1 hs.2
  obtain ⟨w₆, hw₆, hr₆⟩ := storable_transmits crc
  refine ⟨[w₁, w₂, w₃, w₄, w₅, w₆].flatten, ?_, fun rest => ?_⟩
  · unfold writeBlockTuple
    dsimp only at hw₂ hw₃ hw₄ hw₅ ⊢
    rw [hw₁, hw₂, hw₃, hw₄, hw₅, hw₆]
    exact joinAll_eq_some [w₁, w₂, w₃, w₄, w₅, w₆]
  · have hflat : [w₁, w₂, w₃, w₄, w₅, w₆].flatten ++ rest =
        w₁ ++ (w₂ ++ (w₃ ++ (w₄ ++ (w₅ ++ (w₆ ++ rest))))) := by simp
    rw [hflat]
    refine Option.bind_eq_some_iff.mpr ⟨_, hr₁ _, ?_⟩
    refine Option.bind_eq_some_iff.mpr ⟨_, hr₂ _, ?_⟩
    refine Option.bind_eq_some_iff.mpr ⟨_, hr₃ _, ?_⟩
    refine Option.bind_eq_some_iff.mpr ⟨_, hr₄ _, ?_⟩
    refine Option.bind_eq_some_iff.mpr ⟨_, hr₅ _, ?_⟩
    exact Option.bind_eq_some_iff.mpr ⟨_, hr₆ _, rfl⟩

/-! ## UTF-8 -/

/-- The cases of `fromUTF'`: the code of the first character and the bytes behind it. -/
def takeUTF8 : Decoder UInt8 ℕ
  | [] => none
  | x :: xs =>
    if x ≤ 0x7F then some (x.toNat, xs)
    else if x ≤ 0xBF then none
    else if x ≤ 0xDF then
      match xs with
      | x2 :: xs => some (((x.toNat &&& 0x1F) <<< 6) ||| (x2.toNat &&& 0x3F), xs)
      | _ => none
    else if x ≤ 0xEF then
      match xs with
      | x2 :: x3 :: xs =>
        some ((((x.toNat &&& 0x0F) <<< 12) ||| ((x2.toNat &&& 0x3F) <<< 6)) ||| (x3.toNat &&& 0x3F),
          xs)
      | _ => none
    else
      match xs with
      | x2 :: x3 :: x4 :: xs =>
        some (((((x.toNat &&& 0x0F) <<< 18) ||| ((x2.toNat &&& 0x3F) <<< 12)) |||
          ((x3.toNat &&& 0x3F) <<< 6)) ||| (x4.toNat &&& 0x3F), xs)
      | _ => none

/-- A character takes at least one byte. -/
lemma length_takeUTF8 {s rest : List UInt8} {code : ℕ} (h : takeUTF8 s = some (code, rest)) :
    rest.length < s.length := by
  have hrest : ∀ {x : ℕ} {t : List UInt8}, some (x, t) = some (code, rest) → rest = t := fun heq =>
    (Prod.mk.inj (Option.some.inj heq)).2.symm
  cases s with
  | nil => cases h
  | cons x xs =>
    simp only [takeUTF8] at h
    split at h
    · rw [hrest h]
      exact Nat.lt_succ_self _
    split at h
    · cases h
    split at h
    · split at h
      · rw [hrest h]
        simp only [List.length_cons]
        omega
      · cases h
    split at h
    · split at h
      · rw [hrest h]
        simp only [List.length_cons]
        omega
      · cases h
    · split at h
      · rw [hrest h]
        simp only [List.length_cons]
        omega
      · cases h

/-- `fromUTF8`. -/
def fromUTF8 (s : List UInt8) : Option Str :=
  if s = [] then some []
  else
    match _h : takeUTF8 s with
    | none => none
    | some (code, rest) => do
      return (← chr code) :: (← fromUTF8 rest)
termination_by s.length
decreasing_by exact length_takeUTF8 _h

/-- A value above six bits. -/
lemma shiftLeft_or {a b : ℕ} (h : b < 64) : (a <<< 6) ||| b = a * 64 + b := by
  rw [← Nat.shiftLeft_add_eq_or_of_lt (show b < 2 ^ 6 from h), Nat.shiftLeft_eq]

/-- A value above twelve bits. -/
lemma shiftLeft_or_shiftLeft {a b : ℕ} (k : ℕ) (h : b < 64) :
    (a <<< (k + 6)) ||| (b <<< k) = (a * 64 + b) <<< k := by
  rw [Nat.add_comm, Nat.shiftLeft_add, ← Nat.shiftLeft_or_distrib, shiftLeft_or h]

/-- The six low bits of a byte behind the first. -/
lemma tail_bits (k : ℕ) : (UInt8.ofNat (0x80 + k % 64)).toNat &&& 0x3F = k % 64 := by
  have hlt := Nat.mod_lt k (show 0 < 64 by decide)
  rw [(and_mask _).2.2.2.2.2.1, UInt8.toNat_ofNat']
  omega

/-- The code of a character is taken off the front of its bytes. -/
lemma takeUTF8_toUTF8 (c : Chr) : Encodes takeUTF8 (toUTF8 c) c.val := by
  intro rest
  have hlt := c.isLt
  have h7F : (0x7F : UInt8) = UInt8.ofNat 127 := rfl
  have hBF : (0xBF : UInt8) = UInt8.ofNat 191 := rfl
  have hDF : (0xDF : UInt8) = UInt8.ofNat 223 := rfl
  have hEF : (0xEF : UInt8) = UInt8.ofNat 239 := rfl
  rw [toUTF8_eq]
  split
  · have hval : (UInt8.ofNat c.val).toNat = c.val := by
      rw [UInt8.toNat_ofNat', Nat.mod_eq_of_lt (by omega)]
    rw [List.singleton_append]
    unfold takeUTF8
    dsimp only
    rw [if_pos (by rw [h7F, ofNat_le_iff] <;> omega), hval]
  split
  · have hhead : (UInt8.ofNat (0xC0 + c.val / 64)).toNat &&& 0x1F = c.val / 64 := by
      rw [(and_mask _).2.2.2.2.1, UInt8.toNat_ofNat']
      omega
    have hcode : c.val / 64 * 64 + c.val % 64 = c.val := by omega
    rw [List.cons_append, List.singleton_append]
    unfold takeUTF8
    dsimp only
    rw [if_neg (by rw [h7F, ofNat_le_iff] <;> omega), if_neg (by rw [hBF, ofNat_le_iff] <;> omega),
      if_pos (by rw [hDF, ofNat_le_iff] <;> omega), hhead, tail_bits,
      shiftLeft_or (Nat.mod_lt _ (by decide)), hcode]
  split
  · have hhead : (UInt8.ofNat (0xE0 + c.val / 4096)).toNat &&& 0x0F = c.val / 4096 := by
      rw [(and_mask _).2.2.2.1, UInt8.toNat_ofNat']
      omega
    have hcode : (c.val / 4096 * 64 + c.val / 64 % 64) * 64 + c.val % 64 = c.val := by omega
    rw [List.cons_append, List.cons_append, List.singleton_append]
    unfold takeUTF8
    dsimp only
    rw [if_neg (by rw [h7F, ofNat_le_iff] <;> omega), if_neg (by rw [hBF, ofNat_le_iff] <;> omega),
      if_neg (by rw [hDF, ofNat_le_iff] <;> omega), if_pos (by rw [hEF, ofNat_le_iff] <;> omega),
      hhead, tail_bits, tail_bits, shiftLeft_or_shiftLeft 6 (Nat.mod_lt _ (by decide)),
      shiftLeft_or (Nat.mod_lt _ (by decide)), hcode]
  · have hhead : (UInt8.ofNat (0xF0 + c.val / 262144)).toNat &&& 0x0F = c.val / 262144 := by
      rw [(and_mask _).2.2.2.1, UInt8.toNat_ofNat']
      omega
    have hcode : ((c.val / 262144 * 64 + c.val / 4096 % 64) * 64 + c.val / 64 % 64) * 64 +
        c.val % 64 = c.val := by omega
    rw [List.cons_append, List.cons_append, List.cons_append, List.singleton_append]
    unfold takeUTF8
    dsimp only
    rw [if_neg (by rw [h7F, ofNat_le_iff] <;> omega), if_neg (by rw [hBF, ofNat_le_iff] <;> omega),
      if_neg (by rw [hDF, ofNat_le_iff] <;> omega), if_neg (by rw [hEF, ofNat_le_iff] <;> omega),
      hhead, tail_bits, tail_bits, tail_bits, shiftLeft_or_shiftLeft 12 (Nat.mod_lt _ (by decide)),
      shiftLeft_or_shiftLeft 6 (Nat.mod_lt _ (by decide)), shiftLeft_or (Nat.mod_lt _ (by decide)),
      hcode]

/-- A character in front of a string is decoded first. -/
lemma fromUTF8_toUTF8 (c : Chr) (rest : List UInt8) :
    fromUTF8 (toUTF8 c ++ rest) = (fromUTF8 rest).map (c :: ·) := by
  have htake := takeUTF8_toUTF8 c rest
  have hne : toUTF8 c ++ rest ≠ [] := by
    intro hnil
    rw [hnil] at htake
    cases htake
  rw [fromUTF8, if_neg hne]
  split
  · next hnone =>
    rw [htake] at hnone
    cases hnone
  · next code t hsome =>
    rw [htake] at hsome
    obtain ⟨rfl, rfl⟩ := Prod.mk.inj (Option.some.inj hsome)
    rw [chr_val (c := c) rfl]
    cases fromUTF8 rest <;> rfl

/-- **UTF-8**: every string is decoded from its bytes. -/
theorem fromUTF8_toUTF8List (s : Str) : fromUTF8 (toUTF8List s) = some s := by
  induction s with
  | nil =>
    rw [fromUTF8]
    exact if_pos rfl
  | cons c s ih =>
    have hcons : toUTF8List (c :: s) = toUTF8 c ++ toUTF8List s := rfl
    rw [hcons, fromUTF8_toUTF8, ih]
    rfl

/-! ## The footer -/

/-- `FooterBlock`. -/
structure FooterBlock where
  /-- The control blocks of the archive. -/
  ftBlocks : List ArchiveBlock
  /-- Whether the archive is locked. -/
  ftLocked : Bool
  /-- The comment. -/
  ftComment : Str
  /-- The recovery settings. -/
  ftRecovery : Str
  /-- The size of what stands before the first block. -/
  ftSFXSize : Int

/-- `write` for `Word8`. -/
def writeWord8 (b : UInt8) : Option (List UInt8) := some [b]

/-- `read` for `Word8`. -/
def readWord8 : Decoder UInt8 UInt8
  | [] => none
  | b :: s => some (b, s)

/-- `archiveWriteFooterBlock`. -/
def archiveWriteFooterBlock (controlBlocks : List ArchiveBlock) (arcLocked : Bool)
    (arcComment arcRecovery : Str) (arcpos : Int) : Option (List UInt8) :=
  let utf8comment := toUTF8List arcComment
  joinAll [writeCounted writeBlockTuple (controlBlocks.map (blockToTuple arcpos)),
    writeBool arcLocked, writeInteger 0, writeString arcRecovery, writeLength utf8comment.length,
    encodeAll writeWord8 utf8comment]

/-- The comment in the old format, a list of characters of four bytes. -/
def readOldComment : Decoder UInt8 Str := fun s => do
  let (old, s) ← readCounted (readStorable 4) s
  return (← old.mapM fun (c : BitVec (8 * 4)) => chr c.toNat, s)

/-- The comment as a list of UTF-8 bytes. -/
def readComment : Decoder UInt8 Str := fun s => do
  let (bytes, s) ← readCounted readWord8 s
  return (← fromUTF8 bytes, s)

/-- A field that is read unless the stream is at its end. -/
def readUnlessEOF (read : Decoder UInt8 Str) : Decoder UInt8 Str := fun s =>
  if s = [] then some ([], s) else read s

/-- `minimum`, which is not defined for the empty list. -/
def minimum : List Int → Option Int
  | [] => none
  | x :: xs => some (xs.foldl min x)

/-- `archiveReadFooterBlock`, on the decompressed contents `s` of the block. -/
def archiveReadFooterBlock (isEncryption : Str → Bool) (footer : ArchiveBlock) (s : List UInt8) :
    Option FooterBlock := do
  if footer.blType ≠ .footerBlock then none
  else
    let (controlBlocks, s) ← readCounted readBlockTuple s
    let (locked, s) ← readBool s
    let (oldComment, s) ← readOldComment s
    let (recovery, s) ← readUnlessEOF readString s
    let (comment, _) ← readUnlessEOF readComment s
    let blocks := controlBlocks.map (tupleToBlock isEncryption footer.blPos)
    return { ftBlocks := blocks ++ [footer]
             ftLocked := locked
             ftComment := if comment = [] then oldComment else comment
             ftRecovery := recovery
             ftSFXSize := ← minimum (blocks.map ArchiveBlock.blPos) }

/-- The control block that a block is read as. -/
def restoredControlBlock (isEncryption : Str → Bool) (b : ArchiveBlock) : ArchiveBlock :=
  { b with blFiles := 0, blIsEncrypted := b.blCompressor.any isEncryption }

/-- A control block at a distance from the footer that can be written. -/
structure PlainBlock (arcpos : Int) (b : ArchiveBlock) : Prop where
  /-- The compression methods can be told apart. -/
  compressor : PlainCompressor b.blCompressor
  /-- The distance from the footer is representable. -/
  pos : Representable (arcpos - b.blPos)
  /-- The size of the data is representable. -/
  origSize : Representable b.blOrigSize
  /-- The size of the compressed data is representable. -/
  compSize : Representable b.blCompSize

/-- The numbers of a control block that are written. -/
def blockNumbers (arcpos : Int) (b : ArchiveBlock) : List Int :=
  [arcpos - b.blPos, b.blOrigSize, b.blCompSize]

/-- The tuple of a block is turned into the block. -/
lemma tupleToBlock_blockToTuple (isEncryption : Str → Bool) (arcpos : Int) (b : ArchiveBlock) :
    tupleToBlock isEncryption arcpos (blockToTuple arcpos b) = restoredControlBlock isEncryption b := by
  unfold tupleToBlock blockToTuple restoredControlBlock
  dsimp only
  rw [sub_sub_cancel]

/-- Bytes are read back. -/
lemma word8_transmits (b : UInt8) : Transmits writeWord8 readWord8 b := ⟨[b], rfl, fun _ => rfl⟩

/-- The minimum of a list that is not empty is one of its items, and below the others. -/
lemma minimum_spec {xs : List Int} (h : xs ≠ []) :
    ∃ m, minimum xs = some m ∧ m ∈ xs ∧ ∀ x ∈ xs, m ≤ x := by
  obtain ⟨x, xs, rfl⟩ := List.exists_cons_of_ne_nil h
  refine ⟨_, rfl, ?_⟩
  induction xs generalizing x with
  | nil => simp
  | cons y ys ih =>
    obtain ⟨hmem, hle⟩ := ih (min x y) (List.cons_ne_nil _ _)
    rw [List.foldl_cons]
    constructor
    · rcases List.mem_cons.mp hmem with hmin | hys
      · rw [hmin]
        rcases min_choice x y with h | h <;> simp [h]
      · exact List.mem_cons_of_mem _ (List.mem_cons_of_mem _ hys)
    · intro z hz
      have hxy := hle (min x y) List.mem_cons_self
      rcases List.mem_cons.mp hz with rfl | hz
      · exact hxy.trans (min_le_left _ _)
      rcases List.mem_cons.mp hz with rfl | hz
      · exact hxy.trans (min_le_right _ _)
      · exact hle z (List.mem_cons_of_mem _ hz)

/-- A field that stands in the stream is read. -/
lemma readUnlessEOF_eq {read : Decoder UInt8 Str} (hnil : read [] = none) {s : List UInt8}
    {r : Str × List UInt8} (h : read s = some r) : readUnlessEOF read s = some r := by
  unfold readUnlessEOF
  rw [if_neg, h]
  rintro rfl
  rw [hnil] at h
  cases h

/-- A string is not read from the empty stream. -/
lemma readString_nil : readString [] = none := by
  rw [readString, if_neg (by decide)]
  rfl

/-- A comment is not read from the empty stream. -/
lemma readComment_nil : readComment [] = none := rfl

/-- **Writing and reading a footer**: control blocks, flag, settings and comment are read back. -/
theorem archiveReadFooterBlock_archiveWriteFooterBlock (isEncryption : Str → Bool)
    {controlBlocks : List ArchiveBlock} (arcLocked : Bool) {arcComment arcRecovery : Str}
    {footer : ArchiveBlock} (hfooter : footer.blType = .footerBlock) (hne : controlBlocks ≠ [])
    (hlen : controlBlocks.length < 2 ^ 64) (hblocks : ∀ b ∈ controlBlocks, PlainBlock footer.blPos b)
    (hrecovery : 0 ∉ arcRecovery) (hcomment : (toUTF8List arcComment).length < 2 ^ 64) :
    ∃ s m, archiveWriteFooterBlock controlBlocks arcLocked arcComment arcRecovery footer.blPos =
        some s ∧
      archiveReadFooterBlock isEncryption footer s =
        some { ftBlocks := controlBlocks.map (restoredControlBlock isEncryption) ++ [footer]
               ftLocked := arcLocked
               ftComment := arcComment
               ftRecovery := arcRecovery
               ftSFXSize := m } ∧
      m ∈ controlBlocks.map ArchiveBlock.blPos ∧ ∀ b ∈ controlBlocks, m ≤ b.blPos := by
  have htuples : ∀ t ∈ controlBlocks.map (blockToTuple footer.blPos),
      Transmits writeBlockTuple readBlockTuple t := by
    intro t ht
    obtain ⟨b, hb, rfl⟩ := List.mem_map.mp ht
    obtain ⟨hc, hp, ho, hs⟩ := hblocks b hb
    exact blockTuple_transmits hc hp ho hs
  obtain ⟨w₁, hw₁, hr₁⟩ := counted_transmits (by rw [List.length_map]; exact hlen) htuples
  obtain ⟨w₂, hw₂, hr₂⟩ := bool_transmits arcLocked
  obtain ⟨w₃, hw₃, hr₃⟩ := length_transmits (show 0 < 2 ^ 64 by decide)
  obtain ⟨w₄, hw₄, hr₄⟩ := string_transmits hrecovery
  obtain ⟨w₅, hw₅, hr₅⟩ := length_transmits hcomment
  obtain ⟨w₆, hw₆, hr₆⟩ := encodeAll_encodes fun b (_ : b ∈ toUTF8List arcComment) =>
    word8_transmits b
  have hpos : controlBlocks.map ArchiveBlock.blPos ≠ [] := by simpa using hne
  obtain ⟨m, hm, hmem, hle⟩ := minimum_spec hpos
  have hmap : (controlBlocks.map (blockToTuple footer.blPos)).map
      (tupleToBlock isEncryption footer.blPos) =
      controlBlocks.map (restoredControlBlock isEncryption) := by
    rw [List.map_map]
    exact List.map_congr_left fun b _ => tupleToBlock_blockToTuple isEncryption footer.blPos b
  have hposs : (controlBlocks.map (restoredControlBlock isEncryption)).map ArchiveBlock.blPos =
      controlBlocks.map ArchiveBlock.blPos := by
    rw [List.map_map]
    rfl
  -- Neither of the optional fields stands at the end of the stream.
  have hcommentRead : readComment (w₅ ++ w₆) = some (arcComment, []) := by
    have hbytes : readCounted readWord8 (w₅ ++ w₆) = some (toUTF8List arcComment, []) := by
      have hr := hr₆ []
      rw [List.append_nil] at hr
      exact Option.bind_eq_some_iff.mpr ⟨_, hr₅ _, hr⟩
    refine Option.bind_eq_some_iff.mpr ⟨_, hbytes, ?_⟩
    exact Option.bind_eq_some_iff.mpr ⟨_, fromUTF8_toUTF8List arcComment, rfl⟩
  have hold : readOldComment (w₃ ++ (w₄ ++ (w₅ ++ w₆))) = some ([], w₄ ++ (w₅ ++ w₆)) := by
    have hchars : readCounted (readStorable 4) (w₃ ++ (w₄ ++ (w₅ ++ w₆))) =
        some ([], w₄ ++ (w₅ ++ w₆)) := Option.bind_eq_some_iff.mpr ⟨_, hr₃ _, rfl⟩
    exact Option.bind_eq_some_iff.mpr ⟨_, hchars, rfl⟩
  refine ⟨[w₁, w₂, w₃, w₄, w₅, w₆].flatten, m, ?_, ?_, hmem, fun b hb => hle _ ?_⟩
  · unfold archiveWriteFooterBlock
    dsimp only
    rw [hw₁, hw₂, hw₄, hw₅, hw₆, show writeInteger 0 = some w₃ from hw₃]
    exact joinAll_eq_some [w₁, w₂, w₃, w₄, w₅, w₆]
  · have hflat : [w₁, w₂, w₃, w₄, w₅, w₆].flatten = w₁ ++ (w₂ ++ (w₃ ++ (w₄ ++ (w₅ ++ w₆)))) := by
      simp
    unfold archiveReadFooterBlock
    rw [if_neg (by simp [hfooter]), hflat]
    refine Option.bind_eq_some_iff.mpr ⟨_, hr₁ _, ?_⟩
    refine Option.bind_eq_some_iff.mpr ⟨_, hr₂ _, ?_⟩
    refine Option.bind_eq_some_iff.mpr ⟨_, hold, ?_⟩
    refine Option.bind_eq_some_iff.mpr ⟨_, readUnlessEOF_eq readString_nil (hr₄ _), ?_⟩
    refine Option.bind_eq_some_iff.mpr ⟨_, readUnlessEOF_eq readComment_nil hcommentRead, ?_⟩
    dsimp only
    rw [hmap, hposs]
    refine Option.bind_eq_some_iff.mpr ⟨m, hm, ?_⟩
    have hdefault : (if arcComment = [] then [] else arcComment) = arcComment := by
      split
      · next h => exact h.symm
      · rfl
    rw [hdefault]
    rfl
  · exact List.mem_map_of_mem hb

/-- A control block with a number that is not representable is not written. -/
lemma archiveWriteFooterBlock_eq_none {controlBlocks : List ArchiveBlock} {arcpos : Int}
    {b : ArchiveBlock} (hb : b ∈ controlBlocks) {x : Int} (hx : x ∈ blockNumbers arcpos b)
    (hrep : ¬ Representable x) (arcLocked : Bool) (arcComment arcRecovery : Str) :
    archiveWriteFooterBlock controlBlocks arcLocked arcComment arcRecovery arcpos = none := by
  have hinteger : writeInteger x = none := writeInteger_eq_none.mpr hrep
  have htuple : writeBlockTuple (blockToTuple arcpos b) = none := by
    unfold writeBlockTuple blockToTuple
    rw [joinAll_eq_none, ← hinteger]
    unfold blockNumbers at hx
    simp only [List.mem_cons, List.not_mem_nil, or_false] at hx
    rcases hx with rfl | rfl | rfl <;> simp
  unfold archiveWriteFooterBlock
  rw [joinAll_eq_none, List.mem_cons]
  left
  unfold writeCounted
  symm
  rw [joinAll_eq_none, List.mem_cons, List.mem_singleton]
  right
  symm
  rw [encodeAll_eq_none]
  exact ⟨_, List.mem_map_of_mem hb, htuple⟩

/-- A footer without control blocks is not read. -/
lemma archiveReadFooterBlock_nil (isEncryption : Str → Bool) {footer : ArchiveBlock} {s t : List UInt8}
    (h : readCounted readBlockTuple s = some ([], t)) :
    archiveReadFooterBlock isEncryption footer s = none := by
  unfold archiveReadFooterBlock
  split
  · rfl
  · refine Option.bind_eq_none_iff.mpr fun r hr => ?_
    obtain rfl := Option.some.inj (h.symm.trans hr)
    refine Option.bind_eq_none_iff.mpr fun _ _ => Option.bind_eq_none_iff.mpr fun _ _ => ?_
    exact Option.bind_eq_none_iff.mpr fun _ _ => Option.bind_eq_none_iff.mpr fun _ _ => rfl

/-- A footer without control blocks is written. -/
lemma archiveWriteFooterBlock_nil (arcLocked : Bool) (arcComment arcRecovery : Str)
    (hrecovery : 0 ∉ arcRecovery) (hcomment : (toUTF8List arcComment).length < 2 ^ 64) (arcpos : Int) :
    ∃ s, archiveWriteFooterBlock [] arcLocked arcComment arcRecovery arcpos = some s ∧
      ∃ t, readCounted readBlockTuple s = some ([], t) := by
  have htuples : Transmits (writeCounted writeBlockTuple) (readCounted readBlockTuple) [] :=
    counted_transmits (by decide) (by simp)
  obtain ⟨w₁, hw₁, hr₁⟩ := htuples
  obtain ⟨w₂, hw₂, -⟩ := bool_transmits arcLocked
  obtain ⟨w₃, hw₃, -⟩ := length_transmits (show 0 < 2 ^ 64 by decide)
  obtain ⟨w₄, hw₄, -⟩ := string_transmits hrecovery
  obtain ⟨w₅, hw₅, -⟩ := length_transmits hcomment
  obtain ⟨w₆, hw₆, -⟩ := encodeAll_encodes fun b (_ : b ∈ toUTF8List arcComment) =>
    word8_transmits b
  refine ⟨[w₁, w₂, w₃, w₄, w₅, w₆].flatten, ?_, _, hr₁ _⟩
  unfold archiveWriteFooterBlock
  dsimp only
  rw [List.map_nil, hw₁, hw₂, hw₄, hw₅, hw₆, show writeInteger 0 = some w₃ from hw₃]
  exact joinAll_eq_some [w₁, w₂, w₃, w₄, w₅, w₆]

/-- **The round trip of the footer block**: control blocks with plain compressors and representable
numbers, the flag, the settings and the comment are read as they were written, with the smallest
position as the size of the SFX module; other numbers are refused, and a footer without control
blocks is not read. -/
theorem footerBlock_roundTrip (isEncryption : Str → Bool) (controlBlocks : List ArchiveBlock)
    (arcLocked : Bool) (arcComment arcRecovery : Str) (footer : ArchiveBlock)
    (hfooter : footer.blType = .footerBlock) (hlen : controlBlocks.length < 2 ^ 64)
    (hcompressor : ∀ b ∈ controlBlocks, PlainCompressor b.blCompressor) (hrecovery : 0 ∉ arcRecovery)
    (hcomment : (toUTF8List arcComment).length < 2 ^ 64) :
    (controlBlocks ≠ [] → (∀ b ∈ controlBlocks, ∀ x ∈ blockNumbers footer.blPos b, Representable x) →
      ∃ s m, archiveWriteFooterBlock controlBlocks arcLocked arcComment arcRecovery footer.blPos =
          some s ∧
        archiveReadFooterBlock isEncryption footer s =
          some { ftBlocks := controlBlocks.map (restoredControlBlock isEncryption) ++ [footer]
                 ftLocked := arcLocked
                 ftComment := arcComment
                 ftRecovery := arcRecovery
                 ftSFXSize := m } ∧
        m ∈ controlBlocks.map ArchiveBlock.blPos ∧ ∀ b ∈ controlBlocks, m ≤ b.blPos) ∧
    ((∃ b ∈ controlBlocks, ∃ x ∈ blockNumbers footer.blPos b, ¬ Representable x) →
      archiveWriteFooterBlock controlBlocks arcLocked arcComment arcRecovery footer.blPos = none) ∧
    (controlBlocks = [] → ∃ s,
      archiveWriteFooterBlock controlBlocks arcLocked arcComment arcRecovery footer.blPos = some s ∧
      archiveReadFooterBlock isEncryption footer s = none) := by
  refine ⟨fun hne hnumbers => ?_, ?_, ?_⟩
  · refine archiveReadFooterBlock_archiveWriteFooterBlock isEncryption arcLocked hfooter hne hlen ?_
      hrecovery hcomment
    intro b hb
    have hrep := hnumbers b hb
    exact
      { compressor := hcompressor b hb
        pos := hrep _ (by simp [blockNumbers])
        origSize := hrep _ (by simp [blockNumbers])
        compSize := hrep _ (by simp [blockNumbers]) }
  · rintro ⟨b, hb, x, hx, hrep⟩
    exact archiveWriteFooterBlock_eq_none hb hx hrep arcLocked arcComment arcRecovery
  · rintro rfl
    obtain ⟨s, hwrite, t, hread⟩ := archiveWriteFooterBlock_nil arcLocked _ _ hrecovery hcomment
      footer.blPos
    exact ⟨s, hwrite, archiveReadFooterBlock_nil isEncryption hread⟩

/-- The header block of an archive. -/
def headerBlock (origSize : Int) : ArchiveBlock :=
  { blType := .headerBlock, blCompressor := [[115]], blPos := 3, blOrigSize := origSize,
    blCompSize := 8, blCRC := 5, blFiles := 0, blIsEncrypted := false }

/-- The footer block of an archive. -/
def footerAt (pos : Int) : ArchiveBlock :=
  { blType := .footerBlock, blCompressor := [[115]], blPos := pos, blOrigSize := 40,
    blCompSize := 40, blCRC := 5, blFiles := 0, blIsEncrypted := false }

/-- A footer with one block and a comment with NUL. -/
theorem footerBlock_roundTrip_header :
    ∃ s m, archiveWriteFooterBlock [headerBlock 8] true [0, 65] [] (footerAt 20).blPos = some s ∧
      archiveReadFooterBlock (fun _ => false) (footerAt 20) s =
        some { ftBlocks := [headerBlock 8].map (restoredControlBlock fun _ => false) ++ [footerAt 20]
               ftLocked := true
               ftComment := [0, 65]
               ftRecovery := []
               ftSFXSize := m } ∧
      m ∈ [headerBlock 8].map ArchiveBlock.blPos ∧ ∀ b ∈ [headerBlock 8], m ≤ b.blPos := by
  refine (footerBlock_roundTrip (fun _ => false) [headerBlock 8] true [0, 65] [] (footerAt 20) rfl
    (by decide) ?_ (by decide) (by decide)).1 (by decide) ?_
  · intro b hb
    obtain rfl := List.mem_singleton.mp hb
    exact show PlainCompressor [[115]] from ⟨by decide, by decide⟩
  · intro b hb x hx
    obtain rfl := List.mem_singleton.mp hb
    simp only [blockNumbers, headerBlock, footerAt, List.mem_cons, List.not_mem_nil, or_false] at hx
    rcases hx with rfl | rfl | rfl <;> exact ⟨by decide, by decide⟩

/-- **Not every footer block is read back**: a footer without control blocks is not read, a block of
2^64 bytes is refused, and an empty list of methods is read as a list of an empty method. -/
theorem not_footerBlock_roundTrip :
    (∃ s, archiveWriteFooterBlock [] false [] [] 20 = some s ∧
      archiveReadFooterBlock (fun _ => false) (footerAt 20) s = none) ∧
    archiveWriteFooterBlock [headerBlock (2 ^ 64)] false [] [] 20 = none ∧
    (∃ s, writeCompressor [] = some s ∧ readCompressor s = some ([[]], [])) := by
  refine ⟨?_, ?_, ?_⟩
  · obtain ⟨s, hwrite, t, hread⟩ := archiveWriteFooterBlock_nil false [] [] (by decide)
      (by decide) 20
    exact ⟨s, hwrite, archiveReadFooterBlock_nil _ hread⟩
  · have hlarge : ¬ Representable (2 ^ 64) := fun h => absurd h.2 (lt_irrefl _)
    exact archiveWriteFooterBlock_eq_none List.mem_cons_self (by simp [blockNumbers, headerBlock])
      hlarge false [] []
  · obtain ⟨w, hw, hread⟩ := string_transmits (s := []) (by decide)
    have hr := hread []
    rw [List.append_nil] at hr
    refine ⟨w, hw, ?_⟩
    unfold readCompressor
    rw [hr, Option.map_some, split_of_notMem (by decide)]

end DArc.Archive
