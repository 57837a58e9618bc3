import DArc.Archive.BrokenArchive
import DArc.Unarc.MemoryBuffer

/-!
# The footer of an archive, as the archiver and the unpacker find it

Both look for the last signature in the last 4096 bytes of the archive.  When there is no descriptor behind
this signature, `archiveFindBlockDescriptor` goes on with the signature before it, and the unpacker gives up.

### Outline

* `findFooterDescriptor`, `localBlockDescriptor`: the unpacker;
* `archiveFindFooter`: the archiver;
* `SameFooter`: both find the footer, and the same one.

### Main results

* `unarcFooter_eq_some_iff`: when the unpacker finds a footer at the end of an archive;
* `archiveFindFooter_eq`: when the archiver does;
* `sameFooter_iff`: the two agree on an archive if and only if there is no signature in the descriptor behind
  its first four bytes, the descriptor has at most 4096 bytes, and the sizes are positive and less than 2^63;
* `not_sameFooter`: a footer whose CRC is the signature.
-/

namespace DArc.Unarc

open DArc.Archive (peek toUTF8List plus Str Chr ArchiveBlock ArchiveError PlainCompressor signature
  scanMax archiveFindBlockDescriptor archiveReadBlockDescriptor archiveWriteBlockDescriptor writeDescriptor
  writeDescriptor_encodes findFrom Searched Reads Silent findFrom_searched silent_of_short)
open DArc.Environment (calcCRC)

/-! ## The unpacker -/

/-- `MAX_FOOTER_DESCRIPTOR_SIZE`. -/
def maxFooterDescriptorSize : ℕ := 4096

/-- `BLOCK_DESCRIPTOR`, which has the fields of `BLOCK`. -/
structure BlockDescriptor where
  /-- The kind of the block. -/
  type : Int
  /-- The compression methods. -/
  compressor : List UInt8
  /-- The position in the archive. -/
  pos : Int
  /-- The size of the data. -/
  origsize : Int
  /-- The size of the compressed data. -/
  compsize : Int
  /-- The CRC of the data. -/
  crc : ℕ
  deriving DecidableEq

/-- The loop of `FindFooterDescriptor`, from an offset down. -/
def findSignature (buf : List UInt8) : ℕ → Option ℕ
  | 0 => if peek 4 buf = signature.toNat then some 0 else none
  | ptr + 1 =>
    if peek 4 (buf.drop (ptr + 1)) = signature.toNat then some (ptr + 1) else findSignature buf ptr

/-- `FindFooterDescriptor`; a file of less than four bytes is refused after a read in front of the buffer. -/
def findFooterDescriptor (file : List UInt8) : Option ℕ :=
  let size := min file.length maxFooterDescriptorSize
  let buf := file.drop (file.length - size)
  if size < 4 then none else (findSignature buf (size - 4)).map fun ptr => file.length - size + ptr

/-- `openWithCRCAtEnd`. -/
def openWithCRCAtEnd (buf : List UInt8) : Option (List UInt8) :=
  let rightCrc := peek 4 (buf.drop (buf.length - 4))
  let crc := calcCRC (buf.take (buf.length - 4))
  if crc.toNat = rightCrc then some (buf.take (buf.length - 4)) else none

/-- The fields of `LOCAL_BLOCK_DESCRIPTOR` as they are read. -/
structure LocalFields where
  sign : ℕ
  type : ℕ
  compressor : List UInt8
  origsize : ℕ
  compsize : ℕ
  crc : ℕ

/-- The calls of `read` in `LOCAL_BLOCK_DESCRIPTOR`. -/
def readLocalFields (behind : List UInt8) : Decoder UInt8 LocalFields := fun s => do
  let (sign, s) ← read4 behind s
  let (type, s) ← readInteger behind s
  let (compressor, s) ← readChars s
  let (origsize, s) ← readInteger behind s
  let (compsize, s) ← readInteger behind s
  let (crc, s) ← read4 behind s
  return ({ sign, type, compressor, origsize, compsize, crc }, s)

/-- The check in `LOCAL_BLOCK_DESCRIPTOR`, and the block. -/
def LocalFields.block (descrPos : ℕ) (f : LocalFields) : Option BlockDescriptor :=
  if f.sign = signature.toNat ∧ 0 < int64 f.origsize ∧ 0 < int64 f.compsize ∧ int64 f.compsize ≤ descrPos then
    some { type := int32 f.type, compressor := f.compressor, pos := descrPos - int64 f.compsize,
           origsize := int64 f.origsize, compsize := int64 f.compsize, crc := f.crc }
  else none

/-- `LOCAL_BLOCK_DESCRIPTOR`. -/
def localBlockDescriptor (behind file : List UInt8) (descrPos : ℕ) : Option BlockDescriptor := do
  let buf := (file.drop descrPos).take maxFooterDescriptorSize
  let s ← openWithCRCAtEnd buf
  -- the CRC and the bytes of the allocation lie behind the data
  let (fields, _) ← readLocalFields (buf.drop (buf.length - 4) ++ behind) s
  fields.block descrPos

/-- The descriptor that is found, and what is read from it. -/
def unarcFooter (behind file : List UInt8) : Option (ℕ × BlockDescriptor) := do
  let pos ← findFooterDescriptor file
  return (pos, ← localBlockDescriptor behind file pos)

/-! ## The archiver -/

/-- The search in `archiveReadFooter`. -/
def archiveFindFooter (isEncryption : Str → Bool) (file : List UInt8) :
    Option (Except ArchiveError ArchiveBlock) :=
  let scanBytes := min scanMax file.length
  archiveFindBlockDescriptor isEncryption (file.length - scanBytes)
    (file.drop (file.length - scanBytes)) scanBytes scanBytes

/-- A block of the archiver in the words of the unpacker. -/
def asUnarc (b : ArchiveBlock) : BlockDescriptor :=
  { type := b.blType.fromEnum, compressor := toUTF8List (joinWith [plus] b.blCompressor), pos := b.blPos,
    origsize := b.blOrigSize, compsize := b.blCompSize, crc := b.blCRC.toNat }

/-- Both find the descriptor at `descrPos`, and read the same block from it. -/
def SameFooter (isEncryption : Str → Bool) (behind file : List UInt8) (descrPos : ℕ) : Prop :=
  ∃ b, archiveFindFooter isEncryption file = some (.ok b) ∧ b.blPos + b.blCompSize = descrPos ∧
    unarcFooter behind file = some (descrPos, asUnarc b)

/-! ## Signatures -/

/-- The loop finds the last signature. -/
lemma findSignature_eq_some_iff {buf : List UInt8} {n ptr : ℕ} :
    findSignature buf n = some ptr ↔ ptr ≤ n ∧ peek 4 (buf.drop ptr) = signature.toNat ∧
      ∀ j > ptr, j ≤ n → peek 4 (buf.drop j) ≠ signature.toNat := by
  induction n with
  | zero =>
    rw [findSignature, Option.ite_some_none_eq_some]
    constructor
    · rintro ⟨h, rfl⟩
      exact ⟨le_rfl, h, fun j hj hle => absurd hj (not_lt.mpr hle)⟩
    · rintro ⟨hle, h, -⟩
      obtain rfl := Nat.le_zero.mp hle
      exact ⟨h, rfl⟩
  | succ n ih =>
    rw [findSignature]
    by_cases hsig : peek 4 (buf.drop (n + 1)) = signature.toNat
    · rw [if_pos hsig]
      constructor
      · intro h
        obtain rfl := Option.some.inj h
        exact ⟨le_rfl, hsig, fun j hj hle => absurd hj (not_lt.mpr hle)⟩
      · rintro ⟨hle, -, hlast⟩
        obtain hlt | rfl := Nat.lt_or_eq_of_le hle
        · exact absurd hsig (hlast (n + 1) hlt le_rfl)
        · rfl
    · rw [if_neg hsig, ih]
      constructor
      · rintro ⟨hle, h, hlast⟩
        refine ⟨by omega, h, fun j hj hle' => ?_⟩
        obtain hlt | rfl := Nat.lt_or_eq_of_le hle'
        · exact hlast j hj (by omega)
        · exact hsig
      · rintro ⟨hle, h, hlast⟩
        obtain hlt | rfl := Nat.lt_or_eq_of_le hle
        · exact ⟨by omega, h, fun j hj hle' => hlast j hj (by omega)⟩
        · exact absurd h hsig

/-- There is no signature in the descriptor behind its first four bytes. -/
def SignedOnce (descriptor : List UInt8) : Prop :=
  ∀ k, 0 < k → k + 4 ≤ descriptor.length → peek 4 (descriptor.drop k) ≠ signature.toNat

variable {start descriptor : List UInt8}

/-- The bytes of a file behind an offset in its last bytes. -/
lemma drop_last {size k : ℕ} (hsize : size ≤ (start ++ descriptor).length)
    (hdescr : descriptor.length ≤ size) :
    ((start ++ descriptor).drop ((start ++ descriptor).length - size)).drop (size - descriptor.length + k) =
      descriptor.drop k := by
  have hlen : (start ++ descriptor).length = start.length + descriptor.length := List.length_append
  have hplace : (start ++ descriptor).length - size + (size - descriptor.length + k) = start.length + k := by
    omega
  rw [List.drop_drop, hplace, List.drop_length_add_append]

/-- The unpacker stops at the descriptor at the end of a file if and only if this is the last signature, and
near enough. -/
lemma findFooterDescriptor_eq_some_iff (hlen : 4 ≤ descriptor.length)
    (hsig : peek 4 descriptor = signature.toNat) :
    findFooterDescriptor (start ++ descriptor) = some start.length ↔
      descriptor.length ≤ 4096 ∧ SignedOnce descriptor := by
  have happend : (start ++ descriptor).length = start.length + descriptor.length := List.length_append
  have hmax : maxFooterDescriptorSize = 4096 := rfl
  unfold findFooterDescriptor
  dsimp only
  generalize hsize : min (start ++ descriptor).length maxFooterDescriptorSize = size
  rw [if_neg (by omega), Option.map_eq_some_iff]
  constructor
  · rintro ⟨ptr, hfind, hpos⟩
    obtain ⟨hle, -, hlast⟩ := findSignature_eq_some_iff.mp hfind
    have hptr : ptr = size - descriptor.length := by omega
    refine ⟨by omega, fun k hk hkle => ?_⟩
    have hnot := hlast (size - descriptor.length + k) (by omega) (by omega)
    rwa [drop_last (by omega) (by omega)] at hnot
  · rintro ⟨hle, honce⟩
    refine ⟨size - descriptor.length, findSignature_eq_some_iff.mpr ⟨by omega, ?_, fun j hj hle' => ?_⟩,
      by omega⟩
    · rw [← add_zero (size - descriptor.length), drop_last (by omega) (by omega), List.drop_zero, hsig]
    · obtain ⟨k, rfl⟩ := Nat.exists_eq_add_of_le (show size - descriptor.length ≤ j by omega)
      rw [drop_last (by omega) (by omega)]
      exact honce k (by omega) (by omega)

/-! ## What is read -/

variable {b : ArchiveBlock}

/-- A CRC is read back. -/
lemma peek_crc (fields : List UInt8) :
    peek 4 (leBytes 4 (calcCRC fields).toNat) = (calcCRC fields).toNat := by
  have hcrc : (calcCRC fields).toNat < 256 ^ 4 := (calcCRC fields).isLt
  unfold peek
  rw [List.take_of_length_le (length_leBytes 4 _).le, leValue_leBytes_of_lt hcrc]

/-- The CRC of a written descriptor is found at its end. -/
lemma openWithCRCAtEnd_written (fields : List UInt8) :
    openWithCRCAtEnd (fields ++ leBytes 4 (calcCRC fields).toNat) = some fields := by
  have hlen : (fields ++ leBytes 4 (calcCRC fields).toNat).length - 4 = fields.length := by
    rw [List.length_append, length_leBytes, Nat.add_sub_cancel]
  unfold openWithCRCAtEnd
  dsimp only
  rw [hlen, List.take_left, List.drop_left, peek_crc, if_pos rfl]

/-- The sizes are such that the unpacker accepts them. -/
def Sized (b : ArchiveBlock) : Prop :=
  0 < b.blOrigSize ∧ b.blOrigSize < 2 ^ 63 ∧ 0 < b.blCompSize ∧ b.blCompSize < 2 ^ 63

/-- Numbers that are written are not negative and less than 2^64. -/
lemma writable {x : Int} {w : List UInt8} (h : DArc.Archive.writeInteger x = some w) :
    0 ≤ x ∧ x < 2 ^ 64 := by
  by_contra hx
  exact absurd (h.symm.trans (DArc.Archive.writeInteger_eq_none.mpr hx)) (Option.some_ne_none _)

/-- The fields of a descriptor. -/
def localFields (b : ArchiveBlock) : LocalFields :=
  { sign := signature.toNat, type := b.blType.fromEnum
    compressor := toUTF8List (joinWith [plus] b.blCompressor), origsize := b.blOrigSize.toNat
    compsize := b.blCompSize.toNat, crc := b.blCRC.toNat }

/-- They are read from a written descriptor. -/
lemma readLocalFields_encodes (behind : List UInt8) {fields : List UInt8}
    (hnul : (0 : Chr) ∉ joinWith [plus] b.blCompressor) (h : writeDescriptor b = some fields) :
    Encodes (readLocalFields behind) fields (localFields b) := by
  unfold writeDescriptor at h
  obtain ⟨w₁, v₁, hw₁, h₁, rfl⟩ := joinAll_cons_eq_some h
  obtain ⟨w₂, v₂, hw₂, h₂, rfl⟩ := joinAll_cons_eq_some h₁
  obtain ⟨w₃, v₃, hw₃, h₃, rfl⟩ := joinAll_cons_eq_some h₂
  obtain ⟨w₄, v₄, hw₄, h₄, rfl⟩ := joinAll_cons_eq_some h₃
  obtain ⟨w₅, v₅, hw₅, h₅, rfl⟩ := joinAll_cons_eq_some h₄
  obtain ⟨w₆, v₆, hw₆, h₆, rfl⟩ := joinAll_cons_eq_some h₅
  obtain rfl := Option.some.inj h₆
  have hr₁ : Encodes (read4 behind) w₁ signature.toNat := Option.some.inj hw₁ ▸ read4_encodes signature
  have hr₂ : Encodes (readInteger behind) w₂ b.blType.fromEnum :=
    readInteger_encodes (x := (b.blType.fromEnum : Int)) hw₂
  have hr₃ : Encodes readChars w₃ (toUTF8List (joinWith [plus] b.blCompressor)) :=
    Option.some.inj hw₃ ▸ readChars_encodes hnul
  have hr₆ : Encodes (read4 behind) w₆ b.blCRC.toNat := Option.some.inj hw₆ ▸ read4_encodes b.blCRC
  intro rest
  rw [List.append_nil]
  simp only [List.append_assoc]
  refine Option.bind_eq_some_iff.mpr ⟨_, hr₁ _, ?_⟩
  refine Option.bind_eq_some_iff.mpr ⟨_, hr₂ _, ?_⟩
  refine Option.bind_eq_some_iff.mpr ⟨_, hr₃ _, ?_⟩
  refine Option.bind_eq_some_iff.mpr ⟨_, readInteger_encodes hw₄ _, ?_⟩
  refine Option.bind_eq_some_iff.mpr ⟨_, readInteger_encodes hw₅ _, ?_⟩
  exact Option.bind_eq_some_iff.mpr ⟨_, hr₆ _, rfl⟩

/-- What the unpacker makes of these fields. -/
lemma localFields_block {descrPos : ℕ} {x : BlockDescriptor} (ho : 0 ≤ b.blOrigSize ∧ b.blOrigSize < 2 ^ 64)
    (hc : 0 ≤ b.blCompSize ∧ b.blCompSize < 2 ^ 64) :
    (localFields b).block descrPos = some x ↔
      Sized b ∧ b.blCompSize ≤ descrPos ∧ x = asUnarc { b with blPos := descrPos - b.blCompSize } := by
  have htype : int32 (b.blType.fromEnum : ℕ) = b.blType.fromEnum := by
    cases b.blType <;> rfl
  unfold LocalFields.block localFields
  dsimp only
  rw [Option.ite_none_right_eq_some, int64_toNat_pos_iff ho, int64_toNat_pos_iff hc, htype]
  constructor
  · rintro ⟨⟨-, ⟨ho, ho'⟩, ⟨hc, hc'⟩, hle⟩, h⟩
    rw [int64_toNat hc.le hc'] at hle h
    rw [int64_toNat ho.le ho', Option.some_inj] at h
    exact ⟨⟨ho, ho', hc, hc'⟩, hle, h.symm⟩
  · rintro ⟨⟨ho, ho', hc, hc'⟩, hle, rfl⟩
    rw [int64_toNat hc.le hc', int64_toNat ho.le ho']
    exact ⟨⟨rfl, ⟨ho, ho'⟩, ⟨hc, hc'⟩, hle⟩, rfl⟩

/-- The sizes of a written descriptor are in the range of its format. -/
lemma sizes_of_write {fields : List UInt8} (h : writeDescriptor b = some fields) :
    (0 ≤ b.blOrigSize ∧ b.blOrigSize < 2 ^ 64) ∧ 0 ≤ b.blCompSize ∧ b.blCompSize < 2 ^ 64 := by
  obtain ⟨_, _, -, h₁, -⟩ := joinAll_cons_eq_some h
  obtain ⟨_, _, -, h₂, -⟩ := joinAll_cons_eq_some h₁
  obtain ⟨_, _, -, h₃, -⟩ := joinAll_cons_eq_some h₂
  obtain ⟨_, _, horig, h₄, -⟩ := joinAll_cons_eq_some h₃
  obtain ⟨_, _, hcomp, -, -⟩ := joinAll_cons_eq_some h₄
  exact ⟨writable horig, writable hcomp⟩

/-- What the unpacker reads from a written descriptor. -/
lemma localBlockDescriptor_eq_some_iff {behind : List UInt8} {x : BlockDescriptor}
    (hnul : (0 : Chr) ∉ joinWith [plus] b.blCompressor)
    (hwrite : archiveWriteBlockDescriptor b = some descriptor) (hlen : descriptor.length ≤ 4096) :
    localBlockDescriptor behind (start ++ descriptor) start.length = some x ↔
      Sized b ∧ b.blCompSize ≤ start.length ∧
        x = asUnarc { b with blPos := start.length - b.blCompSize } := by
  obtain ⟨fields, hfields, rfl⟩ := Option.map_eq_some_iff.mp hwrite
  have hbuf : ((start ++ (fields ++ leBytes 4 (calcCRC fields).toNat)).drop start.length).take
      maxFooterDescriptorSize = fields ++ leBytes 4 (calcCRC fields).toNat := by
    rw [List.drop_left]
    exact List.take_of_length_le hlen
  have hread (behind : List UInt8) : readLocalFields behind fields = some (localFields b, []) := by
    have hread := readLocalFields_encodes behind hnul hfields []
    rwa [List.append_nil] at hread
  unfold localBlockDescriptor
  dsimp only
  rw [hbuf, openWithCRCAtEnd_written, Option.bind_eq_bind, Option.bind_some, hread, Option.bind_eq_bind,
    Option.bind_some]
  exact localFields_block (sizes_of_write hfields).1 (sizes_of_write hfields).2

/-! ## What the archiver finds -/

variable {isEncryption : Str → Bool}

/-- The search stops at a descriptor behind which there is none. -/
lemma findFrom_eq_ok {base n k : ℕ} {buf : List UInt8} (err : ArchiveError) (hk : k < n)
    (hreads : Reads isEncryption base buf k b)
    (hsilent : ∀ j > k, j < n → Silent isEncryption base buf j) :
    findFrom isEncryption base buf n err = some (.ok b) := by
  have hsearched : Searched isEncryption base buf n (findFrom isEncryption base buf n err) :=
    findFrom_searched n err
  generalize findFrom isEncryption base buf n err = r at hsearched ⊢
  cases r with
  | none =>
    obtain ⟨k', hk', hloud, hnot, hlast⟩ := hsearched
    obtain hlt | rfl | hgt := lt_trichotomy k k'
    · exact absurd (hsilent k' hlt hk') hloud
    · exact absurd hreads (hnot b)
    · exact absurd (hlast k hgt hk) hreads.not_silent
  | some r =>
    cases r with
    | error err => exact absurd (hsearched k hk) hreads.not_silent
    | ok b' =>
      obtain ⟨k', hk', hreads', hlast⟩ := hsearched
      obtain hlt | rfl | hgt := lt_trichotomy k k'
      · exact absurd (hsilent k' hlt hk') hreads'.not_silent
      · rw [← hreads.2, ← hreads'.2]
      · exact absurd (hlast k hgt hk) hreads.not_silent

/-- A written descriptor is read. -/
lemma archiveRead_written (hplain : PlainCompressor b.blCompressor)
    (hwrite : archiveWriteBlockDescriptor b = some descriptor) (hsize : b.blCompSize ≤ start.length) :
    archiveReadBlockDescriptor isEncryption start.length descriptor =
      some (.ok (b.descriptor.block isEncryption start.length)) := by
  obtain ⟨fields, hfields, rfl⟩ := Option.map_eq_some_iff.mp hwrite
  have hread := writeDescriptor_encodes hplain hfields (leBytes 4 (calcCRC fields).toNat)
  have hlen : (fields ++ leBytes 4 (calcCRC fields).toNat).length - 4 = fields.length := by
    rw [List.length_append, length_leBytes, Nat.add_sub_cancel]
  have hblPos : (b.descriptor.block isEncryption start.length).blPos = start.length - b.blCompSize := rfl
  have hsign : b.descriptor.sign = signature := rfl
  unfold archiveReadBlockDescriptor
  dsimp only
  rw [hlen, List.take_left, List.drop_left, peek_crc, if_neg (not_not.mpr rfl), hread]
  dsimp only
  rw [hblPos, hsign, if_neg (by simpa using hsize)]

/-- A descriptor begins with its signature. -/
lemma signature_written (hwrite : archiveWriteBlockDescriptor b = some descriptor) :
    4 ≤ descriptor.length ∧ peek 4 descriptor = signature.toNat := by
  obtain ⟨fields, hfields, rfl⟩ := Option.map_eq_some_iff.mp hwrite
  obtain ⟨w, v, hw, -, rfl⟩ := joinAll_cons_eq_some hfields
  obtain rfl := Option.some.inj hw
  have hsig : signature.toNat < 256 ^ 4 := signature.isLt
  constructor
  · rw [List.append_assoc, List.length_append, length_leBytes]
    exact Nat.le_add_right _ _
  · unfold peek
    rw [List.append_assoc, List.take_left' (length_leBytes 4 _), leValue_leBytes_of_lt hsig]

/-- The archiver finds a written descriptor at the end of an archive when it is near enough and there is no
other signature behind its own. -/
lemma archiveFindFooter_written (hplain : PlainCompressor b.blCompressor)
    (hwrite : archiveWriteBlockDescriptor b = some descriptor) (hsize : b.blCompSize ≤ start.length)
    (hlen : descriptor.length ≤ 4096) (honce : SignedOnce descriptor) :
    archiveFindFooter isEncryption (start ++ descriptor) =
      some (.ok (b.descriptor.block isEncryption start.length)) := by
  obtain ⟨hfour, hsig⟩ := signature_written hwrite
  have happend : (start ++ descriptor).length = start.length + descriptor.length := List.length_append
  have hmax : scanMax = 4096 := rfl
  unfold archiveFindFooter archiveFindBlockDescriptor
  dsimp only
  generalize hscan : min scanMax (start ++ descriptor).length = size
  have htake : ((start ++ descriptor).drop ((start ++ descriptor).length - size)).take size =
      (start ++ descriptor).drop ((start ++ descriptor).length - size) := by
    refine List.take_of_length_le ?_
    rw [List.length_drop]
    omega
  have hplace : (start ++ descriptor).length - size + (size - descriptor.length) = start.length := by
    omega
  rw [htake]
  refine findFrom_eq_ok .signatureNotFound (show size - descriptor.length < _ by omega) ⟨?_, ?_⟩ ?_
  · rw [← add_zero (size - descriptor.length), drop_last (by omega) (by omega), List.drop_zero, hsig]
  · rw [hplace, ← add_zero (size - descriptor.length), drop_last (by omega) (by omega), List.drop_zero]
    exact archiveRead_written hplain hwrite hsize
  · intro j hj hjle
    obtain ⟨k, rfl⟩ := Nat.exists_eq_add_of_le (show size - descriptor.length ≤ j by omega)
    by_cases hin : k + 4 ≤ descriptor.length
    · intro hpeek
      rw [drop_last (by omega) (by omega)] at hpeek
      exact absurd hpeek (honce k (by omega) hin)
    · refine silent_of_short ?_
      rw [drop_last (by omega) (by omega), List.length_drop]
      omega

/-! ## Agreement -/

/-- **The two readers find the same footer if and only if** its descriptor has at most 4096 bytes, no other
signature in it, and positive sizes less than 2^63. -/
theorem sameFooter_iff (isEncryption : Str → Bool) (behind front data descriptor : List UInt8)
    (b : ArchiveBlock) (hplain : PlainCompressor b.blCompressor) (hsize : b.blCompSize = data.length)
    (hwrite : archiveWriteBlockDescriptor b = some descriptor) :
    SameFooter isEncryption behind (front ++ data ++ descriptor) (front ++ data).length ↔
      descriptor.length ≤ 4096 ∧ SignedOnce descriptor ∧ Sized b := by
  obtain ⟨hfour, hsig⟩ := signature_written hwrite
  have hle : b.blCompSize ≤ (front ++ data).length := by
    rw [List.length_append, hsize]
    omega
  constructor
  · rintro ⟨b', -, -, hunarc⟩
    obtain ⟨pos, hpos, hblock⟩ := Option.bind_eq_some_iff.mp hunarc
    obtain ⟨block, hblock, heq⟩ := Option.bind_eq_some_iff.mp hblock
    obtain ⟨rfl, rfl⟩ := Prod.mk.inj (Option.some.inj heq)
    obtain ⟨hlen, honce⟩ := (findFooterDescriptor_eq_some_iff hfour hsig).mp hpos
    exact ⟨hlen, honce,
      ((localBlockDescriptor_eq_some_iff hplain.nul_notMem hwrite hlen).mp hblock).1⟩
  · rintro ⟨hlen, honce, hsized⟩
    refine ⟨_, archiveFindFooter_written hplain hwrite hle hlen honce, sub_add_cancel _ _, ?_⟩
    refine Option.bind_eq_some_iff.mpr
      ⟨_, (findFooterDescriptor_eq_some_iff hfour hsig).mpr ⟨hlen, honce⟩, ?_⟩
    refine Option.bind_eq_some_iff.mpr ⟨_, ?_, rfl⟩
    exact (localBlockDescriptor_eq_some_iff hplain.nul_notMem hwrite hlen).mpr ⟨hsized, hle, rfl⟩

/-- A footer of one byte that begins at the beginning of a file, with this CRC. -/
def smallFooter (crc : BitVec (8 * 4)) : ArchiveBlock :=
  { blType := .footerBlock, blCompressor := [[0x73]], blPos := 0, blOrigSize := 1, blCompSize := 1,
    blCRC := crc, blFiles := 0, blIsEncrypted := false }

/-- Its compressor can be read back. -/
lemma smallFooter_plain (crc : BitVec (8 * 4)) : PlainCompressor (smallFooter crc).blCompressor := by
  refine ⟨List.cons_ne_nil _ _, fun m hm => ?_⟩
  obtain rfl := List.mem_singleton.mp hm
  decide

/-- The descriptor of a small footer. -/
def smallDescriptor : List UInt8 :=
  [0x41, 0x72, 0x43, 0x01, 0x08, 0x73, 0x00, 0x02, 0x02, 0x00, 0x00, 0x00, 0x00, 0x17, 0xC3, 0x79, 0xA9]

/-- This footer is found by both. -/
theorem sameFooter_small :
    SameFooter (fun _ => false) [] ([] ++ [0] ++ smallDescriptor) ([] ++ [0] : List UInt8).length := by
  have hwrite : archiveWriteBlockDescriptor (smallFooter 0) = some smallDescriptor := by decide +kernel
  refine (sameFooter_iff (fun _ => false) [] [] [0] smallDescriptor (smallFooter 0) (smallFooter_plain 0) rfl
    hwrite).mpr ⟨by decide, ?_, by decide, by decide, by decide, by decide⟩
  have hnot : ∀ k < smallDescriptor.length, 0 < k →
      peek 4 (smallDescriptor.drop k) ≠ signature.toNat := by decide +kernel
  exact fun k hk hle => hnot k (by omega) hk

/-- The descriptor of a small footer whose CRC is the signature. -/
def signedDescriptor : List UInt8 :=
  [0x41, 0x72, 0x43, 0x01, 0x08, 0x73, 0x00, 0x02, 0x02, 0x41, 0x72, 0x43, 0x01, 0x21, 0x6C, 0xF7, 0x71]

/-- **A footer whose CRC is the signature is not found by the unpacker**, which stops at this CRC. -/
theorem not_sameFooter :
    ¬∀ (isEncryption : Str → Bool) (behind front data descriptor : List UInt8) (b : ArchiveBlock),
      PlainCompressor b.blCompressor → b.blPos = front.length → b.blCompSize = data.length →
      archiveWriteBlockDescriptor b = some descriptor →
      SameFooter isEncryption behind (front ++ data ++ descriptor) (front ++ data).length := by
  intro h
  have hwrite : archiveWriteBlockDescriptor (smallFooter signature) = some signedDescriptor := by
    decide +kernel
  obtain ⟨b, -, -, hunarc⟩ := h (fun _ => false) [] [] [0] signedDescriptor (smallFooter signature)
    (smallFooter_plain signature) rfl rfl hwrite
  have hnone : unarcFooter [] ([] ++ [0] ++ signedDescriptor) = none := by decide +kernel
  exact absurd (hunarc.symm.trans hnone) (Option.some_ne_none _)

end DArc.Unarc
