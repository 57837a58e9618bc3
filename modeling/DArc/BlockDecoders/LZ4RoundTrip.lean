import DArc.BlockDecoders.LZ4
import DArc.Library.Spans

/-!
# LZ4 compression and decompression

`LZ4_METHOD::compress` packs the input in blocks of `BlockSize` bytes and stores those that do not become smaller
than a given percentage; a percentage of 0 or less stores only what the codec does not pack.  A packed block may be
larger than `BlockSize`, the size of the buffer that `LZ4_METHOD::decompress` reads it to.

### Outline

* `Lz4`, `Lz4.Correct`: the codec, and what is documented of it;
* `lz4CompressBlock`: the method;
* `PackedFits`: what is asked of a block of the input.

### Main results

* `lz4RoundTrips_iff`: decompression gives the input back, inside its buffers, exactly if all blocks fit;
* `packedFits_of_percent`: they do for percentages from 1 to 100.
-/

namespace DArc.BlockDecoders

open Guarded

/-- `LZ4_compressBound`. -/
def compressBound (inputSize : ℕ) : ℕ :=
  if 0x7E000000 < inputSize then 0 else inputSize + inputSize / 255 + 16

/-- The codec: `LZ4_compress_default` or `LZ4_compress_HC`, for the level, the input and the size of the output
buffer, with the size of the output and the output; and `LZ4_decompress_safe`. -/
structure Lz4 where
  compress : Int → List UInt8 → ℕ → Int × List UInt8
  decompress : Decompressor

/-- The codec keeps to the buffer and to `LZ4_compressBound`, and decompression inverts compression. -/
structure Lz4.Correct (lz4 : Lz4) : Prop where
  length_eq : ∀ level input capacity, 0 < (lz4.compress level input capacity).1 →
    (lz4.compress level input capacity).1 = (lz4.compress level input capacity).2.length
  le_capacity : ∀ level input capacity, (lz4.compress level input capacity).1 ≤ capacity
  le_bound : ∀ level input capacity, (lz4.compress level input capacity).1 ≤ compressBound input.length
  inverts : ∀ level input capacity (room : Int), 0 < (lz4.compress level input capacity).1 → input.length ≤ room →
    lz4.decompress.run (lz4.compress level input capacity).2 room = ((input.length : Int), input)

/-- The parameters of the method. -/
structure Lz4Method where
  BlockSize : ℕ
  lt : BlockSize < 2 ^ 32
  Compressor : Int
  MinCompression : Int

/-- Whether a block is stored.  The comparison of the source is one of a `double`, which decides as the exact one:
the two sides differ by a hundredth at least, or are far apart. -/
def Lz4Method.isStored (p : Lz4Method) (InSize OutSize : Int) : Prop :=
  OutSize ≤ 0 ∨ 0 < p.MinCompression ∧ InSize * p.MinCompression ≤ OutSize * 100

instance (p : Lz4Method) (InSize OutSize : Int) : Decidable (p.isStored InSize OutSize) :=
  inferInstanceAs (Decidable (_ ∨ _ ∧ _))

/-- The size of the output buffer of the method. -/
def Lz4Method.dstCap (p : Lz4Method) : ℕ := compressBound p.BlockSize

/-- The call of the codec, which touches the input and the room that it is passed. -/
def callCompress (p : Lz4Method) (lz4 : Lz4) (bytes : List UInt8) : Guarded Port (Int × List UInt8) := do
  access ⟨p.BlockSize, 0, bytes.length⟩
  access ⟨p.dstCap, 0, p.dstCap⟩
  return lz4.compress p.Compressor bytes p.dstCap

/-- The byte in front of the first block. -/
def writeVersion (codes : ℕ → Int) (FirstTime : Bool) : Guarded Port Unit :=
  if FirstTime then write codes 1 1 [1] else return ()

/-- A size and the bytes behind it. -/
def writeSized (codes : ℕ → Int) (capacity : ℕ) (word size : Int) (bytes : List UInt8) : Guarded Port Unit := do
  write codes 4 4 (leBytes 4 (uint32 word))
  write codes capacity size bytes

/-- One block in `LZ4_METHOD::compress`. -/
def lz4CompressBlock (p : Lz4Method) (lz4 : Lz4) (codes : ℕ → Int) (FirstTime : Bool) : Guarded Port Bool := do
  let bytes ← readLenOrEof p.BlockSize (int32 p.BlockSize)
  writeVersion codes FirstTime
  let out ← callCompress p lz4 bytes
  -- a negative size marks a stored block
  if p.isStored bytes.length out.1 then writeSized codes p.BlockSize (-bytes.length) bytes.length bytes
  else writeSized codes p.dstCap out.1 out.1 out.2
  return false

/-- Compression ends well, and decompression of what it has written ends well inside its buffers with the input
written. -/
def Lz4RoundTrips (p : Lz4Method) (lz4 : Lz4) (codes : ℕ → Int) (input : List UInt8) : Prop :=
  ∃ packed unpacked, Ends (lz4CompressBlock p lz4 codes) (lz4CompressBlock p lz4 codes true) ⟨input, 0, []⟩ 0 packed ∧
    Ends (lz4Block p.BlockSize lz4.decompress codes) (lz4Start p.BlockSize) ⟨packed.written, 0, []⟩ 0 unpacked ∧
    unpacked.written = input

/-- A block is stored, or what it is packed to fits into the buffer for reading it back. -/
def PackedFits (p : Lz4Method) (lz4 : Lz4) (bytes : List UInt8) : Prop :=
  p.isStored bytes.length (lz4.compress p.Compressor bytes p.dstCap).1 ∨
    (lz4.compress p.Compressor bytes p.dstCap).1 ≤ p.BlockSize

/-- All blocks of what is left of the input fit. -/
def AllFit (p : Lz4Method) (lz4 : Lz4) (stream : List UInt8) : Prop :=
  ∀ k, k * p.BlockSize < stream.length → PackedFits p lz4 (span stream (k * p.BlockSize) p.BlockSize)

variable {p : Lz4Method} {lz4 : Lz4} {codes : ℕ → Int} {stream : List UInt8}

/-- All blocks fit when the first one and those behind it do. -/
lemma allFit_iff (hne : stream ≠ []) :
    AllFit p lz4 stream ↔ PackedFits p lz4 (stream.take p.BlockSize) ∧ AllFit p lz4 (stream.drop p.BlockSize) := by
  have hlength : 0 < stream.length := List.length_pos_iff.mpr hne
  have hfirst : span stream (0 * p.BlockSize) p.BlockSize = stream.take p.BlockSize := by
    rw [Nat.zero_mul, span, List.drop_zero]
  have hnext (k : ℕ) : span stream ((k + 1) * p.BlockSize) p.BlockSize =
      span (stream.drop p.BlockSize) (k * p.BlockSize) p.BlockSize := by
    rw [span, span, List.drop_drop, Nat.succ_mul, Nat.add_comm]
  unfold AllFit
  constructor
  · intro h
    refine ⟨hfirst ▸ h 0 (by omega), fun k hk => ?_⟩
    rw [List.length_drop] at hk
    rw [← hnext]
    exact h (k + 1) (by rw [Nat.succ_mul]; omega)
  · rintro ⟨hzero, hrest⟩ k hk
    cases k with
    | zero => rwa [hfirst]
    | succ k =>
      rw [hnext]
      refine hrest k ?_
      rw [Nat.succ_mul] at hk
      rw [List.length_drop]
      omega

/-- Nothing is left, and so everything fits. -/
lemma allFit_nil : AllFit p lz4 [] := fun _ h => absurd h (Nat.not_lt_zero _)

/-! ## Compression -/

/-- What is written for a block: its size first, negative if it is stored. -/
def packed (p : Lz4Method) (lz4 : Lz4) (bytes : List UInt8) : List UInt8 :=
  let out := lz4.compress p.Compressor bytes p.dstCap
  if p.isStored bytes.length out.1 then leBytes 4 (uint32 (-bytes.length)) ++ bytes
  else leBytes 4 (uint32 out.1) ++ out.2

/-- How a size and the bytes behind it come out. -/
lemma total_writeSized (hcodes : ∀ n, 0 ≤ codes n) {capacity : ℕ} {word : Int} {bytes : List UInt8}
    {E : Int → Prop} {Q : Unit → Port → Prop} {port : Port} (hne : bytes ≠ []) :
    total (writeSized codes capacity word bytes.length bytes) E Q port ↔
      bytes.length ≤ capacity ∧
        Q () { port with writes := port.writes + 2, written := port.written ++ (leBytes 4 (uint32 word) ++ bytes) } := by
  have hlength : (bytes.length : Int) ≠ 0 := by
    have hpos := List.length_pos_iff.mpr hne
    omega
  have hfour : (leBytes 4 (uint32 word)).take (4 : Int).toNat = leBytes 4 (uint32 word) :=
    List.take_of_length_le (length_leBytes 4 _).le
  unfold writeSized
  rw [total_bind, total_write (by decide) hcodes]
  simp only [total_write (Int.natCast_nonneg capacity) hcodes, Port.wrote, if_neg hlength, hfour, Int.toNat_natCast,
    List.take_length]
  simp

/-- How a block of compression comes out. -/
lemma total_lz4CompressBlock (hlz4 : lz4.Correct) (hcodes : ∀ n, 0 ≤ codes n) (hpos : 0 < p.BlockSize)
    (hlt : p.BlockSize < 2 ^ 31) {FirstTime : Bool} {E : Int → Prop} {Q : Bool → Port → Prop} {port : Port}
    (hne : port.stream ≠ []) :
    total (lz4CompressBlock p lz4 codes FirstTime) E Q port ↔
      Q false ⟨port.stream.drop p.BlockSize, port.writes + (if FirstTime then 3 else 2),
        port.written ++ (if FirstTime then [1] else []) ++ packed p lz4 (port.stream.take p.BlockSize)⟩ := by
  have hsize : int32 p.BlockSize = p.BlockSize := int32_of_mem (by omega) (by exact_mod_cast hlt)
  have hbytes : port.stream.take p.BlockSize ≠ [] := by
    rw [Ne, List.take_eq_nil_iff]
    exact not_or.mpr ⟨hpos.ne', hne⟩
  have hroom : (port.stream.take p.BlockSize).length ≤ p.BlockSize := List.length_take_le _ _
  have hversion : ∀ {Q : Unit → Port → Prop} {port : Port}, total (writeVersion codes FirstTime) E Q port ↔
      Q () ⟨port.stream, port.writes + (if FirstTime then 1 else 0),
        port.written ++ if FirstTime then [1] else []⟩ := by
    intro Q port
    unfold writeVersion
    cases FirstTime with
    | false => simp
    | true =>
      rw [if_pos rfl, total_write (by decide) hcodes]
      simp [Port.wrote]
  unfold lz4CompressBlock callCompress
  rw [total_bind, total_readLenOrEof, hsize, Int.toNat_natCast]
  simp only [hbytes, false_imp_iff, true_and, not_false_eq_true, true_imp_iff, ne_eq, total_bind, hversion,
    total_access, total_pure, total_ite, Int.natCast_nonneg, le_refl]
  unfold Port.skip packed
  dsimp only
  generalize port.stream.take p.BlockSize = bytes at hbytes hroom ⊢
  have hcapacity := hlz4.le_capacity p.Compressor bytes p.dstCap
  have hlength := hlz4.length_eq p.Compressor bytes p.dstCap
  generalize lz4.compress p.Compressor bytes p.dstCap = out at hcapacity hlength ⊢
  have hin : Access.Fits ⟨p.BlockSize, 0, bytes.length⟩ := Access.fits_front (by omega) (by omega)
  have hout : Access.Fits ⟨p.dstCap, 0, p.dstCap⟩ := Access.fits_front (by omega) le_rfl
  simp only [hin, hout, true_and]
  by_cases hstored : p.isStored bytes.length out.1
  · simp only [hstored, true_imp_iff, not_true_eq_false, false_imp_iff, and_true, if_true,
      total_writeSized hcodes hbytes, hroom, true_and, List.append_assoc]
    cases FirstTime <;> rfl
  · have hpacked : 0 < out.1 := by
      unfold Lz4Method.isStored at hstored
      omega
    obtain ⟨size, bytes'⟩ := out
    obtain rfl : size = bytes'.length := hlength hpacked
    have hbytes' : bytes' ≠ [] := by
      rintro rfl
      exact absurd hpacked (lt_irrefl 0)
    have hroom' : bytes'.length ≤ p.dstCap := Int.ofNat_le.mp hcapacity
    simp only [hstored, not_false_eq_true, true_imp_iff, false_imp_iff, true_and, if_false,
      total_writeSized hcodes hbytes', hroom', List.append_assoc]
    cases FirstTime <;> rfl

/-! ## Decompression -/

/-- What the codec makes of a block is an `int`. -/
lemma compressBound_lt (inputSize : ℕ) : compressBound inputSize < 2 ^ 31 := by
  unfold compressBound
  split_ifs with h
  · norm_num
  · omega

/-- How a block of decompression comes out: the block that was packed. -/
lemma total_lz4Block (hlz4 : lz4.Correct) (hcodes : ∀ n, 0 ≤ codes n) (hlt : p.BlockSize < 2 ^ 31)
    {bytes rest out : List UInt8} {w : ℕ} (hne : bytes ≠ []) (hle : bytes.length ≤ p.BlockSize) {E : Int → Prop}
    {Q : Unit → Port → Prop} :
    total (lz4Block p.BlockSize lz4.decompress codes ()) E Q ⟨packed p lz4 bytes ++ rest, w, out⟩ ↔
      PackedFits p lz4 bytes ∧ Q () ⟨rest, w + 1, out ++ bytes⟩ := by
  have hpos : 0 < bytes.length := List.length_pos_iff.mpr hne
  have hsize : int32 p.BlockSize = p.BlockSize := int32_of_mem (by omega) (by exact_mod_cast hlt)
  have hbound := hlz4.le_bound p.Compressor bytes p.dstCap
  have hbound_lt := compressBound_lt bytes.length
  have hlength := hlz4.length_eq p.Compressor bytes p.dstCap
  have hinverts := hlz4.inverts p.Compressor bytes p.dstCap p.BlockSize
  unfold packed PackedFits
  dsimp only
  generalize lz4.compress p.Compressor bytes p.dstCap = c at hbound hlength hinverts ⊢
  unfold lz4Block
  rw [total_bind]
  by_cases hstored : p.isStored bytes.length c.1
  · -- a stored block is copied
    have hneg : (-(bytes.length : Int)) < 0 := by omega
    have hsame : int32 (- -(bytes.length : Int)) = bytes.length := by
      rw [neg_neg]
      exact int32_of_mem (by omega) (by omega)
    rw [if_pos hstored, List.append_assoc, total_read4OrEof_word (by omega) (by omega), if_pos hneg]
    dsimp only
    rw [hsame, total_bind, total_readFull_bytes (by omega), total_write (Int.natCast_nonneg _) hcodes,
      Port.wrote_bytes hne]
    simp only [hstored, true_or, true_and]
    exact ⟨fun h => h.2.2, fun hQ => ⟨by omega, by omega, hQ⟩⟩
  · -- a packed block is read and decompressed
    have hpacked : 0 < c.1 := by
      unfold Lz4Method.isStored at hstored
      omega
    obtain ⟨size, packed⟩ := c
    obtain rfl : size = packed.length := hlength hpacked
    have hneg : ¬(packed.length : Int) < 0 := by omega
    have hrun : lz4.decompress.run packed p.BlockSize = ((bytes.length : Int), bytes) :=
      hinverts hpacked (by omega)
    have hwritten : ¬((bytes.length : Int), bytes).1 < 0 := by
      dsimp only
      omega
    rw [if_neg hstored, List.append_assoc, total_read4OrEof_word (by omega) (by omega), if_neg hneg, total_bind]
    by_cases hfits : packed.length ≤ p.BlockSize
    · have hin : Access.Fits ⟨p.BlockSize, 0, packed.length⟩ := Access.fits_front (by omega) (by omega)
      have hroom : Access.Fits ⟨p.BlockSize, 0, max 0 (p.BlockSize : Int)⟩ :=
        Access.fits_front (le_max_left _ _) (max_le (by omega) le_rfl)
      rw [total_readFull_bytes (by omega), callLz4]
      simp only [total_bind, total_access, hin, hroom, true_and, total_pure, hsize, hrun, total_ite, hwritten,
        false_imp_iff, not_false_eq_true, true_imp_iff, total_write (Int.natCast_nonneg _) hcodes,
        Port.wrote_bytes hne, hfits, Nat.cast_le, or_true]
      exact ⟨fun h => h.2.2, fun hQ => ⟨by omega, hle, hQ⟩⟩
    · -- the block does not fit into the buffer
      have hlarge : ¬(packed.length : Int) ≤ p.BlockSize := by omega
      rw [total_readFull le_rfl (Int.natCast_nonneg _), zero_add]
      exact iff_of_false (fun h => hlarge h.2.1) fun h => h.1.elim hstored hlarge

/-! ## Round trips -/

/-- **What is written for the rest of the input** is decompressed to it exactly if all its blocks fit. -/
lemma lz4_blocks (hlz4 : lz4.Correct) (hcodes : ∀ n, 0 ≤ codes n) (hpos : 0 < p.BlockSize)
    (hlt : p.BlockSize < 2 ^ 31) (stream : List UInt8) :
    ∃ body, (∀ w written, ∃ t, Ends (lz4CompressBlock p lz4 codes) (lz4CompressBlock p lz4 codes false)
        ⟨stream, w, written⟩ 0 t ∧ t.written = written ++ body) ∧
      ∀ w out, (∃ t, Ends (lz4Block p.BlockSize lz4.decompress codes) (lz4Block p.BlockSize lz4.decompress codes ())
        ⟨body, w, out⟩ 0 t ∧ t.written = out ++ stream) ↔ AllFit p lz4 stream := by
  induction hn : stream.length using Nat.strong_induction_on generalizing stream with
  | _ n ih =>
    subst hn
    by_cases hne : stream = []
    · subst hne
      refine ⟨[], fun w written => ⟨⟨[], w, written⟩, ?_, (List.append_nil _).symm⟩, fun w out => ?_⟩
      · have hsize : int32 p.BlockSize = p.BlockSize := int32_of_mem (by omega) (by exact_mod_cast hlt)
        rw [ends_iff, lz4CompressBlock, total_bind, total_readLenOrEof, hsize]
        exact ⟨by omega, le_rfl, fun _ => ⟨rfl, rfl⟩, fun h => absurd List.take_nil h⟩
      · refine iff_of_true ⟨⟨[], w, out⟩, ?_, (List.append_nil _).symm⟩ allFit_nil
        rw [ends_iff, lz4Block, total_bind, total_read4OrEof]
        exact ⟨fun h => absurd h (Nat.not_succ_le_zero 3), fun _ => ⟨rfl, rfl⟩, fun h => absurd rfl h⟩
    · have hbytes : stream.take p.BlockSize ≠ [] := by
        rw [Ne, List.take_eq_nil_iff]
        exact not_or.mpr ⟨hpos.ne', hne⟩
      have hshorter : (stream.drop p.BlockSize).length < stream.length := by
        have hlength := List.length_pos_iff.mpr hne
        rw [List.length_drop]
        omega
      obtain ⟨body, hcompress, hdecompress⟩ := ih _ hshorter (stream.drop p.BlockSize) rfl
      refine ⟨packed p lz4 (stream.take p.BlockSize) ++ body, fun w written => ?_, fun w out => ?_⟩
      · obtain ⟨t, ht, hwritten⟩ := hcompress (w + 2) (written ++ packed p lz4 (stream.take p.BlockSize))
        refine ⟨t, ?_, by rw [hwritten, List.append_assoc]⟩
        rw [ends_iff, total_lz4CompressBlock hlz4 hcodes hpos hlt hne, if_neg Bool.false_ne_true,
          if_neg Bool.false_ne_true, List.append_nil]
        exact ht
      · have hrest := hdecompress (w + 1) (out ++ stream.take p.BlockSize)
        rw [allFit_iff hne, ← hrest]
        simp only [List.append_assoc, List.take_append_drop]
        constructor
        · rintro ⟨t, ht, hwritten⟩
          rw [ends_iff, total_lz4Block hlz4 hcodes hlt hbytes (List.length_take_le _ _)] at ht
          exact ⟨ht.1, t, ht.2, hwritten⟩
        · rintro ⟨hfits, t, ht, hwritten⟩
          refine ⟨t, ?_, hwritten⟩
          rw [ends_iff, total_lz4Block hlz4 hcodes hlt hbytes (List.length_take_le _ _)]
          exact ⟨hfits, ht⟩

/-- The first block has a version byte in front. -/
lemma ends_first (hlz4 : lz4.Correct) (hcodes : ∀ n, 0 ≤ codes n) (hpos : 0 < p.BlockSize)
    (hlt : p.BlockSize < 2 ^ 31) (hne : stream ≠ []) {t : Port} :
    Ends (lz4CompressBlock p lz4 codes) (lz4CompressBlock p lz4 codes true) ⟨stream, 0, []⟩ 0 t ↔
      Ends (lz4CompressBlock p lz4 codes) (lz4CompressBlock p lz4 codes false) ⟨stream, 1, [1]⟩ 0 t := by
  have hfirst : (⟨stream, 0, []⟩ : Port).stream ≠ [] := hne
  have hlater : (⟨stream, 1, [1]⟩ : Port).stream ≠ [] := hne
  rw [ends_iff, ends_iff, total_lz4CompressBlock hlz4 hcodes hpos hlt hfirst,
    total_lz4CompressBlock hlz4 hcodes hpos hlt hlater]
  rfl

/-- With a size of the buffers that is positive and an `int`, only the blocks matter. -/
lemma lz4RoundTrips_iff_allFit (hlz4 : lz4.Correct) (hcodes : ∀ n, 0 ≤ codes n) (hpos : 0 < p.BlockSize)
    (hlt : p.BlockSize < 2 ^ 31) (input : List UInt8) : Lz4RoundTrips p lz4 codes input ↔ AllFit p lz4 input := by
  obtain ⟨body, hcompress, hdecompress⟩ := lz4_blocks hlz4 hcodes hpos hlt input
  by_cases hne : input = []
  · subst hne
    refine iff_of_true ⟨⟨[], 0, []⟩, ⟨[], 0, []⟩, ?_, ?_, rfl⟩ allFit_nil
    · have hsize : int32 p.BlockSize = p.BlockSize := int32_of_mem (by omega) (by exact_mod_cast hlt)
      rw [ends_iff, lz4CompressBlock, total_bind, total_readLenOrEof, hsize]
      exact ⟨by omega, le_rfl, fun _ => ⟨rfl, rfl⟩, fun h => absurd List.take_nil h⟩
    · rw [ends_iff, lz4Start, total_bind, total_readLenOrEof]
      exact ⟨by decide, by omega, fun _ => ⟨rfl, rfl⟩, fun h => absurd List.take_nil h⟩
  -- the version byte and the blocks behind it
  obtain ⟨t, ht, hwritten⟩ := hcompress 1 [1]
  have hpacked := (ends_first hlz4 hcodes hpos hlt hne).mpr ht
  have hstart (t' : Port) : Ends (lz4Block p.BlockSize lz4.decompress codes) (lz4Start p.BlockSize)
      ⟨t.written, 0, []⟩ 0 t' ↔ Ends (lz4Block p.BlockSize lz4.decompress codes)
        (lz4Block p.BlockSize lz4.decompress codes ()) ⟨body, 0, []⟩ 0 t' := by
    rw [hwritten, ends_iff, lz4Start, total_bind, total_readLenOrEof]
    have hone : ([1] ++ body).take (1 : Int).toNat = [1] := rfl
    simp only [hone, Port.skip]
    simp
    omega
  rw [← hdecompress 0 []]
  constructor
  · rintro ⟨t₁, t', ht₁, ht', hinput⟩
    obtain ⟨-, rfl⟩ := hpacked.unique ht₁
    exact ⟨t', (hstart t').mp ht', hinput⟩
  · rintro ⟨t', ht', hinput⟩
    exact ⟨t, t', hpacked, (hstart t').mpr ht', hinput⟩

/-- **LZ4 decompression of what compression writes** stays inside its buffers and gives the input back exactly if
the size of the buffers is positive and an `int`, and every block of the input is stored or packed to `BlockSize`
bytes at most. -/
theorem lz4RoundTrips_iff (p : Lz4Method) (lz4 : Lz4) (hlz4 : lz4.Correct) (codes : ℕ → Int)
    (hcodes : ∀ n, 0 ≤ codes n) (input : List UInt8) :
    Lz4RoundTrips p lz4 codes input ↔ 0 < p.BlockSize ∧ p.BlockSize < 2 ^ 31 ∧
      ∀ k, k * p.BlockSize < input.length → PackedFits p lz4 (span input (k * p.BlockSize) p.BlockSize) := by
  by_cases hpos : 0 < p.BlockSize
  swap
  · -- there is no room for the version byte
    refine iff_of_false ?_ fun h => hpos h.1
    rintro ⟨_, _, -, hstart, -⟩
    rw [ends_iff, lz4Start, total_bind, total_readLenOrEof] at hstart
    have hone := hstart.2.1
    omega
  by_cases hlt : p.BlockSize < 2 ^ 31
  swap
  · -- the size that is read is negative
    refine iff_of_false ?_ fun h => hlt h.2.1
    rintro ⟨_, _, hfirst, -, -⟩
    rw [ends_iff, lz4CompressBlock, total_bind, total_readLenOrEof] at hfirst
    have hnonneg := hfirst.1
    have hbound := p.lt
    rw [int32_of_ge (by omega) (by omega)] at hnonneg
    omega
  rw [lz4RoundTrips_iff_allFit hlz4 hcodes hpos hlt]
  exact ⟨fun h => ⟨hpos, hlt, h⟩, fun h => h.2.2⟩

/-- The blocks fit for percentages from 1 to 100. -/
lemma packedFits_of_percent (h₁ : 1 ≤ p.MinCompression) (h₂ : p.MinCompression ≤ 100) {bytes : List UInt8}
    (hle : bytes.length ≤ p.BlockSize) : PackedFits p lz4 bytes := by
  unfold PackedFits Lz4Method.isStored
  generalize (lz4.compress p.Compressor bytes p.dstCap).1 = size
  have hmul : (bytes.length : Int) * p.MinCompression ≤ bytes.length * 100 :=
    mul_le_mul_of_nonneg_left h₂ (Int.natCast_nonneg _)
  by_cases hsize : size ≤ p.BlockSize
  · exact .inr hsize
  · exact .inl (.inr ⟨by omega, by omega⟩)

/-! ## A codec for short inputs -/

/-- What LZ4 makes of inputs below 13 bytes: literals behind a byte with their number. -/
def literals : Lz4 where
  compress _ input capacity :=
    if input.length < 13 ∧ input.length + 1 ≤ capacity then
      (input.length + 1, UInt8.ofNat (16 * input.length) :: input)
    else (0, [])
  decompress :=
    { run := fun input room =>
        if input.length ≤ 13 ∧ input.length ≤ room + 1 ∧ input.head? = some (UInt8.ofNat (16 * (input.length - 1))) then
          ((input.length : Int) - 1, input.tail)
        else (-1, [])
      le := by
        intro input room h
        by_cases hfits : input.length ≤ 13 ∧ input.length ≤ room + 1 ∧
            input.head? = some (UInt8.ofNat (16 * (input.length - 1)))
        · rw [if_pos hfits]
          dsimp only
          omega
        · rw [if_neg hfits] at h
          exact absurd h (by decide) }

/-- The codec is correct. -/
lemma literals_correct : literals.Correct where
  length_eq := by
    intro level input capacity hpos
    unfold literals at hpos ⊢
    dsimp only at hpos ⊢
    split_ifs at hpos ⊢ with hfits
    · rw [List.length_cons]
      push_cast
      rfl
    · exact absurd hpos (by decide)
  le_capacity := by
    intro level input capacity
    unfold literals
    dsimp only
    split_ifs with hfits
    · dsimp only
      omega
    · exact Int.natCast_nonneg _
  le_bound := by
    intro level input capacity
    unfold literals
    dsimp only
    split_ifs with hfits
    · unfold compressBound
      dsimp only
      rw [if_neg (by omega)]
      omega
    · exact Int.natCast_nonneg _
  inverts := by
    intro level input capacity room hpos hroom
    unfold literals at hpos ⊢
    dsimp only at hpos ⊢
    by_cases hfits : input.length < 13 ∧ input.length + 1 ≤ capacity
    · have hlength : (UInt8.ofNat (16 * input.length) :: input).length = input.length + 1 := List.length_cons
      rw [if_pos hfits]
      dsimp only
      rw [hlength, if_pos ⟨by omega, by push_cast; omega, by rw [Nat.add_sub_cancel]; rfl⟩, List.tail_cons]
      push_cast
      rw [add_sub_cancel_right]
    · rw [if_neg hfits] at hpos
      exact absurd hpos (by decide)

/-- One byte, with the default parameters. -/
theorem lz4RoundTrips_iff_default : Lz4RoundTrips ⟨mb, by decide, 0, 100⟩ literals (fun _ => 0) [97] := by
  refine (lz4RoundTrips_iff _ literals literals_correct _ (fun _ => le_rfl) [97]).mpr ⟨by decide, by decide, ?_⟩
  intro k _
  exact packedFits_of_percent (by decide) (by decide) (length_span_le _ _ _)

/-- One byte in a block of one byte, when nothing is stored: the packed block has two bytes. -/
theorem not_lz4RoundTrips : ¬∀ (p : Lz4Method) (lz4 : Lz4), lz4.Correct → ∀ codes : ℕ → Int,
    (∀ n, 0 ≤ codes n) → ∀ input : List UInt8, Lz4RoundTrips p lz4 codes input := by
  intro hall
  have htrips := hall ⟨1, by decide, 0, 0⟩ literals literals_correct (fun _ => 0) (fun _ => le_rfl) [97]
  rw [lz4RoundTrips_iff_allFit literals_correct (fun _ => le_rfl) (by decide) (by decide)] at htrips
  have hfits : PackedFits ⟨1, by decide, 0, 0⟩ literals [97] := htrips 0 (by decide)
  revert hfits
  unfold PackedFits
  decide

end DArc.BlockDecoders
