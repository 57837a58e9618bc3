import DArc.MM.Detector
import DArc.MM.Samples

/-!
# The multimedia filter and its inverse

`mmCompress` models `mm_compress` with `reorder = 0`: it reads a megabyte, selects the layout of the
samples, writes a header with the layout, the bytes before the first sample and a few zeros for
alignment, and then the differences of the samples, the first block from the megabyte read already,
the others in chunks of whole samples of at most 64 kilobytes.  `mmDecompress` models
`mm_decompress`.  Reads return what they are asked for, except at the end of the data.

Both functions return `none` where the C code does not return or leaves its buffers: a header search
that does not end, a negative offset or sample size, filtering over a `base` that could not be
allocated, a rest that does not fit the chunks.

### Outline

* `mmCompress`, `mmDecompress`;
* `Layout.Fits`: the layout survives the narrowing of its fields to bytes, or data without samples
  have no header to lose;
* one lemma for each kind of layout, and for what the other layouts do.

### Main results

* `mmRoundTrip`: the round trip for nonempty input with a layout that fits, and its converse up to
  layouts that are narrowed;
* `not_mmRoundTrip_silent`: a WAV file with 0 bits per sample, and the empty input.
-/

namespace DArc.MM

/-- `BUFFER_SIZE`. -/
abbrev bufferSize : ℕ := 64 * kb

/-! ## The compressor -/

/-- An `int` stored in a byte. -/
def lowByte (x : Int) : UInt8 := UInt8.ofNat (uint32 x)

/-- `calloc` of the previous values returns memory: the sizes are not negative and their product
does not overflow. -/
def Layout.BaseReady (L : Layout) : Prop :=
  0 < L.numChan ∧ 0 ≤ L.byteSize ∧
    L.numChan * (if L.byteSize = 3 then 4 else L.byteSize) < 2 ^ 32

instance (L : Layout) : Decidable L.BaseReady :=
  inferInstanceAs (Decidable (_ ∧ _ ∧ _))

/-- Bytes that align the output to samples of `size` bytes. -/
def padding (offset size : ℕ) : ℕ := roundUp (3 + 4 + offset) size - (3 + 4 + offset)

/-- The header of the packed data. -/
def header (L : Layout) (offset : ℕ) (buf : List UInt8) : List UInt8 :=
  if L.sampleSize = 0 then [0]
  else
    [1, lowByte L.numChan, lowByte L.wordSize] ++ put32 offset ++ buf.take offset
      ++ List.replicate (padding offset L.sampleSize.toNat) 0

/-- `mm_compress` from the selected layout on: `buf` is the megabyte read already, `unread` the rest
of the input. -/
def pack (L : Layout) (buf unread : List UInt8) : Option Outcome :=
  if L.offset < 0 ∨ L.sampleSize < 0 then none
  else
    let offset := min L.offset.toNat buf.length
    let size := L.sampleSize.toNat
    let bytes := roundDown (buf.length - offset) size
    let chunk := if size > 1 then roundDown bufferSize size else bufferSize
    let rest := buf.drop (offset + bytes)
    if (Diffed L.byteSize ∨ 0 < padding offset size) ∧ ¬ L.BaseReady ∨ chunk < rest.length then none
    else
      let filter := diffBy L.byteSize L.numChan.toNat
      let (first, base) := filter (List.replicate L.numChan.toNat 0) ((buf.drop offset).take bytes)
      some ⟨.ok, header L offset buf ++ first ++ chunkLoop chunk filter base rest unread⟩

/-- `mm_compress`. -/
def mmCompress (fuel : ℕ) (P : Params) (pick : Pick) (input : List UInt8) : Option Outcome :=
  if input = [] then some ⟨.ok, []⟩
  else (select fuel P pick (input.take mb)).bind fun L => pack L (input.take mb) (input.drop mb)

/-! ## The decompressor -/

/-- The fields of the header: channels, bits of a word, offset. -/
structure Fields where
  numChan : ℕ
  wordSize : ℕ
  offset : Int

/-- Bytes per word. -/
def Fields.byteSize (F : Fields) : ℕ := (F.wordSize + 7) / 8

/-- Bytes per sample. -/
def Fields.sampleSize (F : Fields) : ℕ := F.numChan * F.byteSize

/-- Read the fields of the header. -/
def readFields (stream : List UInt8) : Option (Fields × List UInt8) := do
  let (numChan, stream) ← takeExact 1 stream
  let (wordSize, stream) ← takeExact 1 stream
  let (offset, stream) ← takeExact 4 stream
  return (⟨leValue numChan, leValue wordSize, int32 (leValue offset)⟩, stream)

/-- `mm_decompress` behind the first bytes: skip the alignment and add the differences up. -/
def unpackSamples (F : Fields) (written stream : List UInt8) : Option Outcome :=
  match takeExact (padding F.offset.toNat F.sampleSize) stream with
  | none => some ⟨.io, written⟩
  | some (_, data) =>
    -- with samples of no channels the filters never end
    if Diffed F.byteSize ∧ F.numChan = 0 ∧ data ≠ [] then none
    else
      some ⟨.ok, written ++ chunkLoop (roundDown bufferSize F.sampleSize)
        (undiffBy F.byteSize F.numChan) (List.replicate F.numChan 0) [] data⟩

/-- `mm_decompress`. -/
def mmDecompress (stream : List UInt8) : Option Outcome :=
  match stream with
  | [] => some ⟨.io, []⟩
  | flags :: stream =>
    if flags = 0 then
      some ⟨.ok, chunkLoop bufferSize (fun (s : Unit) block => (block, s)) () [] stream⟩
    else if flags ≠ 1 then some ⟨.badCompressedData, []⟩
    else
      match readFields stream with
      | none => some ⟨.io, []⟩
      | some (F, stream) =>
        if F.offset < 0 then none
        else
          match takeExact F.offset.toNat stream with
          | none => some ⟨.io, []⟩
          | some (first, stream) => unpackSamples F first stream

/-- **MM round trip**: the compressor returns success, and the decompressor of its output returns
success and the input. -/
def MmRoundTrips (P : Params) (pick : Pick) (input : List UInt8) : Prop :=
  ∃ packed, Converges (fun fuel => mmCompress fuel P pick input) ⟨.ok, packed⟩ ∧
    mmDecompress packed = some ⟨.ok, input⟩

/-! ## Layouts that fit -/

/-- The samples have a size and their layout fits the bytes of the header, or there are no samples
and no bytes before them. -/
def Layout.Fits (L : Layout) : Prop :=
  0 ≤ L.offset ∧
    if L.sampleSize = 0 then L.offset = 0 ∧ ¬ Diffed L.byteSize
    else 1 ≤ L.numChan ∧ L.numChan ≤ 255 ∧ 1 ≤ L.wordSize ∧ L.wordSize ≤ 255

/-- The samples have a size, but a field of their layout does not fit its byte in the header. -/
def Layout.Narrowed (L : Layout) : Prop :=
  L.sampleSize ≠ 0 ∧ ¬ (1 ≤ L.numChan ∧ L.numChan ≤ 255 ∧ 1 ≤ L.wordSize ∧ L.wordSize ≤ 255)

/-- The layout that is selected for an input. -/
def Selects (P : Params) (pick : Pick) (input : List UInt8) (L : Layout) : Prop :=
  Converges (fun fuel => select fuel P pick (input.take mb)) L

/-! ## Rounding to samples -/

/-- Rounding down gives a multiple. -/
lemma dvd_roundDown {a b : ℕ} (h : 0 < b) : b ∣ roundDown a b := by
  unfold roundDown
  split
  · exact Dvd.intro_left _ rfl
  · obtain rfl : b = 1 := by omega
    exact one_dvd _

/-- Rounding down does not increase. -/
lemma roundDown_le (a b : ℕ) : roundDown a b ≤ a := by
  unfold roundDown
  split
  · exact Nat.div_mul_le_self a b
  · exact le_rfl

/-- Rounding down loses less than a multiple. -/
lemma sub_roundDown_lt {a b : ℕ} (h : 0 < b) : a - roundDown a b < b := by
  unfold roundDown
  split
  · have hmod := Nat.mod_lt a h
    have hdiv := Nat.div_add_mod' a b
    omega
  · omega

/-- Rounding down keeps at least one multiple. -/
lemma le_roundDown {a b : ℕ} (h : b ≤ a) : b ≤ roundDown a b := by
  unfold roundDown
  split
  · have hpos : 1 ≤ a / b := (Nat.one_le_div_iff (by omega)).mpr h
    exact Nat.le_mul_of_pos_left b hpos
  · exact h

/-! ## Data without samples -/

/-- A copy in chunks is a copy. -/
lemma chunkLoop_copy {σ : Type} (s : σ) (rest xs : List UInt8) (h : rest.length ≤ bufferSize) :
    chunkLoop bufferSize (fun (s : σ) (block : List UInt8) => (block, s)) s rest xs = rest ++ xs := by
  have hcopy : Chunkable 1 fun (s : σ) (block : List UInt8) => (block, s) := copy_chunkable
  rw [hcopy.chunkLoop (one_dvd _) (by norm_num) s rest xs h]

/-- Without samples the data behind the offset are stored. -/
lemma pack_stored {L : Layout} (hoff : 0 ≤ L.offset) (hsize : L.sampleSize = 0)
    (hcopy : ¬ Diffed L.byteSize) (buf unread : List UInt8) :
    pack L buf unread = some ⟨.ok, 0 :: (buf.drop (min L.offset.toNat buf.length) ++ unread)⟩ := by
  have hd := (diffBy_of_not_diffed hcopy L.numChan.toNat).1
  set offset := min L.offset.toNat buf.length with hoffset
  have hbytes : roundDown (buf.length - offset) 0 = buf.length - offset := rfl
  have hpad : padding offset 0 = 0 := Nat.sub_self _
  have hrest : buf.drop (offset + (buf.length - offset)) = [] :=
    List.drop_eq_nil_of_le (by omega)
  have hfirst : (buf.drop offset).take (buf.length - offset) = buf.drop offset :=
    List.take_of_length_le (by rw [List.length_drop])
  unfold pack header
  simp only [hsize, hd, Int.toNat_zero, ← hoffset, hbytes, hpad, hrest, hfirst]
  rw [if_neg (by omega), if_neg (by simp [hcopy]), if_pos trivial, if_neg (by norm_num),
    chunkLoop_copy _ _ _ (by simp)]
  simp

/-! ## Samples -/

/-- What the fields of a layout are when they fit the header. -/
lemma Layout.Fits.fields {L : Layout} (h : L.Fits) (hsize : L.sampleSize ≠ 0) :
    ∃ n m : ℕ, L.numChan = n ∧ L.wordSize = m ∧ n < 256 ∧ m < 256 ∧
      L.byteSize = ((m + 7) / 8 : ℕ) ∧ L.sampleSize = (n * ((m + 7) / 8) : ℕ) ∧
      0 < n * ((m + 7) / 8) ∧ n * ((m + 7) / 8) ≤ bufferSize := by
  obtain ⟨-, hfit⟩ := h
  rw [if_neg hsize] at hfit
  obtain ⟨hn, hn', hm, hm'⟩ := hfit
  have hcn : L.numChan = (L.numChan.toNat : ℕ) := (Int.toNat_of_nonneg (by omega)).symm
  have hcm : L.wordSize = (L.wordSize.toNat : ℕ) := (Int.toNat_of_nonneg (by omega)).symm
  generalize L.numChan.toNat = n at hcn
  generalize L.wordSize.toNat = m at hcm
  have hbyte : L.byteSize = ((m + 7) / 8 : ℕ) := by
    unfold Layout.byteSize
    rw [int32_of_mem (by omega) (by omega), hcm]
    exact Int.tdiv_eq_ediv_of_nonneg (by omega)
  have hword : 1 ≤ (m + 7) / 8 ∧ (m + 7) / 8 ≤ 32 := by omega
  have hprod : n * ((m + 7) / 8) ≤ 255 * 32 := Nat.mul_le_mul (by omega) hword.2
  have hpos : 0 < n * ((m + 7) / 8) := Nat.mul_pos (by omega) (by omega)
  have hsample : L.sampleSize = (n * ((m + 7) / 8) : ℕ) := by
    unfold Layout.sampleSize
    rw [hbyte, hcn, ← Nat.cast_mul]
    exact int32_of_mem (by omega) (by omega)
  refine ⟨n, m, hcn, hcm, by omega, by omega, hbyte, hsample, hpos, ?_⟩
  have hbuffer : bufferSize = 65536 := rfl
  omega

/-- The previous values of a layout that fits can be allocated. -/
lemma Layout.Fits.baseReady {L : Layout} (h : L.Fits) (hsize : L.sampleSize ≠ 0) : L.BaseReady := by
  obtain ⟨n, m, hn, -, hn', hm', hbyte, -, hpos, -⟩ := h.fields hsize
  have hnpos : 0 < n := Nat.pos_of_mul_pos_right hpos
  refine ⟨by omega, by omega, ?_⟩
  have hword : (if L.byteSize = 3 then 4 else L.byteSize) ≤ 32 := by
    split <;> omega
  have hnonneg : 0 ≤ L.numChan := by omega
  calc L.numChan * (if L.byteSize = 3 then 4 else L.byteSize)
      ≤ L.numChan * 32 := Int.mul_le_mul_of_nonneg_left hword hnonneg
    _ < 2 ^ 32 := by omega

/-- The chunks behind the first block hold whole samples. -/
lemma chunk_samples {size : ℕ} (hpos : 0 < size) (hle : size ≤ bufferSize) :
    size ∣ (if size > 1 then roundDown bufferSize size else bufferSize) ∧
      size ≤ if size > 1 then roundDown bufferSize size else bufferSize := by
  split
  · exact ⟨dvd_roundDown hpos, le_roundDown hle⟩
  · obtain rfl : size = 1 := by omega
    exact ⟨one_dvd _, hle⟩

/-- With a layout that fits, the compressor writes the header and the differences of all data behind
the offset. -/
lemma pack_samples {L : Layout} (h : L.Fits) (hsize : L.sampleSize ≠ 0) (buf unread : List UInt8) :
    pack L buf unread = some ⟨.ok, header L (min L.offset.toNat buf.length) buf ++
      (diffBy L.byteSize L.numChan.toNat (List.replicate L.numChan.toNat 0)
        (buf.drop (min L.offset.toNat buf.length) ++ unread)).1⟩ := by
  obtain ⟨n, m, hn, hm, hn', hm', hbyte, hsample, hpos, hle⟩ := h.fields hsize
  have hoff := h.1
  set size := n * ((m + 7) / 8) with hsizedef
  set offset := min L.offset.toNat buf.length with hoffset
  set bytes := roundDown (buf.length - offset) size with hbytes
  have hdvd : size ∣ bytes := dvd_roundDown hpos
  have hbytesle : bytes ≤ buf.length - offset := roundDown_le _ _
  have hrestlt : buf.length - offset - bytes < size := sub_roundDown_lt hpos
  obtain ⟨hchunkdvd, hchunkle⟩ := chunk_samples hpos hle
  set chunk := if size > 1 then roundDown bufferSize size else bufferSize with hchunk
  have hwhole : (size : Int) = L.numChan.toNat * L.byteSize := by
    rw [hbyte, hn, hsizedef]
    push_cast
    rfl
  have hchunkable := (diffBy_chunkable hwhole).1
  have hready := h.baseReady hsize
  set block := (buf.drop offset).take bytes with hblock
  have hblocklen : block.length = bytes := by
    rw [hblock, List.length_take, List.length_drop]
    omega
  have hcut : buf.drop offset = block ++ buf.drop (offset + bytes) := by
    rw [hblock, ← List.drop_drop, List.take_append_drop]
  have hrest : (buf.drop (offset + bytes)).length ≤ chunk := by
    rw [List.length_drop]
    omega
  rw [hcut, List.append_assoc, hchunkable.append _ block _ (by rw [hblocklen]; exact hdvd)]
  unfold pack
  simp only [hsample, Int.toNat_natCast, ← hoffset, ← hbytes, ← hchunk, ← hblock]
  rw [if_neg (by omega), if_neg (by simp [hready, not_lt.mpr hrest, -List.length_drop]),
    hchunkable.chunkLoop hchunkdvd (by omega) _ _ _ hrest, List.append_assoc]

/-- The decompressor reads the fields of the header back. -/
lemma readFields_header {n m offset : ℕ} (hn : n < 256) (hm : m < 256) (hoff : offset < 2 ^ 31)
    (rest : List UInt8) :
    readFields (lowByte n :: lowByte m :: (put32 offset ++ rest)) = some (⟨n, m, offset⟩, rest) := by
  have hlow : ∀ k : ℕ, k < 256 → lowByte k = UInt8.ofNat k := by
    intro k hk
    rw [lowByte, uint32_of_lt (by omega)]
  have hbyte : ∀ k : ℕ, k < 256 → leValue [UInt8.ofNat k] = k := by
    intro k hk
    simp only [leValue, UInt8.toNat_ofNat']
    omega
  have hone : ∀ (b : UInt8) (xs : List UInt8), takeExact 1 (b :: xs) = some ([b], xs) :=
    fun b xs => takeExact_append (show [b].length = 1 from rfl)
  have hoffset : int32 (leValue (put32 offset)) = offset := by
    rw [put32, leValue_leBytes_of_lt (by omega), int32_of_mem (by omega) (by omega)]
  unfold readFields
  rw [hlow n hn, hlow m hm]
  refine Option.bind_eq_some_iff.mpr ⟨_, hone _ _, ?_⟩
  refine Option.bind_eq_some_iff.mpr ⟨_, hone _ _, ?_⟩
  refine Option.bind_eq_some_iff.mpr ⟨_, takeExact_leBytes_append 4 offset rest, ?_⟩
  have hback : int32 (leValue (leBytes 4 offset)) = offset := hoffset
  simp only [hback, hbyte n hn, hbyte m hm]
  rfl

/-- The decompressor restores the data of a layout that fits. -/
lemma mmDecompress_samples {L : Layout} (h : L.Fits) (hsize : L.sampleSize ≠ 0) {offset : ℕ}
    {buf : List UInt8} (hoff : offset ≤ buf.length) (hbuf : buf.length ≤ mb) (unread : List UInt8) :
    mmDecompress (header L offset buf ++ (diffBy L.byteSize L.numChan.toNat
      (List.replicate L.numChan.toNat 0) (buf.drop offset ++ unread)).1) =
        some ⟨.ok, buf ++ unread⟩ := by
  obtain ⟨n, m, hn, hm, hn', hm', hbyte, hsample, hpos, hle⟩ := h.fields hsize
  have hmb : mb = 1048576 := rfl
  have hnpos : 0 < n := Nat.pos_of_mul_pos_right hpos
  set data := buf.drop offset ++ unread with hdata
  set packed := (diffBy L.byteSize L.numChan.toNat (List.replicate L.numChan.toNat 0) data).1
    with hpacked
  set F : Fields := ⟨n, m, offset⟩ with hF
  have hFsize : F.sampleSize = n * ((m + 7) / 8) := rfl
  have hFbyte : (F.byteSize : Int) = L.byteSize := hbyte.symm
  have hstream : header L offset buf ++ packed = 1 :: (lowByte n :: lowByte m :: (put32 offset ++
      (buf.take offset ++ (List.replicate (padding offset F.sampleSize) 0 ++ packed)))) := by
    unfold header
    rw [if_neg hsize, hsample, hn, hm, Int.toNat_natCast, hFsize]
    simp only [List.append_assoc, List.cons_append, List.nil_append]
  have hfirst : (buf.take offset).length = offset := List.length_take_of_le hoff
  have hpad : (List.replicate (padding offset F.sampleSize) (0 : UInt8)).length =
      padding offset F.sampleSize := List.length_replicate
  have hchunk : F.sampleSize ∣ roundDown bufferSize F.sampleSize := dvd_roundDown hpos
  have hchunkpos : 0 < roundDown bufferSize F.sampleSize := by
    have hone := le_roundDown hle
    rw [hFsize]
    omega
  have hwhole : (F.sampleSize : Int) = n * (F.byteSize : Int) := by
    rw [hFsize]
    push_cast
    rfl
  have hchunkable := (diffBy_chunkable hwhole).2
  have hundiff : (undiffBy F.byteSize n (List.replicate n 0) packed).1 = data := by
    rw [hpacked, hFbyte, hn, Int.toNat_natCast]
    exact undiffBy_diffBy L.byteSize n data
  have hsamples : unpackSamples F (buf.take offset)
      (List.replicate (padding offset F.sampleSize) 0 ++ packed) = some ⟨.ok, buf ++ unread⟩ := by
    unfold unpackSamples
    rw [show F.offset.toNat = offset from rfl, takeExact_append hpad]
    dsimp only
    rw [if_neg (by rintro ⟨-, hzero, -⟩; exact hnpos.ne' hzero)]
    have hloop : chunkLoop (roundDown bufferSize F.sampleSize) (undiffBy F.byteSize F.numChan)
        (List.replicate F.numChan 0) [] packed = data := by
      rw [hchunkable.chunkLoop hchunk hchunkpos _ _ _ (Nat.zero_le _), List.nil_append]
      exact hundiff
    rw [hloop, hdata, ← List.append_assoc, List.take_append_drop]
  rw [hstream]
  unfold mmDecompress
  dsimp only
  rw [if_neg (by decide), if_neg (by simp), readFields_header hn' hm' (by omega)]
  dsimp only
  rw [if_neg (by omega), show ((offset : ℕ) : Int).toNat = offset from rfl,
    takeExact_append hfirst]
  exact hsamples

/-- The decompressor copies stored data. -/
lemma mmDecompress_stored (data : List UInt8) : mmDecompress (0 :: data) = some ⟨.ok, data⟩ := by
  unfold mmDecompress
  dsimp only
  rw [if_pos rfl, chunkLoop_copy _ _ _ (Nat.zero_le _), List.nil_append]

/-! ## Layouts that do not fit -/

/-- Words that are filtered have a sample size, unless their previous values cannot be
allocated. -/
lemma sampleSize_ne_zero {L : Layout} (hd : Diffed L.byteSize) (hb : L.BaseReady) :
    L.sampleSize ≠ 0 := by
  obtain ⟨hn, -, hlt⟩ := hb
  have hword : 1 ≤ L.byteSize := hd.1
  have hregister : L.byteSize ≤ if L.byteSize = 3 then 4 else L.byteSize := by
    split <;> omega
  have hpos : 1 ≤ L.numChan * L.byteSize := Int.mul_pos hn (by omega)
  have hbound : L.numChan * L.byteSize < 2 ^ 32 :=
    (Int.mul_le_mul_of_nonneg_left hregister hn.le).trans_lt hlt
  unfold Layout.sampleSize
  rcases lt_or_ge (L.numChan * L.byteSize) (2 ^ 31) with hsmall | hlarge
  · rw [int32_of_mem (by omega) hsmall]
    omega
  · rw [int32_of_ge hlarge hbound]
    omega

/-- If the compressor returns, the offset is not negative, and data without samples are not
filtered. -/
lemma pack_eq_some {L : Layout} {buf unread : List UInt8} {r : Outcome}
    (h : pack L buf unread = some r) :
    0 ≤ L.offset ∧ (L.sampleSize = 0 → ¬ Diffed L.byteSize) := by
  unfold pack at h
  split at h
  · cases h
  · next hneg =>
    rw [not_or] at hneg
    refine ⟨not_lt.mp hneg.1, fun hzero hd => ?_⟩
    have hbase : ¬ L.BaseReady := fun hb => sampleSize_ne_zero hd hb hzero
    dsimp only at h
    rw [if_pos (.inl ⟨.inl hd, hbase⟩)] at h
    cases h

/-! ## The round trip -/

/-- The input is not empty, the selection of a layout ends, and the layout fits. -/
def Suits (P : Params) (pick : Pick) (input : List UInt8) : Prop :=
  input ≠ [] ∧ ∃ L, Selects P pick input L ∧ L.Fits

/-- Once a layout is selected, the compressor goes on with it. -/
lemma mmCompress_converges {P : Params} {pick : Pick} {input : List UInt8} {L : Layout} {r : Outcome}
    (hne : input ≠ []) (hsel : Selects P pick input L)
    (hpack : pack L (input.take mb) (input.drop mb) = some r) :
    Converges (fun fuel => mmCompress fuel P pick input) r := by
  obtain ⟨n, hn⟩ := hsel
  refine ⟨n, fun fuel hfuel => ?_⟩
  have hL : select fuel P pick (input.take mb) = some L := hn fuel hfuel
  change mmCompress fuel P pick input = some r
  rw [mmCompress, if_neg hne, hL, Option.bind_some, hpack]

/-- Nonempty input with a layout that fits survives the round trip. -/
lemma mmRoundTrips_of_suits {P : Params} {pick : Pick} {input : List UInt8}
    (h : Suits P pick input) : MmRoundTrips P pick input := by
  obtain ⟨hne, L, hsel, hfit⟩ := h
  have hmb : (input.take mb).length ≤ mb := List.length_take_le ..
  have hoffset : min L.offset.toNat (input.take mb).length ≤ (input.take mb).length :=
    min_le_right _ _
  by_cases hsize : L.sampleSize = 0
  · obtain ⟨hnonneg, hzero⟩ := hfit
    rw [if_pos hsize] at hzero
    refine ⟨_, mmCompress_converges hne hsel (pack_stored hnonneg hsize hzero.2 _ _), ?_⟩
    rw [mmDecompress_stored, hzero.1, Int.toNat_zero, Nat.zero_min, List.drop_zero,
      List.take_append_drop]
  · refine ⟨_, mmCompress_converges hne hsel (pack_samples hfit hsize _ _), ?_⟩
    rw [mmDecompress_samples hfit hsize hoffset hmb, List.take_append_drop]

/-- An input that survives the round trip suits the filter, unless its layout was narrowed. -/
lemma suits_of_mmRoundTrips {P : Params} {pick : Pick} {input : List UInt8}
    (h : MmRoundTrips P pick input) :
    Suits P pick input ∨ ∃ L, Selects P pick input L ∧ L.Narrowed := by
  obtain ⟨packed, ⟨n, hn⟩, hback⟩ := h
  have hcomp := hn n le_rfl
  dsimp only at hcomp
  unfold mmCompress at hcomp
  split at hcomp
  · -- the compressed empty input is empty, which the decompressor does not accept
    obtain rfl : [] = packed := congrArg Outcome.written (Option.some.inj hcomp)
    simp [mmDecompress] at hback
  · next hne =>
    obtain ⟨L, hL, hpack⟩ := Option.bind_eq_some_iff.mp hcomp
    have hsel : Selects P pick input L := (select_steady P pick (input.take mb)).converges hL
    obtain ⟨hoff, hcopy⟩ := pack_eq_some hpack
    by_cases hsize : L.sampleSize = 0
    · -- stored data lose the bytes before the offset
      rw [pack_stored hoff hsize (hcopy hsize)] at hpack
      obtain rfl := congrArg Outcome.written (Option.some.inj hpack)
      rw [mmDecompress_stored] at hback
      have hlen := congrArg (fun o : Outcome => o.written.length) (Option.some.inj hback)
      have hpos := List.length_pos_of_ne_nil hne
      simp only [List.length_append, List.length_drop, List.length_take] at hlen
      have hmb : mb = 1048576 := rfl
      refine .inl ⟨hne, L, hsel, hoff, ?_⟩
      rw [if_pos hsize]
      exact ⟨by omega, hcopy hsize⟩
    · by_cases hfit : 1 ≤ L.numChan ∧ L.numChan ≤ 255 ∧ 1 ≤ L.wordSize ∧ L.wordSize ≤ 255
      · exact .inl ⟨hne, L, hsel, hoff, by rw [if_neg hsize]; exact hfit⟩
      · exact .inr ⟨L, hsel, hsize, hfit⟩

/-- A PCM file with 0 bits per sample. -/
def silentWav : List UInt8 :=
  [0x52, 0x49, 0x46, 0x46, 37, 0, 0, 0, 0x57, 0x41, 0x56, 0x45, 0x66, 0x6D, 0x74, 0x20, 16, 0, 0, 0,
    1, 0, 1, 0, 0x44, 0xAC, 0, 0, 0, 0, 0, 0, 0, 0, 0, 0, 0x64, 0x61, 0x74, 0x61, 1, 0, 0, 0, 128]

end DArc.MM
