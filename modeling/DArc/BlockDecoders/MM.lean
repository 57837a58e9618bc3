import DArc.BlockDecoders.Port
import DArc.MM.Filter

/-!
# The buffers of the multimedia decompressor

`mm_decompress` copies data that were stored, or it reads a header with the number of channels, the size of a word
and the number of bytes before the first sample, and then adds up the differences of the samples, chunk by chunk.
The number of these bytes may be negative, and a loop over samples of no channels does not end.

### Outline

* `MmLoop`: where the method is;
* `mmStart`, `mmStep`: the method, up to its loops and in them;
* `MmFits`: what is asked of the stream.

### Main results

* `mm_bounded_iff`: the method stays inside its buffers and ends exactly when the stream fits.
-/

namespace DArc.BlockDecoders

open Guarded MM

/-! ## The method -/

/-- Where the method is. -/
inductive MmLoop
  /-- In the loop that copies. -/
  | copy
  /-- Before a chunk of samples. -/
  | samples (F : Fields) (base : List ℕ)
  /-- In a chunk of `bytes` bytes, of which those before `p` are done. -/
  | chunk (F : Fields) (base : List ℕ) (buf : List UInt8) (bytes p : ℕ)

/-- The `switch (byte_size)`: the widths that are filtered. -/
def filterWidth (byteSize : ℕ) : Option Width :=
  match byteSize with
  | 1 => some width1
  | 2 => some width2
  | 3 => some width3
  | 4 => some width4
  | _ => none

/-- The size of `base`. -/
def baseCapacity (F : Fields) : ℕ := F.numChan * if F.byteSize = 3 then 4 else F.byteSize

/-- The previous values, when the bytes that align the samples were read to `base`. -/
def initialBase (F : Fields) (alignment : List UInt8) : List ℕ :=
  match filterWidth F.byteSize with
  | none => []
  | some w => Width.load ⟨w.register, w.register, le_rfl⟩ F.numChan
      (alignment ++ List.replicate (baseCapacity F - alignment.length) 0)

/-- The accesses for one sample: a word of the chunk and its previous value are both accessed as variables. -/
def sampleAccesses (w : Width) (F : Fields) (p : ℕ) : List Access :=
  (List.range F.numChan).flatMap fun i =>
    [⟨baseCapacity F, (i * w.register : ℕ), w.register⟩,
      ⟨(bufferSize + 1 : ℕ), (p + i * w.bytes : ℕ), w.register⟩]

/-- The header of the samples in `mm_decompress`. -/
def mmHeader (codes : ℕ → Int) : Guarded Port MmLoop := do
  let fields ← readFull 3 1 2
  let offset ← read4
  -- a buffer of a negative size cannot be allocated
  let first ← readFull (max 0 offset) 0 offset
  write codes (max 0 offset) offset first
  let F : Fields := ⟨leValue (fields.take 1), leValue (fields.drop 1), offset⟩
  let alignment ← readFull (baseCapacity F) 0 (padding offset.toNat F.sampleSize)
  return .samples F (initialBase F alignment)

/-- `mm_decompress` up to its loops. -/
def mmStart (codes : ℕ → Int) : Guarded Port MmLoop := do
  let flags ← readFull 3 0 1
  if flags = [0] then return .copy
  else if leValue flags / 2 ≠ 0 then exit ErrCode.badCompressedData.toInt
  else mmHeader codes

/-- The next sample of a chunk, or the write behind the last one. -/
def mmSample (codes : ℕ → Int) (F : Fields) (base : List ℕ) (buf : List UInt8) (bytes p : ℕ) :
    Guarded Port MmLoop :=
  match filterWidth F.byteSize with
  | none => do
    write codes (bufferSize + 1 : ℕ) bytes buf
    return .samples F base
  | some w =>
    let next := p + F.numChan * w.bytes
    if next ≤ bytes then do
      accessAll (sampleAccesses w F p)
      let sums := w.undiffSample base ((buf.drop p).take (F.numChan * w.bytes))
      return .chunk F sums.2 (buf.take p ++ sums.1 ++ buf.drop next) bytes next
    else do
      write codes (bufferSize + 1 : ℕ) bytes buf
      return .samples F base

/-- One read, one sample or one write in the loops of `mm_decompress`. -/
def mmStep (codes : ℕ → Int) : MmLoop → Guarded Port MmLoop
  | .copy => do
    let bytes ← readLenOrEof (bufferSize + 1 : ℕ) bufferSize
    write codes (bufferSize + 1 : ℕ) bytes.length bytes
    return .copy
  | .samples F base => do
    let buf ← readLenOrEof (bufferSize + 1 : ℕ) (roundDown bufferSize F.sampleSize)
    return .chunk F base buf buf.length 0
  | .chunk F base buf bytes p => mmSample codes F base buf bytes p

/-! ## What the stream must say -/

/-- The filter does not end for samples of no channels. -/
def Endless (F : Fields) : Prop := F.numChan = 0 ∧ (filterWidth F.byteSize).isSome

/-- The stream does not say a negative number of bytes before the first sample; and if its samples have no
channels, there are no data behind these bytes, or these bytes are not accepted. -/
def MmFits (codes : ℕ → Int) (stream : List UInt8) : Prop :=
  ∀ numChan wordSize rest, stream = 1 :: numChan :: wordSize :: rest → 4 ≤ rest.length →
    0 ≤ headWord rest ∧
      (Endless ⟨numChan.toNat, wordSize.toNat, headWord rest⟩ →
        headWord rest = 0 ∨ 0 ≤ codes 0 → (rest.drop 4).length ≤ (headWord rest).toNat)

variable {codes : ℕ → Int} {port : Port}

/-! ## The loops -/

/-- A read of a chunk. -/
lemma wp_readBuf {size : ℕ} (hsize : size ≤ bufferSize + 1) {Q : List UInt8 → Port → Prop} :
    wp (readLenOrEof (bufferSize + 1 : ℕ) size) Q port ↔
      ((port.stream.take size).length ≠ 0 → Q (port.stream.take size) (port.skip size)) := by
  rw [wp_readLenOrEof, Int.toNat_natCast]
  exact ⟨fun h => h.2.2, fun h => ⟨Int.natCast_nonneg _, by exact_mod_cast hsize, h⟩⟩

/-- A write of a chunk. -/
lemma wp_writeBuf {size : ℕ} (hsize : size ≤ bufferSize + 1) {bytes : List UInt8} {Q : Unit → Port → Prop} :
    wp (write codes (bufferSize + 1 : ℕ) size bytes) Q port ↔
      ((size : Int) = 0 ∨ 0 ≤ codes port.writes → Q () (port.wrote size bytes)) := by
  rw [wp_write (Int.natCast_nonneg _)]
  exact ⟨fun h => h.2.2, fun h => ⟨Int.natCast_nonneg _, by exact_mod_cast hsize, h⟩⟩

/-- Copying stays inside the buffer. -/
lemma bounded_copy (port : Port) : Bounded (pure .copy) (mmStep codes) port := by
  induction hn : port.stream.length using Nat.strong_induction_on generalizing port with
  | _ n ih =>
    subst hn
    rw [bounded_round]
    unfold mmStep
    rw [wp_bind, wp_readBuf (Nat.le_succ _)]
    intro hne
    rw [wp_bind, wp_writeBuf (by rw [List.length_take]; omega), wp_pure]
    intro _
    refine ih _ ?_ _ rfl
    rw [Port.stream_wrote, Port.stream_skip, List.length_drop]
    rw [List.length_take] at hne
    omega

/-- The widths that are filtered. -/
lemma filterWidth_spec {byteSize : ℕ} {w : Width} (h : filterWidth byteSize = some w) :
    0 < w.bytes ∧ w.register ≤ w.bytes + 1 ∧ (if byteSize = 3 then 4 else byteSize) = w.register := by
  unfold filterWidth at h
  split at h <;> cases h <;> decide

/-- The accesses for one sample fit when the sample is in the chunk. -/
lemma sampleAccesses_fit {F : Fields} {w : Width} (h : filterWidth F.byteSize = some w) {bytes p : ℕ}
    (hp : p + F.numChan * w.bytes ≤ bytes) (hbytes : bytes ≤ bufferSize) :
    ∀ x ∈ sampleAccesses w F p, x.Fits := by
  obtain ⟨hpos, hregister, hcapacity⟩ := filterWidth_spec h
  intro x hx
  obtain ⟨i, hi, hx⟩ := List.mem_flatMap.mp hx
  have hle := List.mem_range.mp hi
  have hregisters : (i + 1) * w.register ≤ F.numChan * w.register := Nat.mul_le_mul_right _ hle
  have hwords : (i + 1) * w.bytes ≤ F.numChan * w.bytes := Nat.mul_le_mul_right _ hle
  rw [Nat.succ_mul] at hregisters hwords
  rcases List.mem_cons.mp hx with rfl | hx
  · refine ⟨Int.natCast_nonneg _, Int.natCast_nonneg _, ?_⟩
    unfold baseCapacity
    dsimp only
    rw [hcapacity]
    exact_mod_cast hregisters
  · rw [List.mem_singleton.mp hx]
    refine ⟨Int.natCast_nonneg _, Int.natCast_nonneg _, ?_⟩
    dsimp only
    have hend : p + i * w.bytes + w.register ≤ bufferSize + 1 := by omega
    exact_mod_cast hend

/-- A chunk of samples stays inside the buffers and leads to the next one. -/
lemma bounded_chunk {F : Fields} (hF : ¬Endless F) (hnext : ∀ base port', port'.stream = port.stream →
      Bounded (pure (.samples F base)) (mmStep codes) port') {bytes : ℕ} (hbytes : bytes ≤ bufferSize)
    (base : List ℕ) (buf : List UInt8) (p : ℕ) :
    Bounded (pure (.chunk F base buf bytes p)) (mmStep codes) port := by
  have hwrite (base : List ℕ) (buf : List UInt8) : wp (do
      write codes (bufferSize + 1 : ℕ) bytes buf
      return MmLoop.samples F base) (fun a => Bounded (pure a) (mmStep codes)) port := by
    rw [wp_bind, wp_writeBuf (hbytes.trans (Nat.le_succ _)), wp_pure]
    exact fun _ => hnext base _ (Port.stream_wrote _ _ _)
  cases hw : filterWidth F.byteSize with
  | none =>
    rw [bounded_round]
    change wp (mmSample codes F base buf bytes p) _ port
    unfold mmSample
    rw [hw]
    exact hwrite base buf
  | some w =>
    have hpos : 0 < F.numChan * w.bytes := by
      refine Nat.mul_pos (Nat.pos_of_ne_zero fun hzero => ?_) (filterWidth_spec hw).1
      exact hF ⟨hzero, by rw [hw]; rfl⟩
    induction hn : bytes - p using Nat.strong_induction_on generalizing p base buf with
    | _ n ih =>
      subst hn
      rw [bounded_round]
      change wp (mmSample codes F base buf bytes p) _ port
      unfold mmSample
      rw [hw]
      dsimp only
      by_cases hp : p + F.numChan * w.bytes ≤ bytes
      · rw [if_pos hp, wp_bind, wp_accessAll, wp_pure]
        exact ⟨sampleAccesses_fit hw hp hbytes, ih _ (by omega) _ _ _ rfl⟩
      · rw [if_neg hp]
        exact hwrite base buf

/-- The chunks are not empty. -/
lemma roundDown_pos {size : ℕ} (h : size ≤ bufferSize) : 0 < roundDown bufferSize size := by
  by_cases hsize : size = 0
  · rw [hsize]
    decide
  · exact (Nat.pos_of_ne_zero hsize).trans_le (le_roundDown h)

/-- Samples of some channels are processed inside the buffers. -/
lemma bounded_samples {F : Fields} (hF : ¬Endless F) (hsize : F.sampleSize ≤ bufferSize) (base : List ℕ)
    (port : Port) : Bounded (pure (.samples F base)) (mmStep codes) port := by
  induction hn : port.stream.length using Nat.strong_induction_on generalizing port base with
  | _ n ih =>
    subst hn
    have hpos := roundDown_pos hsize
    have hle := roundDown_le bufferSize F.sampleSize
    rw [bounded_round]
    unfold mmStep
    rw [wp_bind, wp_readBuf (hle.trans (Nat.le_succ _))]
    intro hne
    rw [List.length_take] at hne
    rw [wp_pure]
    refine bounded_chunk hF (fun base port' hport => ih _ ?_ _ _ rfl) (by rw [List.length_take]; omega) _ _ _
    rw [hport, Port.stream_skip, List.length_drop]
    omega

/-- The filter does not end for samples of no channels. -/
lemma not_bounded_chunk {F : Fields} (hF : Endless F) (base : List ℕ) (buf : List UInt8) (bytes : ℕ) :
    ¬Bounded (pure (.chunk F base buf bytes 0)) (mmStep codes) port := by
  refine not_bounded_of_invariant (fun x => ∃ base buf, x.1 = .chunk F base buf bytes 0) ?_ ⟨base, buf, rfl⟩
  rintro a s ⟨base, buf, rfl⟩
  obtain ⟨hzero, hsome⟩ := hF
  obtain ⟨w, hw⟩ := Option.isSome_iff_exists.mp hsome
  have hnext : 0 + F.numChan * w.bytes = 0 := by rw [hzero, Nat.zero_mul]
  change ∃ x, (mmSample codes F base buf bytes 0 s).2 = .ok x ∧ _
  unfold mmSample
  rw [hw]
  dsimp only
  rw [hnext, if_pos (Nat.zero_le _)]
  exact ⟨_, rfl, _, _, rfl⟩

/-- With samples of no channels the method must find no data. -/
lemma bounded_samples_iff {F : Fields} (hsize : F.sampleSize ≤ bufferSize) (base : List ℕ) (port : Port) :
    Bounded (pure (.samples F base)) (mmStep codes) port ↔ (Endless F → port.stream = []) := by
  by_cases hF : Endless F
  · have hpos := roundDown_pos hsize
    have hle := roundDown_le bufferSize F.sampleSize
    rw [bounded_round]
    unfold mmStep
    rw [wp_bind, wp_readBuf (hle.trans (Nat.le_succ _))]
    constructor
    · intro h _
      by_contra hne
      have hlength := List.length_pos_iff.mpr hne
      have hread : (port.stream.take (roundDown bufferSize F.sampleSize)).length ≠ 0 := by
        rw [List.length_take]
        omega
      have hloop := h hread
      rw [wp_pure] at hloop
      exact not_bounded_chunk hF _ _ _ hloop
    · intro h hne
      rw [h hF, List.take_nil] at hne
      exact absurd rfl hne
  · exact iff_of_true (bounded_samples hF hsize base port) fun h => absurd h hF

/-- The alignment is shorter than a sample. -/
lemma padding_le {offset size : ℕ} (hoffset : offset < 2 ^ 31) (hsize : size ≤ bufferSize) :
    padding offset size ≤ size ∧ (size = 0 → padding offset size = 0) := by
  unfold padding roundUp
  by_cases hone : size > 1
  · have hbuffer : bufferSize = 65536 := rfl
    have hdown := roundDown_le (6 + offset) size
    have hlast : uint32 (((3 + 4 + offset : ℕ) : Int) - 1) = 6 + offset := by
      have hcast : ((3 + 4 + offset : ℕ) : Int) - 1 = (6 + offset : ℕ) := by omega
      rw [hcast, uint32_of_lt (by omega)]
    rw [if_pos hone, hlast, uint32_of_lt (by omega)]
    omega
  · rw [if_neg hone, Nat.sub_self]
    exact ⟨Nat.zero_le _, fun _ => rfl⟩

/-- The sizes of samples in a header. -/
lemma sampleSize_le (numChan wordSize : UInt8) (offset : Int) :
    Fields.sampleSize ⟨numChan.toNat, wordSize.toNat, offset⟩ ≤ bufferSize ∧
      Fields.sampleSize ⟨numChan.toNat, wordSize.toNat, offset⟩ ≤
        baseCapacity ⟨numChan.toNat, wordSize.toNat, offset⟩ := by
  have hchan := numChan.toNat_lt
  have hword := wordSize.toNat_lt
  have hbytes : Fields.byteSize ⟨numChan.toNat, wordSize.toNat, offset⟩ ≤ 32 := by
    unfold Fields.byteSize
    dsimp only
    omega
  unfold baseCapacity Fields.sampleSize
  generalize Fields.byteSize ⟨numChan.toNat, wordSize.toNat, offset⟩ = byteSize at hbytes ⊢
  constructor
  · exact (Nat.mul_le_mul (Nat.le_of_lt_succ hchan) hbytes).trans (by decide)
  · refine Nat.mul_le_mul_left _ ?_
    split_ifs <;> omega

/-- What the alignment needs, and the samples behind it. -/
lemma wp_alignment {F : Fields} (hsize : F.sampleSize ≤ bufferSize) {pad : ℕ} (hpad : pad ≤ baseCapacity F)
    (hnopad : Endless F → pad = 0) :
    wp (do
        let alignment ← readFull (baseCapacity F) 0 pad
        return MmLoop.samples F (initialBase F alignment))
      (fun a s => Bounded (pure a) (mmStep codes) s) port ↔ (Endless F → port.stream = []) := by
  have hfits : (0 : Int) + (pad : Int) ≤ (baseCapacity F : Int) := by omega
  rw [wp_bind, wp_readFull le_rfl (Int.natCast_nonneg _), Int.toNat_natCast]
  simp only [wp_pure, bounded_samples_iff hsize, Port.stream_skip]
  constructor
  · rintro ⟨-, -, h⟩ hendless
    rw [hnopad hendless] at h
    exact h (Nat.zero_le _) hendless
  · intro h
    refine ⟨Int.natCast_nonneg _, hfits, fun _ hendless => ?_⟩
    rw [h hendless, List.drop_nil]

/-- What the header of the samples needs. -/
lemma wp_mmHeader {numChan wordSize : UInt8} {rest : List UInt8} :
    wp (mmHeader codes) (fun a s => Bounded (pure a) (mmStep codes) s) ⟨numChan :: wordSize :: rest, 0, []⟩ ↔
      (4 ≤ rest.length → 0 ≤ headWord rest ∧
        (Endless ⟨numChan.toNat, wordSize.toNat, headWord rest⟩ →
          headWord rest = 0 ∨ 0 ≤ codes 0 → (rest.drop 4).length ≤ (headWord rest).toNat)) := by
  have htwo : (2 : Int).toNat = 2 := rfl
  unfold mmHeader
  rw [wp_bind, wp_readFull (by decide) (by decide), htwo]
  have hfields : (Port.skip ⟨numChan :: wordSize :: rest, 0, []⟩ 2).stream = rest := Port.stream_skip _ 2
  have hwrites : (Port.skip ⟨numChan :: wordSize :: rest, 0, []⟩ 2).writes = 0 := Port.writes_skip _ 2
  generalize Port.skip ⟨numChan :: wordSize :: rest, 0, []⟩ 2 = port at hfields hwrites ⊢
  have htake : (numChan :: wordSize :: rest).take 2 = [numChan, wordSize] := rfl
  have hnum : leValue ([numChan, wordSize].take 1) = numChan.toNat := Nat.add_zero _
  have hword : leValue ([numChan, wordSize].drop 1) = wordSize.toNat := Nat.add_zero _
  dsimp only
  rw [htake, hnum, hword]
  have hlength : 2 ≤ (numChan :: wordSize :: rest).length := by
    rw [List.length_cons, List.length_cons]
    omega
  have hheader : (0 : Int) ≤ 2 ∧ (1 : Int) + 2 ≤ 3 := by decide
  simp only [hheader, hlength, true_and, true_imp_iff]
  rw [wp_bind, wp_read4, hfields]
  refine imp_congr_right fun _ => ?_
  have hmem := headWord_mem rest
  obtain ⟨hsize, hcapacity⟩ := sampleSize_le numChan wordSize (headWord rest)
  have hskip : (port.skip 4).stream = rest.drop 4 := by rw [Port.stream_skip, hfields]
  have hwrites' : (port.skip 4).writes = 0 := by rw [Port.writes_skip, hwrites]
  generalize headWord rest = offset at hmem hsize hcapacity ⊢
  generalize port.skip 4 = port at hskip hwrites' ⊢
  rw [wp_bind, wp_readFull le_rfl (le_max_left 0 offset), hskip]
  refine and_congr_right fun hnonneg => ?_
  have hroom : 0 + offset ≤ max 0 offset := by omega
  obtain ⟨hpad, hnopad⟩ := padding_le (show offset.toNat < 2 ^ 31 by omega) hsize
  have hrest (bytes : List UInt8) : ((port.skip offset.toNat).wrote offset bytes).stream =
      (rest.drop 4).drop offset.toNat := by
    rw [Port.stream_wrote, Port.stream_skip, hskip]
  generalize (⟨numChan.toNat, wordSize.toNat, offset⟩ : Fields) = F at hsize hcapacity hpad hnopad ⊢
  have hnopad' : Endless F → padding offset.toNat F.sampleSize = 0 := by
    intro hendless
    refine hnopad ?_
    unfold Fields.sampleSize
    rw [hendless.1, Nat.zero_mul]
  have hpad' := hpad.trans hcapacity
  generalize padding offset.toNat F.sampleSize = pad at hpad' hnopad' ⊢
  have hwrites (bytes : List UInt8) (Q : Unit → Port → Prop) :
      wp (write codes (max 0 offset) offset bytes) Q (port.skip offset.toNat) ↔
        (offset = 0 ∨ 0 ≤ codes 0 → Q () ((port.skip offset.toNat).wrote offset bytes)) := by
    rw [wp_write (le_max_left 0 offset), Port.writes_skip, hwrites']
    exact ⟨fun h => h.2.2, fun h => ⟨hnonneg, le_max_right 0 offset, h⟩⟩
  have hend (bytes : List UInt8) : wp (do
        let alignment ← readFull (baseCapacity F) 0 pad
        return MmLoop.samples F (initialBase F alignment))
      (fun a s => Bounded (pure a) (mmStep codes) s) ((port.skip offset.toNat).wrote offset bytes) ↔
        (Endless F → ((port.skip offset.toNat).wrote offset bytes).stream = []) :=
    wp_alignment hsize hpad' hnopad'
  constructor
  · rintro ⟨-, h⟩ hendless hcode
    by_contra hlength
    have hnext := h (by omega)
    rw [wp_bind, hwrites] at hnext
    have hnil := (hend _).mp (hnext hcode) hendless
    rw [hrest] at hnil
    exact hlength (List.drop_eq_nil_iff.mp hnil)
  · intro h
    refine ⟨hroom, fun _ => ?_⟩
    rw [wp_bind, hwrites]
    refine fun hcode => (hend _).mpr fun hendless => ?_
    rw [hrest]
    exact List.drop_eq_nil_of_le (h hendless hcode)

/-- What a stream of samples needs behind its first byte. -/
lemma wp_mmHeader_iff (rest : List UInt8) :
    wp (mmHeader codes) (fun a s => Bounded (pure a) (mmStep codes) s) ⟨rest, 0, []⟩ ↔
      MmFits codes (1 :: rest) := by
  unfold MmFits
  match rest with
  | [] | [_] =>
    refine iff_of_true ?_ fun _ _ _ heq => by cases heq
    unfold mmHeader
    rw [wp_bind, wp_readFull (by decide) (by decide)]
    exact ⟨by decide, by decide, fun hlength => absurd hlength (by simp)⟩
  | numChan :: wordSize :: rest =>
    rw [wp_mmHeader]
    constructor
    · rintro h _ _ _ heq
      cases heq
      exact h
    · exact fun h => h _ _ _ rfl

/-- **Multimedia decompression** stays inside its buffers and ends exactly when the stream fits. -/
theorem mm_bounded_iff (stream : List UInt8) :
    Bounded (mmStart codes) (mmStep codes) ⟨stream, 0, []⟩ ↔ MmFits codes stream := by
  have hone : (1 : Int).toNat = 1 := rfl
  rw [bounded_iff]
  unfold mmStart
  rw [wp_bind, wp_readFull le_rfl (by decide), hone]
  cases stream with
  | nil =>
    refine iff_of_true ⟨by decide, by decide, fun h => absurd h (by decide)⟩ ?_
    rintro _ _ _ h
    cases h
  | cons flags rest =>
    by_cases hcopy : flags = 0
    · subst hcopy
      refine iff_of_true ⟨by decide, by decide, fun _ => ?_⟩ ?_
      · exact (wp_pure _).mpr (bounded_copy _)
      · rintro _ _ _ h
        cases h
    · have htake : (flags :: rest).take 1 = [flags] := rfl
      have hne : [flags] ≠ [0] := fun heq => hcopy (List.cons.inj heq).1
      have hvalue : leValue [flags] = flags.toNat := Nat.add_zero _
      have hheader : (0 : Int) ≤ 1 ∧ (0 : Int) + 1 ≤ 3 ∧ 1 ≤ (flags :: rest).length :=
        ⟨by decide, by decide, Nat.succ_le_succ (Nat.zero_le _)⟩
      rw [htake, if_neg hne, hvalue]
      simp only [hheader, true_and, true_imp_iff]
      by_cases hflags : flags = 1
      · subst hflags
        rw [if_neg (by decide)]
        have hskip : Port.skip ⟨1 :: rest, 0, []⟩ 1 = ⟨rest, 0, []⟩ := rfl
        rw [hskip]
        exact wp_mmHeader_iff rest
      · have hlarge : flags.toNat / 2 ≠ 0 := by
          have hpos : flags.toNat ≠ 0 := fun heq => hcopy (UInt8.toNat.inj heq)
          have hmany : flags.toNat ≠ 1 := fun heq => hflags (UInt8.toNat.inj heq)
          omega
        rw [if_pos hlarge]
        refine iff_of_true (wp_exit _) ?_
        rintro _ _ _ heq
        exact absurd (List.cons.inj heq).1 hflags

end DArc.BlockDecoders
