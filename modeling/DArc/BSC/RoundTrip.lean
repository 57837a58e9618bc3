import DArc.BSC.Stream

/-!
# The round trip of the BSC wrapper

When no call of the callback fails, the compressor writes a stream that depends on the data only, and the
decompressor writes the data again.  Only a block size of zero, which the parser of the method accepts, makes the
compressor take any data for the end of the data.

### Outline

* `stream`: the stream for some data;
* `RoundTrips`: decompression undoes compression;
* `storedLib`: libbsc where it stores all blocks.

### Main results

* `compress_serves`, `decompress_serves`: the two directions;
* `roundTrips_iff`: the round trip fails only for a block size of zero;
* `bsc_reports_iff`: all that is asked of the wrapper, and when it holds;
* `not_reports`: the compressor does not report a first read that fails.
-/

namespace DArc.BSC

variable {cb cb' : Callback} {lib : Libbsc}

/-! ## The stream -/

/-- What the compressor writes for some data. -/
def stream (lib : Libbsc) (BlockSize : ℕ) (data : List UInt8) : List UInt8 :=
  if data.length = 0 ∨ BlockSize = 0 then eofMarker
  else
    let inBuf := data.take BlockSize
    let out := (lib.block inBuf).2
    leBytes 4 out.length ++ out ++
      if inBuf.length < BlockSize then eofMarker else stream lib BlockSize (data.drop BlockSize)
termination_by data.length
decreasing_by
  rw [List.length_drop]
  omega

/-- A step in front of other ones. -/
lemma steps_succ' {step : Run cb → Run cb} {r : Run cb} (h : r.code = none) (n : ℕ) :
    steps step (n + 1) r = steps step n (step r) := by
  induction n with
  | zero => exact if_pos h
  | succ n ih =>
    rw [steps, ih]
    rfl

/-- A run that has returned stays as it is. -/
lemma steps_of_code {step : Run cb → Run cb} {r : Run cb} {n : ℕ} {code : Int}
    (h : (steps step n r).code = some code) (m : ℕ) : steps step (n + m) r = steps step n r := by
  induction m with
  | zero => rfl
  | succ m ih =>
    rw [← Nat.add_assoc, steps, ih, if_neg (by rw [h]; exact Option.some_ne_none _)]

/-- A run returns only once. -/
lemma steps_unique {step : Run cb → Run cb} {r : Run cb} {n m : ℕ} {code code' : Int}
    (h : (steps step n r).code = some code) (h' : (steps step m r).code = some code') :
    steps step n r = steps step m r := by
  rcases Nat.le_total n m with hle | hle
  · obtain ⟨k, rfl⟩ := Nat.exists_eq_add_of_le hle
    exact (steps_of_code h k).symm
  · obtain ⟨k, rfl⟩ := Nat.exists_eq_add_of_le hle
    exact steps_of_code h' k

/-- The step for a block of data: the run goes on with the rest of the data, unless it was the last block. -/
lemma compressStep_serves (hlib : lib.Works) (hcb : Serves cb) {BlockSize : ℕ}
    (hBS : BlockSize ≤ maxBlockSize) {r : Run cb} {data : List UInt8} (hcode : r.code = none)
    (h : hcb.Holds r.s data) (hpos : 0 < (data.take BlockSize).length) :
    ∃ r' : Run cb, hcb.Holds r'.s (data.drop BlockSize) ∧ r'.code = none ∧
      r'.written = r.written ++ leBytes 4 (lib.block (data.take BlockSize)).2.length ++
        (lib.block (data.take BlockSize)).2 ∧
      compressStep lib BlockSize r =
        if (data.take BlockSize).length < BlockSize then (fullWrite eofMarker r').finish 0 else r' := by
  obtain ⟨hread, hholds⟩ := hcb.fullRead h BlockSize
  have hwritten := written_fullRead BlockSize r
  obtain ⟨-, -, -, hcode', -⟩ := fullRead_log BlockSize r
  have hnonzero : ¬(fullRead (BlockSize : Int).toNat r).1.length = 0 := by
    rw [Int.toNat_natCast, hread]
    exact hpos.ne'
  have hworks : lib.WorksOn (fullRead (BlockSize : Int).toNat r).1 := by
    rw [Int.toNat_natCast, hread]
    exact hlib _ hpos ((List.length_take_le _ _).trans hBS)
  have hstep := compressStep_of_data hnonzero hworks
  rw [Int.toNat_natCast] at hstep
  generalize fullRead BlockSize r = out at hread hholds hwritten hcode' hstep
  rw [hread] at hstep
  let size := leBytes 4 (lib.block (data.take BlockSize)).2.length
  refine ⟨fullWrite (lib.block (data.take BlockSize)).2 (fullWrite size out.2), ?_, ?_, ?_, ?_⟩
  · exact hcb.fullWrite (hcb.fullWrite hholds size) _
  · exact hcode'.trans hcode
  · rw [written_fullWrite, written_fullWrite, hwritten]
  · rw [hstep]
    dsimp only
    simp only [Nat.cast_lt]
    rfl

/-- The compressor, when no call fails. -/
lemma compress_serves (hlib : lib.Works) (hcb : Serves cb) (BlockSize : ℕ) (hBS : BlockSize ≤ maxBlockSize)
    {r : Run cb} {data : List UInt8} (hcode : r.code = none) (h : hcb.Holds r.s data) :
    ∃ n, (steps (compressStep lib BlockSize) n r).code = some 0 ∧
      (steps (compressStep lib BlockSize) n r).written = r.written ++ stream lib BlockSize data := by
  induction hn : data.length using Nat.strong_induction_on generalizing data r with
  | _ k ih =>
    subst hn
    by_cases hnone : (data.take BlockSize).length = 0
    · obtain ⟨hread, -⟩ := hcb.fullRead h BlockSize
      have hwritten := written_fullRead BlockSize r
      have heof : compressStep lib BlockSize r = (fullWrite eofMarker (fullRead BlockSize r).2).finish 0 := by
        unfold compressStep
        rw [Int.toNat_natCast]
        dsimp only
        rw [hread, if_pos hnone]
      refine ⟨1, ?_, ?_⟩
      · rw [steps_succ' hcode, heof]
        rfl
      · rw [steps_succ' hcode, heof, stream, if_pos (by rw [List.length_take] at hnone; omega)]
        exact (written_fullWrite _ _).trans (congrArg (· ++ eofMarker) hwritten)
    · obtain ⟨r', hholds, hcode', hwritten, hstep⟩ :=
        compressStep_serves hlib hcb hBS hcode h (Nat.pos_of_ne_zero hnone)
      rw [List.length_take] at hnone
      rw [stream, if_neg (by omega)]
      by_cases hlast : (data.take BlockSize).length < BlockSize
      · rw [if_pos hlast] at hstep
        dsimp only
        rw [if_pos hlast]
        refine ⟨1, ?_, ?_⟩
        · rw [steps_succ' hcode, hstep]
          rfl
        · rw [steps_succ' hcode, hstep]
          refine (written_fullWrite _ _).trans ?_
          rw [hwritten]
          simp only [List.append_assoc]
      · rw [if_neg hlast] at hstep
        dsimp only
        rw [if_neg hlast]
        obtain ⟨n, hzero, hrest⟩ := ih (data.drop BlockSize).length
          (by rw [List.length_drop]; omega) hcode' hholds rfl
        refine ⟨n + 1, ?_, ?_⟩
        · rw [steps_succ' hcode, hstep]
          exact hzero
        · rw [steps_succ' hcode, hstep, hrest, hwritten]
          simp only [List.append_assoc]

/-- Reading a block writes nothing. -/
lemma written_readBlock (lib : Libbsc) (r : Run cb) :
    (readBlock lib r).2.written = r.written ∧ (readBlock lib r).2.code = r.code := by
  obtain ⟨reads, hlog, hreads, hcode, -⟩ := readsFor_readBlock lib r
  refine ⟨?_, hcode⟩
  have hnone : reads.flatMap Event.bytes = [] := by
    refine List.flatMap_eq_nil_iff.mpr fun e he => ?_
    cases e with
    | read result => rfl
    | write bytes result => exact absurd trivial (hreads _ he)
  rw [Run.written, hlog, List.flatMap_append, hnone, List.append_nil]
  rfl

/-- The decompressor finds the mark at the end. -/
lemma readBlock_eof (lib : Libbsc) (hcb : Serves cb) {r : Run cb} (h : hcb.Holds r.s eofMarker) :
    (readBlock lib r).1 = .eof := by
  obtain ⟨hread, -⟩ := hcb.fullRead h 4
  unfold readBlock
  dsimp only
  generalize fullRead 4 r = first at hread ⊢
  rw [hread]
  rfl

/-- A block whose header says its sizes. -/
lemma openBlock_of_works {input out : List UInt8}
    (hinfo : lib.blockInfo (out.take headerSize) = (0, (out.length : Int), (input.length : Int)))
    (hdecompress : lib.decompress out input.length = (0, input)) :
    openBlock lib out out.length = .data input := by
  simp [openBlock, hinfo, hdecompress]

/-- The decompressor finds a block. -/
lemma readBlock_data (hcb : Serves cb) {input rest : List UInt8} (hworks : lib.WorksOn input) {r : Run cb}
    (h : hcb.Holds r.s (leBytes 4 (lib.block input).2.length ++ (lib.block input).2 ++ rest)) :
    (readBlock lib r).1 = .data input ∧ hcb.Holds (readBlock lib r).2.s rest := by
  have hinfo := hworks.blockInfo
  have hdecompress := hworks.decompress
  have hlow := hworks.headerSize_le
  have hlt := hworks.size_lt
  generalize (lib.block input).2 = out at h hinfo hdecompress hlow hlt
  obtain ⟨hword, hafter⟩ := hcb.fullRead h 4
  rw [List.append_assoc] at hword hafter
  rw [List.take_left' (length_leBytes 4 _)] at hword
  rw [List.drop_left' (length_leBytes 4 _)] at hafter
  have hvalue : leValue (leBytes 4 out.length) = out.length := leValue_leBytes_of_lt (by omega)
  unfold readBlock
  dsimp only
  generalize fullRead 4 r = first at hword hafter ⊢
  rw [hword, hvalue, int32_of_mem (by omega) (by omega), Int.toNat_natCast, if_neg (by simp),
    if_neg (by unfold headerSize at hlow; omega), if_neg (by omega)]
  obtain ⟨hblock, hrest⟩ := hcb.fullRead hafter out.length
  rw [List.take_left' rfl] at hblock
  rw [List.drop_left' rfl] at hrest
  generalize fullRead out.length first.2 = second at hblock hrest ⊢
  rw [hblock, if_neg (by simp)]
  refine ⟨?_, hrest⟩
  exact openBlock_of_works hinfo hdecompress

/-- The decompressor, when no call fails. -/
lemma decompress_serves (hlib : lib.Works) (hcb : Serves cb) (BlockSize : ℕ) (hBS : BlockSize ≤ maxBlockSize)
    (hpos : 0 < BlockSize) {r : Run cb} {data : List UInt8} (hcode : r.code = none)
    (h : hcb.Holds r.s (stream lib BlockSize data)) :
    ∃ n, (steps (decompressStep lib) n r).code = some 0 ∧
      (steps (decompressStep lib) n r).written = r.written ++ data := by
  induction hn : data.length using Nat.strong_induction_on generalizing data r with
  | _ k ih =>
    subst hn
    obtain ⟨hwritten, hcode'⟩ := written_readBlock lib r
    have heof : hcb.Holds r.s eofMarker → decompressStep lib r = (readBlock lib r).2.finish 0 := by
      intro hmark
      have hblock := readBlock_eof lib hcb hmark
      unfold decompressStep
      generalize readBlock lib r = out at hblock
      obtain ⟨block, r'⟩ := out
      obtain rfl := hblock
      rfl
    rw [stream] at h
    by_cases hnone : data.length = 0
    · rw [if_pos (.inl hnone)] at h
      refine ⟨1, ?_, ?_⟩
      · rw [steps_succ' hcode, heof h]
        rfl
      · rw [steps_succ' hcode, heof h, List.eq_nil_of_length_eq_zero hnone, List.append_nil]
        exact hwritten
    · rw [if_neg (by omega)] at h
      have hlength : (data.take BlockSize).length = min BlockSize data.length := List.length_take
      obtain ⟨hblock, hholds⟩ := readBlock_data hcb (hlib (data.take BlockSize) (by omega) (by omega)) h
      have hstep : decompressStep lib r = fullWrite (data.take BlockSize) (readBlock lib r).2 := by
        unfold decompressStep
        generalize readBlock lib r = out at hblock
        obtain ⟨block, r'⟩ := out
        obtain rfl := hblock
        rfl
      have hrest : hcb.Holds (fullWrite (data.take BlockSize) (readBlock lib r).2).s
          (stream lib BlockSize (data.drop BlockSize)) := by
        refine hcb.fullWrite ?_ _
        by_cases hlast : (data.take BlockSize).length < BlockSize
        · rw [if_pos hlast] at hholds
          rw [stream, if_pos (by rw [List.length_drop]; omega)]
          exact hholds
        · rw [if_neg hlast] at hholds
          exact hholds
      obtain ⟨n, hzero, hall⟩ := ih (data.drop BlockSize).length (by rw [List.length_drop]; omega)
        (r := fullWrite (data.take BlockSize) (readBlock lib r).2) (hcode'.trans hcode) hrest rfl
      refine ⟨n + 1, ?_, ?_⟩
      · rw [steps_succ' hcode, hstep]
        exact hzero
      · rw [steps_succ' hcode, hstep, hall, written_fullWrite, hwritten, List.append_assoc,
          List.take_append_drop]

/-- With a block size of zero the stream is the mark at the end. -/
lemma stream_zero (data : List UInt8) : stream lib 0 data = eofMarker := by
  rw [stream, if_pos (.inr rfl)]

/-! ## The round trip -/

/-- Whenever no callback fails, the compressor returns, and the decompressor writes the data again, unless there is
no memory for the blocks. -/
def RoundTrips (lib : Libbsc) (BlockSize : BitVec 32) (data : List UInt8) : Prop :=
  ∀ (cb cb' : Callback) (hcb : Serves cb) (hcb' : Serves cb') (s : cb.State), hcb.Holds s data →
    ∃ n code, (compressRuns lib BlockSize s n).code = some code ∧
      (code = ErrCode.notEnoughMemory.toInt ∨
        code = 0 ∧ ∀ s' : cb'.State, hcb'.Holds s' (compressRuns lib BlockSize s n).written →
          ∃ m, (decompressRuns lib s' m).code = some 0 ∧ (decompressRuns lib s' m).written = data)

/-- A block size that is not negative, as a number. -/
lemma compressRuns_natCast {BlockSize : BitVec 32} {s : cb.State} (h : 0 ≤ BlockSize.toInt) (n : ℕ) :
    compressRuns lib BlockSize s n =
      steps (compressStep lib BlockSize.toInt.toNat) n (compressStart BlockSize.toInt s) := by
  rw [compressRuns, Int.toNat_of_nonneg h]

/-- Data of one mark are decompressed to nothing. -/
lemma decompress_eofMarker (hlib : lib.Works) (hcb : Serves cb) {s : cb.State} (h : hcb.Holds s eofMarker) :
    ∃ m, (decompressRuns lib s m).code = some 0 ∧ (decompressRuns lib s m).written = [] := by
  refine decompress_serves hlib hcb 1 (by decide) one_pos rfl ?_
  rw [stream, if_pos (.inl rfl)]
  exact h

/-- With a block size of zero the compressor throws the data away. -/
lemma eq_nil_of_roundTrips (hlib : lib.Works) {data : List UInt8} (h : RoundTrips lib 0 data) : data = [] := by
  let s : listCallback.State := data
  obtain ⟨m, hzero, hwritten⟩ := compress_serves hlib listServes 0 (r := compressStart 0 s)
    (Nat.zero_le _) rfl rfl
  have hsome : (compressRuns lib 0 s m).code = some 0 := hzero
  obtain ⟨n, code, hcode, hcase⟩ := h _ _ listServes listServes s rfl
  have hsame : compressRuns lib 0 s n = compressRuns lib 0 s m := steps_unique hcode hsome
  rcases hcase with rfl | ⟨rfl, hback⟩
  · rw [hsame] at hcode
    cases hcode.symm.trans hsome
  · have hmark : (compressRuns lib 0 s n).written = eofMarker := by
      rw [hsame]
      exact hwritten.trans (congrArg ([] ++ ·) (stream_zero data))
    let s' : listCallback.State := eofMarker
    obtain ⟨k, hend, hdata⟩ := hback s' hmark.symm
    obtain ⟨k', hend', hnothing⟩ := decompress_eofMarker hlib listServes (s := s') rfl
    rw [← hdata, ← hnothing]
    exact congrArg Run.written (steps_unique hend hend')

/-- **The round trip fails only with a block size of zero.** -/
theorem roundTrips_iff (hlib : lib.Works) (BlockSize : BitVec 32) (data : List UInt8) :
    RoundTrips lib BlockSize data ↔ (BlockSize ≠ 0 ∨ data = []) := by
  constructor
  · intro h
    by_cases hzero : BlockSize = 0
    · subst hzero
      exact .inr (eq_nil_of_roundTrips hlib h)
    · exact .inl hzero
  · intro h cb cb' hcb hcb' s hs
    by_cases hstart : (compressStart BlockSize.toInt s : Run cb).code = none
    · obtain ⟨h₀, hle⟩ := compressStart_code.mp hstart
      obtain ⟨n, hzero, hwritten⟩ := compress_serves hlib hcb BlockSize.toInt.toNat (by omega)
        hstart hs
      rw [← compressRuns_natCast h₀] at hzero hwritten
      refine ⟨n, 0, hzero, .inr ⟨rfl, fun s' hs' => ?_⟩⟩
      rw [hwritten] at hs'
      rcases h with hne | rfl
      · have hpos : 0 < BlockSize.toInt.toNat := by
          have hne' : BlockSize.toInt ≠ 0 := fun heq => hne (BitVec.toInt_inj.mp heq)
          omega
        exact decompress_serves hlib hcb' _ (by omega) hpos rfl hs'
      · rw [stream, if_pos (.inl rfl)] at hs'
        exact decompress_eofMarker hlib hcb' hs'
    · refine ⟨0, ErrCode.notEnoughMemory.toInt, ?_, .inl rfl⟩
      unfold compressRuns steps
      unfold compressStart at hstart ⊢
      dsimp only at hstart ⊢
      split_ifs at hstart ⊢ with hlarge
      · rfl
      · exact absurd rfl hstart

/-! ## All that is asked of the wrapper -/

/-- **The wrapper reports failures and restores its data** exactly in these runs: no call of the compressor
fails; what the decompressor reads after a write that has failed is refused; and the block size is not zero,
unless there are no data. -/
theorem bsc_reports_iff (hlib : lib.Works) (BlockSize : BitVec 32) (s : cb.State) (s' : cb'.State)
    (data : List UInt8) :
    (Reports (compressRuns lib BlockSize s) ∧ Reports (decompressRuns lib s') ∧
        RoundTrips lib BlockSize data) ↔
      (∀ n, ¬AnyFailed (compressRuns lib BlockSize s n).log) ∧ RefusedAfterFailure lib s' ∧
        (BlockSize ≠ 0 ∨ data = []) := by
  rw [compress_reports_iff hlib, decompress_reports_iff, roundTrips_iff hlib]

/-! ## Stored blocks -/

/-- One byte in `bsc_adler32`. -/
def adlerStep (sums : ℕ × ℕ) (byte : UInt8) : ℕ × ℕ :=
  ((sums.1 + byte.toNat) % 65521, (sums.2 + (sums.1 + byte.toNat)) % 65521)

/-- `bsc_adler32`. -/
def adler32 (bytes : List UInt8) : ℕ :=
  (bytes.foldl adlerStep (1, 0)).1 + (bytes.foldl adlerStep (1, 0)).2 * 2 ^ 16

/-- The header of a stored block, without its own sum. -/
def storedHeader (input : List UInt8) : List UInt8 :=
  leBytes 4 (input.length + headerSize) ++ leBytes 4 input.length ++ leBytes 4 0 ++ leBytes 4 0 ++
    leBytes 4 (adler32 input) ++ leBytes 4 (adler32 input)

/-- `bsc_store`. -/
def bscStore (input : List UInt8) : Int × List UInt8 :=
  (input.length + headerSize, storedHeader input ++ leBytes 4 (adler32 (storedHeader input)) ++ input)

/-- `bsc_block_info`, with no blocks but stored ones. -/
def bscBlockInfo (blockHeader : List UInt8) : Int × Int × Int :=
  if blockHeader.length < headerSize then (-5, 0, 0)
  else if leValue ((blockHeader.drop 24).take 4) ≠ adler32 (blockHeader.take 24) ∨
      leValue ((blockHeader.drop 8).take 4) ≠ 0 then (-6, 0, 0)
  else (0, int32 (leValue (blockHeader.take 4)), int32 (leValue ((blockHeader.drop 4).take 4)))

/-- `bsc_decompress`, with no blocks but stored ones. -/
def bscDecompress (input : List UInt8) (outputSize : Int) : Int × List UInt8 :=
  let (info, blockSize, dataSize) := bscBlockInfo input
  if info ≠ 0 then (info, [])
  else if input.length < blockSize ∨ outputSize < dataSize then (-5, [])
  else if leValue ((input.drop 20).take 4) ≠ adler32 ((input.drop headerSize).take (blockSize - headerSize).toNat)
    then (-6, [])
  else (0, (input.drop headerSize).take dataSize.toNat)

/-- libbsc on data that it does not compress. -/
def storedLib : Libbsc where
  compress := bscStore
  store := bscStore
  blockInfo := bscBlockInfo
  decompress := bscDecompress

/-- The sums stay below the prime. -/
lemma foldl_adlerStep_lt (bytes : List UInt8) (sums : ℕ × ℕ) (h : sums.1 < 65521 ∧ sums.2 < 65521) :
    (bytes.foldl adlerStep sums).1 < 65521 ∧ (bytes.foldl adlerStep sums).2 < 65521 := by
  induction bytes generalizing sums with
  | nil => exact h
  | cons byte bytes ih => exact ih _ ⟨Nat.mod_lt _ (by decide), Nat.mod_lt _ (by decide)⟩

/-- The sum is a word. -/
lemma adler32_lt (bytes : List UInt8) : adler32 bytes < 256 ^ 4 := by
  obtain ⟨h₁, h₂⟩ := foldl_adlerStep_lt bytes (1, 0) (by decide)
  unfold adler32
  omega

/-- The header of a stored block has 24 bytes without its sum. -/
lemma length_storedHeader (input : List UInt8) : (storedHeader input).length = 24 := by
  simp [storedHeader]

/-- The word behind some bytes. -/
lemma leValue_word (before : List UInt8) {rest : List UInt8} {at' v : ℕ} (hlength : before.length = at') (hv : v < 256 ^ 4) :
    leValue (((before ++ (leBytes 4 v ++ rest)).drop at').take 4) = v := by
  rw [List.drop_left' hlength, List.take_left' (length_leBytes 4 v), leValue_leBytes_of_lt hv]

/-- What the header of a stored block says. -/
lemma bscBlockInfo_header {input : List UInt8} (h : input.length ≤ maxBlockSize) (rest : List UInt8) :
    bscBlockInfo (storedHeader input ++ (leBytes 4 (adler32 (storedHeader input)) ++ rest)) =
      (0, (input.length + headerSize : Int), (input.length : Int)) := by
  have hheader := length_storedHeader input
  unfold maxBlockSize headerSize at h
  unfold bscBlockInfo
  rw [if_neg (by
    rw [List.length_append, List.length_append, hheader, length_leBytes]
    unfold headerSize
    omega)]
  rw [leValue_word _ hheader (adler32_lt _), List.take_left' hheader]
  generalize leBytes 4 (adler32 (storedHeader input)) ++ rest = tail
  have hblock : leValue ((storedHeader input ++ tail).take 4) = input.length + headerSize := by
    unfold storedHeader
    simp only [List.append_assoc]
    exact leValue_word [] rfl (by unfold headerSize; omega)
  have hdata : leValue (((storedHeader input ++ tail).drop 4).take 4) = input.length := by
    unfold storedHeader
    simp only [List.append_assoc]
    exact leValue_word _ (length_leBytes 4 _) (by omega)
  have hmode : leValue (((storedHeader input ++ tail).drop 8).take 4) = 0 := by
    unfold storedHeader
    rw [List.append_assoc (leBytes 4 _ ++ leBytes 4 _)]
    simp only [List.append_assoc (leBytes 4 _ ++ leBytes 4 _)]
    exact leValue_word _ (by simp) (by decide)
  rw [hblock, hdata, hmode, if_neg (by simp), int32_of_mem (by omega) (by unfold headerSize; omega),
    int32_of_mem (by omega) (by omega)]
  rfl

/-- The parts of a stored block. -/
lemma bscStore_eq (input : List UInt8) : (bscStore input).2 =
    storedHeader input ++ (leBytes 4 (adler32 (storedHeader input)) ++ input) := List.append_assoc _ _ _

/-- A stored block is its header and the data. -/
lemma length_bscStore (input : List UInt8) : (bscStore input).2.length = input.length + headerSize := by
  rw [bscStore_eq, List.length_append, List.length_append, length_storedHeader, length_leBytes]
  unfold headerSize
  omega

/-- The header and its sum take up the header's size. -/
lemma length_header (input : List UInt8) :
    (storedHeader input ++ leBytes 4 (adler32 (storedHeader input))).length = headerSize := by
  rw [List.length_append, length_storedHeader, length_leBytes]
  rfl

/-- The data of a stored block. -/
lemma drop_bscStore (input : List UInt8) : (bscStore input).2.drop headerSize = input :=
  List.drop_left' (length_header input)

/-- The sum of the data in a stored block. -/
lemma sum_bscStore (input : List UInt8) : leValue (((bscStore input).2.drop 20).take 4) = adler32 input := by
  rw [bscStore_eq]
  unfold storedHeader
  rw [List.append_assoc (leBytes 4 _ ++ leBytes 4 _ ++ leBytes 4 _ ++ leBytes 4 _ ++ leBytes 4 _)]
  exact leValue_word _ (by simp) (adler32_lt input)

/-- A stored block can be decompressed. -/
lemma bscDecompress_bscStore {input : List UInt8} (h : input.length ≤ maxBlockSize) :
    bscDecompress (bscStore input).2 input.length = (0, input) := by
  have hinfo := bscBlockInfo_header h input
  have hlength := length_bscStore input
  have hdata := drop_bscStore input
  have hsum := sum_bscStore input
  rw [← bscStore_eq] at hinfo
  generalize (bscStore input).2 = out at hinfo hlength hdata hsum ⊢
  unfold bscDecompress
  simp [hinfo, hlength, hdata, hsum]

/-- The calls of libbsc succeed where nothing is compressed. -/
lemma storedLib_works : storedLib.Works := by
  intro input hpos hle
  have hblock : storedLib.block input = bscStore input := ite_self _
  have hlength := length_bscStore input
  refine ⟨?_, ?_, ?_, ?_, ?_⟩
  · rw [hblock, hlength]
    rfl
  · rw [hblock, hlength]
    omega
  · rw [hblock, hlength]
    unfold maxBlockSize at hle
    omega
  · have htake : (bscStore input).2.take headerSize =
        storedHeader input ++ (leBytes 4 (adler32 (storedHeader input)) ++ []) := by
      rw [List.append_nil]
      exact List.take_left' (length_header input)
    rw [hblock, hlength, htake]
    exact bscBlockInfo_header hle []
  · rw [hblock]
    exact bscDecompress_bscStore hle

/-! ## A read that fails -/

/-- A callback whose reads fail. -/
def brokenCallback : Callback where
  State := Unit
  read _ _ := (.error (-1), ())
  write _ bytes := (bytes.length, ())
  read_neg _ _ _ _ h := by
    obtain ⟨h, -⟩ := Prod.mk.inj h
    obtain rfl := Except.error.inj h
    decide
  read_le _ _ _ _ h := by cases h

/-- The state of this callback. -/
def broken : brokenCallback.State := ()

/-- A first read that fails is taken for the end of the data. -/
lemma compressRuns_broken : compressRuns storedLib 1 broken 1 =
    ⟨(), [.read (-1), .write eofMarker 4], some 0⟩ := by
  have hread : fullRead (1 : Int).toNat (compressStart 1 broken) =
      ([], ⟨(), [.read (-1)], none⟩) := by
    rw [fullRead]
    rfl
  have hstep : compressStep storedLib 1 (compressStart 1 broken) =
      ⟨(), [.read (-1), .write eofMarker 4], some 0⟩ := by
    unfold compressStep
    rw [hread]
    rfl
  exact hstep

/-- The read of this run has failed. -/
lemma anyFailed_broken : AnyFailed (compressRuns storedLib 1 broken 1).log := by
  rw [compressRuns_broken]
  exact ⟨.read (-1), List.mem_cons_self, (by decide : (-1 : Int) < 0)⟩

/-- With the block size one and a first read that fails, the compressor writes the mark at the end of the data
and returns success. -/
theorem not_reports : storedLib.Works ∧
    (compressRuns storedLib 1 broken 1).log = [.read (-1), .write [0, 0, 0, 0] 4] ∧
    (compressRuns storedLib 1 broken 1).code = some 0 ∧
    ¬Reports (compressRuns storedLib 1 broken) := by
  refine ⟨storedLib_works, ?_, ?_, fun hreports => ?_⟩
  · rw [compressRuns_broken]
    rfl
  · rw [compressRuns_broken]
  · have hneg := (hreports 1).2 0 (by rw [compressRuns_broken]) anyFailed_broken
    exact absurd hneg (lt_irrefl 0)

/-- With the callback whose reads fail, not all that is asked of the wrapper holds. -/
theorem bsc_reports_iff_broken : storedLib.Works ∧
    ¬(Reports (compressRuns storedLib 1 broken) ∧
      Reports (decompressRuns storedLib broken) ∧ RoundTrips storedLib 1 [5]) := by
  refine ⟨storedLib_works, fun h => ?_⟩
  obtain ⟨hquiet, -, -⟩ := (bsc_reports_iff storedLib_works 1 _ _ [5]).mp h
  exact hquiet 1 anyFailed_broken

end DArc.BSC
