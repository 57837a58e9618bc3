import DArc.BSC.Callback

/-!
# The streams of the BSC wrapper

`bsc_stream_compress` compresses one block after another and writes the size and the bytes of each; a size of
zero marks the end of the stream.  `full_read` does not tell a read that fails from the end of the data, and the
results of writes are thrown away.  So the compressor never reports a call of the callback that has failed, and
the decompressor reports reads that have failed, but no writes.

### Outline

* `Libbsc`, `Libbsc.Works`: the library, and what is relied on;
* `compressStep`, `compressRuns`: the compressor, block after block;
* `readBlock`, `decompressStep`, `decompressRuns`: the decompressor.

### Main results

* `compress_reports_iff`: the compressor reports failures only where there are none;
* `decompress_reports_iff`: the decompressor reports them where, after a write that has failed, the next block
  is refused.
-/

namespace DArc.BSC

/-- `LIBBSC_HEADER_SIZE`. -/
def headerSize : ℕ := 28

/-- The functions of libbsc, with the parameters of the method. -/
structure Libbsc where
  /-- `bsc_compress`: an error, or the size of the block; and the output. -/
  compress : List UInt8 → Int × List UInt8
  /-- `bsc_store`. -/
  store : List UInt8 → Int × List UInt8
  /-- `bsc_block_info`: an error, `blockSize` and `dataSize`. -/
  blockInfo : List UInt8 → Int × Int × Int
  /-- `bsc_decompress`: an error, and the output. -/
  decompress : List UInt8 → Int → Int × List UInt8

/-- The compressed block, stored where it cannot be compressed. -/
def Libbsc.block (lib : Libbsc) (input : List UInt8) : Int × List UInt8 :=
  if (lib.compress input).1 < 0 then lib.store input else lib.compress input

/-- The calls of libbsc for a block succeed: the compressed block has a header, which says its sizes, and it is
decompressed to its data. -/
structure Libbsc.WorksOn (lib : Libbsc) (input : List UInt8) : Prop where
  size_eq : (lib.block input).1 = (lib.block input).2.length
  headerSize_le : headerSize ≤ (lib.block input).2.length
  size_lt : (lib.block input).2.length < 2 ^ 31
  blockInfo : lib.blockInfo ((lib.block input).2.take headerSize) =
    (0, ((lib.block input).2.length : Int), (input.length : Int))
  decompress : lib.decompress (lib.block input).2 input.length = (0, input)

/-- The largest block for which the output buffer has a size. -/
def maxBlockSize : ℕ := 2 ^ 31 - headerSize - 1024 - 1

/-- The calls of libbsc succeed. -/
def Libbsc.Works (lib : Libbsc) : Prop :=
  ∀ input, 0 < input.length → input.length ≤ maxBlockSize → lib.WorksOn input

variable {cb : Callback} {lib : Libbsc}

/-! ## Compression -/

/-- The mark at the end of the stream. -/
def eofMarker : List UInt8 := leBytes 4 0

variable (lib) in
/-- One block in `bsc_stream_compress`. -/
def compressStep (BlockSize : Int) (r : Run cb) : Run cb :=
  let inBuf := (fullRead BlockSize.toNat r).1
  let r := (fullRead BlockSize.toNat r).2
  if inBuf.length = 0 then (fullWrite eofMarker r).finish 0
  else
    let compressed := (lib.block inBuf).1
    let outBuf := (lib.block inBuf).2
    if compressed < 0 then r.finish ErrCode.general.toInt
    else
      let r := fullWrite (leBytes 4 (uint32 compressed)) r
      let r := fullWrite (outBuf.take compressed.toNat) r
      if inBuf.length < BlockSize then (fullWrite eofMarker r).finish 0 else r

/-- The start of `bsc_stream_compress`: a buffer whose size is negative, or gets so when the header is added,
cannot be allocated. -/
def compressStart (BlockSize : Int) (s : cb.State) : Run cb where
  s := s
  log := []
  code :=
    if BlockSize < 0 ∨ int32 (BlockSize + headerSize + 1024) < 0 then some ErrCode.notEnoughMemory.toInt
    else none

variable (lib) in
/-- `bsc_stream_compress` after some blocks; the block size of the method is passed as an `int`. -/
def compressRuns (BlockSize : BitVec 32) (s : cb.State) (n : ℕ) : Run cb :=
  steps (compressStep lib BlockSize.toInt) n (compressStart BlockSize.toInt s)

/-! ## Decompression -/

/-- What the decompressor finds in its input. -/
inductive Block
  | eof
  | refused
  | data (bytes : List UInt8)

variable (lib) in
/-- The block that the decompressor finds in the `compressed` bytes of `inBuf`. -/
def openBlock (inBuf : List UInt8) (compressed : Int) : Block :=
  let (err, blockSize, dataSize) := lib.blockInfo (inBuf.take headerSize)
  if err ≠ 0 ∨ blockSize ≠ compressed then .refused
  else
    let (err, outBuf) := lib.decompress inBuf dataSize
    if err ≠ 0 then .refused else .data (outBuf.take dataSize.toNat)

variable (lib) in
/-- The loop of `bsc_stream_decompress` up to the write. -/
def readBlock (r : Run cb) : Block × Run cb :=
  let word := (fullRead 4 r).1
  let r := (fullRead 4 r).2
  if word.length ≠ 4 then (.refused, r)
  else
    let compressed := int32 (leValue word)
    if compressed = 0 then (.eof, r)
    else if compressed < headerSize then (.refused, r)
    else
      let inBuf := (fullRead compressed.toNat r).1
      let r := (fullRead compressed.toNat r).2
      if inBuf.length ≠ compressed.toNat then (.refused, r) else (openBlock lib inBuf compressed, r)

variable (lib) in
/-- One block in `bsc_stream_decompress`. -/
def decompressStep (r : Run cb) : Run cb :=
  match readBlock lib r with
  | (.eof, r) => r.finish 0
  | (.refused, r) => r.finish ErrCode.badCompressedData.toInt
  | (.data bytes, r) => fullWrite bytes r

/-- The start of `bsc_stream_decompress`. -/
def decompressStart (s : cb.State) : Run cb where
  s := s
  log := []
  code := none

variable (lib) in
/-- `bsc_stream_decompress` after some blocks. -/
def decompressRuns (s : cb.State) (n : ℕ) : Run cb := steps (decompressStep lib) n (decompressStart s)

/-! ## What the compressor reports -/

/-- The size of a block fits into a word. -/
lemma uint32_size {input : List UInt8} (h : lib.WorksOn input) :
    uint32 (lib.block input).1 = (lib.block input).2.length := by
  have hlt := h.size_lt
  rw [h.size_eq]
  exact uint32_of_lt (by omega)

/-- With a block of data the compressor writes its size and its bytes, and the mark where it was the last
one. -/
lemma compressStep_of_data {BlockSize : Int} {r : Run cb}
    (hpos : ¬(fullRead BlockSize.toNat r).1.length = 0)
    (hworks : lib.WorksOn (fullRead BlockSize.toNat r).1) :
    compressStep lib BlockSize r =
      let inBuf := (fullRead BlockSize.toNat r).1
      let r := fullWrite (leBytes 4 (lib.block inBuf).2.length) (fullRead BlockSize.toNat r).2
      let r := fullWrite (lib.block inBuf).2 r
      if inBuf.length < BlockSize then (fullWrite eofMarker r).finish 0 else r := by
  unfold compressStep
  dsimp only
  rw [if_neg hpos, if_neg (by rw [hworks.size_eq]; omega), uint32_size hworks, hworks.size_eq,
    Int.toNat_natCast, List.take_length]

/-- The compressor runs with block sizes for which the output buffer has a size. -/
lemma compressStart_code {BlockSize : BitVec 32} {s : cb.State} :
    (compressStart BlockSize.toInt s).code = none ↔ 0 ≤ BlockSize.toInt ∧ BlockSize.toInt ≤ maxBlockSize := by
  have hlt := BlockSize.toInt_lt
  have hmem : 0 ≤ BlockSize.toInt → (int32 (BlockSize.toInt + headerSize + 1024) < 0 ↔
      maxBlockSize < BlockSize.toInt) := by
    intro hnonneg
    unfold headerSize maxBlockSize headerSize
    norm_num at hlt ⊢
    by_cases hle : BlockSize.toInt + 28 + 1024 < 2 ^ 31
    · rw [int32_of_mem (by omega) hle]
      omega
    · rw [int32_of_ge (by omega) (by omega)]
      omega
  unfold compressStart
  dsimp only
  split_ifs with h
  · refine iff_of_false (by simp) ?_
    rintro ⟨hnonneg, hle⟩
    rcases h with h | h
    · omega
    · exact absurd ((hmem hnonneg).mp h) (not_lt.mpr hle)
  · refine iff_of_true rfl ?_
    obtain ⟨h₁, h₂⟩ := not_or.mp h
    have hnonneg : 0 ≤ BlockSize.toInt := not_lt.mp h₁
    exact ⟨hnonneg, not_lt.mp fun hlarge => h₂ ((hmem hnonneg).mpr hlarge)⟩

/-- The record goes on with some calls, the last of which is a write. -/
def EndsWithWrite (log log' : List Event) : Prop := ∃ pre bytes k, log' = log ++ pre ++ [.write bytes k]

/-- A full write adds one write to the record. -/
lemma endsWithWrite_fullWrite {log pre : List Event} {r : Run cb} (h : r.log = log ++ pre)
    (bytes : List UInt8) : EndsWithWrite log (fullWrite bytes r).log :=
  ⟨pre, bytes, (cb.write r.s bytes).1, congrArg (· ++ [Event.write bytes (cb.write r.s bytes).1]) h⟩

/-- A write after a write. -/
lemma EndsWithWrite.fullWrite {log : List Event} {r : Run cb} (h : EndsWithWrite log r.log)
    (bytes : List UInt8) : EndsWithWrite log (fullWrite bytes r).log := by
  obtain ⟨pre, bytes', k, hlog⟩ := h
  rw [List.append_assoc] at hlog
  exact endsWithWrite_fullWrite hlog bytes

/-- Every step of the compressor ends with a write, and it never returns an error. -/
lemma compressStep_log (hlib : lib.Works) {BlockSize : Int} (h₀ : 0 ≤ BlockSize) (h : BlockSize ≤ maxBlockSize)
    (r : Run cb) (hcode : r.code = none) :
    EndsWithWrite r.log (compressStep lib BlockSize r).log ∧
      ((compressStep lib BlockSize r).code = none ∨ (compressStep lib BlockSize r).code = some 0) := by
  obtain ⟨reads, hlog, -, hcode', -⟩ := fullRead_log BlockSize.toNat r
  rw [hcode] at hcode'
  by_cases hnone : (fullRead BlockSize.toNat r).1.length = 0
  · have heof : compressStep lib BlockSize r =
        (fullWrite eofMarker (fullRead BlockSize.toNat r).2).finish 0 := by
      unfold compressStep
      exact if_pos hnone
    rw [heof]
    exact ⟨endsWithWrite_fullWrite hlog eofMarker, .inr rfl⟩
  · have hle := length_fullRead_le BlockSize.toNat r
    rw [compressStep_of_data hnone (hlib _ (Nat.pos_of_ne_zero hnone) (by omega))]
    dsimp only
    split_ifs
    · exact ⟨((endsWithWrite_fullWrite hlog _).fullWrite _).fullWrite _, .inr rfl⟩
    · exact ⟨(endsWithWrite_fullWrite hlog _).fullWrite _, .inl hcode'⟩

/-- Where no call has failed, there is nothing to report. -/
lemma reports_of_not_failed {runs : ℕ → Run cb} (h : ∀ n, ¬AnyFailed (runs n).log) : Reports runs := by
  refine fun n => ⟨fun before e after hlog hfailed => ?_, fun code _ hfailed => absurd hfailed (h n)⟩
  exact absurd ⟨e, hlog ▸ List.mem_append_right _ List.mem_cons_self, hfailed⟩ (h n)

/-- The compressor returns an error only when it has made no call. -/
lemma compressRuns_code (hlib : lib.Works) (BlockSize : BitVec 32) (s : cb.State) (n : ℕ) :
    ((compressRuns lib BlockSize s n).code = none → 0 ≤ BlockSize.toInt ∧ BlockSize.toInt ≤ maxBlockSize) ∧
      ∀ code, (compressRuns lib BlockSize s n).code = some code →
        code = 0 ∨ (compressRuns lib BlockSize s n).log = [] := by
  induction n with
  | zero => exact ⟨compressStart_code.mp, fun _ _ => .inr rfl⟩
  | succ n ih =>
    have hstep : compressRuns lib BlockSize s (n + 1) =
        if (compressRuns lib BlockSize s n).code = none then
          compressStep lib BlockSize.toInt (compressRuns lib BlockSize s n)
        else compressRuns lib BlockSize s n := rfl
    rw [hstep]
    by_cases hrunning : (compressRuns lib BlockSize s n).code = none
    · rw [if_pos hrunning]
      obtain ⟨h₀, hle⟩ := ih.1 hrunning
      obtain ⟨-, hcode⟩ := compressStep_log hlib h₀ hle _ hrunning
      refine ⟨fun _ => ⟨h₀, hle⟩, fun code hsome => .inl ?_⟩
      rcases hcode with hnone | hzero
      · cases hnone.symm.trans hsome
      · exact Option.some.inj (hsome.symm.trans hzero)
    · rw [if_neg hrunning]
      exact ih

/-- **What the compressor reports**: it returns a negative code, and writes nothing more, after a call that has
failed, if and only if no call fails. -/
theorem compress_reports_iff (hlib : lib.Works) (BlockSize : BitVec 32) (s : cb.State) :
    Reports (compressRuns lib BlockSize s) ↔ ∀ n, ¬AnyFailed (compressRuns lib BlockSize s n).log := by
  refine ⟨fun hreports n hfailed => ?_, reports_of_not_failed⟩
  obtain ⟨hrun, hcode⟩ := compressRuns_code hlib BlockSize s n
  cases hsome : (compressRuns lib BlockSize s n).code with
  | some code =>
    have hneg := (hreports n).2 code hsome hfailed
    rcases hcode code hsome with rfl | hnil
    · exact absurd hneg (lt_irrefl 0)
    · obtain ⟨e, he, -⟩ := hfailed
      rw [hnil] at he
      cases he
  | none =>
    obtain ⟨h₀, hle⟩ := hrun hsome
    obtain ⟨⟨pre, bytes, k, hlog⟩, -⟩ := compressStep_log hlib h₀ hle _ hsome
    have hnext : compressRuns lib BlockSize s (n + 1) =
        compressStep lib BlockSize.toInt (compressRuns lib BlockSize s n) := if_pos hsome
    have hquiet := (hreports (n + 1)).1
    rw [hnext, hlog] at hquiet
    exact not_quiet_of_write hfailed hquiet

/-! ## What the decompressor reports -/

/-- What reading a block adds to the record: reads, none of which has failed unless the block is refused. -/
def ReadsFor (r : Run cb) (out : Block × Run cb) : Prop :=
  ∃ reads, out.2.log = r.log ++ reads ∧ (∀ e ∈ reads, ¬e.IsWrite) ∧ out.2.code = r.code ∧
    (out.1 ≠ .refused → ¬AnyFailed reads)

/-- A call in one of two records. -/
lemma anyFailed_append {log log' : List Event} : AnyFailed (log ++ log') ↔ AnyFailed log ∨ AnyFailed log' := by
  unfold AnyFailed
  simp only [List.mem_append, or_and_right, exists_or]

/-- Reads behind reads. -/
lemma ReadsFor.trans {r r₁ r₂ : Run cb} {block block' : Block} (h : ReadsFor r (block, r₁))
    (hblock : block ≠ .refused) (h' : ReadsFor r₁ (block', r₂)) : ReadsFor r (block', r₂) := by
  obtain ⟨reads, hlog, hreads, hcode, hfull⟩ := h
  obtain ⟨reads', hlog', hreads', hcode', hfull'⟩ := h'
  refine ⟨reads ++ reads', ?_, fun e he => ?_, hcode'.trans hcode, fun hne => ?_⟩
  · rw [hlog', hlog, List.append_assoc]
  · rcases List.mem_append.mp he with he | he
    · exact hreads e he
    · exact hreads' e he
  · rw [anyFailed_append, not_or]
    exact ⟨hfull hblock, hfull' hne⟩

/-- A full read, after which a block is refused, or which has got what it asks for. -/
lemma readsFor_fullRead (n : ℕ) (r : Run cb) (block : Block)
    (h : block ≠ .refused → (fullRead n r).1.length = n) : ReadsFor r (block, (fullRead n r).2) := by
  obtain ⟨reads, hlog, hreads, hcode, hfull⟩ := fullRead_log n r
  exact ⟨reads, hlog, hreads, hcode, fun hne => hfull (h hne)⟩

/-- Reading a block makes reads. -/
lemma readsFor_readBlock (lib : Libbsc) (r : Run cb) : ReadsFor r (readBlock lib r) := by
  have hfirst := readsFor_fullRead 4 r
  unfold readBlock
  dsimp only
  generalize fullRead 4 r = first at hfirst ⊢
  generalize int32 (leValue first.1) = compressed
  have hsecond := readsFor_fullRead compressed.toNat first.2
  generalize fullRead compressed.toNat first.2 = second at hsecond ⊢
  split_ifs with hword hzero hshort hblock
  · exact hfirst .refused fun hne => absurd rfl hne
  · exact hfirst .eof fun _ => not_not.mp hword
  · exact hfirst .refused fun hne => absurd rfl hne
  · refine (hfirst .eof fun _ => not_not.mp hword).trans Block.noConfusion ?_
    exact hsecond .refused fun hne => absurd rfl hne
  · refine (hfirst .eof fun _ => not_not.mp hword).trans Block.noConfusion ?_
    exact hsecond _ fun _ => not_not.mp hblock

/-- What a step of the decompressor does with the record. -/
lemma decompressStep_log (lib : Libbsc) (r : Run cb) :
    (∃ reads, ((readBlock lib r).1 ≠ .refused → ¬AnyFailed reads) ∧ (∀ e ∈ reads, ¬e.IsWrite) ∧
      ((readBlock lib r).1 = .eof ∧ (decompressStep lib r).log = r.log ++ reads ∧
          (decompressStep lib r).code = some 0 ∨
        (readBlock lib r).1 = .refused ∧ (decompressStep lib r).log = r.log ++ reads ∧
          (decompressStep lib r).code = some ErrCode.badCompressedData.toInt ∨
        (∃ bytes k, (readBlock lib r).1 = .data bytes ∧
          (decompressStep lib r).log = r.log ++ reads ++ [.write bytes k]) ∧
          (decompressStep lib r).code = r.code)) := by
  obtain ⟨reads, hlog, hreads, hcode, hfailed⟩ := readsFor_readBlock lib r
  refine ⟨reads, hfailed, hreads, ?_⟩
  unfold decompressStep
  generalize readBlock lib r = out at hlog hcode ⊢
  obtain ⟨block, r'⟩ := out
  cases block with
  | eof => exact .inl ⟨rfl, hlog, rfl⟩
  | refused => exact .inr (.inl ⟨rfl, hlog, rfl⟩)
  | data bytes =>
    refine .inr (.inr ⟨⟨bytes, (cb.write r'.s bytes).1, rfl, ?_⟩, hcode⟩)
    dsimp only at hlog ⊢
    rw [← hlog]
    rfl

/-- Where a write has failed, the next block is refused. -/
def RefusedAfterFailure (lib : Libbsc) (s : cb.State) : Prop :=
  ∀ n, (decompressRuns lib s n).code = none → AnyFailed (decompressRuns lib s n).log →
    (readBlock lib (decompressRuns lib s n)).1 = .refused

/-- One more step of the decompressor. -/
lemma decompressRuns_succ (s : cb.State) (n : ℕ) :
    decompressRuns lib s (n + 1) =
      if (decompressRuns lib s n).code = none then decompressStep lib (decompressRuns lib s n)
      else decompressRuns lib s n := rfl

/-- After a write that has failed, what the decompressor reports is refused. -/
lemma refused_of_reports {s : cb.State} (h : Reports (decompressRuns lib s)) :
    RefusedAfterFailure lib s := by
  intro n hcode hfailed
  obtain ⟨hquiet, hneg⟩ := h (n + 1)
  rw [decompressRuns_succ, if_pos hcode] at hquiet hneg
  obtain ⟨reads, -, -, ⟨heof, hlog, hzero⟩ | ⟨hrefused, -⟩ | ⟨⟨bytes, k, -, hlog⟩, -⟩⟩ :=
    decompressStep_log lib (decompressRuns lib s n)
  · have hpos := hneg 0 hzero (by rw [hlog, anyFailed_append]; exact .inl hfailed)
    exact absurd hpos (lt_irrefl 0)
  · exact hrefused
  · rw [hlog] at hquiet
    exact absurd hquiet (not_quiet_of_write hfailed)

/-- A failed call is reported when the block after it is refused. -/
lemma reports_of_refused {s : cb.State} (h : RefusedAfterFailure lib s) :
    Reports (decompressRuns lib s) := by
  intro n
  induction n with
  | zero =>
    refine ⟨fun before e after hlog => ?_, fun code hcode => by cases hcode⟩
    cases (List.append_eq_nil_iff.mp hlog.symm).2
  | succ n ih =>
    rw [decompressRuns_succ]
    by_cases hcode : (decompressRuns lib s n).code = none
    · rw [if_pos hcode]
      have hbefore := h n hcode
      obtain ⟨hquiet, -⟩ := ih
      obtain ⟨reads, hreads, hnowrite, ⟨heof, hlog, hzero⟩ | ⟨-, hlog, hbad⟩ | ⟨⟨bytes, k, hdata, hlog⟩, hnone⟩⟩ :=
        decompressStep_log lib (decompressRuns lib s n)
      · rw [hlog]
        refine ⟨hquiet.append_reads hnowrite, fun code _ hfailed => ?_⟩
        rcases anyFailed_append.mp hfailed with hfailed | hfailed
        · rw [hbefore hfailed] at heof
          cases heof
        · exact absurd hfailed (hreads (by rw [heof]; exact Block.noConfusion))
      · rw [hlog]
        refine ⟨hquiet.append_reads hnowrite, fun code hsome _ => ?_⟩
        obtain rfl := Option.some.inj (hbad.symm.trans hsome)
        decide
      · refine ⟨?_, fun code hsome => ?_⟩
        · rw [hlog]
          refine quiet_concat fun hfailed => ?_
          rcases anyFailed_append.mp hfailed with hfailed | hfailed
          · rw [hbefore hfailed] at hdata
            cases hdata
          · exact hreads (by rw [hdata]; exact Block.noConfusion) hfailed
        · cases (hnone.trans hcode).symm.trans hsome
    · rw [if_neg hcode]
      exact ih

/-- **What the decompressor reports**: it returns a negative code, and writes nothing more, after a call that
has failed, if and only if what it reads after a write that has failed is refused. -/
theorem decompress_reports_iff (lib : Libbsc) (s : cb.State) :
    Reports (decompressRuns lib s) ↔ RefusedAfterFailure lib s :=
  ⟨refused_of_reports, reports_of_refused⟩

end DArc.BSC
