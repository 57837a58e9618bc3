import DArc.BlockDecoders.DisPack

/-!
# DisPack compression and decompression

`DISPACK_METHOD::compress` reads chunks of a fixed size as long as they look like code and there is room for one
more; it filters the code, and writes it with two sizes in front, and behind it the chunk that did not look like
code.  That chunk has a tag in front if it is short or looks like one.  The address of the code is advanced by the
whole run here, and by one block after another in `DISPACK_METHOD::decompress`.

### Outline

* `isExe`, `readRun`, `dispackCompressBlock`: the method;
* `nextRun`, `Run`, `runs`: the runs of code that the input is cut into;
* `Run.Fits`: what is asked of a run.

### Main results

* `dispackRoundTrips_iff`: decompression gives the input back, inside its buffers and with the same addresses,
  exactly if there is room for a chunk and all runs fit;
* `received_eq_sent`: the addresses are the same for blocks up to 1 GiB.
-/

namespace DArc.BlockDecoders

open Guarded

/-! ## The method -/

/-- `DisFilter`, for its input and the address of the code, when there is memory; the size of the output is an
`uint32`. -/
structure Filter where
  run : List UInt8 → ℕ → List UInt8
  lt : ∀ code base, (run code base).length < 2 ^ 32

/-- `DisUnFilter` inverts `DisFilter` for equal addresses. -/
def Filter.InvertedBy (filter : Filter) (unfilter : Unfilter) : Prop :=
  ∀ code base, code.length < 2 ^ 32 → unfilter (filter.run code base) code.length base = some code

/-- `CHUNK_SIZE` in `compress`. -/
def chunkSize : ℕ := 16 * 1024

/-- What `detect` counts: calls, and those with an address of an executable or an object file. -/
structure Calls where
  e8 : ℕ
  exe : ℕ
  obj : ℕ

/-- The loop of `detect`. -/
def countCalls : List UInt8 → Calls
  | b₀ :: b₁ :: b₂ :: b₃ :: b₄ :: b₅ :: rest =>
    let calls := countCalls (b₁ :: b₂ :: b₃ :: b₄ :: b₅ :: rest)
    if b₀ = 0xE8 then
      ⟨calls.e8 + 1, calls.exe + (if b₄ = 0xFF ∧ b₅ ≠ 0xFF then 1 else 0),
        calls.obj + (if b₄ = 0 ∧ b₅ ≠ 0 then 1 else 0)⟩
    else calls
  | _ => ⟨0, 0, 0⟩

/-- `detect` returns `EXETYPE_EXE`.  The comparisons of the source are ones of a `double`, which decide as the
exact ones: the sides are equal, or differ by much more than the rounding. -/
def isExe (chunk : List UInt8) : Prop :=
  let calls := countCalls chunk
  chunk.length ≤ 500 * calls.e8 ∧ calls.e8 ≤ 5 * (calls.exe + calls.obj) ∧ calls.e8 ≤ 100 * calls.exe

instance (chunk : List UInt8) : Decidable (isExe chunk) := inferInstanceAs (Decidable (_ ∧ _ ∧ _))

/-- The size of the buffer of `compress`. -/
def readCapacity (BlockSize : ℕ) : ℕ := uint32 (BlockSize + 2 : ℕ)

/-- The loop that reads the code behind what is in the buffer, and the chunk behind it. -/
def readRun (BlockSize : ℕ) (code : List UInt8) : Guarded Port (List UInt8 × List UInt8) := do
  let chunk ← callRead (readCapacity BlockSize) code.length chunkSize
  if chunk = [] then return (code, [])
  else if ¬isExe chunk then return (code, chunk)
  else if (code ++ chunk).length ≤ uint32 (BlockSize - chunkSize) then readRun BlockSize (code ++ chunk)
  else return (code ++ chunk, [])
termination_by uint32 (BlockSize - chunkSize) + 1 - code.length
decreasing_by
  rename_i h _ hroom
  have hpos := List.length_pos_iff.mpr h
  rw [List.length_append] at hroom ⊢
  omega

/-- The error code: the result of the last write. -/
def lastCode (codes : ℕ → Int) : ℕ → Int
  | 0 => 0
  | n + 1 => codes n

/-- The end of `compress`. -/
def finish (codes : ℕ → Int) : Guarded Port (Bool × Chunks) := do
  let port ← get
  exit (lastCode codes port.writes)

/-- `WRITE4`. -/
def write4 (codes : ℕ → Int) (word : Int) : Guarded Port Unit := write codes 4 4 (leBytes 4 (uint32 word))

/-- The size of the chunks, in front of the first run. -/
def writeChunkSize (codes : ℕ → Int) (first_time : Bool) : Guarded Port Unit :=
  if first_time then write4 codes chunkSize else return ()

/-- The code of a run, filtered. -/
def writeCode (BlockSize : ℕ) (filter : Filter) (codes : ℕ → Int) (c : Chunks) (code : List UInt8) :
    Guarded Port Unit :=
  if int32 code.length = 0 then return ()
  else do
    access ⟨readCapacity BlockSize, 0, code.length⟩
    write4 codes tagExe
    write4 codes (int32 code.length)
    write4 codes (filter.run code c.baseAddress).length
    write codes (filter.run code c.baseAddress).length (int32 (filter.run code c.baseAddress).length)
      (filter.run code c.baseAddress)

/-- A chunk needs a tag in front: it is short, or looks like one. -/
def NeedsTag (chunk : List UInt8) : Prop := chunk.length ≠ chunkSize ∨ isTag (leValue (chunk.take 4))

instance (chunk : List UInt8) : Decidable (NeedsTag chunk) := inferInstanceAs (Decidable (_ ∨ _))

/-- The tag of a chunk and its size. -/
def writeTag (codes : ℕ → Int) (chunk : List UInt8) : Guarded Port Unit :=
  if NeedsTag chunk then do
    write4 codes tagData
    write4 codes chunk.length
  else return ()

/-- The chunk behind the code of a run, which stands behind it in the buffer. -/
def writeData (BlockSize : ℕ) (codes : ℕ → Int) (offset : ℕ) (chunk : List UInt8) : Guarded Port Unit :=
  if chunk.length = 0 then return ()
  else do
    writeTag codes chunk
    write codes (readCapacity BlockSize - offset) chunk.length chunk

/-- One run in `DISPACK_METHOD::compress`. -/
def dispackCompressBlock (BlockSize : ℕ) (filter : Filter) (codes : ℕ → Int) (x : Bool × Chunks) :
    Guarded Port (Bool × Chunks) := do
  let run ← readRun BlockSize []
  if int32 run.1.length + run.2.length = 0 then finish codes
  else do
    writeChunkSize codes x.1
    writeCode BlockSize filter codes x.2 run.1
    writeData BlockSize codes run.1.length run.2
    return (false, x.2.advance (int32 run.1.length + run.2.length))

/-! ## The runs of the input -/

/-- The code behind what is in the buffer, the chunk behind it, and the rest of the stream. -/
def nextRun (BlockSize : ℕ) (code stream : List UInt8) : List UInt8 × List UInt8 × List UInt8 :=
  let chunk := stream.take chunkSize
  if stream = [] then (code, [], [])
  else if ¬isExe chunk then (code, chunk, stream.drop chunkSize)
  else if (code ++ chunk).length ≤ BlockSize - chunkSize then
    nextRun BlockSize (code ++ chunk) (stream.drop chunkSize)
  else (code ++ chunk, [], stream.drop chunkSize)
termination_by stream.length
decreasing_by
  have hpos := List.length_pos_iff.mpr ‹_›
  rw [List.length_drop, chunkSize]
  omega

/-- A run, with what compression and decompression know of the address in front of it. -/
structure Run where
  code : List UInt8
  data : List UInt8
  sent : Chunks
  received : Chunks

/-- The address after a block that is written only if it is not empty. -/
def Chunks.behind (c : Chunks) (bytes : List UInt8) : Chunks := if bytes = [] then c else c.advance bytes.length

/-- What is left behind the run at the front. -/
lemma length_nextRun_lt (BlockSize : ℕ) {stream : List UInt8} (hne : stream ≠ []) (code : List UInt8) :
    (nextRun BlockSize code stream).2.2.length < stream.length := by
  have hdrop : ∀ stream : List UInt8, stream ≠ [] → (stream.drop chunkSize).length < stream.length := by
    intro stream hne
    have hpos := List.length_pos_iff.mpr hne
    rw [List.length_drop, chunkSize]
    omega
  induction code, stream using nextRun.induct BlockSize with
  | case1 => exact absurd rfl hne
  | case2 code stream chunk hne' hexe =>
    rw [nextRun, if_neg hne', if_pos hexe]
    exact hdrop stream hne'
  | case3 code stream chunk hne' hexe hroom ih =>
    rw [nextRun, if_neg hne', if_neg hexe, if_pos hroom]
    by_cases hempty : stream.drop chunkSize = []
    · rw [hempty, nextRun, if_pos rfl]
      exact List.length_pos_iff.mpr hne'
    · exact (ih hempty).trans (hdrop stream hne')
  | case4 code stream chunk hne' hexe hroom =>
    rw [nextRun, if_neg hne', if_neg hexe, if_neg hroom]
    exact hdrop stream hne'

/-- The runs of a stream. -/
def runs (BlockSize : ℕ) (sent received : Chunks) (stream : List UInt8) : List Run :=
  if stream = [] then []
  else
    let next := nextRun BlockSize [] stream
    ⟨next.1, next.2.1, sent, received⟩ ::
      runs BlockSize (sent.advance (int32 next.1.length + next.2.1.length))
        ((received.behind next.1).behind next.2.1) next.2.2
termination_by stream.length
decreasing_by exact length_nextRun_lt BlockSize ‹_› []

/-- What is asked of a run: the address of the code is the same on both sides, the size of the code is an `int`,
and that of the filtered code is accepted; and there is room for the chunk behind it. -/
def Run.Fits (BlockSize : ℕ) (filter : Filter) (run : Run) : Prop :=
  (run.code ≠ [] → run.sent.baseAddress = run.received.baseAddress ∧ run.code.length < 2 ^ 31 ∧
    (filter.run run.code run.sent.baseAddress).length ≤ inBufferSize BlockSize) ∧
  run.data.length ≤ inCapacity BlockSize

/-! ## Round trips -/

/-- The address that `DisFilter` gets in this round. -/
def filterAddress (BlockSize : ℕ) (x : Bool × Chunks) (port : Port) : List ℕ :=
  if (nextRun BlockSize [] port.stream).1 = [] then [] else [x.2.baseAddress]

/-- The address that `DisUnFilter` gets in this round. -/
def unfilterAddress (c : Chunks) (port : Port) : List ℕ :=
  if uint32 (headWord port.stream) = tagExe then [c.baseAddress] else []

/-- The loop of `compress`, with the addresses of the code. -/
def compressRound (BlockSize : ℕ) (filter : Filter) (codes : ℕ → Int) :
    Bool × Chunks → Guarded (Port × List ℕ) (Bool × Chunks) :=
  noting (filterAddress BlockSize) (dispackCompressBlock BlockSize filter codes)

/-- The loop of `decompress`, with the addresses of the code. -/
def decompressRound (BlockSize : ℕ) (unfilter : Unfilter) (codes : ℕ → Int) :
    Chunks → Guarded (Port × List ℕ) Chunks :=
  noting unfilterAddress (dispackBlock BlockSize unfilter codes)

/-- What `decompress` does before its loop. -/
def decompressStart (BlockSize : ℕ) : Guarded (Port × List ℕ) Chunks :=
  noting (fun _ _ => []) (fun _ => dispackStart BlockSize) ()

/-- Compression ends without an error, and decompression of what it has written ends well inside its buffers with
the input written; both use the same addresses. -/
def DispackRoundTrips (BlockSize : ℕ) (filter : Filter) (unfilter : Unfilter) (codes : ℕ → Int)
    (input : List UInt8) : Prop :=
  ∃ code packed unpacked addresses, 0 ≤ code ∧
    Ends (compressRound BlockSize filter codes) (compressRound BlockSize filter codes (true, ⟨chunkSize, 2 ^ 30⟩))
      (⟨input, 0, []⟩, []) code (packed, addresses) ∧
    Ends (decompressRound BlockSize unfilter codes) (decompressStart BlockSize) (⟨packed.written, 0, []⟩, []) 0
      (unpacked, addresses) ∧
    unpacked.written = input

variable {BlockSize : ℕ} {filter : Filter} {unfilter : Unfilter} {codes : ℕ → Int} {c : Chunks}

/-! ## The cut of the input -/

/-- The run and the rest make up the stream. -/
lemma nextRun_append (BlockSize : ℕ) (code stream : List UInt8) :
    (nextRun BlockSize code stream).1 ++ ((nextRun BlockSize code stream).2.1 ++ (nextRun BlockSize code stream).2.2) =
      code ++ stream := by
  induction code, stream using nextRun.induct BlockSize with
  | case1 code =>
    rw [nextRun, if_pos rfl]
    rfl
  | case2 code stream chunk hne hexe =>
    rw [nextRun, if_neg hne, if_pos hexe]
    dsimp only
    rw [List.take_append_drop]
  | case3 code stream chunk hne hexe hroom ih =>
    rw [nextRun, if_neg hne, if_neg hexe, if_pos hroom, ih, List.append_assoc, List.take_append_drop]
  | case4 code stream chunk hne hexe hroom =>
    rw [nextRun, if_neg hne, if_neg hexe, if_neg hroom]
    dsimp only
    rw [List.nil_append, List.append_assoc, List.take_append_drop]

/-- A run is not larger than a block, and the chunk in it is one. -/
lemma length_nextRun_le (hBlockSize : chunkSize ≤ BlockSize) {code : List UInt8}
    (hcode : code.length ≤ BlockSize - chunkSize) (stream : List UInt8) :
    (nextRun BlockSize code stream).1.length + (nextRun BlockSize code stream).2.1.length ≤ BlockSize ∧
      (nextRun BlockSize code stream).2.1.length ≤ chunkSize := by
  have htake (stream : List UInt8) : (stream.take chunkSize).length ≤ chunkSize := List.length_take_le _ _
  induction code, stream using nextRun.induct BlockSize with
  | case1 code =>
    rw [nextRun, if_pos rfl]
    dsimp only
    rw [List.length_nil]
    omega
  | case2 code stream chunk hne hexe =>
    have hchunk := htake stream
    rw [nextRun, if_neg hne, if_pos hexe]
    dsimp only
    omega
  | case3 code stream chunk hne hexe hroom ih =>
    rw [nextRun, if_neg hne, if_neg hexe, if_pos hroom]
    exact ih hroom
  | case4 code stream chunk hne hexe hroom =>
    have hchunk := htake stream
    rw [nextRun, if_neg hne, if_neg hexe, if_neg hroom]
    dsimp only
    rw [List.length_append, List.length_nil]
    omega

/-- A run at the front of a stream is not empty. -/
lemma length_nextRun_pos (BlockSize : ℕ) {stream : List UInt8} (hne : stream ≠ []) :
    0 < (nextRun BlockSize [] stream).1.length + (nextRun BlockSize [] stream).2.1.length := by
  have hlt := length_nextRun_lt BlockSize hne []
  have happend := congrArg List.length (nextRun_append BlockSize [] stream)
  rw [List.length_append, List.length_append, List.nil_append] at happend
  omega

/-- There is room for a chunk, and the size of the buffer does not wrap around. -/
structure HasRoom (BlockSize : ℕ) : Prop where
  le : chunkSize ≤ BlockSize
  lt : BlockSize + 2 < 2 ^ 32

/-- The size of the buffer. -/
lemma HasRoom.readCapacity_eq (h : HasRoom BlockSize) : readCapacity BlockSize = BlockSize + 2 :=
  uint32_of_lt h.lt

/-- How much code leaves room for a chunk. -/
lemma HasRoom.uint32_sub (h : HasRoom BlockSize) : uint32 (BlockSize - chunkSize) = BlockSize - chunkSize := by
  have hle := h.le
  have hlt := h.lt
  rw [← Nat.cast_sub hle, uint32_of_lt (by omega)]

/-- How the loop that reads a run comes out. -/
lemma total_readRun (hroom : HasRoom BlockSize) {code : List UInt8} (hcode : code.length ≤ BlockSize - chunkSize)
    {E : Int → Prop} {Q : List UInt8 × List UInt8 → Port → Prop} (port : Port) :
    total (readRun BlockSize code) E Q port ↔
      Q ((nextRun BlockSize code port.stream).1, (nextRun BlockSize code port.stream).2.1)
        { port with stream := (nextRun BlockSize code port.stream).2.2 } := by
  have hle := hroom.le
  obtain ⟨stream, w, written⟩ := port
  dsimp only
  -- the accesses of one round, and the chunk that it reads
  have hround (code stream : List UInt8) (hcode : code.length ≤ BlockSize - chunkSize) :
      total (readRun BlockSize code) E Q ⟨stream, w, written⟩ ↔
        total (if stream.take chunkSize = [] then pure (code, [])
          else if ¬isExe (stream.take chunkSize) then pure (code, stream.take chunkSize)
          else if (code ++ stream.take chunkSize).length ≤ BlockSize - chunkSize then
            readRun BlockSize (code ++ stream.take chunkSize)
          else pure (code ++ stream.take chunkSize, [])) E Q ⟨stream.drop chunkSize, w, written⟩ := by
    have hfits : Access.Fits ⟨(readCapacity BlockSize : ℕ), code.length, chunkSize⟩ := by
      rw [hroom.readCapacity_eq]
      unfold Access.Fits
      dsimp only
      omega
    rw [readRun, total_bind, total_callRead, and_iff_right hfits, hroom.uint32_sub]
    rfl
  have hchunk (stream : List UInt8) : stream.take chunkSize = [] ↔ stream = [] := by
    rw [List.take_eq_nil_iff]
    exact or_iff_right (by decide)
  induction code, stream using nextRun.induct BlockSize with
  | case1 code =>
    rw [hround _ _ hcode, nextRun, if_pos rfl, if_pos ((hchunk _).mpr rfl), total_pure, List.drop_nil]
  | case2 code stream chunk hne hexe =>
    rw [hround _ _ hcode, nextRun, if_neg hne, if_pos hexe, if_neg (mt (hchunk _).mp hne), if_pos hexe, total_pure]
  | case3 code stream chunk hne hexe hmore ih =>
    rw [hround _ _ hcode, nextRun, if_neg hne, if_neg hexe, if_pos hmore, if_neg (mt (hchunk _).mp hne), if_neg hexe,
      if_pos hmore]
    exact ih hmore
  | case4 code stream chunk hne hexe hmore =>
    rw [hround _ _ hcode, nextRun, if_neg hne, if_neg hexe, if_neg hmore, if_neg (mt (hchunk _).mp hne), if_neg hexe,
      if_neg hmore, total_pure]

/-! ## Compression -/

/-- The port after writes of all bytes of some pieces; an empty piece makes no call. -/
def Port.sent (port : Port) (pieces : List (List UInt8)) : Port :=
  { port with
    writes := port.writes + (pieces.filter (· ≠ [])).length
    written := port.written ++ pieces.flatten }

/-- Pieces one after another. -/
lemma Port.sent_sent (port : Port) (xs ys : List (List UInt8)) : (port.sent xs).sent ys = port.sent (xs ++ ys) := by
  simp [Port.sent, Nat.add_assoc]

/-- No pieces. -/
lemma Port.sent_nil (port : Port) : port.sent [] = port := by simp [Port.sent]

/-- How a write of all bytes comes out. -/
lemma total_write_all (hcodes : ∀ n, 0 ≤ codes n) {capacity : Int} (hcapacity : 0 ≤ capacity) {bytes : List UInt8}
    {E : Int → Prop} {Q : Unit → Port → Prop} {port : Port} :
    total (write codes capacity bytes.length bytes) E Q port ↔
      bytes.length ≤ capacity ∧ Q () (port.sent [bytes]) := by
  rw [total_write hcapacity hcodes, and_iff_right (Int.natCast_nonneg _)]
  suffices hport : port.wrote bytes.length bytes = port.sent [bytes] by rw [hport]
  cases bytes with
  | nil => simp [Port.wrote, Port.sent]
  | cons b bytes => rw [Port.wrote_bytes (List.cons_ne_nil _ _)]; simp [Port.sent]

/-- How `WRITE4` comes out. -/
lemma total_write4 (hcodes : ∀ n, 0 ≤ codes n) {word : Int} {E : Int → Prop} {Q : Unit → Port → Prop} {port : Port} :
    total (write4 codes word) E Q port ↔ Q () (port.sent [leBytes 4 (uint32 word)]) := by
  have hlength : (leBytes 4 (uint32 word)).length = 4 := length_leBytes 4 _
  have hall : total (write codes 4 (leBytes 4 (uint32 word)).length (leBytes 4 (uint32 word))) E Q port ↔
      (leBytes 4 (uint32 word)).length ≤ (4 : Int) ∧ Q () (port.sent [leBytes 4 (uint32 word)]) :=
    total_write_all hcodes (by decide)
  rw [hlength] at hall
  rw [write4]
  exact hall.trans (and_iff_right le_rfl)

/-- What is written for the code of a run. -/
def codePieces (filter : Filter) (base : ℕ) (code : List UInt8) : List (List UInt8) :=
  if code = [] then []
  else [leBytes 4 (uint32 tagExe), leBytes 4 (uint32 (int32 code.length)),
    leBytes 4 (uint32 (filter.run code base).length), filter.run code base]

/-- What is written for the chunk behind it. -/
def dataPieces (data : List UInt8) : List (List UInt8) :=
  if data = [] then []
  else (if NeedsTag data then [leBytes 4 (uint32 tagData), leBytes 4 (uint32 data.length)] else []) ++ [data]

/-- A size below the range of the words is zero only if it is. -/
lemma int32_natCast_eq_zero {n : ℕ} (h : n < 2 ^ 32) : int32 n = 0 ↔ n = 0 := by
  unfold int32
  rw [Int.bmod_def]
  split <;> omega

/-- How writing the code of a run comes out: the size of the filtered code is passed as an `int`. -/
lemma total_writeCode (hcodes : ∀ n, 0 ≤ codes n) {code : List UInt8} (hle : code.length ≤ readCapacity BlockSize)
    (hlt : code.length < 2 ^ 32) {E : Int → Prop} {Q : Unit → Port → Prop} {port : Port} :
    total (writeCode BlockSize filter codes c code) E Q port ↔
      (code ≠ [] → (filter.run code c.baseAddress).length < 2 ^ 31) ∧
        Q () (port.sent (codePieces filter c.baseAddress code)) := by
  have hzero : int32 code.length = 0 ↔ code = [] := (int32_natCast_eq_zero hlt).trans List.length_eq_zero_iff
  unfold writeCode codePieces
  by_cases hempty : code = []
  · rw [if_pos (hzero.mpr hempty), if_pos hempty, total_pure, Port.sent_nil]
    exact (and_iff_right fun hne => absurd hempty hne).symm
  have hfits : Access.Fits ⟨readCapacity BlockSize, 0, code.length⟩ :=
    Access.fits_front (Int.natCast_nonneg _) (Int.ofNat_le.mpr hle)
  have hout := filter.lt code c.baseAddress
  rw [if_neg (mt hzero.mp hempty), if_neg hempty, total_bind, total_access, and_iff_right hfits]
  simp only [total_bind, total_write4 hcodes, ne_eq, hempty, not_false_eq_true, true_imp_iff]
  generalize filter.run code c.baseAddress = out at hout ⊢
  by_cases hint : out.length < 2 ^ 31
  · rw [int32_of_mem (by omega) (by omega), total_write_all hcodes (Int.natCast_nonneg _)]
    simp only [le_refl, true_and, hint, Port.sent_sent, List.cons_append, List.nil_append]
  · rw [int32_of_ge (by omega) (by omega), total_write (Int.natCast_nonneg _) hcodes]
    refine iff_of_false (fun h => ?_) fun h => hint h.1
    have hnonneg := h.1
    omega

/-- How writing the chunk behind the code comes out. -/
lemma total_writeData (hcodes : ∀ n, 0 ≤ codes n) {offset : ℕ} {data : List UInt8}
    (hle : offset + data.length ≤ readCapacity BlockSize) {E : Int → Prop} {Q : Unit → Port → Prop} {port : Port} :
    total (writeData BlockSize codes offset data) E Q port ↔ Q () (port.sent (dataPieces data)) := by
  have hzero : data.length = 0 ↔ data = [] := List.length_eq_zero_iff
  unfold writeData dataPieces writeTag
  by_cases hempty : data = []
  · rw [if_pos (hzero.mpr hempty), if_pos hempty, total_pure, Port.sent_nil]
  rw [if_neg (mt hzero.mp hempty), if_neg hempty, total_bind]
  have hroom : (data.length : Int) ≤ readCapacity BlockSize - offset := by omega
  have hnonneg : 0 ≤ (readCapacity BlockSize : Int) - offset := by omega
  by_cases htag : NeedsTag data
  · rw [if_pos htag, if_pos htag]
    simp only [total_bind, total_write4 hcodes, total_write_all hcodes hnonneg, hroom, true_and, Port.sent_sent,
      List.cons_append, List.nil_append]
  · rw [if_neg htag, if_neg htag, total_pure, total_write_all hcodes hnonneg, and_iff_right hroom, List.nil_append]

/-- What is written in front of the first run. -/
def headPieces (first_time : Bool) : List (List UInt8) :=
  if first_time then [leBytes 4 (uint32 chunkSize)] else []

/-- The size of the chunks comes first. -/
lemma total_writeChunkSize (hcodes : ∀ n, 0 ≤ codes n) {first_time : Bool} {E : Int → Prop} {Q : Unit → Port → Prop}
    {port : Port} : total (writeChunkSize codes first_time) E Q port ↔ Q () (port.sent (headPieces first_time)) := by
  unfold writeChunkSize headPieces
  cases first_time with
  | false => rw [if_neg Bool.false_ne_true, if_neg Bool.false_ne_true, total_pure, Port.sent_nil]
  | true => rw [if_pos rfl, if_pos rfl, total_write4 hcodes]

/-- How compression of a run comes out. -/
lemma total_dispackCompressBlock (hroom : HasRoom BlockSize) (hcodes : ∀ n, 0 ≤ codes n) {first_time : Bool}
    {E : Int → Prop} {Q : Bool × Chunks → Port → Prop} {port : Port} (hne : port.stream ≠ []) :
    total (dispackCompressBlock BlockSize filter codes (first_time, c)) E Q port ↔
      ((nextRun BlockSize [] port.stream).1 ≠ [] →
        (filter.run (nextRun BlockSize [] port.stream).1 c.baseAddress).length < 2 ^ 31) ∧
      Q (false, c.advance (int32 (nextRun BlockSize [] port.stream).1.length +
          (nextRun BlockSize [] port.stream).2.1.length))
        (({ port with stream := (nextRun BlockSize [] port.stream).2.2 } : Port).sent
          (headPieces first_time ++ (codePieces filter c.baseAddress (nextRun BlockSize [] port.stream).1 ++
            dataPieces (nextRun BlockSize [] port.stream).2.1))) := by
  have hnil : ([] : List UInt8).length ≤ BlockSize - chunkSize := Nat.zero_le _
  obtain ⟨hle, -⟩ := length_nextRun_le hroom.le hnil port.stream
  have hpos := length_nextRun_pos BlockSize hne
  have hlt := hroom.lt
  have hcapacity := hroom.readCapacity_eq
  unfold dispackCompressBlock
  rw [total_bind, total_readRun hroom hnil]
  generalize nextRun BlockSize [] port.stream = run at hle hpos ⊢
  obtain ⟨code, data, rest⟩ := run
  dsimp only at hle hpos ⊢
  -- a run is never as large as the range of the words
  have hgoes : ¬int32 code.length + data.length = 0 := by
    unfold int32
    rw [Int.bmod_def]
    split <;> omega
  rw [if_neg hgoes, total_bind, total_writeChunkSize hcodes, total_bind,
    total_writeCode hcodes (by omega) (by omega), total_bind, total_writeData hcodes (by omega), total_pure,
    Port.sent_sent, Port.sent_sent]

/-- How compression ends, at the end of the input. -/
lemma total_dispackCompressBlock_nil (hread : chunkSize ≤ readCapacity BlockSize) {x : Bool × Chunks}
    {E : Int → Prop} {Q : Bool × Chunks → Port → Prop} {port : Port} (hempty : port.stream = []) :
    total (dispackCompressBlock BlockSize filter codes x) E Q port ↔ E (lastCode codes port.writes) := by
  have hfits : Access.Fits ⟨readCapacity BlockSize, ([] : List UInt8).length, chunkSize⟩ :=
    Access.fits_front (Int.natCast_nonneg _) (Int.ofNat_le.mpr hread)
  unfold dispackCompressBlock finish
  rw [total_bind, readRun, total_bind, total_callRead, and_iff_right hfits, hempty, List.take_nil, if_pos rfl,
    total_pure, if_pos (by decide), total_bind, total_get, total_exit]
  rfl

/-- What is written for a run. -/
def Run.bytes (filter : Filter) (run : Run) : List UInt8 :=
  (codePieces filter run.sent.baseAddress run.code ++ dataPieces run.data).flatten

/-- The address of the code of a run. -/
def Run.address (run : Run) : List ℕ := if run.code = [] then [] else [run.sent.baseAddress]

/-- The size of the filtered code is an `int`. -/
def Run.IsSent (filter : Filter) (run : Run) : Prop :=
  run.code ≠ [] → (filter.run run.code run.sent.baseAddress).length < 2 ^ 31

/-- The error code is one of a write. -/
lemma lastCode_nonneg (hcodes : ∀ n, 0 ≤ codes n) (n : ℕ) : 0 ≤ lastCode codes n := by
  cases n with
  | zero => exact le_rfl
  | succ n => exact hcodes n

/-- The runs of a stream that is not empty. -/
lemma runs_of_ne_nil {stream : List UInt8} (hne : stream ≠ []) (sent received : Chunks) :
    runs BlockSize sent received stream =
      ⟨(nextRun BlockSize [] stream).1, (nextRun BlockSize [] stream).2.1, sent, received⟩ ::
        runs BlockSize (sent.advance (int32 (nextRun BlockSize [] stream).1.length +
            (nextRun BlockSize [] stream).2.1.length))
          ((received.behind (nextRun BlockSize [] stream).1).behind (nextRun BlockSize [] stream).2.1)
          (nextRun BlockSize [] stream).2.2 := by
  rw [runs, if_neg hne]

/-- There are no runs in nothing. -/
lemma runs_nil (sent received : Chunks) : runs BlockSize sent received [] = [] := by rw [runs, if_pos rfl]

/-- **Compression behind the first run** ends without an error when all sizes are `int`s, and only then; and the
runs are what it has written. -/
lemma compress_ends (hroom : HasRoom BlockSize) (hcodes : ∀ n, 0 ≤ codes n) (received : Chunks) (port : Port)
    (log : List ℕ) :
    ((∀ run ∈ runs BlockSize c received port.stream, run.IsSent filter) ↔ ∃ code t log', 0 ≤ code ∧
      Ends (compressRound BlockSize filter codes) (compressRound BlockSize filter codes (false, c)) (port, log) code
        (t, log')) ∧
    ∀ code t log', Ends (compressRound BlockSize filter codes) (compressRound BlockSize filter codes (false, c))
        (port, log) code (t, log') →
      t.written = port.written ++ (runs BlockSize c received port.stream).flatMap (Run.bytes filter) ∧
        log' = log ++ (runs BlockSize c received port.stream).flatMap Run.address := by
  induction hn : port.stream.length using Nat.strong_induction_on generalizing port log c received with
  | _ n ih =>
    subst hn
    have hround (code : Int) (t : Port) (log' : List ℕ) :
        Ends (compressRound BlockSize filter codes) (compressRound BlockSize filter codes (false, c)) (port, log) code
          (t, log') ↔ total (dispackCompressBlock BlockSize filter codes (false, c))
            (fun e => e = code ∧ (t, log') = (port, log)) (fun x port' => Ends (compressRound BlockSize filter codes)
              (compressRound BlockSize filter codes x) (port', log ++ filterAddress BlockSize (false, c) port) code
              (t, log')) port := by
      rw [ends_iff]
      exact total_noting
    by_cases hne : port.stream = []
    · have hread : chunkSize ≤ readCapacity BlockSize := by
        have hle := hroom.le
        have hcapacity := hroom.readCapacity_eq
        omega
      simp only [hround, total_dispackCompressBlock_nil hread hne, hne, runs_nil, List.flatMap_nil, List.append_nil]
      refine ⟨iff_of_true (fun run hrun => by cases hrun) ?_, ?_⟩
      · exact ⟨_, port, log, lastCode_nonneg hcodes port.writes, rfl, rfl⟩
      · rintro code t log' ⟨-, heq⟩
        obtain ⟨rfl, rfl⟩ := Prod.mk.inj heq
        exact ⟨rfl, rfl⟩
    · have hnote : filterAddress BlockSize (false, c) port =
          Run.address ⟨(nextRun BlockSize [] port.stream).1, (nextRun BlockSize [] port.stream).2.1, c, received⟩ := rfl
      have hbytes : Run.bytes filter ⟨(nextRun BlockSize [] port.stream).1, (nextRun BlockSize [] port.stream).2.1, c,
          received⟩ = (codePieces filter c.baseAddress (nextRun BlockSize [] port.stream).1 ++
            dataPieces (nextRun BlockSize [] port.stream).2.1).flatten := rfl
      have hhead : headPieces false = [] := rfl
      have hlt := length_nextRun_lt BlockSize hne []
      simp only [hround, total_dispackCompressBlock hroom hcodes hne, runs_of_ne_nil hne, List.forall_mem_cons,
        List.flatMap_cons, hnote, hbytes, hhead, List.nil_append]
      generalize codePieces filter c.baseAddress (nextRun BlockSize [] port.stream).1 ++
        dataPieces (nextRun BlockSize [] port.stream).2.1 = pieces
      generalize Run.address ⟨(nextRun BlockSize [] port.stream).1, (nextRun BlockSize [] port.stream).2.1, c, received⟩ =
        note
      have hfirst (code data : List UInt8) : Run.IsSent filter ⟨code, data, c, received⟩ ↔
          (code ≠ [] → (filter.run code c.baseAddress).length < 2 ^ 31) := Iff.rfl
      rw [hfirst]
      generalize nextRun BlockSize [] port.stream = next at hlt ⊢
      obtain ⟨hends, hwritten⟩ := @ih _ hlt (c.advance (int32 next.1.length + next.2.1.length))
        ((received.behind next.1).behind next.2.1) (({ port with stream := next.2.2 } : Port).sent pieces)
        (log ++ note) rfl
      have hstream : (({ port with stream := next.2.2 } : Port).sent pieces).stream = next.2.2 := rfl
      have hsent : (({ port with stream := next.2.2 } : Port).sent pieces).written = port.written ++ pieces.flatten := rfl
      rw [hstream] at hends hwritten
      rw [hsent] at hwritten
      constructor
      · rw [hends]
        constructor
        · rintro ⟨hint, code, t, log', hcode, ht⟩
          exact ⟨code, t, log', hcode, hint, ht⟩
        · rintro ⟨code, t, log', hcode, hint, ht⟩
          exact ⟨hint, code, t, log', hcode, ht⟩
      · rintro code t log' ⟨-, ht⟩
        obtain ⟨h₁, h₂⟩ := hwritten code t log' ht
        exact ⟨by rw [h₁, List.append_assoc], by rw [h₂, List.append_assoc]⟩

/-! ## Decompression -/

/-- An `int` as a word. -/
lemma uint32_int32 (x : Int) : uint32 (int32 x) = uint32 x := by
  unfold uint32 int32
  rw [Int.bmod_def]
  split <;> omega

/-- How the rest of a block of data comes out: some bytes are in the buffer, the others at the front of the stream. -/
lemma total_dispackData (hcodes : ∀ n, 0 ≤ codes n) {start bytes rest : List UInt8} {w : ℕ} {out : List UInt8}
    (hne : start ++ bytes ≠ []) (hlt : (start ++ bytes).length < 2 ^ 31) (hstart : start.length ≤ inCapacity BlockSize)
    {E : Int → Prop} {Q : Chunks → Port → Prop} :
    total (dispackData BlockSize codes c start.length (start ++ bytes).length start) E Q ⟨bytes ++ rest, w, out⟩ ↔
      (start ++ bytes).length ≤ inCapacity BlockSize ∧
        Q (c.advance (start ++ bytes).length) ⟨rest, w + 1, out ++ (start ++ bytes)⟩ := by
  have hsize : int32 (((start ++ bytes).length : Int) - start.length) = bytes.length := by
    rw [List.length_append] at hlt ⊢
    push_cast
    rw [add_sub_cancel_left]
    exact int32_of_mem (by omega) (by omega)
  have hcapacity : 0 ≤ inCapacity BlockSize := by omega
  unfold dispackData
  rw [hsize, total_bind, total_readFull (Int.natCast_nonneg _) hstart]
  simp only [total_bind, total_write hcapacity hcodes, total_pure, Port.skip, Int.toNat_natCast, List.take_left,
    List.drop_left, Port.wrote_bytes hne]
  rw [List.length_append, List.length_append]
  push_cast
  constructor
  · rintro ⟨-, hle, hQ, -⟩
    exact ⟨hle, (hQ (by omega)).2.2⟩
  · rintro ⟨hle, hQ⟩
    exact ⟨by omega, hle, fun _ => ⟨by omega, hle, hQ⟩, fun hshort => by omega⟩

/-- How a chunk comes out. -/
lemma total_dispackBlock_data (hcodes : ∀ n, 0 ≤ codes n) (hcapacity : 0 ≤ inCapacity BlockSize)
    (hc : c.chunkSize = chunkSize) {data rest : List UInt8} {w : ℕ} {out : List UInt8} (hne : data ≠ [])
    (hle : data.length ≤ chunkSize) {E : Int → Prop} {Q : Chunks → Port → Prop} :
    total (dispackBlock BlockSize unfilter codes c) E Q ⟨(dataPieces data).flatten ++ rest, w, out⟩ ↔
      data.length ≤ inCapacity BlockSize ∧ Q (c.advance data.length) ⟨rest, w + 1, out ++ data⟩ := by
  have hpos := List.length_pos_iff.mpr hne
  have hint : data.length < 2 ^ 31 := by
    have hsize : chunkSize < 2 ^ 31 := by decide
    omega
  unfold dispackBlock dataPieces
  rw [if_neg hne]
  by_cases htag : NeedsTag data
  · -- a chunk with a tag
    have hword : uint32 (int32 tagData) = uint32 tagData := uint32_int32 _
    have hmem := int32_mem tagData
    have hvalue : uint32 (tagData : Int) = tagData := by decide
    have hstream : ([leBytes 4 (uint32 tagData), leBytes 4 (uint32 data.length)] ++ [data]).flatten ++ rest =
        leBytes 4 (uint32 (int32 tagData)) ++ (leBytes 4 (uint32 data.length) ++ (data ++ rest)) := by
      simp [hword]
    rw [if_pos htag, hstream, total_bind, total_read4OrEof_word hmem.1 hmem.2, hword, hvalue, if_pos (.inr rfl),
      if_pos rfl, total_bind, total_read4_word (by omega) (by omega)]
    exact @total_dispackData BlockSize codes c hcodes [] data rest w out hne hint hcapacity E Q
  · -- a chunk that does not look like a tag
    obtain ⟨hlength, hvalue⟩ := not_or.mp htag
    rw [ne_eq, not_not] at hlength
    have hfour : 4 ≤ data.length := by
      rw [hlength]
      decide
    have htake : (data.take 4).length = 4 := by
      rw [List.length_take]
      omega
    have hlt := leValue_lt (data.take 4)
    have hbytes := leBytes_leValue (data.take 4)
    rw [htake] at hlt hbytes
    have hword : uint32 (int32 (leValue (data.take 4))) = leValue (data.take 4) := by
      rw [uint32_int32, uint32_of_lt (by omega)]
    have hmem := int32_mem (leValue (data.take 4))
    have hstream : ([] ++ [data]).flatten ++ rest =
        leBytes 4 (uint32 (int32 (leValue (data.take 4)))) ++ (data.drop 4 ++ rest) := by
      rw [hword, hbytes, ← List.append_assoc, List.take_append_drop]
      simp
    have hdata : leValue (data.take 4) ≠ tagData := fun heq => hvalue (heq ▸ isTag_tagData)
    rw [if_neg htag, hstream, total_bind, total_read4OrEof_word hmem.1 hmem.2, hword, if_pos (.inl hvalue),
      if_neg hdata, total_bind, total_access, hbytes, hc]
    have hjoin : data.take 4 ++ data.drop 4 = data := List.take_append_drop 4 data
    by_cases hroom : 4 ≤ inCapacity BlockSize
    · have hfits : Access.Fits ⟨inCapacity BlockSize, 0, 4⟩ := Access.fits_front (by decide) hroom
      have hrest := @total_dispackData BlockSize codes c hcodes (data.take 4) (data.drop 4) rest w out
        (by rwa [hjoin]) (by rwa [hjoin]) (by rw [htake]; exact hroom) E Q
      rw [hjoin, htake] at hrest
      rw [and_iff_right hfits, ← hlength]
      exact hrest
    · refine iff_of_false (fun h => ?_) fun h => ?_
      · have hle := h.1.2.2
        dsimp only at hle
        omega
      · omega

/-- Filtered code that is accepted fits into the buffer. -/
lemma le_inCapacity (hcapacity : 0 ≤ inCapacity BlockSize) {size : Int}
    (hle : size ≤ inBufferSize BlockSize) : size ≤ inCapacity BlockSize := by
  have hmem : -2 ^ 31 ≤ inBufferSize BlockSize ∧ inBufferSize BlockSize < 2 ^ 31 := int32_mem _
  by_cases hwraps : inBufferSize BlockSize + 2 < 2 ^ 31
  · rw [inCapacity, int32_of_mem (by omega) hwraps]
    omega
  · rw [inCapacity, int32_of_ge (by omega) (by omega)] at hcapacity
    omega

/-- How a block of code comes out, when an error is not asked for. -/
lemma total_dispackBlock_exe (hroom : HasRoom BlockSize) (hcodes : ∀ n, 0 ≤ codes n)
    (hcapacity : 0 ≤ inCapacity BlockSize) {code rest : List UInt8} {base w : ℕ} {out : List UInt8} (hne : code ≠ [])
    (hle : code.length ≤ BlockSize) (hsent : (filter.run code base).length < 2 ^ 31) {E : Int → Prop}
    (hE : ¬E ErrCode.badCompressedData.toInt) {Q : Chunks → Port → Prop} :
    total (dispackBlock BlockSize unfilter codes c) E Q ⟨(codePieces filter base code).flatten ++ rest, w, out⟩ ↔
      code.length < 2 ^ 31 ∧ (filter.run code base).length ≤ inBufferSize BlockSize ∧
        ∃ bytes, unfilter (filter.run code base) code.length c.baseAddress = some bytes ∧
          Q (c.advance code.length) ⟨rest, w + 1, out ++ bytes.take code.length⟩ := by
  have hpos := List.length_pos_iff.mpr hne
  have hlt := hroom.lt
  have hexe := int32_mem tagExe
  have hsize := int32_mem code.length
  have hcode : uint32 (int32 code.length) = code.length := by rw [uint32_int32, uint32_of_lt (by omega)]
  have hroom' : outCapacity BlockSize = BlockSize + 2 := hroom.readCapacity_eq
  unfold dispackBlock codePieces
  rw [if_neg hne]
  generalize filter.run code base = filtered at hsent ⊢
  have hstream : [leBytes 4 (uint32 tagExe), leBytes 4 (uint32 (int32 code.length)),
        leBytes 4 (uint32 filtered.length), filtered].flatten ++ rest =
      leBytes 4 (uint32 (int32 tagExe)) ++ (leBytes 4 (uint32 (int32 code.length)) ++
        (leBytes 4 (uint32 filtered.length) ++ (filtered ++ rest))) := by
    rw [uint32_int32 tagExe]
    simp
  have hvalue : uint32 (int32 tagExe) = tagExe := by decide
  have hdata : ¬(¬isTag tagExe ∨ tagExe = tagData) := by decide
  rw [hstream, total_bind, total_read4OrEof_word hexe.1 hexe.2, hvalue, if_neg hdata, if_pos rfl]
  unfold dispackExe callUnfilter
  rw [total_bind, total_read4_word hsize.1 hsize.2, total_bind, total_read4_word (by omega) (by omega), hcode]
  by_cases hrefused : inBufferSize BlockSize < filtered.length
  · rw [if_pos (.inr hrefused), total_bind, total_exit]
    exact iff_of_false hE fun h => absurd h.2.1 (not_le.mpr hrefused)
  have haccepted : ¬(BlockSize < code.length ∨ inBufferSize BlockSize < filtered.length) :=
    not_or.mpr ⟨not_lt.mpr hle, hrefused⟩
  have hin : (filtered.length : Int) ≤ inCapacity BlockSize := le_inCapacity hcapacity (not_lt.mp hrefused)
  have hreads : Access.Fits ⟨inCapacity BlockSize, 0, filtered.length⟩ := Access.fits_front (Int.natCast_nonneg _) hin
  have hwrites : Access.Fits ⟨outCapacity BlockSize, 0, code.length⟩ :=
    Access.fits_front (Int.natCast_nonneg _) (by omega)
  rw [if_neg haccepted, total_bind, total_readFull_bytes hin]
  simp only [total_bind, total_access, hreads, hwrites, true_and]
  cases unfilter filtered code.length c.baseAddress with
  | none =>
    refine iff_of_false (mt (total_exit _).mp hE) ?_
    rintro ⟨-, -, bytes, hbytes, -⟩
    cases hbytes
  | some bytes =>
    have hout : (0 : Int) ≤ outCapacity BlockSize := Int.natCast_nonneg _
    simp only [total_pure, total_write hout hcodes, not_lt.mp hrefused, true_and, Option.some.injEq,
      exists_eq_left']
    by_cases hint : code.length < 2 ^ 31
    · have hlength : (code.length : Int) ≠ 0 := by omega
      rw [int32_of_mem (by omega) (by omega), Port.wrote, if_neg hlength, Int.toNat_natCast]
      exact ⟨fun h => ⟨hint, h.2.2⟩, fun h => ⟨Int.natCast_nonneg _, by omega, h.2⟩⟩
    · -- the size of the output is negative
      rw [int32_of_ge (by omega) (by omega)]
      exact iff_of_false (fun h => by omega) fun h => hint h.1

/-- A round of decompression, with its note. -/
lemma ends_decompressRound {port t : Port} {log log' : List ℕ} :
    Ends (decompressRound BlockSize unfilter codes) (decompressRound BlockSize unfilter codes c) (port, log) 0
        (t, log') ↔
      total (dispackBlock BlockSize unfilter codes c) (fun e => e = 0 ∧ (t, log') = (port, log))
        (fun c' port' => Ends (decompressRound BlockSize unfilter codes) (decompressRound BlockSize unfilter codes c')
          (port', log ++ unfilterAddress c port) 0 (t, log')) port := by
  rw [ends_iff]
  exact total_noting

/-- A block of code has the tag of code in front. -/
lemma unfilterAddress_code {base w : ℕ} {code rest out : List UInt8} (hne : code ≠ []) :
    unfilterAddress c ⟨(codePieces filter base code).flatten ++ rest, w, out⟩ = [c.baseAddress] := by
  have hexe := int32_mem tagExe
  have hvalue : uint32 (int32 tagExe) = tagExe := by decide
  unfold unfilterAddress codePieces
  rw [if_neg hne, ← uint32_int32 tagExe, List.flatten_cons, List.append_assoc, (headWord_leBytes hexe.1 hexe.2 _).1,
    if_pos hvalue]

/-- A chunk does not have that tag in front. -/
lemma unfilterAddress_data {w : ℕ} {data rest out : List UInt8} (hne : data ≠ []) :
    unfilterAddress c ⟨(dataPieces data).flatten ++ rest, w, out⟩ = [] := by
  refine if_neg ?_
  dsimp only
  unfold dataPieces
  rw [if_neg hne]
  by_cases htag : NeedsTag data
  · have hdata := int32_mem tagData
    have hvalue : uint32 (int32 tagData) ≠ tagExe := by decide
    rw [if_pos htag, ← uint32_int32 tagData, List.cons_append, List.flatten_cons, List.append_assoc,
      (headWord_leBytes hdata.1 hdata.2 _).1]
    exact hvalue
  · obtain ⟨hlength, hvalue⟩ := not_or.mp htag
    rw [ne_eq, not_not] at hlength
    have hfour : 4 ≤ data.length := by
      rw [hlength]
      decide
    have htake : (data ++ rest).take 4 = data.take 4 := List.take_append_of_le_length hfour
    have hlt := leValue_lt (data.take 4)
    have htag' : isTag tagExe := by decide
    rw [List.length_take, Nat.min_eq_left hfour] at hlt
    rw [if_neg htag, List.nil_append, List.flatten_singleton, headWord, htake, uint32_int32, uint32_of_lt (by omega)]
    exact fun heq => hvalue (heq ▸ htag')

/-- What is asked of code. -/
def CodeFits (BlockSize : ℕ) (filter : Filter) (base : ℕ) (c : Chunks) (code : List UInt8) : Prop :=
  code ≠ [] → base = c.baseAddress ∧ code.length < 2 ^ 31 ∧
    (filter.run code base).length ≤ inBufferSize BlockSize

/-- **Code that fits** is decompressed. -/
lemma decompress_code (hroom : HasRoom BlockSize) (hcodes : ∀ n, 0 ≤ codes n) (hcapacity : 0 ≤ inCapacity BlockSize)
    (hinverts : filter.InvertedBy unfilter) {code : List UInt8} {base : ℕ} (hle : code.length ≤ BlockSize)
    (hfits : CodeFits BlockSize filter base c code) (rest out : List UInt8) (w : ℕ) (log : List ℕ) :
    ∃ w', ∀ t log', Ends (decompressRound BlockSize unfilter codes) (decompressRound BlockSize unfilter codes c)
        (⟨(codePieces filter base code).flatten ++ rest, w, out⟩, log) 0 (t, log') ↔
      Ends (decompressRound BlockSize unfilter codes) (decompressRound BlockSize unfilter codes (c.behind code))
        (⟨rest, w', out ++ code⟩, log ++ if code = [] then [] else [base]) 0 (t, log') := by
  by_cases hempty : code = []
  · subst hempty
    exact ⟨w, fun t log' => by simp [codePieces, Chunks.behind]⟩
  obtain ⟨rfl, hint, haccepted⟩ := hfits hempty
  have hsent : (filter.run code c.baseAddress).length < 2 ^ 31 := by
    have hmem : inBufferSize BlockSize < 2 ^ 31 := (int32_mem _).2
    omega
  have hinverse : unfilter (filter.run code c.baseAddress) code.length c.baseAddress = some code :=
    hinverts code c.baseAddress (by omega)
  refine ⟨w + 1, fun t log' => ?_⟩
  have hE : ¬(ErrCode.badCompressedData.toInt = 0 ∧ (t, log') =
      ((⟨(codePieces filter c.baseAddress code).flatten ++ rest, w, out⟩ : Port), log)) :=
    fun h => absurd h.1 (by decide)
  rw [ends_decompressRound, total_dispackBlock_exe hroom hcodes hcapacity hempty hle hsent hE,
    unfilterAddress_code hempty, hinverse, Chunks.behind, if_neg hempty, if_neg hempty]
  simp only [hint, haccepted, true_and, Option.some.injEq, exists_eq_left', List.take_length]

/-- **Code that is decompressed** without an error and for its address fits. -/
lemma codeFits_of_ends (hroom : HasRoom BlockSize) (hcodes : ∀ n, 0 ≤ codes n) (hcapacity : 0 ≤ inCapacity BlockSize)
    {code : List UInt8} {base : ℕ} (hle : code.length ≤ BlockSize)
    (hsent : code ≠ [] → (filter.run code base).length < 2 ^ 31) {rest out : List UInt8} {w : ℕ} {log log' : List ℕ}
    {t : Port} (h : Ends (decompressRound BlockSize unfilter codes) (decompressRound BlockSize unfilter codes c)
      (⟨(codePieces filter base code).flatten ++ rest, w, out⟩, log) 0
      (t, log ++ ((if code = [] then [] else [base]) ++ log'))) : CodeFits BlockSize filter base c code := by
  intro hempty
  have hE : ¬(ErrCode.badCompressedData.toInt = 0 ∧ (t, log ++ ((if code = [] then [] else [base]) ++ log')) =
      ((⟨(codePieces filter base code).flatten ++ rest, w, out⟩ : Port), log)) := fun h => absurd h.1 (by decide)
  rw [ends_decompressRound, total_dispackBlock_exe hroom hcodes hcapacity hempty hle (hsent hempty) hE,
    unfilterAddress_code hempty, if_neg hempty] at h
  obtain ⟨hint, haccepted, bytes, -, hends⟩ := h
  obtain ⟨notes, hnotes⟩ := hends.notes_grow
  dsimp only at hnotes
  rw [List.append_assoc, List.append_cancel_left_eq, List.singleton_append, List.singleton_append] at hnotes
  exact ⟨(List.cons.inj hnotes).1, hint, haccepted⟩

/-- **A chunk** is decompressed exactly if there is room for it. -/
lemma decompress_data (hcodes : ∀ n, 0 ≤ codes n) (hcapacity : 0 ≤ inCapacity BlockSize)
    (hc : c.chunkSize = chunkSize) {data : List UInt8} (hle : data.length ≤ chunkSize) (rest out : List UInt8) (w : ℕ)
    (log : List ℕ) :
    ∃ w', ∀ t log', Ends (decompressRound BlockSize unfilter codes) (decompressRound BlockSize unfilter codes c)
        (⟨(dataPieces data).flatten ++ rest, w, out⟩, log) 0 (t, log') ↔
      data.length ≤ inCapacity BlockSize ∧ Ends (decompressRound BlockSize unfilter codes)
        (decompressRound BlockSize unfilter codes (c.behind data)) (⟨rest, w', out ++ data⟩, log) 0 (t, log') := by
  by_cases hempty : data = []
  · subst hempty
    exact ⟨w, fun t log' => by simp [dataPieces, Chunks.behind, hcapacity]⟩
  refine ⟨w + 1, fun t log' => ?_⟩
  rw [ends_decompressRound, total_dispackBlock_data hcodes hcapacity hc hempty hle, unfilterAddress_data hempty,
    List.append_nil, Chunks.behind, if_neg hempty]

/-- The size of the chunks is kept. -/
lemma Chunks.chunkSize_behind (c : Chunks) (bytes : List UInt8) : (c.behind bytes).chunkSize = c.chunkSize := by
  unfold Chunks.behind
  split_ifs <;> rfl

/-- **What is written for the runs of a stream** is decompressed to it, with the same addresses, exactly if all runs
fit. -/
lemma decompress_ends (hroom : HasRoom BlockSize) (hcodes : ∀ n, 0 ≤ codes n) (hcapacity : 0 ≤ inCapacity BlockSize)
    (hinverts : filter.InvertedBy unfilter) (sent received : Chunks) (hc : received.chunkSize = chunkSize)
    (stream : List UInt8) (hsent : ∀ run ∈ runs BlockSize sent received stream, run.IsSent filter) (w : ℕ)
    (out : List UInt8) (log : List ℕ) :
    (∃ t, Ends (decompressRound BlockSize unfilter codes) (decompressRound BlockSize unfilter codes received)
        (⟨(runs BlockSize sent received stream).flatMap (Run.bytes filter), w, out⟩, log) 0
        (t, log ++ (runs BlockSize sent received stream).flatMap Run.address) ∧ t.written = out ++ stream) ↔
      ∀ run ∈ runs BlockSize sent received stream, run.Fits BlockSize filter := by
  induction hn : stream.length using Nat.strong_induction_on generalizing stream sent received w out log with
  | _ n ih =>
    subst hn
    by_cases hne : stream = []
    · subst hne
      rw [runs_nil, List.flatMap_nil, List.flatMap_nil, List.append_nil, List.append_nil]
      refine iff_of_true ⟨⟨[], w, out⟩, ?_, rfl⟩ fun run hrun => by cases hrun
      rw [ends_decompressRound, dispackBlock, total_bind, total_read4OrEof]
      exact ⟨fun hle => absurd hle (Nat.not_succ_le_zero 3), fun _ => ⟨rfl, rfl⟩, fun h => absurd rfl h⟩
    have hnil : ([] : List UInt8).length ≤ BlockSize - chunkSize := Nat.zero_le _
    obtain ⟨hle, hdata⟩ := length_nextRun_le hroom.le hnil stream
    have hlt := length_nextRun_lt BlockSize hne []
    have happend := nextRun_append BlockSize [] stream
    rw [runs_of_ne_nil hne] at hsent ⊢
    generalize nextRun BlockSize [] stream = next at hle hdata hlt happend hsent ⊢
    obtain ⟨code, data, rest⟩ := next
    dsimp only at hle hdata hlt happend hsent ⊢
    obtain ⟨hfirst, hlater⟩ := List.forall_mem_cons.mp hsent
    have hc' : ((received.behind code).behind data).chunkSize = chunkSize := by
      rw [Chunks.chunkSize_behind, Chunks.chunkSize_behind, hc]
    have hrest (w : ℕ) (out : List UInt8) (log : List ℕ) :=
      ih _ hlt _ _ hc' rest hlater w out log rfl
    generalize runs BlockSize (sent.advance (int32 code.length + data.length))
      ((received.behind code).behind data) rest = later at hrest ⊢
    -- the code, the chunk and the later runs are decompressed one after another
    have hbytes : (⟨code, data, sent, received⟩ : Run).bytes filter ++ later.flatMap (Run.bytes filter) =
        (codePieces filter sent.baseAddress code).flatten ++
          ((dataPieces data).flatten ++ later.flatMap (Run.bytes filter)) := by
      rw [Run.bytes, List.flatten_append, List.append_assoc]
    have haddress : (⟨code, data, sent, received⟩ : Run).address = if code = [] then [] else [sent.baseAddress] := rfl
    have hfits : (⟨code, data, sent, received⟩ : Run).Fits BlockSize filter ↔
        CodeFits BlockSize filter sent.baseAddress received code ∧ data.length ≤ inCapacity BlockSize := Iff.rfl
    rw [List.flatMap_cons, List.flatMap_cons, List.forall_mem_cons, hbytes, haddress, hfits, and_assoc]
    by_cases hcode : CodeFits BlockSize filter sent.baseAddress received code
    swap
    · refine iff_of_false (fun h => ?_) fun h => hcode h.1
      obtain ⟨t, hends, -⟩ := h
      exact hcode (codeFits_of_ends hroom hcodes hcapacity (by omega) hfirst hends)
    obtain ⟨w₁, hends₁⟩ := decompress_code hroom hcodes hcapacity hinverts (by omega) hcode
      ((dataPieces data).flatten ++ later.flatMap (Run.bytes filter)) out w log
    obtain ⟨w₂, hends₂⟩ := decompress_data hcodes hcapacity ((Chunks.chunkSize_behind _ _).trans hc) hdata
      (later.flatMap (Run.bytes filter)) (out ++ code) w₁ (log ++ if code = [] then [] else [sent.baseAddress])
    have hstream : out ++ stream = out ++ code ++ data ++ rest := by
      rw [← List.nil_append stream, ← happend]
      simp only [List.append_assoc]
    rw [← hrest w₂ (out ++ code ++ data) (log ++ if code = [] then [] else [sent.baseAddress]), and_iff_right hcode,
      hstream, ← List.append_assoc log]
    constructor
    · rintro ⟨t, ht, hwritten⟩
      rw [hends₁, hends₂] at ht
      exact ⟨ht.1, t, ht.2, hwritten⟩
    · rintro ⟨hfits, t, ht, hwritten⟩
      refine ⟨t, ?_, hwritten⟩
      rw [hends₁, hends₂]
      exact ⟨hfits, ht⟩

/-- A run that fits is sent. -/
lemma Run.Fits.isSent {run : Run} (h : run.Fits BlockSize filter) : run.IsSent filter := by
  intro hne
  have hmem : inBufferSize BlockSize < 2 ^ 31 := (int32_mem _).2
  have hle := (h.1 hne).2.2
  omega

/-! ## Blocks below a chunk -/

/-- Reading does not write. -/
lemma triple_callRead {P : List UInt8 → Prop} {capacity offset size : Int} :
    Triple (fun port => P port.written) (callRead capacity offset size) (fun _ port => P port.written) := by
  unfold callRead
  refine triple_bind triple_access fun _ => triple_bind triple_get fun port =>
    triple_bind (triple_set fun s hs => ?_) fun _ => triple_pure fun _ hP => hP
  obtain ⟨rfl, hP⟩ := hs
  exact hP

/-- Reading a run does not write. -/
lemma triple_readRun {P : List UInt8 → Prop} (code : List UInt8) :
    Triple (fun port => P port.written) (readRun BlockSize code) (fun _ port => P port.written) := by
  induction code using readRun.induct BlockSize with
  | case1 code ih =>
    rw [readRun]
    refine triple_bind triple_callRead fun chunk => triple_ite (fun _ => triple_pure fun _ hP => hP) fun hne =>
      triple_ite (fun _ => triple_pure fun _ hP => hP) fun hexe => triple_ite (fun hroom => ?_) fun _ =>
        triple_pure fun _ hP => hP
    exact ih chunk hne hroom

/-- What a write adds to what is written. -/
lemma triple_write {P Q : List UInt8 → Prop} {bytes : List UInt8} {capacity size : Int}
    (h : ∀ written, P written → Q (written ++ if size = 0 then [] else bytes.take size.toNat)) :
    Triple (fun port => P port.written) (write codes capacity size bytes) (fun _ port => Q port.written) := by
  unfold write
  by_cases hzero : size = 0
  · rw [if_pos hzero]
    refine triple_pure fun port hP => ?_
    have hQ := h _ hP
    rwa [if_pos hzero, List.append_nil] at hQ
  · rw [if_neg hzero]
    refine triple_bind triple_access fun _ => triple_bind triple_get fun port =>
      triple_bind (triple_set fun s hs => ?_) fun _ => triple_ite (fun _ => triple_exit) fun _ =>
        triple_pure fun _ hQ => hQ
    obtain ⟨rfl, hP⟩ := hs
    have hQ := h _ hP
    rwa [if_neg hzero] at hQ

/-- Writes keep what has been written. -/
lemma triple_write_prefix {written bytes : List UInt8} {capacity size : Int} :
    Triple (fun port => written <+: port.written) (write codes capacity size bytes)
      (fun _ port => written <+: port.written) :=
  @triple_write codes (fun w => written <+: w) (fun w => written <+: w) bytes capacity size
    fun _ h => h.trans (List.prefix_append _ _)

/-- The code and the chunk of a run are added to what is written. -/
lemma triple_writeRun {written : List UInt8} (run : List UInt8 × List UInt8) :
    Triple (fun port => written <+: port.written)
      (do
        writeCode BlockSize filter codes c run.1
        writeData BlockSize codes run.1.length run.2
        return (false, c.advance (int32 run.1.length + run.2.length)))
      (fun _ port => written <+: port.written) := by
  have hword (word : Int) : Triple (fun port => written <+: port.written) (write4 codes word)
      (fun _ port => written <+: port.written) := triple_write_prefix
  have hcode : Triple (fun port => written <+: port.written) (writeCode BlockSize filter codes c run.1)
      (fun _ port => written <+: port.written) :=
    triple_ite (fun _ => triple_pure fun _ h => h) fun _ => triple_bind triple_access fun _ =>
      triple_bind (hword _) fun _ => triple_bind (hword _) fun _ => triple_bind (hword _) fun _ => triple_write_prefix
  have htag : Triple (fun port => written <+: port.written) (writeTag codes run.2)
      (fun _ port => written <+: port.written) :=
    triple_ite (fun _ => triple_bind (hword _) fun _ => hword _) fun _ => triple_pure fun _ h => h
  have hdata : Triple (fun port => written <+: port.written) (writeData BlockSize codes run.1.length run.2)
      (fun _ port => written <+: port.written) :=
    triple_ite (fun _ => triple_pure fun _ h => h) fun _ => triple_bind htag fun _ => triple_write_prefix
  exact triple_bind hcode fun _ => triple_bind hdata fun _ => triple_pure fun _ h => h

/-- A run that is written keeps what is there behind the size of the chunks. -/
lemma triple_dispackCompressBlock {P : List UInt8 → Prop} {written : List UInt8} (x : Bool × Chunks)
    (hhead : Triple (fun port => P port.written) (writeChunkSize codes x.1) (fun _ port => written <+: port.written)) :
    Triple (fun port => P port.written) (dispackCompressBlock BlockSize filter codes x)
      (fun _ port => written <+: port.written) :=
  triple_bind (triple_readRun []) fun run => triple_ite
    (fun _ => triple_bind triple_get fun _ => triple_exit)
    fun _ => triple_bind hhead fun _ => triple_writeRun run

/-- The size of the chunks is in front of all that is written. -/
lemma ends_compress_prefix {code : Int} {t : Port} {log : List ℕ} {input : List UInt8}
    (h : Ends (compressRound BlockSize filter codes) (compressRound BlockSize filter codes (true, c))
      (⟨input, 0, []⟩, []) code (t, log)) : t.written = [] ∨ leBytes 4 (uint32 chunkSize) <+: t.written := by
  have hfirst : Triple (fun port => port.written = []) (writeChunkSize codes true)
      (fun _ port => leBytes 4 (uint32 chunkSize) <+: port.written) := by
    rw [writeChunkSize, if_pos rfl, write4]
    refine @triple_write codes (fun w => w = []) (fun w => leBytes 4 (uint32 chunkSize) <+: w) _ _ _ fun w hw => ?_
    rw [hw, List.nil_append, if_neg (by decide)]
    exact List.prefix_refl _
  have hlater (first_time : Bool) : Triple (fun port => leBytes 4 (uint32 chunkSize) <+: port.written)
      (writeChunkSize codes first_time) (fun _ port => leBytes 4 (uint32 chunkSize) <+: port.written) :=
    triple_ite (fun _ => triple_write_prefix) fun _ => triple_pure fun _ h => h
  cases h with
  | exit => exact .inl rfl
  | next _ hok rest =>
    refine .inr ?_
    have hround (x : Bool × Chunks) :
        Triple (fun s : Port × List ℕ => leBytes 4 (uint32 chunkSize) <+: s.1.written)
          (compressRound BlockSize filter codes x) (fun _ s => leBytes 4 (uint32 chunkSize) <+: s.1.written) :=
      triple_noting (triple_dispackCompressBlock x (hlater x.1))
    have hs : Triple (fun s : Port × List ℕ => s.1.written = []) (compressRound BlockSize filter codes (true, c))
        (fun _ s => leBytes 4 (uint32 chunkSize) <+: s.1.written) :=
      triple_noting (triple_dispackCompressBlock (P := fun written => written = []) (true, c) hfirst)
    exact rest.keeps (hround _) hround (hs _ _ _ rfl hok)

/-! ## Round trips of the stream -/

/-- There is room for the first read. -/
lemma le_of_ends {x : Bool × Chunks} {port t : Port} {log log' : List ℕ} {code : Int}
    (h : Ends (compressRound BlockSize filter codes) (compressRound BlockSize filter codes x) (port, log) code
      (t, log')) : chunkSize ≤ readCapacity BlockSize := by
  rw [ends_iff, compressRound, total_noting, dispackCompressBlock, total_bind, readRun, total_bind,
    total_callRead] at h
  have hle := h.1.2.2
  dsimp only at hle
  rw [List.length_nil] at hle
  omega

/-- How decompression of nothing ends. -/
lemma ends_decompressStart_nil {code : Int} {t : Port} {log : List ℕ} :
    Ends (decompressRound BlockSize unfilter codes) (decompressStart BlockSize) (⟨[], 0, []⟩, []) code (t, log) ↔
      0 = code ∧ (t, log) = (⟨[], 0, []⟩, []) := by
  rw [ends_iff, decompressStart, total_noting, dispackStart, total_bind, total_read4OrEof]
  exact ⟨fun h => h.2.1 rfl, fun h => ⟨fun hle => absurd hle (Nat.not_succ_le_zero 3), fun _ => h,
    fun hne => absurd rfl hne⟩⟩

/-- How decompression behind the size of the chunks ends. -/
lemma ends_decompressStart {body : List UInt8} {t : Port} {log : List ℕ} :
    Ends (decompressRound BlockSize unfilter codes) (decompressStart BlockSize)
        (⟨leBytes 4 (uint32 chunkSize) ++ body, 0, []⟩, []) 0 (t, log) ↔
      chunkSize ≤ BlockSize ∧ 0 ≤ inCapacity BlockSize ∧ Ends (decompressRound BlockSize unfilter codes)
        (decompressRound BlockSize unfilter codes ⟨chunkSize, 2 ^ 30⟩) (⟨body, 0, []⟩, []) 0 (t, log) := by
  have hvalue : uint32 chunkSize = chunkSize := uint32_of_lt (by decide)
  rw [ends_iff, decompressStart, total_noting, dispackStart, total_bind,
    total_read4OrEof_word (by decide) (by decide), hvalue]
  by_cases hlarge : BlockSize < chunkSize
  · rw [if_pos hlarge, total_bind, total_exit]
    exact iff_of_false (fun h => absurd h.1 (by decide)) fun h => absurd hlarge (not_lt.mpr h.1)
  rw [if_neg hlarge]
  by_cases hroom : inCapacity BlockSize < 0
  · rw [if_pos hroom, total_bind, total_exit]
    exact iff_of_false (fun h => absurd h.1 (by decide)) fun h => absurd hroom (not_lt.mpr h.2.1)
  rw [if_neg hroom, total_pure]
  exact ⟨fun h => ⟨not_lt.mp hlarge, not_lt.mp hroom, h⟩, fun h => h.2.2⟩

/-- The first run has the size of the chunks in front. -/
lemma ends_compress_first (hroom : HasRoom BlockSize) (hcodes : ∀ n, 0 ≤ codes n) {input : List UInt8}
    (hne : input ≠ []) {code : Int} {t : Port} {log : List ℕ} :
    Ends (compressRound BlockSize filter codes) (compressRound BlockSize filter codes (true, c)) (⟨input, 0, []⟩, [])
        code (t, log) ↔
      Ends (compressRound BlockSize filter codes) (compressRound BlockSize filter codes (false, c))
        (⟨input, 1, leBytes 4 (uint32 chunkSize)⟩, []) code (t, log) := by
  have hone (pieces : List (List UInt8)) (rest : List UInt8) :
      (⟨rest, 0, []⟩ : Port).sent (headPieces true ++ pieces) =
        (⟨rest, 1, leBytes 4 (uint32 chunkSize)⟩ : Port).sent (headPieces false ++ pieces) := by
    have hword : leBytes 4 (uint32 chunkSize) ≠ [] := by
      intro heq
      have hlength := length_leBytes 4 (uint32 chunkSize)
      rw [heq] at hlength
      cases hlength
    simp [Port.sent, headPieces, hword, Nat.add_comm]
  have hempty (port : Port) (hport : port.stream = input) : port.stream ≠ [] := hport ▸ hne
  rw [ends_iff, ends_iff, compressRound, total_noting, total_noting,
    total_dispackCompressBlock hroom hcodes (hempty ⟨input, 0, []⟩ rfl),
    total_dispackCompressBlock hroom hcodes (hempty ⟨input, 1, leBytes 4 (uint32 chunkSize)⟩ rfl), ← hone]
  rfl

/-- **DisPack decompression of what compression writes** stays inside its buffers, uses the same addresses for the
code and gives the input back exactly if there is room for a chunk, the sizes of the buffers do not wrap around, and
all runs of the input fit. -/
theorem dispackRoundTrips_iff (hBlockSize : BlockSize < 2 ^ 32) (hinverts : filter.InvertedBy unfilter)
    (hcodes : ∀ n, 0 ≤ codes n) (input : List UInt8) :
    DispackRoundTrips BlockSize filter unfilter codes input ↔
      chunkSize ≤ BlockSize + 2 ∧ BlockSize + 2 < 2 ^ 32 ∧
        (input ≠ [] → chunkSize ≤ BlockSize ∧ 0 ≤ inCapacity BlockSize ∧
          ∀ run ∈ runs BlockSize ⟨chunkSize, 2 ^ 30⟩ ⟨chunkSize, 2 ^ 30⟩ input, run.Fits BlockSize filter) := by
  by_cases hread : chunkSize ≤ readCapacity BlockSize
  swap
  · -- there is no room for the first read
    refine iff_of_false ?_ fun h => hread ?_
    · rintro ⟨code, t, u, log, -, hpacked, -⟩
      exact hread (le_of_ends hpacked)
    · rw [readCapacity, uint32_of_lt h.2.1]
      exact h.1
  have hcapacity : chunkSize ≤ BlockSize + 2 ∧ BlockSize + 2 < 2 ^ 32 := by
    by_cases hlt : BlockSize + 2 < 2 ^ 32
    · rw [readCapacity, uint32_of_lt hlt] at hread
      exact ⟨hread, hlt⟩
    · have hwraps : readCapacity BlockSize ≤ 1 := by
        unfold readCapacity uint32
        omega
      have hchunk : 1 < chunkSize := by decide
      omega
  rw [and_iff_right hcapacity.1, and_iff_right hcapacity.2]
  by_cases hne : input = []
  · subst hne
    refine iff_of_true ⟨0, ⟨[], 0, []⟩, ⟨[], 0, []⟩, [], le_rfl, ?_, ends_decompressStart_nil.mpr ⟨rfl, rfl⟩, rfl⟩
      fun h => absurd rfl h
    rw [ends_iff, compressRound, total_noting, total_dispackCompressBlock_nil hread rfl]
    exact ⟨rfl, rfl⟩
  rw [ne_eq, imp_iff_right hne]
  -- what is written is not empty, and begins with the size of the chunks
  have hstart : DispackRoundTrips BlockSize filter unfilter codes input → chunkSize ≤ BlockSize ∧
      0 ≤ inCapacity BlockSize := by
    rintro ⟨code, t, u, log, -, hpacked, hunpacked, hinput⟩
    rcases ends_compress_prefix hpacked with hempty | ⟨body, hbody⟩
    · rw [hempty, ends_decompressStart_nil] at hunpacked
      rw [(Prod.mk.inj hunpacked.2).1] at hinput
      exact absurd hinput.symm hne
    · rw [← hbody, ends_decompressStart] at hunpacked
      exact ⟨hunpacked.1, hunpacked.2.1⟩
  by_cases hfits : chunkSize ≤ BlockSize ∧ 0 ≤ inCapacity BlockSize
  swap
  · exact iff_of_false (fun h => hfits (hstart h)) fun h => hfits ⟨h.1, h.2.1⟩
  have hroom : HasRoom BlockSize := ⟨hfits.1, hcapacity.2⟩
  rw [and_iff_right hfits.1, and_iff_right hfits.2]
  obtain ⟨hsent, hwritten⟩ := @compress_ends BlockSize filter codes ⟨chunkSize, 2 ^ 30⟩ hroom hcodes
    ⟨chunkSize, 2 ^ 30⟩ ⟨input, 1, leBytes 4 (uint32 chunkSize)⟩ []
  have hdecompress := @decompress_ends BlockSize filter unfilter codes hroom hcodes hfits.2 hinverts ⟨chunkSize, 2 ^ 30⟩
    ⟨chunkSize, 2 ^ 30⟩ rfl input
  simp only [List.nil_append] at hwritten
  constructor
  · rintro ⟨code, t, u, log, hcode, hpacked, hunpacked, hinput⟩
    rw [ends_compress_first hroom hcodes hne] at hpacked
    obtain ⟨hbody, hlog⟩ := hwritten code t log hpacked
    rw [hbody, ends_decompressStart, hlog] at hunpacked
    exact (hdecompress (hsent.mpr ⟨code, t, log, hcode, hpacked⟩) 0 [] []).mp ⟨u, hunpacked.2.2, hinput⟩
  · intro hall
    have hint := fun run hrun => (hall run hrun).isSent
    obtain ⟨code, t, log, hcode, hpacked⟩ := hsent.mp hint
    obtain ⟨u, hunpacked, hinput⟩ := (hdecompress hint 0 [] []).mpr hall
    obtain ⟨hbody, hlog⟩ := hwritten code t log hpacked
    refine ⟨code, t, u, log, hcode, (ends_compress_first hroom hcodes hne).mpr hpacked, ?_, hinput⟩
    rw [hbody, ends_decompressStart, hlog]
    exact ⟨hfits.1, hfits.2, hunpacked⟩

/-! ## A filter that changes nothing -/

/-- A filter that changes nothing; there is no code in the inputs below. -/
def unchanged : Filter where
  run code _ := if code.length < 2 ^ 32 then code else []
  lt := by
    intro code _
    split_ifs with h
    · exact h
    · rw [List.length_nil]
      norm_num

/-- It is inverted by doing nothing. -/
lemma unchanged_invertedBy : unchanged.InvertedBy fun bytes _ _ => some bytes := by
  intro code _ hlt
  exact congrArg some (if_pos hlt)

/-- One byte, with the default size of the blocks. -/
theorem dispackRoundTrips_iff_default :
    DispackRoundTrips (8 * mb) unchanged (fun bytes _ _ => some bytes) (fun _ => 0) [97] := by
  refine (dispackRoundTrips_iff (by decide) unchanged_invertedBy (fun _ => le_rfl) [97]).mpr
    ⟨by decide, by decide, fun hne => ⟨by decide, by decide, ?_⟩⟩
  have hchunk : nextRun (8 * mb) [] [97] = ([], [97], []) := by
    rw [nextRun, if_neg hne, if_pos (by decide)]
    rfl
  rw [runs_of_ne_nil hne, hchunk, runs_nil, List.forall_mem_singleton]
  exact ⟨fun h => absurd rfl h, by decide⟩

/-- One byte in blocks of 16382 bytes: the size of the chunks is refused. -/
theorem not_dispackRoundTrips : ¬∀ BlockSize < 2 ^ 32, ∀ (filter : Filter) (unfilter : Unfilter),
    filter.InvertedBy unfilter → ∀ codes : ℕ → Int, (∀ n, 0 ≤ codes n) → ∀ input : List UInt8,
      DispackRoundTrips BlockSize filter unfilter codes input := by
  intro hall
  obtain ⟨code, t, u, log, -, hpacked, hunpacked, hinput⟩ :=
    hall 16382 (by decide) unchanged _ unchanged_invertedBy (fun _ => 0) (fun _ => le_rfl) [97]
  rcases ends_compress_prefix hpacked with hempty | ⟨body, hbody⟩
  · rw [hempty, ends_decompressStart_nil] at hunpacked
    rw [(Prod.mk.inj hunpacked.2).1] at hinput
    cases hinput
  · rw [← hbody, ends_decompressStart] at hunpacked
    exact absurd hunpacked.1 (by decide)

/-! ## The addresses -/

/-- An address that is in range, as all are. -/
def Chunks.InRange (c : Chunks) : Prop := 2 ^ 30 ≤ c.baseAddress ∧ c.baseAddress < 3 * 2 ^ 30

/-- The address behind up to 1 GiB. -/
lemma Chunks.InRange.advance_eq (hc : c.InRange) {n : ℕ} (hle : n ≤ 2 ^ 30) : c.advance n =
    { c with baseAddress := if 3 * 2 ^ 30 ≤ c.baseAddress + n then c.baseAddress + n - 2 * 2 ^ 30
        else c.baseAddress + n } := by
  obtain ⟨h₁, h₂⟩ := hc
  have hsum : uint32 ((c.baseAddress : Int) + n) = c.baseAddress + n := by
    rw [← Nat.cast_add, uint32_of_lt (by omega)]
  unfold Chunks.advance
  rw [hsum]

/-- The address stays in range. -/
lemma Chunks.InRange.advance (hc : c.InRange) {n : ℕ} (hle : n ≤ 2 ^ 30) : (c.advance n).InRange := by
  rw [hc.advance_eq hle]
  obtain ⟨h₁, h₂⟩ := hc
  unfold Chunks.InRange
  dsimp only
  split <;> omega

/-- Writing a block that is empty leaves the address. -/
lemma Chunks.InRange.behind_eq (hc : c.InRange) (bytes : List UInt8) : c.behind bytes = c.advance bytes.length := by
  unfold Chunks.behind
  split_ifs with hempty
  · subst hempty
    have hzero := hc.advance_eq (Nat.zero_le _)
    rw [List.length_nil, hzero, Nat.add_zero, if_neg (not_le.mpr hc.2)]
  · rfl

/-- Two blocks advance the address as one. -/
lemma Chunks.InRange.advance_advance (hc : c.InRange) {m n : ℕ} (hle : m + n ≤ 2 ^ 30) :
    (c.advance m).advance n = c.advance (m + n : ℕ) := by
  rw [(hc.advance (by omega)).advance_eq (by omega), hc.advance_eq hle, hc.advance_eq (by omega)]
  obtain ⟨h₁, h₂⟩ := hc
  rw [Chunks.mk.injEq]
  refine ⟨rfl, ?_⟩
  dsimp only
  split_ifs <;> omega

/-- **The addresses are the same** on both sides for blocks up to 1 GiB. -/
theorem received_eq_sent (hle : chunkSize ≤ BlockSize) (hlarge : BlockSize ≤ 2 ^ 30) (hc : c.InRange)
    (stream : List UInt8) : ∀ run ∈ runs BlockSize c c stream, run.received = run.sent := by
  induction hn : stream.length using Nat.strong_induction_on generalizing stream c with
  | _ n ih =>
    subst hn
    by_cases hne : stream = []
    · subst hne
      rw [runs_nil]
      exact fun run hrun => by cases hrun
    have hnil : ([] : List UInt8).length ≤ BlockSize - chunkSize := Nat.zero_le _
    have hrun := (length_nextRun_le hle hnil stream).1
    have hlt := length_nextRun_lt BlockSize hne []
    rw [runs_of_ne_nil hne]
    generalize nextRun BlockSize [] stream = next at hrun hlt ⊢
    obtain ⟨code, data, rest⟩ := next
    dsimp only at hrun hlt ⊢
    have hsize : int32 code.length + data.length = (code.length + data.length : ℕ) := by
      rw [int32_of_mem (by omega) (by omega), Nat.cast_add]
    have hbehind : (c.behind code).behind data = c.advance (code.length + data.length : ℕ) := by
      rw [hc.behind_eq, (hc.advance (by omega)).behind_eq, hc.advance_advance (by omega)]
    rw [hsize, hbehind]
    exact List.forall_mem_cons.mpr ⟨rfl, ih _ hlt (hc.advance (by omega)) rest rfl⟩

end DArc.BlockDecoders
