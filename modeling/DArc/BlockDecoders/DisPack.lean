import DArc.BlockDecoders.Port

/-!
# The blocks of a DisPack stream

`DISPACK_METHOD::decompress` finds three kinds of blocks: chunks of a fixed size that begin with any bytes but a
tag, data with a tag and a size, and code that was filtered, with a tag and two sizes.  Only the sizes of code are
compared with the buffers, and only from above.

### Outline

* `Unfilter`: the codec;
* `dispackStart`, `dispackBlock`: the method, before the loop and in it;
* `Block`, `headBlock`: the blocks in the stream;
* `BlockFits`: what is asked of the block that is reached.

### Main results

* `dispack_bounded_iff`: the method stays inside its buffers and ends when all blocks that it reaches fit.
-/

namespace DArc.BlockDecoders

open Guarded

/-! ## The method -/

/-- `DisUnFilter`, for its input, the size of the output and the address of the code: `none` is a failure. -/
abbrev Unfilter := List UInt8 → ℕ → ℕ → Option (List UInt8)

/-- `TAG_DATA`. -/
def tagData : ℕ := 0xC71B3AE1

/-- `TAG_EXE`. -/
def tagExe : ℕ := tagData + 1

/-- `is_tag`. -/
def isTag (x : ℕ) : Prop := x ^^^ tagData < 0x10

instance (x : ℕ) : Decidable (isTag x) := inferInstanceAs (Decidable (_ < _))

/-- `InBufferSize`. -/
def inBufferSize (BlockSize : ℕ) : Int := int32 (BlockSize + BlockSize / 4 + 1024 : ℕ)

/-- The size of the input buffer; a negative size cannot be allocated. -/
def inCapacity (BlockSize : ℕ) : Int := int32 (inBufferSize BlockSize + 2)

/-- The size of the output buffer. -/
def outCapacity (BlockSize : ℕ) : ℕ := uint32 (BlockSize + 2 : ℕ)

/-- What the method keeps from one block to the next. -/
structure Chunks where
  /-- `CHUNK_SIZE`. -/
  chunkSize : Int
  /-- `BaseAddress`. -/
  baseAddress : ℕ

/-- The address after a block. -/
def Chunks.advance (c : Chunks) (len : Int) : Chunks :=
  let baseAddress := uint32 (c.baseAddress + len)
  { c with baseAddress := if 3 * 2 ^ 30 ≤ baseAddress then baseAddress - 2 * 2 ^ 30 else baseAddress }

/-- The size of the chunks is an `int`. -/
def Chunks.IsInt (c : Chunks) : Prop := -2 ^ 31 ≤ c.chunkSize ∧ c.chunkSize < 2 ^ 31

/-- `DISPACK_METHOD::decompress` up to the loop. -/
def dispackStart (BlockSize : ℕ) : Guarded Port Chunks := do
  let chunkSize ← read4OrEof
  -- the comparison is one of unsigned numbers
  if BlockSize < uint32 chunkSize then exit ErrCode.badCompressedData.toInt
  if inCapacity BlockSize < 0 then exit ErrCode.notEnoughMemory.toInt
  return ⟨chunkSize, 2 ^ 30⟩

/-- The rest of a block of `len` bytes, of which `done` bytes are in the buffer. -/
def dispackData (BlockSize : ℕ) (codes : ℕ → Int) (c : Chunks) (done len : Int) (start : List UInt8) :
    Guarded Port Chunks := do
  let bytes ← readFull (inCapacity BlockSize) done (int32 (len - done))
  write codes (inCapacity BlockSize) len (start ++ bytes)
  return c.advance len

/-- The call of the codec, which touches the input and the room that it is passed. -/
def callUnfilter (BlockSize : ℕ) (unfilter : Unfilter) (c : Chunks) (InSize OutSize : Int)
    (bytes : List UInt8) : Guarded Port (List UInt8) := do
  access ⟨inCapacity BlockSize, 0, InSize⟩
  access ⟨outCapacity BlockSize, 0, uint32 OutSize⟩
  match unfilter bytes (uint32 OutSize) c.baseAddress with
  | none => exit ErrCode.badCompressedData.toInt
  | some out => return out

/-- A block of code, behind its tag. -/
def dispackExe (BlockSize : ℕ) (unfilter : Unfilter) (codes : ℕ → Int) (c : Chunks) : Guarded Port Chunks := do
  let OutSize ← read4
  let InSize ← read4
  if BlockSize < uint32 OutSize ∨ inBufferSize BlockSize < InSize then exit ErrCode.badCompressedData.toInt
  let bytes ← readFull (inCapacity BlockSize) 0 InSize
  let out ← callUnfilter BlockSize unfilter c InSize OutSize bytes
  write codes (outCapacity BlockSize) OutSize out
  return c.advance OutSize

/-- One block in `DISPACK_METHOD::decompress`. -/
def dispackBlock (BlockSize : ℕ) (unfilter : Unfilter) (codes : ℕ → Int) (c : Chunks) :
    Guarded Port Chunks := do
  let tag ← read4OrEof
  if ¬isTag (uint32 tag) ∨ uint32 tag = tagData then
    if uint32 tag = tagData then
      let len ← read4
      dispackData BlockSize codes c 0 len []
    else
      -- the bytes that are no tag are the first of a chunk
      access ⟨inCapacity BlockSize, 0, 4⟩
      dispackData BlockSize codes c 4 c.chunkSize (leBytes 4 (uint32 tag))
  else if uint32 tag = tagExe then dispackExe BlockSize unfilter codes c
  else exit ErrCode.badCompressedData.toInt

/-! ## The blocks in the stream -/

/-- A block: bytes of which some are in the buffer, or filtered code. -/
inductive Block
  | data (done len : Int) (start : List UInt8)
  | exe (OutSize InSize : Int)
  deriving DecidableEq

/-- The block at the front of the stream, and what is behind its header; `none` where the method leaves before it
reads more than the header. -/
def headBlock (BlockSize : ℕ) (c : Chunks) (stream : List UInt8) : Option (Block × List UInt8) :=
  let tag := uint32 (headWord stream)
  let stream₁ := stream.drop 4
  let stream₂ := stream₁.drop 4
  if stream.length < 4 then none
  else if ¬isTag tag then some (.data 4 c.chunkSize (leBytes 4 tag), stream₁)
  else if tag = tagData then
    if stream₁.length < 4 then none else some (.data 0 (headWord stream₁) [], stream₂)
  else if tag = tagExe then
    if stream₁.length < 4 ∨ stream₂.length < 4 then none
    else if BlockSize < uint32 (headWord stream₁) ∨ inBufferSize BlockSize < headWord stream₂ then none
    else some (.exe (headWord stream₁) (headWord stream₂), stream₂.drop 4)
  else none

/-- How many bytes the method reads for a block. -/
def Block.readSize : Block → Int
  | data done len _ => int32 (len - done)
  | exe _ InSize => InSize

/-- What is written for a block, its size first; `none` is an error of the codec. -/
def Block.output (unfilter : Unfilter) (c : Chunks) : Block → List UInt8 → Option (Int × List UInt8)
  | data _ len start, bytes => some (len, start ++ bytes)
  | exe OutSize _, bytes => (unfilter bytes (uint32 OutSize) c.baseAddress).map fun out => (OutSize, out)

/-- The block fits into the buffers, when `stream` is behind its header: data have a size between the bytes that
are there and the size of the buffer; the size of filtered code is not negative; and when it can be read, the size
of its output fits, and is not negative when it is written. -/
def BlockFits (BlockSize : ℕ) (unfilter : Unfilter) (c : Chunks) : Block × List UInt8 → Prop
  | (.data done len _, _) => done ≤ len ∧ len ≤ inCapacity BlockSize
  | (.exe OutSize InSize, stream) => 0 ≤ InSize ∧ InSize ≤ inCapacity BlockSize ∧
      (InSize.toNat ≤ stream.length → uint32 OutSize ≤ outCapacity BlockSize ∧
        ((unfilter (stream.take InSize.toNat) (uint32 OutSize) c.baseAddress).isSome → 0 ≤ OutSize))

/-- The port when the rest of a block has been read from `stream`, and the block was written. -/
def Port.behind (port : Port) (stream : List UInt8) (size : Int) (out : Int × List UInt8) : Port :=
  ({ port with stream := stream.drop size.toNat } : Port).wrote out.1 out.2

/-- Where the method goes on: behind a block that is complete and is decompressed, if its output is accepted. -/
def dispackNext (BlockSize : ℕ) (unfilter : Unfilter) (codes : ℕ → Int) (x : Chunks × Port) :
    Option (Chunks × Port) :=
  (headBlock BlockSize x.1 x.2.stream).bind fun (block, stream) =>
    if stream.length < block.readSize.toNat then none
    else
      (block.output unfilter x.1 (stream.take block.readSize.toNat)).bind fun out =>
        if out.1 ≠ 0 ∧ codes x.2.writes < 0 then none
        else some (x.1.advance out.1, x.2.behind stream block.readSize out)

/-- The block that is reached fits. -/
def ReachedFits (BlockSize : ℕ) (unfilter : Unfilter) (x : Chunks × Port) : Prop :=
  ∀ block, headBlock BlockSize x.1 x.2.stream = some block → BlockFits BlockSize unfilter x.1 block

/-! ## What a block needs -/

variable {BlockSize : ℕ} {unfilter : Unfilter} {codes : ℕ → Int} {c : Chunks} {port : Port}

/-- A result below the range of `int`. -/
lemma int32_of_lt {x : Int} (h₁ : -2 ^ 32 ≤ x) (h₂ : x < -2 ^ 31) : int32 x = x + 2 ^ 32 := by
  unfold int32
  rw [Int.bmod_def]
  split <;> omega

/-- Reading the rest of a block fits when the block fits. -/
lemma read_fits_iff {len done room : Int} (hlen : -2 ^ 31 ≤ len ∧ len < 2 ^ 31) (hdone : 0 ≤ done ∧ done ≤ 4)
    (hroom : room < 2 ^ 31) :
    0 ≤ int32 (len - done) ∧ done + int32 (len - done) ≤ room ↔ done ≤ len ∧ len ≤ room := by
  by_cases hle : -2 ^ 31 ≤ len - done
  · rw [int32_of_mem hle (by omega)]
    omega
  · rw [int32_of_lt (by omega) (by omega)]
    omega

/-- The input buffer is smaller than all sizes. -/
lemma inCapacity_lt (BlockSize : ℕ) : inCapacity BlockSize < 2 ^ 31 := (int32_mem _).2

/-- What the rest of a block of data needs. -/
lemma wp_dispackData {done len : Int} {start : List UInt8} {Q : Chunks → Port → Prop}
    (hlen : -2 ^ 31 ≤ len ∧ len < 2 ^ 31) (hdone : 0 ≤ done ∧ done ≤ 4) (hroom : done ≤ inCapacity BlockSize) :
    wp (dispackData BlockSize codes c done len start) Q port ↔
      (done ≤ len ∧ len ≤ inCapacity BlockSize) ∧
        ((int32 (len - done)).toNat ≤ port.stream.length → len = 0 ∨ 0 ≤ codes port.writes →
          Q (c.advance len) (port.behind port.stream (int32 (len - done))
            (len, start ++ port.stream.take (int32 (len - done)).toNat))) := by
  have hfits := read_fits_iff hlen hdone (inCapacity_lt BlockSize)
  unfold dispackData
  rw [wp_bind, wp_readFull hdone.1 hroom, ← and_assoc, hfits]
  generalize int32 (len - done) = size
  have hnonneg : 0 ≤ inCapacity BlockSize := hdone.1.trans hroom
  simp only [wp_bind, wp_write hnonneg, wp_pure, Port.writes_skip]
  unfold Port.behind Port.skip
  constructor
  · rintro ⟨hle, hnext⟩
    exact ⟨hle, fun hlength hcode => (hnext hlength).2.2 hcode⟩
  · rintro ⟨hle, hnext⟩
    exact ⟨hle, fun hlength => ⟨hdone.1.trans hle.1, hle.2, fun hcode => hnext hlength hcode⟩⟩

/-- What the call of the codec needs. -/
lemma wp_callUnfilter {InSize OutSize : Int} {bytes : List UInt8} {Q : List UInt8 → Port → Prop}
    (hIn : 0 ≤ InSize ∧ InSize ≤ inCapacity BlockSize) :
    wp (callUnfilter BlockSize unfilter c InSize OutSize bytes) Q port ↔
      uint32 OutSize ≤ outCapacity BlockSize ∧
        ∀ out, unfilter bytes (uint32 OutSize) c.baseAddress = some out → Q out port := by
  unfold callUnfilter
  simp only [wp_bind, wp_access]
  generalize uint32 OutSize = size
  unfold Access.Fits
  cases unfilter bytes size c.baseAddress with
  | none => simp [hIn]
  | some out => simp [hIn]

/-- A size that is not negative stays the same as an unsigned one. -/
lemma uint32_of_nonneg {x : Int} (h₁ : 0 ≤ x) (h₂ : x < 2 ^ 31) : (uint32 x : Int) = x := by
  obtain ⟨n, rfl⟩ := Int.eq_ofNat_of_zero_le h₁
  rw [uint32_of_lt (by omega)]

/-- What filtered code needs, when its sizes are accepted. -/
lemma wp_dispackExe {Q : Chunks → Port → Prop} (hroom : 0 ≤ inCapacity BlockSize) :
    wp (dispackExe BlockSize unfilter codes c) Q port ↔
      (4 ≤ port.stream.length → 4 ≤ (port.stream.drop 4).length →
        ¬(BlockSize < uint32 (headWord port.stream) ∨ inBufferSize BlockSize < headWord (port.stream.drop 4)) →
        BlockFits BlockSize unfilter c (.exe (headWord port.stream) (headWord (port.stream.drop 4)),
            (port.stream.drop 4).drop 4) ∧
          ((headWord (port.stream.drop 4)).toNat ≤ ((port.stream.drop 4).drop 4).length →
            ∀ out, unfilter (((port.stream.drop 4).drop 4).take (headWord (port.stream.drop 4)).toNat)
                (uint32 (headWord port.stream)) c.baseAddress = some out →
              headWord port.stream = 0 ∨ 0 ≤ codes port.writes →
                Q (c.advance (headWord port.stream)) (port.behind ((port.stream.drop 4).drop 4)
                  (headWord (port.stream.drop 4)) (headWord port.stream, out)))) := by
  have hstream : (port.skip 4).stream = port.stream.drop 4 := Port.stream_skip port 4
  have hout := headWord_mem port.stream
  unfold dispackExe
  rw [wp_bind, wp_read4]
  refine imp_congr_right fun _ => ?_
  rw [wp_bind, wp_read4, hstream]
  refine imp_congr_right fun _ => ?_
  generalize headWord port.stream = OutSize at hout ⊢
  generalize headWord (port.stream.drop 4) = InSize
  dsimp only
  by_cases hrefused : BlockSize < uint32 OutSize ∨ inBufferSize BlockSize < InSize
  · rw [if_pos hrefused, wp_bind]
    exact iff_of_true (wp_exit _) fun h => absurd hrefused h
  rw [if_neg hrefused, wp_bind, wp_readFull le_rfl hroom, Port.stream_skip, hstream]
  have hbehind (out : List UInt8) : (((port.skip 4).skip 4).skip InSize.toNat).wrote OutSize out =
      port.behind ((port.stream.drop 4).drop 4) InSize (OutSize, out) := rfl
  have hwrites : (((port.skip 4).skip 4).skip InSize.toNat).writes = port.writes := by
    rw [Port.writes_skip, Port.writes_skip, Port.writes_skip]
  generalize ((port.skip 4).skip 4).skip InSize.toNat = port' at hbehind hwrites ⊢
  generalize (port.stream.drop 4).drop 4 = stream at hbehind ⊢
  have hwritten : 0 ≤ OutSize → uint32 OutSize ≤ outCapacity BlockSize → OutSize ≤ outCapacity BlockSize := by
    intro hnonneg hle
    have hsame := uint32_of_nonneg hnonneg hout.2
    omega
  unfold BlockFits
  simp only [hrefused, not_false_eq_true, true_imp_iff, zero_add, ← hbehind, ← hwrites]
  by_cases hIn : 0 ≤ InSize ∧ InSize ≤ inCapacity BlockSize
  · by_cases hlength : InSize.toNat ≤ stream.length
    · rw [wp_bind, wp_callUnfilter hIn]
      simp only [wp_bind, wp_write (Int.natCast_nonneg (outCapacity BlockSize)), wp_pure, hIn, hlength, true_and,
        true_imp_iff, and_assoc]
      refine and_congr_right fun hroom => ?_
      cases unfilter (stream.take InSize.toNat) (uint32 OutSize) c.baseAddress with
      | none => simp
      | some out =>
        simp only [Option.some.injEq, forall_eq', Option.isSome_some, true_imp_iff]
        refine and_congr_right fun hnonneg => ?_
        exact and_iff_right (hwritten hnonneg hroom)
    · simp only [hIn, hlength, false_imp_iff, and_self]
  · refine iff_of_false (fun h => hIn ⟨h.1, h.2.1⟩) fun h => hIn ⟨h.1.1, h.1.2.1⟩

/-- Where the method goes on, block by block. -/
lemma forall_dispackNext {Q : Chunks → Port → Prop} :
    (∀ x, dispackNext BlockSize unfilter codes (c, port) = some x → Q x.1 x.2) ↔
      ∀ block, headBlock BlockSize c port.stream = some block →
        block.1.readSize.toNat ≤ block.2.length →
          ∀ out, block.1.output unfilter c (block.2.take block.1.readSize.toNat) = some out →
            out.1 = 0 ∨ 0 ≤ codes port.writes →
              Q (c.advance out.1) (port.behind block.2 block.1.readSize out) := by
  unfold dispackNext
  cases headBlock BlockSize c port.stream with
  | none => exact iff_of_true (fun _ h => by cases h) fun _ h => by cases h
  | some block =>
    obtain ⟨block, stream⟩ := block
    simp only [Option.bind_some, Option.some.injEq, forall_eq']
    generalize block.readSize = size
    by_cases hcut : stream.length < size.toNat
    · rw [if_pos hcut]
      exact iff_of_true (fun _ h => by cases h) fun hlength => absurd hlength (not_le.mpr hcut)
    · rw [if_neg hcut]
      simp only [not_lt.mp hcut, true_imp_iff]
      cases block.output unfilter c (stream.take size.toNat) with
      | none => exact iff_of_true (fun _ h => by cases h) fun _ h => by cases h
      | some out =>
        simp only [Option.bind_some, Option.some.injEq, forall_eq']
        by_cases hcode : out.1 ≠ 0 ∧ codes port.writes < 0
        · rw [if_pos hcode]
          refine iff_of_true (fun _ h => by cases h) fun h => ?_
          rcases h with h | h
          · exact absurd h hcode.1
          · exact absurd h (not_le.mpr hcode.2)
        · rw [if_neg hcode]
          have hgoes : out.1 = 0 ∨ 0 ≤ codes port.writes := by
            rw [not_and_or, not_not, not_lt] at hcode
            exact hcode
          simp only [Option.some.injEq, forall_eq', hgoes, true_imp_iff]

/-- The tag of data is a tag. -/
lemma isTag_tagData : isTag tagData := by decide

/-- What a block of the method needs. -/
lemma wp_dispackBlock {Q : Chunks → Port → Prop} (hroom : 0 ≤ inCapacity BlockSize)
    (hc : c.IsInt) :
    wp (dispackBlock BlockSize unfilter codes c) Q port ↔ ReachedFits BlockSize unfilter (c, port) ∧
      ∀ x, dispackNext BlockSize unfilter codes (c, port) = some x → Q x.1 x.2 := by
  rw [forall_dispackNext]
  unfold dispackBlock ReachedFits headBlock
  rw [wp_bind, wp_read4OrEof]
  dsimp only
  by_cases hshort : port.stream.length < 4
  · rw [if_pos hshort]
    refine iff_of_true (fun hlength => absurd hlength (not_le.mpr hshort)) ⟨fun _ h => ?_, fun _ h => ?_⟩
    · cases h
    · cases h
  rw [if_neg hshort]
  simp only [not_lt.mp hshort, true_imp_iff]
  have hstream : (port.skip 4).stream = port.stream.drop 4 := Port.stream_skip port 4
  have hwrites : (port.skip 4).writes = port.writes := Port.writes_skip port 4
  have hbehind (stream : List UInt8) (size : Int) (out : Int × List UInt8) :
      (port.skip 4).behind stream size out = port.behind stream size out := rfl
  generalize uint32 (headWord port.stream) = tag
  by_cases htag : ¬isTag tag
  · have hne : tag ≠ tagData := fun heq => htag (heq ▸ isTag_tagData)
    rw [if_pos (.inl htag), if_neg hne, if_pos htag, wp_bind, wp_access]
    unfold Access.Fits
    simp only [Option.some.injEq, forall_eq', le_refl, true_and, zero_add]
    unfold BlockFits Block.readSize Block.output
    dsimp only
    by_cases hfour : 4 ≤ inCapacity BlockSize
    · rw [wp_dispackData hc (by decide) hfour, hstream, hwrites]
      simp only [hbehind, Option.some.injEq, forall_eq', hfour, and_true]
      exact and_iff_right (by decide)
    · exact iff_of_false (fun h => hfour h.1.2) fun h => hfour (h.1.1.trans h.1.2)
  · rw [if_neg htag]
    by_cases hdata : tag = tagData
    · rw [if_pos (.inr hdata), if_pos hdata, if_pos hdata, wp_bind, wp_read4, hstream]
      by_cases hcut : (port.stream.drop 4).length < 4
      · rw [if_pos hcut]
        refine iff_of_true (fun hlength => absurd hlength (not_le.mpr hcut)) ⟨fun _ h => ?_, fun _ h => ?_⟩
        · cases h
        · cases h
      rw [if_neg hcut]
      simp only [not_lt.mp hcut, true_imp_iff]
      rw [wp_dispackData (headWord_mem _) (by decide) hroom, Port.stream_skip, Port.writes_skip, hstream, hwrites]
      unfold BlockFits Block.readSize Block.output
      simp only [Option.some.injEq, forall_eq']
      rfl
    · rw [if_neg (not_or.mpr ⟨htag, hdata⟩), if_neg hdata]
      by_cases hexe : tag = tagExe
      · rw [if_pos hexe, if_pos hexe, wp_dispackExe hroom, hstream, hwrites]
        by_cases hcut : (port.stream.drop 4).length < 4 ∨ ((port.stream.drop 4).drop 4).length < 4
        · rw [if_pos hcut]
          refine iff_of_true (fun h₁ h₂ => ?_) ⟨fun _ h => ?_, fun _ h => ?_⟩
          · rcases hcut with hcut | hcut
            · exact absurd h₁ (not_le.mpr hcut)
            · exact absurd h₂ (not_le.mpr hcut)
          · cases h
          · cases h
        · obtain ⟨h₁, h₂⟩ := not_or.mp hcut
          rw [if_neg hcut]
          simp only [not_lt.mp h₁, not_lt.mp h₂, true_imp_iff]
          generalize headWord (port.stream.drop 4) = OutSize
          generalize headWord ((port.stream.drop 4).drop 4) = InSize
          by_cases hrefused : BlockSize < uint32 OutSize ∨ inBufferSize BlockSize < InSize
          · rw [if_pos hrefused]
            refine iff_of_true (fun h => absurd hrefused h) ⟨fun _ h => ?_, fun _ h => ?_⟩
            · cases h
            · cases h
          · rw [if_neg hrefused]
            unfold Block.readSize Block.output
            simp only [hrefused, not_false_eq_true, true_imp_iff, Option.some.injEq, forall_eq', hbehind,
              Option.map_eq_some_iff, forall_exists_index, and_imp]
            refine and_congr_right fun _ => imp_congr_right fun _ => ?_
            constructor
            · rintro h _ out hout rfl
              exact h out hout
            · exact fun h out hout => h _ out hout rfl
      · rw [if_neg hexe, if_neg hexe]
        refine iff_of_true (wp_exit _) ⟨fun _ h => ?_, fun _ h => ?_⟩
        · cases h
        · cases h

/-- The header of a block takes up some of the stream. -/
lemma length_headBlock_lt {stream : List UInt8} {block : Block × List UInt8}
    (h : headBlock BlockSize c stream = some block) : block.2.length < stream.length := by
  have hdrop (xs : List UInt8) : (xs.drop 4).length ≤ xs.length := by
    rw [List.length_drop]
    omega
  have hfirst : ¬stream.length < 4 → (stream.drop 4).length < stream.length := by
    rw [List.length_drop]
    omega
  have h₂ := hdrop (stream.drop 4)
  have h₃ := hdrop ((stream.drop 4).drop 4)
  unfold headBlock at h
  dsimp only at h
  split_ifs at h with hshort
  all_goals
    obtain rfl := Option.some.inj h
    refine lt_of_le_of_lt ?_ (hfirst hshort)
    dsimp only
    omega

/-- The method goes on with the same size of chunks, and with less of the stream. -/
lemma dispackNext_spec {x y : Chunks × Port} (h : dispackNext BlockSize unfilter codes x = some y) :
    y.1.chunkSize = x.1.chunkSize ∧ y.2.stream.length < x.2.stream.length := by
  obtain ⟨⟨block, stream⟩, hblock, h⟩ := Option.bind_eq_some_iff.mp h
  have hlt := length_headBlock_lt hblock
  dsimp only at h hlt
  split_ifs at h
  obtain ⟨out, -, h⟩ := Option.bind_eq_some_iff.mp h
  split_ifs at h
  obtain rfl := Option.some.inj h
  refine ⟨rfl, ?_⟩
  unfold Port.behind
  rw [Port.stream_wrote, List.length_drop]
  omega

/-- **DisPack decompression** stays inside its buffers and ends exactly when all blocks that it reaches fit. -/
theorem dispack_bounded_iff (stream : List UInt8) :
    Bounded (dispackStart BlockSize) (dispackBlock BlockSize unfilter codes) ⟨stream, 0, []⟩ ↔
      (4 ≤ stream.length → uint32 (headWord stream) ≤ BlockSize → 0 ≤ inCapacity BlockSize →
        ∀ n x, reached (dispackNext BlockSize unfilter codes) n
            (⟨headWord stream, 2 ^ 30⟩, ⟨stream.drop 4, 0, []⟩) = some x →
          ReachedFits BlockSize unfilter x) := by
  rw [bounded_iff]
  unfold dispackStart
  rw [wp_bind, wp_read4OrEof]
  refine imp_congr_right fun _ => ?_
  dsimp only
  by_cases hlarge : BlockSize < uint32 (headWord stream)
  · rw [if_pos hlarge, wp_bind]
    exact iff_of_true (wp_exit _) fun hle => absurd hlarge (not_lt.mpr hle)
  rw [if_neg hlarge]
  by_cases hroom : inCapacity BlockSize < 0
  · rw [if_pos hroom, wp_bind]
    exact iff_of_true (wp_exit _) fun _ hnonneg => absurd hroom (not_lt.mpr hnonneg)
  rw [if_neg hroom, wp_pure]
  simp only [not_lt.mp hlarge, not_lt.mp hroom, true_imp_iff]
  have hstep (c : Chunks) (port : Port) (Q : Chunks → Port → Prop) (hc : c.IsInt) :
      wp (dispackBlock BlockSize unfilter codes c) Q port ↔ ReachedFits BlockSize unfilter (c, port) ∧
        ∀ x, dispackNext BlockSize unfilter codes (c, port) = some x → Q x.1 x.2 :=
    wp_dispackBlock (not_lt.mp hroom) hc
  have hstart (baseAddress : ℕ) : Chunks.IsInt ⟨headWord stream, baseAddress⟩ := by
    unfold Chunks.IsInt
    dsimp only
    exact headWord_mem stream
  refine bounded_iff_reached (ReachedFits BlockSize unfilter) (fun x => x.1.IsInt)
    (dispackNext BlockSize unfilter codes) (fun x => x.2.stream.length) hstep (fun x y hx h => ?_)
    (fun x y h => (dispackNext_spec h).2) (hstart _)
  unfold Chunks.IsInt
  rw [(dispackNext_spec h).1]
  exact hx

end DArc.BlockDecoders
