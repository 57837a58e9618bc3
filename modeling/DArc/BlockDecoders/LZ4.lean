import DArc.BlockDecoders.Port

/-!
# The blocks of an LZ4 stream

`LZ4_METHOD::decompress` reads the size of each block, which is negative for a stored one, and the block to a
buffer of `BlockSize` bytes, without a check of the size.

### Outline

* `Decompressor`: the codec, which respects the bounds that it is passed;
* `lz4Start`, `lz4Block`: the method, before the loop and in it;
* `lz4Sizes`: the sizes of the blocks that are reached.

### Main results

* `lz4_bounded_iff`: the method stays inside its buffers and ends when all these sizes fit.
-/

namespace DArc.BlockDecoders

open Guarded

/-- `LZ4_decompress_safe`, for its input and the size of the output buffer: an error or the size of the output,
and the output. -/
structure Decompressor where
  run : List UInt8 → Int → Int × List UInt8
  /-- The output is not larger than the buffer. -/
  le : ∀ input capacity, 0 ≤ (run input capacity).1 → (run input capacity).1 ≤ capacity

/-- `LZ4_METHOD::decompress` up to the loop. -/
def lz4Start (BlockSize : ℕ) : Guarded Port Unit := do
  let version ← readLenOrEof BlockSize 1
  if version ≠ [1] then exit ErrCode.badCompressedData.toInt

/-- The call of the codec, which touches the input and the room that it is passed. -/
def callLz4 (BlockSize : ℕ) (lz4 : Decompressor) (InSize : Int) (bytes : List UInt8) :
    Guarded Port (Int × List UInt8) := do
  access ⟨BlockSize, 0, InSize⟩
  access ⟨BlockSize, 0, max 0 (int32 BlockSize)⟩
  return lz4.run bytes (int32 BlockSize)

/-- One block in `LZ4_METHOD::decompress`. -/
def lz4Block (BlockSize : ℕ) (lz4 : Decompressor) (codes : ℕ → Int) (_ : Unit) : Guarded Port Unit := do
  let InSize ← read4OrEof
  if InSize < 0 then
    let InSize := int32 (-InSize)
    let bytes ← readFull BlockSize 0 InSize
    write codes BlockSize InSize bytes
  else
    let bytes ← readFull BlockSize 0 InSize
    let out ← callLz4 BlockSize lz4 InSize bytes
    if out.1 < 0 then exit ErrCode.badCompressedData.toInt
    write codes BlockSize out.1 out.2

/-- What is written for a block, its size first; `none` is an error of the codec. -/
def lz4Output (BlockSize : ℕ) (lz4 : Decompressor) (InSize : Int) (bytes : List UInt8) :
    Option (Int × List UInt8) :=
  if InSize < 0 then some (-InSize, bytes)
  else if (lz4.run bytes (int32 BlockSize)).1 < 0 then none
  else some (lz4.run bytes (int32 BlockSize))

/-- What is behind the block at the front of the stream. -/
def behind (stream : List UInt8) : List UInt8 := (stream.drop 4).drop (headWord stream).natAbs

/-- A block takes up some of the stream. -/
lemma length_behind_lt {stream : List UInt8} (h : ¬stream.length < 4) :
    (behind stream).length < stream.length := by
  unfold behind
  rw [List.length_drop, List.length_drop]
  omega

/-- The number of writes after the block at the front of the stream, if the method goes on: the block is
complete and is decompressed, and its output is accepted. -/
def lz4Next (BlockSize : ℕ) (lz4 : Decompressor) (codes : ℕ → Int) (stream : List UInt8) (writes : ℕ) :
    Option ℕ :=
  if (stream.drop 4).length < (headWord stream).natAbs then none
  else
    (lz4Output BlockSize lz4 (headWord stream) ((stream.drop 4).take (headWord stream).natAbs)).bind fun out =>
      if out.1 = 0 then some writes else if codes writes < 0 then none else some (writes + 1)

/-- The sizes of the blocks that are reached, when some writes have been made; `next` says whether the method goes
on behind the block at the front, and with how many writes. -/
def sizesFrom (next : List UInt8 → ℕ → Option ℕ) (stream : List UInt8) (writes : ℕ) : List Int :=
  if stream.length < 4 then []
  else
    headWord stream :: match next stream writes with
      | none => []
      | some writes => sizesFrom next (behind stream) writes
termination_by stream.length
decreasing_by exact length_behind_lt ‹_›

/-- The sizes of the blocks that the method reaches. -/
def lz4Sizes (BlockSize : ℕ) (lz4 : Decompressor) (codes : ℕ → Int) (stream : List UInt8) : List Int :=
  sizesFrom (lz4Next BlockSize lz4 codes) stream 0

/-- The size of a block can be negated and fits into the buffer. -/
def Lz4Fits (BlockSize : ℕ) (InSize : Int) : Prop := InSize ≠ -2 ^ 31 ∧ InSize.natAbs ≤ BlockSize

variable {BlockSize : ℕ} {lz4 : Decompressor} {codes : ℕ → Int}

/-- The room that the codec is passed is not larger than the buffer. -/
lemma int32_le (h : BlockSize < 2 ^ 32) : int32 BlockSize ≤ BlockSize := by
  by_cases hsmall : (BlockSize : Int) < 2 ^ 31
  · exact (int32_of_mem (by omega) hsmall).le
  · rw [int32_of_ge (by omega) (by omega)]
    omega

/-- What the output of a block needs. -/
lemma lz4Output_le {InSize : Int} {bytes : List UInt8} {out : Int × List UInt8} (hBlockSize : BlockSize < 2 ^ 32)
    (hfits : Lz4Fits BlockSize InSize) (h : lz4Output BlockSize lz4 InSize bytes = some out) :
    0 ≤ out.1 ∧ out.1 ≤ BlockSize := by
  unfold lz4Output at h
  obtain ⟨-, hle⟩ := hfits
  split_ifs at h with hneg herror
  · obtain rfl := Option.some.inj h
    dsimp only
    omega
  · obtain rfl := Option.some.inj h
    have hcapacity := lz4.le bytes (int32 BlockSize) (not_lt.mp herror)
    exact ⟨not_lt.mp herror, hcapacity.trans (int32_le hBlockSize)⟩

/-- What the call of the codec needs. -/
lemma wp_callLz4 (hBlockSize : BlockSize < 2 ^ 32) {InSize : Int} {bytes : List UInt8}
    {Q : Int × List UInt8 → Port → Prop} {port : Port} :
    wp (callLz4 BlockSize lz4 InSize bytes) Q port ↔
      0 ≤ InSize ∧ InSize ≤ BlockSize ∧ Q (lz4.run bytes (int32 BlockSize)) port := by
  have hle := int32_le hBlockSize
  unfold callLz4
  simp only [wp_bind, wp_access, wp_pure]
  generalize int32 BlockSize = room at hle
  unfold Access.Fits
  simp only [le_refl, true_and, zero_add, le_max_left, max_le_iff, Int.natCast_nonneg, hle, and_assoc]

/-- The smallest `int` cannot be negated. -/
lemma int32_neg_of_min {x : Int} (h : x = -2 ^ 31) : int32 (-x) < 0 := by
  rw [int32_of_ge (by omega) (by omega)]
  omega

/-- The size of a stored block. -/
lemma int32_neg_eq {x : Int} (h : -2 ^ 31 ≤ x) (hmin : x ≠ -2 ^ 31) (hneg : x < 0) :
    int32 (-x) = x.natAbs := by
  rw [int32_of_mem (by omega) (by omega)]
  omega

/-- What a block of the method needs. -/
lemma wp_lz4Block (hBlockSize : BlockSize < 2 ^ 32) {Q : Unit → Port → Prop} {port : Port} :
    wp (lz4Block BlockSize lz4 codes ()) Q port ↔
      (4 ≤ port.stream.length → Lz4Fits BlockSize (headWord port.stream) ∧
        ((headWord port.stream).natAbs ≤ (port.stream.drop 4).length →
          ∀ out, lz4Output BlockSize lz4 (headWord port.stream)
              ((port.stream.drop 4).take (headWord port.stream).natAbs) = some out →
            (out.1 = 0 ∨ 0 ≤ codes port.writes) →
            Q () (((port.skip 4).skip (headWord port.stream).natAbs).wrote out.1 out.2))) := by
  have hmem := headWord_mem port.stream
  have houtput : ∀ bytes out, Lz4Fits BlockSize (headWord port.stream) →
      lz4Output BlockSize lz4 (headWord port.stream) bytes = some out → 0 ≤ out.1 ∧ out.1 ≤ BlockSize :=
    fun _ _ => lz4Output_le hBlockSize
  unfold lz4Block
  rw [wp_bind, wp_read4OrEof]
  refine imp_congr_right fun hlength => ?_
  generalize headWord port.stream = InSize at hmem houtput ⊢
  have hstream : (port.skip 4).stream = port.stream.drop 4 := rfl
  by_cases hneg : InSize < 0
  · rw [if_pos hneg]
    dsimp only
    rw [wp_bind, wp_readFull le_rfl (Int.natCast_nonneg BlockSize)]
    by_cases hmin : InSize = -2 ^ 31
    · refine iff_of_false ?_ ?_
      · rintro ⟨hnonneg, -⟩
        exact absurd hnonneg (not_le.mpr (int32_neg_of_min hmin))
      · rintro ⟨⟨hne, -⟩, -⟩
        exact hne hmin
    have hsize := int32_neg_eq hmem.1 hmin hneg
    have hout : ∀ bytes, lz4Output BlockSize lz4 InSize bytes = some ((InSize.natAbs : Int), bytes) := by
      intro bytes
      unfold lz4Output
      rw [if_pos hneg, Int.ofNat_natAbs_of_nonpos hneg.le]
    simp only [hsize, Int.toNat_natCast, hstream, wp_write (Int.natCast_nonneg BlockSize), hout,
      Option.some.injEq, forall_eq', Port.writes_skip]
    unfold Lz4Fits
    constructor
    · rintro ⟨-, hle, hnext⟩
      exact ⟨⟨hmin, by omega⟩, fun hlength hcode => (hnext hlength).2.2 hcode⟩
    · rintro ⟨⟨-, hle⟩, hnext⟩
      exact ⟨by omega, by omega, fun hlength => ⟨by omega, by omega, fun hcode => hnext hlength hcode⟩⟩
  · rw [if_neg hneg, wp_bind, wp_readFull le_rfl (Int.natCast_nonneg BlockSize)]
    have hsize : InSize.toNat = InSize.natAbs := by omega
    simp only [hsize, hstream, wp_bind, wp_callLz4 hBlockSize, wp_ite, wp_exit,
      wp_write (Int.natCast_nonneg BlockSize), Port.writes_skip]
    generalize (port.stream.drop 4).take InSize.natAbs = bytes at houtput ⊢
    have hout := houtput bytes (lz4.run bytes (int32 BlockSize))
    unfold lz4Output at hout ⊢
    rw [if_neg hneg] at hout ⊢
    generalize lz4.run bytes (int32 BlockSize) = out at hout ⊢
    unfold Lz4Fits at hout ⊢
    by_cases herror : out.1 < 0
    · simp only [herror, if_true, not_true_eq_false, reduceCtorEq, false_imp_iff, implies_true, and_true]
      omega
    · rw [if_neg herror] at hout ⊢
      simp only [herror, false_imp_iff, not_false_eq_true, true_imp_iff, true_and, Option.some.injEq,
        forall_eq']
      constructor
      · rintro ⟨hnonneg, hle, hnext⟩
        exact ⟨by omega, fun hlength hcode => (hnext hlength).2.2.2.2 hcode⟩
      · rintro ⟨⟨hne, hle⟩, hnext⟩
        obtain ⟨h₁, h₂⟩ := hout ⟨hne, hle⟩ rfl
        exact ⟨by omega, by omega, fun hlength => ⟨by omega, by omega, h₁, h₂, fun hcode => hnext hlength hcode⟩⟩

/-- A property of all sizes that are reached. -/
lemma forall_mem_sizesFrom {P : Int → Prop} (next : List UInt8 → ℕ → Option ℕ) (stream : List UInt8)
    (writes : ℕ) :
    (∀ size ∈ sizesFrom next stream writes, P size) ↔ (4 ≤ stream.length → P (headWord stream) ∧
      ∀ writes', next stream writes = some writes' → ∀ size ∈ sizesFrom next (behind stream) writes', P size) := by
  rw [sizesFrom]
  by_cases hshort : stream.length < 4
  · rw [if_pos hshort]
    exact iff_of_true (fun _ h => by cases h) fun hlength => absurd hlength (not_le.mpr hshort)
  · rw [if_neg hshort, List.forall_mem_cons]
    simp only [not_lt.mp hshort, true_imp_iff]
    refine and_congr_right fun _ => ?_
    cases next stream writes with
    | none => exact iff_of_true (fun _ h => by cases h) fun _ h => by cases h
    | some writes' => simp only [Option.some.injEq, forall_eq']

/-- Where the method goes on behind a block. -/
lemma forall_lz4Next {P : ℕ → Prop} (stream : List UInt8) (writes : ℕ) :
    (∀ writes', lz4Next BlockSize lz4 codes stream writes = some writes' → P writes') ↔
      ((headWord stream).natAbs ≤ (stream.drop 4).length →
        ∀ out, lz4Output BlockSize lz4 (headWord stream) ((stream.drop 4).take (headWord stream).natAbs) =
            some out →
          (out.1 = 0 ∨ 0 ≤ codes writes) → P (if out.1 = 0 then writes else writes + 1)) := by
  unfold lz4Next
  generalize headWord stream = InSize
  by_cases hcut : (stream.drop 4).length < InSize.natAbs
  · rw [if_pos hcut]
    exact iff_of_true (fun _ h => by cases h) fun hlength => absurd hlength (not_le.mpr hcut)
  · rw [if_neg hcut]
    simp only [not_lt.mp hcut, true_imp_iff]
    cases lz4Output BlockSize lz4 InSize ((stream.drop 4).take InSize.natAbs) with
    | none => exact iff_of_true (fun _ h => by cases h) fun _ h => by cases h
    | some out =>
      simp only [Option.some.injEq, forall_eq', Option.bind_some]
      by_cases hzero : out.1 = 0
      · simp [hzero]
      · by_cases hcode : codes writes < 0
        · simp [hzero, hcode]
        · simp [hzero, hcode, not_lt.mp hcode]

/-- **The loop of the method** stays inside its buffers and ends when all sizes that it reaches fit. -/
lemma lz4_loop (hBlockSize : BlockSize < 2 ^ 32) (port : Port) :
    Bounded (pure ()) (lz4Block BlockSize lz4 codes) port ↔
      ∀ InSize ∈ sizesFrom (lz4Next BlockSize lz4 codes) port.stream port.writes, Lz4Fits BlockSize InSize := by
  induction hn : port.stream.length using Nat.strong_induction_on generalizing port with
  | _ n ih =>
    subst hn
    rw [bounded_round, wp_lz4Block hBlockSize, forall_mem_sizesFrom]
    refine imp_congr_right fun hlength => and_congr_right fun _ => ?_
    rw [forall_lz4Next]
    refine imp_congr_right fun _ => forall_congr' fun out => imp_congr_right fun _ => imp_congr_right fun _ => ?_
    have hstream : (((port.skip 4).skip (headWord port.stream).natAbs).wrote out.1 out.2).stream =
        behind port.stream := by
      rw [Port.stream_wrote, Port.stream_skip, Port.stream_skip, behind]
    have hwrites : (((port.skip 4).skip (headWord port.stream).natAbs).wrote out.1 out.2).writes =
        if out.1 = 0 then port.writes else port.writes + 1 := by
      rw [Port.writes_wrote, Port.writes_skip, Port.writes_skip]
    rw [ih _ (length_behind_lt (not_lt.mpr hlength)) _ (congrArg List.length hstream), hstream, hwrites]

/-- **LZ4 decompression** stays inside its buffers and ends exactly when the buffers are not empty and the size
of every block that is reached fits. -/
theorem lz4_bounded_iff (hBlockSize : BlockSize < 2 ^ 32) (stream : List UInt8) :
    Bounded (lz4Start BlockSize) (lz4Block BlockSize lz4 codes) ⟨stream, 0, []⟩ ↔
      0 < BlockSize ∧ ∀ blocks, stream = 1 :: blocks →
        ∀ InSize ∈ lz4Sizes BlockSize lz4 codes blocks, Lz4Fits BlockSize InSize := by
  rw [bounded_iff]
  unfold lz4Start
  simp only [wp_bind, wp_readLenOrEof, wp_ite, wp_exit, wp_pure, lz4_loop hBlockSize]
  have hone : (1 : Int).toNat = 1 := rfl
  simp only [hone, Port.stream_skip, Port.writes_skip, not_not, implies_true, true_and]
  unfold lz4Sizes
  constructor
  · rintro ⟨-, hpos, h⟩
    refine ⟨by omega, ?_⟩
    rintro blocks rfl
    exact h Nat.one_ne_zero rfl
  · rintro ⟨hpos, h⟩
    refine ⟨by decide, by omega, fun _ heq => ?_⟩
    obtain ⟨blocks, rfl⟩ : ∃ blocks, stream = 1 :: blocks := by
      cases stream with
      | nil => cases heq
      | cons b blocks => exact ⟨blocks, congrArg (· :: blocks) (List.cons.inj heq).1⟩
    exact h blocks rfl

end DArc.BlockDecoders
