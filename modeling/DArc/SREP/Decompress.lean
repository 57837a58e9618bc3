import DArc.SREP.Blocks

/-!
# Decompression with the output file as dictionary

`decompress` rebuilds one block of the I/O-LZ format: literals are copied from the compressed block, the part of a
match in front of the block is read from the output file, the rest is copied inside the output buffer.
`decompressFile` decompresses block after block and appends each to the file.

### Main results

* `decompress_block`: the words and literals of a valid list give the block back;
* `decompressFile_blocks`: decompressing all blocks gives the file back, block by block.
-/

namespace DArc.SREP

/-- Copies one match: first what lies in front of the block, from the file `fout`, then what lies in the block. -/
def copyMatch (fout : List UInt8) (blockStart : ℕ) (out : List UInt8) (m : LZMatch) : List UInt8 :=
  let bytes := if m.src < blockStart then min m.len (blockStart - m.src) else 0
  memcpyLZMatch (out ++ span fout m.src bytes) (m.src + bytes - blockStart) (m.len - bytes)

/-- The loop over the matches of a block; `none` is the answer for bad compressed data. -/
def decompressLoop (roundMatches : Bool) (baseLen : ℕ) (fout : List UInt8) (blockStart outSize : ℕ) :
    List StatRecord → List UInt8 → List UInt8 → Option (List UInt8)
  | [], input, out => if input.length ≠ outSize - out.length then none else some (out ++ input)
  | r :: rs, input, out =>
    let m := decodeLZMatch false roundMatches baseLen (blockStart + out.length) r
    if input.length < r.litLen ∨ outSize - out.length < uint32 (r.litLen + m.len : ℕ) ∨ m.dest ≤ m.src then none
    else
      decompressLoop roundMatches baseLen fout blockStart outSize rs (input.drop r.litLen)
        (copyMatch fout blockStart (out ++ input.take r.litLen) m)

/-- Decompresses one block of the I/O-LZ format. -/
def decompress (roundMatches : Bool) (baseLen : ℕ) (fout : List UInt8) (blockStart : ℕ) (b : CompressedBlock) :
    Option (List UInt8) :=
  decompressLoop roundMatches baseLen fout blockStart b.origsize (statRecords roundMatches b.stat) b.literals []

/-- Decompresses the blocks of a file behind the bytes already written; the result are the blocks. -/
def decompressFile (roundMatches : Bool) (baseLen : ℕ) :
    List UInt8 → List CompressedBlock → Option (List (List UInt8))
  | _, [] => some []
  | fout, b :: bs => do
    let out ← decompress roundMatches baseLen fout fout.length b
    let outs ← decompressFile roundMatches baseLen (fout ++ out) bs
    return out :: outs

variable {data : List UInt8} {bufsize L start stop pos : ℕ} {round : Bool} {m : LZMatch} {ms : List LZMatch}

/-- Copying a true match continues the block by the bytes the match stands for. -/
lemma copyMatch_span (hsrc : m.src < m.dest) (hrep : Repeats data m.src m.dest m.len) (hstart : start ≤ m.dest)
    (hend : m.dest + m.len ≤ data.length) :
    copyMatch (data.take start) start (span data start (m.dest - start)) m =
      span data start (m.dest + m.len - start) := by
  have hdest : start + (m.dest - start) = m.dest := by omega
  have hjoin : m.dest - start + m.len = m.dest + m.len - start := by omega
  unfold copyMatch memcpyLZMatch
  dsimp only
  by_cases hold : m.src < start
  · -- the part of the source in front of the block is in the file
    rw [if_pos hold]
    have hfile : span (data.take start) m.src (min m.len (start - m.src)) =
        span data m.dest (min m.len (start - m.src)) := by
      rw [span_take (by omega)]
      exact Repeats.span_eq fun j hj => hrep j (by omega)
    have hfront := span_append data start (m.dest - start) (min m.len (start - m.src))
    rw [hdest] at hfront
    rw [hfile, hfront]
    rcases Nat.le_total m.len (start - m.src) with hlen | hlen
    · rw [min_eq_left hlen, Nat.sub_self, copyWithin, hjoin]
    · have hback : m.src + (start - m.src) - start = 0 := by omega
      have hrest : m.dest - start + (start - m.src) + (m.len - (start - m.src)) = m.dest + m.len - start := by
        omega
      have htail := hrep.tail (k := start - m.src) (n := m.len - (start - m.src)) (by omega)
      have hplace₁ : m.src + (start - m.src) = start + 0 := by omega
      have hplace₂ : m.dest + (start - m.src) = start + (m.dest - start + (start - m.src)) := by omega
      rw [hplace₁, hplace₂] at htail
      rw [min_eq_right hlen, hback, copyWithin_span (by omega) (by omega) htail, hrest]
  · rw [if_neg hold, span_zero, List.append_nil, Nat.add_zero, Nat.sub_zero]
    have hplace : start + (m.src - start) = m.src := by omega
    have hcopy : copyWithin (span data start (m.dest - start)) (m.src - start) m.len =
        span data start (m.dest - start + m.len) :=
      copyWithin_span (by omega) (by omega) (by rw [hplace, hdest]; exact hrep)
    rw [hcopy, hjoin]

/-- The loop over the records of a valid list gives the block back. -/
lemma decompressLoop_records (h : Limits data bufsize round L)
    (hms : ValidFrom (TrueMatch data round L) stop pos ms) (hstart : start ≤ pos) (hsize : stop ≤ start + bufsize)
    (hend : stop ≤ data.length) :
    decompressLoop round L (data.take start) start (stop - start) (recordsOf round L pos ms)
      (literalsOf data stop pos ms) (span data start (pos - start)) = some (span data start (stop - start)) := by
  have hplace : start + (pos - start) = pos := by omega
  induction ms generalizing pos with
  | nil =>
    have hle : pos ≤ stop := hms
    have hrest : stop - start - (pos - start) = stop - pos := by omega
    have hjoin := span_append data start (pos - start) (stop - pos)
    have hsum : pos - start + (stop - pos) = stop - start := by omega
    rw [hplace, hsum] at hjoin
    rw [recordsOf, literalsOf, decompressLoop, length_span (by omega), length_span (by omega), hrest,
      if_neg (not_not.mpr rfl), hjoin]
  | cons m ms ih =>
    have htail := hms.2.2.le
    have hpos := hms.1
    have hbuf := h.bufsize_lt
    have hdata := h.data_lt
    have hm := hms.2.1
    have hm_dest : m.dest = pos + (m.dest - pos) := by omega
    have hdecode : decodeLZMatch false round L pos (recordOf round L (m.dest - pos) (m.dest - m.src) m.len) = m :=
      decode_encoded h.unit_pos hm_dest (by omega) hm.src_lt.le hm.unit_dvd_src hm.unit_dvd_len hm.base_le (by omega)
    have hsum : uint32 ((m.dest - pos + m.len : ℕ) : Int) = m.dest - pos + m.len := uint32_of_lt (by omega)
    have hlit : (span data pos (m.dest - pos)).length = m.dest - pos := length_span (by omega)
    have hout : (span data start (pos - start)).length = pos - start := length_span (by omega)
    have hin : (recordOf round L (m.dest - pos) (m.dest - m.src) m.len).litLen = m.dest - pos := rfl
    have hfront := span_append data start (pos - start) (m.dest - pos)
    have hjoin : pos - start + (m.dest - pos) = m.dest - start := by omega
    rw [hplace, hjoin] at hfront
    rw [recordsOf, literalsOf, decompressLoop, hout, hplace, hdecode, hin, hsum, if_neg, List.take_left' hlit, List.drop_left' hlit, hfront,
      copyMatch_span hm.src_lt hm.repeats (by omega) (by omega)]
    · exact ih hms.2.2 (by omega) (by omega)
    · rw [List.length_append, hlit]
      have hlt := hm.src_lt
      omega

/-- **The words and literals of a valid list give the block back.** -/
theorem decompress_block (h : Limits data bufsize round L)
    (hms : ValidFrom (TrueMatch data round L) stop start ms) (hsize : stop ≤ start + bufsize)
    (hend : stop ≤ data.length) {stat : List ℕ} (hstat : statRecords round stat = recordsOf round L start ms) :
    decompress round L (data.take start) start ⟨literalsOf data stop start ms, stop - start, stat⟩ =
      some (span data start (stop - start)) := by
  have hloop := decompressLoop_records h hms le_rfl hsize hend
  rw [Nat.sub_self, span_zero] at hloop
  unfold decompress
  dsimp only
  rw [hstat, hloop]

/-- **Decompressing all blocks gives the file back, block by block.** -/
theorem decompressFile_blocks (h : Limits data bufsize round L) {lists : List (List LZMatch)}
    {blocks : List CompressedBlock}
    (hlists : ValidBlocks (TrueMatch data round L) data bufsize start lists)
    (hblocks : encodeFile round L data bufsize start lists = some blocks) :
    decompressFile round L (data.take start) blocks = some (blocksFrom data bufsize start lists.length) := by
  induction lists generalizing start blocks with
  | nil =>
    cases hblocks
    rfl
  | cons ms lists ih =>
    obtain ⟨hlt, hms, hrest⟩ := hlists
    have hstop : blockEnd data bufsize start ≤ start + bufsize := min_le_left _ _
    have hend : blockEnd data bufsize start ≤ data.length := min_le_right _ _
    have hle := hms.le
    have hsum : start + (blockEnd data bufsize start - start) = blockEnd data bufsize start := by omega
    obtain ⟨stat, rest, hstat, hrestblocks, rfl⟩ := encodeFile_cons h hms hblocks
    have hblock := decompress_block h hms hstop hend hstat
    have hlen : (data.take start).length = start := by rw [List.length_take]; omega
    rw [decompressFile, hlen, hblock]
    dsimp only [Option.bind_eq_bind, Option.bind_some]
    rw [take_append_span, hsum, ih hrest hrestblocks]
    rfl

end DArc.SREP
