import DArc.SREP.Blocks

/-!
# The second pass

In the Future-LZ and Index-LZ formats a match is stored in the block of its source.  The second pass collects the
matches of all blocks, sorts them by source and scans the sorted list once for every block: matches that end in
front of the block are skipped, the others are truncated to the block and written.  The scan for the next block
resumes at the last match that was skipped.

The matches whose source lies in a block, truncated to it, are `partsIn`.  Since a match is not longer than a block,
the ones the scan does not look at again end in front of the next block, so every scan finds all its parts.

### Main results

* `collectMatches_eq`: the matches read back are the ones of the first pass;
* `scanMatches_eq`: one scan writes the parts of the matches in the block;
* `secondPass_eq`: what the pass writes for every block;
* `secondPass_isSome_iff`: the pass stays inside its buffer exactly if no block has sources of more than
  `bufsize / 16` matches.
-/

namespace DArc.SREP

/-! ## The pass -/

/-- The matches of one block, from its records. -/
def matchesOf (roundMatches : Bool) (baseLen : ℕ) : ℕ → List StatRecord → List LZMatch
  | _, [] => []
  | blockPos, r :: rs =>
    let m := decodeLZMatch false roundMatches baseLen blockPos r
    m :: matchesOf roundMatches baseLen (uint64 (blockPos + uint32 (r.litLen + m.len : ℕ) : ℕ)) rs

/-- The matches of all blocks. -/
def collectMatches (roundMatches : Bool) (baseLen : ℕ) : ℕ → List CompressedBlock → List LZMatch
  | _, [] => []
  | start, b :: bs =>
    matchesOf roundMatches baseLen start (statRecords roundMatches b.stat) ++
      collectMatches roundMatches baseLen (start + b.origsize) bs

/-- The part of a match whose source is in a block. -/
def truncateMatch (blockStart blockEnd : ℕ) (m : LZMatch) : LZMatch :=
  let src := max m.src blockStart
  ⟨src, src + (m.dest - m.src), min (m.len - (src - m.src)) (blockEnd - src)⟩

/-- One scan of the sorted matches: the words of the block, and the place at which the next scan begins.  The end of
the list stands for the loop barrier. -/
def scanMatches (blockStart blockEnd : ℕ) : ℕ → List LZMatch → List LZMatch → Option (List ℕ × List LZMatch)
  | _, saved, [] => some ([], saved)
  | blockPos, saved, m :: ms =>
    if m.src < blockEnd then
      if m.src + m.len ≤ blockStart then scanMatches blockStart blockEnd blockPos (m :: ms) ms
      else do
        let part := truncateMatch blockStart blockEnd m
        let words ← encodeLZMatch false 0 (part.src - blockPos) (m.dest - m.src) part.len
        let rest ← scanMatches blockStart blockEnd part.src saved ms
        return (words ++ rest.1, rest.2)
    else some ([], saved)

/-- The number of words the buffer of the second pass has room for. -/
def futureLZMaxStats (bufsize : ℕ) : ℕ := bufsize / 4

/-- The loop over the blocks; `none` is a write behind the end of the buffer of the words.  The literals of the
Index-LZ format were written in the first pass. -/
def secondPass (indexLZ roundMatches : Bool) (baseLen : ℕ) (data : List UInt8) (bufsize : ℕ) :
    ℕ → List LZMatch → List CompressedBlock → Option (List CompressedBlock)
  | _, _, [] => some []
  | start, sorted, b :: bs => do
    let scan ← scanMatches start (start + b.origsize) start sorted sorted
    if futureLZMaxStats bufsize < scan.1.length then none
    else
      let literals :=
        if indexLZ then b.literals
        else copyLiterals roundMatches baseLen (statRecords roundMatches b.stat) (span data start b.origsize)
      let rest ← secondPass indexLZ roundMatches baseLen data bufsize (start + b.origsize) scan.2 bs
      return ⟨literals, b.origsize, scan.1⟩ :: rest

/-- The list has the given matches in the order of their sources; matches with one source are in any order. -/
structure SortedBySrc (all sorted : List LZMatch) : Prop where
  perm : sorted.Perm all
  sorted : sorted.Pairwise fun m m' => m.src ≤ m'.src

variable {data : List UInt8} {bufsize L start stop pos : ℕ} {round index : Bool} {m : LZMatch}
  {ms saved sorted : List LZMatch} {lists : List (List LZMatch)} {blocks : List CompressedBlock}

/-! ## Collecting the matches -/

/-- The matches read back from the records of a valid list. -/
lemma matchesOf_records (h : Limits data bufsize round L) (hms : ValidFrom (TrueMatch data round L) stop pos ms)
    (hsize : stop ≤ pos + bufsize) (hend : stop ≤ data.length) :
    matchesOf round L pos (recordsOf round L pos ms) = ms := by
  induction ms generalizing pos with
  | nil => rfl
  | cons m ms ih =>
    have htail := hms.2.2.le
    have hpos := hms.1
    have hbuf := h.bufsize_lt
    have hdata := h.data_lt
    have hm := hms.2.1
    have hm_dest : m.dest = pos + (m.dest - pos) := by omega
    have hdecode : decodeLZMatch false round L pos (recordOf round L (m.dest - pos) (m.dest - m.src) m.len) = m :=
      decode_encoded h.unit_pos hm_dest (by omega) hm.src_lt.le hm.unit_dvd_src hm.unit_dvd_len hm.base_le (by omega)
    have hsum : uint32 ((m.dest - pos + m.len : ℕ) : Int) = m.dest - pos + m.len := uint32_of_lt (by omega)
    have hnext : uint64 ((pos + (m.dest - pos + m.len) : ℕ) : Int) = pos + (m.dest - pos + m.len) :=
      uint64_of_lt (by omega)
    have hplace : pos + (m.dest - pos + m.len) = m.dest + m.len := by omega
    have hin : (recordOf round L (m.dest - pos) (m.dest - m.src) m.len).litLen = m.dest - pos := rfl
    rw [recordsOf, matchesOf, hdecode, hin, hsum, hnext, hplace, ih hms.2.2 (by omega)]

/-- **The matches read back are the ones of the first pass.** -/
theorem collectMatches_eq (h : Limits data bufsize round L)
    (hlists : ValidBlocks (TrueMatch data round L) data bufsize start lists)
    (hblocks : encodeFile round L data bufsize start lists = some blocks) :
    collectMatches round L start blocks = lists.flatten := by
  induction lists generalizing start blocks with
  | nil =>
    cases hblocks
    rfl
  | cons ms lists ih =>
    obtain ⟨hlt, hms, hrest⟩ := hlists
    have hle := hms.le
    have hsum : start + (blockEnd data bufsize start - start) = blockEnd data bufsize start := by omega
    obtain ⟨stat, rest, hstat, hrestblocks, rfl⟩ := encodeFile_cons h hms hblocks
    rw [collectMatches, hstat, matchesOf_records h hms (min_le_left _ _) (min_le_right _ _)]
    dsimp only
    rw [hsum, ih hrest hrestblocks, List.flatten_cons]

/-! ## One scan -/

/-- The source of the match has bytes in the block. -/
def InBlock (start stop : ℕ) (m : LZMatch) : Prop := m.src < stop ∧ start < m.src + m.len

instance (start stop : ℕ) (m : LZMatch) : Decidable (InBlock start stop m) :=
  inferInstanceAs (Decidable (_ ∧ _))

/-- The matches whose source has bytes in the block, truncated to it. -/
def partsIn (start stop : ℕ) (ms : List LZMatch) : List LZMatch :=
  (ms.filter fun m => InBlock start stop m).map (truncateMatch start stop)

/-- The words of a list of parts: the literals reach from one source to the next. -/
def partWords : ℕ → List LZMatch → List ℕ
  | _, [] => []
  | pos, m :: ms => wordsOf false 0 (m.src - pos) (m.dest - m.src) m.len ++ partWords m.src ms

/-- A match in the block is the next part. -/
lemma partsIn_cons_of_pos (h : InBlock start stop m) (ms : List LZMatch) :
    partsIn start stop (m :: ms) = truncateMatch start stop m :: partsIn start stop ms := by
  rw [partsIn, List.filter_cons_of_pos (by simpa using h), List.map_cons, partsIn]

/-- A match outside the block is left out. -/
lemma partsIn_cons_of_neg (h : ¬InBlock start stop m) (ms : List LZMatch) :
    partsIn start stop (m :: ms) = partsIn start stop ms := by
  rw [partsIn, List.filter_cons_of_neg (by simpa using h), partsIn]

/-- Matches outside the block have no parts. -/
lemma partsIn_eq_nil (h : ∀ m ∈ ms, ¬InBlock start stop m) : partsIn start stop ms = [] := by
  rw [partsIn, List.filter_eq_nil_iff.mpr (by simpa using h), List.map_nil]

/-- Truncation keeps the distance. -/
lemma truncateMatch_dist : (truncateMatch start stop m).dest - (truncateMatch start stop m).src = m.dest - m.src :=
  Nat.add_sub_cancel_left _ _

/-- Where the next scan begins: at the place of this one or at a match that ends in front of the block. -/
def Resumes (start : ℕ) (saved ms rest : List LZMatch) : Prop :=
  rest = saved ∨ ∃ before m after, ms = before ++ m :: after ∧ rest = m :: after ∧ m.src + m.len ≤ start

/-- The place may be found behind one more match. -/
lemma Resumes.cons {rest : List LZMatch} (h : Resumes start saved ms rest) (m : LZMatch) :
    Resumes start saved (m :: ms) rest := by
  rcases h with h | ⟨before, m', after, hms, hrest, hlt⟩
  · exact .inl h
  · exact .inr ⟨m :: before, m', after, by rw [hms, List.cons_append], hrest, hlt⟩

/-- **One scan writes the parts of the matches in the block.** -/
theorem scanMatches_eq (start stop pos : ℕ) (saved : List LZMatch)
    (hsorted : ms.Pairwise fun m m' => m.src ≤ m'.src) :
    ∃ rest, scanMatches start stop pos saved ms = some (partWords pos (partsIn start stop ms), rest) ∧
      Resumes start saved ms rest := by
  induction ms generalizing pos saved with
  | nil => exact ⟨saved, rfl, .inl rfl⟩
  | cons m ms ih =>
    obtain ⟨hle, hsorted⟩ := List.pairwise_cons.mp hsorted
    rw [scanMatches]
    by_cases hlt : m.src < stop
    · rw [if_pos hlt]
      by_cases hskip : m.src + m.len ≤ start
      · -- a skipped match is where the next scan begins, unless another one is skipped later
        rw [if_pos hskip, partsIn_cons_of_neg (by unfold InBlock; omega)]
        obtain ⟨rest, hscan, hresume⟩ := ih pos (m :: ms) hsorted
        refine ⟨rest, hscan, ?_⟩
        rcases hresume with rfl | hresume
        · exact .inr ⟨[], m, ms, rfl, rfl, hskip⟩
        · exact Resumes.cons (.inr hresume) m
      · rw [if_neg hskip, partsIn_cons_of_pos (by unfold InBlock; omega)]
        obtain ⟨rest, hscan, hresume⟩ := ih (truncateMatch start stop m).src saved hsorted
        refine ⟨rest, ?_, hresume.cons m⟩
        dsimp only
        rw [encodeLZMatch_zero, hscan]
        dsimp only [Option.bind_eq_bind, Option.bind_some, pure]
        rw [partWords, truncateMatch_dist]
    · -- the list is sorted, so no later match begins in front of the end of the block
      have hnone : partsIn start stop (m :: ms) = [] := by
        apply partsIn_eq_nil
        intro m' hm' hin
        have hlt' := hin.1
        rcases List.mem_cons.mp hm' with rfl | hm'
        · exact hlt hlt'
        · have hle' := hle m' hm'
          omega
      rw [if_neg hlt, hnone]
      exact ⟨saved, rfl, .inl rfl⟩

/-- The number of words for a list of parts. -/
lemma length_partWords (pos : ℕ) (ms : List LZMatch) : (partWords pos ms).length = 4 * ms.length := by
  induction ms generalizing pos with
  | nil => rfl
  | cons m ms ih =>
    rw [partWords, List.length_append, length_wordsOf, ih, List.length_cons, Nat.mul_succ, Nat.add_comm]
    rfl

/-! ## All blocks -/

/-- No block from `start` on is the source of more matches than the buffer has room for. -/
def SourcesFit (data : List UInt8) (bufsize : ℕ) (all : List LZMatch) : ℕ → ℕ → Prop
  | _, 0 => True
  | start, n + 1 =>
    4 * all.countP (fun m => InBlock start (blockEnd data bufsize start) m) ≤ futureLZMaxStats bufsize ∧
      SourcesFit data bufsize all (blockEnd data bufsize start) n

/-- What the second pass writes: every block with its literals and the parts of the matches in it. -/
def futureBlocks (data : List UInt8) (bufsize : ℕ) (sorted : List LZMatch) :
    ℕ → List (List LZMatch) → List CompressedBlock
  | _, [] => []
  | start, ms :: lists =>
    let stop := blockEnd data bufsize start
    ⟨literalsOf data stop start ms, stop - start, partWords start (partsIn start stop sorted)⟩ ::
      futureBlocks data bufsize sorted stop lists

/-- The number of the parts is the number of the matches in the block. -/
lemma length_partsIn (ms : List LZMatch) :
    (partsIn start stop ms).length = ms.countP fun m => InBlock start stop m := by
  rw [partsIn, List.length_map, List.countP_eq_length_filter]

/-- Matches that end in front of a block have no parts in it. -/
lemma partsIn_append_of_le {dropped : List LZMatch} (h : ∀ m ∈ dropped, m.src + m.len ≤ start) (stop : ℕ)
    (ms : List LZMatch) :
    partsIn start stop (dropped ++ ms) = partsIn start stop ms := by
  have hnone : partsIn start stop dropped = [] := by
    apply partsIn_eq_nil
    intro m hm hin
    exact absurd hin.2 (Nat.not_lt.mpr (h m hm))
  rw [partsIn, List.filter_append, List.map_append, ← partsIn, ← partsIn, hnone, List.nil_append]

/-- What the scan for the next block does not look at ends in front of that block. -/
lemma Resumes.dropped {dropped rest : List LZMatch} (h : Resumes start ms ms rest)
    (hsorted : (dropped ++ ms).Pairwise fun m m' => m.src ≤ m'.src) (hlen : ∀ m ∈ dropped ++ ms, m.len ≤ bufsize)
    (hpos : ∀ m ∈ dropped ++ ms, 0 < m.len) (hdropped : ∀ m ∈ dropped, m.src + m.len ≤ start) :
    ∃ dropped', dropped ++ ms = dropped' ++ rest ∧ ∀ m ∈ dropped', m.src + m.len ≤ start + bufsize := by
  rcases h with rfl | ⟨before, m, after, rfl, rfl, hend⟩
  · exact ⟨dropped, rfl, fun m hm => (hdropped m hm).trans (Nat.le_add_right _ _)⟩
  · refine ⟨dropped ++ before, (List.append_assoc _ _ _).symm, ?_⟩
    intro m' hm'
    have hmem : m' ∈ dropped ++ (before ++ m :: after) := by
      rw [← List.append_assoc]
      exact List.mem_append_left _ hm'
    have hlen' := hlen m' hmem
    -- the match is sorted in front of one that ends in front of this block
    have hsrc : m'.src ≤ m.src := by
      rw [← List.append_assoc] at hsorted
      exact (List.pairwise_append.mp hsorted).2.2 m' hm' m List.mem_cons_self
    have hpos' := hpos m (List.mem_append_right _ (List.mem_append_right _ List.mem_cons_self))
    omega

/-- A block behind a full one begins where that one ends. -/
lemma blockEnd_of_lt (hlt : blockEnd data bufsize start < data.length) :
    blockEnd data bufsize start = start + bufsize := by
  unfold blockEnd at hlt ⊢
  omega

/-- **The pass writes every block, unless one of them is the source of too many matches.** -/
theorem secondPass_eq (h : Limits data bufsize round L) {dropped : List LZMatch}
    (hsorted : (dropped ++ saved).Pairwise fun m m' => m.src ≤ m'.src)
    (hlen : ∀ m ∈ dropped ++ saved, m.len ≤ bufsize) (hpos : ∀ m ∈ dropped ++ saved, 0 < m.len)
    (hdropped : start < data.length → ∀ m ∈ dropped, m.src + m.len ≤ start)
    (hlists : ValidBlocks (TrueMatch data round L) data bufsize start lists)
    (hblocks : encodeFile round L data bufsize start lists = some blocks) :
    (SourcesFit data bufsize (dropped ++ saved) start lists.length →
      secondPass index round L data bufsize start saved blocks =
        some (futureBlocks data bufsize (dropped ++ saved) start lists)) ∧
    (¬SourcesFit data bufsize (dropped ++ saved) start lists.length →
      secondPass index round L data bufsize start saved blocks = none) := by
  induction lists generalizing start blocks dropped saved with
  | nil =>
    cases hblocks
    exact ⟨fun _ => rfl, fun hnot => absurd trivial hnot⟩
  | cons ms lists ih =>
    obtain ⟨hlt, hms, hrest⟩ := hlists
    have hle := hms.le
    have hsum : start + (blockEnd data bufsize start - start) = blockEnd data bufsize start := by omega
    obtain ⟨stat, rest, hstat, hrestblocks, rfl⟩ := encodeFile_cons h hms hblocks
    have hsaved := (List.pairwise_append.mp hsorted).2.1
    obtain ⟨next, hscan, hresume⟩ := scanMatches_eq start (blockEnd data bufsize start) start saved hsaved
    obtain ⟨dropped', hsplit, hends⟩ := hresume.dropped hsorted hlen hpos (hdropped hlt)
    have hparts := partsIn_append_of_le (hdropped hlt) (blockEnd data bufsize start) saved
    have hcount : (partWords start (partsIn start (blockEnd data bufsize start) saved)).length =
        4 * (dropped ++ saved).countP (fun m => InBlock start (blockEnd data bufsize start) m) := by
      rw [length_partWords, ← hparts, length_partsIn]
    have hdropped' : blockEnd data bufsize start < data.length →
        ∀ m ∈ dropped', m.src + m.len ≤ blockEnd data bufsize start := by
      intro hmore m hm
      rw [blockEnd_of_lt hmore]
      exact hends m hm
    have hliterals : (if index then literalsOf data (blockEnd data bufsize start) start ms
        else copyLiterals round L (statRecords round stat)
          (span data start (blockEnd data bufsize start - start))) =
        literalsOf data (blockEnd data bufsize start) start ms := by
      have hcopy := (copyLiterals_records h hms (min_le_left _ _) (min_le_right _ _)).2
      rw [hstat, hcopy, ite_self]
    have hnext : (dropped' ++ next).Pairwise fun m m' => m.src ≤ m'.src := hsplit ▸ hsorted
    obtain ⟨hfits, hnotFits⟩ := ih hnext (hsplit ▸ hlen) (hsplit ▸ hpos) hdropped' hrest hrestblocks
    rw [← hsplit] at hfits hnotFits
    rw [secondPass]
    dsimp only [Option.bind_eq_bind]
    rw [hsum, hscan, Option.bind_some]
    dsimp only
    rw [hcount, hliterals, List.length_cons, SourcesFit]
    constructor
    · rintro ⟨hroom, hfit⟩
      rw [if_neg (Nat.not_lt.mpr hroom), hfits hfit, Option.bind_some, futureBlocks, hparts]
      rfl
    · intro hnot
      by_cases hroom : futureLZMaxStats bufsize <
          4 * (dropped ++ saved).countP (fun m => InBlock start (blockEnd data bufsize start) m)
      · rw [if_pos hroom]
      · rw [if_neg hroom, hnotFits fun hfit => hnot ⟨Nat.not_lt.mp hroom, hfit⟩]
        rfl

/-! ## The buffer for the words -/

/-- The number of matches whose source has bytes in the `k`-th block of the file. -/
def sourcesIn (bufsize k : ℕ) (ms : List LZMatch) : ℕ :=
  ms.countP fun m => InBlock (k * bufsize) ((k + 1) * bufsize) m

/-- A match of a valid file ends in it. -/
lemma ValidBlocks.end_le {ok : LZMatch → Prop} (h : ValidBlocks ok data bufsize start lists)
    (hm : m ∈ lists.flatten) : ok m ∧ m.dest + m.len ≤ data.length ∧ m.len ≤ bufsize := by
  induction lists generalizing start with
  | nil => cases hm
  | cons ms lists ih =>
    obtain ⟨-, hms, hrest⟩ := h
    rcases List.mem_append.mp hm with hm | hm
    · obtain ⟨hge, hle⟩ := hms.bounds hm
      have hstop : blockEnd data bufsize start ≤ start + bufsize := min_le_left _ _
      have hend : blockEnd data bufsize start ≤ data.length := min_le_right _ _
      exact ⟨hms.ok_of_mem hm, by omega, by omega⟩
    · exact ih hrest hm

/-- Only the number of matches with a source in each block matters. -/
lemma sourcesFit_iff {ok : LZMatch → Prop} {all : List LZMatch} {k : ℕ}
    (hstart : start = min (k * bufsize) data.length) (hall : ∀ m ∈ all, m.src + m.len < data.length) (hlists : ValidBlocks ok data bufsize start lists) :
    SourcesFit data bufsize all start lists.length ↔ ∀ j, k ≤ j → 16 * sourcesIn bufsize j all ≤ bufsize := by
  induction lists generalizing start k with
  | nil =>
    have hend : start = data.length := hlists
    refine ⟨fun _ j hj => ?_, fun _ => trivial⟩
    have hle : k * bufsize ≤ j * bufsize := Nat.mul_le_mul_right _ hj
    have hnone : sourcesIn bufsize j all = 0 := by
      refine List.countP_eq_zero.mpr fun m hm hin => ?_
      have hin' : InBlock (j * bufsize) ((j + 1) * bufsize) m := by simpa using hin
      have hlt := hall m hm
      have hbehind := hin'.2
      omega
    rw [hnone]
    omega
  | cons ms lists ih =>
    obtain ⟨hlt, -, hrest⟩ := hlists
    have hk : start = k * bufsize := by omega
    have hsucc : (k + 1) * bufsize = k * bufsize + bufsize := Nat.succ_mul k bufsize
    have hnext : blockEnd data bufsize start = min ((k + 1) * bufsize) data.length := by
      unfold blockEnd
      omega
    -- a source in front of the end of the block is in front of the end of the file anyway
    have hcount : all.countP (fun m => InBlock start (blockEnd data bufsize start) m) = sourcesIn bufsize k all := by
      refine List.countP_congr fun m hm => ?_
      have hsrc := hall m hm
      rw [decide_eq_true_eq, decide_eq_true_eq, hnext, hk]
      unfold InBlock
      omega
    rw [List.length_cons, SourcesFit, hcount, ih hnext hrest]
    unfold futureLZMaxStats
    constructor
    · rintro ⟨hroom, hfit⟩ j hj
      rcases Nat.eq_or_lt_of_le hj with rfl | hj
      · omega
      · exact hfit j hj
    · intro hfit
      have hroom := hfit k le_rfl
      exact ⟨by omega, fun j hj => hfit j (Nat.le_of_succ_le hj)⟩

/-- **The second pass stays inside the buffer for its words exactly if no block of the input has source bytes of
more than `bufsize / 16` matches.** -/
theorem secondPass_isSome_iff (h : Limits data bufsize round L)
    (hlists : ValidBlocks (TrueMatch data round L) data bufsize 0 lists)
    (hblocks : encodeFile round L data bufsize 0 lists = some blocks)
    (hsorted : SortedBySrc (collectMatches round L 0 blocks) sorted) :
    (secondPass index round L data bufsize 0 sorted blocks).isSome ↔
      ∀ k, 16 * sourcesIn bufsize k lists.flatten ≤ bufsize := by
  have hcollect := collectMatches_eq h hlists hblocks
  have hperm : sorted.Perm lists.flatten := hcollect ▸ hsorted.perm
  have hmem : ∀ m ∈ sorted, TrueMatch data round L m ∧ m.dest + m.len ≤ data.length ∧ m.len ≤ bufsize :=
    fun m hm => hlists.end_le (hperm.mem_iff.mp hm)
  have hpos : ∀ m ∈ sorted, 0 < m.len := fun m hm => h.base_pos.trans_le (hmem m hm).1.base_le
  have hinside : ∀ m ∈ sorted, m.src + m.len < data.length := by
    intro m hm
    have hlt := (hmem m hm).1.src_lt
    have hend := (hmem m hm).2.1
    omega
  have hsplit : (([] : List LZMatch) ++ sorted).Pairwise fun m m' => m.src ≤ m'.src := hsorted.sorted
  have hpass := @secondPass_eq data bufsize L 0 round index sorted lists blocks h [] hsplit
    (fun m hm => (hmem m hm).2.2) hpos (fun _ m hm => absurd hm List.not_mem_nil) hlists hblocks
  have hfits : SourcesFit data bufsize sorted 0 lists.length →
      secondPass index round L data bufsize 0 sorted blocks = some (futureBlocks data bufsize sorted 0 lists) := hpass.1
  have hnotFits : ¬SourcesFit data bufsize sorted 0 lists.length →
      secondPass index round L data bufsize 0 sorted blocks = none := hpass.2
  have hzero : 0 = min (0 * bufsize) data.length := by rw [Nat.zero_mul, Nat.zero_min]
  have hfit := sourcesFit_iff hzero hinside hlists
  have hsources : ∀ k, sourcesIn bufsize k sorted = sourcesIn bufsize k lists.flatten :=
    fun k => hperm.countP_eq _
  constructor
  · intro hsome k
    by_contra hmany
    have hnone := hnotFits fun hall => hmany (by rw [← hsources]; exact hfit.mp hall k (Nat.zero_le k))
    rw [hnone] at hsome
    cases hsome
  · intro hall
    rw [hfits (hfit.mpr fun k _ => by rw [hsources]; exact hall k)]
    rfl

/-- A file in which the bytes from 16 to 32 come back in every block of 64 bytes, one byte behind its beginning. -/
def shiftedCopies : List UInt8 :=
  (List.range 384).map fun i =>
    let k := if 64 ≤ i ∧ 1 ≤ i % 64 ∧ i % 64 ≤ 16 then 15 + i % 64 else i
    UInt8.ofNat (k * k % 1009 % 256)

/-- The matches of that file. -/
def shiftedMatches : List (List LZMatch) :=
  [[], [⟨16, 65, 16⟩], [⟨16, 129, 16⟩], [⟨16, 193, 16⟩], [⟨16, 257, 16⟩], [⟨16, 321, 16⟩]]

/-- The file fits the machine words. -/
lemma shiftedCopies_limits : Limits shiftedCopies 64 true 16 where
  bufsize_pos := by decide
  bufsize_lt := by decide
  base_pos := by decide
  data_lt := by decide +kernel
  chunks_lt := fun _ => by decide +kernel

/-- The matches are true. -/
lemma shiftedMatches_true (k : ℕ) (hk : k ∈ [65, 129, 193, 257, 321]) :
    TrueMatch shiftedCopies true 16 ⟨16, k, 16⟩ := by
  have hrepeats : ∀ k ∈ [65, 129, 193, 257, 321],
      16 < k ∧ ∀ j < 16, shiftedCopies[16 + j]? = shiftedCopies[k + j]? := by
    decide +kernel
  exact ⟨(hrepeats k hk).1, le_rfl, (hrepeats k hk).2, dvd_rfl, dvd_rfl⟩

/-- The lists of matches are valid. -/
lemma shiftedMatches_valid :
    ValidBlocks (TrueMatch shiftedCopies true 16) shiftedCopies 64 0 shiftedMatches := by
  have hlen : shiftedCopies.length = 384 := by decide +kernel
  have hend : ∀ start, blockEnd shiftedCopies 64 start = min (start + 64) 384 := by
    intro start
    rw [blockEnd, hlen]
  have htrue : ∀ k, k ∈ [65, 129, 193, 257, 321] → TrueMatch shiftedCopies true 16 ⟨16, k, 16⟩ := shiftedMatches_true
  simp only [shiftedMatches, ValidBlocks, ValidFrom, hend, hlen]
  refine ⟨by decide, by decide, by decide, ⟨by decide, htrue 65 (by decide), by decide⟩, by decide,
    ⟨by decide, htrue 129 (by decide), by decide⟩, by decide, ⟨by decide, htrue 193 (by decide), by decide⟩, by decide,
    ⟨by decide, htrue 257 (by decide), by decide⟩, by decide, ⟨by decide, htrue 321 (by decide), by decide⟩, by decide⟩

/-- The matches are sorted. -/
lemma shiftedMatches_sorted {blocks : List CompressedBlock}
    (hblocks : encodeFile true 16 shiftedCopies 64 0 shiftedMatches = some blocks) :
    SortedBySrc (collectMatches true 16 0 blocks) shiftedMatches.flatten := by
  rw [collectMatches_eq shiftedCopies_limits shiftedMatches_valid hblocks]
  exact ⟨List.Perm.refl _, by decide⟩

/-- The equivalence for the file of shifted copies. -/
theorem secondPass_isSome_iff_shifted :
    ∃ blocks, encodeFile true 16 shiftedCopies 64 0 shiftedMatches = some blocks ∧
      ((secondPass false true 16 shiftedCopies 64 0 shiftedMatches.flatten blocks).isSome ↔
        ∀ k, 16 * sourcesIn 64 k shiftedMatches.flatten ≤ 64) := by
  obtain ⟨blocks, hblocks⟩ := exists_encodeFile shiftedCopies_limits shiftedMatches_valid
  exact ⟨blocks, hblocks, secondPass_isSome_iff shiftedCopies_limits shiftedMatches_valid hblocks
    (shiftedMatches_sorted hblocks)⟩

/-- The buffer is too small for five matches with a source in the first block of 64 bytes. -/
theorem not_secondPass_isSome :
    ¬∀ (data : List UInt8) (bufsize L : ℕ) (round index : Bool) (lists : List (List LZMatch))
      (blocks : List CompressedBlock) (sorted : List LZMatch), Limits data bufsize round L →
      ValidBlocks (TrueMatch data round L) data bufsize 0 lists →
      encodeFile round L data bufsize 0 lists = some blocks → SortedBySrc (collectMatches round L 0 blocks) sorted →
      (secondPass index round L data bufsize 0 sorted blocks).isSome := by
  intro hall
  obtain ⟨blocks, hblocks⟩ := exists_encodeFile shiftedCopies_limits shiftedMatches_valid
  have hsome := hall shiftedCopies 64 16 true false shiftedMatches blocks shiftedMatches.flatten shiftedCopies_limits
    shiftedMatches_valid hblocks (shiftedMatches_sorted hblocks)
  have hnone : ((encodeFile true 16 shiftedCopies 64 0 shiftedMatches).bind
      (secondPass false true 16 shiftedCopies 64 0 shiftedMatches.flatten)).isNone := by decide +kernel
  rw [hblocks, Option.bind_some, Option.isNone_iff_eq_none] at hnone
  rw [hnone] at hsome
  cases hsome

end DArc.SREP
