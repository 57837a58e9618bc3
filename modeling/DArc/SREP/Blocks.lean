import DArc.SREP.Matches

/-!
# Blocks of the first pass

The compressor reads the input in blocks and makes a list of matches for each of them.  A list is written as words
(`encodeMatches`); the bytes that no match covers follow as literals (`saveData` while compressing, `copyLiterals`
in the second pass).

A list is `ValidFrom` a place when its destinations follow each other without overlap inside the block and every
match is a `TrueMatch`: its source is in front of its destination, the file has the same bytes at both, and its
length and its source can be written in the units of the list.

### Main results

* `encodeMatches_eq`: the words of a valid list are cut into its records;
* `saveData_records`: what is saved as literals are the bytes between the destinations.
-/

namespace DArc.SREP

/-! ## Writing a block -/

/-- The words of a list of matches; the literals in front of the first one begin at `pos`. -/
def encodeMatches (roundMatches : Bool) (baseLen : ℕ) : ℕ → List LZMatch → Option (List ℕ)
  | _, [] => some []
  | pos, m :: ms => do
    let words ← encodeLZMatch roundMatches baseLen (m.dest - pos) (m.dest - m.src) m.len
    let rest ← encodeMatches roundMatches baseLen (m.dest + m.len) ms
    return words ++ rest

/-- The bytes of a block that its matches do not cover, as the second pass copies them. -/
def copyLiterals (roundMatches : Bool) (baseLen : ℕ) : List StatRecord → List UInt8 → List UInt8
  | [], input => input
  | r :: rs, input =>
    let m := decodeLZMatch false roundMatches baseLen 0 r
    input.take r.litLen ++ copyLiterals roundMatches baseLen rs (input.drop (uint32 (r.litLen + m.len : ℕ)))

/-- The literals in front of every match are inside the block. -/
def literalsFit (roundMatches : Bool) (baseLen : ℕ) : List StatRecord → List UInt8 → Bool
  | [], _ => true
  | r :: rs, input =>
    let m := decodeLZMatch false roundMatches baseLen 0 r
    r.litLen ≤ input.length && literalsFit roundMatches baseLen rs (input.drop (uint32 (r.litLen + m.len : ℕ)))

/-- The literals of a block, as the thread that writes the compressed file saves them. -/
def saveData (roundMatches : Bool) (baseLen : ℕ) (stat : List ℕ) (input : List UInt8) : Option (List UInt8) :=
  let records := statRecords roundMatches stat
  if literalsFit roundMatches baseLen records input then some (copyLiterals roundMatches baseLen records input)
  else none

/-- One block of a compressed file: its literals, the size of the block and the words of its matches. -/
structure CompressedBlock where
  literals : List UInt8
  origsize : ℕ
  stat : List ℕ
  deriving DecidableEq, Repr

/-- Where the block that begins at `start` ends. -/
def blockEnd (data : List UInt8) (bufsize start : ℕ) : ℕ := min (start + bufsize) data.length

/-- The first pass: every block with the words of its list and its literals. -/
def encodeFile (roundMatches : Bool) (baseLen : ℕ) (data : List UInt8) (bufsize : ℕ) :
    ℕ → List (List LZMatch) → Option (List CompressedBlock)
  | _, [] => some []
  | start, ms :: lists => do
    let stop := blockEnd data bufsize start
    let stat ← encodeMatches roundMatches baseLen start ms
    let literals ← saveData roundMatches baseLen stat (span data start (stop - start))
    let blocks ← encodeFile roundMatches baseLen data bufsize stop lists
    return ⟨literals, stop - start, stat⟩ :: blocks

/-- The blocks in which the file is read. -/
def blocksFrom (data : List UInt8) (bufsize : ℕ) : ℕ → ℕ → List (List UInt8)
  | _, 0 => []
  | start, n + 1 =>
    let stop := blockEnd data bufsize start
    span data start (stop - start) :: blocksFrom data bufsize stop n

/-! ## Valid lists of matches -/

/-- A match of the file `data` that a list in the given units can hold. -/
structure TrueMatch (data : List UInt8) (roundMatches : Bool) (baseLen : ℕ) (m : LZMatch) : Prop where
  src_lt : m.src < m.dest
  base_le : baseLen ≤ m.len
  repeats : Repeats data m.src m.dest m.len
  unit_dvd_src : unit roundMatches baseLen ∣ m.src
  unit_dvd_len : unit roundMatches baseLen ∣ m.len

/-- The destinations follow each other from `pos` to `stop` and every match has the property `ok`. -/
def ValidFrom (ok : LZMatch → Prop) (stop : ℕ) : ℕ → List LZMatch → Prop
  | pos, [] => pos ≤ stop
  | pos, m :: ms => pos ≤ m.dest ∧ ok m ∧ ValidFrom ok stop (m.dest + m.len) ms

/-- The lists of all blocks from `start` to the end of the file are valid. -/
def ValidBlocks (ok : LZMatch → Prop) (data : List UInt8) (bufsize : ℕ) : ℕ → List (List LZMatch) → Prop
  | start, [] => start = data.length
  | start, ms :: lists =>
    start < data.length ∧ ValidFrom ok (blockEnd data bufsize start) start ms ∧
      ValidBlocks ok data bufsize (blockEnd data bufsize start) lists

section Valid

variable {ok : LZMatch → Prop} {stop pos : ℕ} {m : LZMatch} {ms : List LZMatch}

/-- A valid list begins in front of its end. -/
lemma ValidFrom.le (h : ValidFrom ok stop pos ms) : pos ≤ stop := by
  induction ms generalizing pos with
  | nil => exact h
  | cons m ms ih => exact h.1.trans ((Nat.le_add_right _ _).trans (ih h.2.2))

/-- Every match of a valid list has the property. -/
lemma ValidFrom.ok_of_mem (h : ValidFrom ok stop pos ms) (hm : m ∈ ms) : ok m := by
  induction ms generalizing pos with
  | nil => cases hm
  | cons m' ms ih =>
    rcases List.mem_cons.mp hm with rfl | hm
    · exact h.2.1
    · exact ih h.2.2 hm

/-- The destinations of a valid list are between its ends. -/
lemma ValidFrom.bounds (h : ValidFrom ok stop pos ms) (hm : m ∈ ms) : pos ≤ m.dest ∧ m.dest + m.len ≤ stop := by
  induction ms generalizing pos with
  | nil => cases hm
  | cons m' ms ih =>
    rcases List.mem_cons.mp hm with rfl | hm
    · exact ⟨h.1, h.2.2.le⟩
    · have htail := ih h.2.2 hm
      have hhead := h.1
      exact ⟨by omega, htail.2⟩

/-- The destinations of a valid list do not overlap. -/
lemma ValidFrom.pairwise (h : ValidFrom ok stop pos ms) :
    ms.Pairwise fun m m' => m.dest + m.len ≤ m'.dest := by
  induction ms generalizing pos with
  | nil => exact List.Pairwise.nil
  | cons m ms ih => exact List.Pairwise.cons (fun m' hm' => (h.2.2.bounds hm').1) (ih h.2.2)

/-- A valid list of matches with a stronger property. -/
lemma ValidFrom.imp {ok' : LZMatch → Prop} (h : ValidFrom ok stop pos ms) (himp : ∀ m ∈ ms, ok m → ok' m) :
    ValidFrom ok' stop pos ms := by
  induction ms generalizing pos with
  | nil => exact h
  | cons m ms ih =>
    exact ⟨h.1, himp m List.mem_cons_self h.2.1, ih h.2.2 fun m' hm' => himp m' (List.mem_cons_of_mem _ hm')⟩

end Valid

/-! ## Records of a valid list -/

/-- The records of a list of matches. -/
def recordsOf (roundMatches : Bool) (baseLen : ℕ) : ℕ → List LZMatch → List StatRecord
  | _, [] => []
  | pos, m :: ms =>
    recordOf roundMatches baseLen (m.dest - pos) (m.dest - m.src) m.len ::
      recordsOf roundMatches baseLen (m.dest + m.len) ms

/-- The bytes between the destinations of a list of matches. -/
def literalsOf (data : List UInt8) (stop : ℕ) : ℕ → List LZMatch → List UInt8
  | pos, [] => span data pos (stop - pos)
  | pos, m :: ms => span data pos (m.dest - pos) ++ literalsOf data stop (m.dest + m.len) ms

/-- The limits of the machine words for a file: the positions in it and the lengths in a block. -/
structure Limits (data : List UInt8) (bufsize : ℕ) (roundMatches : Bool) (baseLen : ℕ) : Prop where
  bufsize_pos : 0 < bufsize
  bufsize_lt : bufsize < 2 ^ 31
  base_pos : 0 < baseLen
  data_lt : data.length < 2 ^ 64
  chunks_lt : roundMatches = true → data.length / baseLen < 2 ^ 32

variable {data : List UInt8} {bufsize L start stop pos : ℕ} {round : Bool} {m : LZMatch} {ms : List LZMatch}

/-- The unit of a list is positive. -/
lemma Limits.unit_pos (h : Limits data bufsize round L) : 0 < unit round L := by
  cases round with
  | true => exact h.base_pos
  | false => exact Nat.one_pos

/-- A match inside a block can be written. -/
lemma Limits.encodable (h : Limits data bufsize round L) (hm : TrueMatch data round L m) (hpos : pos ≤ m.dest)
    (hsize : m.dest + m.len ≤ pos + bufsize) (hend : m.dest + m.len ≤ data.length) :
    Encodable round L (m.dest - pos) (m.dest - m.src) m.len := by
  have hbuf := h.bufsize_lt
  have hdata := h.data_lt
  refine ⟨hm.base_le, by omega, by omega, by omega, ?_⟩
  intro hround
  exact (Nat.div_le_div_right (by omega)).trans_lt (h.chunks_lt hround)

/-- **The words of a valid list are cut into its records.** -/
theorem encodeMatches_eq (h : Limits data bufsize round L)
    (hms : ValidFrom (TrueMatch data round L) stop pos ms) (hsize : stop ≤ pos + bufsize) (hend : stop ≤ data.length) :
    ∃ stat, encodeMatches round L pos ms = some stat ∧ stat.length = statsPerMatch round * ms.length ∧
      statRecords round stat = recordsOf round L pos ms := by
  induction ms generalizing pos with
  | nil =>
    refine ⟨[], rfl, rfl, ?_⟩
    cases round <;> rfl
  | cons m ms ih =>
    have htail := hms.2.2.le
    have hpos := hms.1
    obtain ⟨rest, hrest, hlen, hrecords⟩ := ih hms.2.2 (by omega)
    have henc := h.encodable hms.2.1 hpos (by omega) (by omega)
    refine ⟨wordsOf round L (m.dest - pos) (m.dest - m.src) m.len ++ rest, ?_, ?_, ?_⟩
    · rw [encodeMatches, encodeLZMatch_of_le henc.base_le, hrest]
      rfl
    · rw [List.length_append, length_wordsOf, hlen, List.length_cons, Nat.mul_succ, Nat.add_comm]
    · rw [statRecords_encode henc, hrecords, recordsOf]

/-- The match that is read back while saving literals, where positions are counted from the literals. -/
lemma decoded_len_of (pos : ℕ) (hm : TrueMatch data round L m) (hlen : m.len < 2 ^ 32) (lit : ℕ) :
    (decodeLZMatch false round L pos (recordOf round L lit (m.dest - m.src) m.len)).len = m.len := by
  exact decoded_len hm.base_le hlen hm.unit_dvd_len

/-- What is copied as literals are the bytes between the destinations. -/
lemma copyLiterals_records (h : Limits data bufsize round L)
    (hms : ValidFrom (TrueMatch data round L) stop pos ms) (hsize : stop ≤ pos + bufsize)
    (hend : stop ≤ data.length) :
    literalsFit round L (recordsOf round L pos ms) (span data pos (stop - pos)) = true ∧
      copyLiterals round L (recordsOf round L pos ms) (span data pos (stop - pos)) = literalsOf data stop pos ms := by
  induction ms generalizing pos with
  | nil => exact ⟨rfl, rfl⟩
  | cons m ms ih =>
    have htail := hms.2.2.le
    have hpos := hms.1
    have hbuf := h.bufsize_lt
    have hshort : m.len < 2 ^ 32 := by omega
    have hlen := decoded_len_of 0 hms.2.1 hshort (m.dest - pos)
    have hsum : uint32 ((m.dest - pos + m.len : ℕ) : Int) = m.dest - pos + m.len := uint32_of_lt (by omega)
    have hplace : pos + (m.dest - pos + m.len) = m.dest + m.len := by omega
    have hrest : stop - pos - (m.dest - pos + m.len) = stop - (m.dest + m.len) := by omega
    obtain ⟨hfit, hcopy⟩ := ih hms.2.2 (by omega)
    have hin : (recordOf round L (m.dest - pos) (m.dest - m.src) m.len).litLen = m.dest - pos := rfl
    constructor
    · rw [recordsOf, literalsFit]
      rw [hlen, hin, hsum, drop_span, hplace, hrest, hfit, length_span (by omega), Bool.and_true, decide_eq_true_eq]
      omega
    · rw [recordsOf, copyLiterals, literalsOf]
      rw [hlen, hin, hsum, drop_span, hplace, hrest, hcopy, take_span (by omega)]

/-- **What is saved as literals are the bytes between the destinations.** -/
theorem saveData_records (h : Limits data bufsize round L)
    (hms : ValidFrom (TrueMatch data round L) stop pos ms) (hsize : stop ≤ pos + bufsize)
    (hend : stop ≤ data.length) {stat : List ℕ} (hstat : statRecords round stat = recordsOf round L pos ms) :
    saveData round L stat (span data pos (stop - pos)) = some (literalsOf data stop pos ms) := by
  obtain ⟨hfit, hcopy⟩ := copyLiterals_records h hms hsize hend
  unfold saveData
  dsimp only
  rw [hstat, if_pos hfit, hcopy]

/-- **A block with a valid list can be written**, and so can the blocks behind it if the file can. -/
lemma encodeFile_cons (h : Limits data bufsize round L) {lists : List (List LZMatch)}
    {blocks : List CompressedBlock}
    (hms : ValidFrom (TrueMatch data round L) (blockEnd data bufsize start) start ms)
    (hblocks : encodeFile round L data bufsize start (ms :: lists) = some blocks) :
    ∃ stat rest, statRecords round stat = recordsOf round L start ms ∧
      encodeFile round L data bufsize (blockEnd data bufsize start) lists = some rest ∧
      blocks = ⟨literalsOf data (blockEnd data bufsize start) start ms, blockEnd data bufsize start - start, stat⟩ ::
        rest := by
  have hstop : blockEnd data bufsize start ≤ start + bufsize := min_le_left _ _
  have hend : blockEnd data bufsize start ≤ data.length := min_le_right _ _
  obtain ⟨stat, hstat, -, hrecords⟩ := encodeMatches_eq h hms hstop hend
  have hliterals := saveData_records h hms hstop hend hrecords
  rw [encodeFile] at hblocks
  dsimp only [Option.bind_eq_bind] at hblocks
  rw [hstat, Option.bind_some, hliterals, Option.bind_some] at hblocks
  obtain ⟨rest, hrest, heq⟩ := Option.bind_eq_some_iff.mp hblocks
  exact ⟨stat, rest, hrecords, hrest, (Option.some.inj heq).symm⟩

/-- The first pass can write every file with valid lists. -/
lemma exists_encodeFile (h : Limits data bufsize round L) {lists : List (List LZMatch)}
    (hlists : ValidBlocks (TrueMatch data round L) data bufsize start lists) :
    ∃ blocks, encodeFile round L data bufsize start lists = some blocks := by
  induction lists generalizing start with
  | nil => exact ⟨[], rfl⟩
  | cons ms lists ih =>
    obtain ⟨hlt, hms, hrest⟩ := hlists
    have hstop : blockEnd data bufsize start ≤ start + bufsize := min_le_left _ _
    have hend : blockEnd data bufsize start ≤ data.length := min_le_right _ _
    obtain ⟨stat, hstat, -, hrecords⟩ := encodeMatches_eq h hms hstop hend
    have hliterals := saveData_records h hms hstop hend hrecords
    obtain ⟨blocks, hblocks⟩ := ih hrest
    rw [encodeFile]
    dsimp only [Option.bind_eq_bind]
    rw [hstat, Option.bind_some, hliterals, Option.bind_some, hblocks, Option.bind_some]
    exact ⟨_, rfl⟩

/-- The blocks of a file make up the file. -/
lemma flatten_blocksFrom {ok : LZMatch → Prop} {lists : List (List LZMatch)}
    (hlists : ValidBlocks ok data bufsize start lists) :
    (blocksFrom data bufsize start lists.length).flatten = data.drop start := by
  induction lists generalizing start with
  | nil =>
    have hend : start = data.length := hlists
    rw [hend, List.drop_length]
    rfl
  | cons ms lists ih =>
    have hle := hlists.2.1.le
    have hsum : start + (blockEnd data bufsize start - start) = blockEnd data bufsize start := by omega
    rw [List.length_cons, blocksFrom, List.flatten_cons, ih hlists.2.2, span, ← hsum, ← List.drop_drop, hsum,
      List.take_append_drop]

/-- The literals and the matches of a list make up the block. -/
lemma length_literalsOf (hms : ValidFrom (TrueMatch data round L) stop pos ms) (hend : stop ≤ data.length) :
    (literalsOf data stop pos ms).length + (ms.map LZMatch.len).sum = stop - pos := by
  induction ms generalizing pos with
  | nil =>
    have hle : pos ≤ stop := hms
    rw [literalsOf, length_span (by omega), List.map_nil, List.sum_nil, add_zero]
  | cons m ms ih =>
    have htail := hms.2.2.le
    have hpos := hms.1
    have hrest := ih hms.2.2
    rw [literalsOf, List.length_append, length_span (by omega), List.map_cons, List.sum_cons]
    omega

end DArc.SREP
