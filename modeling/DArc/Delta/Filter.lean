import DArc.Delta.Detector
import DArc.Library.ChunkedInput
import DArc.Library.Fuel

/-!
# The Delta filter and its inverse

`deltaCompress` models `delta_compress`: it reads a block, lets the detector filter the tables it
finds one after another in place, and writes the descriptions of the tables and the filtered
block.  `deltaDecompress` models `delta_decompress`: it reads the descriptions and undoes the tables
in the order in which they were found.  The detector of a block always looks at bytes beyond the
last filtered table, so the tables are disjoint and each of them is restored from the bytes
its own filtering produced.

### Main results

* `Filtered`, `filterLoop_filtered`: what the main loop keeps, whatever tables it finds;
* `restoreBlock_filterBlock`: one block;
* `deltaRoundTrip`: the round trip of any input in any chunking.
-/

namespace DArc.Delta

/-! ## The compressor -/

/-- The description of a table in the stream: how far it is from the table before, its type word and
its number of rows. -/
structure Table where
  skip : ℕ
  type : ℕ
  rows : ℕ

/-- The variables of the main loop over one block. -/
structure State where
  buf : List UInt8
  lastTableEnd : ℕ
  hash : HashTable
  tables : List Table

/-- The state at the beginning of a block. -/
def State.start (buf : List UInt8) : State := ⟨buf, 0, fun _ => -1, []⟩

/-- The state after a table has been found and filtered. -/
def State.filter (s : State) (f : Found) : State where
  buf := filterBlock s.buf f
  lastTableEnd := f.stop
  hash := s.hash
  tables := s.tables ++ [⟨f.start - s.lastTableEnd, encodeType f.immutable, f.rows⟩]

/-- The main loop over one block of `size` bytes. -/
def filterLoop (size : ℕ) (s : State) (ptr : ℕ) : State :=
  if ptr + maxElementSize * 4 < size then
    -- skip lines that begin with a repetition
    if (s.buf.drop ptr).take 4 ≠ (s.buf.drop (ptr + 3)).take 4 then
      let (hash, count) := countDistances s.buf ptr s.hash
      match firstTable s.buf s.lastTableEnd (candidates count ptr) with
      | some f => filterLoop size (State.filter { s with hash := hash } f) (max (ptr + lineSize) f.stop)
      | none => filterLoop size { s with hash := hash } (ptr + lineSize)
    else filterLoop size s (ptr + lineSize)
  else s
termination_by size - ptr
decreasing_by all_goals (have hline : lineSize = 32 := rfl; omega)

/-- The words of one kind for all tables. -/
def tableWords (tables : List Table) (word : Table → ℕ) : List UInt8 :=
  ((tables.map word).map put32).flatten

/-- The bytes written for one block: its size, the size of the tables of descriptions, these
tables, the filtered data. -/
def blockBytes (s : State) : List UInt8 :=
  put32 s.buf.length ++ put32 (tableWords s.tables Table.type).length
    ++ tableWords s.tables Table.skip ++ tableWords s.tables Table.type
    ++ tableWords s.tables Table.rows ++ s.buf

/-- The most a read can return: its result is an `int`. -/
abbrev intMax : ℕ := 2 ^ 31 - 1

/-- The loop over the blocks of the input. -/
def compressLoop (blockSize : ℕ) (src : Source UInt8) : List UInt8 :=
  if _h : (src.read (min blockSize intMax)).1 = [] then []
  else
    let chunk := (src.read (min blockSize intMax)).1
    blockBytes (filterLoop chunk.length (State.start chunk) lineSize)
      ++ compressLoop blockSize (src.read (min blockSize intMax)).2
termination_by src.rest.length
decreasing_by exact src.length_rest_read_lt _h

/-- `delta_compress`. -/
def deltaCompress (blockSize : ℕ) (src : Source UInt8) : Outcome :=
  ⟨.ok, compressLoop blockSize src⟩

/-! ## The decompressor -/

/-- Why a read of the decompressor does not succeed. -/
inductive Stop
  /-- Fewer bytes than asked for. -/
  | short
  /-- A negative size. -/
  | negative

/-- `READ`: exactly `n` bytes. -/
def readExact (n : Int) (stream : List UInt8) : Except Stop (List UInt8 × List UInt8) :=
  if n < 0 then .error .negative
  else
    match takeExact n.toNat stream with
    | none => .error .short
    | some r => .ok r

/-- A block as it stands in the stream. -/
structure Packed where
  skips : List UInt8
  types : List UInt8
  rows : List UInt8
  data : List UInt8

/-- Read the tables of descriptions and the data. -/
def readParts (dataSize tableSize : Int) (stream : List UInt8) :
    Except Stop (Packed × List UInt8) := do
  let (skips, stream) ← readExact tableSize stream
  let (types, stream) ← readExact tableSize stream
  let (rows, stream) ← readExact tableSize stream
  let (data, stream) ← readExact dataSize stream
  return (⟨skips, types, rows, data⟩, stream)

/-- Read the next block. -/
def readPacked (stream : List UInt8) : Except Stop (Packed × List UInt8) := do
  let (dataSize, stream) ← readExact 4 stream
  let (tableSize, stream) ← readExact 4 stream
  readParts (int32 (leValue dataSize)) (int32 (leValue tableSize)) stream

/-- Undo one table and return what precedes the next: the skipped bytes, the restored table and the
rest.  A table that leaves the data, or is wider than the arrays for its columns, fails. -/
def undoTable (skip type rows : Int) (data : List UInt8) : Option (List UInt8 × List UInt8) :=
  let immutable := decodeType (uint32 type)
  if 0 ≤ skip ∧ 0 ≤ rows ∧ immutable.length ≤ maxElementSize ∧
      skip + immutable.length * rows ≤ data.length then
    let size := immutable.length * rows.toNat
    let rest := data.drop skip.toNat
    some (data.take skip.toNat ++ restoreTable immutable rows.toNat (rest.take size), rest.drop size)
  else none

/-- The loop over the `n` tables from number `i` on. -/
def undoTables (p : Packed) : ℕ → ℕ → List UInt8 → Option (List UInt8)
  | 0, _, data => some data
  | n + 1, i, data => do
    let (done, rest) ← undoTable (← tableAt p.skips i) (← tableAt p.types i) (← tableAt p.rows i) data
    let rest ← undoTables p n (i + 1) rest
    some (done ++ rest)

/-- Undo the tables of a block. -/
def restoreBlock (p : Packed) : Option (List UInt8) := undoTables p (p.types.length / 4) 0 p.data

/-- The loop over the blocks.  The end of the stream is noticed at the size of a block. -/
def decompressLoop : ℕ → List UInt8 → List UInt8 → Option Outcome
  | 0, _, _ => none
  | fuel + 1, stream, written =>
    if stream = [] then some ⟨.ok, written⟩
    else
      match readPacked stream with
      | .error .short => some ⟨.io, written⟩
      | .error .negative => none
      | .ok (p, rest) => do
        let data ← restoreBlock p
        decompressLoop fuel rest (written ++ data)

/-- `delta_decompress`. -/
def deltaDecompress (fuel : ℕ) (stream : List UInt8) : Option Outcome :=
  decompressLoop fuel stream []

/-! ## One table -/

/-- The tables `ts` describe how the bytes `a` become the bytes `b`, whatever follows them. -/
def Undoes (ts : List Table) (a b : List UInt8) : Prop :=
  ∀ (p : Packed) (i : ℕ) (c : List UInt8) (n : ℕ),
    (∀ j (h : j < ts.length), tableAt p.skips (i + j) = some (ts[j].skip : Int) ∧
      tableAt p.types (i + j) = some (ts[j].type : Int) ∧
      tableAt p.rows (i + j) = some (ts[j].rows : Int)) →
    undoTables p (ts.length + n) i (a ++ c) = (undoTables p n (i + ts.length) c).map (b ++ ·)

/-- No tables change nothing. -/
lemma undoes_nil : Undoes [] [] [] := by
  intro p i c n _
  simp

/-- The tables of two neighbouring parts can be undone one after the other. -/
lemma Undoes.append {ts us : List Table} {a b a' b' : List UInt8} (h : Undoes ts a b)
    (h' : Undoes us a' b') : Undoes (ts ++ us) (a ++ a') (b ++ b') := by
  intro p i c n hwords
  have hts := h p i (a' ++ c) (us.length + n) fun j hj => by
    have := hwords j (by rw [List.length_append]; omega)
    rwa [List.getElem_append_left hj] at this
  have hus := h' p (i + ts.length) c n fun j hj => by
    have := hwords (ts.length + j) (by rw [List.length_append]; omega)
    rw [List.getElem_append_right (by omega)] at this
    simpa [Nat.add_assoc] using this
  rw [List.length_append, Nat.add_assoc, List.append_assoc, hts, hus, Nat.add_assoc]
  cases undoTables p n (i + (ts.length + us.length)) c <;> simp

/-- Bytes skipped and a filtered table are undone by the description of the table. -/
lemma undoes_single (skipped : List UInt8) {table : List UInt8} {immutable : List Bool} {rows : ℕ}
    (hwidth : immutable.length ≤ maxElementSize) (htable : table.length = immutable.length * rows) :
    Undoes [⟨skipped.length, encodeType immutable, rows⟩]
      (skipped ++ filterTable immutable rows table) (skipped ++ table) := by
  intro p i c n hwords
  obtain ⟨h₁, h₂, h₃⟩ := hwords 0 (by simp)
  simp only [Nat.add_zero, List.getElem_cons_zero] at h₁ h₂ h₃
  have htype : uint32 (encodeType immutable : Int) = encodeType immutable :=
    uint32_of_lt (by have := encodeType_lt hwidth; omega)
  have hlen := length_filterTable htable
  have hsize : (filterTable immutable rows table).length = immutable.length * rows := by
    rw [hlen, htable]
  have hundo : undoTable skipped.length (encodeType immutable) rows
      (skipped ++ filterTable immutable rows table ++ c) = some (skipped ++ table, c) := by
    rw [undoTable, htype, decodeType_encodeType]
    simp only [Int.toNat_natCast, List.append_assoc]
    rw [if_pos (by
      refine ⟨by omega, by omega, hwidth, ?_⟩
      simp only [List.length_append, hsize]
      push_cast
      omega)]
    rw [List.take_left, List.drop_left, List.take_left' hsize, List.drop_left' hsize,
      restoreTable_filterTable htable]
  rw [List.length_singleton, Nat.add_comm 1 n, undoTables, h₁, h₂, h₃]
  simp only [Option.bind_eq_bind, Option.bind_some, hundo]
  cases undoTables p n (i + 1) c <;> rfl

/-! ## One block -/

/-- The invariant of the main loop over a block: before the end of the last table the descriptions
lead back to the original bytes, and after it nothing has changed. -/
structure Filtered (orig : List UInt8) (s : State) : Prop where
  length_eq : s.buf.length = orig.length
  last_le : s.lastTableEnd ≤ orig.length
  tail_eq : s.buf.drop s.lastTableEnd = orig.drop s.lastTableEnd
  undoes : Undoes s.tables (s.buf.take s.lastTableEnd) (orig.take s.lastTableEnd)
  count_le : 4 * s.tables.length ≤ s.lastTableEnd
  words : ∀ t ∈ s.tables, t.skip ≤ orig.length ∧ t.type < 2 ^ 31 ∧ t.rows ≤ orig.length

/-- At the beginning of a block nothing is filtered. -/
lemma filtered_start (orig : List UInt8) : Filtered orig (State.start orig) where
  length_eq := rfl
  last_le := Nat.zero_le _
  tail_eq := rfl
  undoes := by simpa [State.start] using undoes_nil
  count_le := le_rfl
  words := fun t ht => by cases ht

/-- Lists with the same rest have the same rest further on. -/
lemma drop_eq_of_drop_eq {α : Type*} {a b : List α} {m n : ℕ} (h : a.drop m = b.drop m)
    (hmn : m ≤ n) : a.drop n = b.drop n := by
  rw [← Nat.add_sub_of_le hmn, ← List.drop_drop, h, List.drop_drop]

/-- A front is a shorter front and what lies between. -/
lemma take_eq_take_append {α : Type*} (a : List α) {m n : ℕ} (hmn : m ≤ n) :
    a.take n = a.take m ++ (a.drop m).take (n - m) := by
  rw [← List.take_add, Nat.add_sub_of_le hmn]

/-- Filtering a table that fits keeps the invariant. -/
lemma Filtered.filter {orig : List UInt8} {s : State} {f : Found} (hs : Filtered orig s)
    (hf : f.Fits s.lastTableEnd s.buf.length) : Filtered orig (s.filter f) := by
  obtain ⟨hlen, hlast, htail, hundo, hcount, hwords⟩ := hs
  obtain ⟨hstart, hstop, hwidth, hsize⟩ := hf
  set l := s.lastTableEnd with hl
  have hstopeq : f.stop = f.start + f.size := rfl
  have htable : ((s.buf.drop f.start).take f.size).length = f.immutable.length * f.rows := by
    rw [List.length_take, List.length_drop]
    have : f.size = f.immutable.length * f.rows := rfl
    omega
  have hfiltered := length_filterTable htable
  set table := (s.buf.drop f.start).take f.size with htabledef
  set skipped := (s.buf.drop l).take (f.start - l) with hskipped
  have hskiplen : skipped.length = f.start - l := by
    rw [hskipped, List.length_take, List.length_drop]
    omega
  have htablelen : table.length = f.size := htable
  -- the block after filtering, cut at the end of the table
  have hfront : (s.buf.take f.start ++ filterTable f.immutable f.rows table).length = f.stop := by
    rw [List.length_append, List.length_take, hfiltered]
    omega
  have htake : (filterBlock s.buf f).take f.stop =
      s.buf.take l ++ (skipped ++ filterTable f.immutable f.rows table) := by
    rw [filterBlock, List.take_left' hfront, take_eq_take_append s.buf hstart, List.append_assoc]
  have hdrop : (filterBlock s.buf f).drop f.stop = orig.drop f.stop := by
    rw [filterBlock, List.drop_left' hfront]
    exact drop_eq_of_drop_eq htail (by omega)
  have horig : orig.take f.stop = orig.take l ++ (skipped ++ table) := by
    have h₁ : skipped = (orig.drop l).take (f.start - l) := by rw [hskipped, htail]
    have h₂ : table = (orig.drop f.start).take (f.stop - f.start) := by
      rw [htabledef, drop_eq_of_drop_eq htail hstart, hstopeq, Nat.add_sub_cancel_left]
    rw [h₁, h₂, take_eq_take_append orig (show f.start ≤ f.stop by omega),
      take_eq_take_append orig hstart, List.append_assoc]
  have hone := undoes_single skipped hwidth htable
  rw [hskiplen] at hone
  refine ⟨?_, ?_, hdrop, ?_, ?_, ?_⟩
  · have hsum : (filterBlock s.buf f).length = f.stop + (orig.length - f.stop) := by
      have h₁ := congrArg List.length (List.take_append_drop f.stop (filterBlock s.buf f))
      have h₂ : ((filterBlock s.buf f).take f.stop).length = f.stop := by
        rw [filterBlock, List.take_left' hfront, hfront]
      rw [List.length_append, h₂, hdrop, List.length_drop] at h₁
      exact h₁.symm
    change (filterBlock s.buf f).length = orig.length
    omega
  · change f.stop ≤ orig.length
    omega
  · change Undoes (s.tables ++ [_]) ((filterBlock s.buf f).take f.stop) (orig.take f.stop)
    rw [htake, horig]
    exact hundo.append hone
  · change 4 * (s.tables ++ [_]).length ≤ f.stop
    rw [List.length_append, List.length_singleton]
    omega
  · intro t ht
    rcases List.mem_append.mp ht with ht | ht
    · exact hwords t ht
    · obtain rfl := List.mem_singleton.mp ht
      have hpos : 0 < f.immutable.length := by
        rcases Nat.eq_zero_or_pos f.immutable.length with h₀ | h₀
        · rw [Found.size, h₀] at hsize
          omega
        · exact h₀
      have hrows : f.rows ≤ f.size := Nat.le_mul_of_pos_left f.rows hpos
      exact ⟨by simp only; omega, encodeType_lt hwidth, by simp only; omega⟩

/-- A change of the hash table keeps the invariant. -/
lemma Filtered.hash {orig : List UInt8} {s : State} (hs : Filtered orig s) (hash : HashTable) :
    Filtered orig { s with hash := hash } :=
  ⟨hs.length_eq, hs.last_le, hs.tail_eq, hs.undoes, hs.count_le, hs.words⟩

/-- **Whatever tables the main loop finds**, their descriptions lead back to the original block. -/
lemma filterLoop_filtered {orig : List UInt8} (s : State) (ptr : ℕ) (hs : Filtered orig s)
    (hptr : s.lastTableEnd ≤ ptr) : Filtered orig (filterLoop orig.length s ptr) := by
  have hmax : maxElementSize = 30 := rfl
  induction s, ptr using filterLoop.induct orig.length with
  | case1 s ptr hlt hline hash count hcount f hfound ih =>
    rw [filterLoop, if_pos hlt, if_pos hline, hcount]
    simp only [hfound]
    refine ih (Filtered.filter (hs.hash hash) ?_) (le_max_right _ _)
    have hcands : ∀ c ∈ candidates count ptr,
        c.1 < maxElementSize ∧ s.lastTableEnd ≤ c.2 ∧ c.2 ≤ s.buf.length := by
      intro c hc
      obtain ⟨h₁, h₂, h₃⟩ := candidates_spec c hc
      have := hs.length_eq
      omega
    exact firstTable_spec hcands hfound
  | case2 s ptr hlt hline hash count hcount hnone ih =>
    rw [filterLoop, if_pos hlt, if_pos hline, hcount]
    simp only [hnone]
    exact ih (hs.hash hash) (by simp only; omega)
  | case3 s ptr hlt hline ih =>
    rw [filterLoop, if_pos hlt, if_neg hline]
    exact ih hs (by omega)
  | case4 s ptr hlt =>
    rw [filterLoop, if_neg hlt]
    exact hs

/-- The filtered block, as the decompressor reads it. -/
def packed (s : State) : Packed where
  skips := tableWords s.tables Table.skip
  types := tableWords s.tables Table.type
  rows := tableWords s.tables Table.rows
  data := s.buf

/-- **A filtered block is restored.** -/
lemma restoreBlock_packed {orig : List UInt8} {s : State} (hs : Filtered orig s)
    (hsize : orig.length < 2 ^ 31) : restoreBlock (packed s) = some orig := by
  have hword : ∀ word : Table → ℕ, (∀ t ∈ s.tables, word t < 2 ^ 31) →
      ∀ j (h : j < s.tables.length),
        tableAt (tableWords s.tables word) (0 + j) = some (word s.tables[j] : Int) := by
    intro word hlt j hj
    have hat := tableAt_put32 (s.tables.map word) [] (by simpa using hlt) j (by simpa using hj)
    rw [List.append_nil, List.getElem_map] at hat
    rw [Nat.zero_add]
    exact hat
  have hcount : (packed s).types.length / 4 = s.tables.length + 0 := by
    have htypes : (packed s).types.length = 4 * s.tables.length := by
      change (tableWords s.tables Table.type).length = 4 * s.tables.length
      rw [tableWords, length_flatten_put32, List.length_map]
    omega
  have hsplit : s.buf = s.buf.take s.lastTableEnd ++ orig.drop s.lastTableEnd := by
    rw [← hs.tail_eq, List.take_append_drop]
  have hdata : (packed s).data = s.buf.take s.lastTableEnd ++ orig.drop s.lastTableEnd := hsplit
  rw [restoreBlock, hcount, hdata, hs.undoes (packed s) 0 _ 0 fun j hj =>
    ⟨hword Table.skip (fun t ht => by have := (hs.words t ht).1; omega) j hj,
      hword Table.type (fun t ht => (hs.words t ht).2.1) j hj,
      hword Table.rows (fun t ht => by have := (hs.words t ht).2.2; omega) j hj⟩]
  simp [undoTables]

/-! ## All blocks -/

/-- A word read back as an `int`. -/
lemma int32_leValue_put32 {n : ℕ} (h : n < 2 ^ 31) : int32 (leValue (put32 n)) = n := by
  rw [put32, leValue_leBytes_of_lt (by omega), int32_of_mem (by omega) (by omega)]

/-- A front of known length is read exactly. -/
lemma readExact_append {front rest : List UInt8} {n : Int} (h : n = front.length) :
    readExact n (front ++ rest) = .ok (front, rest) := by
  rw [readExact, if_neg (by omega), h, Int.toNat_natCast, takeExact_append rfl]

/-- The four parts of a block are read in this order. -/
lemma readParts_append {dataSize tableSize : Int} {skips types rows data rest : List UInt8}
    (hdata : dataSize = data.length) (hskips : tableSize = skips.length)
    (htypes : tableSize = types.length) (hrows : tableSize = rows.length) :
    readParts dataSize tableSize (skips ++ (types ++ (rows ++ (data ++ rest)))) =
      .ok (⟨skips, types, rows, data⟩, rest) := by
  simp only [readParts, readExact_append hskips, readExact_append htypes, readExact_append hrows,
    readExact_append hdata, bind, Except.bind]
  rfl

/-- The size words come before the parts. -/
lemma readPacked_append {w₁ w₂ rest : List UInt8} (h₁ : w₁.length = 4) (h₂ : w₂.length = 4) :
    readPacked (w₁ ++ (w₂ ++ rest)) = readParts (int32 (leValue w₁)) (int32 (leValue w₂)) rest := by
  have hw₁ : (4 : Int) = w₁.length := by omega
  have hw₂ : (4 : Int) = w₂.length := by omega
  simp only [readPacked, readExact_append hw₁, readExact_append hw₂, bind, Except.bind]

/-- The decompressor reads back a block as it was written. -/
lemma readPacked_blockBytes {orig : List UInt8} {s : State} (hs : Filtered orig s)
    (hsize : orig.length < 2 ^ 31) (rest : List UInt8) :
    readPacked (blockBytes s ++ rest) = .ok (packed s, rest) := by
  have hlen : ∀ word : Table → ℕ, (tableWords s.tables word).length = 4 * s.tables.length := by
    intro word
    rw [tableWords, length_flatten_put32, List.length_map]
  have hcount := hs.count_le
  have hlast := hs.last_le
  have hdata : int32 (leValue (put32 s.buf.length)) = s.buf.length :=
    int32_leValue_put32 (by rw [hs.length_eq]; exact hsize)
  have htables : ∀ word : Table → ℕ,
      int32 (leValue (put32 (tableWords s.tables Table.type).length))
        = (tableWords s.tables word).length := by
    intro word
    rw [hlen, hlen, int32_leValue_put32 (by omega)]
  simp only [blockBytes, List.append_assoc]
  have hput : ∀ n, (put32 n).length = 4 := length_leBytes 4
  rw [readPacked_append (hput _) (hput _)]
  exact readParts_append hdata (htables _) (htables _) (htables _)

/-- The decompressor undoes the blocks of any input. -/
lemma decompressLoop_compressLoop {blockSize : ℕ} (hB : 0 < blockSize) (src : Source UInt8)
    (written : List UInt8) :
    ∃ fuel, decompressLoop fuel (compressLoop blockSize src) written =
      some ⟨.ok, written ++ src.rest⟩ := by
  have hask : 0 < min blockSize intMax := lt_min hB (by norm_num)
  induction src using compressLoop.induct blockSize generalizing written with
  | case1 src hend =>
    have hrest := (src.read_eq_nil_iff hask).mp hend
    refine ⟨1, ?_⟩
    rw [compressLoop, dif_pos hend, decompressLoop, if_pos rfl, hrest, List.append_nil]
  | case2 src hend ih =>
    set chunk := (src.read (min blockSize intMax)).1 with hchunk
    have hlen : chunk.length < 2 ^ 31 := by
      have h₁ := src.length_read_le (min blockSize intMax)
      have h₂ : min blockSize intMax ≤ 2 ^ 31 - 1 := min_le_right _ _
      exact lt_of_le_of_lt (h₁.trans h₂) (by norm_num)
    have hs := filterLoop_filtered (State.start chunk) lineSize (filtered_start chunk)
      (Nat.zero_le _)
    obtain ⟨fuel, hfuel⟩ := ih (written ++ chunk)
    refine ⟨fuel + 1, ?_⟩
    have hne : blockBytes (filterLoop chunk.length (State.start chunk) lineSize)
        ++ compressLoop blockSize (src.read (min blockSize intMax)).2 ≠ [] := by
      simp [blockBytes, put32, leBytes]
    rw [compressLoop, dif_neg hend, decompressLoop, if_neg hne, readPacked_blockBytes hs hlen]
    simp only [restoreBlock_packed hs hlen, Option.bind_eq_bind, Option.bind_some]
    rw [hfuel, List.append_assoc, src.read_append]

/-- More fuel does not change the result of the decompressor. -/
lemma deltaDecompress_steady (stream : List UInt8) :
    Steady fun fuel => deltaDecompress fuel stream := by
  have hloop : ∀ n stream written r, decompressLoop n stream written = some r →
      decompressLoop (n + 1) stream written = some r := by
    intro n
    induction n with
    | zero => intro stream written r h; cases h
    | succ n ih =>
      intro stream written r h
      rw [decompressLoop] at h ⊢
      split at h
      · next hend => rwa [if_pos hend]
      · next hend =>
        rw [if_neg hend]
        split at h
        · exact h
        · cases h
        · obtain ⟨data, hdata, h⟩ := Option.bind_eq_some_iff.mp h
          exact Option.bind_eq_some_iff.mpr ⟨data, hdata, ih _ _ _ h⟩
  exact fun n r h => hloop n stream [] r h

end DArc.Delta
