import DArc.Tornado.DataTables

/-!
# Data tables do not depend on the writes

Whatever the decoder finds, and wherever its output is cut into writes, what is written is the stream with every
table undone as a whole.  Between the writes the buffer holds the bytes of the stream itself, so that matches copy
what the coder has seen.

### Outline

* `Table`, `tablesOf`, `bytesOf`: the tables and the bytes of a list of items, with positions in the stream;
* `undiffed`: the stream with every table undone as a whole;
* `Listed`, `Inv`: how an entry of the list is related to a table, and the invariant of the decompressor.

### Main results

* `diffTables_undiffTables`: after a write the memory is as before it;
* `written_eq_undiffed`: what is written, and what matches copy, for every run.
-/

namespace DArc.Tornado

open Memory

/-! ## The tables of the stream -/

/-- A table, with its position in the stream. -/
structure Table where
  type : ℕ
  type_eq : type = 2 ∨ type = 4
  start : Int
  rows : ℕ

/-- The position behind a table. -/
def Table.stop (t : Table) : Int := t.start + t.type * t.rows

/-- The bytes of a list of items. -/
def bytesOf : List Item → List UInt8
  | [] => []
  | .byte c :: items => c :: bytesOf items
  | .table _ _ _ :: items => bytesOf items
  | .eof :: items => bytesOf items

/-- The tables of a list of items, when the first of them is found at a position. -/
def tablesOf (pos : Int) : List Item → List Table
  | [] => []
  | .byte _ :: items => tablesOf (pos + 1) items
  | .table type type_eq rows :: items => ⟨type, type_eq, pos, rows⟩ :: tablesOf pos items
  | .eof :: items => tablesOf pos items

/-- The tables do not overlap. -/
def Apart (tables : List Table) : Prop := tables.Pairwise fun t t' => t.stop ≤ t'.start

/-- A list of bytes as a memory. -/
def streamMemory (stream : List UInt8) : Memory := fun x => stream.getD x.toNat 0

/-- The stream with every table undone as a whole. -/
def undiffed (tables : List Table) (stream : Memory) : Memory :=
  tables.foldl (fun m t => undiffTable t.type t.start t.rows m) stream

/-- The address of the byte that a match copies first. -/
def matchSource (bufsize : ℕ) (s : Output) (dist : Int) : Int :=
  if dist ≤ s.output then s.output - dist else s.output - dist + bufsize

/-! ## One table -/

variable {N : ℕ} {a : Int} {len : ℕ} {m m' : Memory}

/-- A table concerns its rows only. -/
lemma localTo_undiffTable (N : ℕ) (a : Int) (len : ℕ) : LocalTo (undiffTable N a len) a (a + N * len) := by
  cases len with
  | zero =>
    refine ⟨fun m x _ => rfl, fun m m' hsame x h₁ h₂ => hsame x h₁ h₂⟩
  | succ len => exact localTo_accumulate N a len

/-- Taking the differences undoes the sums. -/
lemma diffTable_undiffTable (N : ℕ) (a : Int) (len : ℕ) (m : Memory) :
    diffTable N a len (undiffTable N a len m) = m := by
  have hfirst : (undiffTable N a len m).word a N = m.word a N :=
    word_congr fun i hi => accumulate_of_outside (.inl (by omega))
  unfold diffTable
  rw [hfirst]
  exact difference_accumulate (word_lt m a N)

/-- A byte of a table: the byte `j` of the row `k`. -/
lemma undiffTable_apply {k j : ℕ} (hk : k < len) (hj : j < N) :
    undiffTable N a len m (a + N * k + j) = UInt8.ofNat (m.rowSum a N (k + 1) (j + 1) / 256 ^ j) :=
  accumulate_apply (by omega) hj

/-- The first row stays as it is. -/
lemma undiffTable_of_lt {x : Int} (h : x < a + N) : undiffTable N a len m x = m x := accumulate_of_outside (.inl h)

/-! ## The list of tables -/

/-- The entries of the list do not overlap. -/
def EntriesApart (tables : List DataTableEntry) : Prop :=
  tables.Pairwise fun p p' : DataTableEntry => p.tableStart + p.tableType * p.tableLen ≤ p'.tableStart

/-- The memory while the base of a table that continues is in its place. -/
def DataTables.patched (dt : DataTables) (writeStart : Int) (m : Memory) : Memory :=
  match dt.continued writeStart with
  | some p => m.copy p.tableStart dt.baseData 0 (min p.tableType (writeStart - p.tableStart).toNat)
  | none => m

variable {dt : DataTables} {writeStart writeEnd : Int}

/-- The rows that are processed are rows of the entry. -/
lemma DataTableEntry.lenUntil_le (p : DataTableEntry) (writeEnd : Int) : p.lenUntil writeEnd ≤ p.tableLen :=
  min_le_left _ _

/-- The entries do not overlap up to the end of a write. -/
lemma EntriesApart.until {tables : List DataTableEntry} (h : EntriesApart tables) (writeEnd : Int) :
    tables.Pairwise fun p p' : DataTableEntry => p.tableStart + p.tableType * p.lenUntil writeEnd ≤ p'.tableStart := by
  refine h.imp fun {p p'} hle => ?_
  have hrows : (p.tableType : Int) * p.lenUntil writeEnd ≤ p.tableType * p.tableLen :=
    mul_le_mul_of_nonneg_left (Int.ofNat_le.mpr (p.lenUntil_le writeEnd)) (Int.natCast_nonneg _)
  omega

/-- Taking the differences of all entries undoes the sums. -/
lemma processDiff_processUndiff (h : EntriesApart dt.tables) (m : Memory) :
    dt.processDiff writeEnd (dt.processUndiff writeEnd m) = m :=
  foldl_undo (fun p : DataTableEntry => localTo_undiffTable p.tableType p.tableStart (p.lenUntil writeEnd))
    (fun _ _ => diffTable_undiffTable _ _ _ _) (h.until writeEnd) m

/-- What is written comes from the memory with the base in its place. -/
lemma undiffTables_snd (m : Memory) :
    (dt.undiffTables writeStart writeEnd m).2 = dt.processUndiff writeEnd (dt.patched writeStart m) := by
  unfold DataTables.undiffTables DataTables.patched
  cases dt.continued writeStart <;> rfl

/-- The list is the same during the write, and so is the base. -/
lemma undiffTables_fst (m : Memory) : (dt.undiffTables writeStart writeEnd m).1.tables = dt.tables ∧
    (dt.undiffTables writeStart writeEnd m).1.baseData = dt.baseData := by
  unfold DataTables.undiffTables
  cases dt.continued writeStart <;> exact ⟨rfl, rfl⟩

/-- The memory behind `diff_tables`. -/
lemma diffTables_snd (m : Memory) :
    (dt.diffTables writeStart writeEnd m).2 = dt.restore writeStart (dt.processDiff writeEnd m) := by
  unfold DataTables.diffTables
  cases dt.tables.getLast? with
  | none => rfl
  | some p =>
    dsimp only
    split_ifs <;> rfl

/-- **After a write the memory is as before it.** -/
theorem diffTables_undiffTables (h : EntriesApart dt.tables) (m : Memory) :
    ((dt.undiffTables writeStart writeEnd m).1.diffTables writeStart writeEnd
      (dt.undiffTables writeStart writeEnd m).2).2 = m := by
  have hprocess (dt' : DataTables) (htables : dt'.tables = dt.tables) (m : Memory) :
      dt'.processDiff writeEnd (dt.processUndiff writeEnd m) = m := by
    unfold DataTables.processDiff
    rw [htables]
    exact processDiff_processUndiff h m
  rw [diffTables_snd, undiffTables_snd, hprocess _ (undiffTables_fst m).1]
  unfold DataTables.restore DataTables.continued
  rw [(undiffTables_fst m).1]
  unfold DataTables.patched DataTables.undiffTables DataTables.continued
  cases (dt.tables.head?.filter fun p => decide (p.tableStart < writeStart)) with
  | none => rfl
  | some p => exact copy_back _ _ _ _ _ _ _

/-! ## Entries and tables -/

/-- An entry is what is left of a table from one of its rows on; at a later row, two rows have been written. -/
structure Listed (offset writeStart : Int) (t : Table) (p : DataTableEntry) : Prop where
  type_eq : p.tableType = t.type
  rows : ∃ q : ℕ, p.tableStart + offset = t.start + t.type * q ∧ p.tableLen + q = t.rows ∧
    (q = 0 ∨ p.tableStart + 2 * t.type ≤ writeStart)
  pos : p.tableStart < writeStart → 0 < p.tableLen

variable {offset : Int} {t : Table} {p : DataTableEntry} {R : Memory}

/-- The end of an entry is that of the table. -/
lemma Listed.stop_eq (h : Listed offset writeStart t p) :
    p.tableStart + p.tableType * p.tableLen + offset = t.stop := by
  obtain ⟨q, hstart, hlen, -⟩ := h.rows
  rw [Table.stop, ← hlen, h.type_eq]
  push_cast
  linear_combination hstart

/-- An entry begins inside of the table. -/
lemma Listed.start_le (h : Listed offset writeStart t p) : t.start ≤ p.tableStart + offset := by
  obtain ⟨q, hstart, -, -⟩ := h.rows
  have hnonneg : 0 ≤ (t.type : Int) * q := by positivity
  omega

/-- The rows up to the end of a write are processed. -/
lemma lt_lenUntil {k : ℕ} (hk : k < p.tableLen) (h : p.tableStart + p.tableType * k < writeEnd) :
    k < p.lenUntil writeEnd := by
  have hpos : (0 : Int) < p.tableType := by rcases p.type_eq with h2 | h4 <;> omega
  have hdiv : (k : Int) ≤ (writeEnd - p.tableStart) / p.tableType := by
    rw [Int.le_ediv_iff_mul_le hpos]
    linarith [mul_comm (p.tableType : Int) k]
  unfold DataTableEntry.lenUntil
  omega

/-- **The bytes of a table are undone from any of its rows on**, in a memory that holds the sum in place of that row,
and the stream behind it. -/
lemma undiffTable_entry (h : Listed offset writeStart t p) {m₁ : Memory}
    (hfirst : ∀ i : ℕ, i < t.type → p.tableStart + i < writeEnd →
      m₁ (p.tableStart + i) = undiffTable t.type t.start t.rows R (p.tableStart + i + offset))
    (hlater : ∀ x, p.tableStart + t.type ≤ x → x < writeEnd → m₁ x = R (x + offset))
    {x : Int} (h₁ : p.tableStart ≤ x) (h₂ : x < p.tableStart + p.tableType * p.tableLen) (hx : x < writeEnd) :
    x < p.tableStart + p.tableType * p.lenUntil writeEnd ∧
      undiffTable p.tableType p.tableStart (p.lenUntil writeEnd) m₁ x =
        undiffTable t.type t.start t.rows R (x + offset) := by
  obtain ⟨q, hstart, hlen, -⟩ := h.rows
  have htype := h.type_eq
  have hpos : 0 < t.type := by rcases t.type_eq with h2 | h4 <;> omega
  rw [htype] at h₂ ⊢
  -- the byte `j` of the row `k` behind the beginning of the entry
  obtain ⟨k, j, hj, rfl⟩ : ∃ k j : ℕ, j < t.type ∧ x = p.tableStart + t.type * k + j := by
    obtain ⟨d, hd⟩ : ∃ d : ℕ, x = p.tableStart + d := ⟨(x - p.tableStart).toNat, by omega⟩
    have hsplit : (t.type : Int) * (d / t.type : ℕ) + (d % t.type : ℕ) = d := by exact_mod_cast Nat.div_add_mod d t.type
    exact ⟨d / t.type, d % t.type, Nat.mod_lt _ hpos, by linarith⟩
  have hk : k < p.tableLen := by
    by_contra hge
    have hmul : (t.type : Int) * p.tableLen ≤ t.type * k :=
      mul_le_mul_of_nonneg_left (by omega) (Int.natCast_nonneg _)
    omega
  have huntil : k < p.lenUntil writeEnd := lt_lenUntil hk (by rw [htype]; omega)
  have hinside : (t.type : Int) * (k + 1 : ℕ) ≤ t.type * p.lenUntil writeEnd :=
    mul_le_mul_of_nonneg_left (by omega) (Int.natCast_nonneg _)
  refine ⟨by push_cast at hinside; linarith [mul_add (t.type : Int) k 1], ?_⟩
  have hplace : p.tableStart + t.type * k + j + offset = t.start + t.type * ((q + k : ℕ) : Int) + j := by
    push_cast
    linear_combination hstart
  rw [undiffTable_apply huntil hj, hplace, undiffTable_apply (by omega) hj]
  refine ofNat_div_congr ?_
  have hcount : q + k + 1 = q + 1 + k := by omega
  have hmul : 0 ≤ (t.type : Int) * k := by positivity
  rw [hcount]
  refine rowSum_restart (fun i hi => ?_) fun i hi j' hj' => ?_
  · have hrow : p.tableStart + i + offset = t.start + t.type * q + i := by linear_combination hstart
    rw [hfirst i (by omega) (by omega), hrow, undiffTable_apply (by omega) (by omega)]
  · have hbefore : (t.type : Int) * (i + 1 : ℕ) ≤ t.type * k :=
      mul_le_mul_of_nonneg_left (by omega) (Int.natCast_nonneg _)
    have hrow : p.tableStart + t.type + t.type * i + j' + offset =
        t.start + t.type * ((q + 1 + i : ℕ) : Int) + j' := by
      push_cast
      linear_combination hstart
    push_cast at hbefore
    rw [mul_add, mul_one] at hbefore
    have hnonneg : 0 ≤ (t.type : Int) * i := by positivity
    rw [hlater _ (by omega) (by omega), hrow]

/-! ## The stream with its tables undone -/

variable {T : List Table}

/-- Inside of a table. -/
lemma undiffed_of_mem (hT : Apart T) (ht : t ∈ T) {x : Int} (h₁ : t.start ≤ x) (h₂ : x < t.stop) :
    undiffed T R x = undiffTable t.type t.start t.rows R x :=
  foldl_of_mem (fun t : Table => localTo_undiffTable t.type t.start t.rows) hT ht h₁ h₂ R

/-- Outside of all tables. -/
lemma undiffed_of_outside {x : Int} (h : ∀ t ∈ T, x < t.start ∨ t.stop ≤ x) : undiffed T R x = R x :=
  foldl_of_outside (fun t : Table => localTo_undiffTable t.type t.start t.rows) h R

/-- A later table changes nothing in front of it. -/
lemma undiffed_append {x : Int} (h : x < t.start) : undiffed (T ++ [t]) R x = undiffed T R x := by
  unfold undiffed
  rw [List.foldl_append, List.foldl_cons, List.foldl_nil]
  exact (localTo_undiffTable t.type t.start t.rows).outside _ x (.inl h)

/-! ## The invariant -/

/-- The buffer holds the stream `R` and the bytes of tables in front of it; the entries of the list are what is left
of the last tables; and what is written is the stream with the tables `T` undone. -/
structure Inv (R : Memory) (T : List Table) (s : Output) : Prop where
  writeStart_nonneg : 0 ≤ s.writeStart
  writeStart_le : s.writeStart ≤ s.output
  offset_nonneg : 0 ≤ s.offset
  buffer : ∀ x, 0 ≤ x → x < s.output → s.mem x = R (x + s.offset)
  kept : ∀ p ∈ s.tables.tables, ∀ x, p.tableStart ≤ x → x < s.output → s.mem x = R (x + s.offset)
  listed : ∃ (done : List Table) (l : List (Table × DataTableEntry)), T = done ++ l.map Prod.fst ∧
    s.tables.tables = l.map Prod.snd ∧ (∀ t ∈ done, t.stop ≤ s.offset + s.writeStart) ∧
    ∀ x ∈ l, Listed s.offset s.writeStart x.1 x.2
  start_le : ∀ t ∈ T, t.start ≤ s.offset + s.output
  fresh : ∀ p ∈ s.tables.tables.tail, s.writeStart ≤ p.tableStart
  base : ∀ p, s.tables.continued s.writeStart = some p → ∀ i : ℕ, i < p.tableType →
    p.tableStart + i < s.writeStart → s.tables.baseData i = undiffed T R (p.tableStart + i + s.offset)
  written : s.written = (undiffed T R).bytes 0 (s.offset + s.writeStart).toNat

variable {s : Output}

/-- A table that continues is the first of the list. -/
lemma continued_eq_some : dt.continued writeStart = some p ↔ dt.tables.head? = some p ∧ p.tableStart < writeStart := by
  unfold DataTables.continued
  rw [Option.filter_eq_some_iff, decide_eq_true_iff]

/-- Only the first entry begins in front of the write. -/
lemma Inv.continued_or (h : Inv R T s) (hp : p ∈ s.tables.tables) :
    s.tables.continued s.writeStart = some p ∨ s.writeStart ≤ p.tableStart := by
  by_cases hlt : p.tableStart < s.writeStart
  swap
  · exact .inr (not_lt.mp hlt)
  refine .inl (continued_eq_some.mpr ⟨?_, hlt⟩)
  have hfresh := h.fresh
  cases htables : s.tables.tables with
  | nil =>
    rw [htables] at hp
    cases hp
  | cons p' tables =>
    rw [htables] at hp hfresh
    rcases List.mem_cons.mp hp with rfl | hp
    · rfl
    · exact absurd (hfresh p hp) (not_le.mpr hlt)

/-- The base is put in front of the write. -/
lemma patched_of_ge {x : Int} (hx : writeStart ≤ x) : dt.patched writeStart m x = m x := by
  unfold DataTables.patched
  cases hfirst : dt.continued writeStart with
  | none => rfl
  | some p =>
    have hlt := (continued_eq_some.mp hfirst).2
    exact copy_of_outside (.inr (by omega))

/-- Every entry belongs to a table. -/
lemma Inv.exists_table (h : Inv R T s) (hp : p ∈ s.tables.tables) : ∃ t ∈ T, Listed s.offset s.writeStart t p := by
  obtain ⟨done, l, hT, htables, -, hlisted⟩ := h.listed
  rw [htables] at hp
  obtain ⟨x, hx, rfl⟩ := List.mem_map.mp hp
  exact ⟨x.1, by rw [hT]; exact List.mem_append_right _ (List.mem_map_of_mem hx), hlisted x hx⟩

/-- The entries do not overlap. -/
lemma Inv.entriesApart (h : Inv R T s) (hT : Apart T) : EntriesApart s.tables.tables := by
  obtain ⟨done, l, rfl, htables, -, hlisted⟩ := h.listed
  have hl := List.pairwise_map.mp (List.pairwise_append.mp hT).2.1
  unfold EntriesApart
  rw [htables, List.pairwise_map]
  refine hl.imp_of_mem fun {x y} hx hy hle => ?_
  have hstop := (hlisted x hx).stop_eq
  have hstart := (hlisted y hy).start_le
  omega

/-- The first row of an entry, with the base in its place. -/
lemma Inv.patched_first (h : Inv R T s) (hT : Apart T) (ht : t ∈ T) (hp : p ∈ s.tables.tables)
    (hlisted : Listed s.offset s.writeStart t p) {i : ℕ} (hi : i < t.type) (hx : p.tableStart + i < s.output) :
    s.tables.patched s.writeStart s.mem (p.tableStart + i) =
      undiffTable t.type t.start t.rows R (p.tableStart + i + s.offset) := by
  obtain ⟨q, hstart, hlen, hq⟩ := hlisted.rows
  have htype := hlisted.type_eq
  -- a row that has not been written yet is the first one of the table
  have hraw (hge : s.writeStart ≤ p.tableStart + i) : s.tables.patched s.writeStart s.mem (p.tableStart + i) =
      undiffTable t.type t.start t.rows R (p.tableStart + i + s.offset) := by
    have hzero : q = 0 := by
      rcases hq with hq | hq
      · exact hq
      · omega
    subst hzero
    rw [patched_of_ge hge, h.kept p hp _ (by omega) hx, undiffTable_of_lt (by push_cast at hstart; omega)]
  by_cases hge : s.writeStart ≤ p.tableStart + i
  · exact hraw hge
  rcases h.continued_or hp with hfirst | hfresh
  · have hbase := h.base p hfirst i (by omega) (not_le.mp hge)
    have hrow : (t.type : Int) * (q + 1 : ℕ) ≤ t.type * t.rows := by
      have hpos := hlisted.pos (continued_eq_some.mp hfirst).2
      exact mul_le_mul_of_nonneg_left (by omega) (Int.natCast_nonneg _)
    push_cast at hrow
    rw [mul_add, mul_one] at hrow
    have hnonneg : 0 ≤ (t.type : Int) * q := by positivity
    have hinside : p.tableStart + i + s.offset < t.stop := by
      unfold Table.stop
      omega
    rw [undiffed_of_mem hT ht (by omega) hinside] at hbase
    have hzero : (0 : Int) + (p.tableStart + i - p.tableStart) = i := by ring
    unfold DataTables.patched
    rw [hfirst]
    dsimp only
    rw [copy_of_mem (by omega) (by omega), hzero, hbase]
  · exact absurd (by omega) hge

/-- The later rows of an entry, with the base in its place. -/
lemma Inv.patched_later (h : Inv R T s) (hp : p ∈ s.tables.tables) {x : Int} (h₁ : p.tableStart + p.tableType ≤ x)
    (h₂ : x < s.output) : s.tables.patched s.writeStart s.mem x = R (x + s.offset) := by
  have hmem : s.mem x = R (x + s.offset) := h.kept p hp x (by omega) h₂
  rcases h.continued_or hp with hfirst | hfresh
  · unfold DataTables.patched
    rw [hfirst]
    dsimp only
    rw [copy_of_outside (.inr (by omega)), hmem]
  · rw [patched_of_ge (by omega), hmem]

/-! ## A write -/

/-- The memory that is written from. -/
abbrev Output.undone (s : Output) : Memory := s.tables.processUndiff s.output (s.tables.patched s.writeStart s.mem)

/-- **The bytes of an entry** are undone up to the end of the write. -/
lemma Inv.undone_of_mem (h : Inv R T s) (hT : Apart T) (hp : p ∈ s.tables.tables) {x : Int} (h₁ : p.tableStart ≤ x)
    (h₂ : x < p.tableStart + p.tableType * p.tableLen) (hx : x < s.output) :
    s.undone x = undiffed T R (x + s.offset) := by
  obtain ⟨t, ht, hlisted⟩ := h.exists_table hp
  have htype := hlisted.type_eq
  have hstart := hlisted.start_le
  have hstop := hlisted.stop_eq
  obtain ⟨huntil, hvalue⟩ := undiffTable_entry hlisted
    (fun i hi hx => h.patched_first hT ht hp hlisted hi hx)
    (fun x h₁ h₂ => h.patched_later hp (by omega) h₂) h₁ h₂ hx
  rw [undiffed_of_mem hT ht (by omega) (by omega), ← hvalue]
  exact foldl_of_mem (fun p : DataTableEntry => localTo_undiffTable p.tableType p.tableStart (p.lenUntil s.output))
    ((h.entriesApart hT).until s.output) hp h₁ huntil _

/-- **The bytes that are written** are undone. -/
lemma Inv.undone_eq (h : Inv R T s) (hT : Apart T) {x : Int} (h₁ : s.writeStart ≤ x) (h₂ : x < s.output) :
    s.undone x = undiffed T R (x + s.offset) := by
  have hnonneg := h.writeStart_nonneg
  by_cases hmem : ∃ p ∈ s.tables.tables, p.tableStart ≤ x ∧ x < p.tableStart + p.tableType * p.tableLen
  · obtain ⟨p, hp, h₃, h₄⟩ := hmem
    exact h.undone_of_mem hT hp h₃ h₄ h₂
  push Not at hmem
  -- no table has a byte here
  have houtside : ∀ t ∈ T, x + s.offset < t.start ∨ t.stop ≤ x + s.offset := by
    obtain ⟨done, l, rfl, htables, hdone, hlisted⟩ := h.listed
    intro t ht
    rcases List.mem_append.mp ht with ht | ht
    · have hstop := hdone t ht
      omega
    · obtain ⟨y, hy, rfl⟩ := List.mem_map.mp ht
      have hp : y.2 ∈ s.tables.tables := by
        rw [htables]
        exact List.mem_map_of_mem hy
      have hle := hmem y.2 hp
      have hstop := (hlisted y hy).stop_eq
      obtain ⟨q, hstart, -, hq⟩ := (hlisted y hy).rows
      rcases hq with rfl | hq
      · push_cast at hstart
        omega
      · omega
  have hsame : s.undone x = s.tables.patched s.writeStart s.mem x := by
    refine foldl_of_outside
      (fun p : DataTableEntry => localTo_undiffTable p.tableType p.tableStart (p.lenUntil s.output)) (fun p hp => ?_) _
    have hle := hmem p hp
    have hrows : (p.tableType : Int) * p.lenUntil s.output ≤ p.tableType * p.tableLen :=
      mul_le_mul_of_nonneg_left (Int.ofNat_le.mpr (p.lenUntil_le _)) (Int.natCast_nonneg _)
    omega
  rw [hsame, patched_of_ge h₁, h.buffer x (by omega) h₂, undiffed_of_outside houtside]

/-- The variables behind a write. -/
lemma flush_eq (s : Output) : s.flush.output = s.output ∧ s.flush.offset = s.offset ∧ s.flush.writeStart = s.output ∧
    s.flush.writeEnd = s.writeEnd ∧
    s.flush.written = s.written ++ s.undone.bytes s.writeStart (s.output - s.writeStart).toNat := by
  refine ⟨rfl, rfl, rfl, rfl, ?_⟩
  unfold Output.undone
  rw [← undiffTables_snd]
  rfl

/-- The memory behind a write. -/
lemma Inv.flush_mem (h : Inv R T s) (hT : Apart T) : s.flush.mem = s.mem :=
  diffTables_undiffTables (h.entriesApart hT) s.mem

/-- The list behind a write: nothing, or the rest of the last table and its base. -/
lemma flush_tables (s : Output) :
    (s.flush.tables.tables = [] ∧ ∀ p, s.tables.tables.getLast? = some p → p.tableLen ≤ p.processed s.output) ∨
      ∃ p, s.tables.tables.getLast? = some p ∧ p.processed s.output < p.tableLen ∧
        s.flush.tables.tables = [p.tail s.output] ∧
        s.flush.tables.baseData = s.tables.baseData.copy 0 s.undone (p.tail s.output).tableStart p.tableType := by
  obtain ⟨htables, hbase⟩ := @undiffTables_fst s.tables s.writeStart s.output s.mem
  have hflush : s.flush.tables = ((s.tables.undiffTables s.writeStart s.output s.mem).1.diffTables s.writeStart
      s.output (s.tables.undiffTables s.writeStart s.output s.mem).2).1 := rfl
  rw [hflush, undiffTables_snd]
  unfold DataTables.diffTables
  rw [htables, hbase]
  cases s.tables.tables.getLast? with
  | none => exact .inl ⟨rfl, fun p hp => by cases hp⟩
  | some p =>
    dsimp only
    by_cases hcut : p.processed s.output < p.tableLen
    · rw [if_pos hcut]
      exact .inr ⟨p, rfl, hcut, rfl, rfl⟩
    · rw [if_neg hcut]
      refine .inl ⟨rfl, fun p' hp' => ?_⟩
      obtain rfl := Option.some.inj hp'
      exact not_lt.mp hcut

/-- The complete rows are in front of the end of the write. -/
lemma processed_le (hle : p.tableStart ≤ writeEnd) :
    p.tableStart + p.tableType * p.processed writeEnd ≤ writeEnd := by
  have hpos : (0 : Int) < p.tableType := by rcases p.type_eq with h2 | h4 <;> omega
  have hdiv : 0 ≤ (writeEnd - p.tableStart) / p.tableType := Int.ediv_nonneg (by omega) hpos.le
  have hmul := Int.mul_ediv_self_le (x := writeEnd - p.tableStart) hpos.ne'
  unfold DataTableEntry.processed
  rw [Int.toNat_of_nonneg hdiv]
  omega

/-- An entry begins in front of the output pointer. -/
lemma Inv.tableStart_le (h : Inv R T s) (hp : p ∈ s.tables.tables) : p.tableStart ≤ s.output := by
  obtain ⟨t, ht, hlisted⟩ := h.exists_table hp
  obtain ⟨q, hstart, -, hq⟩ := hlisted.rows
  have hle := h.start_le t ht
  have hwrite := h.writeStart_le
  rcases hq with rfl | hq
  · push_cast at hstart
    omega
  · omega

/-- The fields of the rest of an entry. -/
lemma tail_eq (p : DataTableEntry) (writeEnd : Int) : (p.tail writeEnd).tableType = p.tableType ∧
    (p.tail writeEnd).tableStart = p.tableStart + ((p.processed writeEnd - 2 : ℕ) : Int) * p.tableType ∧
    (p.tail writeEnd).tableLen = p.tableLen - (p.processed writeEnd - 2) := ⟨rfl, rfl, rfl⟩

/-- The rest of an entry that is cut by a write. -/
lemma Listed.tail (h : Listed offset writeStart t p) (hwrite : writeStart ≤ writeEnd) (hle : p.tableStart ≤ writeEnd)
    (hcut : p.processed writeEnd < p.tableLen) : Listed offset writeEnd t (p.tail writeEnd) := by
  obtain ⟨q, hstart, hlen, hq⟩ := h.rows
  obtain ⟨htail₁, htail₂, htail₃⟩ := tail_eq p writeEnd
  have htype := h.type_eq
  have hrows := processed_le hle
  rw [htype] at hrows htail₂
  refine ⟨htype, ⟨q + (p.processed writeEnd - 2), ?_, ?_, ?_⟩, fun _ => ?_⟩
  · rw [htail₂]
    push_cast
    linear_combination hstart
  · rw [htail₃]
    omega
  · rw [htail₂]
    by_cases htwo : 2 ≤ p.processed writeEnd
    · right
      rw [Nat.cast_sub htwo]
      push_cast
      linarith [mul_comm (t.type : Int) (p.processed writeEnd)]
    · have hzero : p.processed writeEnd - 2 = 0 := by omega
      rw [hzero]
      push_cast
      omega
  · rw [htail₃]
    omega

/-- What is in the list behind a write. -/
lemma Inv.flush_cases (h : Inv R T s) (hT : Apart T) :
    (s.flush.tables.tables = [] ∧ ∀ t ∈ T, t.stop ≤ s.offset + s.output) ∨
      ∃ done t p, T = done ++ [t] ∧ (∀ t ∈ done, t.stop ≤ s.offset + s.output) ∧ p ∈ s.tables.tables ∧
        Listed s.offset s.writeStart t p ∧ p.processed s.output < p.tableLen ∧
        s.flush.tables.tables = [p.tail s.output] ∧
        s.flush.tables.baseData = s.tables.baseData.copy 0 s.undone (p.tail s.output).tableStart p.tableType := by
  obtain ⟨done, l, rfl, htables, hdone, hlisted⟩ := h.listed
  have hwrite := h.writeStart_le
  rcases List.eq_nil_or_concat' l with rfl | ⟨l, ⟨t, p⟩, rfl⟩
  · have hempty : s.tables.tables = [] := htables
    rcases flush_tables s with ⟨hnil, -⟩ | ⟨p, hlast, -⟩
    · refine .inl ⟨hnil, fun t ht => ?_⟩
      rw [List.map_nil, List.append_nil] at ht
      have hstop := hdone t ht
      omega
    · rw [hempty] at hlast
      cases hlast
  · have hp : p ∈ s.tables.tables := by
      rw [htables]
      exact List.mem_map.mpr ⟨(t, p), by simp, rfl⟩
    have hlast : s.tables.tables.getLast? = some p := by
      rw [htables, List.map_append, List.map_singleton, List.getLast?_concat]
    have hentry := hlisted (t, p) (by simp)
    have hle := h.tableStart_le hp
    have hT' : done ++ (l ++ [(t, p)]).map Prod.fst = done ++ l.map Prod.fst ++ [t] := by simp
    -- the tables in front of the last one have ended
    have hended : ∀ t' ∈ done ++ l.map Prod.fst, t'.stop ≤ s.offset + s.output := by
      intro t' ht'
      have hbefore := h.start_le t (by rw [hT']; simp)
      rw [hT'] at hT
      have hstop := (List.pairwise_append.mp hT).2.2 t' ht' t (List.mem_singleton_self t)
      omega
    rcases flush_tables s with ⟨hnil, hcomplete⟩ | ⟨p', hlast', hcut, htail, hbase⟩
    · refine .inl ⟨hnil, fun t' ht' => ?_⟩
      rw [hT'] at ht'
      rcases List.mem_append.mp ht' with ht' | ht'
      · exact hended t' ht'
      · obtain rfl := List.mem_singleton.mp ht'
        have hstop := hentry.stop_eq
        have hrows := processed_le hle
        have hall : (p.tableType : Int) * p.tableLen ≤ p.tableType * p.processed s.output :=
          mul_le_mul_of_nonneg_left (Int.ofNat_le.mpr (hcomplete p hlast)) (Int.natCast_nonneg _)
        dsimp only at hstop
        omega
    · rw [hlast] at hlast'
      obtain rfl := Option.some.inj hlast'
      exact .inr ⟨done ++ l.map Prod.fst, t, p, hT', hended, hp, hentry, hcut, htail, hbase⟩

/-- **A write** keeps the invariant, and all data have been written behind it. -/
theorem Inv.flush (h : Inv R T s) (hT : Apart T) : Inv R T s.flush := by
  obtain ⟨houtput, hoffset, hstart, -, hwritten⟩ := flush_eq s
  have hmem := h.flush_mem hT
  have hnonneg := h.writeStart_nonneg
  have hwrite := h.writeStart_le
  have hoffset' := h.offset_nonneg
  have hall : (s.flush.written = (undiffed T R).bytes 0 (s.offset + s.output).toNat) := by
    have hsplit : (s.offset + s.output).toNat = (s.offset + s.writeStart).toNat + (s.output - s.writeStart).toNat := by
      omega
    rw [hwritten, h.written, hsplit, bytes_add]
    refine congrArg _ (bytes_congr fun i hi => ?_)
    have hplace : 0 + ((s.offset + s.writeStart).toNat : Int) + i = s.writeStart + i + s.offset := by omega
    rw [hplace]
    exact h.undone_eq hT (by omega) (by omega)
  rcases h.flush_cases hT with ⟨hnil, hended⟩ | ⟨done, t, p, hdone, hended, hp, hlisted, hcut, htail, hbase⟩
  · -- no table is left
    exact {
      writeStart_nonneg := by rw [hstart]; omega
      writeStart_le := by rw [hstart, houtput]
      offset_nonneg := by rw [hoffset]; exact hoffset'
      buffer := by rw [hmem, houtput, hoffset]; exact h.buffer
      kept := by rw [hnil]; exact fun p hp => by cases hp
      listed := by
        rw [hoffset, hstart, hnil]
        exact ⟨T, [], (List.append_nil T).symm, rfl, hended, fun x hx => by cases hx⟩
      start_le := by rw [houtput, hoffset]; exact h.start_le
      fresh := by rw [hnil]; exact fun p hp => by cases hp
      base := by
        intro p hp
        have hhead := (continued_eq_some.mp hp).1
        rw [hnil] at hhead
        cases hhead
      written := by rw [hoffset, hstart]; exact hall }
  · -- the last table continues
    have hle := h.tableStart_le hp
    obtain ⟨htail₁, htail₂, htail₃⟩ := tail_eq p s.output
    have hlater : p.tableStart ≤ (p.tail s.output).tableStart := by
      have hmul : 0 ≤ ((p.processed s.output - 2 : ℕ) : Int) * p.tableType := by positivity
      omega
    exact {
      writeStart_nonneg := by rw [hstart]; omega
      writeStart_le := by rw [hstart, houtput]
      offset_nonneg := by rw [hoffset]; exact hoffset'
      buffer := by rw [hmem, houtput, hoffset]; exact h.buffer
      kept := by
        rw [htail, hmem, houtput, hoffset]
        intro p' hp' x h₁ h₂
        obtain rfl := List.mem_singleton.mp hp'
        exact h.kept p hp x (hlater.trans h₁) h₂
      listed := by
        rw [hoffset, hstart, htail]
        refine ⟨done, [(t, p.tail s.output)], hdone, rfl, hended, fun x hx => ?_⟩
        obtain rfl := List.mem_singleton.mp hx
        exact hlisted.tail hwrite hle hcut
      start_le := by rw [houtput, hoffset]; exact h.start_le
      fresh := by rw [htail]; exact fun p hp => by cases hp
      base := by
        intro p' hp' i hi hx
        have hhead := (continued_eq_some.mp hp').1
        rw [htail] at hhead
        obtain rfl := Option.some.inj hhead
        rw [hstart] at hx
        have hplace : (p.tail s.output).tableStart + ((i : Int) - 0) = (p.tail s.output).tableStart + i := by ring
        have hinside : (p.tail s.output).tableStart + i < p.tableStart + p.tableType * p.tableLen := by
          have hmul : (((p.processed s.output - 2 : ℕ) : Int) + 1) * p.tableType ≤ p.tableLen * p.tableType :=
            mul_le_mul_of_nonneg_right (by omega) (Int.natCast_nonneg _)
          rw [htail₁] at hi
          rw [htail₂]
          linarith [mul_comm (p.tableType : Int) p.tableLen]
        rw [hbase, copy_of_mem (by omega) (by rw [htail₁] at hi; omega), hplace, hoffset]
        exact h.undone_of_mem hT hp (by omega) hinside hx
      written := by rw [hoffset, hstart]; exact hall }

/-! ## The buffer from lap to lap -/

/-- At the start of the buffer again, when one table at most is in the list. -/
lemma Inv.wrap (h : Inv R T s) (hwrite : s.writeStart = s.output) (hone : s.tables.tables.length ≤ 1) :
    Inv R T s.wrap ∧ ∀ x, 0 ≤ x → s.wrap.mem x = s.mem x := by
  have hnonneg := h.writeStart_nonneg
  have hoffset := h.offset_nonneg
  have houtput : s.wrap.output = 0 := rfl
  have hoffset' : s.wrap.offset = s.offset + s.output := rfl
  have hstart : s.wrap.writeStart = 0 := by
    have hsub : s.wrap.writeStart = s.writeStart - s.output := rfl
    omega
  have hwritten : s.wrap.written = s.written := rfl
  have hall : s.wrap.written = (undiffed T R).bytes 0 (s.wrap.offset + s.wrap.writeStart).toNat := by
    rw [hwritten, h.written, hoffset', hstart, hwrite, add_zero]
  have hle : ∀ t ∈ T, t.start ≤ s.wrap.offset + s.wrap.output := by
    rw [hoffset', houtput, add_zero]
    exact h.start_le
  obtain ⟨done, l, hT, htables, hdone, hlisted⟩ := h.listed
  match l, htables, hT, hlisted with
  | [], htables, hT, _ =>
    have hnil : s.wrap.tables.tables = [] := by
      change s.tables.tables.map _ = []
      rw [htables]
      rfl
    have hmem : s.wrap.mem = s.mem := by
      change s.tables.tables.foldl _ s.mem = s.mem
      rw [htables]
      rfl
    refine ⟨?_, fun x _ => by rw [hmem]⟩
    exact {
      writeStart_nonneg := hstart.ge
      writeStart_le := by rw [hstart, houtput]
      offset_nonneg := by rw [hoffset']; omega
      buffer := by rw [houtput]; exact fun x h₁ h₂ => absurd h₂ (not_lt.mpr h₁)
      kept := by rw [hnil]; exact fun p hp => by cases hp
      listed := by
        rw [hoffset', hstart, hnil]
        refine ⟨done, [], hT, rfl, fun t ht => ?_, fun x hx => by cases hx⟩
        have hstop := hdone t ht
        omega
      start_le := hle
      fresh := by rw [hnil]; exact fun p hp => by cases hp
      base := by
        intro p hp
        have hhead := (continued_eq_some.mp hp).1
        rw [hnil] at hhead
        cases hhead
      written := hall }
  | [(t, p)], htables, hT, hlisted =>
    have hp : p ∈ s.tables.tables := by
      rw [htables]
      exact List.mem_singleton_self p
    have hple := h.tableStart_le hp
    have htable : s.wrap.tables.tables = [{ p with tableStart := p.tableStart - s.output }] := by
      change s.tables.tables.map _ = _
      rw [htables]
      rfl
    have hmem : s.wrap.mem =
        s.mem.copy (p.tableStart - s.output) s.mem p.tableStart (s.output - p.tableStart).toNat := by
      change s.tables.tables.foldl _ s.mem = _
      rw [htables]
      rfl
    refine ⟨?_, fun x hx => by rw [hmem, copy_of_outside (.inr (by omega))]⟩
    exact {
      writeStart_nonneg := hstart.ge
      writeStart_le := by rw [hstart, houtput]
      offset_nonneg := by rw [hoffset']; omega
      buffer := by rw [houtput]; exact fun x h₁ h₂ => absurd h₂ (not_lt.mpr h₁)
      kept := by
        rw [htable, hmem, houtput, hoffset']
        intro p' hp' x h₁ h₂
        obtain rfl := List.mem_singleton.mp hp'
        dsimp only at h₁
        have hplace : p.tableStart + (x - (p.tableStart - s.output)) = x + s.output := by ring
        have hstream : x + s.output + s.offset = x + (s.offset + s.output) := by ring
        rw [copy_of_mem h₁ (by omega), hplace, h.kept p hp _ (by omega) (by omega), hstream]
      listed := by
        rw [hoffset', hstart, htable]
        refine ⟨done, [(t, { p with tableStart := p.tableStart - s.output })], hT, rfl, fun t ht => ?_, fun x hx => ?_⟩
        · have hstop := hdone t ht
          omega
        · obtain rfl := List.mem_singleton.mp hx
          have hentry := hlisted (t, p) (List.mem_singleton_self _)
          obtain ⟨q, hq₁, hq₂, hq₃⟩ := hentry.rows
          have hpos := hentry.pos
          dsimp only at hq₁ hq₂ hq₃ hpos
          refine ⟨hentry.type_eq, ⟨q, by dsimp only; omega, hq₂, by dsimp only; omega⟩, fun hlt => hpos ?_⟩
          dsimp only at hlt
          omega
      start_le := hle
      fresh := by rw [htable]; exact fun p hp => by cases hp
      base := by
        intro p' hp' i hi hx
        obtain ⟨hhead, hlt⟩ := continued_eq_some.mp hp'
        rw [htable] at hhead
        obtain rfl := Option.some.inj hhead
        rw [hstart] at hx hlt
        dsimp only at hi hx hlt ⊢
        have hfirst : s.tables.continued s.writeStart = some p := by
          rw [continued_eq_some, htables]
          exact ⟨rfl, by omega⟩
        have hplace : p.tableStart - s.output + i + s.wrap.offset = p.tableStart + i + s.offset := by
          rw [hoffset']
          ring
        rw [hplace]
        exact h.base p hfirst i hi (by omega)
      written := hall }
  | _ :: _ :: _, htables, _, _ =>
    rw [htables] at hone
    simp at hone

/-- The output pointer is in the buffer, in front of the next write; behind it are the bytes of the lap before. -/
structure Laps (bufsize : ℕ) (R : Memory) (s : Output) : Prop where
  output_le : s.output ≤ s.writeEnd
  writeEnd_le : s.writeEnd ≤ bufsize
  offset_le : s.offset = 0 ∨ bufsize ≤ s.offset
  previous : ∀ x, s.output ≤ x → x < bufsize → s.offset ≠ 0 → s.mem x = R (x + s.offset - bufsize)

/-- The invariant between two items. -/
structure Between (bufsize : ℕ) (R : Memory) (T : List Table) (s : Output) : Prop where
  inv : Inv R T s
  laps : Laps bufsize R s
  lt : s.output < s.writeEnd

variable {bufsize : ℕ}

/-- The next position where data are written is behind the output pointer. -/
lemma setWriteEnd_between (hinv : Inv R T s) (hwrite : s.writeStart = s.output) (hlt : s.output < bufsize)
    (hoffset : s.offset = 0 ∨ bufsize ≤ s.offset) (hle : s.writeEnd ≤ bufsize)
    (hprevious : ∀ x, s.output ≤ x → x < bufsize → s.offset ≠ 0 → s.mem x = R (x + s.offset - bufsize)) :
    Between bufsize R T (s.setWriteEnd bufsize) := by
  have hhuge : (0 : Int) < hugeBufferSize := by decide
  unfold Output.setWriteEnd
  by_cases hreached : s.writeEnd ≤ s.writeStart
  · rw [if_pos hreached]
    refine ⟨⟨hinv.1, hinv.2, hinv.3, hinv.4, hinv.5, hinv.6, hinv.7, hinv.8, hinv.9, hinv.10⟩,
      ⟨?_, ?_, hoffset, hprevious⟩, ?_⟩
    · dsimp only
      omega
    · dsimp only
      omega
    · dsimp only
      omega
  · rw [if_neg hreached]
    exact ⟨hinv, ⟨by omega, hle, hoffset, hprevious⟩, by omega⟩

/-- **Data are written** and the output pointer goes to the start of the buffer at its end. -/
lemma Inv.writeData (h : Inv R T s) (hlaps : Laps bufsize R s) (hT : Apart T) (hbufsize : 0 < bufsize) :
    Between bufsize R T (s.writeData bufsize) ∧
      (s.writeData bufsize).offset + (s.writeData bufsize).output = s.offset + s.output ∧
      (s.writeData bufsize).written = (undiffed T R).bytes 0 (s.offset + s.output).toNat := by
  obtain ⟨houtput, hoffset, hstart, hend, -⟩ := flush_eq s
  have hflush := h.flush hT
  have hmem := h.flush_mem hT
  have hwritten := hflush.written
  rw [hoffset, hstart] at hwritten
  have hone : s.flush.tables.tables.length ≤ 1 := by
    rcases flush_tables s with ⟨hnil, -⟩ | ⟨p, -, -, htail, -⟩
    · rw [hnil]
      exact Nat.zero_le _
    · rw [htail]
      rfl
  obtain ⟨hle₁, hle₂, hoffset_le, hprevious⟩ := hlaps
  have hset (s : Output) : (s.setWriteEnd bufsize).output = s.output ∧ (s.setWriteEnd bufsize).offset = s.offset ∧
      (s.setWriteEnd bufsize).written = s.written := by
    unfold Output.setWriteEnd
    split_ifs <;> exact ⟨rfl, rfl, rfl⟩
  unfold Output.writeData
  dsimp only
  by_cases hfull : bufsize ≤ s.flush.output
  · -- the output pointer is at the end of the buffer
    have heq : s.output = bufsize := by omega
    obtain ⟨hwrap, hsame⟩ := hflush.wrap (hstart.trans houtput.symm) hone
    have hwrap₁ : s.flush.wrap.output = 0 := rfl
    have hwrap₂ : s.flush.wrap.offset = s.offset + s.output := rfl
    have hwrap₃ : s.flush.wrap.writeStart = s.output - s.output := rfl
    have hwrap₄ : s.flush.wrap.writeEnd = s.writeEnd - s.output := rfl
    have hwrap₅ : s.flush.wrap.written = s.flush.written := rfl
    have hnonneg := h.offset_nonneg
    rw [if_pos hfull, (hset _).1, (hset _).2.1, (hset _).2.2, hwrap₁, hwrap₂, hwrap₅, hwritten]
    refine ⟨setWriteEnd_between hwrap (by omega) (by omega) (by omega) (by omega) fun x h₁ h₂ _ => ?_, by ring, rfl⟩
    rw [hwrap₁] at h₁
    have hplace : x + (s.offset + s.output) - bufsize = x + s.offset := by
      rw [heq]
      ring
    rw [hsame x h₁, hmem, hwrap₂, hplace, h.buffer x h₁ (by omega)]
  · rw [if_neg hfull, (hset _).1, (hset _).2.1, (hset _).2.2, houtput, hoffset, hwritten]
    refine ⟨setWriteEnd_between hflush (by omega) (by omega) (by omega) (by omega) fun x h₁ h₂ h₃ => ?_, rfl, rfl⟩
    rw [houtput] at h₁
    rw [hoffset] at h₃
    rw [hmem, hoffset]
    exact hprevious x h₁ h₂ h₃

/-! ## Runs -/

/-- A byte of the stream is put to the buffer. -/
lemma Inv.putByte (h : Inv R T s) {c : UInt8} (hc : R (s.offset + s.output) = c) :
    Inv R T { s with mem := Function.update s.mem s.output c, output := s.output + 1 } := by
  have hnonneg := h.writeStart_nonneg
  have hwrite := h.writeStart_le
  have hput (x : Int) (hx : x < s.output + 1) (hbefore : x < s.output → s.mem x = R (x + s.offset)) :
      Function.update s.mem s.output c x = R (x + s.offset) := by
    by_cases heq : x = s.output
    · rw [heq, Function.update_self, ← hc, add_comm]
    · rw [Function.update_of_ne heq]
      exact hbefore (by omega)
  exact {
    writeStart_nonneg := hnonneg
    writeStart_le := by dsimp only; omega
    offset_nonneg := h.offset_nonneg
    buffer := fun x h₁ h₂ => hput x h₂ (h.buffer x h₁)
    kept := fun p hp x h₁ h₂ => hput x h₂ (h.kept p hp x h₁)
    listed := h.listed
    start_le := by
      intro t ht
      have hle := h.start_le t ht
      dsimp only
      omega
    fresh := h.fresh
    base := h.base
    written := h.written }

/-- A table is put to the list. -/
lemma Inv.addTable (h : Inv R T s) {type rows : ℕ} (type_eq : type = 2 ∨ type = 4) :
    Inv R (T ++ [⟨type, type_eq, s.offset + s.output, rows⟩])
      { s with tables := s.tables.add ⟨type, type_eq, s.output, rows⟩ } := by
  have hnonneg := h.writeStart_nonneg
  have hwrite := h.writeStart_le
  have hoffset := h.offset_nonneg
  have hsame (x : Int) (hx : x < s.offset + s.output) :
      undiffed (T ++ [⟨type, type_eq, s.offset + s.output, rows⟩]) R x = undiffed T R x := undiffed_append hx
  exact {
    writeStart_nonneg := hnonneg
    writeStart_le := hwrite
    offset_nonneg := hoffset
    buffer := h.buffer
    kept := by
      intro p hp x h₁ h₂
      rcases List.mem_append.mp hp with hp | hp
      · exact h.kept p hp x h₁ h₂
      · obtain rfl := List.mem_singleton.mp hp
        exact absurd h₂ (not_lt.mpr h₁)
    listed := by
      obtain ⟨done, l, hT, htables, hdone, hlisted⟩ := h.listed
      refine ⟨done, l ++ [(⟨type, type_eq, s.offset + s.output, rows⟩, ⟨type, type_eq, s.output, rows⟩)], ?_, ?_, hdone,
        fun x hx => ?_⟩
      · rw [hT, List.map_append, List.append_assoc]
        rfl
      · change s.tables.tables ++ _ = _
        rw [htables, List.map_append]
        rfl
      · rcases List.mem_append.mp hx with hx | hx
        · exact hlisted x hx
        · obtain rfl := List.mem_singleton.mp hx
          refine ⟨rfl, ⟨0, ?_, rfl, .inl rfl⟩, fun hlt => absurd hlt (not_lt.mpr hwrite)⟩
          dsimp only
          push_cast
          ring
    start_le := by
      intro t ht
      rcases List.mem_append.mp ht with ht | ht
      · exact h.start_le t ht
      · obtain rfl := List.mem_singleton.mp ht
        exact le_rfl
    fresh := by
      intro p hp
      change p ∈ (s.tables.tables ++ _).tail at hp
      cases htables : s.tables.tables with
      | nil =>
        rw [htables] at hp
        cases hp
      | cons p' tables =>
        rw [htables] at hp
        rcases List.mem_append.mp hp with hp | hp
        · exact h.fresh p (by rw [htables]; exact hp)
        · obtain rfl := List.mem_singleton.mp hp
          exact hwrite
    base := by
      intro p hp i hi hx
      obtain ⟨hhead, hlt⟩ := continued_eq_some.mp hp
      dsimp only at hlt hx ⊢
      have hfirst : s.tables.continued s.writeStart = some p := by
        rw [continued_eq_some]
        refine ⟨?_, hlt⟩
        change (s.tables.tables ++ _).head? = some p at hhead
        cases htables : s.tables.tables with
        | nil =>
          rw [htables] at hhead
          obtain rfl := Option.some.inj hhead
          exact absurd hlt (not_lt.mpr hwrite)
        | cons p' tables =>
          rw [htables] at hhead
          exact hhead
      rw [hsame _ (by omega)]
      exact h.base p hfirst i hi hx
    written := by
      have hbefore := h.written
      dsimp only
      rw [hbefore]
      refine bytes_congr fun i hi => (hsame _ ?_).symm
      omega }

/-- **A step** keeps the invariant, with the byte or the table that is found. -/
lemma Between.afterItem (h : Between bufsize R T s) (hbufsize : 0 < bufsize) (item : Item)
    (hT : Apart (T ++ tablesOf (s.offset + s.output) [item]))
    (hR : ∀ i < (bytesOf [item]).length, R (s.offset + s.output + i) = (bytesOf [item]).getD i 0) :
    Between bufsize R (T ++ tablesOf (s.offset + s.output) [item]) (step bufsize s item) ∧
      (step bufsize s item).offset + (step bufsize s item).output =
        s.offset + s.output + (bytesOf [item]).length := by
  obtain ⟨hinv, hlaps, hlt⟩ := h
  have hnonneg := hinv.writeStart_nonneg
  have hwrite := hinv.writeStart_le
  cases item with
  | byte c =>
    have hnil : tablesOf (s.offset + s.output) [.byte c] = [] := rfl
    have hc : R (s.offset + s.output) = c := by
      have hbyte := hR 0 (Nat.zero_lt_one)
      rwa [Nat.cast_zero, add_zero] at hbyte
    have hput := hinv.putByte hc
    have hlaps' : Laps bufsize R { s with mem := Function.update s.mem s.output c, output := s.output + 1 } := by
      refine ⟨by dsimp only; omega, hlaps.writeEnd_le, hlaps.offset_le, fun x h₁ h₂ h₃ => ?_⟩
      dsimp only at h₁ ⊢
      rw [Function.update_of_ne (by omega)]
      exact hlaps.previous x (by omega) h₂ h₃
    rw [hnil, List.append_nil] at hT ⊢
    have hlength : ((bytesOf [.byte c]).length : Int) = 1 := rfl
    unfold step
    dsimp only
    rw [hlength, add_assoc]
    by_cases hreached : s.writeEnd ≤ s.output + 1
    · rw [if_pos hreached]
      obtain ⟨hbetween, hpos, -⟩ := hput.writeData hlaps' hT hbufsize
      exact ⟨hbetween, hpos⟩
    · rw [if_neg hreached]
      exact ⟨⟨hput, hlaps', not_le.mp hreached⟩, rfl⟩
  | table type type_eq rows =>
    have hadd : Inv R (T ++ [⟨type, type_eq, s.offset + s.output, rows⟩])
        { s with tables := s.tables.add ⟨type, type_eq, s.output, rows⟩ } := hinv.addTable type_eq
    have hlaps' : Laps bufsize R { s with tables := s.tables.add ⟨type, type_eq, s.output, rows⟩ } :=
      ⟨hlaps.1, hlaps.2, hlaps.3, hlaps.4⟩
    have hlength : ((bytesOf [.table type type_eq rows]).length : Int) = 0 := rfl
    unfold step
    dsimp only
    rw [hlength, add_zero]
    by_cases hfilled : (s.tables.add ⟨type, type_eq, s.output, rows⟩).filled
    · rw [if_pos hfilled]
      obtain ⟨hbetween, hpos, -⟩ := hadd.writeData hlaps' hT hbufsize
      exact ⟨hbetween, hpos⟩
    · rw [if_neg hfilled]
      exact ⟨⟨hadd, hlaps', hlt⟩, rfl⟩
  | eof =>
    have hnil : tablesOf (s.offset + s.output) [.eof] = [] := rfl
    have hlength : ((bytesOf [.eof]).length : Int) = 0 := rfl
    rw [hnil, List.append_nil] at hT ⊢
    rw [hlength, add_zero]
    obtain ⟨hbetween, hpos, -⟩ := hinv.writeData hlaps hT hbufsize
    exact ⟨hbetween, hpos⟩

/-- The bytes of an item, and of those behind it. -/
lemma bytesOf_cons (item : Item) (items : List Item) : bytesOf (item :: items) = bytesOf [item] ++ bytesOf items := by
  cases item <;> rfl

/-- The tables of an item, and of those behind it. -/
lemma tablesOf_cons (pos : Int) (item : Item) (items : List Item) :
    tablesOf pos (item :: items) = tablesOf pos [item] ++ tablesOf (pos + (bytesOf [item]).length) items := by
  cases item with
  | byte c => rfl
  | table type type_eq rows =>
    change _ :: tablesOf pos items = _ :: tablesOf (pos + ((0 : ℕ) : Int)) items
    rw [Nat.cast_zero, add_zero]
  | eof =>
    change tablesOf pos items = tablesOf (pos + ((0 : ℕ) : Int)) items
    rw [Nat.cast_zero, add_zero]

/-- A stream that spells two lists has the second one behind the first one. -/
lemma spells_append {x : Int} {first last : List UInt8}
    (hR : ∀ i < (first ++ last).length, R (x + i) = (first ++ last).getD i 0) :
    (∀ i < first.length, R (x + i) = first.getD i 0) ∧ ∀ i < last.length, R (x + first.length + i) = last.getD i 0 := by
  refine ⟨fun i hi => ?_, fun i hi => ?_⟩
  · rw [hR i (by rw [List.length_append]; omega), List.getD_eq_getElem?_getD, List.getElem?_append_left hi,
      ← List.getD_eq_getElem?_getD]
  · have hbyte := hR (first.length + i) (by rw [List.length_append]; omega)
    rw [List.getD_eq_getElem?_getD, List.getElem?_append_right (Nat.le_add_right _ _), Nat.add_sub_cancel_left,
      ← List.getD_eq_getElem?_getD] at hbyte
    rw [← hbyte]
    push_cast
    rw [add_assoc]

/-- **A run** keeps the invariant. -/
lemma Between.afterItems (hbufsize : 0 < bufsize) (items : List Item) (h : Between bufsize R T s)
    (hT : Apart (T ++ tablesOf (s.offset + s.output) items))
    (hR : ∀ i < (bytesOf items).length, R (s.offset + s.output + i) = (bytesOf items).getD i 0) :
    Between bufsize R (T ++ tablesOf (s.offset + s.output) items) (run bufsize s items) ∧
      (run bufsize s items).offset + (run bufsize s items).output = s.offset + s.output + (bytesOf items).length := by
  induction items generalizing s T with
  | nil =>
    have hnil : tablesOf (s.offset + s.output) [] = [] := rfl
    rw [hnil, List.append_nil]
    exact ⟨h, (add_zero _).symm⟩
  | cons item items ih =>
    have hrun : run bufsize s (item :: items) = run bufsize (step bufsize s item) items := rfl
    rw [tablesOf_cons _ item items, ← List.append_assoc] at hT ⊢
    rw [bytesOf_cons item items] at hR ⊢
    have hfirst : Apart (T ++ tablesOf (s.offset + s.output) [item]) := (List.pairwise_append.mp hT).1
    obtain ⟨hfront, hback⟩ := spells_append hR
    obtain ⟨hstep, hpos⟩ := h.afterItem hbufsize item hfirst hfront
    rw [← hpos] at hT hback ⊢
    obtain ⟨hrest, hlast⟩ := ih hstep hT hback
    rw [hrun]
    refine ⟨hrest, ?_⟩
    rw [hlast, hpos, List.length_append]
    push_cast
    ring

/-- The invariant holds at the beginning. -/
lemma between_start (hbufsize : 0 < bufsize) (mem baseData original : Memory) :
    Between bufsize R [] (start bufsize mem baseData original) := by
  have hhuge : (0 : Int) < hugeBufferSize := by decide
  have hend : (start bufsize mem baseData original).writeEnd = min (bufsize : Int) hugeBufferSize := rfl
  have hout : (start bufsize mem baseData original).output = 0 := rfl
  refine ⟨?_, ⟨?_, ?_, .inl rfl, fun x _ _ h => absurd rfl h⟩, ?_⟩
  · exact {
      writeStart_nonneg := le_rfl
      writeStart_le := le_rfl
      offset_nonneg := le_rfl
      buffer := fun x h₁ h₂ => absurd h₂ (not_lt.mpr h₁)
      kept := fun p hp => by cases hp
      listed := ⟨[], [], rfl, rfl, fun t ht => (by cases ht), fun x hx => (by cases hx)⟩
      start_le := fun t ht => by cases ht
      fresh := fun p hp => by cases hp
      base := fun p hp => by cases (continued_eq_some.mp hp).1
      written := rfl }
  · omega
  · omega
  · omega

/-- **Undoing the tables does not depend on the writes**: for every run in which the tables do not overlap, what has
been written is the beginning of the stream with all tables undone as a whole, and behind a last write it is all of
it.  At any time, a match finds the byte of the stream that is as far behind as it says. -/
theorem written_eq_undiffed (hbufsize : 0 < bufsize) (mem baseData original : Memory) (items : List Item)
    (hapart : Apart (tablesOf 0 items)) :
    (∃ n ≤ (bytesOf items).length, (run bufsize (start bufsize mem baseData original) items).written =
      (undiffed (tablesOf 0 items) (streamMemory (bytesOf items))).bytes 0 n) ∧
    (run bufsize (start bufsize mem baseData original) (items ++ [.eof])).written =
      (undiffed (tablesOf 0 items) (streamMemory (bytesOf items))).bytes 0 (bytesOf items).length ∧
    ∀ dist : ℕ, 0 < dist → dist ≤ bufsize → dist ≤ (bytesOf items).length →
      (run bufsize (start bufsize mem baseData original) items).mem
        (matchSource bufsize (run bufsize (start bufsize mem baseData original) items) dist) =
          (bytesOf items).getD ((bytesOf items).length - dist) 0 := by
  have hstream : ∀ i < (bytesOf items).length,
      streamMemory (bytesOf items) ((start bufsize mem baseData original).offset +
        (start bufsize mem baseData original).output + i) = (bytesOf items).getD i 0 := by
    intro i _
    change (bytesOf items).getD (0 + 0 + (i : Int)).toNat 0 = _
    rw [zero_add, zero_add, Int.toNat_natCast]
  obtain ⟨⟨hinv, hlaps, hlt⟩, hpos⟩ :=
    (between_start hbufsize mem baseData original).afterItems hbufsize items hapart hstream
  have hzero : (start bufsize mem baseData original).offset + (start bufsize mem baseData original).output = 0 := rfl
  rw [hzero, zero_add] at hpos
  rw [hzero, List.nil_append] at hinv
  have hrun : run bufsize (start bufsize mem baseData original) (items ++ [.eof]) =
      (run bufsize (start bufsize mem baseData original) items).writeData bufsize := by
    unfold run
    rw [List.foldl_append]
    rfl
  rw [hrun]
  generalize run bufsize (start bufsize mem baseData original) items = s at hinv hlaps hlt hpos
  have hnonneg := hinv.writeStart_nonneg
  have hwrite := hinv.writeStart_le
  have hoffset := hinv.offset_nonneg
  refine ⟨⟨(s.offset + s.writeStart).toNat, by omega, hinv.written⟩, ?_, fun dist h₁ h₂ h₃ => ?_⟩
  · rw [(hinv.writeData hlaps hapart hbufsize).2.2, hpos, Int.toNat_natCast]
  · have hbyte (x : Int) (hx : x = (bytesOf items).length - dist) :
        streamMemory (bytesOf items) x = (bytesOf items).getD ((bytesOf items).length - dist) 0 := by
      have hnat : x.toNat = (bytesOf items).length - dist := by omega
      rw [streamMemory, hnat]
    have hle := hlaps.writeEnd_le
    unfold matchSource
    by_cases hlap : (dist : Int) ≤ s.output
    · rw [if_pos hlap, hinv.buffer _ (by omega) (by omega)]
      exact hbyte _ (by omega)
    · -- the byte is from the lap before
      rw [if_neg hlap, hlaps.previous _ (by omega) (by omega) (by omega)]
      exact hbyte _ (by omega)

/-- Three rows of two bytes: 1, 2, 256, of which the sums are 1, 3, 259. -/
theorem written_eq_undiffed_rows :
    (run (8 * mb) (start (8 * mb) (fun _ => 0) (fun _ => 0) (fun _ => 0)) ([.table 2 (.inl rfl) 3, .byte 1, .byte 0,
      .byte 2, .byte 0, .byte 0, .byte 1] ++ [.eof])).written = [1, 0, 3, 0, 3, 1] := by
  rw [(written_eq_undiffed (by decide) _ _ _ [.table 2 (.inl rfl) 3, .byte 1, .byte 0, .byte 2, .byte 0, .byte 0,
    .byte 1] (List.pairwise_singleton _ _)).2.1]
  decide

end DArc.Tornado
