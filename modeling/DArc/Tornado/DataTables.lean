import DArc.Compression.Common
import DArc.Library.RunningSums

/-!
# Data tables in the output of Tornado

The rows of some tables in the stream are coded by their differences.  The decompressor keeps them so in its buffer,
as later matches refer to what the coder has seen; only for the time of a write are the tables in the list undone.
A table may be cut by a write at any byte.  It is kept then from the second row before the cut on, and the sum up
to that row is put to its place for the next write.

### Outline

* `undiffTable`, `diffTable`: a table and back;
* `DataTables`: the list of tables, with the base of the first one;
* `Output`, `writeData`: the buffer of the decompressor, and what is done where data are written;
* `Item`, `run`: what the decoder finds in the stream, and the whole run.
-/

namespace DArc.Tornado

/-- `undiff_table`, for rows of 2 and 4 bytes. -/
def undiffTable (N : ℕ) (tableStart : Int) (tableLen : ℕ) (m : Memory) : Memory :=
  m.accumulate N (tableLen - 1) (tableStart + N) (m.word tableStart N)

/-- `diff_table`, for rows of 2 and 4 bytes. -/
def diffTable (N : ℕ) (tableStart : Int) (tableLen : ℕ) (m : Memory) : Memory :=
  m.difference N (tableLen - 1) (tableStart + N) (m.word tableStart N)

/-- An entry in the list of tables; addresses count from the beginning of the buffer. -/
structure DataTableEntry where
  tableType : ℕ
  type_eq : tableType = 2 ∨ tableType = 4
  tableStart : Int
  tableLen : ℕ

/-- The number of rows up to the end of a write: the row behind the last complete one counts. -/
def DataTableEntry.lenUntil (p : DataTableEntry) (writeEnd : Int) : ℕ :=
  min p.tableLen (1 + ((writeEnd - p.tableStart) / p.tableType).toNat)

/-- The number of complete rows at the end of a write. -/
def DataTableEntry.processed (p : DataTableEntry) (writeEnd : Int) : ℕ :=
  ((writeEnd - p.tableStart) / p.tableType).toNat

/-- The rest of a table that is cut by the end of a write: of the complete rows, the last two are kept. -/
def DataTableEntry.tail (p : DataTableEntry) (writeEnd : Int) : DataTableEntry :=
  { p with
    tableStart := p.tableStart + ((p.processed writeEnd - 2 : ℕ) : Int) * p.tableType
    tableLen := p.tableLen - (p.processed writeEnd - 2) }

/-- `DataTables`, with the arrays for the base of a table that was cut, and for what stands in its place. -/
structure DataTables where
  tables : List DataTableEntry
  baseDataBytes : ℕ
  baseData : Memory
  original : Memory

/-- `ENTRIES`. -/
def entries : ℕ := 10000

namespace DataTables

/-- `add`. -/
def add (dt : DataTables) (p : DataTableEntry) : DataTables := { dt with tables := dt.tables ++ [p] }

/-- `filled`. -/
def filled (dt : DataTables) : Prop := dt.tables.length = entries

instance (dt : DataTables) : Decidable dt.filled := inferInstanceAs (Decidable (_ = _))

/-- `process_tables` for `DO_UNDIFF`. -/
def processUndiff (dt : DataTables) (writeEnd : Int) (m : Memory) : Memory :=
  dt.tables.foldl (fun m p => undiffTable p.tableType p.tableStart (p.lenUntil writeEnd) m) m

/-- `process_tables` for `DO_DIFF`. -/
def processDiff (dt : DataTables) (writeEnd : Int) (m : Memory) : Memory :=
  dt.tables.foldl (fun m p => diffTable p.tableType p.tableStart (p.lenUntil writeEnd) m) m

/-- The first table, if it continues from the previous write. -/
def continued (dt : DataTables) (writeStart : Int) : Option DataTableEntry :=
  dt.tables.head?.filter fun p => p.tableStart < writeStart

/-- `undiff_tables`: the base of a table that continues is put to its beginning. -/
def undiffTables (dt : DataTables) (writeStart writeEnd : Int) (m : Memory) : DataTables × Memory :=
  match dt.continued writeStart with
  | some p =>
    let bytes := min p.tableType (writeStart - p.tableStart).toNat
    ({ dt with baseDataBytes := bytes, original := dt.original.copy 0 m p.tableStart bytes },
      dt.processUndiff writeEnd (m.copy p.tableStart dt.baseData 0 bytes))
  | none => (dt, dt.processUndiff writeEnd m)

/-- The end of `diff_tables`: the bytes at the beginning of a table that continues are put back. -/
def restore (dt : DataTables) (writeStart : Int) (m : Memory) : Memory :=
  match dt.continued writeStart with
  | some p => m.copy p.tableStart dt.original 0 dt.baseDataBytes
  | none => m

/-- `diff_tables`: the last table is kept in the list if it continues. -/
def diffTables (dt : DataTables) (writeStart writeEnd : Int) (m : Memory) : DataTables × Memory :=
  let m' := dt.restore writeStart (dt.processDiff writeEnd m)
  match dt.tables.getLast? with
  | none => ({ dt with tables := [] }, m')
  | some p =>
    if p.processed writeEnd < p.tableLen then
      let p := p.tail writeEnd
      ({ dt with tables := [p], baseData := dt.baseData.copy 0 m p.tableStart p.tableType }, m')
    else ({ dt with tables := [] }, m')

/-- `shift`, from the address `oldPos` to the beginning of the buffer: the bytes of tables in front of it are copied
to the place in front of the buffer. -/
def shift (dt : DataTables) (oldPos : Int) (m : Memory) : DataTables × Memory :=
  ({ dt with tables := dt.tables.map fun p => { p with tableStart := p.tableStart - oldPos } },
    dt.tables.foldl (fun m p => m.copy (p.tableStart - oldPos) m p.tableStart (oldPos - p.tableStart).toNat) m)

end DataTables

/-! ## The buffer -/

/-- `HUGE_BUFFER_SIZE`. -/
def hugeBufferSize : ℕ := 8 * mb

/-- The variables of `tor_decompress0`, and what has been written. -/
structure Output where
  mem : Memory
  output : Int
  writeStart : Int
  writeEnd : Int
  offset : Int
  tables : DataTables
  written : List UInt8

/-- `WRITE_DATA_IF` up to the write and the tables. -/
def Output.flush (s : Output) : Output :=
  let (tables, mem) := s.tables.undiffTables s.writeStart s.output s.mem
  let written := s.written ++ mem.bytes s.writeStart (s.output - s.writeStart).toNat
  let (tables, mem) := tables.diffTables s.writeStart s.output mem
  { s with mem, tables, written, writeStart := s.output }

/-- The output pointer goes to the start of the buffer. -/
def Output.wrap (s : Output) : Output :=
  let (tables, mem) := s.tables.shift s.output s.mem
  { s with
    mem
    tables
    offset := s.offset + s.output
    writeStart := s.writeStart - s.output
    writeEnd := s.writeEnd - s.output
    output := 0 }

/-- The next position where data are written. -/
def Output.setWriteEnd (bufsize : ℕ) (s : Output) : Output :=
  if s.writeEnd ≤ s.writeStart then
    { s with writeEnd := s.writeStart + min (bufsize - s.writeStart) (hugeBufferSize : Int) }
  else s

/-- `WRITE_DATA_IF`, where the condition is true. -/
def Output.writeData (bufsize : ℕ) (s : Output) : Output :=
  let s := s.flush
  let s := if bufsize ≤ s.output then s.wrap else s
  s.setWriteEnd bufsize

/-- What the decoder finds: a byte, which is a literal or part of a match; the description of a table; or the end,
where data are written in any case. -/
inductive Item
  | byte (c : UInt8)
  | table (tableType : ℕ) (type_eq : tableType = 2 ∨ tableType = 4) (tableLen : ℕ)
  | eof

/-- One step of `tor_decompress0`.  Most matches are copied without a test for the end of the write, when they end
in front of it. -/
def step (bufsize : ℕ) (s : Output) : Item → Output
  | .byte c =>
    let s := { s with mem := Function.update s.mem s.output c, output := s.output + 1 }
    if s.writeEnd ≤ s.output then s.writeData bufsize else s
  | .table tableType type_eq tableLen =>
    let s := { s with tables := s.tables.add ⟨tableType, type_eq, s.output, tableLen⟩ }
    if s.tables.filled then s.writeData bufsize else s
  | .eof => s.writeData bufsize

/-- The state before the first item; the memory and the arrays hold any bytes. -/
def start (bufsize : ℕ) (mem baseData original : Memory) : Output where
  mem
  output := 0
  writeStart := 0
  writeEnd := min bufsize hugeBufferSize
  offset := 0
  tables := { tables := [], baseDataBytes := 0, baseData, original }
  written := []

/-- A run of the decompressor. -/
def run (bufsize : ℕ) : Output → List Item → Output := List.foldl (step bufsize)

end DArc.Tornado
