import DArc.Tornado.Decompress
import DArc.Tornado.MatchFinder
import DArc.Tornado.TableSearch

/-!
# The compressor of Tornado

The data are read into a buffer by chunks.  At every position the compressor looks for a data table, which is replaced by
its differences in the buffer, and for a match, and tells the coder what it has found.  When the buffer is full, the
data are shifted to its beginning, or all but the last ones are dropped.

### Outline

* `Setup`: the parameters of the method;
* `Compressor`: the variables of `tor_compress_chunk`;
* `readNextChunk`, `checkTables`, `turn`: the parts of the main cycle;
* `torCompressChunk`: what the coder is told.
-/

namespace DArc.Tornado

/-- `LOOKAHEAD`. -/
def lookahead : ℕ := 256

/-- `LARGE_BUFFER_SIZE`. -/
def largeBufferSize : ℕ := 256 * kb

/-- `table_dist`. -/
def tableDist : ℕ := 256 * 1024

/-- `table_shift`. -/
def tableShift : ℕ := 128

/-- The parameters that `tor_compress_chunk` uses, and whether its coder supports tables. -/
structure Setup where
  buffer : ℕ
  shift : Int
  findTables : Bool
  supportTables : Bool

/-- `chunk`. -/
def Setup.chunk (m : Setup) : ℕ := min (if m.shift > 0 then m.shift.toNat else m.buffer) largeBufferSize

/-- The variables of `tor_compress_chunk`, with the data that are still to be read and what the coder has been told;
pointers count from the beginning of the buffer. -/
structure Compressor (M : Type) where
  buf : Memory
  p : Int
  bufend : Int
  tableEnd : Int
  lastFound : Int
  readPoint : Int
  bytes : ℕ
  lastChecked : ℕ → ℕ → Int
  rest : List UInt8
  mf : M
  calls : List Call

namespace Compressor

variable {M : Type} (mf : MatchFinder M) (m : Setup)

/-! ## Reading -/

/-- The callback `read`, which delivers what is left. -/
def read (asked : ℕ) (s : Compressor M) : Compressor M :=
  let n := min asked s.rest.length
  { s with
    buf := s.buf.copy s.bufend (streamMemory s.rest) 0 n
    bufend := s.bufend + n
    bytes := n
    rest := s.rest.drop n }

/-- By how much the data are shifted. -/
def distance (s : Compressor M) : Int :=
  if m.shift = -1 then s.p - 2 else if m.shift > 0 then m.shift else s.bufend + m.shift

/-- The data are shifted. -/
def shiftData (s : Compressor M) : Compressor M :=
  let sh := s.distance m
  let buf := s.buf.copy 0 s.buf sh (s.bufend - sh).toNat
  let back (x : Int) : Int :=
    if m.supportTables ∧ m.findTables then if x > sh then x - sh else 0 else x
  { s with
    buf
    p := s.p - sh
    bufend := s.bufend - sh
    tableEnd := back s.tableEnd
    lastFound := back s.lastFound
    lastChecked := fun _ _ => 0
    mf := mf.invalidateMatch (if m.shift = -1 then mf.clearHash buf s.mf else mf.shift sh s.mf)
    calls := s.calls ++ [.shiftOccurs] }

/-- `read_next_chunk`: whether there is something to compress. -/
def readNextChunk (s : Compressor M) : Bool × Compressor M :=
  if s.bytes = 0 then (false, s)
  else
    let s := if s.bufend > m.buffer - (lookahead : Int) then s.shiftData mf m else s
    let s := s.read (min m.chunk (m.buffer - s.bufend).toNat)
    let s := { s with readPoint := if s.bytes = 0 then s.bufend else s.bufend - lookahead }
    (decide (s.p < s.bufend), s)

/-! ## The main cycle -/

/-- `CHECK_FOR_DATA_TABLE` and `check_for_data_table`: whether a table is found. -/
def checkForDataTable (N : ℕ) (s : Compressor M) : Bool × Compressor M :=
  if LooksLikeTable N s.buf s.p ∧ ¬s.lastChecked N (s.p % N).toNat > s.p then
    let (last, items) := findTable N s.buf s.p s.bufend
    let lastChecked := Function.update s.lastChecked N (Function.update (s.lastChecked N) (s.p % N).toNat last)
    match items with
    | none => (false, { s with lastChecked })
    | some items => (true, { s with
        lastChecked
        buf := diffTable N s.p items s.buf
        tableEnd := s.p + N * items
        calls := s.calls ++ [.encodeTable N items]
        mf := mf.invalidateMatch s.mf })
  else (false, s)

/-- The check for tables of both kinds. -/
def checkTables (s : Compressor M) : Compressor M :=
  if m.supportTables ∧ s.p > s.tableEnd then
    let (found, s) := if mf.minLength < 4 then s.checkForDataTable mf 2 else (false, s)
    let (found, s) := if found then (true, s) else s.checkForDataTable mf 4
    if found then { s with lastFound := s.tableEnd }
    else if s.p - s.lastFound > tableDist then { s with tableEnd := s.p + tableShift }
    else s
  else s

/-- A match or a literal is found and encoded. -/
def encodeFound (s : Compressor M) : Compressor M :=
  let found := mf.findMatchlen s.buf s.p (matchend s.bufend) s.mf
  let calls := s.calls ++ [.encode s.buf found.1.1 s.p found.1.2]
  if found.1.1 < mf.minLength then { s with mf := found.2, calls, p := s.p + 1 }
  else { s with mf := mf.updateHash s.buf s.p found.1.1 found.2, calls, p := s.p + found.1.1 }

/-- A turn of the main cycle, after the data have been read. -/
def turn (s : Compressor M) : Compressor M := (s.checkTables mf m).encodeFound mf

/-- The main cycle, for some turns at most. -/
def mainCycle : ℕ → Compressor M → Option (Compressor M)
  | 0, _ => none
  | turns + 1, s =>
    if s.p ≥ s.readPoint then
      let (res, s) := s.readNextChunk mf m
      if res then mainCycle turns (s.turn mf m) else some s
    else mainCycle turns (s.turn mf m)

/-- The variables before the main cycle; the first four bytes are encoded directly. -/
def start (data : List UInt8) : Compressor M :=
  let n := min m.chunk data.length
  let buf := Memory.copy (fun _ => 0) 0 (streamMemory data) 0 n
  { buf
    p := 4
    bufend := n
    tableEnd := if m.supportTables ∧ m.findTables then 0 else m.buffer + lookahead
    lastFound := 0
    readPoint := n - min lookahead n
    bytes := n
    lastChecked := fun _ _ => 0
    rest := data.drop n
    mf := mf.new buf
    calls := (List.range (min n 4)).map fun i : ℕ => .encode buf 0 i 0 }

end Compressor

/-- The call that marks the end of the data. -/
def lastCall (buf : Memory) : Call := .encode buf impossibleLen 0 (-impossibleDist)

/-- `tor_compress_chunk`: what the coder is told, for some turns of the main cycle at most. -/
def torCompressChunk {M : Type} (mf : MatchFinder M) (m : Setup) (turns : ℕ) (data : List UInt8) :
    Option (List Call) :=
  let s := Compressor.start mf m data
  let finished := if s.bufend < 4 then some s else s.mainCycle mf m turns
  finished.map fun s => s.calls ++ [lastCall s.buf]

end DArc.Tornado
