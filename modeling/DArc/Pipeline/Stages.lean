import DArc.MultiDecompress.Stages

/-!
# Chains of compression processes

The processes of a chain are joined by `|>`: between two of them there is an `MVar` for the data, and an
unbounded channel for the acknowledgements.  `deCompressProcess` runs a compressor or a decompressor.  Its
reads take the data out of the buffers that the process in front sends, and a buffer is acknowledged with its
size when it is used up; a write sends a buffer and waits for the acknowledgement.

### Outline

* `Remains`: the rest of a buffer that a process keeps between two reads;
* `Phase`: where a process is, between two operations on channels;
* `copyData`, `processNextInstruction`: the body of a read;
* `step`: one step of one process.

The first process receives from the caller, and the last one sends to the caller.  The buffers that went
through a channel, and what was read from them, are kept as a history; no step looks at it.
-/

namespace DArc.Pipeline

open MultiDecompress (Program)

/-- What a process sends. -/
inductive CompressionData
  | dataBuf (buf : List UInt8)
  | noMoreData

/-- The buffers in it. -/
def CompressionData.bufs : CompressionData → List (List UInt8)
  | .dataBuf buf => [buf]
  | .noMoreData => []

/-- The rest of a buffer: how much of it was read, `srcbuf-:buf0`, and what was not. -/
structure Remains where
  offset : ℕ
  rest : List UInt8

/-- Where a process is. -/
inductive Phase
  /-- In the (de)compressor. -/
  | running (p : Program)
  /-- In `read_data`. -/
  | reading (asked : ℕ) (got : List UInt8) (next : Int → List UInt8 → Program)
  /-- Sends back the size of a buffer that is used up. -/
  | acking (size asked : ℕ) (got : List UInt8) (next : Int → List UInt8 → Program)
  /-- Returns from the read. -/
  | returning (got : List UInt8) (next : Int → List UInt8 → Program)
  /-- Waits for the acknowledgement of a buffer. -/
  | awaiting (size : ℕ) (next : Int → Program)
  /-- Has told the process in front that no more data are required. -/
  | ending
  | ended

/-- The two channels in front of a process, with the buffers that were sent and received, the
acknowledgements and the bytes that the reads returned. -/
structure Channel where
  inner : Option CompressionData
  innerBack : List Int
  sent : List (List UInt8)
  received : List (List UInt8)
  acked : List Int
  read : List UInt8

/-- The state of all processes. -/
structure State where
  phase : ℕ → Phase
  remains : ℕ → Option Remains
  channel : ℕ → Channel

/-- The process `i` goes to the phase `p`. -/
def State.goto (s : State) (i : ℕ) (p : Phase) : State :=
  { s with phase := Function.update s.phase i p }

/-- `remains =: r`. -/
def State.setRemains (s : State) (i : ℕ) (r : Option Remains) : State :=
  { s with remains := Function.update s.remains i r }

/-- The channels in front of the process `i` become `c`. -/
def State.setChannel (s : State) (i : ℕ) (c : Channel) : State :=
  { s with channel := Function.update s.channel i c }

/-- `sendP` to the process `i`. -/
def State.sendP (s : State) (i : ℕ) (x : CompressionData) : State :=
  s.setChannel i { s.channel i with inner := some x, sent := (s.channel i).sent ++ x.bufs }

/-- `send_backP` of the process `i`. -/
def State.sendBackP (s : State) (i : ℕ) (code : Int) : State :=
  s.setChannel i { s.channel i with innerBack := (s.channel i).innerBack ++ [code] }

/-- What the caller does in a step: the data for the first process, and the acknowledgement for the last
one. -/
structure Reply where
  data : CompressionData
  code : Int

/-- A step of the process `i`. -/
structure Action where
  i : ℕ
  reply : Reply

/-- `copyData`: the new rest of the buffer, and what comes next. -/
def copyData (asked : ℕ) (got : List UInt8) (next : Int → List UInt8 → Program) (r : Remains) :
    Remains × Phase :=
  let srclen := r.rest.length
  let dstlen := asked - got.length
  let len := min srclen dstlen
  let got := got ++ r.rest.take len
  ({ offset := r.offset + len, rest := r.rest.drop len },
    if len = srclen then .acking (r.offset + srclen) asked got next
    else if len = dstlen then .returning got next
    else .reading asked got next)

/-- `processNextInstruction`, with what was received. -/
def processNextInstruction (s : State) (i asked : ℕ) (got : List UInt8)
    (next : Int → List UInt8 → Program) : CompressionData → State
  | .dataBuf buf =>
    let (r, p) := copyData asked got next { offset := 0, rest := buf }
    ((s.setChannel i { s.channel i with
      inner := none, received := (s.channel i).received ++ [buf] }).setRemains i (some r)).goto i p
  | .noMoreData =>
    ((s.setChannel i { s.channel i with inner := none }).setRemains i none).goto i (.returning got next)

/-- `read_data`. -/
def readData (s : State) (i : ℕ) (reply : Reply) (asked : ℕ) (got : List UInt8)
    (next : Int → List UInt8 → Program) : Option State :=
  match s.remains i with
  | none => some (s.goto i (.returning got next))
  | some r =>
    if 0 < r.rest.length then
      let (r, p) := copyData asked got next r
      some ((s.setRemains i (some r)).goto i p)
    else
      let s := if i = 0 then s.sendP 0 reply.data else s
      (s.channel i).inner.map (processNextInstruction s i asked got next)

/-- One step of the chain of `N` processes. -/
def step (N : ℕ) (s : State) (a : Action) : Option State :=
  if N ≤ a.i then none
  else
    match s.phase a.i with
    | .running (.finish _) => some ((s.sendBackP a.i ErrCode.noMoreDataRequired.toInt).goto a.i .ending)
    | .running (.read size next) => some (s.goto a.i (.reading size [] next))
    | .running (.write buf next) =>
      if a.i + 1 < N then
        match (s.channel (a.i + 1)).inner with
        | some _ => none
        | none => some ((s.sendP (a.i + 1) (.dataBuf buf)).goto a.i (.awaiting buf.length next))
      else some (s.goto a.i (.awaiting buf.length next))
    | .reading asked got next => readData s a.i a.reply asked got next
    | .acking size asked got next =>
      let s := s.sendBackP a.i size
      some ((s.setChannel a.i { s.channel a.i with
        acked := (s.channel a.i).acked ++ [(size : Int)] }).goto a.i (.reading asked got next))
    | .returning got next =>
      some ((s.setChannel a.i { s.channel a.i with read := (s.channel a.i).read ++ got }).goto a.i
        (.running (next got.length got)))
    | .awaiting _ next =>
      if a.i + 1 < N then
        match (s.channel (a.i + 1)).innerBack with
        | [] => none
        | code :: rest =>
          some ((s.setChannel (a.i + 1) { s.channel (a.i + 1) with innerBack := rest }).goto a.i
            (.running (next code)))
      else some (s.goto a.i (.running (next a.reply.code)))
    | .ending =>
      if a.i + 1 < N then
        match (s.channel (a.i + 1)).inner with
        | some _ => none
        | none => some ((s.sendP (a.i + 1) .noMoreData).goto a.i .ended)
      else some (s.goto a.i .ended)
    | .ended => none

/-- The processes are started; nothing was received. -/
def start (program : ℕ → Program) : State where
  phase := fun i => .running (program i)
  remains := fun _ => some { offset := 0, rest := [] }
  channel := fun _ =>
    { inner := none, innerBack := [], sent := [], received := [], acked := [], read := [] }

end DArc.Pipeline
