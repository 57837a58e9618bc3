import DArc.Compression.Common
import DArc.Environment.CRC
import DArc.Library.Joins
import DArc.SolidBlock.StreamQueue

/-!
# The threads that compress a solid block

The reader thread cuts the files into buffers, each method thread runs one compression method between two
queues, and the writer thread gives the buffers to the archive.  Without methods the calling thread forwards
the buffers.  A compression method is any process that makes calls of its callback and returns at some time, or
never.

What `malloc` and `darc_bfile_write` return in a thread is given as the sequence of their results.

### Outline

* `readerAction`, `writerAction`, `storingAction`, `methodAction`: one step of a thread;
* `Stage`, `stageAction`: the threads together;
* `readerBuffers`: the buffers of the files.

### Main results

* `alone_reader`, `alone_storing`, `alone_writer`: the threads that this file writes itself end, and take all
  that is in front of them.
-/

namespace DArc.SolidBlock

open Environment (CRC initCRC updateCRC)

/-- The results that are left after the first one. -/
def tailOf {α : Type*} (results : ℕ → α) : ℕ → α := fun n => results (n + 1)

/-! ## The reader -/

/-- The loops of `pipeline_reader_thread`. -/
inductive ReaderAt
  /-- The files that are not yet opened; `none` for one that `fopen` cannot open. -/
  | files (rest : List (Option (List UInt8)))
  /-- The rest of an open file and its CRC so far, and the files behind it. -/
  | file (data : List UInt8) (fileCrc : CRC) (rest : List (Option (List UInt8)))
  /-- The thread is done. -/
  | done

/-- The reader thread. -/
structure Reader where
  pos : ReaderAt
  /-- `out_crcs`, as far as it is filled in. -/
  outCrcs : List CRC
  totalRead : ℕ
  readerErr : Int
  /-- Which of the coming allocations succeed. -/
  malloc : ℕ → Bool

/-- `pipeline_reader_thread`. -/
def readerAction (r : Reader) : Action StreamBuf Reader :=
  match r.pos with
  | .files [] => .step { r with pos := .done }
  | .files (none :: rest) => .step { r with pos := .files rest, outCrcs := r.outCrcs ++ [0] }
  | .files (some data :: rest) => .step { r with pos := .file data initCRC rest }
  | .file data fileCrc rest =>
    if r.malloc 0 = false then
      .step
        { r with
          pos := .done
          readerErr := ErrCode.notEnoughMemory.toInt
          malloc := tailOf r.malloc }
    else
      let buf := data.take streamBufSize
      if buf.length = 0 then
        .step
          { r with
            pos := .files rest
            outCrcs := r.outCrcs ++ [fileCrc ^^^ initCRC]
            malloc := tailOf r.malloc }
      else
        .push buf
          { r with
            pos := .file (data.drop streamBufSize) (updateCRC buf fileCrc) rest
            totalRead := r.totalRead + buf.length
            malloc := tailOf r.malloc }
  | .done => .finish

/-- The reader at the start. -/
def readerStart (files : List (Option (List UInt8))) (malloc : ℕ → Bool) : Reader where
  pos := .files files
  outCrcs := []
  totalRead := 0
  readerErr := 0
  malloc := malloc

/-! ## The writer -/

/-- The loop of `pipeline_writer_thread`. -/
inductive WriterAt
  | popping
  | writing (b : StreamBuf)
  | done

/-- The writer thread. -/
structure Writer where
  pos : WriterAt
  totalWritten : Int
  writerErr : Int
  /-- What the coming calls of `darc_bfile_write` return. -/
  bfileWrite : ℕ → Int

/-- `pipeline_writer_thread`; what it puts out is what it gives to `darc_bfile_write`. -/
def writerAction (w : Writer) : Action StreamBuf Writer :=
  match w.pos with
  | .popping => .pop fun b =>
    match b with
    | none => { w with pos := .done }
    | some b => { w with pos := .writing b }
  | .writing b =>
    .push b
      (if w.bfileWrite 0 < b.length then
        { w with
          pos := .popping
          writerErr := ErrCode.io.toInt
          bfileWrite := tailOf w.bfileWrite }
      else
        { w with
          pos := .popping
          totalWritten := w.totalWritten + w.bfileWrite 0
          bfileWrite := tailOf w.bfileWrite })
  | .done => .finish

/-- The writer at the start. -/
def writerStart (bfileWrite : ℕ → Int) : Writer where
  pos := .popping
  totalWritten := 0
  writerErr := 0
  bfileWrite := bfileWrite

/-! ## Storing -/

/-- The loop that forwards the buffers when there are no methods. -/
inductive Storing
  | popping
  | pushing (b : StreamBuf)
  | done

/-- The loop for `num_methods == 0`. -/
def storingAction : Storing → Action StreamBuf Storing
  | .popping => .pop fun b =>
    match b with
    | none => .done
    | some b => .pushing b
  | .pushing b => .push b .popping
  | .done => .finish

/-! ## Methods -/

/-- What a compression method asks its callback for. -/
inductive What
  | read
  | write
  | time
  /-- Any other string. -/
  | other
  deriving DecidableEq

/-- What a compression method does next. -/
inductive Call (S : Type)
  /-- It calls `callback(what, buf, size)`, and goes on with what is returned and what is in `buf` then. -/
  | callback (what : What) (buf : List UInt8) (size : Int) (next : Int → List UInt8 → S)
  /-- It computes. -/
  | work (next : S)
  /-- It returns. -/
  | ret (code : Int)

/-- A compression method. -/
structure Method where
  /-- The states of its computation. -/
  State : Type
  /-- The call of `Compress`. -/
  start : State
  /-- What it does in a state. -/
  next : State → Call State

/-- Where a method thread is. -/
inductive MethodAt (S : Type)
  /-- In `Compress`. -/
  | running (s : S)
  /-- In the loop for `"read"`, with `got` of the `size` bytes. -/
  | reading (buf : List UInt8) (size : Int) (next : Int → List UInt8 → S) (got : List UInt8)

/-- `MethodCtx`. -/
structure MethodCtx (S : Type) where
  pos : MethodAt S
  /-- The buffer that is being read. -/
  inCur : Option StreamBuf
  inCurPos : ℕ
  /-- Which of the coming allocations succeed. -/
  malloc : ℕ → Bool

/-- The end of the body of the loop for `"read"`: copy from the current buffer. -/
def MethodCtx.copy {S : Type} (m : MethodCtx S) (cur : StreamBuf) (inCurPos : ℕ) (buf : List UInt8)
    (size : Int) (next : Int → List UInt8 → S) (got : List UInt8) : MethodCtx S :=
  let avail := cur.length - inCurPos
  let want := size.toNat - got.length
  let take := if avail < want then avail else want
  { m with
    inCur := some cur
    inCurPos := inCurPos + take
    pos := .reading buf size next (got ++ (cur.drop inCurPos).take take) }

/-- The end of the loop for `"read"`: return the number of bytes. -/
def MethodCtx.endRead {S : Type} (m : MethodCtx S) (buf : List UInt8) (next : Int → List UInt8 → S)
    (got : List UInt8) : MethodCtx S :=
  { m with pos := .running (next got.length (got ++ buf.drop got.length)) }

/-- `method_pipeline_callback` with `"write"`. -/
def writeCall {S : Type} (m : MethodCtx S) (buf : List UInt8) (size : Int)
    (next : Int → List UInt8 → S) : Action StreamBuf (MethodCtx S) :=
  if size ≤ 0 then .step { m with pos := .running (next size buf) }
  else if m.malloc 0 = false then
    .step
      { m with
        pos := .running (next ErrCode.notEnoughMemory.toInt buf)
        malloc := tailOf m.malloc }
  else
    .push (buf.take size.toNat) { m with pos := .running (next size buf), malloc := tailOf m.malloc }

/-- `method_pipeline_thread`, with the calls of `method_pipeline_callback`. -/
def methodAction (M : Method) (m : MethodCtx M.State) : Action StreamBuf (MethodCtx M.State) :=
  match m.pos with
  | .running s =>
    match M.next s with
    | .ret _ => .finish
    | .work next => .step { m with pos := .running next }
    | .callback .read buf size next => .step { m with pos := .reading buf size next [] }
    | .callback .write buf size next => writeCall m buf size next
    | .callback .time buf _ next => .step { m with pos := .running (next 0 buf) }
    | .callback .other buf _ next =>
      .step { m with pos := .running (next ErrCode.notImplemented.toInt buf) }
  | .reading buf size next got =>
    if (got.length : Int) < size then
      match m.inCur.filter fun cur => m.inCurPos < cur.length with
      | some cur => .step (m.copy cur m.inCurPos buf size next got)
      | none => .pop fun b =>
        match b with
        | none => { m with inCur := none }.endRead buf next got
        | some b => m.copy b 0 buf size next got
    else .step (m.endRead buf next got)

/-- A method thread at the start. -/
def methodStart (M : Method) (malloc : ℕ → Bool) : MethodCtx M.State where
  pos := .running M.start
  inCur := none
  inCurPos := 0
  malloc := malloc

/-! ## The threads together -/

/-- A thread. -/
inductive Stage : Type 1
  | reader (r : Reader)
  | storing (s : Storing)
  | method (M : Method) (m : MethodCtx M.State)
  | writer (w : Writer)

/-- One step of a thread. -/
def stageAction : Stage → Action StreamBuf Stage
  | .reader r => (readerAction r).map .reader
  | .storing s => (storingAction s).map .storing
  | .method M m => (methodAction M m).map (.method M)
  | .writer w => (writerAction w).map .writer

/-! ## What the threads do on their own -/

/-- The buffers of an open file, and the results of `malloc` that are left behind it. -/
def fileBuffers (data : List UInt8) (malloc : ℕ → Bool) : List StreamBuf × Option (ℕ → Bool) :=
  if malloc 0 = false then ([], none)
  else if data.length = 0 then ([], some (tailOf malloc))
  else
    let rest := fileBuffers (data.drop streamBufSize) (tailOf malloc)
    (data.take streamBufSize :: rest.1, rest.2)
termination_by data.length
decreasing_by
  rw [List.length_drop]
  unfold streamBufSize
  omega

/-- The buffers that the reader puts out. -/
def readerBuffers : List (Option (List UInt8)) → (ℕ → Bool) → List StreamBuf
  | [], _ => []
  | none :: files, malloc => readerBuffers files malloc
  | some data :: files, malloc =>
    match fileBuffers data malloc with
    | (bufs, none) => bufs
    | (bufs, some malloc) => bufs ++ readerBuffers files malloc

/-- A buffer of an open file is empty at the end of the file. -/
lemma length_take_streamBufSize {data : List UInt8} :
    (data.take streamBufSize).length = 0 ↔ data.length = 0 := by
  rw [List.length_take]
  unfold streamBufSize
  omega

section

variable {data : List UInt8} {files : List (Option (List UInt8))} {malloc : ℕ → Bool}

/-- When there is no memory, the reader ends. -/
lemma readerBuffers_noMemory (h : malloc 0 = false) : readerBuffers (some data :: files) malloc = [] := by
  rw [readerBuffers, fileBuffers, if_pos h]

/-- At the end of a file the reader goes on with the next one. -/
lemma readerBuffers_endOfFile (h : ¬malloc 0 = false) (hdata : data.length = 0) :
    readerBuffers (some data :: files) malloc = readerBuffers files (tailOf malloc) := by
  rw [readerBuffers, fileBuffers, if_neg h, if_pos hdata]
  rfl

/-- The reader puts out a buffer of the file. -/
lemma readerBuffers_data (h : ¬malloc 0 = false) (hdata : ¬data.length = 0) :
    readerBuffers (some data :: files) malloc =
      data.take streamBufSize :: readerBuffers (some (data.drop streamBufSize) :: files) (tailOf malloc) := by
  rw [readerBuffers, fileBuffers, if_neg h, if_neg hdata, readerBuffers]
  dsimp only
  generalize fileBuffers (data.drop streamBufSize) (tailOf malloc) = rest
  obtain ⟨bufs, malloc'⟩ := rest
  cases malloc' with
  | none => rfl
  | some malloc' => rfl

/-- Files that fit into a buffer each are put out as they are. -/
lemma readerBuffers_small {files : List (List UInt8)}
    (h : ∀ data ∈ files, data ≠ [] ∧ data.length ≤ streamBufSize) :
    readerBuffers (files.map some) (fun _ => true) = files := by
  induction files with
  | nil => rfl
  | cons data files ih =>
    obtain ⟨hne, hle⟩ := h data List.mem_cons_self
    have hmalloc : ¬(fun _ : ℕ => true) 0 = false := Bool.true_eq_false_eq_False
    have hdata : ¬data.length = 0 := fun hzero => hne (List.length_eq_zero_iff.mp hzero)
    rw [List.map_cons, readerBuffers_data hmalloc hdata, List.take_of_length_le hle,
      List.drop_of_length_le hle, readerBuffers_endOfFile hmalloc rfl]
    exact congrArg _ (ih fun d hd => h d (List.mem_cons_of_mem _ hd))

/-- The reader in an open file. -/
lemma alone_file (hrest : ∀ r : Reader, r.pos = .files files →
      ∃ n, Alone readerAction n r [] (readerBuffers files r.malloc) [])
    {fileCrc : CRC} {r : Reader} (hpos : r.pos = .file data fileCrc files) :
    ∃ n, Alone readerAction n r [] (readerBuffers (some data :: files) r.malloc) [] := by
  induction h : data.length using Nat.strong_induction_on generalizing data r fileCrc with
  | _ n ih =>
    subst h
    by_cases hmalloc : r.malloc 0 = false
    · rw [readerBuffers_noMemory hmalloc]
      have hdone : Alone readerAction 1
          { r with
            pos := .done
            readerErr := ErrCode.notEnoughMemory.toInt
            malloc := tailOf r.malloc } [] [] [] := .finish rfl
      refine ⟨_, .step ?_ hdone⟩
      rw [readerAction, hpos]
      exact if_pos hmalloc
    by_cases hdata : data.length = 0
    · rw [readerBuffers_endOfFile hmalloc hdata]
      obtain ⟨n, hn⟩ := hrest
        { r with
          pos := .files files
          outCrcs := r.outCrcs ++ [fileCrc ^^^ initCRC]
          malloc := tailOf r.malloc } rfl
      refine ⟨_, .step ?_ hn⟩
      rw [readerAction, hpos]
      dsimp only
      rw [if_neg hmalloc, if_pos (length_take_streamBufSize.mpr hdata)]
    · rw [readerBuffers_data hmalloc hdata]
      have hlt : (data.drop streamBufSize).length < data.length := by
        rw [List.length_drop]
        unfold streamBufSize
        omega
      obtain ⟨n, hn⟩ := ih _ hlt (r :=
        { r with
          pos := .file (data.drop streamBufSize) (updateCRC (data.take streamBufSize) fileCrc) files
          totalRead := r.totalRead + (data.take streamBufSize).length
          malloc := tailOf r.malloc }) rfl rfl
      refine ⟨_, .push ?_ hn⟩
      rw [readerAction, hpos]
      dsimp only
      rw [if_neg hmalloc, if_neg fun hzero => hdata (length_take_streamBufSize.mp hzero)]

/-- **The reader on its own** puts out the buffers of the files. -/
theorem alone_reader {r : Reader} (hpos : r.pos = .files files) :
    ∃ n, Alone readerAction n r [] (readerBuffers files r.malloc) [] := by
  induction files generalizing r with
  | nil =>
    have hdone : Alone readerAction 1 { r with pos := .done } [] [] [] := .finish rfl
    refine ⟨_, .step ?_ hdone⟩
    rw [readerAction, hpos]
  | cons file files ih =>
    cases file with
    | none =>
      obtain ⟨n, hn⟩ := ih (r := { r with pos := .files files, outCrcs := r.outCrcs ++ [0] }) rfl
      refine ⟨_, .step ?_ hn⟩
      rw [readerAction, hpos]
    | some data =>
      obtain ⟨n, hn⟩ := alone_file (fun r hr => ih hr)
        (r := { r with pos := .file data initCRC files }) rfl
      refine ⟨_, .step ?_ hn⟩
      rw [readerAction, hpos]

end

/-- **Storing on its own** puts out what it takes. -/
theorem alone_storing (input : List StreamBuf) :
    ∃ n, Alone storingAction n .popping input input [] := by
  induction input with
  | nil => exact ⟨_, .popEnd rfl (.finish rfl)⟩
  | cons b input ih =>
    obtain ⟨n, hn⟩ := ih
    exact ⟨_, .pop rfl (.push rfl hn)⟩

/-- **The writer on its own** writes what it takes. -/
theorem alone_writer (input : List StreamBuf) {w : Writer} (hpos : w.pos = .popping) :
    ∃ n, Alone writerAction n w input input [] := by
  have hpop : writerAction w = .pop fun b =>
      match b with
      | none => { w with pos := .done }
      | some b => { w with pos := .writing b } := by
    rw [writerAction, hpos]
  induction input generalizing w with
  | nil => exact ⟨_, .popEnd hpop (.finish rfl)⟩
  | cons b input ih =>
    generalize hnext : (if w.bfileWrite 0 < b.length then
        ({ w with
          pos := .popping
          writerErr := ErrCode.io.toInt
          bfileWrite := tailOf w.bfileWrite } : Writer)
      else
        { w with
          pos := .popping
          totalWritten := w.totalWritten + w.bfileWrite 0
          bfileWrite := tailOf w.bfileWrite }) = next
    have hpos' : next.pos = .popping := by
      rw [← hnext]
      split
      · rfl
      · rfl
    obtain ⟨n, hn⟩ := ih hpos' (by rw [writerAction, hpos'])
    exact ⟨_, .pop hpop (.push (congrArg (Action.push b) hnext) hn)⟩

end DArc.SolidBlock
