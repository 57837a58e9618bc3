import DArc.Compression.Common
import DArc.Library.Runs

/-!
# Chains of decompressors in threads

`MultiDecompress` starts one thread for each method of a compressor.  A thread hands a buffer to the next
one by the fields `buf` and `size` of its `Params` and two semaphores that count up to one: `read` of the
next thread says that there are data, `write` that they were used up.  The first thread reads, and the last
one writes, with the callback of the caller.

### Outline

* `Program`: what a decompressor does, call after call;
* `Phase`: where a thread is in `multi_decompress_thread` and `multi_decompress_callback`;
* `step`: one step of one thread, between two operations on semaphores.

The bytes that were passed to the callback are kept as a history of the link; no step looks at it.
-/

namespace DArc.MultiDecompress

/-- A decompressor: it ends with a code, or reads at most `size` bytes, or writes a buffer, and goes on with
what the callback returns. -/
inductive Program
  | finish (ret : Int)
  | read (size : ℕ) (next : Int → List UInt8 → Program)
  | write (buf : List UInt8) (next : Int → Program)

/-- The decompressor does not write any more. -/
def Program.Quiet : Program → Prop
  | .finish _ => True
  | .read _ next => ∀ n data, (next n data).Quiet
  | .write _ _ => False

/-- The decompressor stops writing when a write returns a negative code. -/
def Program.Obedient : Program → Prop
  | .finish _ => True
  | .read _ next => ∀ n data, (next n data).Obedient
  | .write _ next => (∀ n, (next n).Obedient) ∧ ∀ n < 0, (next n).Quiet

/-- Where a thread is. -/
inductive Phase
  /-- Waits for the first data. -/
  | waiting (p : Program)
  /-- Has seen that there are data. -/
  | entered (p : Program)
  /-- In the decompressor. -/
  | running (p : Program)
  /-- Has set `buf` and `size`. -/
  | offering (size : ℕ) (next : Int → Program)
  /-- Waits until the buffer is used up. -/
  | awaiting (size : ℕ) (next : Int → Program)
  /-- Goes on after a write. -/
  | woken (size : ℕ) (next : Int → Program)
  /-- Waits for data. -/
  | locking (asked : ℕ) (got : List UInt8) (next : Int → List UInt8 → Program)
  /-- Looks at the size of the data. -/
  | testing (asked : ℕ) (got : List UInt8) (next : Int → List UInt8 → Program)
  /-- Gives the permission to read back, and returns. -/
  | unlocking (asked : ℕ) (got : List UInt8) (next : Int → List UInt8 → Program)
  /-- Lets the thread in front go on. -/
  | handing (asked : ℕ) (got : List UInt8) (next : Int → List UInt8 → Program)
  /-- The decompressor has returned. -/
  | closePrev
  /-- Has told the thread in front that no more data are required. -/
  | wakePrev
  /-- Is done with the thread in front. -/
  | closeNext
  /-- Has told the next thread that no more data will come. -/
  | wakeNext
  /-- The thread has ended. -/
  | ended

/-- What is between the thread `i` and the next one: `buf`, `size` and `write` of `param[i]` and `read` of
`param[i+1]`, with the bytes that went in and out. -/
structure Link where
  buf : List UInt8
  size : Int
  read : Bool
  write : Bool
  written : List UInt8
  delivered : List UInt8

/-- The state of all threads; `ret` has the codes that their decompressors returned. -/
structure State where
  phase : ℕ → Phase
  link : ℕ → Link
  retcode : Int
  ret : ℕ → Option Int

/-- The thread `i` goes to the phase `p`. -/
def State.goto (s : State) (i : ℕ) (p : Phase) : State :=
  { s with phase := Function.update s.phase i p }

/-- The link behind the thread `i` becomes `l`. -/
def State.setLink (s : State) (i : ℕ) (l : Link) : State :=
  { s with link := Function.update s.link i l }

/-- `SetExitCode`. -/
def State.setExitCode (s : State) (code : Int) : State :=
  { s with retcode := if s.retcode = 0 then code else s.retcode }

/-- What the callback of the caller returns: a code and, for a read, the data. -/
structure Reply where
  code : Int
  data : List UInt8

/-- A step of the thread `i`, with the reply of the caller if it is asked. -/
structure Action where
  i : ℕ
  reply : Reply

/-- The start of the thread, and the decompressor in it. -/
def stepRunning (N : ℕ) (s : State) (i : ℕ) (reply : Reply) : Program → State
  | .finish ret =>
    let s := { s with ret := Function.update s.ret i (some ret) }
    (if ret < 0 then s.setExitCode ret else s).goto i .closePrev
  | .write buf next =>
    if i + 1 < N then
      let l := s.link i
      (s.setLink i { l with buf, size := buf.length, written := l.written ++ buf }).goto i
        (.offering buf.length next)
    else s.goto i (.running (next reply.code))
  | .read size next =>
    if 0 < i then s.goto i (.locking size [] next)
    else s.goto i (.running (next reply.code reply.data))

/-- The look at the data of the thread in front, with `asked - got.length` bytes still to be read. -/
def stepTesting (s : State) (i asked : ℕ) (got : List UInt8) (next : Int → List UInt8 → Program) :
    State :=
  let l := s.link (i - 1)
  let size := asked - got.length
  if l.size < 0 then s.goto i (.unlocking asked got next)
  else if (size : Int) ≤ l.size then
    (s.setLink (i - 1) { l with buf := l.buf.drop size, size := l.size - size }).goto i
      (.unlocking asked (got ++ l.buf.take size) next)
  else s.goto i (.handing asked (got ++ l.buf.take l.size.toNat) next)

/-- One step of the chain of `N` threads. -/
def step (N : ℕ) (s : State) (a : Action) : Option State :=
  if N ≤ a.i then none
  else
    let prev := s.link (a.i - 1)
    let own := s.link a.i
    match s.phase a.i with
    | .waiting p =>
      if prev.read then
        some ((s.setLink (a.i - 1) { prev with read := false }).goto a.i (.entered p))
      else none
    | .entered p => some ((s.setLink (a.i - 1) { prev with read := true }).goto a.i (.running p))
    | .running p => some (stepRunning N s a.i a.reply p)
    | .offering size next =>
      some ((s.setLink a.i { own with read := true }).goto a.i (.awaiting size next))
    | .awaiting size next =>
      if own.write then
        some ((s.setLink a.i { own with write := false }).goto a.i (.woken size next))
      else none
    | .woken size next =>
      some (s.goto a.i (.running (next
        (if own.size < 0 then ErrCode.noMoreDataRequired.toInt else size))))
    | .locking asked got next =>
      if prev.read then
        some ((s.setLink (a.i - 1) { prev with read := false }).goto a.i (.testing asked got next))
      else none
    | .testing asked got next => some (stepTesting s a.i asked got next)
    | .unlocking _ got next =>
      some ((s.setLink (a.i - 1) { prev with read := true, delivered := prev.delivered ++ got }).goto a.i
        (.running (next got.length got)))
    | .handing asked got next =>
      some ((s.setLink (a.i - 1) { prev with write := true }).goto a.i (.locking asked got next))
    | .closePrev =>
      if 0 < a.i then some ((s.setLink (a.i - 1) { prev with size := -1 }).goto a.i .wakePrev)
      else some (s.goto a.i .closeNext)
    | .wakePrev => some ((s.setLink (a.i - 1) { prev with write := true }).goto a.i .closeNext)
    | .closeNext =>
      if a.i + 1 < N then some ((s.setLink a.i { own with size := -1 }).goto a.i .wakeNext)
      else some ((s.setExitCode 0).goto a.i .ended)
    | .wakeNext => some ((s.setLink a.i { own with read := true }).goto a.i .ended)
    | .ended => none

/-- The threads are started; all but the first wait for data. -/
def start (program : ℕ → Program) : State where
  phase := fun i => if i = 0 then .running (program i) else .waiting (program i)
  link := fun _ => { buf := [], size := 0, read := false, write := false, written := [], delivered := [] }
  retcode := 0
  ret := fun _ => none

end DArc.MultiDecompress
