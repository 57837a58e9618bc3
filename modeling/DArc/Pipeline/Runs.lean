import DArc.Library.Row
import DArc.Pipeline.Channels

/-!
# Runs of a chain of compression processes

### Outline

* `Stepped.fed`, `Stepped.reader`, `Stepped.writer`: what a step of a process keeps;
* `NoBufferLeft`: the steps after which no buffer is left that nobody will receive;
* `Inv`: the invariant of a chain.

### Main results

* `deCompressProcess_runs`: the reads, the acknowledgements and the sends of a chain in every run, and its
  progress when no buffer is left behind;
* `not_deCompressProcess_progress`: a chain can be blocked forever.
-/

namespace DArc.Pipeline

open MultiDecompress (Program)

variable {N i : ℕ} {s t : State}

/-! ## A step and the other processes -/

section

variable (s) {asked : ℕ} {got : List UInt8} {next : Int → List UInt8 → Program} (x : CompressionData)

lemma processNextInstruction_phase_of_ne {j : ℕ} (hj : j ≠ i) :
    (processNextInstruction s i asked got next x).phase j = s.phase j := by
  cases x <;> exact goto_phase_of_ne _ _ hj

lemma processNextInstruction_remains_of_ne {j : ℕ} (hj : j ≠ i) :
    (processNextInstruction s i asked got next x).remains j = s.remains j := by
  cases x <;> exact setRemains_remains_of_ne _ _ hj

lemma processNextInstruction_channel_of_ne {j : ℕ} (hj : j ≠ i) :
    (processNextInstruction s i asked got next x).channel j = s.channel j := by
  cases x <;> exact setChannel_channel_of_ne _ _ hj

end

/-- A step of the process `i` leaves the other processes where they are. -/
lemma Stepped.phase_of_ne (h : Stepped N s i t) {j : ℕ} (hj : j ≠ i) : t.phase j = s.phase j := by
  cases h with
  | receive | receiveFirst => exact processNextInstruction_phase_of_ne _ _ hj
  | _ => exact goto_phase_of_ne _ _ hj

/-- A step of the process `i` leaves the buffers of the other processes alone. -/
lemma Stepped.remains_of_ne (h : Stepped N s i t) {j : ℕ} (hj : j ≠ i) : t.remains j = s.remains j := by
  cases h with
  | receive | receiveFirst => exact processNextInstruction_remains_of_ne _ _ hj
  | copy => exact setRemains_remains_of_ne _ _ hj
  | _ => rfl

/-- A step of the process `i` leaves the channels alone that are not its own. -/
lemma Stepped.channel_of_ne (h : Stepped N s i t) {j : ℕ} (hj : j ≠ i) (hnext : j ≠ i + 1) :
    t.channel j = s.channel j := by
  cases h with
  | finish => exact sendBackP_channel_of_ne _ _ hj
  | ack => exact (setChannel_channel_of_ne _ _ hj).trans (sendBackP_channel_of_ne _ _ hj)
  | ret => exact setChannel_channel_of_ne _ _ hj
  | receive => exact processNextInstruction_channel_of_ne _ _ hj
  | receiveFirst =>
    exact (processNextInstruction_channel_of_ne _ _ hj).trans (sendP_channel_of_ne _ _ hj)
  | write | close => exact sendP_channel_of_ne _ _ hnext
  | wake => exact setChannel_channel_of_ne _ _ hnext
  | read | writeLast | atEnd | copy | wakeLast | closeLast => rfl

/-! ## What was read -/

lemma processNextInstruction_fed {asked : ℕ} {got : List UInt8} {next : Int → List UInt8 → Program}
    {offset : ℕ} {x : CompressionData}
    (h : Fed (.reading asked got next) (some ⟨offset, []⟩) (s.channel i))
    (hinner : (s.channel i).inner = some x) :
    Fed ((processNextInstruction s i asked got next x).phase i)
      ((processNextInstruction s i asked got next x).remains i)
      ((processNextInstruction s i asked got next x).channel i) := by
  cases x with
  | dataBuf buf =>
    dsimp only [processNextInstruction]
    rw [goto_phase_self, goto_remains, setRemains_remains_self, goto_channel, setRemains_channel,
      setChannel_channel_self]
    exact h.receive hinner
  | noMoreData =>
    dsimp only [processNextInstruction]
    rw [goto_phase_self, goto_remains, setRemains_remains_self, goto_channel, setRemains_channel,
      setChannel_channel_self]
    exact h.noMore hinner

/-- A step of a process keeps what holds of its reads. -/
lemma Stepped.fed (h : Stepped N s i t) (hfed : Fed (s.phase i) (s.remains i) (s.channel i))
    (hfirst : (s.channel 0).inner = none) : Fed (t.phase i) (t.remains i) (t.channel i) := by
  have hnext (c : Channel) : (s.setChannel (i + 1) c).channel i = s.channel i :=
    setChannel_channel_of_ne _ _ (Nat.ne_add_one i)
  have hsend (x : CompressionData) : (s.sendP (i + 1) x).channel i = s.channel i :=
    sendP_channel_of_ne _ _ (Nat.ne_add_one i)
  cases h with
  | finish hp =>
    rw [hp] at hfed
    rw [goto_phase_self, goto_remains, goto_channel, sendBackP_channel_self]
    exact (hfed.setBack _).goto rfl rfl fun _ _ _ _ h => by cases h
  | read hp | writeLast hp | closeLast hp =>
    rw [hp] at hfed
    rw [goto_phase_self, goto_remains, goto_channel]
    exact hfed.goto rfl rfl fun _ _ _ _ h => by cases h
  | wakeLast code hp =>
    rw [hp] at hfed
    rw [goto_phase_self, goto_remains, goto_channel]
    exact hfed.goto rfl rfl fun _ _ _ _ h => by cases h
  | write hp | close hp =>
    rw [hp] at hfed
    rw [goto_phase_self, goto_remains, goto_channel, hsend]
    exact hfed.goto rfl rfl fun _ _ _ _ h => by cases h
  | atEnd hp hr =>
    rw [hp] at hfed
    rw [goto_phase_self, goto_remains, goto_channel]
    exact hfed.goto rfl rfl fun _ _ _ _ h => by cases h
  | copy hp hr hrest =>
    rw [hp, hr] at hfed
    rw [goto_phase_self, goto_remains, setRemains_remains_self, goto_channel]
    exact hfed.copy hrest
  | receive hp hr hi hinner =>
    rw [hp, hr] at hfed
    exact processNextInstruction_fed hfed hinner
  | receiveFirst x hp hr hi =>
    subst hi
    rw [hp, hr] at hfed
    have hsupplied := hfed.sendP hfirst x
    rw [← sendP_channel_self] at hsupplied
    exact processNextInstruction_fed hsupplied (by rw [sendP_channel_self])
  | ack hp =>
    rw [hp] at hfed
    rw [goto_phase_self, goto_remains, goto_channel, setChannel_channel_self, sendBackP_channel_self]
    exact hfed.ack.setBack _
  | ret hp =>
    rw [hp] at hfed
    rw [goto_phase_self, goto_remains, goto_channel, setChannel_channel_self]
    exact hfed.ret
  | wake hp =>
    rw [hp] at hfed
    rw [goto_phase_self, goto_remains, goto_channel, hnext]
    exact hfed.goto rfl rfl fun _ _ _ _ h => by cases h

/-- Nothing is left in the channel of the caller. -/
lemma Stepped.first (h : Stepped N s i t) (hfirst : (s.channel 0).inner = none) :
    (t.channel 0).inner = none := by
  have hprocess (s : State) (asked : ℕ) (got : List UInt8) (next : Int → List UInt8 → Program)
      (x : CompressionData) :
      ((processNextInstruction s 0 asked got next x).channel 0).inner = none := by
    cases x with
    | dataBuf buf =>
      dsimp only [processNextInstruction]
      rw [goto_channel, setRemains_channel, setChannel_channel_self]
    | noMoreData =>
      dsimp only [processNextInstruction]
      rw [goto_channel, setRemains_channel, setChannel_channel_self]
  by_cases h0 : 0 = i
  · subst h0
    cases h with
    | finish =>
      rw [goto_channel, sendBackP_channel_self]
      exact hfirst
    | ack =>
      rw [goto_channel, setChannel_channel_self, sendBackP_channel_self]
      exact hfirst
    | ret =>
      rw [goto_channel, setChannel_channel_self]
      exact hfirst
    | receive | receiveFirst => exact hprocess _ _ _ _ _
    | write | close =>
      rw [goto_channel, sendP_channel_of_ne _ _ (Nat.zero_ne_add_one 0)]
      exact hfirst
    | wake =>
      rw [goto_channel, setChannel_channel_of_ne _ _ (Nat.zero_ne_add_one 0)]
      exact hfirst
    | read | writeLast | atEnd | copy | wakeLast | closeLast => exact hfirst
  · rw [h.channel_of_ne h0 (Nat.zero_ne_add_one i)]
    exact hfirst

/-! ## The table -/

/-- A reader that has closed is one that has ended or is about to. -/
lemma Phase.reader_closed {p : Phase} {r : Option Remains} (h : p.reader r = .closed) :
    p = .ending ∨ p = .ended := by
  cases p with
  | ending => exact .inl rfl
  | ended => exact .inr rfl
  | acking => cases h
  | running | reading | returning | awaiting =>
    cases r with
    | none => cases h
    | some r =>
      by_cases hrest : r.rest = []
      · have hidle := (if_pos hrest).symm.trans h
        cases hidle
      · have hholding := (if_neg hrest).symm.trans h
        cases hholding

lemma Phase.not_closed_of_busy {p : Phase} {r : Option Remains} (h : p.writer = .busy) :
    p.reader r ≠ .closed := by
  intro hclosed
  obtain rfl | rfl := Phase.reader_closed hclosed
  · cases h
  · cases h

/-- A process that is not in a read does not wait for data, and has not closed. -/
lemma kept_fresh_ne (r : Option Remains) : kept .fresh r ≠ .waiting ∧ kept .fresh r ≠ .closed := by
  cases r with
  | none => exact ⟨Reader.noConfusion, Reader.noConfusion⟩
  | some r =>
    dsimp only [kept]
    split
    · exact ⟨Reader.noConfusion, Reader.noConfusion⟩
    · exact ⟨Reader.noConfusion, Reader.noConfusion⟩

lemma copyData_writer {asked : ℕ} {got : List UInt8} {next : Int → List UInt8 → Program} (r : Remains) :
    (copyData asked got next r).2.writer = .busy := by
  dsimp only [copyData]
  split
  · rfl
  · split <;> rfl

lemma processNextInstruction_writer {asked : ℕ} {got : List UInt8} {next : Int → List UInt8 → Program}
    (x : CompressionData) :
    ((processNextInstruction s i asked got next x).phase i).writer = .busy := by
  cases x with
  | dataBuf buf =>
    dsimp only [processNextInstruction]
    rw [goto_phase_self, copyData_writer]
  | noMoreData =>
    dsimp only [processNextInstruction]
    rw [goto_phase_self]
    rfl

/-- What a step of the writer does to the channels behind it. -/
inductive WriterStep (c : Channel) : Channel → Writer → Writer → Prop
  | write (buf : List UInt8) (hinner : c.inner = none) :
      WriterStep c { c with inner := some (.dataBuf buf), sent := c.sent ++ [buf] } .busy
        (.awaiting buf.length)
  | wake {size : ℕ} {code : Int} {rest : List Int} (hback : c.innerBack = code :: rest) :
      WriterStep c { c with innerBack := rest } (.awaiting size) .busy
  | stay : WriterStep c c .busy .busy
  | finish : WriterStep c c .busy .ending
  | close (hinner : c.inner = none) :
      WriterStep c { c with inner := some .noMoreData, sent := c.sent ++ [] } .ending .ended

/-- The steps of a process as a writer. -/
lemma Stepped.writerStep (h : Stepped N s i t) (hN : i + 1 < N) :
    WriterStep (s.channel (i + 1)) (t.channel (i + 1)) (s.phase i).writer (t.phase i).writer := by
  have hne : i + 1 ≠ i := Nat.succ_ne_self i
  cases h with
  | finish hp =>
    rw [hp, goto_phase_self, goto_channel, sendBackP_channel_of_ne _ _ hne]
    exact .finish
  | write hp hi hinner =>
    rw [hp, goto_phase_self, goto_channel, sendP_channel_self]
    exact .write _ hinner
  | wake hp hi hback =>
    rw [hp, goto_phase_self, goto_channel, setChannel_channel_self]
    exact .wake hback
  | close hp hi hinner =>
    rw [hp, goto_phase_self, goto_channel, sendP_channel_self]
    exact .close hinner
  | read hp | atEnd hp =>
    rw [hp, goto_phase_self, goto_channel]
    exact .stay
  | copy hp =>
    rw [hp, goto_phase_self, goto_channel, copyData_writer]
    exact .stay
  | receive hp =>
    rw [hp, processNextInstruction_writer, processNextInstruction_channel_of_ne _ _ hne]
    exact .stay
  | receiveFirst x hp =>
    rw [hp, processNextInstruction_writer, processNextInstruction_channel_of_ne _ _ hne,
      sendP_channel_of_ne _ _ hne]
    exact .stay
  | ack hp =>
    rw [hp, goto_phase_self, goto_channel, setChannel_channel_of_ne _ _ hne,
      sendBackP_channel_of_ne _ _ hne]
    exact .stay
  | ret hp =>
    rw [hp, goto_phase_self, goto_channel, setChannel_channel_of_ne _ _ hne]
    exact .stay
  | writeLast hp hi | closeLast hp hi => exact absurd hN (not_lt.mpr hi)
  | wakeLast code hp hi => exact absurd hN (not_lt.mpr hi)

/-- What a step of the reader does to the channels in front of it. -/
inductive ReaderStep (c : Channel) : Channel → Reader → Reader → Prop
  | stay (r : Reader) {c' : Channel} (hinner : c'.inner = c.inner)
      (hback : c'.innerBack = c.innerBack) : ReaderStep c c' r r
  | read (r : Option Remains) : ReaderStep c c (kept .fresh r) (kept .waiting r)
  | receive {buf : List UInt8} {c' : Channel} (hinner : c.inner = some (.dataBuf buf))
      (hinner' : c'.inner = none) (hback : c'.innerBack = c.innerBack) :
      ReaderStep c c' .waiting (.holding buf.length)
  | noMore {c' : Channel} (hinner : c.inner = some .noMoreData) (hinner' : c'.inner = none)
      (hback : c'.innerBack = c.innerBack) : ReaderStep c c' .waiting .drained
  | ack {size : ℕ} {c' : Channel} (hinner : c'.inner = c.inner)
      (hback : c'.innerBack = c.innerBack ++ [(size : Int)]) : ReaderStep c c' (.holding size) .waiting
  | finish (r : Option Remains) {c' : Channel} (hinner : c'.inner = c.inner)
      (hback : c'.innerBack = c.innerBack ++ [ErrCode.noMoreDataRequired.toInt]) :
      ReaderStep c c' (kept .fresh r) .closed

/-- The steps of a process as a reader. -/
lemma Stepped.readerStep (h : Stepped N s i t) (hi : 0 < i)
    (hfed : Fed (s.phase i) (s.remains i) (s.channel i)) :
    ReaderStep (s.channel i) (t.channel i) ((s.phase i).reader (s.remains i))
      ((t.phase i).reader (t.remains i)) := by
  have hne : i ≠ i + 1 := Nat.ne_add_one i
  cases h with
  | finish hp =>
    rw [hp, goto_phase_self, goto_channel, sendBackP_channel_self]
    exact .finish _ rfl rfl
  | read hp =>
    rw [hp, goto_phase_self, goto_channel]
    exact .read _
  | write hp | close hp =>
    rw [hp, goto_phase_self, goto_channel, sendP_channel_of_ne _ _ hne]
    exact .stay _ rfl rfl
  | writeLast hp | closeLast hp =>
    rw [hp, goto_phase_self, goto_channel]
    exact .stay _ rfl rfl
  | wakeLast code hp =>
    rw [hp, goto_phase_self, goto_channel]
    exact .stay _ rfl rfl
  | atEnd hp hr =>
    rw [hp, goto_phase_self, goto_channel, goto_remains, hr]
    exact .stay _ rfl rfl
  | @copy asked got next r hp hr hrest =>
    rw [hp, hr, goto_phase_self, goto_channel, goto_remains, setRemains_remains_self, copyData_reader]
    have hholding : (Phase.reading asked got next).reader (some r) =
        .holding (r.offset + r.rest.length) := if_neg hrest
    rw [hholding]
    exact .stay _ rfl rfl
  | @receive asked got next offset x hp hr hpos hinner =>
    rw [hp, hr]
    cases x with
    | dataBuf buf =>
      dsimp only [processNextInstruction]
      rw [goto_phase_self, goto_channel, goto_remains, setRemains_remains_self, setRemains_channel,
        setChannel_channel_self, copyData_reader, Nat.zero_add]
      exact .receive hinner rfl rfl
    | noMoreData =>
      dsimp only [processNextInstruction]
      rw [goto_phase_self, goto_channel, goto_remains, setRemains_remains_self, setRemains_channel,
        setChannel_channel_self]
      exact .noMore hinner rfl rfl
  | receiveFirst x hp hr h0 => omega
  | ack hp =>
    obtain ⟨offset, hr⟩ := hfed.used _ _ _ _ hp
    rw [hp, goto_phase_self, goto_channel, goto_remains, setChannel_channel_self, sendBackP_channel_self,
      setChannel_remains, sendBackP_remains, hr]
    exact .ack rfl rfl
  | ret hp =>
    rw [hp, goto_phase_self, goto_channel, setChannel_channel_self]
    exact .stay _ rfl rfl
  | wake hp =>
    rw [hp, goto_phase_self, goto_channel, setChannel_channel_of_ne _ _ hne]
    exact .stay _ rfl rfl

section

variable {c c' : Channel} {w w' : Writer} {r r' : Reader}

lemma WriterStep.fed (h : WriterStep c c' w w') {p : Phase} {r : Option Remains} (hfed : Fed p r c) :
    Fed p r c' := by
  cases h with
  | write buf hinner => exact hfed.sendP hinner (.dataBuf buf)
  | wake => exact hfed.setBack _
  | close hinner => exact hfed.sendP hinner .noMoreData
  | stay | finish => exact hfed

lemma WriterStep.sync (h : WriterStep c c' w w') (hsync : Sync c.inner c.innerBack w r) :
    Sync c'.inner c'.innerBack w' r := by
  cases h with
  | write buf => exact hsync.write buf
  | wake hback =>
    rw [hback] at hsync
    exact hsync.wake
  | stay => exact hsync
  | finish => exact hsync.toEnding
  | close => exact hsync.close

/-- The channels stay clear when the writer does not write to a reader that has closed. -/
lemma WriterStep.clear (h : WriterStep c c' w w') (hclear : Clear c.inner c.innerBack w r)
    (hwrite : ∀ size, w = .busy → w' = .awaiting size → r ≠ .closed) :
    Clear c'.inner c'.innerBack w' r := by
  cases h with
  | write buf => exact clear_of_ne_closed (hwrite _ rfl rfl)
  | wake hback =>
    rw [hback] at hclear
    exact hclear.wake
  | stay => exact hclear
  | finish => exact hclear.toEnding
  | close => cases r <;> trivial

lemma ReaderStep.sync (h : ReaderStep c c' r r') (hsync : Sync c.inner c.innerBack w r) :
    Sync c'.inner c'.innerBack w r' := by
  cases h with
  | stay r hinner hback =>
    rw [hinner, hback]
    exact hsync
  | read => exact hsync.read
  | receive hinner hinner' hback =>
    rw [hinner] at hsync
    rw [hinner', hback]
    exact hsync.receive
  | noMore hinner hinner' hback =>
    rw [hinner] at hsync
    rw [hinner', hback]
    exact hsync.noMore
  | ack hinner hback =>
    rw [hinner, hback]
    exact hsync.ack
  | finish r hinner hback =>
    rw [hinner, hback]
    exact hsync.finish (kept_fresh_ne _).1 (kept_fresh_ne _).2

/-- The channels stay clear when the reader does not close in front of a buffer. -/
lemma ReaderStep.clear (h : ReaderStep c c' r r') (hsync : Sync c.inner c.innerBack w r)
    (hclear : Clear c.inner c.innerBack w r)
    (hclose : r ≠ .closed → r' = .closed → ∀ buf, c.inner ≠ some (.dataBuf buf)) :
    Clear c'.inner c'.innerBack w r' := by
  cases h with
  | stay r hinner hback =>
    rw [hinner, hback]
    exact hclear
  | read r =>
    refine clear_of_ne_closed ?_
    cases r with
    | none => exact Reader.noConfusion
    | some r =>
      dsimp only [kept]
      split <;> exact Reader.noConfusion
  | receive | noMore | ack => exact clear_of_ne_closed Reader.noConfusion
  | finish r hinner hback =>
    have hfresh := kept_fresh_ne r
    rw [hinner, hback]
    exact hsync.clear_finish hfresh.1 hfresh.2 (hclose hfresh.2 rfl) _

end

/-- The step leaves no buffer that nobody will receive: a process does not end while a buffer is in front of
it that it has not received, and no process writes to one that has ended. -/
def NoBufferLeft (N : ℕ) (s : State) (a : Action) : Prop :=
  match s.phase a.i with
  | .running (.finish _) => 0 < a.i → ∀ buf, (s.channel a.i).inner ≠ some (.dataBuf buf)
  | .running (.write _ _) =>
    a.i + 1 < N → s.phase (a.i + 1) ≠ .ending ∧ s.phase (a.i + 1) ≠ .ended
  | _ => True

/-- A process that writes and leaves no buffer behind does not write to one that has closed. -/
lemma Stepped.not_closed_of_write {a : Action} (h : Stepped N s a.i t) (hN : a.i + 1 < N)
    (hkept : NoBufferLeft N s a) (size : ℕ)
    (hw' : (t.phase a.i).writer = .awaiting size) :
    (s.phase (a.i + 1)).reader (s.remains (a.i + 1)) ≠ .closed := by
  cases h with
  | write hp =>
    intro hclosed
    unfold NoBufferLeft at hkept
    rw [hp] at hkept
    obtain hp' | hp' := Phase.reader_closed hclosed
    · exact (hkept hN).1 hp'
    · exact (hkept hN).2 hp'
  | writeLast hp hi => exact absurd hN (not_lt.mpr hi)
  | copy =>
    rw [goto_phase_self, copyData_writer] at hw'
    cases hw'
  | receive | receiveFirst =>
    rw [processNextInstruction_writer] at hw'
    cases hw'
  | _ =>
    rw [goto_phase_self] at hw'
    cases hw'

/-- A process that closes and leaves no buffer behind has no buffer in front of it. -/
lemma Stepped.no_buffer_of_close {a : Action} (h : Stepped N s a.i t) (hi : 0 < a.i)
    (hkept : NoBufferLeft N s a) (hr : (s.phase a.i).reader (s.remains a.i) ≠ .closed)
    (hr' : (t.phase a.i).reader (t.remains a.i) = .closed) (buf : List UInt8) :
    (s.channel a.i).inner ≠ some (.dataBuf buf) := by
  cases h with
  | finish hp =>
    unfold NoBufferLeft at hkept
    rw [hp] at hkept
    exact hkept hi buf
  | close hp | closeLast hp =>
    rw [hp] at hr
    exact absurd rfl hr
  | copy =>
    rw [goto_phase_self, goto_remains, setRemains_remains_self, copyData_reader] at hr'
    cases hr'
  | receive | receiveFirst =>
    exact absurd hr' (Phase.not_closed_of_busy (processNextInstruction_writer _))
  | _ =>
    obtain hp | hp := Phase.reader_closed hr'
    · rw [goto_phase_self] at hp
      cases hp
    · rw [goto_phase_self] at hp
      cases hp

/-! ## The invariants -/

/-- The invariant of all runs. -/
structure Inv (N : ℕ) (s : State) : Prop where
  fed : ∀ i < N, Fed (s.phase i) (s.remains i) (s.channel i)
  first : (s.channel 0).inner = none
  sync : ∀ i, i + 1 < N → Sync (s.channel (i + 1)).inner (s.channel (i + 1)).innerBack
    (s.phase i).writer ((s.phase (i + 1)).reader (s.remains (i + 1)))

/-- What holds besides in the runs that leave no buffer behind. -/
def AllClear (N : ℕ) (s : State) : Prop :=
  ∀ i, i + 1 < N → Clear (s.channel (i + 1)).inner (s.channel (i + 1)).innerBack
    (s.phase i).writer ((s.phase (i + 1)).reader (s.remains (i + 1)))

lemma Inv.start (program : ℕ → Program) : Inv N (start program) where
  fed := fun i _ => ⟨rfl, rfl, rfl, fun _ _ _ _ h => by cases h⟩
  first := rfl
  sync := fun _ _ => ⟨rfl, rfl⟩

/-- A step keeps the invariant. -/
lemma Inv.step (h : Inv N s) {a : Action} (ht : step N s a = some t) : Inv N t := by
  obtain ⟨hi, hstep⟩ := step_stepped ht
  have hself : a.i + 1 ≠ a.i := Nat.succ_ne_self a.i
  refine ⟨fun j hj => ?_, hstep.first h.first, fun j hj => ?_⟩
  · by_cases hja : j = a.i
    · rw [hja]
      exact hstep.fed (h.fed a.i hi) h.first
    rw [hstep.phase_of_ne hja, hstep.remains_of_ne hja]
    by_cases hjn : j = a.i + 1
    · subst hjn
      exact (hstep.writerStep hj).fed (h.fed _ hj)
    · rw [hstep.channel_of_ne hja hjn]
      exact h.fed j hj
  · have hsync := h.sync j hj
    by_cases hja : j = a.i
    · subst hja
      rw [hstep.phase_of_ne hself, hstep.remains_of_ne hself]
      exact (hstep.writerStep hj).sync hsync
    rw [hstep.phase_of_ne hja]
    by_cases hjn : j + 1 = a.i
    · rw [hjn] at hsync ⊢
      exact (hstep.readerStep (by omega) (h.fed a.i hi)).sync hsync
    · rw [hstep.phase_of_ne hjn, hstep.remains_of_ne hjn, hstep.channel_of_ne hjn (by omega)]
      exact hsync

lemma AllClear.start (program : ℕ → Program) : AllClear N (start program) :=
  fun _ _ => trivial

/-- A step that leaves no buffer behind keeps the channels clear. -/
lemma AllClear.step (h : AllClear N s) (hinv : Inv N s) {a : Action} (hkept : NoBufferLeft N s a)
    (ht : step N s a = some t) : AllClear N t := by
  intro j hj
  obtain ⟨hi, hstep⟩ := step_stepped ht
  have hself : a.i + 1 ≠ a.i := Nat.succ_ne_self a.i
  have hclear := h j hj
  by_cases hja : j = a.i
  · subst hja
    rw [hstep.phase_of_ne hself, hstep.remains_of_ne hself]
    exact (hstep.writerStep hj).clear hclear fun size _ => hstep.not_closed_of_write hj hkept size
  rw [hstep.phase_of_ne hja]
  by_cases hjn : j + 1 = a.i
  · have hsync := hinv.sync j hj
    rw [hjn] at hsync hclear ⊢
    refine (hstep.readerStep (by omega) (hinv.fed a.i hi)).clear hsync hclear ?_
    exact hstep.no_buffer_of_close (by omega) hkept
  · rw [hstep.phase_of_ne hjn, hstep.remains_of_ne hjn, hstep.channel_of_ne hjn (by omega)]
    exact hclear

/-! ## Progress -/

/-- The process cannot go on: it waits for an acknowledgement, for data, or for room, or has ended. -/
def Blocked (N : ℕ) (s : State) (i : ℕ) : Prop :=
  (∃ size, (s.phase i).writer = .awaiting size) ∧ i + 1 < N ∧ (s.channel (i + 1)).innerBack = [] ∨
  ((s.phase i).writer = .busy ∧ (s.phase i).reader (s.remains i) = .waiting) ∧ 0 < i ∧
    (s.channel i).inner = none ∨
  ((s.phase i).writer = .busy ∨ s.phase i = .ending) ∧ i + 1 < N ∧ (s.channel (i + 1)).inner ≠ none ∨
  s.phase i = .ended

/-- A process that cannot make a step is blocked. -/
lemma blocked_of_step {a : Action} (hi : a.i < N) (h : step N s a = none) : Blocked N s a.i := by
  unfold step at h
  rw [if_neg (not_le.mpr hi)] at h
  unfold Blocked
  cases hp : s.phase a.i with
  | running p =>
    rw [hp] at h
    cases p with
    | finish | read => cases h
    | write buf next =>
      dsimp only at h
      by_cases hN : a.i + 1 < N
      · rw [if_pos hN] at h
        refine .inr (.inr (.inl ⟨.inl rfl, hN, fun hinner => ?_⟩))
        rw [hinner] at h
        cases h
      · rw [if_neg hN] at h
        cases h
  | reading asked got next =>
    rw [hp] at h
    dsimp only [readData] at h
    cases hr : s.remains a.i with
    | none =>
      rw [hr] at h
      cases h
    | some r =>
      rw [hr] at h
      dsimp only at h
      by_cases hrest : 0 < r.rest.length
      · rw [if_pos hrest] at h
        cases h
      · rw [if_neg hrest] at h
        have hnil : r.rest = [] := List.length_eq_zero_iff.mp (Nat.eq_zero_of_not_pos hrest)
        have hinner := Option.map_eq_none_iff.mp h
        by_cases h0 : a.i = 0
        · rw [if_pos h0, h0, sendP_channel_self] at hinner
          cases hinner
        · rw [if_neg h0] at hinner
          exact .inr (.inl ⟨⟨rfl, if_pos hnil⟩, Nat.pos_of_ne_zero h0, hinner⟩)
  | acking | returning =>
    rw [hp] at h
    cases h
  | awaiting size next =>
    rw [hp] at h
    dsimp only at h
    by_cases hN : a.i + 1 < N
    · rw [if_pos hN] at h
      refine .inl ⟨⟨_, rfl⟩, hN, ?_⟩
      cases hback : (s.channel (a.i + 1)).innerBack with
      | nil => rfl
      | cons code rest =>
        rw [hback] at h
        cases h
    · rw [if_neg hN] at h
      cases h
  | ending =>
    rw [hp] at h
    dsimp only at h
    by_cases hN : a.i + 1 < N
    · rw [if_pos hN] at h
      refine .inr (.inr (.inl ⟨.inr rfl, hN, fun hinner => ?_⟩))
      rw [hinner] at h
      cases h
    · rw [if_neg hN] at h
      cases h
  | ended => exact .inr (.inr (.inr rfl))

section

variable {inner : Option CompressionData} {back : List Int} {w : Writer} {r : Reader}

/-- There is room for a process that does not wait for an acknowledgement. -/
lemma Sync.room (h : Sync inner back w r) (hclear : Clear inner back w r)
    (hw : w = .busy ∨ w = .ending) : inner = none := by
  obtain rfl | rfl := hw
  · cases r with
    | fresh | waiting => exact h.1
    | closed => exact hclear
    | holding | drained => exact h.elim
  · cases r with
    | fresh | waiting => exact h.1
    | closed => exact hclear
    | holding | drained => exact h.elim

/-- When there is no acknowledgement for a process that waits for it, the next one has not closed, and there
are data for it if it waits for data. -/
lemma Sync.reader_of_awaiting {size : ℕ} (h : Sync inner [] (.awaiting size) r)
    (hclear : Clear inner [] (.awaiting size) r) : r ≠ .closed ∧ (r = .waiting → inner ≠ none) := by
  refine ⟨?_, ?_⟩
  · rintro rfl
    exact hclear.2 rfl
  · rintro rfl rfl
    obtain ⟨⟨b, hb, -⟩, -⟩ | ⟨-, hback⟩ := h
    · cases hb
    · cases hback

/-- When there are no data for a process that waits for data, the one in front has not ended. -/
lemma Sync.writer_of_waiting (h : Sync none back w .waiting) : w ≠ .ended := by
  rintro rfl
  cases h.1

end

/-- **Progress**: when no process of the chain can go on, all of them have ended. -/
theorem Inv.progress (h : Inv N s) (hclear : AllClear N s) :
    (∃ i < N, ∀ reply, ∃ t, Pipeline.step N s ⟨i, reply⟩ = some t) ∨ ∀ i < N, s.phase i = .ended := by
  by_contra hstuck
  obtain ⟨hall, hended⟩ := not_or.mp hstuck
  have hblocked (i : ℕ) (hi : i < N) : Blocked N s i := by
    by_contra hne
    refine hall ⟨i, hi, fun reply => ?_⟩
    cases ht : Pipeline.step N s ⟨i, reply⟩ with
    | none => exact absurd (blocked_of_step hi ht) hne
    | some t => exact ⟨t, rfl⟩
  -- a process finds room, so that it waits for an acknowledgement, or for data, or has ended
  have hcases (i : ℕ) (hi : i < N) :
      ((∃ size, (s.phase i).writer = .awaiting size) ∧ i + 1 < N ∧ (s.channel (i + 1)).innerBack = []) ∨
      ((s.phase i).reader (s.remains i) = .waiting ∧ 0 < i ∧ (s.channel i).inner = none) ∨
      s.phase i = .ended := by
    obtain hb | hb | ⟨hw, hN, hinner⟩ | hb := hblocked i hi
    · exact .inl hb
    · exact .inr (.inl ⟨hb.1.2, hb.2⟩)
    · refine absurd ((h.sync i hN).room (hclear i hN) ?_) hinner
      obtain hw | hw := hw
      · exact .inl hw
      · rw [hw]
        exact .inr rfl
    · exact .inr (.inr hb)
  refine hended (all_done_of_waits hcases ?_ ?_)
  · rintro i hi ⟨⟨size, hsize⟩, hN, hback⟩
    refine ⟨hN, ?_⟩
    have hsync := h.sync i hN
    have hnext := hclear i hN
    rw [hsize, hback] at hsync hnext
    obtain ⟨hclosed, hdata⟩ := hsync.reader_of_awaiting hnext
    obtain hb | ⟨hr, -, hinner⟩ | hb := hcases (i + 1) hN
    · exact hb
    · exact absurd hinner (hdata hr)
    · rw [hb] at hclosed
      exact absurd rfl hclosed
  · rintro hnone i hi ⟨hr, hpos, hinner⟩
    refine ⟨hpos, ?_⟩
    obtain ⟨k, rfl⟩ : ∃ k, i = k + 1 := ⟨i - 1, by omega⟩
    rw [Nat.add_sub_cancel]
    have hsync := h.sync k hi
    rw [hr, hinner] at hsync
    obtain hb | hb | hb := hcases k (by omega)
    · exact absurd hb (hnone k (by omega))
    · exact hb
    · rw [hb] at hsync
      exact absurd rfl hsync.writer_of_waiting

/-! ## A chain -/

lemma inv_of_reachable {program : ℕ → Program} (h : Reachable (step N) (start program) s) : Inv N s :=
  h.invariant (Inv.start program) fun _ _ _ hs _ ht => hs.step ht

/-- The channels are clear in a run that leaves no buffer behind. -/
lemma allClear_of_run {program : ℕ → Program}
    (h : RunFrom (step N) (NoBufferLeft N) (start program) s) : AllClear N s := by
  refine (h.invariant (I := fun s => Inv N s ∧ AllClear N s) ⟨.start program, .start program⟩ ?_).2
  intro s a t hs hkept ht
  exact ⟨hs.1.step ht, hs.2.step hs.1 hkept ht⟩

/-- The bytes that the reads returned, and those that are still on the way, are the bytes that were sent. -/
lemma Fed.bytes {p : Phase} {r : Option Remains} {c : Channel} (h : Fed p r c) :
    c.read ++ p.got ++ rest r ++ (c.inner.elim [] CompressionData.bufs).flatten = c.sent.flatten := by
  rw [h.sent, List.flatten_append, h.data]

/-- When a buffer is not acknowledged, something is left of it, or it is about to be. -/
lemma held_cases {r : Option Remains} {size : Option ℕ} (h : held r = size) :
    size = none ∧ rest r = [] ∨ ∃ n, size = some n ∧ rest r ≠ [] ∧ (rest r).length ≤ n := by
  subst h
  cases r with
  | none => exact .inl ⟨rfl, rfl⟩
  | some r =>
    by_cases hrest : r.rest = []
    · exact .inl ⟨if_pos hrest, hrest⟩
    · exact .inr ⟨_, if_neg hrest, hrest, Nat.le_add_left ..⟩

/-- All buffers that were used up are acknowledged with their sizes, or the last one is about to be. -/
lemma Fed.acknowledged {p : Phase} {r : Option Remains} {c : Channel} (h : Fed p r c) :
    ∃ bs, c.acked = bs.map (fun b => (b.length : Int)) ∧ bs.flatten <+: c.read ++ p.got ∧
      (c.received = bs ∨ ∃ b, c.received = bs ++ [b] ∧
        (rest r ≠ [] ∨ ∃ asked got next, p = .acking b.length asked got next)) := by
  have hdata := h.data
  have hacks := h.acks
  -- the last buffer, of which no more is left than it has bytes
  have hlast {bs : List (List UInt8)} {b : List UInt8} (hreceived : c.received = bs ++ [b])
      (hlen : (rest r).length ≤ b.length) : bs.flatten <+: c.read ++ p.got := by
    rw [hreceived, List.flatten_append, List.flatten_singleton] at hdata
    have hle : bs.flatten.length ≤ (c.read ++ p.got).length := by
      have hsum := congrArg List.length hdata
      simp only [List.length_append] at hsum ⊢
      omega
    have hpre : bs.flatten <+: c.read ++ p.got ++ rest r := ⟨b, hdata.symm⟩
    exact List.prefix_of_prefix_length_le hpre ⟨_, rfl⟩ hle
  by_cases hp : ∃ size asked got next, p = .acking size asked got next
  · obtain ⟨size, asked, got, next, rfl⟩ := hp
    obtain ⟨offset, rfl⟩ := h.used _ _ _ _ rfl
    obtain ⟨bs, b, hreceived, rfl, hacked⟩ := hacks
    exact ⟨bs, hacked, hlast hreceived (Nat.zero_le _), .inr ⟨b, hreceived, .inr ⟨_, _, _, rfl⟩⟩⟩
  have hunacked : held r = p.unacked r := by
    cases p with
    | acking => exact absurd ⟨_, _, _, _, rfl⟩ hp
    | _ => rfl
  obtain ⟨hsize, hrest⟩ | ⟨n, hsize, hrest, hle⟩ := held_cases hunacked
  · rw [hsize] at hacks
    rw [hrest, List.append_nil] at hdata
    refine ⟨c.received, hacks, ?_, .inl rfl⟩
    rw [hdata]
  · rw [hsize] at hacks
    obtain ⟨bs, b, hreceived, rfl, hacked⟩ := hacks
    exact ⟨bs, hacked, hlast hreceived hle, .inr ⟨b, hreceived, .inl hrest⟩⟩

/-- What a process waits for is the size of its buffer, or that no more data are required if the next process
has closed. -/
lemma Sync.answer {inner : Option CompressionData} {back : List Int} {size : ℕ} {r : Reader}
    (h : Sync inner back (.awaiting size) r) {code : Int} (hcode : code ∈ back) :
    (r = .closed → code = ErrCode.noMoreDataRequired.toInt) ∧ (r ≠ .closed → code = size) := by
  cases r with
  | closed => exact ⟨fun _ => h code hcode, fun hne => absurd rfl hne⟩
  | waiting =>
    refine ⟨Reader.noConfusion, fun _ => ?_⟩
    obtain ⟨-, rfl⟩ | ⟨-, rfl⟩ := h
    · cases hcode
    · exact List.mem_singleton.mp hcode
  | fresh =>
    obtain ⟨-, rfl⟩ := h
    cases hcode
  | holding =>
    obtain ⟨-, rfl, -⟩ := h
    cases hcode
  | drained => exact h.elim

/-- The process has told the one in front of it that no more data are required. -/
def Phase.Closed (p : Phase) : Prop := p = .ending ∨ p = .ended

lemma Phase.closed_iff {p : Phase} {r : Option Remains} : p.Closed ↔ p.reader r = .closed := by
  refine ⟨?_, Phase.reader_closed⟩
  rintro (rfl | rfl)
  · rfl
  · rfl

/-- A process that has ended makes no step. -/
lemma Stepped.ne_ended (h : Stepped N s i t) : s.phase i ≠ .ended := by
  intro hended
  cases h <;> simp_all

/-- A process that has closed makes one more step, and leaves the channels in front of it alone. -/
lemma Stepped.of_closed (h : Stepped N s i t) (hp : (s.phase i).Closed) :
    s.phase i = .ending ∧ t.phase i = .ended ∧ t.channel i = s.channel i ∧
      (i + 1 < N → (s.channel (i + 1)).inner = none) := by
  obtain hp | hp := hp
  case inr => exact absurd hp h.ne_ended
  cases h with
  | close hp hi hinner =>
    refine ⟨hp, goto_phase_self .., ?_, fun _ => hinner⟩
    exact sendP_channel_of_ne _ _ (Nat.ne_add_one i)
  | closeLast hp hi => exact ⟨hp, goto_phase_self .., rfl, fun hN => absurd hN (not_lt.mpr hi)⟩
  | _ => simp_all

/-- A process behind which a buffer was left never ends. -/
lemma not_ended_of_lost {u : State} (buf : List UInt8) (hN : i + 1 < N)
    (hinner : (s.channel (i + 1)).inner = some (.dataBuf buf)) (hclosed : (s.phase (i + 1)).Closed)
    (hp : s.phase i ≠ .ended) (h : Reachable (step N) s u) : u.phase i ≠ .ended := by
  refine (h.invariant (I := fun s => (s.channel (i + 1)).inner = some (.dataBuf buf) ∧
    (s.phase (i + 1)).Closed ∧ s.phase i ≠ .ended) ⟨hinner, hclosed, hp⟩ ?_).2.2
  rintro s a t ⟨hinner, hclosed, hp⟩ - ht
  obtain ⟨-, hstep⟩ := step_stepped ht
  have hne : i + 1 ≠ i := Nat.succ_ne_self i
  by_cases hi : a.i = i
  · rw [hi] at hstep
    rw [hstep.phase_of_ne hne]
    have hwriter := hstep.writerStep hN
    have hended (hw : (t.phase i).writer ≠ .ended) : t.phase i ≠ .ended := by
      intro hp'
      rw [hp'] at hw
      exact hw rfl
    generalize (s.phase i).writer = w, (t.phase i).writer = w', t.channel (i + 1) = c at hwriter hended ⊢
    cases hwriter with
    | write _ hnone | close hnone =>
      exact absurd (hinner.symm.trans hnone) (Option.some_ne_none _)
    | wake | stay | finish => exact ⟨hinner, hclosed, hended Writer.noConfusion⟩
  by_cases hn : a.i = i + 1
  · rw [hn] at hstep
    obtain ⟨-, hended, hchannel, -⟩ := hstep.of_closed hclosed
    rw [hchannel, hstep.phase_of_ne hne.symm]
    exact ⟨hinner, .inr hended, hp⟩
  · rw [hstep.phase_of_ne (Ne.symm hi), hstep.phase_of_ne (Ne.symm hn),
      hstep.channel_of_ne (Ne.symm hn) (by omega)]
    exact ⟨hinner, hclosed, hp⟩

/-- A process that has ended has left no buffer in front of one that has not closed. -/
lemma Sync.not_ended {buf : List UInt8} {back : List Int} {w : Writer} {r : Reader}
    (h : Sync (some (.dataBuf buf)) back w r) (hr : r ≠ .closed) : w ≠ .ended := by
  rintro rfl
  cases r with
  | fresh | waiting => cases h.1
  | holding => exact h
  | drained => cases h
  | closed => exact hr rfl

/-- After a step that leaves a buffer behind, some process never ends. -/
lemma never_ends_of_buffer_left (h : Inv N s) {a : Action} (ht : step N s a = some t)
    (hleft : ¬NoBufferLeft N s a) :
    ∃ i < N, ∀ u, Reachable (step N) t u → u.phase i ≠ .ended := by
  obtain ⟨hi, hstep⟩ := step_stepped ht
  unfold NoBufferLeft at hleft
  cases hstep with
  | finish hp =>
    rw [hp] at hleft
    push Not at hleft
    obtain ⟨hpos, buf, hbuf⟩ := hleft
    obtain ⟨k, hk⟩ : ∃ k, a.i = k + 1 := Nat.exists_eq_add_one.mpr hpos
    rw [hk] at hi hp hbuf ⊢
    have hsync := h.sync k hi
    rw [hbuf, hp] at hsync
    have hw := hsync.not_ended (kept_fresh_ne _).2
    refine ⟨k, by omega, fun u => not_ended_of_lost buf hi ?_ (.inl (goto_phase_self ..)) ?_⟩
    · rw [goto_channel, sendBackP_channel_self]
      exact hbuf
    · rw [goto_phase_of_ne _ _ (Nat.ne_add_one k)]
      intro hended
      rw [sendBackP_phase] at hended
      rw [hended] at hw
      exact hw rfl
  | @write buf next hp hN hinner =>
    rw [hp] at hleft
    have hclosed : (s.phase (a.i + 1)).Closed := by
      by_contra hnot
      exact hleft fun _ => not_or.mp hnot
    refine ⟨a.i, hi, fun u => not_ended_of_lost buf hN ?_ ?_ ?_⟩
    · rw [goto_channel, sendP_channel_self]
    · rw [goto_phase_of_ne _ _ (Nat.succ_ne_self a.i)]
      exact hclosed
    · rw [goto_phase_self]
      exact Phase.noConfusion
  | writeLast hp hN =>
    rw [hp] at hleft
    exact absurd (fun h => absurd h (not_lt.mpr hN)) hleft
  | read hp | atEnd hp | ack hp | ret hp | closeLast hp | close hp =>
    rw [hp] at hleft
    exact absurd trivial hleft
  | copy hp | receive hp | wake hp =>
    rw [hp] at hleft
    exact absurd trivial hleft
  | receiveFirst x hp | wakeLast code hp =>
    rw [hp] at hleft
    exact absurd trivial hleft

/-- **A chain of processes**, in every state that a run reaches.

* The bytes that the reads of a process returned, followed by those that are still on the way, are the bytes
  of the buffers that were sent to it.
* It has acknowledged, once and with their sizes, the buffers that it received and used up, but for the last
  one when something of it is left or it is about to be acknowledged.
* The answer to a write is the size of the buffer, or, when the next process has closed, that no more data are
  required.
* In a run that leaves no buffer behind, a write to a process that closes gets its answer, and some process can
  go on or all have ended.
* After a step that leaves a buffer behind, some process never ends. -/
theorem deCompressProcess_runs {program : ℕ → Program} (h : Reachable (step N) (start program) s) :
    (∀ i < N, (s.channel i).read ++ (s.phase i).got ++ rest (s.remains i) ++
      ((s.channel i).inner.elim [] CompressionData.bufs).flatten = (s.channel i).sent.flatten) ∧
    (∀ i < N, ∃ bs, (s.channel i).acked = bs.map (fun b => (b.length : Int)) ∧
      bs.flatten <+: (s.channel i).read ++ (s.phase i).got ∧
      ((s.channel i).received = bs ∨ ∃ b, (s.channel i).received = bs ++ [b] ∧
        (rest (s.remains i) ≠ [] ∨ ∃ asked got next, s.phase i = .acking b.length asked got next))) ∧
    (∀ i size next, i + 1 < N → s.phase i = .awaiting size next →
      ∀ code ∈ (s.channel (i + 1)).innerBack,
        ((s.phase (i + 1)).Closed → code = ErrCode.noMoreDataRequired.toInt) ∧
        (¬(s.phase (i + 1)).Closed → code = size)) ∧
    (RunFrom (step N) (NoBufferLeft N) (start program) s →
      (∀ i size next, i + 1 < N → s.phase i = .awaiting size next → (s.phase (i + 1)).Closed →
        (s.channel (i + 1)).innerBack ≠ []) ∧
      ((∃ i < N, ∀ reply, ∃ t, step N s ⟨i, reply⟩ = some t) ∨ ∀ i < N, s.phase i = .ended)) ∧
    (∀ a t, step N s a = some t → ¬NoBufferLeft N s a →
      ∃ i < N, ∀ u, Reachable (step N) t u → u.phase i ≠ .ended) := by
  have hinv := inv_of_reachable h
  refine ⟨fun i hi => (hinv.fed i hi).bytes, fun i hi => (hinv.fed i hi).acknowledged, ?_, ?_,
    fun a t => never_ends_of_buffer_left hinv⟩
  · intro i size next hi hp code hcode
    have hsync := hinv.sync i hi
    rw [hp] at hsync
    rw [Phase.closed_iff (r := s.remains (i + 1))]
    exact hsync.answer hcode
  · intro hrun
    have hall := allClear_of_run hrun
    refine ⟨fun i size next hi hp hclosed => ?_, hinv.progress hall⟩
    have hclear := hall i hi
    rw [hp, Phase.closed_iff.mp hclosed] at hclear
    exact hclear.2

/-- A chain of two processes in which the second one reads more than the first one writes. -/
def shortRead (i : ℕ) : Program :=
  if i = 0 then .write [1, 2] fun _ => .finish 0 else .read 3 fun n _ => .finish n

/-- A run of `shortRead` up to the return of the read. -/
def shortReadRun : List Action :=
  [0, 1, 1, 1, 0, 0, 0, 1, 1].map fun i => ⟨i, ⟨.noMoreData, 0⟩⟩

/-- At the end of that run the read has returned with all that was sent. -/
theorem deCompressProcess_runs_shortRead :
    ∃ s, Reachable (step 2) (start shortRead) s ∧ s.phase 1 = .running (.finish 2) ∧
      (s.channel 1).read = [1, 2] := by
  obtain ⟨s, hrun, hp, hr, hinner, hsent⟩ : ∃ s,
      perform (step 2) shortReadRun (start shortRead) = some s ∧ s.phase 1 = .running (.finish 2) ∧
      s.remains 1 = none ∧ (s.channel 1).inner = none ∧ (s.channel 1).sent = [[1, 2]] :=
    ⟨_, rfl, rfl, rfl, rfl, rfl⟩
  have hs : Reachable (step 2) (start shortRead) s := .of_perform hrun
  have hbytes := (deCompressProcess_runs hs).1 1 (by decide)
  rw [hp, hr, hinner, hsent] at hbytes
  exact ⟨s, hs, hp, by simpa [Phase.got, rest] using hbytes⟩

/-- A chain of two processes in which the second one fails at once. -/
def failing (i : ℕ) : Program :=
  if i = 0 then .write [0] fun n => .finish n else .finish ErrCode.notEnoughMemory.toInt

/-- The run of `failing` in which the second process ends while the first one waits. -/
def failingRun : List Action :=
  [0, 1, 1, 0, 0].map fun i => ⟨i, ⟨.noMoreData, 0⟩⟩

/-- At the end of that run the first process cannot send that there are no more data. -/
lemma perform_failingRun :
    ∃ s, perform (step 2) failingRun (start failing) = some s ∧ s.phase 0 = .ending ∧
      s.phase 1 = .ended ∧ (s.channel 1).inner = some (.dataBuf [0]) :=
  ⟨_, rfl, rfl, rfl, rfl⟩

/-- **A chain can be blocked forever**: a process that ends before it has received a buffer leaves it in the
channel, where there is then no room for the end of the data. -/
theorem not_deCompressProcess_progress :
    ¬∀ (N : ℕ) (program : ℕ → Program) (s : State), Reachable (step N) (start program) s →
      (∃ i < N, ∃ reply t, step N s ⟨i, reply⟩ = some t) ∨ ∀ i < N, s.phase i = .ended := by
  intro h
  obtain ⟨s, hrun, hfirst, hsecond, hinner⟩ := perform_failingRun
  obtain ⟨i, hi, reply, t, ht⟩ | hended := h 2 failing s (.of_perform hrun)
  · obtain ⟨-, hstep⟩ := step_stepped ht
    interval_cases i
    · have hnone := (hstep.of_closed (.inl hfirst)).2.2.2 Nat.one_lt_two
      exact absurd (hinner.symm.trans hnone) (Option.some_ne_none _)
    · exact hstep.ne_ended hsecond
  · have hlast := hended 0 (by decide)
    rw [hfirst] at hlast
    cases hlast

end DArc.Pipeline
