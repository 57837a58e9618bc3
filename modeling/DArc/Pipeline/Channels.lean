import DArc.Pipeline.Stages

/-!
# What holds of the channels of a chain

### Outline

* `Stepped`: everything that one step can do;
* `Fed`: what a process has read, and acknowledged, of the buffers that were sent to it;
* `Phase.writer`, `reader`: a process as a side of the channels between two processes;
* `Sync`: the table of the combinations of the two that a run can reach, with what is in the channels.
-/

namespace DArc.Pipeline

open MultiDecompress (Program)

/-! ## What a step does -/

section

variable (s : State) (i j : ℕ) (p : Phase) (r : Option Remains) (c : Channel) (x : CompressionData)
  (code : Int)

@[simp] lemma goto_phase_self : (s.goto i p).phase i = p := Function.update_self ..

@[simp] lemma goto_remains : (s.goto i p).remains = s.remains := rfl

@[simp] lemma goto_channel : (s.goto i p).channel = s.channel := rfl

@[simp] lemma setRemains_phase : (s.setRemains i r).phase = s.phase := rfl

@[simp] lemma setRemains_remains_self : (s.setRemains i r).remains i = r := Function.update_self ..

@[simp] lemma setRemains_channel : (s.setRemains i r).channel = s.channel := rfl

@[simp] lemma setChannel_phase : (s.setChannel i c).phase = s.phase := rfl

@[simp] lemma setChannel_remains : (s.setChannel i c).remains = s.remains := rfl

@[simp] lemma setChannel_channel_self : (s.setChannel i c).channel i = c := Function.update_self ..

@[simp] lemma sendP_phase : (s.sendP i x).phase = s.phase := rfl

@[simp] lemma sendP_remains : (s.sendP i x).remains = s.remains := rfl

@[simp] lemma sendP_channel_self : (s.sendP i x).channel i =
    { s.channel i with inner := some x, sent := (s.channel i).sent ++ x.bufs } := Function.update_self ..

@[simp] lemma sendBackP_phase : (s.sendBackP i code).phase = s.phase := rfl

@[simp] lemma sendBackP_remains : (s.sendBackP i code).remains = s.remains := rfl

@[simp] lemma sendBackP_channel_self : (s.sendBackP i code).channel i =
    { s.channel i with innerBack := (s.channel i).innerBack ++ [code] } := Function.update_self ..

variable {i j}

lemma goto_phase_of_ne (h : j ≠ i) : (s.goto i p).phase j = s.phase j := Function.update_of_ne h ..

lemma setRemains_remains_of_ne (h : j ≠ i) : (s.setRemains i r).remains j = s.remains j :=
  Function.update_of_ne h ..

lemma setChannel_channel_of_ne (h : j ≠ i) : (s.setChannel i c).channel j = s.channel j :=
  Function.update_of_ne h ..

lemma sendP_channel_of_ne (h : j ≠ i) : (s.sendP i x).channel j = s.channel j :=
  Function.update_of_ne h ..

lemma sendBackP_channel_of_ne (h : j ≠ i) : (s.sendBackP i code).channel j = s.channel j :=
  Function.update_of_ne h ..

end

/-- Everything that one step of the process `i` can do. -/
inductive Stepped (N : ℕ) (s : State) (i : ℕ) : State → Prop
  | finish {ret : Int} (hp : s.phase i = .running (.finish ret)) :
      Stepped N s i ((s.sendBackP i ErrCode.noMoreDataRequired.toInt).goto i .ending)
  | read {size : ℕ} {next : Int → List UInt8 → Program} (hp : s.phase i = .running (.read size next)) :
      Stepped N s i (s.goto i (.reading size [] next))
  | write {buf : List UInt8} {next : Int → Program} (hp : s.phase i = .running (.write buf next))
      (hi : i + 1 < N) (hinner : (s.channel (i + 1)).inner = none) :
      Stepped N s i ((s.sendP (i + 1) (.dataBuf buf)).goto i (.awaiting buf.length next))
  | writeLast {buf : List UInt8} {next : Int → Program} (hp : s.phase i = .running (.write buf next))
      (hi : N ≤ i + 1) : Stepped N s i (s.goto i (.awaiting buf.length next))
  | atEnd {asked : ℕ} {got : List UInt8} {next : Int → List UInt8 → Program}
      (hp : s.phase i = .reading asked got next) (hr : s.remains i = none) :
      Stepped N s i (s.goto i (.returning got next))
  | copy {asked : ℕ} {got : List UInt8} {next : Int → List UInt8 → Program} {r : Remains}
      (hp : s.phase i = .reading asked got next) (hr : s.remains i = some r) (hrest : r.rest ≠ []) :
      Stepped N s i ((s.setRemains i (some (copyData asked got next r).1)).goto i
        (copyData asked got next r).2)
  | receive {asked : ℕ} {got : List UInt8} {next : Int → List UInt8 → Program} {offset : ℕ}
      {x : CompressionData} (hp : s.phase i = .reading asked got next)
      (hr : s.remains i = some { offset, rest := [] }) (hi : 0 < i)
      (hinner : (s.channel i).inner = some x) :
      Stepped N s i (processNextInstruction s i asked got next x)
  | receiveFirst {asked : ℕ} {got : List UInt8} {next : Int → List UInt8 → Program} {offset : ℕ}
      (x : CompressionData) (hp : s.phase i = .reading asked got next)
      (hr : s.remains i = some { offset, rest := [] }) (hi : i = 0) :
      Stepped N s i (processNextInstruction (s.sendP i x) i asked got next x)
  | ack {size asked : ℕ} {got : List UInt8} {next : Int → List UInt8 → Program}
      (hp : s.phase i = .acking size asked got next) :
      Stepped N s i (((s.sendBackP i size).setChannel i { (s.sendBackP i size).channel i with
        acked := (s.channel i).acked ++ [(size : Int)] }).goto i (.reading asked got next))
  | ret {got : List UInt8} {next : Int → List UInt8 → Program} (hp : s.phase i = .returning got next) :
      Stepped N s i ((s.setChannel i { s.channel i with read := (s.channel i).read ++ got }).goto i
        (.running (next got.length got)))
  | wake {size : ℕ} {next : Int → Program} {code : Int} {rest : List Int}
      (hp : s.phase i = .awaiting size next) (hi : i + 1 < N)
      (hback : (s.channel (i + 1)).innerBack = code :: rest) :
      Stepped N s i ((s.setChannel (i + 1) { s.channel (i + 1) with innerBack := rest }).goto i
        (.running (next code)))
  | wakeLast {size : ℕ} {next : Int → Program} (code : Int) (hp : s.phase i = .awaiting size next)
      (hi : N ≤ i + 1) : Stepped N s i (s.goto i (.running (next code)))
  | close (hp : s.phase i = .ending) (hi : i + 1 < N) (hinner : (s.channel (i + 1)).inner = none) :
      Stepped N s i ((s.sendP (i + 1) .noMoreData).goto i .ended)
  | closeLast (hp : s.phase i = .ending) (hi : N ≤ i + 1) : Stepped N s i (s.goto i .ended)

/-- The cases of a read. -/
lemma readData_stepped {N : ℕ} {s t : State} {i asked : ℕ} {reply : Reply} {got : List UInt8}
    {next : Int → List UInt8 → Program} (hp : s.phase i = .reading asked got next)
    (h : readData s i reply asked got next = some t) : Stepped N s i t := by
  unfold readData at h
  cases hr : s.remains i with
  | none =>
    rw [hr] at h
    cases h
    exact .atEnd hp hr
  | some r =>
    rw [hr] at h
    dsimp only at h
    by_cases hrest : 0 < r.rest.length
    · rw [if_pos hrest] at h
      cases h
      exact .copy hp hr (List.length_pos_iff.mp hrest)
    · rw [if_neg hrest] at h
      obtain ⟨offset, rest⟩ := r
      obtain rfl : rest = [] := List.length_eq_zero_iff.mp (Nat.eq_zero_of_not_pos hrest)
      obtain ⟨x, hx, rfl⟩ := Option.map_eq_some_iff.mp h
      by_cases hi : i = 0
      · rw [if_pos hi] at hx ⊢
        subst hi
        rw [sendP_channel_self] at hx
        cases hx
        exact .receiveFirst _ hp hr rfl
      · rw [if_neg hi] at hx ⊢
        exact .receive hp hr (Nat.pos_of_ne_zero hi) hx

/-- The cases of a step. -/
lemma step_stepped {N : ℕ} {s t : State} {a : Action} (h : step N s a = some t) :
    a.i < N ∧ Stepped N s a.i t := by
  unfold step at h
  by_cases hN : N ≤ a.i
  · rw [if_pos hN] at h
    cases h
  refine ⟨not_le.mp hN, ?_⟩
  rw [if_neg hN] at h
  cases hp : s.phase a.i with
  | running p =>
    rw [hp] at h
    cases p with
    | finish ret =>
      cases h
      exact .finish hp
    | read size next =>
      cases h
      exact .read hp
    | write buf next =>
      dsimp only at h
      by_cases hi : a.i + 1 < N
      · rw [if_pos hi] at h
        cases hinner : (s.channel (a.i + 1)).inner with
        | some x =>
          rw [hinner] at h
          cases h
        | none =>
          rw [hinner] at h
          cases h
          exact .write hp hi hinner
      · rw [if_neg hi] at h
        cases h
        exact .writeLast hp (not_lt.mp hi)
  | reading asked got next =>
    rw [hp] at h
    exact readData_stepped hp h
  | acking size asked got next =>
    rw [hp] at h
    cases h
    have hacked : ((s.sendBackP a.i size).channel a.i).acked = (s.channel a.i).acked := by
      rw [sendBackP_channel_self]
    rw [hacked]
    exact .ack hp
  | returning got next =>
    rw [hp] at h
    cases h
    exact .ret hp
  | awaiting size next =>
    rw [hp] at h
    dsimp only at h
    by_cases hi : a.i + 1 < N
    · rw [if_pos hi] at h
      cases hback : (s.channel (a.i + 1)).innerBack with
      | nil =>
        rw [hback] at h
        cases h
      | cons code rest =>
        rw [hback] at h
        cases h
        exact .wake hp hi hback
    · rw [if_neg hi] at h
      cases h
      exact .wakeLast _ hp (not_lt.mp hi)
  | ending =>
    rw [hp] at h
    dsimp only at h
    by_cases hi : a.i + 1 < N
    · rw [if_pos hi] at h
      cases hinner : (s.channel (a.i + 1)).inner with
      | some x =>
        rw [hinner] at h
        cases h
      | none =>
        rw [hinner] at h
        cases h
        exact .close hp hi hinner
    · rw [if_neg hi] at h
      cases h
      exact .closeLast hp (not_lt.mp hi)
  | ended =>
    rw [hp] at h
    cases h

/-! ## What a process has read -/

/-- What the read under way has got. -/
def Phase.got : Phase → List UInt8
  | .reading _ got _ | .acking _ _ got _ | .returning got _ => got
  | _ => []

/-- What is left of the last buffer. -/
def rest : Option Remains → List UInt8
  | none => []
  | some r => r.rest

/-- The size of the buffer of which something is left. -/
def held : Option Remains → Option ℕ
  | none => none
  | some r => if r.rest = [] then none else some (r.offset + r.rest.length)

/-- The size of the buffer that was received and not acknowledged. -/
def Phase.unacked : Phase → Option Remains → Option ℕ
  | .acking size .., _ => some size
  | _, r => held r

/-- Every buffer was acknowledged with its size, but for the last one if its size is given. -/
def Acked (received : List (List UInt8)) (acked : List Int) : Option ℕ → Prop
  | none => acked = received.map fun b => (b.length : Int)
  | some size => ∃ bs b, received = bs ++ [b] ∧ b.length = size ∧
      acked = bs.map fun b => (b.length : Int)

/-- What holds of a process and of the channels in front of it. -/
structure Fed (p : Phase) (r : Option Remains) (c : Channel) : Prop where
  sent : c.sent = c.received ++ c.inner.elim [] CompressionData.bufs
  data : c.read ++ p.got ++ rest r = c.received.flatten
  acks : Acked c.received c.acked (p.unacked r)
  used : ∀ size asked got next, p = .acking size asked got next → ∃ offset, r = some ⟨offset, []⟩

section

variable {p : Phase} {r : Option Remains} {c : Channel} {asked : ℕ} {got : List UInt8}
  {next : Int → List UInt8 → Program}

/-- A process that does not look at its buffer. -/
lemma Fed.goto (h : Fed p r c) {p' : Phase} (hgot : p'.got = p.got)
    (hunacked : p'.unacked r = p.unacked r)
    (hp' : ∀ size asked got next, p' ≠ .acking size asked got next) : Fed p' r c where
  sent := h.sent
  data := by
    rw [hgot]
    exact h.data
  acks := by
    rw [hunacked]
    exact h.acks
  used := fun size asked got next hp => absurd hp (hp' size asked got next)

lemma Fed.setBack (h : Fed p r c) (back : List Int) : Fed p r { c with innerBack := back } :=
  ⟨h.sent, h.data, h.acks, h.used⟩

lemma Fed.sendP (h : Fed p r c) (hinner : c.inner = none) (x : CompressionData) :
    Fed p r { c with inner := some x, sent := c.sent ++ x.bufs } where
  sent := by
    have hsent := h.sent
    rw [hinner, Option.elim_none, List.append_nil] at hsent
    rw [hsent, Option.elim_some]
  data := h.data
  acks := h.acks
  used := h.used

lemma copyData_got (r : Remains) :
    (copyData asked got next r).2.got ++ (copyData asked got next r).1.rest = got ++ r.rest := by
  have hgot : (copyData asked got next r).2.got =
      got ++ r.rest.take (min r.rest.length (asked - got.length)) := by
    dsimp only [copyData]
    split
    · rfl
    · split <;> rfl
  rw [hgot, List.append_assoc]
  exact congrArg _ (List.take_append_drop _ _)

/-- After a part of a buffer was copied, the buffer is used up and about to be acknowledged, or a part of it
is left. -/
lemma copyData_cases (asked : ℕ) (got : List UInt8) (next : Int → List UInt8 → Program) (r : Remains) :
    (copyData asked got next r).1.rest = [] ∧
      (∃ got', (copyData asked got next r).2 = .acking (r.offset + r.rest.length) asked got' next) ∨
    (copyData asked got next r).1.rest ≠ [] ∧
      (copyData asked got next r).1.offset + (copyData asked got next r).1.rest.length =
        r.offset + r.rest.length ∧
      ((∃ got', (copyData asked got next r).2 = .returning got' next) ∨
        ∃ got', (copyData asked got next r).2 = .reading asked got' next) := by
  dsimp only [copyData]
  generalize hlen : min r.rest.length (asked - got.length) = len
  by_cases hall : len = r.rest.length
  · rw [if_pos hall]
    refine .inl ⟨?_, _, rfl⟩
    rw [hall, List.drop_length]
  · rw [if_neg hall]
    refine .inr ⟨?_, ?_, ?_⟩
    · intro hnil
      have hle := List.drop_eq_nil_iff.mp hnil
      omega
    · rw [List.length_drop]
      omega
    · split
      · exact .inl ⟨_, rfl⟩
      · exact .inr ⟨_, rfl⟩

lemma copyData_unacked (r : Remains) :
    (copyData asked got next r).2.unacked (some (copyData asked got next r).1) =
      some (r.offset + r.rest.length) := by
  obtain ⟨hrest, got', hp⟩ | ⟨hrest, hlen, ⟨got', hp⟩ | ⟨got', hp⟩⟩ :=
    copyData_cases asked got next r
  · rw [hp]
    rfl
  · rw [hp]
    exact (if_neg hrest).trans (congrArg some hlen)
  · rw [hp]
    exact (if_neg hrest).trans (congrArg some hlen)

lemma copyData_used (r : Remains) (size asked' : ℕ) (got' : List UInt8)
    (next' : Int → List UInt8 → Program)
    (h : (copyData asked got next r).2 = .acking size asked' got' next') :
    ∃ offset, some (copyData asked got next r).1 = some ⟨offset, []⟩ := by
  obtain ⟨hrest, -⟩ | ⟨-, -, ⟨_, hp⟩ | ⟨_, hp⟩⟩ :=
    copyData_cases asked got next r
  · exact ⟨_, by rw [← hrest]⟩
  · rw [hp] at h
    cases h
  · rw [hp] at h
    cases h

lemma Fed.copy {r : Remains} (h : Fed (.reading asked got next) (some r) c) (hrest : r.rest ≠ []) :
    Fed (copyData asked got next r).2 (some (copyData asked got next r).1) c where
  sent := h.sent
  data := by
    rw [List.append_assoc]
    refine Eq.trans ?_ h.data
    rw [List.append_assoc]
    exact congrArg _ (copyData_got r)
  acks := by
    have hacks := h.acks
    rw [show (Phase.reading asked got next).unacked (some r) = some (r.offset + r.rest.length)
      from if_neg hrest] at hacks
    rw [copyData_unacked]
    exact hacks
  used := copyData_used r

lemma Fed.receive {offset : ℕ} {buf : List UInt8}
    (h : Fed (.reading asked got next) (some ⟨offset, []⟩) c) (hinner : c.inner = some (.dataBuf buf)) :
    Fed (copyData asked got next ⟨0, buf⟩).2 (some (copyData asked got next ⟨0, buf⟩).1)
      { c with inner := none, received := c.received ++ [buf] } where
  sent := by
    have hsent := h.sent
    rw [hinner] at hsent
    rw [Option.elim_none, List.append_nil]
    exact hsent
  data := by
    have hdata : c.read ++ got ++ [] = c.received.flatten := h.data
    rw [List.append_nil] at hdata
    rw [List.flatten_append, ← hdata, List.flatten_singleton, List.append_assoc, List.append_assoc]
    exact congrArg _ (copyData_got ⟨0, buf⟩)
  acks := by
    rw [copyData_unacked]
    exact ⟨c.received, buf, rfl, (Nat.zero_add _).symm, h.acks⟩
  used := copyData_used ⟨0, buf⟩

lemma Fed.noMore {offset : ℕ} (h : Fed (.reading asked got next) (some ⟨offset, []⟩) c)
    (hinner : c.inner = some .noMoreData) :
    Fed (.returning got next) none { c with inner := none } where
  sent := by
    have hsent := h.sent
    rw [hinner] at hsent
    exact hsent
  data := h.data
  acks := h.acks
  used := fun _ _ _ _ hp => by cases hp

lemma Fed.ack {size : ℕ} (h : Fed (.acking size asked got next) r c) :
    Fed (.reading asked got next) r { c with acked := c.acked ++ [(size : Int)] } where
  sent := h.sent
  data := h.data
  acks := by
    obtain ⟨offset, rfl⟩ := h.used _ _ _ _ rfl
    obtain ⟨bs, b, hreceived, hlen, hacked⟩ := h.acks
    change c.acked ++ [(size : Int)] = c.received.map _
    rw [hacked, hreceived, List.map_append, ← hlen]
    rfl
  used := fun _ _ _ _ hp => by cases hp

lemma Fed.ret (h : Fed (.returning got next) r c) :
    Fed (.running (next got.length got)) r { c with read := c.read ++ got } where
  sent := h.sent
  data := by
    have hdata : c.read ++ got ++ rest r = c.received.flatten := h.data
    rw [← hdata]
    exact congrArg (· ++ rest r) (List.append_nil _)
  acks := h.acks
  used := fun _ _ _ _ hp => by cases hp

end

/-! ## The table of the channels -/

/-- A process as the writer of the channels behind it. -/
inductive Writer
  | busy
  | awaiting (size : ℕ)
  | ending
  | ended

/-- A process as the reader of the channels in front of it. -/
inductive Reader
  /-- Has nothing to acknowledge, and is not in a read. -/
  | fresh
  /-- Waits for the next buffer. -/
  | waiting
  /-- Has a buffer to acknowledge. -/
  | holding (size : ℕ)
  /-- Has seen the end of the data. -/
  | drained
  /-- Has told the writer that no more data are required. -/
  | closed

/-- The process as a writer. -/
def Phase.writer : Phase → Writer
  | .awaiting size _ => .awaiting size
  | .ending => .ending
  | .ended => .ended
  | _ => .busy

/-- A reader with a rest, where `idle` is what it is when nothing is left. -/
def kept (idle : Reader) : Option Remains → Reader
  | none => .drained
  | some r => if r.rest = [] then idle else .holding (r.offset + r.rest.length)

/-- The process as a reader. -/
def Phase.reader : Phase → Option Remains → Reader
  | .ending, _ | .ended, _ => .closed
  | .acking size .., _ => .holding size
  | .reading .., r => kept .waiting r
  | _, r => kept .fresh r

/-- A buffer of this size was sent and not received. -/
def Offered (size : ℕ) (inner : Option CompressionData) : Prop :=
  ∃ b, inner = some (.dataBuf b) ∧ b.length = size

/-- What a run can reach in the channels between two processes, by where the two are. -/
def Sync (inner : Option CompressionData) (back : List Int) : Writer → Reader → Prop
  | .busy, .fresh | .busy, .waiting | .ending, .fresh | .ending, .waiting => inner = none ∧ back = []
  | .busy, .closed | .awaiting _, .closed | .ending, .closed =>
    ∀ code ∈ back, code = ErrCode.noMoreDataRequired.toInt
  | .awaiting size, .fresh => Offered size inner ∧ back = []
  | .awaiting size, .waiting =>
    Offered size inner ∧ back = [] ∨ inner = none ∧ back = [(size : Int)]
  | .awaiting size, .holding size' => inner = none ∧ back = [] ∧ size' = size
  | .ended, .fresh | .ended, .waiting => inner = some .noMoreData ∧ back = []
  | .ended, .drained => inner = none
  | .ended, .closed => True
  | _, _ => False

/-- No buffer is left in front of a reader that has closed, and a writer that waits has its answer. -/
def Clear (inner : Option CompressionData) (back : List Int) : Writer → Reader → Prop
  | .busy, .closed | .ending, .closed => inner = none
  | .awaiting _, .closed => inner = none ∧ back ≠ []
  | _, _ => True

section

variable {inner : Option CompressionData} {back : List Int} {w : Writer} {r : Reader}

/-! ### What the writer does -/

lemma Sync.write (h : Sync inner back .busy r) (buf : List UInt8) :
    Sync (some (.dataBuf buf)) back (.awaiting buf.length) r := by
  have hoffered : Offered buf.length (some (.dataBuf buf)) := ⟨buf, rfl, rfl⟩
  cases r with
  | fresh => exact ⟨hoffered, h.2⟩
  | waiting => exact .inl ⟨hoffered, h.2⟩
  | closed => exact h
  | holding | drained => exact h.elim

lemma Sync.wake {size : ℕ} {code : Int} {back : List Int}
    (h : Sync inner (code :: back) (.awaiting size) r) : Sync inner back .busy r := by
  cases r with
  | fresh => cases h.2
  | waiting =>
    obtain h | ⟨hinner, hback⟩ := h
    · cases h.2
    · exact ⟨hinner, (List.cons.inj hback).2⟩
  | holding => cases h.2.1
  | drained => exact h.elim
  | closed => exact fun c hc => h c (List.mem_cons_of_mem _ hc)

lemma Sync.toEnding (h : Sync inner back .busy r) : Sync inner back .ending r := by
  cases r <;> exact h

lemma Sync.close (h : Sync inner back .ending r) : Sync (some .noMoreData) back .ended r := by
  cases r with
  | fresh | waiting => exact ⟨rfl, h.2⟩
  | closed => trivial
  | holding | drained => exact h.elim

lemma Clear.wake {size : ℕ} {code : Int} {back : List Int}
    (h : Clear inner (code :: back) (.awaiting size) r) : Clear inner back .busy r := by
  cases r with
  | closed => exact h.1
  | fresh | waiting | holding | drained => trivial

lemma Clear.toEnding (h : Clear inner back .busy r) : Clear inner back .ending r := by
  cases r <;> exact h

/-! ### What the reader does -/

lemma Sync.read {r : Option Remains} (h : Sync inner back w (kept .fresh r)) :
    Sync inner back w (kept .waiting r) := by
  cases r with
  | none => exact h
  | some r =>
    by_cases hrest : r.rest = []
    · have hfresh : kept .fresh (some r) = .fresh := if_pos hrest
      have hwaiting : kept .waiting (some r) = .waiting := if_pos hrest
      rw [hfresh] at h
      rw [hwaiting]
      cases w with
      | busy | ending | ended => exact h
      | awaiting => exact .inl h
    · have hsame : kept .fresh (some r) = kept .waiting (some r) :=
        (if_neg hrest).trans (if_neg hrest).symm
      rw [← hsame]
      exact h

lemma Sync.receive {buf : List UInt8} (h : Sync (some (.dataBuf buf)) back w .waiting) :
    Sync none back w (.holding buf.length) := by
  cases w with
  | awaiting =>
    obtain ⟨⟨b, hb, hlen⟩, hback⟩ | ⟨hinner, -⟩ := h
    · cases hb
      exact ⟨rfl, hback, hlen⟩
    · cases hinner
  | busy | ending | ended => cases h.1

lemma Sync.noMore (h : Sync (some .noMoreData) back w .waiting) : Sync none back w .drained := by
  cases w with
  | awaiting =>
    obtain ⟨⟨b, hb, -⟩, -⟩ | ⟨hinner, -⟩ := h
    · cases hb
    · cases hinner
  | ended => rfl
  | busy | ending => cases h.1

lemma Sync.ack {size : ℕ} (h : Sync inner back w (.holding size)) :
    Sync inner (back ++ [(size : Int)]) w .waiting := by
  cases w with
  | awaiting =>
    obtain ⟨hinner, rfl, rfl⟩ := h
    exact .inr ⟨hinner, rfl⟩
  | busy | ending | ended => exact h.elim

lemma Sync.finish (h : Sync inner back w r) (hwaiting : r ≠ .waiting) (hclosed : r ≠ .closed) :
    Sync inner (back ++ [ErrCode.noMoreDataRequired.toInt]) w .closed := by
  have hnil (hback : back = []) (code : Int)
      (hcode : code ∈ back ++ [ErrCode.noMoreDataRequired.toInt]) :
      code = ErrCode.noMoreDataRequired.toInt := by
    rw [hback] at hcode
    exact List.mem_singleton.mp hcode
  cases r with
  | fresh =>
    cases w with
    | busy | awaiting | ending => exact hnil h.2
    | ended => trivial
  | holding =>
    cases w with
    | awaiting => exact hnil h.2.1
    | busy | ending => exact h.elim
    | ended => trivial
  | drained =>
    cases w with
    | ended => trivial
    | busy | awaiting | ending => exact h.elim
  | waiting => exact absurd rfl hwaiting
  | closed => exact absurd rfl hclosed

lemma Sync.clear_finish (h : Sync inner back w r) (hwaiting : r ≠ .waiting) (hclosed : r ≠ .closed)
    (hkept : ∀ buf, inner ≠ some (.dataBuf buf)) (code : Int) :
    Clear inner (back ++ [code]) w .closed := by
  have hne : back ++ [code] ≠ [] := List.append_ne_nil_of_right_ne_nil _ (List.cons_ne_nil _ _)
  cases r with
  | fresh =>
    cases w with
    | busy | ending => exact h.1
    | awaiting =>
      obtain ⟨⟨b, hb, -⟩, -⟩ := h
      exact absurd hb (hkept b)
    | ended => trivial
  | holding =>
    cases w with
    | awaiting => exact ⟨h.1, hne⟩
    | busy | ending => exact h.elim
    | ended => trivial
  | drained =>
    cases w with
    | ended => trivial
    | busy | awaiting | ending => exact h.elim
  | waiting => exact absurd rfl hwaiting
  | closed => exact absurd rfl hclosed

lemma clear_of_ne_closed (h : r ≠ .closed) : Clear inner back w r := by
  cases r with
  | closed => exact absurd rfl h
  | fresh | waiting | holding | drained => cases w <;> trivial

end

/-- After a part of a buffer was copied, the reader has to acknowledge the buffer. -/
lemma copyData_reader {asked : ℕ} {got : List UInt8} {next : Int → List UInt8 → Program} (r : Remains) :
    (copyData asked got next r).2.reader (some (copyData asked got next r).1) =
      .holding (r.offset + r.rest.length) := by
  obtain ⟨hrest, got', hp⟩ | ⟨hrest, hlen, ⟨got', hp⟩ | ⟨got', hp⟩⟩ :=
    copyData_cases asked got next r
  · rw [hp]
    rfl
  · rw [hp]
    exact (if_neg hrest).trans (congrArg Reader.holding hlen)
  · rw [hp]
    exact (if_neg hrest).trans (congrArg Reader.holding hlen)

end DArc.Pipeline
