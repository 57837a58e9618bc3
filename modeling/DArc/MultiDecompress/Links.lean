import DArc.MultiDecompress.Stages

/-!
# What holds of the links of a chain

A link is seen from two sides: the thread in front writes to it, and the thread behind reads.  The table
`LinkInv` has the combinations of the two that a run can reach, with the semaphores and the data in each.

### Outline

* `Stepped`: everything that one step can do;
* `Phase.writer`, `Phase.reader`: a thread as a side of a link;
* `LinkInv`: the table, with one lemma for each thing that the writer or the reader does.
-/

namespace DArc.MultiDecompress

/-! ## What a step does -/

section

variable (s : State) (i j : ℕ) (p : Phase) (l : Link)

@[simp] lemma goto_phase_self : (s.goto i p).phase i = p := Function.update_self ..

@[simp] lemma goto_link : (s.goto i p).link = s.link := rfl

@[simp] lemma goto_retcode : (s.goto i p).retcode = s.retcode := rfl

@[simp] lemma goto_ret : (s.goto i p).ret = s.ret := rfl

@[simp] lemma setLink_phase : (s.setLink i l).phase = s.phase := rfl

@[simp] lemma setLink_link_self : (s.setLink i l).link i = l := Function.update_self ..

@[simp] lemma setLink_retcode : (s.setLink i l).retcode = s.retcode := rfl

@[simp] lemma setLink_ret : (s.setLink i l).ret = s.ret := rfl

@[simp] lemma setExitCode_phase (code : Int) : (s.setExitCode code).phase = s.phase := rfl

@[simp] lemma setExitCode_link (code : Int) : (s.setExitCode code).link = s.link := rfl

@[simp] lemma setExitCode_ret (code : Int) : (s.setExitCode code).ret = s.ret := rfl

variable {i j}

lemma goto_phase_of_ne (h : j ≠ i) : (s.goto i p).phase j = s.phase j := Function.update_of_ne h ..

lemma setLink_link_of_ne (h : j ≠ i) : (s.setLink i l).link j = s.link j := Function.update_of_ne h ..

end

/-- Everything that one step of the thread `i` can do. -/
inductive Stepped (N : ℕ) (s : State) (i : ℕ) : State → Prop
  | enter {p : Program} (hp : s.phase i = .waiting p) (hread : (s.link (i - 1)).read = true) :
      Stepped N s i
        ((s.setLink (i - 1) { s.link (i - 1) with read := false }).goto i (.entered p))
  | begin {p : Program} (hp : s.phase i = .entered p) :
      Stepped N s i ((s.setLink (i - 1) { s.link (i - 1) with read := true }).goto i (.running p))
  | finish {ret : Int} (hp : s.phase i = .running (.finish ret)) :
      Stepped N s i ((if ret < 0 then
        State.setExitCode { s with ret := Function.update s.ret i (some ret) } ret
        else { s with ret := Function.update s.ret i (some ret) }).goto i .closePrev)
  | write {buf : List UInt8} {next : Int → Program} (hp : s.phase i = .running (.write buf next))
      (hi : i + 1 < N) :
      Stepped N s i ((s.setLink i { s.link i with
        buf, size := buf.length, written := (s.link i).written ++ buf }).goto i
          (.offering buf.length next))
  | writeLast {buf : List UInt8} {next : Int → Program} (code : Int)
      (hp : s.phase i = .running (.write buf next)) (hi : N ≤ i + 1) :
      Stepped N s i (s.goto i (.running (next code)))
  | read {size : ℕ} {next : Int → List UInt8 → Program} (hp : s.phase i = .running (.read size next))
      (hi : 0 < i) : Stepped N s i (s.goto i (.locking size [] next))
  | readFirst {size : ℕ} {next : Int → List UInt8 → Program} (code : Int) (data : List UInt8)
      (hp : s.phase i = .running (.read size next)) (hi : i = 0) :
      Stepped N s i (s.goto i (.running (next code data)))
  | offer {size : ℕ} {next : Int → Program} (hp : s.phase i = .offering size next) :
      Stepped N s i ((s.setLink i { s.link i with read := true }).goto i (.awaiting size next))
  | wake {size : ℕ} {next : Int → Program} (hp : s.phase i = .awaiting size next)
      (hwrite : (s.link i).write = true) :
      Stepped N s i ((s.setLink i { s.link i with write := false }).goto i (.woken size next))
  | accepted {size : ℕ} {next : Int → Program} (hp : s.phase i = .woken size next)
      (hsize : 0 ≤ (s.link i).size) : Stepped N s i (s.goto i (.running (next size)))
  | refused {size : ℕ} {next : Int → Program} (hp : s.phase i = .woken size next)
      (hsize : (s.link i).size < 0) :
      Stepped N s i (s.goto i (.running (next ErrCode.noMoreDataRequired.toInt)))
  | lock {asked : ℕ} {got : List UInt8} {next : Int → List UInt8 → Program}
      (hp : s.phase i = .locking asked got next) (hread : (s.link (i - 1)).read = true) :
      Stepped N s i
        ((s.setLink (i - 1) { s.link (i - 1) with read := false }).goto i (.testing asked got next))
  | noMore {asked : ℕ} {got : List UInt8} {next : Int → List UInt8 → Program}
      (hp : s.phase i = .testing asked got next) (hsize : (s.link (i - 1)).size < 0) :
      Stepped N s i (s.goto i (.unlocking asked got next))
  | copy {asked : ℕ} {got : List UInt8} {next : Int → List UInt8 → Program}
      (hp : s.phase i = .testing asked got next)
      (hsize : ((asked - got.length : ℕ) : Int) ≤ (s.link (i - 1)).size) :
      Stepped N s i ((s.setLink (i - 1) { s.link (i - 1) with
        buf := (s.link (i - 1)).buf.drop (asked - got.length)
        size := (s.link (i - 1)).size - (asked - got.length : ℕ) }).goto i
          (.unlocking asked (got ++ (s.link (i - 1)).buf.take (asked - got.length)) next))
  | copyAll {asked : ℕ} {got : List UInt8} {next : Int → List UInt8 → Program}
      (hp : s.phase i = .testing asked got next) (hsize : 0 ≤ (s.link (i - 1)).size)
      (hmore : (s.link (i - 1)).size < (asked - got.length : ℕ)) :
      Stepped N s i (s.goto i
        (.handing asked (got ++ (s.link (i - 1)).buf.take (s.link (i - 1)).size.toNat) next))
  | unlock {asked : ℕ} {got : List UInt8} {next : Int → List UInt8 → Program}
      (hp : s.phase i = .unlocking asked got next) :
      Stepped N s i ((s.setLink (i - 1) { s.link (i - 1) with
        read := true, delivered := (s.link (i - 1)).delivered ++ got }).goto i
          (.running (next got.length got)))
  | hand {asked : ℕ} {got : List UInt8} {next : Int → List UInt8 → Program}
      (hp : s.phase i = .handing asked got next) :
      Stepped N s i
        ((s.setLink (i - 1) { s.link (i - 1) with write := true }).goto i (.locking asked got next))
  | refuse (hp : s.phase i = .closePrev) (hi : 0 < i) :
      Stepped N s i ((s.setLink (i - 1) { s.link (i - 1) with size := -1 }).goto i .wakePrev)
  | closeFirst (hp : s.phase i = .closePrev) (hi : i = 0) : Stepped N s i (s.goto i .closeNext)
  | wakePrev (hp : s.phase i = .wakePrev) :
      Stepped N s i ((s.setLink (i - 1) { s.link (i - 1) with write := true }).goto i .closeNext)
  | close (hp : s.phase i = .closeNext) (hi : i + 1 < N) :
      Stepped N s i ((s.setLink i { s.link i with size := -1 }).goto i .wakeNext)
  | closeLast (hp : s.phase i = .closeNext) (hi : N ≤ i + 1) :
      Stepped N s i ((s.setExitCode 0).goto i .ended)
  | wakeNext (hp : s.phase i = .wakeNext) :
      Stepped N s i ((s.setLink i { s.link i with read := true }).goto i .ended)

/-- The cases of a step. -/
lemma step_stepped {N : ℕ} {s t : State} {a : Action} (h : step N s a = some t) :
    a.i < N ∧ Stepped N s a.i t := by
  unfold step at h
  by_cases hN : N ≤ a.i
  · rw [if_pos hN] at h
    cases h
  refine ⟨not_le.mp hN, ?_⟩
  rw [if_neg hN] at h
  dsimp only at h
  cases hp : s.phase a.i with
  | waiting p =>
    rw [hp] at h
    dsimp only at h
    by_cases hread : (s.link (a.i - 1)).read = true
    · rw [if_pos hread] at h
      cases h
      exact .enter hp hread
    · rw [if_neg hread] at h
      cases h
  | entered p =>
    rw [hp] at h
    cases h
    exact .begin hp
  | running p =>
    rw [hp] at h
    cases h
    cases p with
    | finish ret => exact .finish hp
    | write buf next =>
      dsimp only [stepRunning]
      by_cases hi : a.i + 1 < N
      · rw [if_pos hi]
        exact .write hp hi
      · rw [if_neg hi]
        exact .writeLast _ hp (not_lt.mp hi)
    | read size next =>
      dsimp only [stepRunning]
      by_cases hi : 0 < a.i
      · rw [if_pos hi]
        exact .read hp hi
      · rw [if_neg hi]
        exact .readFirst _ _ hp (Nat.eq_zero_of_not_pos hi)
  | offering size next =>
    rw [hp] at h
    cases h
    exact .offer hp
  | awaiting size next =>
    rw [hp] at h
    dsimp only at h
    by_cases hwrite : (s.link a.i).write = true
    · rw [if_pos hwrite] at h
      cases h
      exact .wake hp hwrite
    · rw [if_neg hwrite] at h
      cases h
  | woken size next =>
    rw [hp] at h
    dsimp only at h
    by_cases hsize : (s.link a.i).size < 0
    · rw [if_pos hsize] at h
      cases h
      exact .refused hp hsize
    · rw [if_neg hsize] at h
      cases h
      exact .accepted hp (not_lt.mp hsize)
  | locking asked got next =>
    rw [hp] at h
    dsimp only at h
    by_cases hread : (s.link (a.i - 1)).read = true
    · rw [if_pos hread] at h
      cases h
      exact .lock hp hread
    · rw [if_neg hread] at h
      cases h
  | testing asked got next =>
    rw [hp] at h
    dsimp only [stepTesting] at h
    by_cases hneg : (s.link (a.i - 1)).size < 0
    · rw [if_pos hneg] at h
      cases h
      exact .noMore hp hneg
    · rw [if_neg hneg] at h
      by_cases hsize : ((asked - got.length : ℕ) : Int) ≤ (s.link (a.i - 1)).size
      · rw [if_pos hsize] at h
        cases h
        exact .copy hp hsize
      · rw [if_neg hsize] at h
        cases h
        exact .copyAll hp (not_lt.mp hneg) (not_le.mp hsize)
  | unlocking asked got next =>
    rw [hp] at h
    cases h
    exact .unlock hp
  | handing asked got next =>
    rw [hp] at h
    cases h
    exact .hand hp
  | closePrev =>
    rw [hp] at h
    dsimp only at h
    by_cases hi : 0 < a.i
    · rw [if_pos hi] at h
      cases h
      exact .refuse hp hi
    · rw [if_neg hi] at h
      cases h
      exact .closeFirst hp (Nat.eq_zero_of_not_pos hi)
  | wakePrev =>
    rw [hp] at h
    cases h
    exact .wakePrev hp
  | closeNext =>
    rw [hp] at h
    dsimp only at h
    by_cases hi : a.i + 1 < N
    · rw [if_pos hi] at h
      cases h
      exact .close hp hi
    · rw [if_neg hi] at h
      cases h
      exact .closeLast hp (not_lt.mp hi)
  | wakeNext =>
    rw [hp] at h
    cases h
    exact .wakeNext hp
  | ended =>
    rw [hp] at h
    cases h

/-! ## A thread as a side of a link -/

/-- A thread as the writer of the link behind it. -/
inductive Writer
  /-- Not in a write. -/
  | idle
  | offering
  | awaiting
  | woken
  /-- Has said that no more data will come, and not yet waked the reader. -/
  | waking
  | closed

/-- A thread as the reader of the link in front of it; `got` is what the read under way has got. -/
inductive Reader
  /-- Waits for the permission to read. -/
  | waiting (got : List UInt8)
  /-- Has the permission to read. -/
  | holding (got : List UInt8)
  | handing (got : List UInt8)
  /-- Not in a read. -/
  | busy
  /-- Has said that no more data are required, and not yet waked the writer. -/
  | waking
  | gone

/-- The thread as a writer. -/
def Phase.writer : Phase → Writer
  | .offering .. => .offering
  | .awaiting .. => .awaiting
  | .woken .. => .woken
  | .wakeNext => .waking
  | .ended => .closed
  | _ => .idle

/-- The thread as a reader. -/
def Phase.reader : Phase → Reader
  | .waiting _ => .waiting []
  | .locking _ got _ => .waiting got
  | .entered _ => .holding []
  | .testing _ got _ => .holding got
  | .unlocking _ got _ => .holding got
  | .handing _ got _ => .handing got
  | .wakePrev => .waking
  | .closeNext | .wakeNext | .ended => .gone
  | _ => .busy

/-- The thread does not write any more. -/
def Phase.Quiet : Phase → Prop
  | .waiting p | .entered p | .running p => p.Quiet
  | .locking _ _ next | .testing _ _ next | .unlocking _ _ next | .handing _ _ next =>
    ∀ n data, (next n data).Quiet
  | .offering .. | .awaiting .. | .woken .. => False
  | _ => True

/-- The thread `i` of `N` is in a phase that it can be in: only a thread behind another one reads, and only
one in front of another one writes; a read has not got more than it asked for, and the rest of the program
stops writing when a write returns a negative code. -/
def Phase.Fits (N i : ℕ) : Phase → Prop
  | .waiting p | .entered p => 0 < i ∧ p.Obedient
  | .running p => p.Obedient
  | .locking asked got next | .testing asked got next | .unlocking asked got next
  | .handing asked got next => 0 < i ∧ got.length ≤ asked ∧ ∀ n data, (next n data).Obedient
  | .offering _ next | .awaiting _ next | .woken _ next =>
    i + 1 < N ∧ (∀ n, (next n).Obedient) ∧ ∀ n < 0, (next n).Quiet
  | .wakePrev => 0 < i
  | .wakeNext => i + 1 < N
  | _ => True

/-! ## The table of a link -/

/-- Everything that was written has been read. -/
def Link.Empty (l : Link) (got : List UInt8) : Prop :=
  0 ≤ l.size ∧ l.written = l.delivered ++ got

/-- The rest of the last write is in the buffer. -/
def Link.Pending (l : Link) (got : List UInt8) : Prop :=
  l.size = l.buf.length ∧ l.written = l.delivered ++ got ++ l.buf

/-- The writer has ended, and everything that it wrote has been read. -/
def Link.Ended (l : Link) (got : List UInt8) : Prop :=
  l.size < 0 ∧ l.written = l.delivered ++ got

/-- The reader has ended. -/
def Link.Refused (l : Link) : Prop :=
  l.size < 0 ∧ l.delivered <+: l.written

/-- What a run can reach on a link, by where its two sides are; `quiet` says that the writer does not write
any more. -/
def LinkInv (quiet : Prop) (l : Link) : Writer → Reader → Prop
  | .idle, .waiting got => l.read = false ∧ l.write = false ∧ l.Empty got
  | .idle, .gone => l.Refused ∧ quiet
  | .offering, .waiting got => l.read = false ∧ l.write = false ∧ l.Pending got
  | .awaiting, .waiting got =>
    l.read = true ∧ l.write = false ∧ l.Pending got ∨ l.read = false ∧ l.write = true ∧ l.Empty got
  | .awaiting, .holding got => l.read = false ∧ l.write = false ∧ l.Pending got
  | .awaiting, .handing got => l.read = false ∧ l.write = false ∧ l.Empty got
  | .awaiting, .busy => l.read = true ∧ l.write = false ∧ l.Pending []
  | .awaiting, .waking => l.write = false ∧ l.Refused
  | .awaiting, .gone => l.write = true ∧ l.Refused
  | .woken, .waiting got => l.read = false ∧ l.write = false ∧ l.Empty got
  | .woken, .gone => l.Refused
  | .waking, .waiting got => l.read = false ∧ l.Ended got
  | .waking, .gone => l.Refused
  | .closed, .waiting got => l.read = true ∧ l.Ended got
  | .closed, .holding got => l.read = false ∧ l.Ended got
  | .closed, .busy => l.read = true ∧ l.Ended []
  | .closed, .waking => l.Refused
  | .closed, .gone => l.Refused
  | _, _ => False

section

variable {quiet : Prop} {l : Link} {w : Writer} {r : Reader}

/-- What was delivered is a prefix of what was written. -/
lemma LinkInv.fifo (h : LinkInv quiet l w r) : l.delivered <+: l.written := by
  have hempty {got : List UInt8} (h : l.Empty got) : l.delivered <+: l.written := ⟨got, h.2.symm⟩
  have hpending {got : List UInt8} (h : l.Pending got) : l.delivered <+: l.written :=
    ⟨got ++ l.buf, by rw [← List.append_assoc, h.2]⟩
  have hended {got : List UInt8} (h : l.Ended got) : l.delivered <+: l.written := ⟨got, h.2.symm⟩
  cases w <;> cases r <;> first
    | exact h.elim
    | exact hempty h.2.2
    | exact hpending h.2.2
    | exact hended h.2
    | exact h.2
    | exact h.1.2
    | exact h.2.2
    | exact h.elim (fun h => hpending h.2.2) fun h => hempty h.2.2

/-- The table with a weaker promise of the writer. -/
lemma LinkInv.mono {quiet' : Prop} (h : LinkInv quiet l w r) (hquiet : quiet → quiet') :
    LinkInv quiet' l w r := by
  cases w with
  | idle =>
    cases r with
    | gone => exact ⟨h.1, hquiet h.2⟩
    | _ => exact h
  | _ => cases r <;> exact h

/-! ### What the writer does -/

lemma LinkInv.write (h : LinkInv quiet l .idle r) (hquiet : ¬quiet) (buf : List UInt8) :
    LinkInv False { l with buf, size := buf.length, written := l.written ++ buf } .offering r := by
  cases r with
  | waiting got => exact ⟨h.1, h.2.1, rfl, by rw [h.2.2.2]⟩
  | gone => exact (hquiet h.2).elim
  | holding | handing | busy | waking => exact h

lemma LinkInv.offer (h : LinkInv quiet l .offering r) :
    LinkInv False { l with read := true } .awaiting r := by
  cases r with
  | waiting got => exact .inl ⟨rfl, h.2⟩
  | holding | handing | busy | waking | gone => exact h.elim

lemma LinkInv.wake (h : LinkInv quiet l .awaiting r) (hwrite : l.write = true) :
    LinkInv False { l with write := false } .woken r := by
  cases r with
  | waiting got =>
    obtain h | h := h
    · rw [h.2.1] at hwrite
      cases hwrite
    · exact ⟨h.1, rfl, h.2.2⟩
  | gone => exact h.2
  | holding | handing | busy => rw [h.2.1] at hwrite; cases hwrite
  | waking => rw [h.1] at hwrite; cases hwrite

lemma LinkInv.accepted (h : LinkInv quiet l .woken r) (hsize : 0 ≤ l.size) {quiet' : Prop} :
    LinkInv quiet' l .idle r := by
  cases r with
  | waiting got => exact h
  | gone => exact absurd h.1 (not_lt.mpr hsize)
  | holding | handing | busy | waking => exact h.elim

lemma LinkInv.refused (h : LinkInv quiet l .woken r) (hsize : l.size < 0) {quiet' : Prop}
    (hquiet : quiet') : LinkInv quiet' l .idle r := by
  cases r with
  | waiting got => exact absurd hsize (not_lt.mpr h.2.2.1)
  | gone => exact ⟨h, hquiet⟩
  | holding | handing | busy | waking => exact h.elim

lemma LinkInv.close (h : LinkInv quiet l .idle r) {quiet' : Prop} :
    LinkInv quiet' { l with size := -1 } .waking r := by
  cases r with
  | waiting got => exact ⟨h.1, neg_one_lt_zero, h.2.2.2⟩
  | gone => exact ⟨neg_one_lt_zero, h.1.2⟩
  | holding | handing | busy | waking => exact h.elim

lemma LinkInv.wakeNext (h : LinkInv quiet l .waking r) {quiet' : Prop} :
    LinkInv quiet' { l with read := true } .closed r := by
  cases r with
  | waiting got => exact ⟨rfl, h.2⟩
  | gone => exact h
  | holding | handing | busy | waking => exact h.elim

/-! ### What the reader does -/

lemma LinkInv.lock {got : List UInt8} (h : LinkInv quiet l w (.waiting got)) (hread : l.read = true) :
    LinkInv quiet { l with read := false } w (.holding got) := by
  cases w with
  | awaiting =>
    obtain h | h := h
    · exact ⟨rfl, h.2⟩
    · rw [h.1] at hread
      cases hread
  | closed => exact ⟨rfl, h.2⟩
  | idle | offering | woken | waking => rw [h.1] at hread; cases hread

lemma LinkInv.unlock {got : List UInt8} (h : LinkInv quiet l w (.holding got)) :
    LinkInv quiet { l with read := true, delivered := l.delivered ++ got } w .busy := by
  cases w with
  | awaiting => exact ⟨rfl, h.2.1, h.2.2.1, by simpa using h.2.2.2⟩
  | closed => exact ⟨rfl, h.2.1, by simpa using h.2.2⟩
  | idle | offering | woken | waking => exact h.elim

lemma LinkInv.copy {got : List UInt8} (h : LinkInv quiet l w (.holding got)) (size : ℕ)
    (hsize : (size : Int) ≤ l.size) :
    LinkInv quiet { l with buf := l.buf.drop size, size := l.size - size } w
      (.holding (got ++ l.buf.take size)) := by
  cases w with
  | awaiting =>
    obtain ⟨hread, hwrite, hlen, hdata⟩ := h
    have hle : size ≤ l.buf.length := by omega
    refine ⟨hread, hwrite, ?_, ?_⟩
    · simp only [List.length_drop]
      omega
    · simpa using hdata
  | closed =>
    have hneg : l.size < 0 := h.2.1
    omega
  | idle | offering | woken | waking => exact h.elim

lemma LinkInv.copyAll {got : List UInt8} (h : LinkInv quiet l w (.holding got)) (hsize : 0 ≤ l.size) :
    LinkInv quiet l w (.handing (got ++ l.buf.take l.size.toNat)) := by
  cases w with
  | awaiting =>
    obtain ⟨hread, hwrite, hlen, hdata⟩ := h
    refine ⟨hread, hwrite, hsize, ?_⟩
    rw [hlen, Int.toNat_natCast, List.take_length, ← List.append_assoc, hdata]
  | closed => exact absurd h.2.1 (not_lt.mpr hsize)
  | idle | offering | woken | waking => exact h.elim

lemma LinkInv.hand {got : List UInt8} (h : LinkInv quiet l w (.handing got)) :
    LinkInv quiet { l with write := true } w (.waiting got) := by
  cases w with
  | awaiting => exact .inr ⟨h.1, rfl, h.2.2⟩
  | idle | offering | woken | waking | closed => exact h.elim

lemma LinkInv.beginRead (h : LinkInv quiet l w .busy) : LinkInv quiet l w (.waiting []) := by
  cases w with
  | awaiting => exact .inl h
  | closed => exact h
  | idle | offering | woken | waking => exact h.elim

lemma LinkInv.refuse (h : LinkInv quiet l w .busy) :
    LinkInv quiet { l with size := -1 } w .waking := by
  have hfifo : l.delivered <+: l.written := h.fifo
  cases w with
  | awaiting => exact ⟨h.2.1, neg_one_lt_zero, hfifo⟩
  | closed => exact ⟨neg_one_lt_zero, hfifo⟩
  | idle | offering | woken | waking => exact h.elim

lemma LinkInv.wakePrev (h : LinkInv quiet l w .waking) :
    LinkInv quiet { l with write := true } w .gone := by
  cases w with
  | awaiting => exact ⟨rfl, h.2⟩
  | closed => exact h
  | idle | offering | woken | waking => exact h.elim

/-- The reader sees that no more data will come only when the writer has ended. -/
lemma LinkInv.closed_of_neg {got : List UInt8} (h : LinkInv quiet l w (.holding got))
    (hsize : l.size < 0) : w = .closed := by
  cases w with
  | awaiting =>
    have hlen : l.size = l.buf.length := h.2.2.1
    omega
  | closed => rfl
  | idle | offering | woken | waking => exact h.elim

/-- While the writer has not ended, what the reader may take is what is in the buffer. -/
lemma LinkInv.length_buf {got : List UInt8} (h : LinkInv quiet l w (.holding got))
    (hsize : 0 ≤ l.size) : l.size = l.buf.length := by
  cases w with
  | awaiting => exact h.2.2.1
  | closed => exact absurd h.2.1 (not_lt.mpr hsize)
  | idle | offering | woken | waking => exact h.elim

end

end DArc.MultiDecompress
