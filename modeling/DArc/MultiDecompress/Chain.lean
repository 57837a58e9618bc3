import DArc.Library.Row
import DArc.MultiDecompress.Links

/-!
# Runs of a chain of decompressors

### Outline

* `Stepped.fits`, `Stepped.writer`, `Stepped.reader`: what a step of a thread keeps, at the thread and at the
  link on either side of it;
* `Inv`: the invariant of a chain;
* `Inv.progress`: a chain where no thread can go on is one where all have ended.

### Main results

* `multiDecompress_runs`: the bytes that a thread reads, the short reads, the progress and the exit code of
  a chain, in every state that a run reaches;
* `not_multiDecompress_ok`: the exit code need not be zero when a decompressor was told to stop.
-/

namespace DArc.MultiDecompress

variable {N i : ℕ} {s t : State}

/-! ## A step and one thread -/

section

variable (s : State) (code : Int)

lemma fail_phase : (if code < 0 then s.setExitCode code else s).phase = s.phase := by
  split <;> rfl

lemma fail_link : (if code < 0 then s.setExitCode code else s).link = s.link := by
  split <;> rfl

lemma fail_ret : (if code < 0 then s.setExitCode code else s).ret = s.ret := by
  split <;> rfl

lemma fail_retcode : (if code < 0 then s.setExitCode code else s).retcode =
    if s.retcode = 0 ∧ code < 0 then code else s.retcode := by
  by_cases hcode : code < 0
  · by_cases hret : s.retcode = 0
    · rw [if_pos hcode, if_pos ⟨hret, hcode⟩]
      exact if_pos hret
    · rw [if_pos hcode, if_neg fun h => hret h.1]
      exact if_neg hret
  · rw [if_neg hcode, if_neg fun h => hcode h.2]

end

/-- A step of the thread `i` leaves the other threads where they are. -/
lemma Stepped.phase_of_ne (h : Stepped N s i t) {j : ℕ} (hj : j ≠ i) : t.phase j = s.phase j := by
  cases h with
  | finish hp =>
    rw [goto_phase_of_ne _ _ hj, fail_phase]
  | _ => exact goto_phase_of_ne _ _ hj

/-- A step of the thread `i` leaves the links alone that are not its own. -/
lemma Stepped.link_of_ne (h : Stepped N s i t) {j : ℕ} (hj : j ≠ i) (hprev : j ≠ i - 1) :
    t.link j = s.link j := by
  cases h with
  | finish hp =>
    rw [goto_link, fail_link]
  | write | offer | wake | close | wakeNext => exact setLink_link_of_ne _ _ hj
  | enter | begin | lock | copy | unlock | hand | refuse | wakePrev => exact setLink_link_of_ne _ _ hprev
  | _ => rfl

/-- A thread goes from a phase that it can be in to another one. -/
lemma Stepped.fits (h : Stepped N s i t) (hfits : (s.phase i).Fits N i) : (t.phase i).Fits N i := by
  cases h with
  | enter hp | offer hp | wake hp | lock hp | noMore hp | hand hp =>
    rw [hp] at hfits
    rw [goto_phase_self]
    exact hfits
  | begin hp =>
    rw [hp] at hfits
    rw [goto_phase_self]
    exact hfits.2
  | write hp hi =>
    rw [hp] at hfits
    rw [goto_phase_self]
    exact ⟨hi, hfits⟩
  | writeLast code hp =>
    rw [hp] at hfits
    rw [goto_phase_self]
    exact hfits.1 code
  | read hp hi =>
    rw [hp] at hfits
    rw [goto_phase_self]
    exact ⟨hi, Nat.zero_le _, hfits⟩
  | readFirst code data hp =>
    rw [hp] at hfits
    rw [goto_phase_self]
    exact hfits code data
  | accepted hp | refused hp =>
    rw [hp] at hfits
    rw [goto_phase_self]
    exact hfits.2.1 _
  | @copy asked got next hp hsize =>
    rw [hp] at hfits
    rw [goto_phase_self]
    refine ⟨hfits.1, ?_, hfits.2.2⟩
    have hle : got.length ≤ asked := hfits.2.1
    rw [List.length_append, List.length_take]
    omega
  | @copyAll asked got next hp hsize hmore =>
    rw [hp] at hfits
    rw [goto_phase_self]
    refine ⟨hfits.1, ?_, hfits.2.2⟩
    have hle : got.length ≤ asked := hfits.2.1
    rw [List.length_append, List.length_take]
    omega
  | unlock hp =>
    rw [hp] at hfits
    rw [goto_phase_self]
    exact hfits.2.2 _ _
  | refuse hp hi | close hp hi =>
    rw [goto_phase_self]
    exact hi
  | finish | closeFirst | closeLast | wakePrev | wakeNext =>
    rw [goto_phase_self]
    trivial

/-- A step of a thread keeps the table of the link behind it. -/
lemma Stepped.writer (h : Stepped N s i t) (hfits : (s.phase i).Fits N i) (hN : i + 1 < N) {r : Reader}
    (hl : LinkInv (s.phase i).Quiet (s.link i) (s.phase i).writer r) :
    LinkInv (t.phase i).Quiet (t.link i) (t.phase i).writer r := by
  have hprev (hi : 0 < i) (l : Link) : (s.setLink (i - 1) l).link i = s.link i :=
    setLink_link_of_ne _ _ (by omega)
  cases h with
  | enter hp | begin hp | lock hp | hand hp =>
    rw [hp] at hfits hl
    rw [goto_phase_self, goto_link, hprev hfits.1]
    exact hl
  | copy hp =>
    rw [hp] at hfits hl
    rw [goto_phase_self, goto_link, hprev hfits.1]
    exact hl
  | unlock hp =>
    rw [hp] at hfits hl
    rw [goto_phase_self, goto_link, hprev hfits.1]
    exact hl.mono fun hquiet => hquiet _ _
  | finish hp =>
    rw [hp] at hl
    rw [goto_phase_self, goto_link, fail_link]
    exact hl.mono fun _ => trivial
  | write hp =>
    rw [hp] at hl
    rw [goto_phase_self, goto_link, setLink_link_self]
    exact hl.write id _
  | writeLast code hp hi => exact absurd hN (not_lt.mpr hi)
  | read hp =>
    rw [hp] at hl
    rw [goto_phase_self, goto_link]
    exact hl
  | readFirst code data hp =>
    rw [hp] at hl
    rw [goto_phase_self, goto_link]
    exact hl.mono fun hquiet => hquiet code data
  | offer hp =>
    rw [hp] at hl
    rw [goto_phase_self, goto_link, setLink_link_self]
    exact hl.offer
  | wake hp hwrite =>
    rw [hp] at hl
    rw [goto_phase_self, goto_link, setLink_link_self]
    exact hl.wake hwrite
  | accepted hp hsize =>
    rw [hp] at hl
    rw [goto_phase_self, goto_link]
    exact hl.accepted hsize
  | refused hp hsize =>
    rw [hp] at hl hfits
    rw [goto_phase_self, goto_link]
    exact hl.refused hsize (hfits.2.2 _ (by decide))
  | noMore hp | copyAll hp =>
    rw [hp] at hl
    rw [goto_phase_self, goto_link]
    exact hl
  | refuse hp hi =>
    rw [hp] at hl
    rw [goto_phase_self, goto_link, hprev hi]
    exact hl
  | closeFirst hp =>
    rw [hp] at hl
    rw [goto_phase_self, goto_link]
    exact hl
  | wakePrev hp =>
    rw [hp] at hfits hl
    rw [goto_phase_self, goto_link, hprev hfits]
    exact hl
  | close hp =>
    rw [hp] at hl
    rw [goto_phase_self, goto_link, setLink_link_self]
    exact hl.close
  | closeLast hp hi => exact absurd hN (not_lt.mpr hi)
  | wakeNext hp =>
    rw [hp] at hl
    rw [goto_phase_self, goto_link, setLink_link_self]
    exact hl.wakeNext

/-- A step of a thread keeps the table of the link in front of it. -/
lemma Stepped.reader (h : Stepped N s i t) (hi : 0 < i) {quiet : Prop} {w : Writer}
    (hl : LinkInv quiet (s.link (i - 1)) w (s.phase i).reader) :
    LinkInv quiet (t.link (i - 1)) w (t.phase i).reader := by
  have hown (l : Link) : (s.setLink i l).link (i - 1) = s.link (i - 1) :=
    setLink_link_of_ne _ _ (by omega)
  cases h with
  | enter hp hread =>
    rw [hp] at hl
    rw [goto_phase_self, goto_link, setLink_link_self]
    exact hl.lock hread
  | begin hp =>
    rw [hp] at hl
    rw [goto_phase_self, goto_link, setLink_link_self]
    have hunlock := hl.unlock
    rw [List.append_nil] at hunlock
    exact hunlock
  | finish hp =>
    rw [hp] at hl
    rw [goto_phase_self, goto_link, fail_link]
    exact hl
  | write hp | offer hp | wake hp =>
    rw [hp] at hl
    rw [goto_phase_self, goto_link, hown]
    exact hl
  | writeLast code hp =>
    rw [hp] at hl
    rw [goto_phase_self, goto_link]
    exact hl
  | read hp =>
    rw [hp] at hl
    rw [goto_phase_self, goto_link]
    exact hl.beginRead
  | readFirst code data hp h0 => omega
  | accepted hp | refused hp | noMore hp =>
    rw [hp] at hl
    rw [goto_phase_self, goto_link]
    exact hl
  | lock hp hread =>
    rw [hp] at hl
    rw [goto_phase_self, goto_link, setLink_link_self]
    exact hl.lock hread
  | copy hp hsize =>
    rw [hp] at hl
    rw [goto_phase_self, goto_link, setLink_link_self]
    exact hl.copy _ hsize
  | copyAll hp hsize =>
    rw [hp] at hl
    rw [goto_phase_self, goto_link]
    exact hl.copyAll hsize
  | unlock hp =>
    rw [hp] at hl
    rw [goto_phase_self, goto_link, setLink_link_self]
    exact hl.unlock
  | hand hp =>
    rw [hp] at hl
    rw [goto_phase_self, goto_link, setLink_link_self]
    exact hl.hand
  | refuse hp =>
    rw [hp] at hl
    rw [goto_phase_self, goto_link, setLink_link_self]
    exact hl.refuse
  | closeFirst hp h0 => omega
  | wakePrev hp =>
    rw [hp] at hl
    rw [goto_phase_self, goto_link, setLink_link_self]
    exact hl.wakePrev
  | close hp | wakeNext hp =>
    rw [hp] at hl
    rw [goto_phase_self, goto_link, hown]
    exact hl
  | closeLast hp =>
    rw [hp] at hl
    rw [goto_phase_self, goto_link]
    exact hl

/-! ## The invariant -/

/-- The decompressor of the thread has returned. -/
def Phase.Returned : Phase → Prop
  | .closePrev | .wakePrev | .closeNext | .wakeNext | .ended => True
  | _ => False

/-- The invariant of a chain of `N` threads. -/
structure Inv (N : ℕ) (s : State) : Prop where
  fits : ∀ i < N, (s.phase i).Fits N i
  link : ∀ i, i + 1 < N →
    LinkInv (s.phase i).Quiet (s.link i) (s.phase i).writer (s.phase (i + 1)).reader
  short : ∀ i asked got next, i + 1 < N → s.phase (i + 1) = .unlocking asked got next →
    got.length < asked → s.phase i = .ended
  returned : ∀ i < N, (s.phase i).Returned ↔ ∃ code, s.ret i = some code
  ok : s.retcode = 0 → ∀ i code, s.ret i = some code → 0 ≤ code
  failed : s.retcode ≠ 0 → ∃ i < N, s.ret i = some s.retcode ∧ s.retcode < 0

/-- Only a thread that has ended is seen as closed. -/
lemma Phase.eq_ended_of_closed {p : Phase} (h : p.writer = .closed) : p = .ended := by
  cases p <;> first
    | rfl
    | cases h

/-- A thread that has ended makes no step. -/
lemma Stepped.ne_ended (h : Stepped N s i t) : s.phase i ≠ .ended := by
  intro hended
  cases h <;> simp_all

/-- A read that got less than it asked for saw that the thread in front has ended. -/
lemma Stepped.short {k : ℕ} (h : Stepped N s (k + 1) t) (hfits : (s.phase (k + 1)).Fits N (k + 1))
    (hl : LinkInv (s.phase k).Quiet (s.link k) (s.phase k).writer (s.phase (k + 1)).reader)
    {asked : ℕ} {got : List UInt8} {next : Int → List UInt8 → Program}
    (ht : t.phase (k + 1) = .unlocking asked got next) (hshort : got.length < asked) :
    s.phase k = .ended := by
  cases h with
  | noMore hp hsize =>
    rw [hp] at hl
    exact Phase.eq_ended_of_closed (hl.closed_of_neg hsize)
  | @copy asked' got' next' hp hsize =>
    rw [goto_phase_self] at ht
    cases ht
    rw [hp] at hl hfits
    have hle : got'.length ≤ asked := hfits.2.1
    have hlen : (s.link k).size = (s.link k).buf.length := hl.length_buf (by rw [Nat.add_sub_cancel] at hsize; omega)
    rw [Nat.add_sub_cancel] at hsize hshort
    rw [List.length_append, List.length_take] at hshort
    omega
  | _ =>
    rw [goto_phase_self] at ht
    cases ht

/-- A thread has a code when its decompressor has returned. -/
lemma Stepped.returned (h : Stepped N s i t)
    (hs : (s.phase i).Returned ↔ ∃ code, s.ret i = some code) :
    (t.phase i).Returned ↔ ∃ code, t.ret i = some code := by
  cases h with
  | @finish ret hp =>
    rw [goto_phase_self, goto_ret, fail_ret]
    exact iff_of_true trivial ⟨ret, Function.update_self ..⟩
  | refuse hp | closeFirst hp | wakePrev hp | close hp | closeLast hp | wakeNext hp =>
    rw [hp] at hs
    rw [goto_phase_self]
    exact hs
  | enter hp | begin hp | write hp | writeLast _ hp | read hp | readFirst _ _ hp | offer hp | wake hp
  | accepted hp | refused hp | lock hp | noMore hp | copy hp | copyAll hp | unlock hp | hand hp =>
    rw [hp] at hs
    rw [goto_phase_self]
    exact hs

/-- The code of a thread is what its decompressor has returned. -/
lemma Stepped.ret (h : Stepped N s i t) :
    t.ret = s.ret ∧ t.retcode = s.retcode ∨
    ∃ code, s.phase i = .running (.finish code) ∧ t.ret = Function.update s.ret i (some code) ∧
      t.retcode = if s.retcode = 0 ∧ code < 0 then code else s.retcode := by
  cases h with
  | @finish code hp =>
    refine .inr ⟨code, hp, ?_, ?_⟩
    · rw [goto_ret, fail_ret]
    · rw [goto_retcode, fail_retcode]
  | closeLast hp hi =>
    refine .inl ⟨rfl, ?_⟩
    rw [goto_retcode]
    by_cases hzero : s.retcode = 0
    · rw [hzero]
      exact if_pos hzero
    · exact if_neg hzero
  | _ => exact .inl ⟨rfl, rfl⟩

/-- The invariant holds at the start. -/
lemma Inv.start {program : ℕ → Program} (hprogram : ∀ i < N, (program i).Obedient) :
    Inv N (start program) where
  fits := by
    intro i hi
    by_cases h0 : i = 0
    · subst h0
      exact hprogram 0 hi
    · have hphase : (MultiDecompress.start program).phase i = .waiting (program i) := if_neg h0
      rw [hphase]
      exact ⟨Nat.pos_of_ne_zero h0, hprogram i hi⟩
  link := by
    intro i hi
    have hnext : (MultiDecompress.start program).phase (i + 1) = .waiting (program (i + 1)) := rfl
    have hwriter : ((MultiDecompress.start program).phase i).writer = .idle := by
      dsimp only [MultiDecompress.start]
      split <;> rfl
    rw [hnext, hwriter]
    exact ⟨rfl, rfl, le_rfl, rfl⟩
  short := by
    intro i asked got next hi hphase
    cases hphase
  returned := by
    intro i hi
    refine iff_of_false ?_ fun ⟨_, hcode⟩ => by cases hcode
    dsimp only [MultiDecompress.start]
    split <;> exact id
  ok := by
    intro hzero i code hret
    cases hret
  failed := fun h => (h rfl).elim

/-- A step keeps the invariant. -/
lemma Inv.step (h : Inv N s) {a : Action} (ht : step N s a = some t) : Inv N t := by
  obtain ⟨hi, hstep⟩ := step_stepped ht
  have hphase {j : ℕ} (hj : j ≠ a.i) : t.phase j = s.phase j := hstep.phase_of_ne hj
  have hret_of_ne {j : ℕ} (hj : j ≠ a.i) : t.ret j = s.ret j := by
    obtain ⟨hret, -⟩ | ⟨code, -, hret, -⟩ := hstep.ret
    · rw [hret]
    · rw [hret, Function.update_of_ne hj]
  constructor
  case fits =>
    intro j hj
    by_cases hja : j = a.i
    · rw [hja]
      exact hstep.fits (h.fits a.i hi)
    · rw [hphase hja]
      exact h.fits j hj
  case link =>
    intro j hj
    have hl := h.link j hj
    by_cases hja : j = a.i
    · rw [hphase (j := j + 1) (by omega)]
      rw [hja] at hl hj ⊢
      exact hstep.writer (h.fits a.i hi) hj hl
    by_cases hjn : j + 1 = a.i
    · have hprev : j = a.i - 1 := by omega
      rw [hphase hja]
      rw [hjn] at hl ⊢
      rw [show s.link j = s.link (a.i - 1) by rw [hprev]] at hl
      rw [show t.link j = t.link (a.i - 1) by rw [hprev]]
      exact hstep.reader (by omega) hl
    · rw [hphase hja, hphase hjn, hstep.link_of_ne hja (by omega)]
      exact hl
  case short =>
    intro j asked got next hj hread hshort
    by_cases hjn : j + 1 = a.i
    · rw [hphase (by omega)]
      rw [← hjn] at hstep
      exact hstep.short (h.fits _ hj) (h.link j hj) hread hshort
    · rw [hphase hjn] at hread
      have hended := h.short j asked got next hj hread hshort
      by_cases hja : j = a.i
      · rw [hja] at hended
        exact absurd hended hstep.ne_ended
      · rw [hphase hja]
        exact hended
  case returned =>
    intro j hj
    by_cases hja : j = a.i
    · rw [hja]
      exact hstep.returned (h.returned a.i hi)
    · rw [hphase hja, hret_of_ne hja]
      exact h.returned j hj
  case ok =>
    obtain ⟨hret, hretcode⟩ | ⟨code, -, hret, hretcode⟩ := hstep.ret
    · rw [hret, hretcode]
      exact h.ok
    · rw [hret, hretcode]
      intro hzero j other hj
      by_cases hfail : s.retcode = 0 ∧ code < 0
      · rw [if_pos hfail] at hzero
        omega
      rw [if_neg hfail] at hzero
      by_cases hja : j = a.i
      · subst hja
        rw [Function.update_self] at hj
        cases hj
        omega
      · rw [Function.update_of_ne hja] at hj
        exact h.ok hzero j other hj
  case failed =>
    obtain ⟨hret, hretcode⟩ | ⟨code, hp, hret, hretcode⟩ := hstep.ret
    · rw [hret, hretcode]
      exact h.failed
    · rw [hret, hretcode]
      intro hne
      by_cases hfail : s.retcode = 0 ∧ code < 0
      · rw [if_pos hfail]
        exact ⟨a.i, hi, Function.update_self .., hfail.2⟩
      rw [if_neg hfail] at hne ⊢
      obtain ⟨j, hj, hcode, hneg⟩ := h.failed hne
      refine ⟨j, hj, ?_, hneg⟩
      by_cases hja : j = a.i
      · have hreturned := (h.returned j hj).mpr ⟨_, hcode⟩
        rw [hja, hp] at hreturned
        exact hreturned.elim
      · rw [Function.update_of_ne hja, hcode]

lemma inv_of_reachable {program : ℕ → Program} (hprogram : ∀ i < N, (program i).Obedient)
    (h : Reachable (step N) (start program) s) : Inv N s :=
  h.invariant (Inv.start hprogram) fun _ _ _ hs _ ht => hs.step ht

/-! ## Progress -/

/-- The thread waits for the end of its write, or waits for data, or has ended. -/
def Blocked (s : State) (i : ℕ) : Prop :=
  (s.phase i).writer = .awaiting ∧ (s.link i).write = false ∨
  (∃ got, (s.phase i).reader = .waiting got) ∧ (s.phase i).writer = .idle ∧
    (s.link (i - 1)).read = false ∨
  s.phase i = .ended

/-- A thread that cannot go on is blocked. -/
lemma blocked_of_step {a : Action} (hi : a.i < N) (h : step N s a = none) : Blocked s a.i := by
  unfold step at h
  rw [if_neg (not_le.mpr hi)] at h
  unfold Blocked
  dsimp only at h
  cases hp : s.phase a.i with
  | waiting | locking =>
    rw [hp] at h
    dsimp only at h
    by_cases hread : (s.link (a.i - 1)).read = true
    · rw [if_pos hread] at h
      cases h
    · exact .inr (.inl ⟨⟨_, rfl⟩, rfl, Bool.eq_false_of_not_eq_true hread⟩)
  | awaiting =>
    rw [hp] at h
    dsimp only at h
    by_cases hwrite : (s.link a.i).write = true
    · rw [if_pos hwrite] at h
      cases h
    · exact .inl ⟨rfl, Bool.eq_false_of_not_eq_true hwrite⟩
  | ended => exact .inr (.inr rfl)
  | closePrev | closeNext =>
    rw [hp] at h
    dsimp only at h
    split at h <;> cases h
  | _ =>
    rw [hp] at h
    cases h

/-- While the writer waits and is not waked, the reader has not ended, and may go on when it waits. -/
lemma LinkInv.reader_of_awaiting {quiet : Prop} {l : Link} {r : Reader}
    (h : LinkInv quiet l .awaiting r) (hwrite : l.write = false) :
    r ≠ .gone ∧ ∀ got, r = .waiting got → l.read = true := by
  refine ⟨?_, ?_⟩
  · rintro rfl
    have hwaked : l.write = true := h.1
    rw [hwrite] at hwaked
    cases hwaked
  · rintro got rfl
    obtain h | h := h
    · exact h.1
    · rw [hwrite] at h
      cases h.2.1

/-- Only a thread in front of another one waits for the end of a write. -/
lemma Phase.Fits.writes {p : Phase} (h : p.Fits N i) (hp : p.writer = .awaiting) : i + 1 < N := by
  cases p with
  | awaiting => exact h.1
  | _ => cases hp

/-- Only a thread behind another one waits for data. -/
lemma Phase.Fits.reads {p : Phase} (h : p.Fits N i) {got : List UInt8} (hp : p.reader = .waiting got) :
    0 < i := by
  cases p with
  | waiting | locking => exact h.1
  | _ => cases hp

/-- **Progress**: when no thread of the chain can go on, all of them have ended. -/
theorem Inv.progress (h : Inv N s) :
    (∃ i < N, ∀ reply, ∃ t, MultiDecompress.step N s ⟨i, reply⟩ = some t) ∨
      ∀ i < N, s.phase i = .ended := by
  by_contra hstuck
  obtain ⟨hall, hended⟩ := not_or.mp hstuck
  have hblocked (i : ℕ) (hi : i < N) : Blocked s i := by
    by_contra hne
    refine hall ⟨i, hi, fun reply => ?_⟩
    cases ht : MultiDecompress.step N s ⟨i, reply⟩ with
    | none => exact absurd (blocked_of_step hi ht) hne
    | some t => exact ⟨t, rfl⟩
  refine hended (all_done_of_waits hblocked ?_ ?_)
  · rintro i hi ⟨hw, hwrite⟩
    have hN : i + 1 < N := (h.fits i hi).writes hw
    refine ⟨hN, ?_⟩
    have hl := h.link i hN
    rw [hw] at hl
    obtain ⟨hgone, hread⟩ := hl.reader_of_awaiting hwrite
    obtain hb | ⟨⟨got, hgot⟩, -, hb⟩ | hb := hblocked (i + 1) hN
    · exact hb
    · rw [Nat.add_sub_cancel, hread got hgot] at hb
      cases hb
    · rw [hb] at hgone
      exact absurd rfl hgone
  · rintro hnone i hi ⟨⟨got, hgot⟩, -, hread⟩
    obtain ⟨k, rfl⟩ : ∃ k, i = k + 1 := Nat.exists_eq_add_one.mpr ((h.fits i hi).reads hgot)
    refine ⟨Nat.succ_pos k, ?_⟩
    rw [Nat.add_sub_cancel] at hread ⊢
    have hl := h.link k hi
    rw [hgot] at hl
    obtain hb | hb | hb := hblocked k (by omega)
    · exact absurd hb (hnone k (by omega))
    · exact hb
    · rw [hb] at hl
      have hmay : (s.link k).read = true := hl.1
      rw [hread] at hmay
      cases hmay

/-! ## A chain -/

/-- **A chain of decompressors**: in every state that a run reaches, what a thread has read is a prefix of
what the thread in front of it wrote; a read is about to return less than it was asked for only when the
thread in front has ended; a thread can go on, or all have ended; and when all have ended, the exit code is
zero or the negative code of a decompressor, and it is zero just when none has returned a negative code. -/
theorem multiDecompress_runs {program : ℕ → Program} (hprogram : ∀ i < N, (program i).Obedient)
    (h : Reachable (step N) (start program) s) :
    (∀ i, i + 1 < N → (s.link i).delivered <+: (s.link i).written) ∧
    (∀ i asked got next, i + 1 < N → s.phase (i + 1) = .unlocking asked got next →
      got.length < asked → s.phase i = .ended) ∧
    ((∃ i < N, ∀ reply, ∃ t, step N s ⟨i, reply⟩ = some t) ∨ ∀ i < N, s.phase i = .ended) ∧
    ((∀ i < N, s.phase i = .ended) → (∀ i < N, ∃ code, s.ret i = some code) ∧
      (s.retcode = 0 ↔ ∀ i < N, ∀ code, s.ret i = some code → 0 ≤ code) ∧
      (s.retcode = 0 ∨ ∃ i < N, s.ret i = some s.retcode ∧ s.retcode < 0)) := by
  have hinv := inv_of_reachable hprogram h
  refine ⟨fun i hi => (hinv.link i hi).fifo, hinv.short, hinv.progress, fun hended => ⟨?_, ?_, ?_⟩⟩
  · intro i hi
    refine (hinv.returned i hi).mp ?_
    rw [hended i hi]
    trivial
  · refine ⟨fun hzero i _ => hinv.ok hzero i, fun hok => ?_⟩
    by_contra hne
    obtain ⟨i, hi, hret, hneg⟩ := hinv.failed hne
    exact absurd hneg (not_lt.mpr (hok i hi _ hret))
  · by_cases hzero : s.retcode = 0
    · exact .inl hzero
    · exact .inr (hinv.failed hzero)

/-- A decompressor that writes one byte, and returns what the write has returned if this is an error. -/
def writeOne : Program :=
  .write [0] fun n => .finish (if n < 0 then n else 0)

/-- The chain of `writeOne` and a decompressor that needs no data. -/
def stopped (i : ℕ) : Program :=
  if i = 0 then writeOne else .finish 0

lemma stopped_obedient (i : ℕ) : (stopped i).Obedient := by
  unfold stopped
  split
  · exact ⟨fun _ => trivial, fun _ _ => trivial⟩
  · trivial

/-- The run of `stopped` in which the second thread ends while the first one writes. -/
def stoppedRun : List Action :=
  [0, 0, 1, 1, 1, 1, 1, 1, 0, 0, 0, 0, 0, 0].map fun i => ⟨i, ⟨0, []⟩⟩

/-- The end of that run. -/
lemma perform_stoppedRun :
    ∃ s, perform (step 2) stoppedRun (start stopped) = some s ∧ (∀ i < 2, s.phase i = .ended) ∧
      s.ret 0 = some ErrCode.noMoreDataRequired.toInt ∧ s.ret 1 = some ErrCode.ok.toInt ∧
      s.retcode = ErrCode.noMoreDataRequired.toInt := by
  refine ⟨_, rfl, ?_, rfl, rfl, rfl⟩
  intro i hi
  interval_cases i <;> rfl

/-- **The exit code is not zero** although each decompressor has returned zero or that no more data are
required. -/
theorem not_multiDecompress_ok :
    ¬∀ (N : ℕ) (program : ℕ → Program) (s : State), (∀ i < N, (program i).Obedient) →
      Reachable (step N) (start program) s → (∀ i < N, s.phase i = .ended) →
      (∀ i < N, s.ret i = some ErrCode.ok.toInt ∨ s.ret i = some ErrCode.noMoreDataRequired.toInt) →
      s.retcode = ErrCode.ok.toInt := by
  intro h
  obtain ⟨s, hrun, hended, hfirst, hsecond, hcode⟩ := perform_stoppedRun
  have hret (i : ℕ) (hi : i < 2) :
      s.ret i = some ErrCode.ok.toInt ∨ s.ret i = some ErrCode.noMoreDataRequired.toInt := by
    interval_cases i
    · exact .inr hfirst
    · exact .inl hsecond
  have hzero := h 2 stopped s (fun i _ => stopped_obedient i) (.of_perform hrun) hended hret
  rw [hcode] at hzero
  exact absurd hzero (by decide)

/-- The chain of `writeOne` ends with the code of a thread. -/
theorem multiDecompress_runs_stopped :
    ∃ s, Reachable (step 2) (start stopped) s ∧
      (s.retcode = 0 ∨ ∃ i < 2, s.ret i = some s.retcode ∧ s.retcode < 0) := by
  obtain ⟨s, hrun, hended, -⟩ := perform_stoppedRun
  have hs : Reachable (step 2) (start stopped) s := .of_perform hrun
  exact ⟨s, hs, ((multiDecompress_runs (fun i _ => stopped_obedient i) hs).2.2.2 hended).2.2⟩

end DArc.MultiDecompress
