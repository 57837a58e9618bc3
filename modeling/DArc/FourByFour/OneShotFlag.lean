import Mathlib.Tactic
import DArc.Library.Runs

/-!
# The one-shot flag

`compress_all_at_once` is a process-wide variable.  `_4x4_METHOD::compress` and
`_4x4_METHOD::decompress` save it, set it to 1 for the whole call and put the saved value back;
every Tornado call tests it, and the stages of a chain run in threads of their own
(`MultiDecompress`).  The module models the reads and the writes of the variable as atomic steps
of any number of calls in any order.

### Outline

* `step` is one read or write by one call; `Clean` says that no plain Tornado call has seen
  anything but 0 and that the flag is 0 when no call is active;
* `FlagInv` is the invariant of the runs that respect `Orderly`;
* a chain respects `Orderly` in all its runs if and only if it is `Solo`.

### Main results

* `oneShotFlagClean_iff`: orderly runs are clean, and all runs of a chain are clean exactly when a
  4x4 call of it is its only call;
* `not_oneShotFlagClean_two`: two 4x4 stages can leave the flag set.
-/

namespace DArc.FourByFour

/-- What a call is: a Tornado call made by a stage of the chain itself, or a 4x4 call. -/
inductive Stage
  | tornado
  | fourByFour
  deriving DecidableEq

/-- Where a call stands. -/
inductive Phase
  /-- Not begun. -/
  | idle
  /-- A plain Tornado call that is running. -/
  | working
  /-- A 4x4 call past `int saved = compress_all_at_once`. -/
  | saved (value : ℤ)
  /-- A 4x4 call past `compress_all_at_once = 1`. -/
  | inside (value : ℤ)
  /-- Returned. -/
  | ended
  deriving DecidableEq

/-- One atomic step of one call. -/
inductive FlagAction (ι : Type*)
  /-- The call begins; a 4x4 call reads the flag into `saved`. -/
  | enter (i : ι)
  /-- A Tornado call, plain or made by a 4x4 worker, tests the flag. -/
  | test (i : ι)
  /-- A 4x4 call executes `compress_all_at_once = 1`. -/
  | set (i : ι)
  /-- A 4x4 call executes `compress_all_at_once = saved` and returns. -/
  | restore (i : ι)
  /-- A plain Tornado call returns. -/
  | leave (i : ι)

/-- The flag, the calls, and what the plain Tornado calls have seen in their tests. -/
structure FlagState (ι : Type*) where
  /-- `compress_all_at_once`. -/
  flag : ℤ
  /-- The phase of each call. -/
  phase : ι → Phase
  /-- The tests of plain Tornado calls, the last one first. -/
  seen : List (ι × ℤ)

variable {ι : Type*}

/-- Before any call the flag has its initial value 0. -/
def FlagState.start : FlagState ι where
  flag := 0
  phase _ := .idle
  seen := []

/-- Every call that has begun has returned. -/
def FlagState.Quiet (s : FlagState ι) : Prop := ∀ i, s.phase i = .idle ∨ s.phase i = .ended

/-- No plain Tornado call has seen anything but 0, and once all calls have ended the flag is 0. -/
def Clean (s : FlagState ι) : Prop := (∀ p ∈ s.seen, p.2 = 0) ∧ (s.Quiet → s.flag = 0)

/-- The chain has no 4x4 call, or a 4x4 call is the only call of it. -/
def Solo (chain : ι → Stage) : Prop := ∀ i, chain i = .fourByFour → ∀ j, j = i

/-- The call is a 4x4 call that has saved `v` and not restored it yet. -/
def FlagState.Holds (s : FlagState ι) (i : ι) (v : ℤ) : Prop :=
  s.phase i = .saved v ∨ s.phase i = .inside v

/-- A plain Tornado call tests the flag only while no 4x4 call is between its set and its restore,
and a 4x4 call that saved 0 restores it only when no other call still holds a saved 1. -/
def Orderly (chain : ι → Stage) (s : FlagState ι) : FlagAction ι → Prop
  | .test i => chain i = .tornado → ∀ j v, s.phase j ≠ .inside v
  | .restore i => s.phase i = .inside 0 → ∀ j, j ≠ i → ¬ s.Holds j 1
  | _ => True

variable [DecidableEq ι]

/-- The call moves to the phase `p`. -/
def FlagState.move (s : FlagState ι) (i : ι) (p : Phase) : FlagState ι :=
  { s with phase := Function.update s.phase i p }

@[simp] lemma FlagState.move_flag (s : FlagState ι) (i : ι) (p : Phase) :
    (s.move i p).flag = s.flag := rfl

@[simp] lemma FlagState.move_seen (s : FlagState ι) (i : ι) (p : Phase) :
    (s.move i p).seen = s.seen := rfl

@[simp] lemma FlagState.move_phase_self (s : FlagState ι) (i : ι) (p : Phase) :
    (s.move i p).phase i = p := Function.update_self ..

lemma FlagState.move_phase_of_ne (s : FlagState ι) {i j : ι} (p : Phase) (h : j ≠ i) :
    (s.move i p).phase j = s.phase j := Function.update_of_ne h ..

/-- One step of the calls of a chain. -/
def step (chain : ι → Stage) (s : FlagState ι) : FlagAction ι → Option (FlagState ι)
  | .enter i =>
    match s.phase i, chain i with
    | .idle, .tornado => some (s.move i .working)
    | .idle, .fourByFour => some (s.move i (.saved s.flag))
    | _, _ => none
  | .test i =>
    match s.phase i with
    | .working => some { s with seen := (i, s.flag) :: s.seen }
    | .inside _ => some s
    | _ => none
  | .set i =>
    match s.phase i with
    | .saved v => some { s.move i (.inside v) with flag := 1 }
    | _ => none
  | .restore i =>
    match s.phase i with
    | .inside v => some { s.move i .ended with flag := v }
    | _ => none
  | .leave i =>
    match s.phase i with
    | .working => some (s.move i .ended)
    | _ => none

/-- **One-shot flag property**: in every state that some interleaving of the calls of the chain
reaches, no plain Tornado call has seen a flag other than 0, and the flag is 0 once all calls have
ended. -/
def OneShotFlagClean (chain : ι → Stage) : Prop :=
  ∀ s, Reachable (step chain) FlagState.start s → Clean s

/-! ## What a step does -/

/-- Everything one step can do, with the phase it starts from. -/
lemma step_cases {chain : ι → Stage} {s t : FlagState ι} {a : FlagAction ι}
    (h : step chain s a = some t) :
    (∃ i, a = .enter i ∧ s.phase i = .idle ∧ chain i = .tornado ∧ t = s.move i .working) ∨
    (∃ i, a = .enter i ∧ s.phase i = .idle ∧ chain i = .fourByFour ∧
      t = s.move i (.saved s.flag)) ∨
    (∃ i, a = .test i ∧ s.phase i = .working ∧ t = { s with seen := (i, s.flag) :: s.seen }) ∨
    (∃ i v, a = .test i ∧ s.phase i = .inside v ∧ t = s) ∨
    (∃ i v, a = .set i ∧ s.phase i = .saved v ∧ t = { s.move i (.inside v) with flag := 1 }) ∨
    (∃ i v, a = .restore i ∧ s.phase i = .inside v ∧ t = { s.move i .ended with flag := v }) ∨
    (∃ i, a = .leave i ∧ s.phase i = .working ∧ t = s.move i .ended) := by
  cases a with
  | enter i =>
    cases hp : s.phase i <;> cases hc : chain i <;> simp [step, hp, hc] at h
    · exact .inl ⟨i, rfl, hp, hc, h.symm⟩
    · exact .inr (.inl ⟨i, rfl, hp, hc, h.symm⟩)
  | test i =>
    cases hp : s.phase i <;> simp [step, hp] at h
    · exact .inr (.inr (.inl ⟨i, rfl, hp, h.symm⟩))
    · exact .inr (.inr (.inr (.inl ⟨i, _, rfl, hp, h.symm⟩)))
  | set i =>
    cases hp : s.phase i <;> simp [step, hp] at h
    exact .inr (.inr (.inr (.inr (.inl ⟨i, _, rfl, hp, h.symm⟩))))
  | restore i =>
    cases hp : s.phase i <;> simp [step, hp] at h
    exact .inr (.inr (.inr (.inr (.inr (.inl ⟨i, _, rfl, hp, h.symm⟩)))))
  | leave i =>
    cases hp : s.phase i <;> simp [step, hp] at h
    exact .inr (.inr (.inr (.inr (.inr (.inr ⟨i, rfl, hp, h.symm⟩)))))

/-! ## Orderly runs -/

/-- The invariant of the orderly runs: as long as some call can still write a 1, and as long as
the flag is 1, a call that saved 0 is inside. -/
structure FlagInv (chain : ι → Stage) (s : FlagState ι) : Prop where
  /-- A plain Tornado call holds no saved value, a 4x4 call is never `working`. -/
  kind : ∀ i, (s.phase i = .working → chain i = .tornado) ∧
    ∀ v, s.Holds i v → chain i = .fourByFour
  /-- The flag is 0 or 1. -/
  flag : s.flag = 0 ∨ s.flag = 1
  /-- So is every saved value. -/
  value : ∀ i v, s.Holds i v → v = 0 ∨ v = 1
  /-- A set flag belongs to a call that will restore 0. -/
  owner : s.flag = 1 → ∃ i, s.phase i = .inside 0
  /-- So does every saved 1. -/
  nested : ∀ i, s.Holds i 1 → ∃ j, s.phase j = .inside 0
  /-- The plain calls have seen 0. -/
  seen : ∀ p ∈ s.seen, p.2 = 0

omit [DecidableEq ι] in
/-- The invariant holds before any call. -/
lemma flagInv_start (chain : ι → Stage) : FlagInv chain FlagState.start where
  kind i := by simp [FlagState.start, FlagState.Holds]
  flag := .inl rfl
  value i v h := by simp [FlagState.start, FlagState.Holds] at h
  owner h := by simp [FlagState.start] at h
  nested i h := by simp [FlagState.start, FlagState.Holds] at h
  seen p h := by simp [FlagState.start] at h

omit [DecidableEq ι] in
/-- The invariant gives both parts of `Clean`. -/
lemma FlagInv.clean {chain : ι → Stage} {s : FlagState ι} (h : FlagInv chain s) : Clean s := by
  refine ⟨h.seen, fun hquiet => ?_⟩
  rcases h.flag with h0 | h1
  · exact h0
  · obtain ⟨i, hi⟩ := h.owner h1
    rcases hquiet i with hq | hq <;> simp [hi] at hq

/-- A move of `i` to a phase that saves nothing leaves the other saved values. -/
lemma holds_move_of_ne (s : FlagState ι) {i j : ι} {p : Phase} {v : ℤ} (h : j ≠ i) :
    (s.move i p).Holds j v ↔ s.Holds j v := by
  unfold FlagState.Holds
  rw [s.move_phase_of_ne p h]

/-- The moved call holds what its phase says. -/
lemma holds_move_self (s : FlagState ι) {i : ι} {p : Phase} {v : ℤ} :
    (s.move i p).Holds i v ↔ p = .saved v ∨ p = .inside v := by
  unfold FlagState.Holds
  rw [s.move_phase_self]

/-- A call inside keeps its phase when another call moves. -/
lemma inside_move {s : FlagState ι} {i j : ι} {p : Phase} {v : ℤ} (h : s.phase j = .inside v)
    (hi : ∀ w, s.phase i ≠ .inside w) : (s.move i p).phase j = .inside v := by
  have hne : j ≠ i := by
    rintro rfl
    exact hi v h
  rw [s.move_phase_of_ne p hne, h]

/-- A call that holds no value before and after its move keeps the invariant. -/
lemma FlagInv.move {chain : ι → Stage} {s : FlagState ι} (h : FlagInv chain s) {i : ι} {p : Phase}
    (hi : ∀ w, s.phase i ≠ .inside w) (hp : ∀ w, p ≠ .saved w ∧ p ≠ .inside w)
    (hkind : p = .working → chain i = .tornado) : FlagInv chain (s.move i p) where
  kind j := by
    by_cases hj : j = i
    · subst hj
      refine ⟨fun hw => hkind (by simpa using hw), fun v hv => ?_⟩
      rcases (holds_move_self s).mp hv with hs | hs
      · exact absurd hs (hp v).1
      · exact absurd hs (hp v).2
    · rw [s.move_phase_of_ne p hj]
      exact ⟨(h.kind j).1, fun v hv => (h.kind j).2 v ((holds_move_of_ne s hj).mp hv)⟩
  flag := h.flag
  value j v hv := by
    by_cases hj : j = i
    · subst hj
      rcases (holds_move_self s).mp hv with hs | hs
      · exact absurd hs (hp v).1
      · exact absurd hs (hp v).2
    · exact h.value j v ((holds_move_of_ne s hj).mp hv)
  owner hf := by
    obtain ⟨j, hj⟩ := h.owner hf
    exact ⟨j, inside_move hj hi⟩
  nested j hv := by
    by_cases hj : j = i
    · subst hj
      rcases (holds_move_self s).mp hv with hs | hs
      · exact absurd hs (hp 1).1
      · exact absurd hs (hp 1).2
    · obtain ⟨k, hk⟩ := h.nested j ((holds_move_of_ne s hj).mp hv)
      exact ⟨k, inside_move hk hi⟩
  seen := h.seen

/-- A 4x4 call that saves the flag keeps the invariant. -/
lemma FlagInv.save {chain : ι → Stage} {s : FlagState ι} (h : FlagInv chain s) {i : ι}
    (hidle : s.phase i = .idle) (hkind : chain i = .fourByFour) :
    FlagInv chain (s.move i (.saved s.flag)) where
  kind j := by
    by_cases hj : j = i
    · subst hj
      exact ⟨fun hw => by simp at hw, fun _ _ => hkind⟩
    · rw [s.move_phase_of_ne _ hj]
      exact ⟨(h.kind j).1, fun v hv => (h.kind j).2 v ((holds_move_of_ne s hj).mp hv)⟩
  flag := h.flag
  value j v hv := by
    by_cases hj : j = i
    · subst hj
      obtain rfl : s.flag = v := by simpa using (holds_move_self s).mp hv
      exact h.flag
    · exact h.value j v ((holds_move_of_ne s hj).mp hv)
  owner hf := by
    obtain ⟨j, hj⟩ := h.owner hf
    exact ⟨j, inside_move hj (by simp [hidle])⟩
  nested j hv := by
    by_cases hj : j = i
    · subst hj
      have hf : s.flag = 1 := by simpa using (holds_move_self s).mp hv
      obtain ⟨k, hk⟩ := h.owner hf
      exact ⟨k, inside_move hk (by simp [hidle])⟩
    · obtain ⟨k, hk⟩ := h.nested j ((holds_move_of_ne s hj).mp hv)
      exact ⟨k, inside_move hk (by simp [hidle])⟩
  seen := h.seen

/-- A 4x4 call that sets the flag keeps the invariant. -/
lemma FlagInv.set {chain : ι → Stage} {s : FlagState ι} (h : FlagInv chain s) {i : ι} {v : ℤ}
    (hi : s.phase i = .saved v) :
    FlagInv chain { s.move i (.inside v) with flag := 1 } := by
  have hsome : ∃ j, (s.move i (.inside v)).phase j = .inside 0 := by
    rcases h.value i v (.inl hi) with rfl | rfl
    · exact ⟨i, by simp⟩
    · obtain ⟨k, hk⟩ := h.nested i (.inl hi)
      exact ⟨k, inside_move hk (by simp [hi])⟩
  have hholds : ∀ j w, (s.move i (.inside v)).Holds j w → s.Holds j w := by
    intro j w hw
    by_cases hj : j = i
    · subst hj
      obtain rfl : v = w := by simpa using (holds_move_self s).mp hw
      exact .inl hi
    · exact (holds_move_of_ne s hj).mp hw
  refine ⟨fun j => ⟨fun hw => ?_, fun w hw => (h.kind j).2 w (hholds j w hw)⟩, .inr rfl,
    fun j w hw => h.value j w (hholds j w hw), fun _ => hsome, fun _ _ => hsome, h.seen⟩
  by_cases hj : j = i
  · subst hj
    simp at hw
  · exact (h.kind j).1 (by simpa [s.move_phase_of_ne _ hj] using hw)

/-- An orderly restore keeps the invariant. -/
lemma FlagInv.restore {chain : ι → Stage} {s : FlagState ι} (h : FlagInv chain s) {i : ι} {v : ℤ}
    (hi : s.phase i = .inside v)
    (hlast : s.phase i = .inside 0 → ∀ j, j ≠ i → ¬ s.Holds j 1) :
    FlagInv chain { s.move i .ended with flag := v } := by
  have hholds : ∀ j w, (s.move i .ended).Holds j w → j ≠ i ∧ s.Holds j w := by
    intro j w hw
    by_cases hj : j = i
    · subst hj
      simp [holds_move_self s] at hw
    · exact ⟨hj, (holds_move_of_ne s hj).mp hw⟩
  -- A call that restores 1 leaves the one that will restore 0 inside.
  have hother : v = 1 → ∃ j, (s.move i .ended).phase j = .inside 0 := by
    rintro rfl
    obtain ⟨k, hk⟩ := h.nested i (.inr hi)
    have hne : k ≠ i := by
      rintro rfl
      simp [hi] at hk
    exact ⟨k, by rw [s.move_phase_of_ne _ hne, hk]⟩
  have hv := h.value i v (.inr hi)
  refine ⟨fun j => ⟨fun hw => ?_, fun w hw => (h.kind j).2 w (hholds j w hw).2⟩, hv,
    fun j w hw => h.value j w (hholds j w hw).2, hother, fun j hw => ?_, h.seen⟩
  · by_cases hj : j = i
    · subst hj
      simp at hw
    · exact (h.kind j).1 (by simpa [s.move_phase_of_ne _ hj] using hw)
  · obtain ⟨hne, hj⟩ := hholds j 1 hw
    rcases hv with rfl | hv1
    · exact absurd hj (hlast hi j hne)
    · exact hother hv1

omit [DecidableEq ι] in
/-- A test in an orderly run sees 0. -/
lemma FlagInv.test {chain : ι → Stage} {s : FlagState ι} (h : FlagInv chain s) {i : ι}
    (hi : s.phase i = .working) (hnone : chain i = .tornado → ∀ j v, s.phase j ≠ .inside v) :
    FlagInv chain { s with seen := (i, s.flag) :: s.seen } := by
  have hzero : s.flag = 0 := by
    rcases h.flag with h0 | h1
    · exact h0
    · obtain ⟨j, hj⟩ := h.owner h1
      exact absurd hj (hnone ((h.kind i).1 hi) j 0)
  refine ⟨h.kind, h.flag, h.value, h.owner, h.nested, fun p hp => ?_⟩
  rcases List.mem_cons.mp hp with rfl | hp
  · exact hzero
  · exact h.seen p hp

/-- An orderly step keeps the invariant. -/
lemma FlagInv.step {chain : ι → Stage} {s t : FlagState ι} {a : FlagAction ι}
    (h : FlagInv chain s) (ok : Orderly chain s a) (hst : step chain s a = some t) :
    FlagInv chain t := by
  rcases step_cases hst with ⟨i, rfl, hi, hk, rfl⟩ | ⟨i, rfl, hi, hk, rfl⟩ | ⟨i, rfl, hi, rfl⟩ |
    ⟨i, v, rfl, hi, rfl⟩ | ⟨i, v, rfl, hi, rfl⟩ | ⟨i, v, rfl, hi, rfl⟩ | ⟨i, rfl, hi, rfl⟩
  · exact h.move (by simp [hi]) (by simp) fun _ => hk
  · exact h.save hi hk
  · exact h.test hi ok
  · exact h
  · exact h.set hi
  · exact h.restore hi ok
  · exact h.move (by simp [hi]) (by simp) (by simp)

/-- Orderly runs are clean. -/
lemma clean_of_orderly {chain : ι → Stage} {s : FlagState ι}
    (h : RunFrom (step chain) (Orderly chain) FlagState.start s) : Clean s :=
  (h.invariant (I := FlagInv chain) (flagInv_start chain) fun _ _ _ hI ok hst =>
    hI.step ok hst).clean

/-! ## Chains all of whose runs are orderly -/

omit [DecidableEq ι] in
/-- In a chain with a lone 4x4 call every step is orderly. -/
lemma orderly_of_solo {chain : ι → Stage} (hsolo : Solo chain) {s : FlagState ι}
    (h : FlagInv chain s) (a : FlagAction ι) : Orderly chain s a := by
  cases a with
  | test i =>
    intro hi j v hj
    have hj4 := (h.kind j).2 v (.inr hj)
    obtain rfl : i = j := hsolo j hj4 i
    simp [hi] at hj4
  | restore i =>
    intro hi j hne
    exact absurd (hsolo i ((h.kind i).2 0 (.inr hi)) j) hne
  | enter i => trivial
  | set i => trivial
  | leave i => trivial

/-- A plain call that tests while a 4x4 call is inside sees 1. -/
lemma not_clean_of_test {chain : ι → Stage} {i j : ι} (hi : chain i = .fourByFour)
    (hj : chain j = .tornado) : ¬ OneShotFlagClean chain := by
  intro hclean
  have hne : j ≠ i := by
    rintro rfl
    simp [hi] at hj
  obtain ⟨t, ht, hseen⟩ : ∃ t, perform (step chain) [.enter i, .set i, .enter j, .test j]
      FlagState.start = some t ∧ (j, 1) ∈ t.seen := by
    simp [perform, step, FlagState.start, FlagState.move, hi, hj, hne]
  exact absurd ((hclean t (.of_perform ht)).1 _ hseen) one_ne_zero

/-- Of two overlapping 4x4 calls the later one to return can restore the 1 of the earlier one. -/
lemma not_clean_of_overlap {chain : ι → Stage} {i j : ι} (hi : chain i = .fourByFour)
    (hj : chain j = .fourByFour) (hne : j ≠ i) : ¬ OneShotFlagClean chain := by
  intro hclean
  obtain ⟨t, ht, hquiet, hflag⟩ : ∃ t, perform (step chain)
      [.enter i, .set i, .enter j, .set j, .restore i, .restore j] FlagState.start = some t ∧
      t.Quiet ∧ t.flag = 1 := by
    simp [perform, step, FlagState.start, FlagState.move, FlagState.Quiet, hi, hj, hne, hne.symm,
      Function.update_apply]
    intro k
    by_cases hkj : k = j <;> by_cases hki : k = i <;> simp [hkj, hki, hne]
  exact absurd ((hclean t (.of_perform ht)).2 hquiet) (by simp [hflag])

/-- **One-shot flag**: every run in which a plain Tornado call tests the flag only while no 4x4
call is inside, and a 4x4 call that saved 0 restores it only when no other call holds a saved 1,
is clean; and all runs of a chain are clean if and only if each 4x4 call of it is its only
call. -/
theorem oneShotFlagClean_iff (chain : ι → Stage) :
    (∀ s, RunFrom (step chain) (Orderly chain) FlagState.start s → Clean s) ∧
      (OneShotFlagClean chain ↔ Solo chain) := by
  refine ⟨fun s hs => clean_of_orderly hs, fun hclean i hi j => ?_, fun hsolo s hs => ?_⟩
  · by_contra hne
    cases hj : chain j with
    | tornado => exact not_clean_of_test hi hj hclean
    | fourByFour => exact not_clean_of_overlap hi hj hne hclean
  · have horderly : RunFrom (step chain) (Orderly chain) FlagState.start s :=
      hs.guarded (I := FlagInv chain) (flagInv_start chain)
        (fun _ a _ hI _ hst => hI.step (orderly_of_solo hsolo hI a) hst)
        (fun _ a _ hI _ _ => orderly_of_solo hsolo hI a)
    exact clean_of_orderly horderly

/-- A 4x4 stage that runs within another one, and a Tornado stage. -/
def nestedChain : Fin 3 → Stage := ![.fourByFour, .fourByFour, .tornado]

/-- The inner 4x4 call returns before the outer one and the Tornado stage tests after both: the
run is orderly, and its last state is clean. -/
theorem oneShotFlagClean_iff_nested :
    ∃ s, perform (step nestedChain) [.enter 0, .set 0, .enter 1, .set 1, .restore 1, .restore 0,
      .enter 2, .test 2] FlagState.start = some s ∧ s.seen = [(2, 0)] ∧ Clean s := by
  refine ⟨_, rfl, rfl, (oneShotFlagClean_iff nestedChain).1 _ ?_⟩
  refine .next (.test 2) (.next (.enter 2) (.next (.restore 0) (.next (.restore 1) (.next (.set 1)
    (.next (.enter 1) (.next (.set 0) (.next (.enter 0) .start trivial rfl) trivial rfl)
    trivial rfl) trivial rfl) ?_ rfl) ?_ rfl) trivial rfl) ?_ rfl
  · intro h
    simp [FlagState.move, FlagState.start] at h
  · intro _ j hj
    fin_cases j <;> simp_all [FlagState.Holds, FlagState.move, FlagState.start]
  · intro _ j v
    fin_cases j <;> simp [FlagState.move, FlagState.start]

/-- Two 4x4 stages that overlap can leave the flag at 1 after both have returned. -/
theorem not_oneShotFlagClean_two : ¬ OneShotFlagClean fun _ : Bool => Stage.fourByFour :=
  not_clean_of_overlap (i := false) (j := true) rfl rfl (by decide)

end DArc.FourByFour
