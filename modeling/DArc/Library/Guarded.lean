import Mathlib.Tactic

/-!
# Programs with buffers

A program reads and writes buffers, keeps a state and may exit with a code.  `Guarded S α` is a part of it, with
the record of its accesses to buffers; `Guarded.wp` is its weakest precondition: all accesses stay inside their
buffers, and what comes after it starts from a state in which it does so as well.

### Outline

* `Access`, `Guarded`: an access, and a part of a program;
* `Guarded.wp`: the weakest precondition, with one rule for each way to build a program;
* `Guarded.iterate`: a loop without a condition, that ends by an exit only;
* `Guarded.reached`: the states that a loop reaches, by a function of its own;
* `Guarded.total`, `Guarded.Ends`: the precondition with the exit code, and how a program ends;
* `Guarded.Triple`: what holds where a program goes on;
* `Guarded.noting`: a loop with notes of what it has seen.

### Main results

* `Guarded.bounded_iff`, `Guarded.bounded_round`: the loop stays inside its buffers and ends if and only if a
  round does so and leads to a state from which the loop does so;
* `Guarded.bounded_iff_reached`: the loop does so if and only if the states that it reaches fit;
* `Guarded.ends_iff`: how a loop ends, from how its first round does.
-/

namespace DArc

variable {S α β : Type}

/-- An access to some bytes of a buffer. -/
structure Access where
  /-- The size of the buffer. -/
  capacity : Int
  offset : Int
  size : Int
  deriving DecidableEq

/-- The access stays inside the buffer. -/
def Access.Fits (x : Access) : Prop := 0 ≤ x.offset ∧ 0 ≤ x.size ∧ x.offset + x.size ≤ x.capacity

instance (x : Access) : Decidable x.Fits := inferInstanceAs (Decidable (_ ∧ _ ∧ _))

/-- An access to the front of a buffer. -/
lemma Access.fits_front {capacity size : Int} (h₁ : 0 ≤ size) (h₂ : size ≤ capacity) :
    Access.Fits ⟨capacity, 0, size⟩ := ⟨le_rfl, h₁, by rwa [zero_add]⟩

/-- A part of a program: its accesses, and its exit code, or its value and the new state. -/
def Guarded (S α : Type) : Type := S → List Access × Except Int (α × S)

namespace Guarded

/-- A value. -/
protected def pure (a : α) : Guarded S α := fun s => ([], .ok (a, s))

/-- One part after another. -/
protected def bind (m : Guarded S α) (f : α → Guarded S β) : Guarded S β := fun s =>
  match m s with
  | (accesses, .error code) => (accesses, .error code)
  | (accesses, .ok (a, s)) => (accesses ++ (f a s).1, (f a s).2)

instance : Monad (Guarded S) where
  pure := Guarded.pure
  bind := Guarded.bind

/-- The program exits with a code. -/
def exit (code : Int) : Guarded S α := fun _ => ([], .error code)

/-- An access to a buffer. -/
def access (x : Access) : Guarded S Unit := fun s => ([x], .ok ((), s))

/-- Several accesses. -/
def accessAll (xs : List Access) : Guarded S Unit := fun s => (xs, .ok ((), s))

/-- The state. -/
def get : Guarded S S := fun s => ([], .ok (s, s))

/-- A new state. -/
def set (s : S) : Guarded S Unit := fun _ => ([], .ok ((), s))

/-! ## The weakest precondition -/

/-- All accesses stay inside their buffers, and the value and the state after the program are as asked for, if
it does not exit. -/
def wp (m : Guarded S α) (Q : α → S → Prop) (s : S) : Prop :=
  (∀ x ∈ (m s).1, x.Fits) ∧ ∀ a s', (m s).2 = .ok (a, s') → Q a s'

variable {m : Guarded S α} {f : α → Guarded S β} {Q : α → S → Prop} {R : β → S → Prop} {s : S}

/-- The precondition of a value. -/
@[simp] lemma wp_pure (a : α) : wp (pure a) Q s ↔ Q a s := by
  constructor
  · exact fun h => h.2 a s rfl
  · intro h
    refine ⟨fun x hx => (by cases hx), fun a' s' heq => ?_⟩
    obtain ⟨rfl, rfl⟩ := Prod.mk.inj (Except.ok.inj heq)
    exact h

/-- The precondition of one part after another. -/
@[simp] lemma wp_bind : wp (m >>= f) R s ↔ wp m (fun a s => wp (f a) R s) s := by
  change wp (Guarded.bind m f) R s ↔ _
  unfold wp Guarded.bind
  obtain ⟨accesses, code | ⟨a, s'⟩⟩ := m s
  · refine and_congr_right fun _ => iff_of_true (fun _ _ h => by cases h) (fun _ _ h => by cases h)
  · simp only [List.forall_mem_append, Except.ok.injEq, Prod.mk.injEq, and_assoc, and_imp]
    refine and_congr_right fun _ => ?_
    constructor
    · rintro h _ _ rfl rfl
      exact h
    · exact fun h => h a s' rfl rfl

/-- The precondition of an exit. -/
@[simp] lemma wp_exit (code : Int) : wp (exit code) Q s :=
  ⟨fun x hx => (by cases hx), fun _ _ h => (by cases h)⟩

/-- The precondition of an access. -/
@[simp] lemma wp_access {x : Access} {Q : Unit → S → Prop} : wp (access x) Q s ↔ x.Fits ∧ Q () s := by
  constructor
  · exact fun h => ⟨h.1 x List.mem_cons_self, h.2 () s rfl⟩
  · rintro ⟨hx, hQ⟩
    refine ⟨fun y hy => ?_, fun _ s' heq => ?_⟩
    · rw [List.mem_singleton.mp hy]
      exact hx
    · obtain ⟨-, rfl⟩ := Prod.mk.inj (Except.ok.inj heq)
      exact hQ

/-- The precondition of several accesses. -/
lemma wp_accessAll {xs : List Access} {Q : Unit → S → Prop} :
    wp (accessAll xs) Q s ↔ (∀ x ∈ xs, x.Fits) ∧ Q () s := by
  refine and_congr_right fun _ => ⟨fun h => h () s rfl, fun hQ _ s' heq => ?_⟩
  obtain ⟨-, rfl⟩ := Prod.mk.inj (Except.ok.inj heq)
  exact hQ

/-- The precondition of asking for the state. -/
@[simp] lemma wp_get {Q : S → S → Prop} : wp get Q s ↔ Q s s := wp_pure s

/-- The precondition of a new state. -/
@[simp] lemma wp_set {s' : S} {Q : Unit → S → Prop} : wp (set s') Q s ↔ Q () s' := by
  constructor
  · exact fun h => h.2 () s' rfl
  · intro h
    refine ⟨fun x hx => (by cases hx), fun _ t heq => ?_⟩
    obtain ⟨-, rfl⟩ := Prod.mk.inj (Except.ok.inj heq)
    exact h

/-- The precondition of a choice. -/
lemma wp_ite {c : Prop} [Decidable c] {m' : Guarded S α} :
    wp (if c then m else m') Q s ↔ (c → wp m Q s) ∧ (¬c → wp m' Q s) := by
  split_ifs with h <;> simp [h]

/-- What is asked for can be replaced by something equivalent. -/
lemma wp_congr {Q' : α → S → Prop} (h : ∀ a s, Q a s ↔ Q' a s) : wp m Q s ↔ wp m Q' s :=
  and_congr_right fun _ => forall_congr' fun _ => forall_congr' fun _ => imp_congr_right fun _ => h _ _

/-! ## Loops -/

/-- Some rounds of a loop. -/
def iterate (step : α → Guarded S α) : ℕ → α → Guarded S α
  | 0, a => pure a
  | n + 1, a => step a >>= iterate step n

/-- A program that begins with `m` and goes on with a loop: it stays inside its buffers and exits. -/
def Bounded (m : Guarded S α) (step : α → Guarded S α) (s : S) : Prop :=
  (∀ n, ∀ x ∈ ((m >>= iterate step n) s).1, x.Fits) ∧ ∃ n code, ((m >>= iterate step n) s).2 = .error code

variable {step : α → Guarded S α}

/-- What the program does up to the loop, and in it. -/
lemma bind_apply_ok {accesses : List Access} {a : α} {s' : S} (h : m s = (accesses, .ok (a, s'))) :
    (m >>= f) s = (accesses ++ (f a s').1, (f a s').2) := by
  change Guarded.bind m f s = _
  unfold Guarded.bind
  rw [h]

/-- A program that exits before the loop. -/
lemma bind_apply_error {accesses : List Access} {code : Int} (h : m s = (accesses, .error code)) :
    (m >>= f) s = (accesses, .error code) := by
  change Guarded.bind m f s = _
  unfold Guarded.bind
  rw [h]

/-- A loop that is entered at once. -/
lemma pure_bind_apply (a : α) : ((pure a : Guarded S α) >>= f) s = f a s := rfl

/-- **The program is bounded** when its first part leads to a state from which the loop is. -/
theorem bounded_iff : Bounded m step s ↔ wp m (fun a s => Bounded (pure a) step s) s := by
  obtain ⟨accesses, hm⟩ : ∃ accesses, (m s).1 = accesses := ⟨_, rfl⟩
  cases hresult : (m s).2 with
  | error code =>
    have happly : ∀ n, (m >>= iterate step n) s = (accesses, .error code) := fun n =>
      bind_apply_error (Prod.ext hm hresult)
    unfold Bounded wp
    simp only [happly, hresult, hm]
    constructor
    · exact fun h => ⟨h.1 0, fun _ _ h => by cases h⟩
    · exact fun h => ⟨fun _ => h.1, 0, code, rfl⟩
  | ok out =>
    obtain ⟨a, s'⟩ := out
    have happly : ∀ n, (m >>= iterate step n) s =
        (accesses ++ (iterate step n a s').1, (iterate step n a s').2) := fun n =>
      bind_apply_ok (Prod.ext hm hresult)
    unfold Bounded wp
    simp only [happly, hresult, hm, pure_bind_apply, List.forall_mem_append]
    constructor
    · rintro ⟨haccesses, hends⟩
      refine ⟨(haccesses 0).1, fun a' s'' heq => ?_⟩
      obtain ⟨rfl, rfl⟩ := Prod.mk.inj (Except.ok.inj heq)
      exact ⟨fun n => (haccesses n).2, hends⟩
    · rintro ⟨haccesses, h⟩
      obtain ⟨hloop, hends⟩ := h a s' rfl
      exact ⟨fun n => ⟨haccesses, hloop n⟩, hends⟩

/-- **The loop is bounded** when its first round leads to a state from which it is. -/
theorem bounded_round (a : α) :
    Bounded (pure a) step s ↔ wp (step a) (fun a s => Bounded (pure a) step s) s := by
  rw [← bounded_iff]
  unfold Bounded
  simp only [pure_bind_apply]
  constructor
  · rintro ⟨haccesses, n, code, hends⟩
    refine ⟨fun n => haccesses (n + 1), ?_⟩
    cases n with
    | zero => cases hends
    | succ n => exact ⟨n, code, hends⟩
  · rintro ⟨haccesses, n, code, hends⟩
    refine ⟨fun n => ?_, n + 1, code, hends⟩
    cases n with
    | zero => exact fun x hx => by cases hx
    | succ n => exact haccesses n

/-- **A loop that never exits** is not bounded. -/
theorem not_bounded_of_invariant (inv : α × S → Prop)
    (hstep : ∀ a s, inv (a, s) → ∃ x, (step a s).2 = .ok x ∧ inv x) {a : α} {s : S} (h₀ : inv (a, s)) :
    ¬Bounded (pure a) step s := by
  rintro ⟨-, n, code, hends⟩
  rw [pure_bind_apply] at hends
  induction n generalizing a s with
  | zero => cases hends
  | succ n ih =>
    obtain ⟨x, hx, hinv⟩ := hstep a s h₀
    refine ih hinv ?_
    rw [← hends]
    exact (congrArg Prod.snd (bind_apply_ok (Prod.ext rfl hx))).symm

/-! ## The states that are reached -/

/-- The state before a round, where `next` leads from one round to the next. -/
def reached (next : α × S → Option (α × S)) : ℕ → α × S → Option (α × S)
  | 0, x => some x
  | n + 1, x => (next x).bind (reached next n)

/-- **A loop is bounded when all states that it reaches fit**, if the rounds need no more than that, and each of
them uses up something; this may rest on an invariant. -/
theorem bounded_iff_reached (fits inv : α × S → Prop) (next : α × S → Option (α × S)) (size : α × S → ℕ)
    (hstep : ∀ a s Q, inv (a, s) →
      (wp (step a) Q s ↔ fits (a, s) ∧ ∀ x, next (a, s) = some x → Q x.1 x.2))
    (hinv : ∀ x y, inv x → next x = some y → inv y)
    (hsize : ∀ x y, next x = some y → size y < size x) {a : α} {s : S} (h₀ : inv (a, s)) :
    Bounded (pure a) step s ↔ ∀ n x, reached next n (a, s) = some x → fits x := by
  induction hn : size (a, s) using Nat.strong_induction_on generalizing a s with
  | _ k ih =>
    subst hn
    have hbehind (x : α × S) (hx : next (a, s) = some x) :
        Bounded (pure x.1) step x.2 ↔ ∀ n y, reached next n x = some y → fits y :=
      ih _ (hsize _ _ hx) (hinv _ _ h₀ hx) rfl
    rw [bounded_round, hstep _ _ _ h₀]
    constructor
    · rintro ⟨hfits, hnext⟩ n x hx
      cases n with
      | zero =>
        obtain rfl := Option.some.inj hx
        exact hfits
      | succ n =>
        obtain ⟨y, hy, hx⟩ := Option.bind_eq_some_iff.mp hx
        exact (hbehind y hy).mp (hnext y hy) n x hx
    · intro h
      refine ⟨h 0 _ rfl, fun y hy => (hbehind y hy).mpr fun n x hx => ?_⟩
      exact h (n + 1) x (Option.bind_eq_some_iff.mpr ⟨y, hy, hx⟩)

/-! ## How a program ends -/

/-- All accesses stay inside their buffers, and the exit code, or else the value and the state, are as asked for. -/
def total (m : Guarded S α) (E : Int → Prop) (Q : α → S → Prop) (s : S) : Prop :=
  (∀ x ∈ (m s).1, x.Fits) ∧ (∀ code, (m s).2 = .error code → E code) ∧ ∀ a s', (m s).2 = .ok (a, s') → Q a s'

variable {E : Int → Prop}

/-- How a value comes out. -/
@[simp] lemma total_pure (a : α) : total (pure a) E Q s ↔ Q a s := by
  constructor
  · exact fun h => h.2.2 a s rfl
  · intro h
    refine ⟨fun x hx => (by cases hx), fun _ hc => (by cases hc), fun a' s' heq => ?_⟩
    obtain ⟨rfl, rfl⟩ := Prod.mk.inj (Except.ok.inj heq)
    exact h

/-- One part after another. -/
@[simp] lemma total_bind : total (m >>= f) E R s ↔ total m E (fun a s => total (f a) E R s) s := by
  change total (Guarded.bind m f) E R s ↔ _
  unfold total Guarded.bind
  obtain ⟨accesses, code | ⟨a, s'⟩⟩ := m s
  · simp
  · simp only [List.forall_mem_append, Except.ok.injEq, Prod.mk.injEq, reduceCtorEq, false_imp_iff, implies_true,
      true_and, and_imp, and_assoc]
    refine and_congr_right fun _ => ?_
    constructor
    · rintro h _ _ rfl rfl
      exact h
    · exact fun h => h a s' rfl rfl

/-- How an exit comes out. -/
@[simp] lemma total_exit (code : Int) : total (exit code) E Q s ↔ E code := by
  constructor
  · exact fun h => h.2.1 code rfl
  · intro h
    refine ⟨fun x hx => (by cases hx), fun code' heq => ?_, fun _ _ h => (by cases h)⟩
    rw [← Except.error.inj heq]
    exact h

/-- How an access comes out. -/
@[simp] lemma total_access {x : Access} {Q : Unit → S → Prop} : total (access x) E Q s ↔ x.Fits ∧ Q () s := by
  constructor
  · exact fun h => ⟨h.1 x List.mem_cons_self, h.2.2 () s rfl⟩
  · rintro ⟨hx, hQ⟩
    refine ⟨fun y hy => ?_, fun _ hc => (by cases hc), fun _ s' heq => ?_⟩
    · rw [List.mem_singleton.mp hy]
      exact hx
    · obtain ⟨-, rfl⟩ := Prod.mk.inj (Except.ok.inj heq)
      exact hQ

/-- How asking for the state comes out. -/
@[simp] lemma total_get {Q : S → S → Prop} : total get E Q s ↔ Q s s := total_pure s

/-- How a new state comes out. -/
@[simp] lemma total_set {s' : S} {Q : Unit → S → Prop} : total (set s') E Q s ↔ Q () s' := by
  constructor
  · exact fun h => h.2.2 () s' rfl
  · intro h
    refine ⟨fun x hx => (by cases hx), fun _ hc => (by cases hc), fun _ t heq => ?_⟩
    obtain ⟨-, rfl⟩ := Prod.mk.inj (Except.ok.inj heq)
    exact h

/-- How a choice comes out. -/
lemma total_ite {c : Prop} [Decidable c] {m' : Guarded S α} :
    total (if c then m else m') E Q s ↔ (c → total m E Q s) ∧ (¬c → total m' E Q s) := by
  split_ifs with h <;> simp [h]

/-- What is asked for can be replaced by something weaker. -/
lemma total_mono {E' : Int → Prop} {Q' : α → S → Prop} (h : total m E Q s) (hE : ∀ code, E code → E' code)
    (hQ : ∀ a s, Q a s → Q' a s) : total m E' Q' s :=
  ⟨h.1, fun code hc => hE code (h.2.1 code hc), fun a s' hs => hQ a s' (h.2.2 a s' hs)⟩

/-- The program `m` that goes on with a loop stays inside its buffers and exits with `code`; before the part that
exits the state is `t`. -/
inductive Ends (step : α → Guarded S α) : Guarded S α → S → Int → S → Prop
  | exit {m : Guarded S α} {s : S} {code : Int} (hfits : ∀ x ∈ (m s).1, x.Fits) (h : (m s).2 = .error code) :
      Ends step m s code s
  | next {m : Guarded S α} {s s' t : S} {a : α} {code : Int} (hfits : ∀ x ∈ (m s).1, x.Fits)
      (h : (m s).2 = .ok (a, s')) (rest : Ends step (step a) s' code t) : Ends step m s code t

/-- **How a program ends** is how its first part exits, or how the loop behind it ends. -/
theorem ends_iff {code : Int} {t : S} :
    Ends step m s code t ↔ total m (fun c => c = code ∧ t = s) (fun a s' => Ends step (step a) s' code t) s := by
  constructor
  · rintro (⟨hfits, h⟩ | ⟨hfits, h, rest⟩)
    · refine ⟨hfits, fun c hc => ?_, fun a s' hs => ?_⟩
      · rw [h] at hc
        exact ⟨(Except.error.inj hc).symm, rfl⟩
      · rw [h] at hs
        cases hs
    · refine ⟨hfits, fun c hc => ?_, fun a s' hs => ?_⟩
      · rw [h] at hc
        cases hc
      · rw [h] at hs
        obtain ⟨rfl, rfl⟩ := Prod.mk.inj (Except.ok.inj hs)
        exact rest
  · rintro ⟨hfits, herror, hok⟩
    cases hresult : (m s).2 with
    | error c =>
      obtain ⟨rfl, rfl⟩ := herror c hresult
      exact .exit hfits hresult
    | ok out => exact .next hfits hresult (hok out.1 out.2 hresult)

/-- A program ends in one way only. -/
lemma Ends.unique {code code' : Int} {t t' : S} (h : Ends step m s code t) (h' : Ends step m s code' t') :
    code = code' ∧ t = t' := by
  induction h with
  | exit hfits hm =>
    obtain ⟨-, herror, -⟩ := ends_iff.mp h'
    obtain ⟨rfl, rfl⟩ := herror _ hm
    exact ⟨rfl, rfl⟩
  | next hfits hm rest ih =>
    obtain ⟨-, -, hok⟩ := ends_iff.mp h'
    exact ih (hok _ _ hm)

/-! ## What goes on -/

/-- Where `m` begins as `P` says and does not exit, it leads to what `Q` says. -/
def Triple (P : S → Prop) (m : Guarded S α) (Q : α → S → Prop) : Prop :=
  ∀ s a s', P s → (m s).2 = .ok (a, s') → Q a s'

variable {P : S → Prop}

/-- A value. -/
lemma triple_pure {a : α} (h : ∀ s, P s → Q a s) : Triple P (pure a) Q := by
  intro s a' s' hP hok
  obtain ⟨rfl, rfl⟩ := Prod.mk.inj (Except.ok.inj hok)
  exact h s hP

/-- One part after another. -/
lemma triple_bind (hm : Triple P m Q) (hf : ∀ a, Triple (Q a) (f a) R) : Triple P (m >>= f) R := by
  intro s b s' hP hok
  change (Guarded.bind m f s).2 = _ at hok
  unfold Guarded.bind at hok
  cases hresult : m s with
  | mk accesses result =>
    rw [hresult] at hok
    cases result with
    | error code => cases hok
    | ok out => exact hf out.1 out.2 b s' (hm s out.1 out.2 hP (by rw [hresult])) hok

/-- An exit leads nowhere. -/
lemma triple_exit {code : Int} : Triple P (exit code) Q := fun _ _ _ _ hok => by cases hok

/-- An access changes nothing. -/
lemma triple_access {x : Access} : Triple P (access x) (fun _ => P) := by
  intro s _ s' hP hok
  obtain ⟨-, rfl⟩ := Prod.mk.inj (Except.ok.inj hok)
  exact hP

/-- Asking for the state. -/
lemma triple_get : Triple P get (fun a s => a = s ∧ P s) := by
  intro s a s' hP hok
  obtain ⟨rfl, rfl⟩ := Prod.mk.inj (Except.ok.inj hok)
  exact ⟨rfl, hP⟩

/-- A new state. -/
lemma triple_set {s' : S} {Q : Unit → S → Prop} (h : ∀ s, P s → Q () s') : Triple P (set s') Q := by
  intro s _ t hP hok
  obtain ⟨-, rfl⟩ := Prod.mk.inj (Except.ok.inj hok)
  exact h s hP

/-- A choice. -/
lemma triple_ite {c : Prop} [Decidable c] {m' : Guarded S α} (h₁ : c → Triple P m Q) (h₂ : ¬c → Triple P m' Q) :
    Triple P (if c then m else m') Q := by
  split_ifs with h
  · exact h₁ h
  · exact h₂ h

/-- What a round keeps, a loop keeps. -/
lemma Ends.keeps {s t : S} {code : Int} (h : Ends step m s code t) (hm : Triple P m (fun _ => P))
    (hstep : ∀ a, Triple P (step a) (fun _ => P)) (hs : P s) : P t := by
  induction h with
  | exit => exact hs
  | next hfits hok rest ih => exact ih (hstep _) (hm _ _ _ hs hok)

/-! ## Notes -/

/-- A loop that notes something before each of its rounds. -/
def noting {L : Type} (note : α → S → List L) (step : α → Guarded S β) (a : α) : Guarded (S × List L) β := fun s =>
  match step a s.1 with
  | (accesses, .error code) => (accesses, .error code)
  | (accesses, .ok (b, s')) => (accesses, .ok (b, (s', s.2 ++ note a s.1)))

variable {L : Type} {note : α → S → List L}

/-- A round with a note comes out as the round does. -/
lemma total_noting {step : α → Guarded S β} {a : α} {log : List L} {R : β → S × List L → Prop} :
    total (noting note step a) E R (s, log) ↔ total (step a) E (fun b s' => R b (s', log ++ note a s)) s := by
  unfold total noting
  dsimp only
  generalize step a s = result
  obtain ⟨accesses, code | ⟨b, s'⟩⟩ := result
  · simp
  · simp

/-- A round with a note leads where the round does. -/
lemma triple_noting {step : α → Guarded S β} {a : α} {Q : β → S → Prop} (h : Triple P (step a) Q) :
    Triple (fun s : S × List L => P s.1) (noting note step a) (fun b s => Q b s.1) := by
  intro s b s' hP hok
  unfold noting at hok
  split at hok
  · cases hok
  · rename_i heq
    obtain ⟨rfl, rfl⟩ := Prod.mk.inj (Except.ok.inj hok)
    exact h _ _ _ hP (by rw [heq])

/-- Notes are only added. -/
lemma Ends.notes_grow {a : α} {s t : S × List L} {code : Int}
    (h : Ends (noting note step) (noting note step a) s code t) : ∃ notes, t.2 = s.2 ++ notes := by
  generalize hm : noting note step a = m at h
  induction h generalizing a with
  | exit => exact ⟨[], (List.append_nil _).symm⟩
  | @next m s s' t b code hfits hok rest ih =>
    subst hm
    obtain ⟨notes, hnotes⟩ := ih rfl
    have hlog : s'.2 = s.2 ++ note a s.1 := by
      unfold noting at hok
      split at hok
      · cases hok
      · obtain ⟨-, rfl⟩ := Prod.mk.inj (Except.ok.inj hok)
        rfl
    exact ⟨note a s.1 ++ notes, by rw [hnotes, hlog, List.append_assoc]⟩

end Guarded

end DArc
