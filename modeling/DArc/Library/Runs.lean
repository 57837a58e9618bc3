import Mathlib.Tactic

/-!
# Runs of a partial step function

A system is a partial step function: `step s a` is the state after the action `a`, or `none`
where the action is not enabled.  `RunFrom step guard s₀ s` says that `s` is reached from `s₀` by
enabled steps that all meet a guard; the guard that always holds gives the reachable states, and
the order of the actions of independent parties is left open, so that a statement about every run
is one about every interleaving.

### Main results

* `RunFrom.invariant`: what holds at the start and is kept by every step holds in every state
  reached;
* `RunFrom.guarded`: a run whose states force the guard meets it;
* `RunFrom.of_perform`: a list of actions that can be performed is a run;
* `exists_stuck_of_bounded`: when runs are bounded, some run cannot go on;
* `Yields.append`: what a source yields, and what it yields then.
-/

namespace DArc

variable {σ α : Type*}

/-- The state is reached from `s₀` by steps that meet the guard. -/
inductive RunFrom (step : σ → α → Option σ) (guard : σ → α → Prop) (s₀ : σ) : σ → Prop
  | start : RunFrom step guard s₀ s₀
  | next {s t : σ} (a : α) (run : RunFrom step guard s₀ s) (ok : guard s a)
      (taken : step s a = some t) : RunFrom step guard s₀ t

/-- The guard that every step meets. -/
def anyStep (_ : σ) (_ : α) : Prop := True

/-- The states that some run reaches. -/
abbrev Reachable (step : σ → α → Option σ) (s₀ s : σ) : Prop := RunFrom step anyStep s₀ s

/-- Perform the actions one after another. -/
def perform (step : σ → α → Option σ) : List α → σ → Option σ
  | [], s => some s
  | a :: as, s => (step s a).bind (perform step as)

variable {step : σ → α → Option σ} {guard : σ → α → Prop} {s₀ s : σ}

/-- What holds at the start and is kept by every step that meets the guard holds in every state
reached. -/
lemma RunFrom.invariant {I : σ → Prop} (h₀ : I s₀)
    (hstep : ∀ s a t, I s → guard s a → step s a = some t → I t)
    (h : RunFrom step guard s₀ s) : I s := by
  induction h with
  | start => exact h₀
  | next a _ ok taken ih => exact hstep _ a _ ih ok taken

/-- A run goes on from where another one ends. -/
lemma RunFrom.trans {t : σ} (h : RunFrom step guard s₀ s) (h' : RunFrom step guard s t) :
    RunFrom step guard s₀ t := by
  induction h' with
  | start => exact h
  | next a _ ok taken ih => exact .next a ih ok taken

/-- A run that keeps an invariant from which the guard `other` follows also meets `other`. -/
lemma RunFrom.guarded {I : σ → Prop} {other : σ → α → Prop} (h₀ : I s₀)
    (hstep : ∀ s a t, I s → guard s a → step s a = some t → I t)
    (hother : ∀ s a t, I s → guard s a → step s a = some t → other s a)
    (h : RunFrom step guard s₀ s) : RunFrom step other s₀ s := by
  induction h with
  | start => exact .start
  | next a run ok taken ih =>
    have hI := run.invariant h₀ hstep
    exact .next a ih (hother _ a _ hI ok taken) taken

/-- Actions that can be performed one after another are a run. -/
lemma RunFrom.of_perform {as : List α} {t : σ} (h : perform step as s = some t) :
    Reachable step s t := by
  induction as generalizing s with
  | nil =>
    obtain rfl : s = t := Option.some.inj h
    exact .start
  | cons a as ih =>
    obtain ⟨u, hu, hrest⟩ := Option.bind_eq_some_iff.mp h
    have hfirst : Reachable step s u := .next a .start trivial hu
    exact hfirst.trans (ih hrest)

/-- One more action. -/
lemma perform_concat {as : List α} {a : α} {t : σ} (h : perform step as s₀ = some s)
    (ha : step s a = some t) : perform step (as ++ [a]) s₀ = some t := by
  induction as generalizing s₀ with
  | nil =>
    obtain rfl : s₀ = s := Option.some.inj h
    exact Option.bind_eq_some_iff.mpr ⟨t, ha, rfl⟩
  | cons b as ih =>
    obtain ⟨u, hu, hrest⟩ := Option.bind_eq_some_iff.mp h
    exact Option.bind_eq_some_iff.mpr ⟨u, hu, ih hrest⟩

/-- When runs are bounded, some run cannot go on. -/
lemma exists_stuck_of_bounded {bound : ℕ}
    (h : ∀ as s, perform step as s₀ = some s → as.length ≤ bound) :
    ∃ as s, perform step as s₀ = some s ∧ ∀ a, step s a = none := by
  by_contra hgoes
  -- a run that can always go on has every length
  have hlong : ∀ n, ∃ as s, perform step as s₀ = some s ∧ as.length = n := by
    intro n
    induction n with
    | zero => exact ⟨[], s₀, rfl, rfl⟩
    | succ n ih =>
      obtain ⟨as, s, hrun, hlength⟩ := ih
      obtain ⟨a, ha⟩ : ∃ a, step s a ≠ none :=
        not_forall.mp fun hstuck => hgoes ⟨as, s, hrun, hstuck⟩
      obtain ⟨t, ht⟩ := Option.ne_none_iff_exists'.mp ha
      exact ⟨as ++ [a], t, perform_concat hrun ht, by rw [List.length_append, hlength]; rfl⟩
  obtain ⟨as, s, hrun, hlength⟩ := hlong (bound + 1)
  exact absurd (h as s hrun) (by omega)

/-! ## Sources -/

/-- A source yields some items one after the other, and is left in a state. -/
def Yields (next : σ → Option (α × σ)) : List α → σ → σ → Prop
  | [], s, t => s = t
  | a :: as, s, t => ∃ u, next s = some (a, u) ∧ Yields next as u t

/-- The first of some items. -/
lemma Yields.of_append {next : σ → Option (α × σ)} {as bs : List α} {s u : σ} (h : Yields next (as ++ bs) s u) :
    ∃ t, Yields next as s t ∧ Yields next bs t u := by
  induction as generalizing s with
  | nil => exact ⟨s, rfl, h⟩
  | cons a as ih =>
    obtain ⟨v, hnext, hrest⟩ := h
    obtain ⟨t, hfirst, hlast⟩ := ih hrest
    exact ⟨t, ⟨v, hnext, hfirst⟩, hlast⟩

/-- Items one after the other. -/
lemma Yields.append {next : σ → Option (α × σ)} {as bs : List α} {s t u : σ} (h : Yields next as s t)
    (h' : Yields next bs t u) : Yields next (as ++ bs) s u := by
  induction as generalizing s with
  | nil =>
    obtain rfl : s = t := h
    exact h'
  | cons a as ih =>
    obtain ⟨v, hnext, hrest⟩ := h
    exact ⟨v, hnext, ih hrest⟩

/-- One item. -/
lemma Yields.single {next : σ → Option (α × σ)} {a : α} {s t : σ} (h : next s = some (a, t)) :
    Yields next [a] s t := ⟨t, h, rfl⟩

end DArc
