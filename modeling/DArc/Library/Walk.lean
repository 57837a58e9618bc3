import Mathlib.Tactic
import DArc.Library.Fuel

/-!
# Walks

A loop that at each turn either ends with a result or goes on at another point is a walk of its step function.
When the walk can reach only finitely many points, it ends exactly when none of them leads back to itself.

### Main results

* `Leads`: one point leads to another;
* `walk`, `walk_steady`: the loop with fuel;
* `walk_ends_of_measure`: a walk along which a measure decreases ends;
* `walk_ends_iff`: the walk ends iff no point it reaches leads back to itself.
-/

namespace DArc

open Relation

variable {α β : Type*}

/-- The loop from a point: a step ends it with a result or goes on at another point. -/
def walk (step : α → β ⊕ α) : ℕ → α → Option β
  | 0, _ => none
  | fuel + 1, a =>
    match step a with
    | .inl b => some b
    | .inr next => walk step fuel next

/-- The loop goes on at `y` when it comes to `x`. -/
def Leads (step : α → β ⊕ α) (x y : α) : Prop := step x = .inr y

variable {step : α → β ⊕ α} {a x y : α}

/-- A step that ends the walk. -/
lemma walk_of_inl {b : β} (h : step x = .inl b) (fuel : ℕ) : walk step (fuel + 1) x = some b := by
  rw [walk, h]

/-- A step that goes on. -/
lemma walk_of_leads (h : Leads step x y) (fuel : ℕ) : walk step (fuel + 1) x = walk step fuel y := by
  rw [walk, h]

/-- More fuel does not change the result of a walk. -/
lemma walk_steady (step : α → β ⊕ α) (a : α) : Steady fun fuel => walk step fuel a := by
  intro fuel b h
  induction fuel generalizing a with
  | zero => cases h
  | succ fuel ih =>
    cases hstep : step a with
    | inl r =>
      dsimp only at h ⊢
      rw [walk_of_inl hstep] at h ⊢
      exact h
    | inr next =>
      dsimp only at h ⊢
      rw [walk_of_leads hstep] at h ⊢
      exact ih next h

/-- A walk ends at a point it reaches, at the result of the step there. -/
lemma walk_result {fuel : ℕ} {b : β} (h : walk step fuel a = some b) :
    ∃ x, ReflTransGen (Leads step) a x ∧ step x = .inl b := by
  induction fuel generalizing a with
  | zero => cases h
  | succ fuel ih =>
    cases hstep : step a with
    | inl r =>
      rw [walk_of_inl hstep] at h
      exact ⟨a, .refl, hstep.trans (congrArg _ (Option.some.inj h))⟩
    | inr next =>
      rw [walk_of_leads hstep] at h
      obtain ⟨x, hreach, hx⟩ := ih h
      exact ⟨x, .head hstep hreach, hx⟩

/-- A step that ends the walk at a point it reaches gives its result. -/
lemma walk_of_reflTransGen {b : β} (h : ReflTransGen (Leads step) a x) (hx : step x = .inl b) :
    ∃ fuel, walk step fuel a = some b := by
  induction h using ReflTransGen.head_induction_on with
  | refl => exact ⟨1, walk_of_inl hx 0⟩
  | head hstep _ ih =>
    obtain ⟨fuel, hwalk⟩ := ih
    exact ⟨fuel + 1, (walk_of_leads hstep fuel).trans hwalk⟩

/-- From a point further on less fuel suffices. -/
lemma walk_of_transGen (h : TransGen (Leads step) x y) {fuel : ℕ} {b : β} (hx : walk step fuel x = some b) :
    ∃ less < fuel, walk step less y = some b := by
  induction h with
  | single hstep =>
    cases fuel with
    | zero => cases hx
    | succ fuel =>
      rw [walk_of_leads hstep] at hx
      exact ⟨fuel, Nat.lt_succ_self fuel, hx⟩
  | tail _ hstep ih =>
    obtain ⟨less, hless, hwalk⟩ := ih
    cases less with
    | zero => cases hwalk
    | succ less =>
      rw [walk_of_leads hstep] at hwalk
      exact ⟨less, by omega, hwalk⟩

/-- A walk that ends does not pass a point that leads back to itself. -/
lemma not_leads_back {fuel : ℕ} {b : β} (hx : walk step fuel x = some b) : ¬ TransGen (Leads step) x x := by
  intro hback
  induction fuel using Nat.strong_induction_on with
  | _ fuel ih =>
    obtain ⟨less, hless, hwalk⟩ := walk_of_transGen hback hx
    exact ih less hless hwalk

/-- Without an end, every point leads on to one without an end. -/
lemma exists_leads (hx : ∀ fuel, walk step fuel x = none) :
    ∃ y, Leads step x y ∧ ∀ fuel, walk step fuel y = none := by
  cases hstep : step x with
  | inl b =>
    have hend := walk_of_inl hstep 0
    rw [hx] at hend
    cases hend
  | inr y => exact ⟨y, hstep, fun fuel => (walk_of_leads hstep fuel).symm.trans (hx _)⟩

/-- A walk that does not end leads through a sequence of points. -/
lemma exists_sequence (ha : ∀ fuel, walk step fuel a = none) :
    ∃ points : ℕ → α, points 0 = a ∧ ∀ n, Leads step (points n) (points (n + 1)) := by
  choose next hnext hends using fun x : { x // ∀ fuel, walk step fuel x = none } => exists_leads x.2
  refine ⟨fun n => ((fun x => ⟨next x, hends x⟩)^[n] ⟨a, ha⟩ : { x // ∀ fuel, walk step fuel x = none }).1, rfl, ?_⟩
  intro n
  dsimp only
  rw [Function.iterate_succ_apply']
  exact hnext _

/-- A walk along which a measure decreases ends. -/
lemma walk_ends_of_measure (measure : α → ℕ)
    (hless : ∀ x y, ReflTransGen (Leads step) a x → Leads step x y → measure y < measure x) {fuel : ℕ}
    (hfuel : measure a < fuel) : ∃ b, walk step fuel a = some b := by
  induction fuel generalizing a with
  | zero => exact absurd hfuel (Nat.not_lt_zero _)
  | succ fuel ih =>
    cases hstep : step a with
    | inl b => exact ⟨b, walk_of_inl hstep fuel⟩
    | inr next =>
      rw [walk_of_leads hstep]
      have hlt := hless a next .refl hstep
      exact ih (fun x y hreach => hless x y (.head hstep hreach)) (by omega)

/-- **The walk ends exactly when no point that it reaches leads back to itself**, if it can reach only finitely many
points. -/
theorem walk_ends_iff (hfinite : {x | ReflTransGen (Leads step) a x}.Finite) :
    (∃ fuel b, walk step fuel a = some b) ↔
      ∀ x, ReflTransGen (Leads step) a x → ¬ TransGen (Leads step) x x := by
  constructor
  · rintro ⟨fuel, b, hwalk⟩ x hreach
    rcases reflTransGen_iff_eq_or_transGen.mp hreach with rfl | hleads
    · exact not_leads_back hwalk
    · obtain ⟨less, -, hx⟩ := walk_of_transGen hleads hwalk
      exact not_leads_back hx
  · intro hforward
    by_contra hnever
    obtain ⟨points, hstart, hleads⟩ := exists_sequence (a := a) fun fuel =>
      Option.eq_none_iff_forall_ne_some.mpr fun b hb => hnever ⟨fuel, b, hb⟩
    have hon : ∀ n, ReflTransGen (Leads step) a (points n) := by
      intro n
      induction n with
      | zero => rw [hstart]
      | succ n ih => exact ih.tail (hleads n)
    have hlater : ∀ m k, TransGen (Leads step) (points m) (points (m + (k + 1))) := by
      intro m k
      induction k with
      | zero => exact .single (hleads m)
      | succ k ih => exact ih.tail (hleads (m + (k + 1)))
    have := hfinite.to_subtype
    obtain ⟨m, n, hne, heq⟩ := Finite.exists_ne_map_eq_of_infinite
      fun n => (⟨points n, hon n⟩ : {x | ReflTransGen (Leads step) a x})
    have hsame : points m = points n := congrArg Subtype.val heq
    rcases Nat.lt_or_gt_of_ne hne with hlt | hlt
    · obtain ⟨k, rfl⟩ := Nat.exists_eq_add_of_lt hlt
      have hback := hlater m k
      rw [← Nat.add_assoc, ← hsame] at hback
      exact hforward _ (hon m) hback
    · obtain ⟨k, rfl⟩ := Nat.exists_eq_add_of_lt hlt
      have hback := hlater n k
      rw [← Nat.add_assoc, hsame] at hback
      exact hforward _ (hon n) hback

end DArc
