import Mathlib.Tactic

/-!
# Parties in a row

Parties that work in a row wait for their neighbours: one that hands something over waits for the next one,
and one that needs something waits for the one before.  If the last party waits for nobody to hand over to,
and the first one for nobody to get something from, then not all can wait.

### Main results

* `all_done_of_waits`: a row in which every party waits or is done is a row in which all are done.
-/

namespace DArc

variable {N : ℕ} {right left done : ℕ → Prop}

/-- When a party that waits for the next one has such a party behind it, none waits for the next one. -/
lemma not_right_of_waits (hright : ∀ i < N, right i → i + 1 < N ∧ right (i + 1)) (k : ℕ) :
    ∀ i < N, N - i = k → ¬right i := by
  induction k with
  | zero =>
    intro i hi hk
    omega
  | succ k ih =>
    intro i hi hk hr
    obtain ⟨hnext, hr'⟩ := hright i hi hr
    exact ih (i + 1) hnext (by omega) hr'

/-- When a party that waits for the one before it has such a party in front of it, none waits for the one
before it. -/
lemma not_left_of_waits (hleft : ∀ i < N, left i → 0 < i ∧ left (i - 1)) (i : ℕ) :
    i < N → ¬left i := by
  induction i with
  | zero =>
    intro hi hl
    exact absurd (hleft 0 hi hl).1 (lt_irrefl 0)
  | succ i ih =>
    intro hi hl
    exact ih (by omega) (hleft (i + 1) hi hl).2

/-- **Not all can wait**: if every party of a row waits for one of its neighbours or is done, where a wait
is always for a neighbour that waits in the same direction, then all parties are done. -/
theorem all_done_of_waits (hall : ∀ i < N, right i ∨ left i ∨ done i)
    (hright : ∀ i < N, right i → i + 1 < N ∧ right (i + 1))
    (hleft : (∀ i < N, ¬right i) → ∀ i < N, left i → 0 < i ∧ left (i - 1)) :
    ∀ i < N, done i := by
  have hnr : ∀ i < N, ¬right i := fun i hi => not_right_of_waits hright _ i hi rfl
  intro i hi
  obtain hr | hl | hd := hall i hi
  · exact absurd hr (hnr i hi)
  · exact absurd hl (not_left_of_waits (hleft hnr) i hi)
  · exact hd

end DArc
