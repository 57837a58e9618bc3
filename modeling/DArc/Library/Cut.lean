import Mathlib.Tactic

/-!
# Lists cut into pieces of one size

`Cut n xs ps` cuts `xs` into full pieces of `n` items and a last piece that is not full, which is empty when
nothing is left for it.

### Main results

* `exists_cut`: every list can be cut;
* `Cut.flatten`, `Cut.length_le`, `Cut.length_eq`: the pieces, their sizes and their number;
* `Cut.tail_ne_nil`: when only the first piece may be empty.
-/

namespace DArc

variable {α : Type*} {n : ℕ} {xs : List α} {ps : List (List α)}

/-- The list `xs` cut into full pieces of `n` items and a last one that is not full. -/
inductive Cut (n : ℕ) : List α → List (List α) → Prop
  | last {xs : List α} (hlast : xs.length < n) : Cut n xs [xs]
  | full {p xs : List α} {ps : List (List α)} (hfull : p.length = n) (rest : Cut n xs ps) :
      Cut n (p ++ xs) (p :: ps)

/-- Every list can be cut into pieces. -/
lemma exists_cut (hn : 0 < n) (xs : List α) : ∃ ps, Cut n xs ps := by
  induction h : xs.length using Nat.strong_induction_on generalizing xs with
  | _ m ih =>
    subst h
    by_cases hlt : xs.length < n
    · exact ⟨[xs], .last hlt⟩
    · obtain ⟨ps, hps⟩ := ih (xs.drop n).length (by rw [List.length_drop]; omega) (xs.drop n) rfl
      refine ⟨xs.take n :: ps, ?_⟩
      have hcut := Cut.full (List.length_take_of_le (not_lt.mp hlt)) hps
      rwa [List.take_append_drop] at hcut

/-- The pieces make the list. -/
lemma Cut.flatten (h : Cut n xs ps) : ps.flatten = xs := by
  induction h with
  | last hlast => exact List.flatten_singleton
  | full hfull rest ih => rw [List.flatten_cons, ih]

/-- No piece is longer than the size. -/
lemma Cut.length_le (h : Cut n xs ps) {p : List α} (hp : p ∈ ps) : p.length ≤ n := by
  induction h with
  | last hlast =>
    obtain rfl := List.mem_singleton.mp hp
    exact hlast.le
  | full hfull rest ih =>
    rcases List.mem_cons.mp hp with rfl | hp
    · exact hfull.le
    · exact ih hp

/-- There is a piece for each size that fits, and one more. -/
lemma Cut.length_eq (hn : 0 < n) (h : Cut n xs ps) : ps.length = xs.length / n + 1 := by
  induction h with
  | last hlast => rw [List.length_singleton, Nat.div_eq_of_lt hlast]
  | full hfull rest ih =>
    rw [List.length_cons, ih, List.length_append, hfull, Nat.add_div_left _ hn]

/-- No piece is empty when the size does not divide the length. -/
lemma Cut.ne_nil (hn : 0 < n) (h : Cut n xs ps) (hdvd : ¬n ∣ xs.length) {p : List α} (hp : p ∈ ps) :
    p ≠ [] := by
  induction h with
  | last hlast =>
    obtain rfl := List.mem_singleton.mp hp
    rintro rfl
    exact hdvd (dvd_zero n)
  | full hfull rest ih =>
    rcases List.mem_cons.mp hp with rfl | hp
    · rintro rfl
      exact hn.ne hfull
    · refine ih (fun h => hdvd ?_) hp
      rw [List.length_append, hfull]
      exact (Nat.dvd_add_right (dvd_refl n)).mpr h

/-- Only the first piece is empty when the list is empty or the size does not divide the length. -/
lemma Cut.tail_ne_nil (hn : 0 < n) (h : Cut n xs ps) (hxs : xs = [] ∨ ¬n ∣ xs.length) {p : List α}
    (hp : p ∈ ps.tail) : p ≠ [] := by
  rcases hxs with rfl | hdvd
  · have hlen := h.length_eq hn
    rw [List.length_nil, Nat.zero_div, Nat.zero_add] at hlen
    obtain ⟨q, rfl⟩ := List.length_eq_one_iff.mp hlen
    exact absurd hp List.not_mem_nil
  · exact h.ne_nil hn hdvd (List.mem_of_mem_tail hp)

/-- The number of pieces is the rounded quotient when the size does not divide the length. -/
lemma Cut.length_eq_roundUp (hn : 0 < n) (h : Cut n xs ps) (hdvd : ¬n ∣ xs.length) :
    ps.length = (xs.length + n - 1) / n := by
  rw [h.length_eq hn]
  have hmod : xs.length % n ≠ 0 := fun h => hdvd (Nat.dvd_of_mod_eq_zero h)
  have hlt := Nat.mod_lt xs.length hn
  have hdiv := Nat.div_add_mod xs.length n
  have hsplit : xs.length + n - 1 = n * (xs.length / n + 1) + (xs.length % n - 1) := by
    rw [Nat.mul_add, Nat.mul_one]
    omega
  have hsmall : xs.length % n - 1 < n := by omega
  rw [hsplit, Nat.mul_add_div hn, Nat.div_eq_of_lt hsmall, Nat.add_zero]

end DArc
