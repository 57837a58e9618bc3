import Mathlib.Tactic

/-!
# Segments of a joined list

`segmentStart xss i` is the place in `xss.flatten` at which the `i`-th list begins.

### Main results

* `segmentStart_mono`: segments follow each other;
* `drop_flatten`: what follows a place inside a segment;
* `exists_segment`: every item is in a segment.
-/

namespace DArc

variable {α : Type*} {xss : List (List α)} {i j : ℕ}

/-- The place at which the `i`-th list begins in the joined list. -/
def segmentStart (xss : List (List α)) (i : ℕ) : ℕ := (xss.take i).flatten.length

/-- The first segment begins at 0. -/
@[simp] lemma segmentStart_zero : segmentStart xss 0 = 0 := rfl

/-- A segment begins where the one before it ends. -/
lemma segmentStart_succ (h : i < xss.length) :
    segmentStart xss (i + 1) = segmentStart xss i + xss[i].length := by
  unfold segmentStart
  rw [List.take_succ_eq_append_getElem h, List.flatten_append, List.flatten_singleton,
    List.length_append]

/-- The last segment ends at the end. -/
lemma segmentStart_length : segmentStart xss xss.length = xss.flatten.length := by
  unfold segmentStart
  rw [List.take_length]

/-- The places behind the first list are shifted by its length. -/
lemma segmentStart_cons (xs : List α) (i : ℕ) :
    segmentStart (xs :: xss) (i + 1) = xs.length + segmentStart xss i := by
  unfold segmentStart
  rw [List.take_succ_cons, List.flatten_cons, List.length_append]

/-- Segments follow each other. -/
lemma segmentStart_mono (h : i ≤ j) : segmentStart xss i ≤ segmentStart xss j := by
  have hprefix : (xss.take i).Sublist (xss.take j) := (List.take_sublist_take_left h)
  exact hprefix.flatten.length_le

/-- No segment begins behind the end. -/
lemma segmentStart_le (i : ℕ) : segmentStart xss i ≤ xss.flatten.length :=
  (List.take_sublist i xss).flatten.length_le

/-- Behind a place in a segment there are the rest of the segment and the segments behind it. -/
lemma drop_flatten (hi : i < xss.length) {pos : ℕ} (hpos : segmentStart xss i ≤ pos)
    (hend : pos ≤ segmentStart xss (i + 1)) :
    xss.flatten.drop pos =
      xss[i].drop (pos - segmentStart xss i) ++ (xss.drop (i + 1)).flatten := by
  have hsplit : xss.flatten =
      (xss.take i).flatten ++ (xss[i] ++ (xss.drop (i + 1)).flatten) := by
    rw [← List.flatten_cons, ← List.drop_eq_getElem_cons hi, ← List.flatten_append,
      List.take_append_drop]
  have hlen : pos - (xss.take i).flatten.length - xss[i].length = 0 := by
    rw [segmentStart_succ hi] at hend
    unfold segmentStart at hend
    omega
  rw [hsplit, List.drop_append, List.drop_of_length_le hpos, List.nil_append, List.drop_append, hlen,
    List.drop_zero]
  rfl

/-- An item of the joined list is in the segment in which its place lies. -/
lemma exists_segment {pos : ℕ} {x : α} (h : xss.flatten[pos]? = some x) :
    ∃ i xs, xss[i]? = some xs ∧ x ∈ xs ∧ segmentStart xss i ≤ pos ∧ pos < segmentStart xss (i + 1) := by
  induction xss generalizing pos with
  | nil => cases h
  | cons xs xss ih =>
    rw [List.flatten_cons] at h
    by_cases hlt : pos < xs.length
    · rw [List.getElem?_append_left hlt] at h
      refine ⟨0, xs, rfl, List.mem_of_getElem? h, Nat.zero_le _, ?_⟩
      rw [segmentStart_cons]
      exact Nat.lt_add_right _ hlt
    · rw [List.getElem?_append_right (not_lt.mp hlt)] at h
      obtain ⟨i, ys, hi, hx, hstart, hend⟩ := ih h
      refine ⟨i + 1, ys, hi, hx, ?_, ?_⟩
      · rw [segmentStart_cons]
        omega
      · rw [segmentStart_cons]
        omega

end DArc
