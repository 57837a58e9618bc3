import Mathlib.Tactic

/-!
# Inputs delivered in chunks

A read callback hands over its data in pieces of its own choosing: a read of `n` items may return
any positive number of items up to `n`, and returns none only at the end of the data.  `Source`
represents every such behaviour: `split` lists the callback's wishes for the reads to come, and an
exhausted list means that reads are served in full.

### Main results

* `Source.read_append`: a read removes what it returns;
* `Source.read_eq_nil_iff`: an empty read means the end of the data;
* `Source.full_read`: without wishes a read is served in full.
-/

namespace DArc

/-- Data still to be read, with the sizes the callback would like to return. -/
structure Source (α : Type*) where
  /-- What has not been read yet. -/
  rest : List α
  /-- The sizes wished for the next reads. -/
  split : List ℕ := []

namespace Source

variable {α : Type*}

/-- How many items a read of `n` is offered: the wish, at least one and at most `n`. -/
def offer (s : Source α) (n : ℕ) : ℕ :=
  match s.split with
  | [] => n
  | w :: _ => min n (max 1 w)

/-- Read at most `n` items. -/
def read (s : Source α) (n : ℕ) : List α × Source α :=
  (s.rest.take (s.offer n), ⟨s.rest.drop (s.offer n), s.split.tail⟩)

/-- A read is offered at most what it asks for. -/
lemma offer_le (s : Source α) (n : ℕ) : s.offer n ≤ n := by
  unfold offer
  split
  · exact le_rfl
  · exact min_le_left _ _

/-- A read that asks for something is offered something. -/
lemma offer_pos (s : Source α) {n : ℕ} (hn : 0 < n) : 0 < s.offer n := by
  unfold offer
  split
  · exact hn
  · omega

/-- A read removes from the source exactly what it returns. -/
@[simp] lemma read_append (s : Source α) (n : ℕ) : (s.read n).1 ++ (s.read n).2.rest = s.rest :=
  List.take_append_drop _ _

/-- A read returns at most what it asks for. -/
lemma length_read_le (s : Source α) (n : ℕ) : (s.read n).1.length ≤ n :=
  Nat.le_trans (List.length_take_le _ _) (s.offer_le n)

/-- A read that asks for something returns nothing only at the end of the data. -/
lemma read_eq_nil_iff (s : Source α) {n : ℕ} (hn : 0 < n) : (s.read n).1 = [] ↔ s.rest = [] := by
  have hne : s.offer n ≠ 0 := (s.offer_pos hn).ne'
  simp [read, List.take_eq_nil_iff, hne]

/-- A nonempty read shortens the source. -/
lemma length_rest_read_lt (s : Source α) {n : ℕ} (h : (s.read n).1 ≠ []) :
    (s.read n).2.rest.length < s.rest.length := by
  have hsum := congrArg List.length (s.read_append n)
  have hpos := List.length_pos_of_ne_nil h
  rw [List.length_append] at hsum
  omega

/-- Without wishes a read is served in full. -/
lemma full_read (xs : List α) (n : ℕ) :
    (⟨xs, []⟩ : Source α).read n = (xs.take n, ⟨xs.drop n, []⟩) := rfl

end Source

end DArc
