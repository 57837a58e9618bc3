import Mathlib.Tactic

/-!
# Spans of a list and copies inside a list

`span xs pos n` is the list of the `n` items of `xs` from the place `pos` on.  A decoder that rebuilds `xs` holds
spans of it; `copyWithin` continues such a span by items it already has, one at a time, so that a source that
overlaps the destination repeats what was just appended.

### Main results

* `span_append`: neighbouring spans form one;
* `Repeats.span_eq`: a repeated span is the same span;
* `copyWithin_span`: copying a repetition continues a span by the items that follow it.
-/

namespace DArc

variable {α : Type*} {xs : List α} {pos n m src dest len : ℕ}

/-! ## Spans -/

/-- The `n` items of a list from a place on. -/
def span (xs : List α) (pos n : ℕ) : List α := (xs.drop pos).take n

/-- Nothing is a span of no items. -/
@[simp] lemma span_zero (xs : List α) (pos : ℕ) : span xs pos 0 = [] := List.take_zero

/-- A span of one item. -/
lemma span_one (xs : List α) (pos : ℕ) : span xs pos 1 = xs[pos]?.toList := by
  rw [span, List.take_one, List.head?_drop]

/-- A span inside the list has its length. -/
lemma length_span (h : pos + n ≤ xs.length) : (span xs pos n).length = n := by
  rw [span, List.length_take, List.length_drop]
  omega

/-- A span is never longer than asked for. -/
lemma length_span_le (xs : List α) (pos n : ℕ) : (span xs pos n).length ≤ n := by
  rw [span, List.length_take]
  exact min_le_left _ _

/-- Neighbouring spans form one. -/
lemma span_append (xs : List α) (pos m n : ℕ) : span xs pos m ++ span xs (pos + m) n = span xs pos (m + n) := by
  rw [span, span, span, ← List.drop_drop, ← List.take_add]

/-- The items of a span. -/
lemma getElem?_span {i : ℕ} (h : i < n) : (span xs pos n)[i]? = xs[pos + i]? := by
  rw [span, List.getElem?_take_of_lt h, List.getElem?_drop]

/-- The front of a span. -/
lemma take_span (h : m ≤ n) : (span xs pos n).take m = span xs pos m := by
  rw [span, span, List.take_take, min_eq_left h]

/-- What is behind the front of a span. -/
lemma drop_span (xs : List α) (pos m n : ℕ) : (span xs pos n).drop m = span xs (pos + m) (n - m) := by
  rw [span, span, List.drop_take, List.drop_drop]

/-- A span of a span. -/
lemma span_span (h : m + len ≤ n) : span (span xs pos n) m len = span xs (pos + m) len := by
  rw [span, drop_span, take_span (by omega)]

/-- The span of everything is the list. -/
lemma span_all (h : xs.length ≤ n) : span xs 0 n = xs := by
  rw [span, List.drop_zero, List.take_of_length_le h]

/-- A span of the front of a list. -/
lemma span_take (h : pos + len ≤ n) : span (xs.take n) pos len = span xs pos len := by
  rw [← List.drop_zero (l := xs), ← span, span_span h, zero_add, List.drop_zero]

/-- The front of a list and the span behind it. -/
lemma take_append_span (xs : List α) (pos n : ℕ) : xs.take pos ++ span xs pos n = xs.take (pos + n) := by
  have hfront := span_append xs 0 pos n
  rwa [zero_add, span, span, List.drop_zero] at hfront

/-! ## Repetitions -/

/-- The list has the same `len` items from `src` on as from `dest` on. -/
def Repeats (xs : List α) (src dest len : ℕ) : Prop := ∀ j < len, xs[src + j]? = xs[dest + j]?

/-- Repetitions can be cut. -/
lemma Repeats.tail (h : Repeats xs src dest len) {k : ℕ} (hk : k + n ≤ len) :
    Repeats xs (src + k) (dest + k) n := by
  intro j hj
  rw [add_assoc, add_assoc]
  exact h (k + j) (by omega)

/-- A repeated span is the same span. -/
lemma Repeats.span_eq (h : Repeats xs src dest len) : span xs src len = span xs dest len := by
  apply List.ext_getElem?
  intro i
  rcases Nat.lt_or_ge i len with hi | hi
  · rw [getElem?_span hi, getElem?_span hi, h i hi]
  · rw [List.getElem?_eq_none ((length_span_le _ _ _).trans hi),
      List.getElem?_eq_none ((length_span_le _ _ _).trans hi)]

/-! ## Copies -/

/-- Continues a list by `n` of its own items from the place `src` on, the appended items included. -/
def copyWithin (out : List α) (src : ℕ) : ℕ → List α
  | 0 => out
  | n + 1 => copyWithin (out ++ out[src]?.toList) (src + 1) n

/-- **Copying a repetition continues a span by the items that follow it.** -/
theorem copyWithin_span {start k : ℕ} (hsrc : src < k) (hend : start + k + n ≤ xs.length)
    (h : Repeats xs (start + src) (start + k) n) :
    copyWithin (span xs start k) src n = span xs start (k + n) := by
  induction n generalizing src k with
  | zero => rfl
  | succ n ih =>
    have hitem : (span xs start k)[src]? = xs[start + k]? := by
      rw [getElem?_span hsrc]
      exact h 0 (by omega)
    have hnext : span xs start k ++ (span xs start k)[src]?.toList = span xs start (k + 1) := by
      rw [hitem, ← span_append, span_one]
    rw [copyWithin, hnext, ih (by omega) (by omega) (h.tail (k := 1) (by omega)), add_assoc, add_comm 1 n]

end DArc
