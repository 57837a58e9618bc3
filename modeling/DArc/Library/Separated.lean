import Mathlib.Data.List.TakeWhile
import Mathlib.Tactic

/-!
# Lists with separators

`joinWith sep` puts a separator between lists, and `split c` cuts a list at every occurrence of the
item `c`.

### Main results

* `split_joinWith`: lists without the item come back when they are joined by it and split again;
* `joinWith_split`: joining what `split` returns gives the list.
-/

namespace DArc

variable {α : Type*}

/-- Put `sep` between the lists. -/
def joinWith (sep : List α) : List (List α) → List α
  | [] => []
  | [x] => x
  | x :: y :: xs => x ++ sep ++ joinWith sep (y :: xs)

/-- A first list and a separator in front of the others. -/
lemma joinWith_cons (sep x : List α) {xs : List (List α)} (h : xs ≠ []) :
    joinWith sep (x :: xs) = x ++ sep ++ joinWith sep xs := by
  cases xs with
  | nil => exact absurd rfl h
  | cons y xs => rfl

variable [DecidableEq α]

/-- Cut the list at every `c`. -/
def split (c : α) (s : List α) : List (List α) :=
  match _h : s.dropWhile (· ≠ c) with
  | [] => [s.takeWhile (· ≠ c)]
  | _ :: rest => s.takeWhile (· ≠ c) :: split c rest
termination_by s.length
decreasing_by
  have hlen := List.length_dropWhile_le (· ≠ c) s
  rw [_h, List.length_cons] at hlen
  omega

/-- A list without `c` is one piece. -/
lemma split_of_notMem {c : α} {s : List α} (h : c ∉ s) : split c s = [s] := by
  have hall : ∀ x ∈ s, (decide (x ≠ c)) = true := by
    intro x hx
    rw [decide_eq_true_eq]
    rintro rfl
    exact h hx
  have hdrop : s.dropWhile (· ≠ c) = [] := List.dropWhile_eq_nil_iff.mpr hall
  have htake : s.takeWhile (· ≠ c) = s := List.takeWhile_eq_self_iff.mpr hall
  rw [split]
  split
  · rw [htake]
  · next h' => rw [hdrop] at h'; cases h'

/-- The piece before the first `c` is cut off. -/
lemma split_append_cons {c : α} {x : List α} (h : c ∉ x) (rest : List α) :
    split c (x ++ c :: rest) = x :: split c rest := by
  have hall : ∀ y ∈ x, (decide (y ≠ c)) = true := by
    intro y hy
    rw [decide_eq_true_eq]
    rintro rfl
    exact h hy
  have hdrop : (x ++ c :: rest).dropWhile (· ≠ c) = c :: rest := by
    rw [List.dropWhile_append_of_pos hall, List.dropWhile_cons_of_neg (by simp)]
  have htake : (x ++ c :: rest).takeWhile (· ≠ c) = x := by
    rw [List.takeWhile_append_of_pos hall, List.takeWhile_cons_of_neg (by simp), List.append_nil]
  rw [split]
  split
  · next h' => rw [hdrop] at h'; cases h'
  · next y t h' =>
    rw [hdrop] at h'
    obtain ⟨rfl, rfl⟩ := List.cons.inj h'
    rw [htake]

/-- Lists without `c` come back when they are joined by `c` and split again. -/
lemma split_joinWith {c : α} {xs : List (List α)} (hne : xs ≠ []) (h : ∀ x ∈ xs, c ∉ x) :
    split c (joinWith [c] xs) = xs := by
  induction xs with
  | nil => exact absurd rfl hne
  | cons x xs ih =>
    have hx := h x List.mem_cons_self
    by_cases hxs : xs = []
    · subst hxs
      exact split_of_notMem hx
    · rw [joinWith_cons _ _ hxs, List.append_assoc, List.singleton_append, split_append_cons hx,
        ih hxs fun y hy => h y (List.mem_cons_of_mem _ hy)]

/-- There is always a piece. -/
lemma split_ne_nil (c : α) (s : List α) : split c s ≠ [] := by
  rw [split]
  split <;> simp

/-- Joining the pieces gives the list. -/
lemma joinWith_split (c : α) (s : List α) : joinWith [c] (split c s) = s := by
  fun_induction split c s with
  | case1 s h =>
    have hwhole := List.takeWhile_append_dropWhile (p := (· ≠ c)) (l := s)
    rw [h, List.append_nil] at hwhole
    exact hwhole
  | case2 s x rest h ih =>
    have hwhole := List.takeWhile_append_dropWhile (p := (· ≠ c)) (l := s)
    have hx : x = c := by
      have hhead := List.head?_dropWhile_not (· ≠ c) s
      rw [h] at hhead
      simpa using hhead
    rw [joinWith_cons _ _ (split_ne_nil c rest), ih, List.append_assoc, List.singleton_append]
    rw [h, hx] at hwhole
    exact hwhole

/-- The pieces do not contain `c`. -/
lemma notMem_of_mem_split {c : α} {s x : List α} (h : x ∈ split c s) : c ∉ x := by
  have htake : ∀ t : List α, c ∉ t.takeWhile (· ≠ c) := by
    intro t hmem
    have hall := List.mem_takeWhile_imp hmem
    simp at hall
  fun_induction split c s with
  | case1 s _ =>
    obtain rfl := List.mem_singleton.mp h
    exact htake s
  | case2 s y rest _ ih =>
    rcases List.mem_cons.mp h with rfl | h
    · exact htake s
    · exact ih h

/-- What is in a piece is in the list. -/
lemma mem_of_mem_split {c d : α} {s x : List α} (h : x ∈ split c s) (hd : d ∈ x) : d ∈ s := by
  fun_induction split c s with
  | case1 s _ =>
    obtain rfl := List.mem_singleton.mp h
    exact (List.takeWhile_sublist _).subset hd
  | case2 s y rest hdrop ih =>
    rcases List.mem_cons.mp h with rfl | h
    · exact (List.takeWhile_sublist _).subset hd
    · have hmem : d ∈ s.dropWhile (· ≠ c) := by
        rw [hdrop]
        exact List.mem_cons_of_mem _ (ih h)
      exact (List.dropWhile_sublist _).subset hmem

end DArc
