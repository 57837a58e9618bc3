import Mathlib.Data.List.Sort
import Mathlib.Tactic

/-!
# Items placed one behind the other

`Placed pos size p xs` says that the first item of `xs` is at the position `p` and every other one behind the
item in front of it.  Items without size may share a position, and so may change places.

### Main results

* `Placed.filter`: items without size can be left out;
* `Placed.pos_eq`: an item is behind the sizes in front of it;
* `Placed.filter_eq_of_perm`: a permutation that is sorted by positions changes only places of items without size.
-/

namespace DArc

variable {α : Type*} {pos size : α → Int}

/-- Every item is behind the items in front of it. -/
def Placed (pos size : α → Int) : Int → List α → Prop
  | _, [] => True
  | p, x :: xs => pos x = p ∧ Placed pos size (p + size x) xs

/-- The items with a size. -/
def sized (size : α → Int) (xs : List α) : List α := xs.filter fun x => size x ≠ 0

/-- An item with a size is kept. -/
lemma mem_sized {x : α} {xs : List α} : x ∈ sized size xs ↔ x ∈ xs ∧ size x ≠ 0 := by
  rw [sized, List.mem_filter, decide_eq_true_eq]

/-- An item without size is left out. -/
lemma sized_cons_of_zero {x : α} (h : size x = 0) (xs : List α) : sized size (x :: xs) = sized size xs :=
  List.filter_cons_of_neg (by simpa using h)

/-- An item with a size is kept in front. -/
lemma sized_cons_of_ne {x : α} (h : size x ≠ 0) (xs : List α) :
    sized size (x :: xs) = x :: sized size xs := List.filter_cons_of_pos (by simpa using h)

/-- Items without size can be left out. -/
lemma Placed.filter {p : Int} {xs : List α} (h : Placed pos size p xs) : Placed pos size p (sized size xs) := by
  induction xs generalizing p with
  | nil => exact h
  | cons x xs ih =>
    by_cases hzero : size x = 0
    · rw [sized_cons_of_zero hzero]
      have hrest := ih h.2
      rwa [hzero, add_zero] at hrest
    · rw [sized_cons_of_ne hzero]
      exact ⟨h.1, ih h.2⟩

/-- An item with a size is behind the sizes in front of it. -/
lemma Placed.pos_eq {p : Int} {before after : List α} {x : α}
    (h : Placed pos size p (sized size (before ++ x :: after))) (hx : size x ≠ 0) :
    pos x = p + (before.map size).sum := by
  induction before generalizing p with
  | nil =>
    rw [List.nil_append, sized_cons_of_ne hx] at h
    rw [List.map_nil, List.sum_nil, add_zero]
    exact h.1
  | cons y before ih =>
    rw [List.map_cons, List.sum_cons, ← add_assoc]
    rw [List.cons_append] at h
    by_cases hzero : size y = 0
    · rw [sized_cons_of_zero hzero] at h
      rw [hzero, add_zero]
      exact ih h
    · rw [sized_cons_of_ne hzero] at h
      exact ih h.2

/-- Items are not in front of the first position. -/
lemma Placed.le_pos {p : Int} {xs : List α} (h : Placed pos size p xs) (hsize : ∀ x ∈ xs, 0 ≤ size x) :
    ∀ x ∈ xs, p ≤ pos x := by
  induction xs generalizing p with
  | nil => exact fun x hx => absurd hx List.not_mem_nil
  | cons y ys ih =>
    intro x hx
    have hy := hsize y List.mem_cons_self
    rcases List.mem_cons.mp hx with rfl | hx
    · exact h.1.ge
    · have hle := ih h.2 (fun z hz => hsize z (List.mem_cons_of_mem y hz)) x hx
      omega

/-- Items with sizes are at different positions. -/
lemma Placed.pairwise_lt {p : Int} {xs : List α} (h : Placed pos size p xs) (hsize : ∀ x ∈ xs, 0 ≤ size x) :
    (sized size xs).Pairwise fun x y => pos x < pos y := by
  induction xs generalizing p with
  | nil => exact List.Pairwise.nil
  | cons x xs ih =>
    have hrest : ∀ y ∈ xs, 0 ≤ size y := fun y hy => hsize y (List.mem_cons_of_mem x hy)
    by_cases hzero : size x = 0
    · rw [sized_cons_of_zero hzero]
      exact ih h.2 hrest
    · rw [sized_cons_of_ne hzero]
      refine List.Pairwise.cons (fun y hy => ?_) (ih h.2 hrest)
      have hle := h.2.le_pos hrest y (mem_sized.mp hy).1
      have hx := hsize x List.mem_cons_self
      have hpos := h.1
      omega

/-- A permutation that is sorted by positions keeps the order of items with sizes. -/
lemma Placed.filter_eq_of_perm {p : Int} {xs ys : List α} (h : Placed pos size p xs)
    (hsize : ∀ x ∈ xs, 0 ≤ size x) (hperm : ys.Perm xs) (hsorted : ys.Pairwise fun x y => pos x ≤ pos y) :
    sized size ys = sized size xs := by
  have hlt := h.pairwise_lt hsize
  have hmem : ∀ y ∈ sized size ys, y ∈ sized size xs := fun y hy =>
    (hperm.filter _).mem_iff.mp hy
  have hdistinct : (sized size xs).Pairwise fun x y => pos x ≠ pos y := hlt.imp fun hxy => hxy.ne
  have hsymm : Std.Symm fun x y : α => pos x ≠ pos y := ⟨fun _ _ hne => hne.symm⟩
  refine List.Perm.eq_of_pairwise (fun x y hx hy hxy hyx => ?_) (hsorted.filter _)
    (hlt.imp fun hlt => le_of_lt hlt) (hperm.filter _)
  by_contra hne
  exact hdistinct.forall (hmem x hx) hy hne (le_antisymm hxy hyx)

end DArc
