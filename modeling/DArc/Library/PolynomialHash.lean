import Mathlib.Algebra.BigOperators.Intervals
import Mathlib.Algebra.BigOperators.Ring.Finset
import Mathlib.Data.BitVec
import Mathlib.Tactic.Ring
import Mathlib.Tactic.LinearCombination

/-!
# Polynomial hashes

The polynomial hash of `n` items is what Horner's rule makes of them at some base, in any commutative ring. It is
kept up when the window moves on: the items that enter are added, and those that leave are taken away with the
weight that they have got by then.

### Main results

* `polyHash_eq_sum`: the hash is the sum of the items by their weights;
* `polyHash_add`: the hash of two neighbouring windows;
* `polyHash_slide`: the hash of a window that moves on by any number of items;
* `toNat_polyHash`: the hash in machine words is the sum of the items, reduced.
-/

namespace DArc

open Finset

variable {R : Type*} [CommRing R] {b : R} {f g : ℕ → R}

/-- The hash of the first `n` items, by Horner's rule. -/
def polyHash (b : R) (f : ℕ → R) : ℕ → R
  | 0 => 0
  | n + 1 => polyHash b f n * b + f n

/-- **The hash is the sum of the items by their weights.** -/
theorem polyHash_eq_sum (b : R) (f : ℕ → R) (n : ℕ) :
    polyHash b f n = ∑ j ∈ range n, f j * b ^ (n - 1 - j) := by
  induction n with
  | zero => rfl
  | succ n ih =>
    rw [polyHash, ih, sum_range_succ, sum_mul, Nat.succ_sub_one, Nat.sub_self, pow_zero, mul_one]
    congr 1
    apply sum_congr rfl
    intro j hj
    have hlt : j < n := mem_range.mp hj
    rw [mul_assoc, ← pow_succ, show n - 1 - j + 1 = n - j by omega]

/-- The hash depends on the items in the window only. -/
lemma polyHash_congr {n : ℕ} (h : ∀ j < n, f j = g j) : polyHash b f n = polyHash b g n := by
  induction n with
  | zero => rfl
  | succ n ih =>
    rw [polyHash, polyHash, ih fun j hj => h j (Nat.lt_succ_of_lt hj), h n (Nat.lt_succ_self n)]

/-- The hash of two neighbouring windows. -/
lemma polyHash_add (b : R) (f : ℕ → R) (m n : ℕ) :
    polyHash b f (m + n) = polyHash b f m * b ^ n + polyHash b (fun j => f (m + j)) n := by
  induction n with
  | zero => rw [Nat.add_zero, pow_zero, mul_one, polyHash, add_zero]
  | succ n ih =>
    rw [← Nat.add_assoc, polyHash, ih, polyHash]
    ring

/-- **The window moves on by `m` items.** The items that enter come behind, those that leave are taken away with
the weight that they have got. -/
lemma polyHash_slide (b : R) (f : ℕ → R) (m n : ℕ) :
    polyHash b (fun j => f (m + j)) n =
      polyHash b f n * b ^ m + polyHash b (fun j => f (n + j)) m - b ^ n * polyHash b f m := by
  have h₁ := polyHash_add b f m n
  have h₂ := polyHash_add b f n m
  rw [Nat.add_comm] at h₂
  linear_combination h₂ - h₁

/-- The window moves on by one item. -/
lemma polyHash_slide_one (b : R) (f : ℕ → R) (n : ℕ) :
    polyHash b (fun j => f (1 + j)) n = polyHash b f n * b + f n - b ^ n * f 0 := by
  rw [polyHash_slide]
  simp [polyHash]

/-- A list, hashed item by item. -/
lemma foldl_eq_polyHash (b : R) (f : ℕ → R) (n : ℕ) :
    ((List.range n).map f).foldl (fun h x => h * b + x) 0 = polyHash b f n := by
  induction n with
  | zero => rfl
  | succ n ih =>
    rw [List.range_succ, List.map_append, List.foldl_append, ih]
    rfl

/-- **The hash in words of `w` bits**, as a number: the sum of the items by their weights, modulo `2 ^ w`. -/
theorem toNat_polyHash {w : ℕ} (b : BitVec w) (f : ℕ → ℕ) (n : ℕ) :
    (polyHash b (fun j => (f j : BitVec w)) n).toNat = (∑ j ∈ range n, f j * b.toNat ^ (n - 1 - j)) % 2 ^ w := by
  have hcast : polyHash b (fun j => (f j : BitVec w)) n =
      ((∑ j ∈ range n, f j * b.toNat ^ (n - 1 - j) : ℕ) : BitVec w) := by
    rw [polyHash_eq_sum, Nat.cast_sum]
    refine sum_congr rfl fun j _ => ?_
    rw [Nat.cast_mul, Nat.cast_pow, BitVec.natCast_eq_ofNat _ b.toNat, BitVec.ofNat_toNat, BitVec.setWidth_eq]
  rw [hcast, BitVec.natCast_eq_ofNat, BitVec.toNat_ofNat]

end DArc
