import Mathlib.Tactic

/-!
# Copying inside a window

The memory of a dictionary decoder is a function from addresses to items.  A literal run stores
given items (`store`), a match copies items from one place of the window to another, item by item
in increasing address order (`copyForward`), so that a source overlapping the destination repeats
what was just written.

`Agree w t S` says that two windows hold the same items on a set of addresses.  A copy whose
source is a true match in a target window extends the agreement with the target over its
destination (`Agree.copyForward`); no other address changes.

### Main results

* `copyForward_of_notMem`, `store_of_notMem`: addresses outside the destination are untouched;
* `copyForward_match`: a forward copy of a true match reproduces the target;
* `Agree.store`, `Agree.copyForward`: the agreement with a target window grows.
-/

namespace DArc

variable {α : Type*}

/-! ## Storing and copying -/

/-- The window `w` with the items of `l` stored from address `dst` on. -/
def store (w : ℕ → α) (dst : ℕ) (l : List α) : ℕ → α := fun x =>
  if dst ≤ x then (l[x - dst]?).getD (w x) else w x

/-- The window `w` after `n` items were copied from `src` to `dst` in increasing address order. -/
def copyForward (w : ℕ → α) (dst src : ℕ) : ℕ → ℕ → α
  | 0 => w
  | n + 1 =>
    let w' := copyForward w dst src n
    Function.update w' (dst + n) (w' (src + n))

/-- The items of the window `w` at the `n` addresses from `p` on. -/
def segment (w : ℕ → α) (p n : ℕ) : List α := (List.range' p n).map w

@[simp] lemma length_segment (w : ℕ → α) (p n : ℕ) : (segment w p n).length = n := by
  simp [segment]

@[simp] lemma segment_zero (w : ℕ → α) (p : ℕ) : segment w p 0 = [] := rfl

/-- Two neighbouring segments form one. -/
lemma segment_append (w : ℕ → α) (p m n : ℕ) :
    segment w p m ++ segment w (p + m) n = segment w p (m + n) := by
  rw [segment, segment, ← List.map_append, List.range'_append_1, segment]

/-- Windows that agree on a segment have the same segment. -/
lemma segment_congr {w w' : ℕ → α} {p n : ℕ} (h : ∀ x, p ≤ x → x < p + n → w x = w' x) :
    segment w p n = segment w' p n := by
  apply List.map_congr_left
  intro x hx
  rw [List.mem_range'_1] at hx
  exact h x hx.1 hx.2

/-- Storing touches no address before the destination. -/
lemma store_of_lt (w : ℕ → α) {dst x : ℕ} (l : List α) (h : x < dst) : store w dst l x = w x := by
  simp [store, Nat.not_le.mpr h]

/-- Storing touches no address after the destination. -/
lemma store_of_le (w : ℕ → α) {dst x : ℕ} (l : List α) (h : dst + l.length ≤ x) :
    store w dst l x = w x := by
  have hout : l[x - dst]? = none := List.getElem?_eq_none (by omega)
  simp [store, hout]

/-- What was stored can be read back. -/
@[simp] lemma segment_store (w : ℕ → α) (dst : ℕ) (l : List α) :
    segment (store w dst l) dst l.length = l := by
  apply List.ext_getElem
  · simp
  · intro n h₁ h₂
    simp [segment, store, h₂]

/-- Storing the items another window has there makes the windows agree there. -/
lemma store_segment_of_mem (w t : ℕ → α) {dst n x : ℕ} (h₁ : dst ≤ x) (h₂ : x < dst + n) :
    store w dst (segment t dst n) x = t x := by
  have hx : x - dst < n := by omega
  have hback : dst + (x - dst) = x := by omega
  simp [store, h₁, segment, hx, hback]

/-- Copying touches no address outside its destination. -/
lemma copyForward_of_notMem (w : ℕ → α) (dst src n : ℕ) {x : ℕ} (h : x < dst ∨ dst + n ≤ x) :
    copyForward w dst src n x = w x := by
  induction n with
  | zero => rfl
  | succ n ih =>
    have hx : x ≠ dst + n := by omega
    rw [copyForward, Function.update_of_ne hx, ih (by omega)]

/-- **A forward copy of a true match reproduces the target.**  In the target window `t` the
destination repeats the source; wherever the source does not overlap the destination, the copying
window already agrees with the target. -/
theorem copyForward_match {w t : ℕ → α} {dst src n : ℕ}
    (hmatch : ∀ j < n, t (dst + j) = t (src + j))
    (hplace : src < dst ∨ dst + n ≤ src)
    (hsource : ∀ j < n, src + j < dst ∨ dst + n ≤ src + j → w (src + j) = t (src + j)) :
    ∀ j < n, copyForward w dst src n (dst + j) = t (dst + j) := by
  induction n with
  | zero => intro j hj; omega
  | succ n ih =>
    have hdone : ∀ j < n, copyForward w dst src n (dst + j) = t (dst + j) :=
      ih (fun j hj => hmatch j (by omega)) (by omega) (fun j hj hout => hsource j (by omega) (by omega))
    -- the item about to be copied already has its target value
    have hitem : copyForward w dst src n (src + n) = t (src + n) := by
      by_cases hin : dst ≤ src + n ∧ src + n < dst + n
      · have hback : src + n = dst + (src + n - dst) := by omega
        rw [hback]
        exact hdone _ (by omega)
      · rw [copyForward_of_notMem w dst src n (by omega)]
        exact hsource n (by omega) (by omega)
    intro j hj
    rw [copyForward]
    rcases Nat.lt_succ_iff_lt_or_eq.mp hj with hlt | rfl
    · rw [Function.update_of_ne (by omega)]
      exact hdone j hlt
    · rw [Function.update_self, hitem, hmatch j (by omega)]

/-! ## Agreement of two windows -/

/-- The windows `w` and `t` hold the same items on the set `S` of addresses. -/
def Agree (w t : ℕ → α) (S : Set ℕ) : Prop := ∀ x ∈ S, w x = t x

/-- Agreement on a set passes to its subsets. -/
lemma Agree.mono {w t : ℕ → α} {S T : Set ℕ} (h : Agree w t T) (hST : S ⊆ T) : Agree w t S :=
  fun x hx => h x (hST hx)

/-- Storing the target's own items extends the agreement over them. -/
lemma Agree.store {w t : ℕ → α} {S : Set ℕ} (h : Agree w t S) (dst n : ℕ) :
    Agree (store w dst (segment t dst n)) t (S ∪ Set.Ico dst (dst + n)) := by
  intro x hx
  by_cases hin : dst ≤ x ∧ x < dst + n
  · exact store_segment_of_mem w t hin.1 hin.2
  · have hS : x ∈ S := hx.resolve_right hin
    rcases Nat.lt_or_ge x dst with hlt | hge
    · rw [store_of_lt w _ hlt, h x hS]
    · rw [store_of_le w _ (by rw [length_segment]; omega), h x hS]

/-- Copying a true match of the target, from addresses on which the windows agree, extends the
agreement over its destination. -/
lemma Agree.copyForward {w t : ℕ → α} {S : Set ℕ} (h : Agree w t S) {dst src n : ℕ}
    (hmatch : ∀ j < n, t (dst + j) = t (src + j))
    (hplace : src < dst ∨ dst + n ≤ src)
    (hsource : ∀ j < n, src + j < dst ∨ dst + n ≤ src + j → src + j ∈ S) :
    Agree (copyForward w dst src n) t (S ∪ Set.Ico dst (dst + n)) := by
  intro x hx
  by_cases hin : dst ≤ x ∧ x < dst + n
  · have hback : x = dst + (x - dst) := by omega
    rw [hback]
    exact copyForward_match hmatch hplace (fun j hj hout => h _ (hsource j hj hout)) _ (by omega)
  · rw [copyForward_of_notMem w dst src n (by omega)]
    exact h x (hx.resolve_right hin)

end DArc
