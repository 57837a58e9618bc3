import Mathlib.Data.List.Sort
import Mathlib.Data.List.TakeWhile
import Mathlib.Tactic

/-!
# Lists chopped by a length that depends on the rest

`Chopped len xs pieces` cuts a first piece of `len xs` items off the list `xs`, then one of `len` of what is
left, and so on.  `groupOn f` cuts where the value of `f` changes.

### Main results

* `exists_chopped`: a list can be chopped when the lengths are positive;
* `Chopped.flatten`, `Chopped.ne_nil`: the pieces make the list, and none is empty;
* `Chopped.piece_eq`: every piece is cut off what is left there;
* `groupOn_flatten`, `groupOn_ne_nil`, `groupOn_same`: the groups;
* `Parts.append`, `Parts.refine_perm`: pieces in any order, up to items that are lost.
-/

namespace DArc

variable {α β γ : Type*} {len : List α → ℕ} {xs : List α} {pieces : List (List α)}

/-! ## Chopping -/

/-- The pieces of `len` of the rest, until nothing is left. -/
inductive Chopped (len : List α → ℕ) : List α → List (List α) → Prop
  | nil : Chopped len [] []
  | cons {xs : List α} {pieces : List (List α)} (hne : xs ≠ []) (hlen : 0 < len xs)
      (rest : Chopped len (xs.drop (len xs)) pieces) : Chopped len xs (xs.take (len xs) :: pieces)

/-- A list can be chopped when the lengths are positive. -/
lemma exists_chopped (hlen : ∀ xs ≠ [], 0 < len xs) (xs : List α) : ∃ pieces, Chopped len xs pieces := by
  induction h : xs.length using Nat.strong_induction_on generalizing xs with
  | _ n ih =>
    subst h
    by_cases hne : xs = []
    · exact ⟨[], hne ▸ .nil⟩
    · have hpos := hlen xs hne
      have hxs := List.length_pos_iff.mpr hne
      obtain ⟨pieces, hpieces⟩ :=
        ih (xs.drop (len xs)).length (by rw [List.length_drop]; omega) _ rfl
      exact ⟨_, .cons hne hpos hpieces⟩

/-- The pieces make the list. -/
lemma Chopped.flatten (h : Chopped len xs pieces) : pieces.flatten = xs := by
  induction h with
  | nil => rfl
  | cons hne hlen rest ih => rw [List.flatten_cons, ih, List.take_append_drop]

/-- No piece is empty. -/
lemma Chopped.ne_nil (h : Chopped len xs pieces) {p : List α} (hp : p ∈ pieces) : p ≠ [] := by
  induction h with
  | nil => exact absurd hp List.not_mem_nil
  | cons hne hlen rest ih =>
    rcases List.mem_cons.mp hp with rfl | hp
    · rw [ne_eq, List.take_eq_nil_iff]
      exact not_or.mpr ⟨hlen.ne', hne⟩
    · exact ih hp

/-- Every piece is cut off what is left there. -/
lemma Chopped.piece_eq {before after : List (List α)} {p : List α}
    (h : Chopped len xs (before ++ p :: after)) :
    p = (p :: after).flatten.take (len (p :: after).flatten) := by
  induction before generalizing xs with
  | nil =>
    have hflat := h.flatten
    cases h with
    | cons hne hlen rest =>
      rw [List.nil_append] at hflat
      rw [hflat]
  | cons q before ih =>
    cases h with
    | cons hne hlen rest => exact ih rest

/-! ## Groups -/

section

variable [DecidableEq β] {f : α → β}

/-- `groupOn`: neighbours with one value of `f` are in one group. -/
def groupOn (f : α → β) : List α → List (List α)
  | [] => []
  | x :: xs =>
    (x :: xs.takeWhile fun y => f x = f y) :: groupOn f (xs.dropWhile fun y => f x = f y)
termination_by xs => xs.length
decreasing_by
  have hlen := (List.dropWhile_sublist (l := xs) fun y => decide (f x = f y)).length_le
  rw [List.length_cons]
  omega

/-- The groups make the list. -/
lemma groupOn_flatten (f : α → β) (xs : List α) : (groupOn f xs).flatten = xs := by
  fun_induction groupOn f xs with
  | case1 => rfl
  | case2 x xs ih => rw [List.flatten_cons, ih, List.cons_append, List.takeWhile_append_dropWhile]

/-- No group is empty. -/
lemma groupOn_ne_nil {xs : List α} {g : List α} (h : g ∈ groupOn f xs) : g ≠ [] := by
  fun_induction groupOn f xs with
  | case1 => exact absurd h List.not_mem_nil
  | case2 x xs ih =>
    rcases List.mem_cons.mp h with rfl | h
    · exact List.cons_ne_nil _ _
    · exact ih h

/-- Items of one group have one value. -/
lemma groupOn_same {xs : List α} {g : List α} (h : g ∈ groupOn f xs) {x y : α} (hx : x ∈ g)
    (hy : y ∈ g) : f x = f y := by
  fun_induction groupOn f xs with
  | case1 => exact absurd h List.not_mem_nil
  | case2 z zs ih =>
    rcases List.mem_cons.mp h with rfl | h
    · have hfirst {a : α} (ha : a ∈ z :: zs.takeWhile fun b => f z = f b) : f z = f a := by
        rcases List.mem_cons.mp ha with rfl | ha
        · rfl
        · have hall : (zs.takeWhile fun b => decide (f z = f b)).all (fun b => decide (f z = f b)) = true :=
            List.all_takeWhile
          exact of_decide_eq_true (List.all_eq_true.mp hall a ha)
      exact (hfirst hx).symm.trans (hfirst hy)
    · exact ih h

/-- A group ends where the value changes. -/
lemma groupOn_append {g rest : List α} (hne : g ≠ []) (hsame : ∀ x ∈ g, ∀ y ∈ g, f x = f y)
    (hrest : ∀ x ∈ g, ∀ y ∈ rest.head?, f x ≠ f y) : groupOn f (g ++ rest) = g :: groupOn f rest := by
  obtain ⟨x, xs, rfl⟩ := List.exists_cons_of_ne_nil hne
  have hall : ∀ y ∈ xs, decide (f x = f y) = true := fun y hy =>
    decide_eq_true (hsame x List.mem_cons_self y (List.mem_cons_of_mem x hy))
  have htake : (rest.takeWhile fun y => decide (f x = f y)) = [] ∧
      (rest.dropWhile fun y => decide (f x = f y)) = rest := by
    cases rest with
    | nil => exact ⟨rfl, rfl⟩
    | cons y ys =>
      have hdiffer := decide_eq_false (hrest x List.mem_cons_self y rfl)
      constructor
      · rw [List.takeWhile_cons, hdiffer]
        rfl
      · rw [List.dropWhile_cons, hdiffer]
        rfl
  rw [List.cons_append, groupOn, List.takeWhile_append_of_pos hall, List.dropWhile_append_of_pos hall,
    htake.1, htake.2, List.append_nil]

/-- The groups of what is left are the groups that are left. -/
lemma groupOn_flatten_of_append {xs : List α} {before after : List (List α)}
    (h : groupOn f xs = before ++ after) : groupOn f after.flatten = after := by
  induction before generalizing xs with
  | nil =>
    rw [List.nil_append] at h
    rw [← h, groupOn_flatten]
  | cons g before ih =>
    cases xs with
    | nil => rw [groupOn] at h; cases h
    | cons x xs =>
      rw [groupOn, List.cons_append, List.cons.injEq] at h
      exact ih h.2

end

/-- `sort_and_groupOn`; the sort is stable. -/
def sortAndGroupOn {β : Type*} [LinearOrder β] (f : α → β) (xs : List α) : List (List α) :=
  groupOn f (xs.insertionSort fun x y => f x ≤ f y)

/-- `partitionList`, for values less than `n`. -/
def partitionList (n : ℕ) (f : α → ℕ) (xs : List α) : List (List α) :=
  (List.range n).map fun k => xs.filter fun x => f x = k

/-- The lists hold the items with values less than `n`. -/
lemma partitionList_perm_filter (n : ℕ) (f : α → ℕ) (xs : List α) :
    (partitionList n f xs).flatten.Perm (xs.filter fun x => f x < n) := by
  induction n with
  | zero => simp [partitionList]
  | succ n ih =>
    have hsplit := List.filter_append_perm (fun x => decide (f x < n)) (xs.filter fun x => f x < n + 1)
    have hlow : (xs.filter fun x => f x < n + 1).filter (fun x => f x < n) = xs.filter fun x => f x < n := by
      rw [List.filter_filter]
      refine List.filter_congr fun x _ => ?_
      rw [← Bool.decide_and, decide_eq_decide]
      omega
    have hlast : (xs.filter fun x => f x < n + 1).filter (fun x => !decide (f x < n)) =
        xs.filter fun x => f x = n := by
      rw [List.filter_filter]
      refine List.filter_congr fun x _ => ?_
      rw [← decide_not, ← Bool.decide_and, decide_eq_decide]
      omega
    rw [hlow, hlast] at hsplit
    refine List.Perm.trans ?_ hsplit
    unfold partitionList at ih ⊢
    rw [List.range_succ, List.map_append, List.flatten_append, List.map_singleton, List.flatten_singleton]
    exact ih.append_right _

/-- No group is empty. -/
lemma sortAndGroupOn_ne_nil {β : Type*} [LinearOrder β] {f : α → β} {xs g : List α}
    (h : g ∈ sortAndGroupOn f xs) : g ≠ [] := groupOn_ne_nil h

/-- Sorting and grouping keeps all items. -/
lemma sortAndGroupOn_perm {β : Type*} [LinearOrder β] (f : α → β) (xs : List α) :
    (sortAndGroupOn f xs).flatten.Perm xs := by
  unfold sortAndGroupOn
  rw [groupOn_flatten]
  exact List.perm_insertionSort _ xs

/-- Every item is in one of the lists. -/
lemma partitionList_perm {n : ℕ} {f : α → ℕ} {xs : List α} (hf : ∀ x ∈ xs, f x < n) :
    (partitionList n f xs).flatten.Perm xs := by
  have hperm := partitionList_perm_filter n f xs
  rwa [List.filter_eq_self.mpr fun x hx => decide_eq_true (hf x hx)] at hperm

/-! ## Parts -/

/-- The pieces are not empty, and make the list, in some order, up to items that are lost. -/
structure Parts (lost : α → Prop) (xs : List α) (pieces : List (List α)) : Prop where
  /-- No piece is empty. -/
  ne_nil : ∀ p ∈ pieces, p ≠ []
  /-- The pieces and what is lost make the list. -/
  perm : ∃ dropped, (pieces.flatten ++ dropped).Perm xs ∧ ∀ x ∈ dropped, lost x

namespace Parts

variable {lost : α → Prop} {ys : List α} {qs : List (List α)}

/-- Pieces that make the list. -/
lemma of_perm (hne : ∀ p ∈ pieces, p ≠ []) (hperm : pieces.flatten.Perm xs) : Parts lost xs pieces := by
  refine ⟨hne, [], ?_, fun x hx => absurd hx List.not_mem_nil⟩
  rwa [List.append_nil]

/-- An item that is lost makes no pieces. -/
lemma lose {x : α} (hx : lost x) : Parts lost [x] [] := by
  refine ⟨fun p hp => absurd hp List.not_mem_nil, [x], List.Perm.refl _, fun y hy => ?_⟩
  exact List.mem_singleton.mp hy ▸ hx

/-- The order of the list does not matter. -/
lemma trans_perm (h : Parts lost xs pieces) (hperm : xs.Perm ys) : Parts lost ys pieces := by
  obtain ⟨dropped, hdropped, hlost⟩ := h.perm
  exact ⟨h.ne_nil, dropped, hdropped.trans hperm, hlost⟩

/-- The pieces of two lists. -/
lemma append (hx : Parts lost xs pieces) (hy : Parts lost ys qs) : Parts lost (xs ++ ys) (pieces ++ qs) := by
  obtain ⟨dx, hdx, hlx⟩ := hx.perm
  obtain ⟨dy, hdy, hly⟩ := hy.perm
  refine ⟨fun p hp => ?_, dx ++ dy, ?_, fun z hz => ?_⟩
  · rcases List.mem_append.mp hp with hp | hp
    · exact hx.ne_nil p hp
    · exact hy.ne_nil p hp
  · have hswap : (pieces ++ qs).flatten ++ (dx ++ dy) =
        pieces.flatten ++ (qs.flatten ++ dx ++ dy) := by
      rw [List.flatten_append, List.append_assoc, List.append_assoc]
    have hgroup : pieces.flatten ++ dx ++ (qs.flatten ++ dy) = pieces.flatten ++ (dx ++ qs.flatten ++ dy) := by
      rw [List.append_assoc, List.append_assoc]
    rw [hswap]
    refine List.Perm.trans ?_ (hgroup ▸ hdx.append hdy)
    exact (List.perm_append_comm.append_right dy).append_left _
  · rcases List.mem_append.mp hz with hz | hz
    · exact hlx z hz
    · exact hly z hz

/-- The pieces of many lists, each of which is found on its own. -/
lemma exists_mapM {out : γ → List α} {f : β → Option (List γ)} {g : β → List α} {bs : List β}
    (h : ∀ b ∈ bs, ∃ ps, f b = some ps ∧ Parts lost (g b) (ps.map out)) :
    ∃ pss, bs.mapM f = some pss ∧ Parts lost (bs.flatMap g) (pss.flatten.map out) := by
  induction bs with
  | nil => exact ⟨[], rfl, of_perm (fun p hp => absurd hp List.not_mem_nil) (List.Perm.refl _)⟩
  | cons b bs ih =>
    obtain ⟨ps, hps, hparts⟩ := h b List.mem_cons_self
    obtain ⟨pss, hpss, hrest⟩ := ih fun c hc => h c (List.mem_cons_of_mem b hc)
    refine ⟨ps :: pss, ?_, ?_⟩
    · rw [List.mapM_cons, hps, hpss]
      rfl
    · rw [List.flatMap_cons, List.flatten_cons, List.map_append]
      exact hparts.append hrest

/-- The pieces are cut into pieces of their own. -/
lemma refine_perm (h : Parts lost xs pieces) (hq : Parts lost pieces.flatten qs) : Parts lost xs qs := by
  obtain ⟨dropped, hdropped, hlost⟩ := h.perm
  obtain ⟨lostToo, hperm, hlostToo⟩ := hq.perm
  refine ⟨hq.ne_nil, lostToo ++ dropped, ?_, fun x hx => ?_⟩
  · rw [← List.append_assoc]
    exact (hperm.append_right dropped).trans hdropped
  · rcases List.mem_append.mp hx with hx | hx
    · exact hlostToo x hx
    · exact hlost x hx

end Parts

end DArc
