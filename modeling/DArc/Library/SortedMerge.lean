import DArc.Library.OptimalCodes
import Mathlib.Data.Nat.Fib.Basic
import Mathlib.Tactic

/-!
# Merging nodes in the order of their weights

Some leaves have weights, and the nodes are joined two by two: the `j`-th join makes node `base + j`, which has the
weight of both.  In a *sorted* merge the nodes are joined in the order of their weights, and joined nodes are joined
again in the order in which they were made.

The joins give every node a code word: the last one made has the empty word, and the two nodes of a join have the word
of the join with another bit behind it.  Words are numbers whose low bit comes first.

### Outline

* `children`, `SortedMerge`: the nodes that are joined, and the merge;
* `PartialMerge`: a merge after some joins;
* `MergeWords`: the words of the nodes.

### Main results

* `PartialMerge.join`, `PartialMerge.sortedMerge`: two of the lightest nodes are joined, until one is left;
* `MergeWords.existsUnique_leaf`: every row of bits begins with the word of exactly one leaf;
* `MergeWords.cost_eq`, `SortedMerge.lowerBound`: the words cost as much as the joins, and no code costs less;
* `MergeWords.bits_le_first`: no leaf has a longer word than the first node joined;
* `MergeWords.fib_le`: long words need large weights.
-/

namespace DArc

open Finset (range)

/-- The nodes that are joined, in their order. -/
def children (pairs : List (ℕ × ℕ)) : List ℕ := pairs.flatMap fun p => [p.1, p.2]

@[simp] lemma children_nil : children [] = [] := rfl

@[simp] lemma children_cons (p : ℕ × ℕ) (pairs : List (ℕ × ℕ)) :
    children (p :: pairs) = p.1 :: p.2 :: children pairs := rfl

/-- The nodes of one more join. -/
lemma children_concat (pairs : List (ℕ × ℕ)) (p : ℕ × ℕ) : children (pairs ++ [p]) = children pairs ++ [p.1, p.2] := by
  rw [children, List.flatMap_append]
  rfl

/-- Every join takes two nodes. -/
lemma length_children (pairs : List (ℕ × ℕ)) : (children pairs).length = 2 * pairs.length := by
  induction pairs with
  | nil => rfl
  | cons p pairs ih =>
    rw [children_cons, List.length_cons, List.length_cons, ih, List.length_cons, Nat.mul_succ]

/-- A node that is joined belongs to one of the pairs. -/
lemma exists_of_mem_children {pairs : List (ℕ × ℕ)} {v : ℕ} (h : v ∈ children pairs) :
    ∃ (j : ℕ) (hj : j < pairs.length), v = pairs[j].1 ∨ v = pairs[j].2 := by
  obtain ⟨p, hp, hv⟩ := List.mem_flatMap.mp h
  obtain ⟨j, hj, rfl⟩ := List.mem_iff_getElem.mp hp
  rw [List.mem_cons, List.mem_singleton] at hv
  exact ⟨j, hj, hv⟩

/-- A sum over the nodes that are joined, pair by pair. -/
lemma sum_children (pairs : List (ℕ × ℕ)) (f : ℕ → ℕ) :
    ((children pairs).map f).sum = (pairs.map fun p => f p.1 + f p.2).sum := by
  induction pairs with
  | nil => rfl
  | cons p pairs ih =>
    rw [children_cons, List.map_cons, List.map_cons, List.sum_cons, List.sum_cons, ih, List.map_cons, List.sum_cons,
      Nat.add_assoc]

/-! ## The merge -/

/-- `b` leaves are joined in the order of their weights, and every node but the last one is joined once. -/
structure SortedMerge (b base : ℕ) (weight : ℕ → ℕ) (pairs : List (ℕ × ℕ)) : Prop where
  two_le : 2 ≤ b
  length : pairs.length + 1 = b
  le_base : b ≤ base
  perm : (children pairs).Perm (List.range b ++ (List.range (pairs.length - 1)).map fun j => base + j)
  older : ∀ (j : ℕ) (hj : j < pairs.length), pairs[j].1 < base + j ∧ pairs[j].2 < base + j
  weight_join : ∀ (j : ℕ) (hj : j < pairs.length), weight (base + j) = weight pairs[j].1 + weight pairs[j].2
  sorted : pairs.Pairwise fun p q => ∀ u ∈ [p.1, p.2], ∀ v ∈ [q.1, q.2], weight u ≤ weight v ∧ (base ≤ v → u < v)

namespace SortedMerge

variable {b base : ℕ} {weight : ℕ → ℕ} {pairs : List (ℕ × ℕ)}

/-- There is a last join. -/
lemma length_pos (h : SortedMerge b base weight pairs) : 0 < pairs.length := by
  have := h.two_le
  have := h.length
  omega

/-- The nodes that are joined are the leaves and all joins but the last one. -/
lemma mem_children_iff (h : SortedMerge b base weight pairs) (v : ℕ) :
    v ∈ children pairs ↔ v < b ∨ ∃ j < pairs.length - 1, v = base + j := by
  rw [h.perm.mem_iff, List.mem_append, List.mem_range, List.mem_map]
  refine or_congr Iff.rfl ⟨?_, ?_⟩
  · rintro ⟨j, hj, rfl⟩
    exact ⟨j, List.mem_range.mp hj, rfl⟩
  · rintro ⟨j, hj, rfl⟩
    exact ⟨j, List.mem_range.mpr hj, rfl⟩

/-- A leaf is joined. -/
lemma exists_leaf (h : SortedMerge b base weight pairs) {i : ℕ} (hi : i < b) :
    ∃ (j : ℕ) (hj : j < pairs.length), i = pairs[j].1 ∨ i = pairs[j].2 :=
  exists_of_mem_children ((h.mem_children_iff i).mpr (Or.inl hi))

/-- A join that is not the last one is joined later. -/
lemma exists_inner (h : SortedMerge b base weight pairs) {j : ℕ} (hj : j < pairs.length - 1) :
    ∃ (a : ℕ) (ha : a < pairs.length), j < a ∧ (base + j = pairs[a].1 ∨ base + j = pairs[a].2) := by
  obtain ⟨a, ha, heq⟩ := exists_of_mem_children ((h.mem_children_iff (base + j)).mpr (Or.inr ⟨j, hj, rfl⟩))
  have holder := h.older a ha
  refine ⟨a, ha, ?_, heq⟩
  rcases heq with heq | heq <;> omega

/-- The order of the nodes of two joins. -/
lemma sorted_of_lt (h : SortedMerge b base weight pairs) {j j' u v : ℕ} (hjj' : j < j') (hj' : j' < pairs.length)
    (hu : u = pairs[j].1 ∨ u = pairs[j].2) (hv : v = pairs[j'].1 ∨ v = pairs[j'].2) :
    weight u ≤ weight v ∧ (base ≤ v → u < v) := by
  refine List.pairwise_iff_getElem.mp h.sorted j j' (hjj'.trans hj') hj' hjj' u ?_ v ?_
  · rwa [List.mem_cons, List.mem_singleton]
  · rwa [List.mem_cons, List.mem_singleton]

/-- No node is joined twice, and the last join is not joined. -/
lemma nodup_nodes (h : SortedMerge b base weight pairs) : (children pairs ++ [base + (pairs.length - 1)]).Nodup := by
  refine (h.perm.append_right _).nodup_iff.mpr ?_
  have hinner : (List.range (pairs.length - 1)).map (fun j => base + j) ++ [base + (pairs.length - 1)] =
      (List.range pairs.length).map fun j => base + j := by
    conv_rhs => rw [← Nat.sub_add_cancel h.length_pos]
    rw [List.range_succ, List.map_append]
    rfl
  rw [List.append_assoc, hinner]
  refine List.Nodup.append List.nodup_range (List.nodup_range.map fun x y hxy => Nat.add_left_cancel hxy) ?_
  intro v hleaf hv
  obtain ⟨j, -, rfl⟩ := List.mem_map.mp hv
  have := List.mem_range.mp hleaf
  have := h.le_base
  omega

/-- No node is joined twice. -/
lemma nodup_children (h : SortedMerge b base weight pairs) : (children pairs).Nodup :=
  h.nodup_nodes.sublist (List.sublist_append_left _ _)

/-- The two nodes of a join are not the same. -/
lemma left_ne_right (h : SortedMerge b base weight pairs) {j : ℕ} (hj : j < pairs.length) :
    pairs[j].1 ≠ pairs[j].2 := by
  have hnodup := h.nodup_children
  rw [children, List.Nodup, List.pairwise_flatMap] at hnodup
  exact List.rel_of_pairwise_cons (hnodup.1 pairs[j] (List.getElem_mem hj)) (List.mem_singleton_self _)

/-- No node is in two joins. -/
lemma ne_of_lt (h : SortedMerge b base weight pairs) {j j' u v : ℕ} (hjj' : j < j') (hj' : j' < pairs.length)
    (hu : u = pairs[j].1 ∨ u = pairs[j].2) (hv : v = pairs[j'].1 ∨ v = pairs[j'].2) : u ≠ v := by
  have hnodup := h.nodup_children
  rw [children, List.Nodup, List.pairwise_flatMap] at hnodup
  refine List.pairwise_iff_getElem.mp hnodup.2 j j' (hjj'.trans hj') hj' hjj' u ?_ v ?_
  · rwa [List.mem_cons, List.mem_singleton]
  · rwa [List.mem_cons, List.mem_singleton]

/-- A function whose values at the nodes of a join add up to the one at the join, and a bit more. -/
lemma sum_leaves (h : SortedMerge b base weight pairs) {f g : ℕ → ℕ}
    (hf : ∀ (j : ℕ) (hj : j < pairs.length), f pairs[j].1 + f pairs[j].2 = f (base + j) + g j) :
    ∑ i ∈ range b, f i = f (base + (pairs.length - 1)) + ∑ j ∈ range pairs.length, g j := by
  have hpairs : ((children pairs).map f).sum = ∑ j ∈ range pairs.length, (f (base + j) + g j) := by
    rw [sum_children, ← Fin.sum_univ_fun_getElem, Finset.sum_range]
    exact Finset.sum_congr rfl fun j _ => hf j j.isLt
  have hnodes : ((children pairs).map f).sum =
      ∑ i ∈ range b, f i + ∑ j ∈ range (pairs.length - 1), f (base + j) := by
    rw [(h.perm.map f).sum_eq, List.map_append, List.sum_append, List.map_map]
    rfl
  have hlast : ∑ j ∈ range pairs.length, f (base + j) =
      ∑ j ∈ range (pairs.length - 1), f (base + j) + f (base + (pairs.length - 1)) := by
    rw [← Finset.sum_range_succ, Nat.sub_add_cancel h.length_pos]
  rw [Finset.sum_add_distrib, hlast] at hpairs
  omega

/-- The last join has the weight of all leaves. -/
lemma weight_last (h : SortedMerge b base weight pairs) :
    ∑ i ∈ range b, weight i = weight (base + (pairs.length - 1)) := by
  rw [h.sum_leaves (g := fun _ => 0) fun j hj => (h.weight_join j hj).symm, Finset.sum_const_zero, Nat.add_zero]

/-! ## No code costs less -/

/-- The nodes that wait after `t` joins: they are joined later, and are not made later. -/
def waiting (base t : ℕ) (pairs : List (ℕ × ℕ)) : Multiset ℕ :=
  ↑((children (pairs.drop t) ++ [base + (pairs.length - 1)]).filter (· < base + t))

/-- In the end the last join waits. -/
lemma waiting_length (h : SortedMerge b base weight pairs) :
    waiting base pairs.length pairs = {base + (pairs.length - 1)} := by
  have hpos := h.length_pos
  rw [waiting, List.drop_length, children_nil, List.nil_append, List.filter_cons_of_pos (by simpa using by omega)]
  rfl

/-- In the beginning the leaves wait. -/
lemma waiting_zero (h : SortedMerge b base weight pairs) : waiting base 0 pairs = Multiset.range b := by
  rw [waiting, List.drop_zero, Multiset.range, Multiset.coe_eq_coe]
  refine ((h.perm.append_right _).filter _).trans (List.Perm.of_eq ?_)
  have hleaves : ((List.range b).filter (· < base + 0)) = List.range b :=
    List.filter_eq_self.mpr fun i hi => by
      have := List.mem_range.mp hi
      have := h.le_base
      simpa using by omega
  have hinner : (((List.range (pairs.length - 1)).map fun j => base + j).filter (· < base + 0)) = [] :=
    List.filter_eq_nil_iff.mpr fun v hv => by
      obtain ⟨j, -, rfl⟩ := List.mem_map.mp hv
      simp
  have hlast : ([base + (pairs.length - 1)].filter (· < base + 0)) = [] :=
    List.filter_eq_nil_iff.mpr fun v hv => by
      rw [List.mem_singleton.mp hv]
      simp
  rw [List.filter_append, List.filter_append, hleaves, hinner, hlast, List.append_nil, List.append_nil]

/-- A join takes the two nodes in front, and puts a node back. -/
lemma waiting_succ (h : SortedMerge b base weight pairs) {t : ℕ} (ht : t < pairs.length) :
    ∃ rest : Multiset ℕ, waiting base t pairs = pairs[t].1 ::ₘ pairs[t].2 ::ₘ rest ∧
      waiting base (t + 1) pairs = (base + t) ::ₘ rest ∧ ∀ v ∈ rest, v ∈ children (pairs.drop (t + 1)) := by
  have hdrop : children (pairs.drop t) = pairs[t].1 :: pairs[t].2 :: children (pairs.drop (t + 1)) := by
    rw [List.drop_eq_getElem_cons ht, children_cons]
  set later := children (pairs.drop (t + 1)) ++ [base + (pairs.length - 1)] with hlater
  have hnodup : later.Nodup := by
    refine h.nodup_nodes.sublist (List.Sublist.append_right ?_ _)
    exact (List.drop_sublist _ _).flatMap _
  have hmem : base + t ∈ later := by
    by_cases hlast : t = pairs.length - 1
    · rw [hlater, ← hlast]
      exact List.mem_append_right _ (List.mem_singleton_self _)
    · obtain ⟨a, ha, hta, heq⟩ := h.exists_inner (show t < pairs.length - 1 by omega)
      refine List.mem_append_left _ (List.mem_flatMap.mpr ⟨pairs[a], ?_, ?_⟩)
      · exact List.mem_drop_iff_getElem.mpr ⟨a - (t + 1), by omega, by congr 1; omega⟩
      · rwa [List.mem_cons, List.mem_singleton]
  obtain ⟨hleft, hright⟩ := h.older t ht
  refine ⟨↑(later.filter (· < base + t)), ?_, ?_, ?_⟩
  · rw [waiting, hdrop, List.cons_append, List.cons_append, List.filter_cons_of_pos (by simpa using hleft),
      List.filter_cons_of_pos (by simpa using hright)]
    rfl
  · rw [waiting, Multiset.cons_coe, Multiset.coe_eq_coe]
    refine (List.perm_ext_iff_of_nodup (hnodup.filter _) (List.nodup_cons.mpr ⟨?_, hnodup.filter _⟩)).mpr fun v => ?_
    · rw [List.mem_filter]
      simp
    · rw [List.mem_cons, List.mem_filter, List.mem_filter, decide_eq_true_iff, decide_eq_true_iff]
      constructor
      · rintro ⟨hv, hlt⟩
        rcases Nat.lt_or_ge v (base + t) with hlt | hge
        · exact Or.inr ⟨hv, hlt⟩
        · exact Or.inl (by omega)
      · rintro (rfl | ⟨hv, hlt⟩)
        · exact ⟨hmem, by omega⟩
        · exact ⟨hv, by omega⟩
  · intro v hv
    obtain ⟨hv, hlt⟩ := List.mem_filter.mp (Multiset.mem_coe.mp hv)
    rw [decide_eq_true_iff] at hlt
    refine (List.mem_append.mp hv).resolve_right fun heq => ?_
    rw [List.mem_singleton.mp heq] at hlt
    omega

/-- The joins that are still to come are a bound for the nodes that wait. -/
lemma lowerBound_waiting (h : SortedMerge b base weight pairs) (k : ℕ) :
    ∀ t, t + k = pairs.length →
      LowerBound ((waiting base t pairs).map weight) (∑ j ∈ range k, weight (base + (t + j))) := by
  induction k with
  | zero => exact fun t _ => LowerBound.zero _
  | succ k ih =>
    intro t ht
    have hlt : t < pairs.length := by omega
    obtain ⟨rest, hfront, hback, hrest⟩ := h.waiting_succ hlt
    have hle : ∀ u, u = pairs[t].1 ∨ u = pairs[t].2 → ∀ w ∈ rest.map weight, weight u ≤ w := by
      intro u hu w hw
      obtain ⟨v, hv, rfl⟩ := Multiset.mem_map.mp hw
      obtain ⟨j, hj, heq⟩ := exists_of_mem_children (hrest v hv)
      rw [List.length_drop] at hj
      rw [List.getElem_drop] at heq
      exact (h.sorted_of_lt (by omega) (by omega) hu heq).1
    have hnext := ih (t + 1) (by omega)
    rw [hback, Multiset.map_cons, h.weight_join t hlt] at hnext
    have hjoin := LowerBound.join (hle _ (Or.inl rfl)) (hle _ (Or.inr rfl)) hnext
    rw [hfront, Multiset.map_cons, Multiset.map_cons, Finset.sum_range_succ', Nat.add_zero, h.weight_join t hlt]
    convert hjoin using 4 with j
    omega

/-- **No code costs less than the joins.** -/
theorem lowerBound (h : SortedMerge b base weight pairs) :
    LowerBound ((Multiset.range b).map weight) (∑ j ∈ range pairs.length, weight (base + j)) := by
  have hbound := h.lowerBound_waiting pairs.length 0 (Nat.zero_add _)
  rw [h.waiting_zero] at hbound
  simpa only [Nat.zero_add] using hbound

/-- If no leaf is without weight, no node is. -/
lemma weight_pos (h : SortedMerge b base weight pairs) (hpos : ∀ i < b, 0 < weight i) :
    ∀ v ∈ children pairs, 0 < weight v := by
  have hjoin : ∀ j < pairs.length, 0 < weight (base + j) := by
    intro j
    induction j using Nat.strong_induction_on with
    | _ j ih =>
      intro hj
      have hmem : pairs[j].1 ∈ children pairs := List.mem_flatMap.mpr ⟨pairs[j], List.getElem_mem hj, List.mem_cons_self⟩
      rw [h.weight_join j hj]
      rcases (h.mem_children_iff _).mp hmem with hleaf | ⟨i, hi, heq⟩
      · exact Nat.add_pos_left (hpos _ hleaf) _
      · have holder := (h.older j hj).1
        rw [heq] at holder ⊢
        exact Nat.add_pos_left (ih i (by omega) (by omega)) _
  intro v hv
  rcases (h.mem_children_iff v).mp hv with hleaf | ⟨j, hj, rfl⟩
  · exact hpos v hleaf
  · exact hjoin j (by omega)

end SortedMerge

/-! ## Merging step by step -/

/-- A merge after some joins, with the nodes that are left. -/
structure PartialMerge (b base : ℕ) (weight : ℕ → ℕ) (pairs : List (ℕ × ℕ)) (live : List ℕ) : Prop where
  perm : (children pairs ++ live).Perm (List.range b ++ (List.range pairs.length).map fun j => base + j)
  older : ∀ (j : ℕ) (hj : j < pairs.length), pairs[j].1 < base + j ∧ pairs[j].2 < base + j
  weight_join : ∀ (j : ℕ) (hj : j < pairs.length), weight (base + j) = weight pairs[j].1 + weight pairs[j].2
  sorted : pairs.Pairwise fun p q => ∀ u ∈ [p.1, p.2], ∀ v ∈ [q.1, q.2], weight u ≤ weight v ∧ (base ≤ v → u < v)
  joined_le : ∀ u ∈ children pairs, ∀ v ∈ live, weight u ≤ weight v ∧ (base ≤ v → u < v)
  sum_live : (live.map weight).sum = ((List.range b).map weight).sum

namespace PartialMerge

variable {b base : ℕ} {weight weight' : ℕ → ℕ} {pairs : List (ℕ × ℕ)} {live : List ℕ}

/-- In the beginning all leaves are left. -/
lemma start : PartialMerge b base weight [] (List.range b) where
  perm := by
    rw [children_nil, List.nil_append, List.length_nil, List.range_zero, List.map_nil, List.append_nil]
  older := fun j hj => absurd hj (Nat.not_lt_zero j)
  weight_join := fun j hj => absurd hj (Nat.not_lt_zero j)
  sorted := List.Pairwise.nil
  joined_le := fun u hu => absurd hu List.not_mem_nil
  sum_live := rfl

/-- Nodes are leaves, or have been made. -/
lemma lt_of_mem (h : PartialMerge b base weight pairs live) (hbase : b ≤ base) {v : ℕ}
    (hv : v ∈ children pairs ∨ v ∈ live) : v < base + pairs.length := by
  have hmem := h.perm.mem_iff.mp (List.mem_append.mpr hv)
  rcases List.mem_append.mp hmem with hleaf | hinner
  · have := List.mem_range.mp hleaf
    omega
  · obtain ⟨j, hj, rfl⟩ := List.mem_map.mp hinner
    have := List.mem_range.mp hj
    omega

/-- The nodes of the pairs. -/
lemma mem_children {p : ℕ × ℕ} (hp : p ∈ pairs) {u : ℕ} (hu : u ∈ [p.1, p.2]) : u ∈ children pairs :=
  List.mem_flatMap.mpr ⟨p, hp, hu⟩

/-- The weights of nodes that have not been made do not matter. -/
lemma congr (h : PartialMerge b base weight pairs live) (hbase : b ≤ base)
    (heq : ∀ v < base + pairs.length, weight' v = weight v) : PartialMerge b base weight' pairs live where
  perm := h.perm
  older := h.older
  weight_join := fun j hj => by
    obtain ⟨hleft, hright⟩ := h.older j hj
    rw [heq _ (by omega), heq _ (by omega), heq _ (by omega), h.weight_join j hj]
  sorted := h.sorted.imp_of_mem fun hp hq hpq u hu v hv => by
    rw [heq u (h.lt_of_mem hbase (Or.inl (mem_children hp hu))), heq v (h.lt_of_mem hbase (Or.inl (mem_children hq hv)))]
    exact hpq u hu v hv
  joined_le := fun u hu v hv => by
    rw [heq u (h.lt_of_mem hbase (Or.inl hu)), heq v (h.lt_of_mem hbase (Or.inr hv))]
    exact h.joined_le u hu v hv
  sum_live := by
    have hlive : live.map weight' = live.map weight :=
      List.map_congr_left fun v hv => heq v (h.lt_of_mem hbase (Or.inr hv))
    have hleaves : (List.range b).map weight' = (List.range b).map weight :=
      List.map_congr_left fun v hv => heq v (by have := List.mem_range.mp hv; omega)
    rw [hlive, hleaves, h.sum_live]

/-- The order of the nodes that are left does not matter. -/
lemma of_perm (h : PartialMerge b base weight pairs live) {live' : List ℕ} (hperm : live.Perm live') :
    PartialMerge b base weight pairs live' where
  perm := (hperm.symm.append_left _).trans h.perm
  older := h.older
  weight_join := h.weight_join
  sorted := h.sorted
  joined_le := fun u hu v hv => h.joined_le u hu v (hperm.mem_iff.mpr hv)
  sum_live := by rw [← h.sum_live, (hperm.map weight).sum_eq]

/-- A join weighs no more than two nodes that are left. -/
lemma weight_join_le (h : PartialMerge b base weight pairs live) {x y j : ℕ} (hx : x ∈ live) (hy : y ∈ live)
    (hj : j < pairs.length) : weight (base + j) ≤ weight x + weight y := by
  have hp := List.getElem_mem hj
  rw [h.weight_join j hj]
  exact Nat.add_le_add (h.joined_le _ (mem_children hp List.mem_cons_self) x hx).1
    (h.joined_le _ (mem_children hp (List.mem_cons_of_mem _ List.mem_cons_self)) y hy).1

/-- **Two nodes are joined.** No other node that is left weighs less. -/
theorem join {x y : ℕ} {rest : List ℕ} (h : PartialMerge b base weight pairs (x :: y :: rest)) (hbase : b ≤ base)
    (hmin : ∀ u ∈ [x, y], ∀ v ∈ rest, weight u ≤ weight v ∧ (base ≤ v → u < v))
    (hweight : weight (base + pairs.length) = weight x + weight y) :
    PartialMerge b base weight (pairs ++ [(x, y)]) (rest ++ [base + pairs.length]) where
  perm := by
    rw [children_concat, List.length_append, List.length_singleton, List.range_succ, List.map_append, List.append_assoc,
      ← List.append_assoc (List.range b), ← List.append_assoc [x, y], ← List.append_assoc (children pairs)]
    exact h.perm.append_right _
  older := fun j hj => by
    rw [List.length_append, List.length_singleton] at hj
    rcases Nat.lt_succ_iff_lt_or_eq.mp hj with hlt | rfl
    · rw [List.getElem_append_left hlt]
      exact h.older j hlt
    · rw [List.getElem_concat_length rfl]
      exact ⟨h.lt_of_mem hbase (Or.inr List.mem_cons_self),
        h.lt_of_mem hbase (Or.inr (List.mem_cons_of_mem _ List.mem_cons_self))⟩
  weight_join := fun j hj => by
    rw [List.length_append, List.length_singleton] at hj
    rcases Nat.lt_succ_iff_lt_or_eq.mp hj with hlt | rfl
    · rw [List.getElem_append_left hlt]
      exact h.weight_join j hlt
    · rw [List.getElem_concat_length rfl]
      exact hweight
  sorted := by
    refine List.pairwise_append.mpr ⟨h.sorted, List.pairwise_singleton _ _, fun p hp q hq u hu v hv => ?_⟩
    rw [List.mem_singleton.mp hq] at hv
    refine h.joined_le u (mem_children hp hu) v ?_
    rcases List.mem_cons.mp hv with rfl | hv
    · exact List.mem_cons_self
    · rw [List.mem_singleton.mp hv]
      exact List.mem_cons_of_mem _ List.mem_cons_self
  joined_le := fun u hu v hv => by
    rw [children_concat] at hu
    rcases List.mem_append.mp hv with hv | hv
    · rcases List.mem_append.mp hu with hu | hu
      · exact h.joined_le u hu v (List.mem_cons_of_mem _ (List.mem_cons_of_mem _ hv))
      · exact hmin u hu v hv
    · rw [List.mem_singleton.mp hv, hweight]
      rcases List.mem_append.mp hu with hu | hu
      · have hle := (h.joined_le u hu x List.mem_cons_self).1
        exact ⟨hle.trans (Nat.le_add_right _ _), fun _ => h.lt_of_mem hbase (Or.inl hu)⟩
      · rcases List.mem_cons.mp hu with rfl | hu
        · exact ⟨Nat.le_add_right _ _, fun _ => h.lt_of_mem hbase (Or.inr List.mem_cons_self)⟩
        · rw [List.mem_singleton.mp hu]
          exact ⟨Nat.le_add_left _ _, fun _ =>
            h.lt_of_mem hbase (Or.inr (List.mem_cons_of_mem _ List.mem_cons_self))⟩
  sum_live := by
    have hsum := h.sum_live
    rw [List.map_cons, List.map_cons, List.sum_cons, List.sum_cons] at hsum
    rw [List.map_append, List.sum_append, List.map_singleton, List.sum_singleton, hweight]
    omega

/-- **When the last join is left, the merge is complete.** -/
theorem sortedMerge (htwo : 2 ≤ b) (hbase : b ≤ base)
    (h : PartialMerge b base weight pairs [base + (pairs.length - 1)]) (hpos : 0 < pairs.length) :
    SortedMerge b base weight pairs where
  two_le := htwo
  length := by
    have hlength := h.perm.length_eq
    rw [List.length_append, List.length_append, List.length_map, List.length_range, List.length_range, length_children,
      List.length_singleton] at hlength
    omega
  le_base := hbase
  perm := by
    have hperm := h.perm
    obtain ⟨k, hk⟩ := Nat.exists_eq_add_of_lt hpos
    rw [Nat.zero_add] at hk
    rw [hk, List.range_succ, List.map_append, ← List.append_assoc, Nat.add_sub_cancel] at hperm
    rw [hk, Nat.add_sub_cancel]
    exact (List.perm_append_right_iff _).mp hperm
  older := h.older
  weight_join := h.weight_join
  sorted := h.sorted

end PartialMerge

/-! ## The words of the nodes -/

/-- The last join has the empty word, and the two nodes of a join have its word with another bit behind it. -/
structure MergeWords (base : ℕ) (pairs : List (ℕ × ℕ)) (bits code : ℕ → ℕ) : Prop where
  bits_last : bits (base + (pairs.length - 1)) = 0
  code_last : code (base + (pairs.length - 1)) = 0
  bits_left : ∀ (j : ℕ) (hj : j < pairs.length), bits pairs[j].1 = bits (base + j) + 1
  bits_right : ∀ (j : ℕ) (hj : j < pairs.length), bits pairs[j].2 = bits (base + j) + 1
  code_left : ∀ (j : ℕ) (hj : j < pairs.length), code pairs[j].1 = code (base + j)
  code_right : ∀ (j : ℕ) (hj : j < pairs.length), code pairs[j].2 = code (base + j) + 2 ^ bits (base + j)

namespace MergeWords

variable {b base : ℕ} {weight : ℕ → ℕ} {pairs : List (ℕ × ℕ)} {bits code : ℕ → ℕ}

/-- The length of the word of a node of a join. -/
lemma bits_child (hw : MergeWords base pairs bits code) {j v : ℕ} (hj : j < pairs.length)
    (hv : v = pairs[j].1 ∨ v = pairs[j].2) : bits v = bits (base + j) + 1 := by
  rcases hv with rfl | rfl
  · exact hw.bits_left j hj
  · exact hw.bits_right j hj

/-- The word of a join is a number of its bits. -/
lemma code_join_lt (hw : MergeWords base pairs bits code) (h : SortedMerge b base weight pairs) (k : ℕ) :
    ∀ j, j + k = pairs.length - 1 → code (base + j) < 2 ^ bits (base + j) := by
  induction k using Nat.strong_induction_on with
  | _ k ih =>
    intro j hj
    have hpos := h.length_pos
    rcases Nat.eq_zero_or_pos k with rfl | hk
    · obtain rfl : j = pairs.length - 1 := hj
      rw [hw.bits_last, hw.code_last]
      exact Nat.one_pos
    · obtain ⟨a, ha, hja, heq⟩ := h.exists_inner (show j < pairs.length - 1 by omega)
      have hlt := ih (pairs.length - 1 - a) (by omega) a (by omega)
      rw [hw.bits_child ha heq, pow_succ]
      rcases heq with heq | heq
      · rw [heq, hw.code_left a ha]
        omega
      · rw [heq, hw.code_right a ha]
        omega

/-- The word of a leaf is a number of its bits. -/
lemma code_lt (hw : MergeWords base pairs bits code) (h : SortedMerge b base weight pairs) {i : ℕ} (hi : i < b) :
    code i < 2 ^ bits i := by
  obtain ⟨j, hj, heq⟩ := h.exists_leaf hi
  have hlt := hw.code_join_lt h (pairs.length - 1 - j) j (by omega)
  rw [hw.bits_child hj heq, pow_succ]
  rcases heq with heq | heq
  · rw [heq, hw.code_left j hj]
    omega
  · rw [heq, hw.code_right j hj]
    omega

/-- A leaf has a word. -/
lemma bits_pos (hw : MergeWords base pairs bits code) (h : SortedMerge b base weight pairs) {i : ℕ} (hi : i < b) :
    0 < bits i := by
  obtain ⟨j, hj, heq⟩ := h.exists_leaf hi
  rw [hw.bits_child hj heq]
  exact Nat.succ_pos _

/-- A row of bits that begins with a word goes on with one of the two bits. -/
lemma begins_succ {x k c : ℕ} (hc : c < 2 ^ k) :
    ((if x % 2 ^ (k + 1) = c then 1 else 0) + if x % 2 ^ (k + 1) = c + 2 ^ k then 1 else 0) =
      if x % 2 ^ k = c then 1 else 0 := by
  have hlow : x % 2 ^ k < 2 ^ k := Nat.mod_lt _ (Nat.two_pow_pos k)
  rw [Nat.mod_pow_succ]
  rcases Nat.mod_two_eq_zero_or_one (x / 2 ^ k) with hbit | hbit
  · rw [hbit, Nat.mul_zero, Nat.add_zero]
    split_ifs <;> omega
  · rw [hbit, Nat.mul_one]
    split_ifs <;> omega

/-- **Every row of bits begins with the word of exactly one leaf.** A row that begins with the word of a join begins
with the word of one of its two nodes. -/
theorem existsUnique_leaf (hw : MergeWords base pairs bits code) (h : SortedMerge b base weight pairs) (x : ℕ) :
    ∃! i, i < b ∧ x % 2 ^ bits i = code i := by
  have hsum := h.sum_leaves (f := fun v => if x % 2 ^ bits v = code v then 1 else 0) (g := fun _ => 0) fun j hj => by
    rw [hw.bits_left j hj, hw.bits_right j hj, hw.code_left j hj, hw.code_right j hj, Nat.add_zero]
    exact begins_succ (hw.code_join_lt h (pairs.length - 1 - j) j (by omega))
  rw [hw.bits_last, hw.code_last, pow_zero, Nat.mod_one, if_pos rfl, Finset.sum_const_zero, Finset.sum_boole,
    Nat.cast_id, Nat.add_zero, Finset.card_eq_one] at hsum
  obtain ⟨i, hi⟩ := hsum
  have hmem : ∀ v, v < b ∧ x % 2 ^ bits v = code v ↔ v = i := fun v => by
    have hv := Finset.ext_iff.mp hi v
    rwa [Finset.mem_filter, Finset.mem_range, Finset.mem_singleton] at hv
  exact ⟨i, (hmem i).mpr rfl, fun v hv => (hmem v).mp hv⟩

/-- The words cost as much as the joins. -/
lemma cost_eq (hw : MergeWords base pairs bits code) (h : SortedMerge b base weight pairs) :
    ∑ i ∈ range b, weight i * bits i = ∑ j ∈ range pairs.length, weight (base + j) := by
  rw [h.sum_leaves (f := fun v => weight v * bits v) (g := fun j => weight (base + j)) fun j hj => by
    rw [hw.bits_left j hj, hw.bits_right j hj, ← Nat.add_mul, ← h.weight_join j hj, Nat.mul_succ]]
  rw [hw.bits_last, Nat.mul_zero, Nat.zero_add]

/-- Joins that are made later have no longer words. -/
lemma bits_join_antitone (hw : MergeWords base pairs bits code) (h : SortedMerge b base weight pairs) (k : ℕ) :
    ∀ j j', j + k = pairs.length - 1 → j ≤ j' → j' < pairs.length → bits (base + j') ≤ bits (base + j) := by
  induction k using Nat.strong_induction_on with
  | _ k ih =>
    intro j j' hj hjj' hj'
    rcases Nat.eq_or_lt_of_le hjj' with rfl | hlt
    · exact le_rfl
    rcases Nat.eq_or_lt_of_le (Nat.le_sub_one_of_lt hj') with rfl | hlast
    · rw [hw.bits_last]
      exact Nat.zero_le _
    obtain ⟨a, ha, hja, heq⟩ := h.exists_inner (show j < pairs.length - 1 by omega)
    obtain ⟨a', ha', -, heq'⟩ := h.exists_inner hlast
    -- joins are joined in the order in which they were made
    have haa' : a ≤ a' := by
      by_contra hgt
      have horder := (h.sorted_of_lt (Nat.lt_of_not_le hgt) ha heq' heq).2 (Nat.le_add_right _ _)
      omega
    rw [hw.bits_child ha heq, hw.bits_child ha' heq']
    exact Nat.succ_le_succ (ih (pairs.length - 1 - a) (by omega) a a' (by omega) haa' ha')

/-- **No leaf has a longer word than the first node joined.** -/
theorem bits_le_first (hw : MergeWords base pairs bits code) (h : SortedMerge b base weight pairs) {i : ℕ}
    (hi : i < b) (hfirst : 0 < pairs.length) : bits i ≤ bits pairs[0].1 := by
  obtain ⟨j, hj, heq⟩ := h.exists_leaf hi
  rw [hw.bits_child hj heq, hw.bits_left 0 hfirst]
  exact Nat.succ_le_succ (hw.bits_join_antitone h (pairs.length - 1) 0 j (Nat.zero_add _) (Nat.zero_le j) hj)

/-- The weights grow like the numbers of Fibonacci on the way from a node to the last join. -/
lemma fib_mul_le (hw : MergeWords base pairs bits code) (h : SortedMerge b base weight pairs) (k : ℕ) :
    ∀ j u, j + k = pairs.length - 1 → (∀ hj : j < pairs.length, u = pairs[j].1 ∨ u = pairs[j].2) →
      Nat.fib (bits (base + j) + 1) * weight (base + j) + Nat.fib (bits (base + j)) * weight u ≤
        weight (base + (pairs.length - 1)) := by
  induction k using Nat.strong_induction_on with
  | _ k ih =>
    intro j u hj hu
    have hpos := h.length_pos
    rcases Nat.eq_zero_or_pos k with rfl | hk
    · obtain rfl : j = pairs.length - 1 := hj
      rw [hw.bits_last, Nat.fib_one, Nat.fib_zero, Nat.one_mul, Nat.zero_mul, Nat.add_zero]
    · obtain ⟨a, ha, hja, heq⟩ := h.exists_inner (show j < pairs.length - 1 by omega)
      have hle := ih (pairs.length - 1 - a) (by omega) a (base + j) (by omega) fun _ => heq
      rw [hw.bits_child ha heq]
      -- the other node of the later join is not lighter than `u`
      have hjoin : weight (base + j) + weight u ≤ weight (base + a) := by
        rw [h.weight_join a ha]
        have hleft := (h.sorted_of_lt hja ha (hu (by omega)) (Or.inl rfl)).1
        have hright := (h.sorted_of_lt hja ha (hu (by omega)) (Or.inr rfl)).1
        rcases heq with heq | heq
        · rw [heq]
          omega
        · rw [heq]
          omega
      have hfib := Nat.fib_add_two (n := bits (base + a))
      have hmul := Nat.mul_le_mul_left (Nat.fib (bits (base + a) + 1)) hjoin
      rw [hfib, Nat.add_mul]
      rw [Nat.mul_add] at hmul
      omega

/-- **Long words need large weights.** -/
theorem fib_le (hw : MergeWords base pairs bits code) (h : SortedMerge b base weight pairs)
    (hpos : ∀ v ∈ children pairs, 0 < weight v) {i : ℕ} (hi : i < b) :
    Nat.fib (bits i + 2) ≤ ∑ v ∈ range b, weight v := by
  obtain ⟨j, hj, heq⟩ := h.exists_leaf hi
  have hmem : ∀ v, v = pairs[j].1 ∨ v = pairs[j].2 → 0 < weight v := fun v hv =>
    hpos v (List.mem_flatMap.mpr ⟨pairs[j], List.getElem_mem hj, by rwa [List.mem_cons, List.mem_singleton]⟩)
  have hle := hw.fib_mul_le h (pairs.length - 1 - j) j i (by omega) fun _ => heq
  have htwo : 2 ≤ weight (base + j) := by
    have hleft := hmem _ (Or.inl rfl)
    have hright := hmem _ (Or.inr rfl)
    rw [h.weight_join j hj]
    omega
  have hone := hmem i heq
  rw [h.weight_last, hw.bits_child hj heq, Nat.fib_add_two, Nat.fib_add_two (n := bits (base + j))]
  have h₁ := Nat.mul_le_mul_left (Nat.fib (bits (base + j) + 1)) htwo
  have h₂ := Nat.mul_le_mul_left (Nat.fib (bits (base + j))) hone
  omega

end MergeWords

end DArc
