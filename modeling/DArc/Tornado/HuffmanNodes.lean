import DArc.Library.Chop
import DArc.Library.SortedMerge
import DArc.Tornado.HuffmanTree

/-!
# The nodes of the Huffman tree

The symbols are sorted by their counters: small counters are sorted by counting, the others as words that hold the
counter above the symbol.  The joins are a merge in the order of the counters.

### Outline

* `Placing.Placed`: what has been placed after some symbols;
* `Joining.Inv`: the joins so far are a merge of the nodes that are left.

### Main results

* `sortedNodes_spec`: the nodes are all symbols, in the order of their counters;
* `joined_spec`: the loop of the joins ends, and the joins are a sorted merge.
-/

namespace DArc.Tornado

/-! ## Sorting by counting -/

section

variable {n : ℕ} {counter : ℕ → ℕ}

/-- The symbols below `i` with a counter. -/
def bucket (counter : ℕ → ℕ) (c i : ℕ) : List ℕ := (List.range i).filter fun x => counter x = c

/-- The number of symbols with a smaller counter. -/
def startOf (n : ℕ) (counter : ℕ → ℕ) (c : ℕ) : ℕ := ((partitionList c counter (List.range n)).flatten).length

/-- Another symbol goes into its bucket. -/
lemma bucket_succ (c i : ℕ) :
    bucket counter c (i + 1) = if counter i = c then bucket counter c i ++ [i] else bucket counter c i := by
  rw [bucket, List.range_succ, List.filter_append, bucket]
  split
  · next h => rw [List.filter_cons_of_pos (by simpa using h), List.filter_nil]
  · next h => rw [List.filter_cons_of_neg (by simpa using h), List.filter_nil, List.append_nil]

/-- The lists of one more counter. -/
lemma partitionList_succ (c : ℕ) :
    (partitionList (c + 1) counter (List.range n)).flatten =
      (partitionList c counter (List.range n)).flatten ++ bucket counter c n := by
  rw [partitionList, List.range_succ, List.map_append, List.flatten_append, List.map_singleton, List.flatten_singleton]
  rfl

/-- The next counter starts behind the bucket. -/
lemma startOf_succ (n : ℕ) (counter : ℕ → ℕ) (c : ℕ) :
    startOf n counter (c + 1) = startOf n counter c + (bucket counter c n).length := by
  rw [startOf, partitionList_succ, List.length_append, startOf]

/-- Larger counters start later. -/
lemma startOf_mono {c c' : ℕ} (h : c ≤ c') : startOf n counter c ≤ startOf n counter c' := by
  induction h with
  | refl => exact le_rfl
  | step _ ih => exact ih.trans (by rw [startOf_succ]; exact Nat.le_add_right _ _)

/-- There are no more symbols. -/
lemma startOf_le (n : ℕ) (counter : ℕ → ℕ) (c : ℕ) : startOf n counter c ≤ n := by
  rw [startOf, (partitionList_perm_filter c counter (List.range n)).length_eq]
  exact (List.length_filter_le _ _).trans_eq List.length_range

/-- An element of a list after an element was changed. -/
lemma getD_modify {α : Type} (l : List α) (i j : ℕ) (f : α → α) (d : α) (hj : j < l.length) :
    (l.modify i f).getD j d = if i = j then f (l.getD j d) else l.getD j d := by
  rw [List.getD_eq_getElem?_getD, List.getElem?_modify, List.getElem?_eq_getElem hj, List.getD_eq_getElem _ _ hj]
  split <;> rfl

/-- The small counters are counted. -/
lemma counted_spec (n : ℕ) (counter : ℕ → ℕ) :
    (counted n counter).length = chunks + 1 ∧ (counted n counter).getD 0 0 = 0 ∧
      ∀ c < chunks, (counted n counter).getD (c + 1) 0 = (bucket counter c n).length := by
  unfold counted
  induction n with
  | zero =>
    refine ⟨List.length_replicate, rfl, fun c hc => ?_⟩
    rw [List.range_zero, List.foldl_nil, List.getD_eq_getElem?_getD, List.getElem?_replicate_of_lt (by omega)]
    rfl
  | succ n ih =>
    obtain ⟨hlength, hzero, hsucc⟩ := ih
    rw [List.range_succ, List.foldl_append, List.foldl_cons, List.foldl_nil]
    split
    · next hlt =>
      refine ⟨by rw [List.length_modify, hlength], ?_, fun c hc => ?_⟩
      · rw [getD_modify _ _ _ _ _ (by omega), if_neg (Nat.succ_ne_zero _), hzero]
      · rw [getD_modify _ _ _ _ _ (by omega), hsucc c hc, bucket_succ]
        by_cases heq : counter n = c
        · rw [if_pos (by rw [heq]), if_pos heq, List.length_append, List.length_singleton]
        · rw [if_neg (by omega), if_neg heq]
    · next hge =>
      refine ⟨hlength, hzero, fun c hc => ?_⟩
      rw [hsucc c hc, bucket_succ, if_neg (by omega)]

/-- The numbers are added up to the places where the counters start. -/
lemma summed_spec (n : ℕ) (counter : ℕ → ℕ) :
    (summed (counted n counter)).length = chunks + 1 ∧
      ∀ c ≤ chunks, (summed (counted n counter)).getD c 0 = startOf n counter c := by
  obtain ⟨hlength, hzero, hsucc⟩ := counted_spec n counter
  have hrun : ∀ m ≤ chunks,
      let places := (List.range m).foldl (fun places i => places.modify (i + 1) fun k => k + places.getD i 0)
        (counted n counter)
      places.length = chunks + 1 ∧ (∀ c ≤ m, places.getD c 0 = startOf n counter c) ∧
        ∀ c, m ≤ c → c < chunks → places.getD (c + 1) 0 = (bucket counter c n).length := by
    intro m hm
    induction m with
    | zero =>
      refine ⟨hlength, fun c hc => ?_, fun c _ hc => hsucc c hc⟩
      rw [Nat.le_zero.mp hc]
      exact hzero
    | succ m ih =>
      obtain ⟨hlength, hstart, hcount⟩ := ih (by omega)
      rw [List.range_succ, List.foldl_append, List.foldl_cons, List.foldl_nil]
      refine ⟨by rw [List.length_modify, hlength], fun c hc => ?_, fun c hmc hc => ?_⟩
      · rw [getD_modify _ _ _ _ _ (by omega)]
        split
        · next heq =>
          rw [← heq, hcount m le_rfl (by omega), hstart m le_rfl, startOf_succ, Nat.add_comm]
        · exact hstart c (by omega)
      · rw [getD_modify _ _ _ _ _ (by omega), if_neg (by omega)]
        exact hcount c (by omega) hc
  obtain ⟨hlength, hstart, -⟩ := hrun chunks le_rfl
  exact ⟨hlength, hstart⟩

/-- What has been placed after the symbols below `i`. -/
structure Placing.Placed (n : ℕ) (counter : ℕ → ℕ) (i : ℕ) (p : Placing) : Prop where
  length_places : p.places.length = chunks + 1
  length_buf : p.buf.length = n
  places : ∀ c < chunks, p.places.getD c 0 = startOf n counter c + (bucket counter c i).length
  places_last : p.places.getD chunks 0 = startOf n counter chunks
  buf : ∀ c < chunks, ∀ (k x : ℕ), (bucket counter c i)[k]? = some x →
    p.buf[startOf n counter c + k]? = some ⟨c, x, 0⟩
  rest : p.rest = ((List.range i).filter fun x => ¬counter x < chunks).map fun x => makeNode x (counter x)

/-- Buckets grow. -/
lemma length_bucket_mono (counter : ℕ → ℕ) (c : ℕ) {i j : ℕ} (h : i ≤ j) :
    (bucket counter c i).length ≤ (bucket counter c j).length :=
  ((List.range_sublist.mpr h).filter _).length_le

/-- The buckets are behind each other. -/
lemma startOf_add_ne {c c' k k' : ℕ} (hk : k < (bucket counter c n).length) (hk' : k' < (bucket counter c' n).length)
    (hne : c ≠ c') : startOf n counter c + k ≠ startOf n counter c' + k' := by
  have hend := startOf_succ n counter c
  have hend' := startOf_succ n counter c'
  rcases Nat.lt_or_gt_of_ne hne with hlt | hlt
  · have hle : startOf n counter (c + 1) ≤ startOf n counter c' := startOf_mono hlt
    omega
  · have hle : startOf n counter (c' + 1) ≤ startOf n counter c := startOf_mono hlt
    omega

/-- A bucket that will get another symbol is not full. -/
lemma bucket_lt (counter : ℕ → ℕ) {i : ℕ} (hi : i < n) :
    (bucket counter (counter i) i).length < (bucket counter (counter i) n).length := by
  have hsub := length_bucket_mono counter (counter i) (Nat.succ_le_of_lt hi)
  rw [bucket_succ, if_pos rfl, List.length_append, List.length_singleton] at hsub
  omega

/-- **A symbol is placed.** The place is behind the other symbols of its bucket, and in front of the next one. -/
theorem Placing.Placed.place {i : ℕ} {p : Placing} (h : p.Placed n counter i) (hi : i < n) :
    (p.place counter i).Placed n counter (i + 1) := by
  obtain ⟨hplaces, hlength, hplace, hlast, hbuf, hrest⟩ := h
  unfold Placing.place
  split
  · next hlt =>
    have hroom := bucket_lt counter hi
    have hq := hplace (counter i) hlt
    have hfit : p.places.getD (counter i) 0 < n := by
      have hend := startOf_succ n counter (counter i)
      have hle := startOf_le n counter (counter i + 1)
      omega
    refine ⟨by rw [List.length_modify, hplaces], by rw [List.length_set, hlength], fun c hc => ?_, ?_,
      fun c hc k x hx => ?_, ?_⟩
    · dsimp only
      rw [getD_modify _ _ _ _ _ (by omega), bucket_succ]
      by_cases heq : counter i = c
      · rw [if_pos heq, if_pos heq, List.length_append, List.length_singleton, ← heq, hq, Nat.add_assoc]
      · rw [if_neg heq, if_neg heq, hplace c hc]
    · dsimp only
      rw [getD_modify _ _ _ _ _ (by omega), if_neg (by omega), hlast]
    · dsimp only
      by_cases heq : counter i = c
      · subst heq
        rw [bucket_succ, if_pos rfl] at hx
        rcases Nat.lt_or_ge k (bucket counter (counter i) i).length with hk | hk
        · rw [List.getElem?_append_left hk] at hx
          rw [List.getElem?_set_ne (by omega)]
          exact hbuf _ hc k x hx
        · rw [List.getElem?_append_right hk, List.getElem?_singleton] at hx
          split at hx
          · next hzero =>
            obtain rfl := Option.some.inj hx
            rw [hq, show startOf n counter (counter i) + (bucket counter (counter i) i).length =
              startOf n counter (counter i) + k by omega, List.getElem?_set_self (by omega)]
          · cases hx
      · rw [bucket_succ, if_neg heq] at hx
        have hold := hbuf c hc k x hx
        have hk : k < (bucket counter c n).length :=
          (List.getElem?_eq_some_iff.mp hx).1.trans_le (length_bucket_mono counter c hi.le)
        rw [hq, List.getElem?_set_ne (startOf_add_ne hroom hk heq)]
        exact hold
    · rw [hrest, List.range_succ, List.filter_append, List.filter_cons_of_neg (by simpa using hlt), List.filter_nil,
        List.append_nil]
  · next hge =>
    have hbucket : ∀ c < chunks, bucket counter c (i + 1) = bucket counter c i := fun c hc => by
      rw [bucket_succ, if_neg (by omega)]
    refine ⟨hplaces, hlength, fun c hc => ?_, hlast, fun c hc k x hx => ?_, ?_⟩
    · rw [hbucket c hc]
      exact hplace c hc
    · rw [hbucket c hc] at hx
      exact hbuf c hc k x hx
    · dsimp only
      rw [hrest, List.range_succ, List.filter_append, List.filter_cons_of_pos (by simpa using hge), List.filter_nil,
        List.map_append, List.map_singleton]

/-- All symbols are placed. -/
lemma placed_spec (n : ℕ) (counter : ℕ → ℕ) : (placed n counter).Placed n counter n := by
  have hrun : ∀ i ≤ n, ((List.range i).foldl (Placing.place counter)
      ⟨summed (counted n counter), List.replicate n default, []⟩).Placed n counter i := by
    intro i hi
    induction i with
    | zero =>
      obtain ⟨hlength, hstart⟩ := summed_spec n counter
      rw [List.range_zero, List.foldl_nil]
      have hempty : ∀ c, bucket counter c 0 = [] := fun c => rfl
      refine ⟨?_, List.length_replicate, fun c hc => ?_, ?_, fun c _ k x hx => ?_, rfl⟩
      · dsimp only
        exact hlength
      · dsimp only
        rw [hempty, List.length_nil, Nat.add_zero, hstart c (Nat.le_of_lt hc)]
      · dsimp only
        exact hstart chunks le_rfl
      · rw [hempty, List.getElem?_nil] at hx
        cases hx
    | succ i ih =>
      rw [List.range_succ, List.foldl_append, List.foldl_cons, List.foldl_nil]
      exact (ih (by omega)).place (by omega)
  exact hrun n le_rfl

/-- The symbols with small counters are in the order of the buckets. -/
lemma take_buf {p : Placing} (h : p.Placed n counter n) :
    p.buf.take (p.places.getD chunks 0) =
      (partitionList chunks counter (List.range n)).flatten.map fun x => ⟨counter x, x, 0⟩ := by
  rw [h.places_last]
  have hrun : ∀ m ≤ chunks, p.buf.take (startOf n counter m) =
      (partitionList m counter (List.range n)).flatten.map fun x => ⟨counter x, x, 0⟩ := by
    intro m hm
    induction m with
    | zero => rfl
    | succ m ih =>
      rw [startOf_succ, List.take_add, ih (by omega), partitionList_succ, List.map_append]
      congr 1
      refine List.ext_getElem? fun k => ?_
      rw [List.getElem?_map]
      rcases Nat.lt_or_ge k (bucket counter m n).length with hk | hk
      · have hx := List.getElem?_eq_getElem hk
        have hmem := List.mem_filter.mp (List.getElem_mem hk)
        rw [List.getElem?_take_of_lt hk, List.getElem?_drop, h.buf m (by omega) k _ hx, hx, Option.map_some,
          of_decide_eq_true hmem.2]
      · rw [List.getElem?_eq_none hk, Option.map_none, List.getElem?_eq_none]
        exact (List.length_take_le _ _).trans hk
  exact hrun chunks le_rfl

/-- The order of the symbols depends on their counters only. -/
lemma sortedNodes_congr {counter' : ℕ → ℕ} (h : ∀ s < n, counter' s = counter s) :
    sortedNodes n counter' = sortedNodes n counter := by
  have hcounted : counted n counter' = counted n counter :=
    List.foldl_ext _ _ _ fun places i hi => by rw [h i (List.mem_range.mp hi)]
  have hplaced : placed n counter' = placed n counter := by
    rw [placed, placed, hcounted]
    exact List.foldl_ext _ _ _ fun p i hi => by rw [Placing.place, Placing.place, h i (List.mem_range.mp hi)]
  rw [sortedNodes, sortedNodes, hplaced]

/-! ## Sorting the large counters -/

/-- A node holds the counter above the symbol. -/
lemma makeNode_eq {i cnt : ℕ} (hi : i < maxhuf) (hcnt : cnt < 2 ^ 20) : makeNode i cnt = cnt * maxhuf + i := by
  have hmax : maxhuf = 2048 := rfl
  rw [makeNode, uint32, Int.emod_eq_of_lt (by positivity) (by rw [hmax] at hi ⊢; push_cast; omega)]
  exact Int.toNat_natCast (cnt * maxhuf + i)

/-- The counter of a node. -/
lemma cnt0_makeNode {i cnt : ℕ} (hi : i < maxhuf) (hcnt : cnt < 2 ^ 20) : cnt0 (makeNode i cnt) = cnt := by
  rw [makeNode_eq hi hcnt, cnt0, Nat.mul_comm, Nat.mul_add_div (by decide), Nat.div_eq_of_lt hi, Nat.add_zero]

/-- The symbol of a node. -/
lemma index0_makeNode {i cnt : ℕ} (hi : i < maxhuf) (hcnt : cnt < 2 ^ 20) : index0 (makeNode i cnt) = i := by
  rw [makeNode_eq hi hcnt, index0, Nat.mul_comm, Nat.mul_add_mod, Nat.mod_eq_of_lt hi]

/-- Nodes below `2 ^ 31` are compared as numbers. -/
lemma byCntAndIndex_le_zero {a b : ℕ} (ha : a < 2 ^ 31) (hb : b < 2 ^ 31) : byCntAndIndex a b ≤ 0 ↔ a ≤ b := by
  rw [byCntAndIndex, int32_of_mem (by omega) (by omega)]
  omega

/-- The nodes that are sorted by comparing them are sorted as numbers. -/
lemma insertionSort_byCntAndIndex {l : List ℕ} (h : ∀ a ∈ l, a < 2 ^ 31) :
    (l.insertionSort fun a b => byCntAndIndex a b ≤ 0) = l.insertionSort fun a b => a ≤ b := by
  have hmap := List.map_insertionSort (r := fun a b => byCntAndIndex a b ≤ 0) (s := fun a b => a ≤ b) id l
    fun a ha b hb => byCntAndIndex_le_zero (h a ha) (h b hb)
  rwa [List.map_id, List.map_id] at hmap

/-- The lists of small counters are in order. -/
lemma pairwise_partitionList (m : ℕ) :
    (partitionList m counter (List.range n)).flatten.Pairwise fun x y => counter x ≤ counter y := by
  induction m with
  | zero => exact List.Pairwise.nil
  | succ m ih =>
    have hbucket : ∀ x ∈ bucket counter m n, counter x = m := fun x hx => of_decide_eq_true (List.mem_filter.mp hx).2
    rw [partitionList_succ]
    refine List.pairwise_append.mpr ⟨ih, List.pairwise_of_forall_mem_list ?_, fun x hx y hy => ?_⟩
    · intro x hx y hy
      rw [hbucket x hx, hbucket y hy]
    · have hlt := of_decide_eq_true (List.mem_filter.mp ((partitionList_perm_filter m counter _).mem_iff.mp hx)).2
      rw [hbucket y hy]
      exact Nat.le_of_lt hlt

/-- The symbols with large counters are sorted, too. -/
lemma exists_sorted_rest {p : Placing} (h : p.Placed n counter n) (hn : n ≤ maxhuf)
    (hcounter : ∀ s < n, counter s < 2 ^ 20) :
    ∃ l : List ℕ, ((p.rest.insertionSort fun a b => byCntAndIndex a b ≤ 0).map fun node => ⟨cnt0 node, index0 node, 0⟩) =
        l.map (fun x => (⟨counter x, x, 0⟩ : Node)) ∧
      l.Perm ((List.range n).filter fun x => ¬counter x < chunks) ∧
      l.Pairwise fun x y => counter x ≤ counter y := by
  -- what is sorted are the words of the symbols
  have hword : ∀ a ∈ p.rest, ∃ x, a = makeNode x (counter x) ∧ x < maxhuf ∧ counter x < 2 ^ 20 := by
    intro a ha
    rw [h.rest] at ha
    obtain ⟨x, hx, rfl⟩ := List.mem_map.mp ha
    have hlt := List.mem_range.mp (List.mem_filter.mp hx).1
    exact ⟨x, rfl, hlt.trans_le hn, hcounter x hlt⟩
  have hsmall : ∀ a ∈ p.rest, a < 2 ^ 31 := by
    intro a ha
    obtain ⟨x, rfl, hx, hc⟩ := hword a ha
    have hmax : maxhuf = 2048 := rfl
    rw [makeNode_eq hx hc]
    rw [hmax] at hx ⊢
    omega
  have hcnt : ∀ a ∈ p.rest, cnt0 a = counter (index0 a) := by
    intro a ha
    obtain ⟨x, rfl, hx, hc⟩ := hword a ha
    rw [cnt0_makeNode hx hc, index0_makeNode hx hc]
  have hperm := List.perm_insertionSort (fun a b => a ≤ b) p.rest
  rw [insertionSort_byCntAndIndex hsmall]
  refine ⟨(p.rest.insertionSort fun a b => a ≤ b).map index0, ?_, ?_, ?_⟩
  · rw [List.map_map]
    refine List.map_congr_left fun a ha => ?_
    rw [hcnt a (hperm.mem_iff.mp ha)]
    rfl
  · refine (hperm.map index0).trans (List.Perm.of_eq ?_)
    rw [h.rest, List.map_map]
    refine (List.map_congr_left fun x hx => ?_).trans (List.map_id _)
    have hlt := List.mem_range.mp (List.mem_filter.mp hx).1
    exact index0_makeNode (hlt.trans_le hn) (hcounter x hlt)
  · refine List.pairwise_map.mpr ((List.pairwise_insertionSort (fun a b => a ≤ b) p.rest).imp_of_mem fun ha hb hab => ?_)
    rw [← hcnt _ (hperm.mem_iff.mp ha), ← hcnt _ (hperm.mem_iff.mp hb)]
    exact Nat.div_le_div_right hab

/-- The nodes are those of the symbols, small counters first. -/
lemma exists_sortedNodes (hn : n ≤ maxhuf) (hcounter : ∀ s < n, counter s < 2 ^ 20) :
    ∃ l : List ℕ, sortedNodes n counter = l.map (fun x => ⟨counter x, x, 0⟩) ∧ l.Perm (List.range n) ∧
      l.Pairwise fun x y => counter x ≤ counter y := by
  obtain ⟨large, hrest, hperm, hsorted⟩ := exists_sorted_rest (placed_spec n counter) hn hcounter
  have hsmall := partitionList_perm_filter chunks counter (List.range n)
  refine ⟨(partitionList chunks counter (List.range n)).flatten ++ large, ?_, ?_, ?_⟩
  · rw [sortedNodes, take_buf (placed_spec n counter), hrest, List.map_append]
  · refine (hsmall.append hperm).trans ?_
    have hsplit := List.filter_append_perm (fun x => decide (counter x < chunks)) (List.range n)
    rwa [List.filter_congr fun x _ => (decide_not (p := counter x < chunks)).symm] at hsplit
  · refine List.pairwise_append.mpr ⟨pairwise_partitionList chunks, hsorted, fun x hx y hy => ?_⟩
    have hlt := of_decide_eq_true (List.mem_filter.mp (hsmall.mem_iff.mp hx)).2
    have hge := of_decide_eq_true (List.mem_filter.mp (hperm.mem_iff.mp hy)).2
    omega

/-- **The nodes are all symbols, in the order of their counters.** -/
theorem sortedNodes_spec (hn : n ≤ maxhuf) (hcounter : ∀ s < n, counter s < 2 ^ 20) :
    ((sortedNodes n counter).map Node.left).Perm (List.range n) ∧
      (∀ node ∈ sortedNodes n counter, node.cnt = counter node.left) ∧
      (sortedNodes n counter).Pairwise fun a b => a.cnt ≤ b.cnt := by
  obtain ⟨l, hnodes, hperm, hsorted⟩ := exists_sortedNodes hn hcounter
  rw [hnodes]
  refine ⟨?_, fun node hnode => ?_, List.pairwise_map.mpr hsorted⟩
  · rw [List.map_map]
    exact (List.Perm.of_eq (List.map_id l)).trans hperm
  · obtain ⟨x, -, rfl⟩ := List.mem_map.mp hnode
    rfl

end

/-! ## The joins -/

namespace Joining

variable {nodes : List Node} {s : Joining}

/-- The nodes of the joins so far. -/
def pairs (s : Joining) : List (ℕ × ℕ) := s.combined.map fun node => (node.left, node.right)

/-- The nodes that remain. -/
def live (nodes : List Node) (s : Joining) : List ℕ :=
  List.range' s.p1 (nodes.length - s.p1) ++ List.range' s.p2 (s.p3 nodes - s.p2)

@[simp] lemma length_pairs (s : Joining) : s.pairs.length = s.combined.length := List.length_map _

/-- The nodes that remain are symbols or joins. -/
lemma mem_live {v : ℕ} : v ∈ s.live nodes ↔ (s.p1 ≤ v ∧ v < nodes.length) ∨ (s.p2 ≤ v ∧ v < s.p3 nodes) := by
  rw [live, List.mem_append, List.mem_range'_1, List.mem_range'_1]
  omega

/-- The counter of a symbol. -/
lemma cnt_leaf {p : ℕ} (hp : p < nodes.length) : s.cnt nodes p = nodes[p].cnt := by
  rw [cnt, List.append_assoc, List.getD_append _ _ _ _ (by rwa [List.length_map]),
    List.getD_eq_getElem _ _ (by rwa [List.length_map]), List.getElem_map]

/-- The fence behind the symbols. -/
lemma cnt_fence (nodes : List Node) (s : Joining) {p : ℕ} (hp : nodes.length ≤ p) (hp' : p < nodes.length + 2) :
    s.cnt nodes p = intMax := by
  rw [cnt, List.append_assoc, List.getD_append_right _ _ _ _ (by rwa [List.length_map]), List.length_map,
    List.getD_append _ _ _ _ (by rw [List.length_cons, List.length_singleton]; omega)]
  obtain h | h : p - nodes.length = 0 ∨ p - nodes.length = 1 := by omega
  · rw [h]
    rfl
  · rw [h]
    rfl

/-- The fence behind the joins. -/
lemma cnt_end (nodes : List Node) (s : Joining) {p : ℕ} (hp : s.p3 nodes ≤ p) : s.cnt nodes p = intMax := by
  rw [p3] at hp
  refine List.getD_eq_default _ _ ?_
  rw [List.length_append, List.length_append, List.length_map, List.length_map, List.length_cons, List.length_singleton]
  omega

/-- A join does not change the counters of the nodes that are there. -/
lemma cnt_concat {p1' p2' : ℕ} {node : Node} {p : ℕ} (hp : p < s.p3 nodes) :
    cnt nodes ⟨p1', p2', s.combined ++ [node]⟩ p = s.cnt nodes p := by
  rw [p3] at hp
  rw [cnt, cnt, List.map_append, ← List.append_assoc, List.getD_append]
  rw [List.length_append, List.length_append, List.length_map, List.length_map, List.length_cons, List.length_singleton]
  omega

/-- The counter of a join. -/
lemma cnt_last {p1' p2' : ℕ} {node : Node} :
    cnt nodes ⟨p1', p2', s.combined ++ [node]⟩ (s.p3 nodes) = node.cnt := by
  rw [cnt, List.map_append, ← List.append_assoc, List.getD_append_right]
  · rw [List.length_append, List.length_append, List.length_map, List.length_map, List.length_cons,
      List.length_singleton, p3, Nat.sub_self]
    rfl
  · rw [List.length_append, List.length_append, List.length_map, List.length_map, List.length_cons,
      List.length_singleton, p3]

/-- The symbols are in the order of their counters. -/
lemma cnt_le_cnt (hsorted : nodes.Pairwise fun a b => a.cnt ≤ b.cnt) {u v : ℕ} (huv : u ≤ v) (hv : v < nodes.length) :
    s.cnt nodes u ≤ s.cnt nodes v := by
  rcases Nat.eq_or_lt_of_le huv with rfl | hlt
  · exact le_rfl
  · rw [cnt_leaf (huv.trans_lt hv), cnt_leaf hv]
    exact List.pairwise_iff_getElem.mp hsorted u v (huv.trans_lt hv) hv hlt

/-- The counters of the symbols. -/
lemma map_cnt_range (s : Joining) : (List.range nodes.length).map (s.cnt nodes) = nodes.map Node.cnt := by
  refine List.ext_getElem (by rw [List.length_map, List.length_map, List.length_range]) fun i hi hi' => ?_
  rw [List.length_map] at hi'
  rw [List.getElem_map, List.getElem_map, List.getElem_range, cnt_leaf hi']

/-- The joins so far are a merge of the nodes that remain, and the joins that remain are in the order of their counters.
The first symbol was joined first. -/
structure Inv (nodes : List Node) (s : Joining) : Prop where
  p1_le : s.p1 ≤ nodes.length
  le_p2 : nodes.length + 2 ≤ s.p2
  p2_le : s.p2 ≤ s.p3 nodes
  start : s.combined = [] → s.p1 = 0
  first : ∀ node ∈ s.combined.head?, node.left = 0
  recent : s.combined ≠ [] → s.p2 < s.p3 nodes
  merge : PartialMerge nodes.length (nodes.length + 2) (s.cnt nodes) s.pairs (s.live nodes)
  joins_sorted : ∀ u v, s.p2 ≤ u → u ≤ v → v < s.p3 nodes → s.cnt nodes u ≤ s.cnt nodes v

/-- The joins start with all symbols. -/
lemma inv_new : Inv nodes ⟨0, nodes.length + 2, []⟩ where
  p1_le := Nat.zero_le _
  le_p2 := le_rfl
  p2_le := le_rfl
  start := fun _ => rfl
  first := fun node h => by cases h
  recent := fun h => absurd rfl h
  merge := by
    have hlive : live nodes ⟨0, nodes.length + 2, []⟩ = List.range nodes.length := by
      rw [live, p3]
      dsimp only
      rw [List.length_nil, Nat.add_zero, Nat.sub_self, List.range'_zero, List.append_nil, Nat.sub_zero,
        List.range_eq_range']
    rw [hlive]
    exact PartialMerge.start
  joins_sorted := fun u v hu huv hv => by
    rw [p3] at hv
    dsimp only at hu hv
    rw [List.length_nil] at hv
    omega

/-- The number of nodes that remain. -/
lemma Inv.length_live (h : s.Inv nodes) : (s.live nodes).length + s.combined.length = nodes.length := by
  have hlength := h.merge.perm.length_eq
  have hchildren : (children s.pairs).length = 2 * s.combined.length := by
    rw [length_children, length_pairs]
  rw [List.length_append, List.length_append, List.length_map, List.length_range, List.length_range, hchildren,
    length_pairs] at hlength
  omega

/-- A node that remains is below the fences. -/
lemma Inv.cnt_lt (h : s.Inv nodes) (hsum : (nodes.map Node.cnt).sum < intMax) {v : ℕ} (hv : v ∈ s.live nodes) :
    s.cnt nodes v < intMax := by
  have hle := List.single_le_sum (fun _ _ => Nat.zero_le _) _ (List.mem_map_of_mem (f := s.cnt nodes) hv)
  rw [h.merge.sum_live, map_cnt_range] at hle
  exact hle.trans_lt hsum

/-- No counter is above the fences. -/
lemma Inv.cnt_le (h : s.Inv nodes) (hsum : (nodes.map Node.cnt).sum < intMax) {v : ℕ}
    (hv : s.p1 ≤ v ∧ v < nodes.length + 2 ∨ s.p2 ≤ v) : s.cnt nodes v ≤ intMax := by
  by_cases hlive : v ∈ s.live nodes
  · exact (h.cnt_lt hsum hlive).le
  · rw [mem_live] at hlive
    rcases hv with hv | hv
    · exact (cnt_fence nodes s (by omega) hv.2).le
    · exact (cnt_end nodes s (by omega)).le

/-- **Two nodes are joined.** No other node that remains has a smaller counter. -/
theorem Inv.join (h : s.Inv nodes) {x y p1' p2' : ℕ} (hp1 : p1' ≤ nodes.length) (hp2 : s.p2 ≤ p2')
    (hp2' : p2' ≤ s.p3 nodes) (hfirst : s.combined = [] → x = 0)
    (hlive : (s.live nodes).Perm
      (x :: y :: (List.range' p1' (nodes.length - p1') ++ List.range' p2' (s.p3 nodes - p2'))))
    (hmin : ∀ u ∈ [x, y], ∀ v, (p1' ≤ v ∧ v < nodes.length) ∨ (p2' ≤ v ∧ v < s.p3 nodes) →
      s.cnt nodes u ≤ s.cnt nodes v ∧ (nodes.length + 2 ≤ v → u < v)) :
    Inv nodes ⟨p1', p2', s.combined ++ [⟨s.cnt nodes x + s.cnt nodes y, x, y⟩]⟩ := by
  set s' : Joining := ⟨p1', p2', s.combined ++ [⟨s.cnt nodes x + s.cnt nodes y, x, y⟩]⟩ with hs'
  have hnext : s'.p3 nodes = s.p3 nodes + 1 := by
    rw [hs', p3, p3]
    dsimp only
    rw [List.length_append, List.length_singleton, ← Nat.add_assoc]
  have hp3 : nodes.length + 2 + s.pairs.length = s.p3 nodes := by rw [length_pairs, p3]
  have heq : ∀ v < s.p3 nodes, s'.cnt nodes v = s.cnt nodes v := fun v hv => cnt_concat hv
  have hlast : s'.cnt nodes (s.p3 nodes) = s.cnt nodes x + s.cnt nodes y := cnt_last
  have hx : x ∈ s.live nodes := hlive.mem_iff.mpr List.mem_cons_self
  have hy : y ∈ s.live nodes := hlive.mem_iff.mpr (List.mem_cons_of_mem _ List.mem_cons_self)
  have hlt : ∀ v ∈ s.live nodes, v < s.p3 nodes := fun v hv => by
    rw [← hp3]
    exact h.merge.lt_of_mem (Nat.le_add_right _ _) (Or.inr hv)
  refine ⟨hp1, h.le_p2.trans hp2, ?_, ?_, ?_, ?_, ?_, ?_⟩
  · rw [hnext]
    exact hp2'.trans (Nat.le_succ _)
  · intro hnil
    exact absurd hnil (List.append_ne_nil_of_right_ne_nil _ (List.cons_ne_nil _ _))
  · intro node hnode
    rw [hs'] at hnode
    dsimp only at hnode
    rcases hcombined : s.combined with _ | ⟨node', combined⟩
    · rw [hcombined, List.nil_append, List.head?_cons, Option.mem_some_iff] at hnode
      rw [← hnode]
      exact hfirst hcombined
    · rw [hcombined, List.cons_append, List.head?_cons, Option.mem_some_iff] at hnode
      rw [← hnode]
      exact h.first node' (by rw [hcombined, List.head?_cons, Option.mem_some_iff])
  · rw [hnext]
    exact fun _ => Nat.lt_succ_of_le hp2'
  · have hmerge := ((h.merge.congr (Nat.le_add_right _ _) fun v hv => heq v (hp3 ▸ hv)).of_perm hlive).join
      (Nat.le_add_right _ _) (fun u hu v hv => ?_) ?_
    · have hpairs : s'.pairs = s.pairs ++ [(x, y)] := List.map_append
      have hback : s'.live nodes =
          List.range' p1' (nodes.length - p1') ++ List.range' p2' (s.p3 nodes - p2') ++ [s.p3 nodes] := by
        rw [live, hnext, Nat.succ_sub hp2', List.range'_concat, ← List.append_assoc, Nat.one_mul,
          Nat.add_sub_cancel' hp2']
      rw [hp3] at hmerge
      rw [hpairs, hback]
      exact hmerge
    · have hu' : u < s.p3 nodes := by
        rcases List.mem_cons.mp hu with rfl | hu
        · exact hlt _ hx
        · rw [List.mem_singleton.mp hu]
          exact hlt _ hy
      have hv' : v < s.p3 nodes :=
        hlt v (hlive.mem_iff.mpr (List.mem_cons_of_mem _ (List.mem_cons_of_mem _ hv)))
      rw [heq u hu', heq v hv']
      refine hmin u hu v ?_
      rw [List.mem_append, List.mem_range'_1, List.mem_range'_1] at hv
      omega
    · rw [hp3, hlast, heq x (hlt x hx), heq y (hlt y hy)]
  · intro u v hu huv hv
    rw [hnext] at hv
    rcases Nat.lt_succ_iff_lt_or_eq.mp hv with hv | rfl
    · rw [heq u (huv.trans_lt hv), heq v hv]
      exact h.joins_sorted u v (hp2.trans hu) huv hv
    · rcases Nat.eq_or_lt_of_le huv with rfl | hlt'
      · exact le_rfl
      · rw [heq u hlt', hlast]
        obtain ⟨j, hj⟩ := Nat.exists_eq_add_of_le (h.le_p2.trans (hp2.trans hu))
        rw [hj]
        exact h.merge.weight_join_le hx hy (by omega)

/-- Symbols that remain in a row. -/
lemma range'_succ_of_lt {a b : ℕ} (h : a < b) : List.range' a (b - a) = a :: List.range' (a + 1) (b - (a + 1)) := by
  rw [show b - a = b - (a + 1) + 1 by omega, List.range'_succ]

/-- If the second symbol is rarer than the first join, it is no fence. -/
lemma Inv.p1_succ_lt (h : s.Inv nodes) (hsum : (nodes.map Node.cnt).sum < intMax)
    (hless : s.cnt nodes (s.p1 + 1) < s.cnt nodes s.p2) : s.p1 + 1 < nodes.length := by
  have hp1 := h.p1_le
  by_contra hend
  have hfence := cnt_fence nodes s (p := s.p1 + 1) (by omega) (by omega)
  have hle := h.cnt_le hsum (v := s.p2) (Or.inr le_rfl)
  omega

/-- If the second join is rarer than the first symbol, it exists. -/
lemma Inv.p2_succ_lt (h : s.Inv nodes) (hsum : (nodes.map Node.cnt).sum < intMax)
    (hgreater : s.cnt nodes s.p1 > s.cnt nodes (s.p2 + 1)) : s.p2 + 1 < s.p3 nodes := by
  have hp1 := h.p1_le
  by_contra hend
  have hfence := cnt_end nodes s (p := s.p2 + 1) (by omega)
  have hle := h.cnt_le hsum (v := s.p1) (Or.inl ⟨le_rfl, by omega⟩)
  omega

/-- Otherwise both a symbol and a join remain: behind the end of one queue there would be a fence, so that the other one
would have no second node. -/
lemma Inv.both_lt (h : s.Inv nodes) (hsum : (nodes.map Node.cnt).sum < intMax) (htwo : 2 ≤ nodes.length)
    (hdone : ¬s.Done nodes) (hnot : ¬s.cnt nodes (s.p1 + 1) < s.cnt nodes s.p2)
    (hnot' : ¬s.cnt nodes s.p1 > s.cnt nodes (s.p2 + 1)) : s.p1 < nodes.length ∧ s.p2 < s.p3 nodes := by
  have hlt := fun v hv => h.cnt_lt hsum (v := v) (mem_live.mpr hv)
  have hp1 := h.p1_le
  have hbase := h.le_p2
  have hp2 := h.p2_le
  have hp3 : s.p3 nodes = nodes.length + 2 + s.combined.length := rfl
  have hempty : s.combined = [] ↔ s.combined.length = 0 := List.length_eq_zero_iff.symm
  have hcount := h.length_live
  rw [live, List.length_append, List.length_range', List.length_range'] at hcount
  constructor
  · by_contra hend
    have hfence := cnt_fence nodes s (p := s.p1) (by omega) (by omega)
    have hlast : ¬s.p2 + 1 < s.p3 nodes := fun hroom => by
      have hsecond := hlt (s.p2 + 1) (Or.inr ⟨by omega, hroom⟩)
      omega
    have hpos : s.p2 < s.p3 nodes := h.recent fun hnil => by
      have hnone := hempty.mp hnil
      omega
    exact hdone ⟨by omega, by omega⟩
  · by_contra hend
    have hfence := cnt_end nodes s (p := s.p2) (by omega)
    have hlast : ¬s.p1 + 1 < nodes.length := fun hroom => by
      have hsecond := hlt (s.p1 + 1) (Or.inl ⟨by omega, hroom⟩)
      omega
    have hnil : s.combined = [] := by
      by_contra hne
      exact hend (h.recent hne)
    have hfirst := h.start hnil
    omega

/-- **The two nodes with the smallest counters are joined.** They are the first two symbols, the first two joins, or one
of each. -/
theorem Inv.step (h : s.Inv nodes) (hsorted : nodes.Pairwise fun a b => a.cnt ≤ b.cnt)
    (hsum : (nodes.map Node.cnt).sum < intMax) (htwo : 2 ≤ nodes.length) (hdone : ¬s.Done nodes) :
    (s.step nodes).Inv nodes := by
  have hp1 := h.p1_le
  have hp2 := h.p2_le
  have hbase := h.le_p2
  unfold Joining.step
  dsimp only
  split
  · next hless =>
    have hroom := h.p1_succ_lt hsum hless
    refine h.join (by omega) le_rfl hp2 h.start ?_ fun u hu v hv => ?_
    · rw [live, range'_succ_of_lt (show s.p1 < nodes.length by omega), range'_succ_of_lt hroom]
      rfl
    · have hfirst : s.cnt nodes s.p1 ≤ s.cnt nodes (s.p1 + 1) := cnt_le_cnt hsorted (Nat.le_succ _) hroom
      have hu' : s.cnt nodes u ≤ s.cnt nodes (s.p1 + 1) ∧ u < nodes.length := by
        rcases List.mem_cons.mp hu with rfl | hu
        · exact ⟨hfirst, by omega⟩
        · rw [List.mem_singleton.mp hu]
          exact ⟨le_rfl, hroom⟩
      rcases hv with hv | hv
      · exact ⟨hu'.1.trans (cnt_le_cnt hsorted (by omega) hv.2), by omega⟩
      · exact ⟨hu'.1.trans (hless.le.trans (h.joins_sorted _ v le_rfl hv.1 hv.2)), by omega⟩
  · next hnot =>
    split
    · next hgreater =>
      have hroom := h.p2_succ_lt hsum hgreater
      have hne : s.combined ≠ [] := fun hnil => by
        have hp3 : s.p3 nodes = nodes.length + 2 + s.combined.length := rfl
        rw [hnil, List.length_nil] at hp3
        omega
      refine h.join hp1 (by omega) (by omega) (fun hnil => absurd hnil hne) ?_ fun u hu v hv => ?_
      · rw [live, range'_succ_of_lt (show s.p2 < s.p3 nodes by omega), range'_succ_of_lt hroom]
        exact List.perm_middle.trans (List.perm_middle.cons _)
      · have hfirst := h.joins_sorted s.p2 (s.p2 + 1) le_rfl (Nat.le_succ _) hroom
        have hu' : s.cnt nodes u ≤ s.cnt nodes (s.p2 + 1) ∧ u < s.p2 + 2 := by
          rcases List.mem_cons.mp hu with rfl | hu
          · exact ⟨hfirst, by omega⟩
          · rw [List.mem_singleton.mp hu]
            exact ⟨le_rfl, by omega⟩
        rcases hv with hv | hv
        · exact ⟨hu'.1.trans (hgreater.le.trans (cnt_le_cnt hsorted hv.1 hv.2)), by omega⟩
        · exact ⟨hu'.1.trans (h.joins_sorted _ v (by omega) (by omega) hv.2), by omega⟩
    · next hnot' =>
      obtain ⟨hroom1, hroom2⟩ := h.both_lt hsum htwo hdone hnot hnot'
      refine h.join (by omega) (by omega) (by omega) h.start ?_ fun u hu v hv => ?_
      · rw [live, range'_succ_of_lt hroom1, range'_succ_of_lt hroom2, List.cons_append]
        exact List.perm_middle.cons _
      · rcases List.mem_cons.mp hu with rfl | hu
        · rcases hv with hv | hv
          · exact ⟨cnt_le_cnt hsorted (by omega) hv.2, by omega⟩
          · exact ⟨(Nat.le_of_not_lt hnot').trans (h.joins_sorted _ v (by omega) (by omega) hv.2), by omega⟩
        · rw [List.mem_singleton.mp hu]
          rcases hv with hv | hv
          · exact ⟨(Nat.le_of_not_lt hnot).trans (cnt_le_cnt hsorted (by omega) hv.2), by omega⟩
          · exact ⟨h.joins_sorted _ v le_rfl (by omega) hv.2, by omega⟩

/-- Every turn makes a join. -/
lemma length_step (nodes : List Node) (s : Joining) : (s.step nodes).combined.length = s.combined.length + 1 := by
  unfold Joining.step
  dsimp only
  split_ifs <;> exact List.length_append

/-- With as many turns as there are symbols the loop ends. -/
lemma Inv.joinLoop (hsorted : nodes.Pairwise fun a b => a.cnt ≤ b.cnt) (hsum : (nodes.map Node.cnt).sum < intMax)
    (htwo : 2 ≤ nodes.length) (fuel : ℕ) :
    ∀ s, Inv nodes s → nodes.length ≤ fuel + s.combined.length →
      (joinLoop nodes fuel s).Done nodes ∧ (joinLoop nodes fuel s).Inv nodes := by
  induction fuel with
  | zero =>
    intro s h hfuel
    exfalso
    have hcount := h.length_live
    have hrecent := h.recent fun hnil => by
      rw [hnil, List.length_nil] at hfuel
      omega
    have hmem : s.p2 ∈ s.live nodes := mem_live.mpr (Or.inr ⟨le_rfl, hrecent⟩)
    have := List.length_pos_of_mem hmem
    omega
  | succ fuel ih =>
    intro s h hfuel
    rw [Tornado.joinLoop]
    split
    · next hdone => exact ⟨hdone, h⟩
    · next hdone => exact ih _ (h.step hsorted hsum htwo hdone) (by rw [length_step]; omega)

end Joining

/-- **The loop of the joins ends, and the joins are a sorted merge.** The first of them joins the first symbol. -/
theorem joined_spec {nodes : List Node} (hsorted : nodes.Pairwise fun a b => a.cnt ≤ b.cnt)
    (hsum : (nodes.map Node.cnt).sum < intMax) (htwo : 2 ≤ nodes.length) :
    (joined nodes).Done nodes ∧
      SortedMerge nodes.length (nodes.length + 2) ((joined nodes).cnt nodes) (joined nodes).pairs ∧
      (joined nodes).p2 + 1 = nodes.length + 2 + (joined nodes).combined.length ∧
      ∀ node ∈ (joined nodes).combined.head?, node.left = 0 := by
  obtain ⟨⟨hp1, hp2⟩, h⟩ := Joining.Inv.joinLoop hsorted hsum htwo nodes.length _ Joining.inv_new (Nat.le_add_right _ _)
  change (joined nodes).p1 = nodes.length at hp1
  change (joined nodes).p3 nodes - (joined nodes).p2 = 1 at hp2
  change (joined nodes).Inv nodes at h
  have hp3 : (joined nodes).p3 nodes = nodes.length + 2 + (joined nodes).combined.length := rfl
  have hbase := h.le_p2
  have hpos : 0 < (joined nodes).pairs.length := by
    rw [Joining.length_pairs]
    omega
  have hlive : (joined nodes).live nodes = [nodes.length + 2 + ((joined nodes).pairs.length - 1)] := by
    rw [Joining.live, hp1, hp2, Nat.sub_self, List.range'_zero, List.nil_append, List.range'_one, Joining.length_pairs]
    congr 1
    rw [Joining.length_pairs] at hpos
    omega
  have hmerge := h.merge
  rw [hlive] at hmerge
  exact ⟨⟨hp1, hp2⟩, hmerge.sortedMerge htwo (Nat.le_add_right _ _) hpos, by omega, h.first⟩

end DArc.Tornado
