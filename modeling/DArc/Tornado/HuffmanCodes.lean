import DArc.Tornado.HuffmanNodes

/-!
# The codes of the Huffman tree

The counters determine a code for the symbols.  The tables of the encoder hold this code, and the tables of the decoder
look it up.

### Outline

* `CountersOk`: counters that a tree can be built for;
* `symbolWord`: the code that some counters give to a symbol;
* `OptimalCode`: a code that is complete, free of prefixes and as short as possible.

### Main results

* `optimalCode_symbolWord`: the code of a tree is optimal, and no code word has more than 21 bits;
* `buildTree_encoder`, `buildTree_decoder`: the tables hold the code, and look it up.
-/

namespace DArc.Tornado

open Finset (range)

/-! ## The codes of the nodes -/

/-- The codes after the joins from the `t`-th one on. -/
def wordsFrom (base : ℕ) (combined : List Node) (t k : ℕ) : ℕ → Word :=
  (List.range' t k).foldr (fun j word => assign base combined word j) fun _ => ⟨0, 0⟩

/-- The codes from the last join down. -/
lemma words_eq (nodes : List Node) :
    words nodes = wordsFrom (nodes.length + 2) (joined nodes).combined 0 ((joined nodes).p2 + 1 - (nodes.length + 2)) := by
  rw [words, wordsFrom, ← List.range_eq_range', List.foldl_reverse]

/-- The codes after the joins from the `t`-th one on: the last join has the empty code, and the nodes of these joins
have the codes of their joins with another bit. -/
lemma wordsFrom_spec {b base : ℕ} {weight : ℕ → ℕ} {combined : List Node}
    (h : SortedMerge b base weight (combined.map fun node => (node.left, node.right))) (k : ℕ) :
    ∀ t, t + k = combined.length →
      wordsFrom base combined t k (base + (combined.length - 1)) = ⟨0, 0⟩ ∧
        ∀ (j : ℕ) (hj : j < combined.length), t ≤ j →
          wordsFrom base combined t k combined[j].left =
              ⟨(wordsFrom base combined t k (base + j)).bits + 1, (wordsFrom base combined t k (base + j)).code⟩ ∧
            wordsFrom base combined t k combined[j].right =
              ⟨(wordsFrom base combined t k (base + j)).bits + 1, (wordsFrom base combined t k (base + j)).code +
                2 ^ (wordsFrom base combined t k (base + j)).bits⟩ := by
  have holder : ∀ (j : ℕ) (hj : j < combined.length), combined[j].left < base + j ∧ combined[j].right < base + j :=
    fun j hj => by
      have hold := h.older j (by rwa [List.length_map])
      rwa [List.getElem_map] at hold
  have hne : ∀ (j : ℕ) (hj : j < combined.length), combined[j].left ≠ combined[j].right :=
    fun j hj => by
      have hold := h.left_ne_right (j := j) (by rwa [List.length_map])
      rwa [List.getElem_map] at hold
  have hdistinct : ∀ (j j' : ℕ) (hjj' : j < j') (hj' : j' < combined.length) (u v : ℕ),
      (u = combined[j].left ∨ u = combined[j].right) → (v = combined[j'].left ∨ v = combined[j'].right) → u ≠ v :=
    fun j j' hjj' hj' u v hu hv => h.ne_of_lt hjj' (by rwa [List.length_map])
      (by simpa only [List.getElem_map] using hu) (by simpa only [List.getElem_map] using hv)
  induction k with
  | zero => exact fun t ht => ⟨rfl, fun j hj htj => by omega⟩
  | succ k ih =>
    intro t ht
    have hlt : t < combined.length := by omega
    obtain ⟨hlast, hlater⟩ := ih (t + 1) (by omega)
    set later := wordsFrom base combined (t + 1) k with hlaterdef
    have hfrom : wordsFrom base combined t (k + 1) = assign base combined later t := by
      rw [wordsFrom, List.range'_succ, List.foldr_cons]
      rfl
    have hassign : assign base combined later t =
        Function.update (Function.update later combined[t].left ⟨(later (base + t)).bits + 1, (later (base + t)).code⟩)
          combined[t].right ⟨(later (base + t)).bits + 1, (later (base + t)).code + 2 ^ (later (base + t)).bits⟩ := by
      rw [assign, List.getD_eq_getElem _ _ hlt, Nat.one_shiftLeft]
    -- the other nodes keep their words
    have hkeep : ∀ v, v ≠ combined[t].left → v ≠ combined[t].right → assign base combined later t v = later v := by
      intro v hleft hright
      rw [hassign, Function.update_of_ne hright, Function.update_of_ne hleft]
    have hjoin : ∀ j, t ≤ j → assign base combined later t (base + j) = later (base + j) := fun j htj => by
      have hold := holder t hlt
      exact hkeep _ (by omega) (by omega)
    rw [hfrom]
    refine ⟨by rw [hjoin _ (by omega), hlast], fun j hj htj => ?_⟩
    rw [hjoin j htj]
    rcases Nat.eq_or_lt_of_le htj with rfl | htj
    · refine ⟨?_, ?_⟩
      · rw [hassign, Function.update_of_ne (hne t hlt), Function.update_self]
      · rw [hassign, Function.update_self]
    · have hother : ∀ v, v = combined[j].left ∨ v = combined[j].right → assign base combined later t v = later v :=
        fun v hv => hkeep v (hdistinct t j htj hj _ v (Or.inl rfl) hv).symm (hdistinct t j htj hj _ v (Or.inr rfl) hv).symm
      rw [hother _ (Or.inl rfl), hother _ (Or.inr rfl)]
      exact hlater j hj htj

/-- The codes of the nodes are the words of the merge. -/
lemma mergeWords_words {nodes : List Node} {weight : ℕ → ℕ}
    (h : SortedMerge nodes.length (nodes.length + 2) weight (joined nodes).pairs)
    (hp2 : (joined nodes).p2 + 1 = nodes.length + 2 + (joined nodes).combined.length) :
    MergeWords (nodes.length + 2) (joined nodes).pairs (fun v => (words nodes v).bits)
      fun v => (words nodes v).code := by
  obtain ⟨hlast, hchild⟩ := wordsFrom_spec h (joined nodes).combined.length 0 (Nat.zero_add _)
  rw [← Nat.add_sub_cancel_left (n := nodes.length + 2) (m := (joined nodes).combined.length), ← hp2, ← words_eq, hp2,
    Nat.add_sub_cancel_left] at hlast
  have hwords : wordsFrom (nodes.length + 2) (joined nodes).combined 0 (joined nodes).combined.length = words nodes := by
    rw [words_eq, hp2, Nat.add_sub_cancel_left]
  rw [hwords] at hchild
  have hlength : (joined nodes).pairs.length = (joined nodes).combined.length := Joining.length_pairs _
  constructor
  · rw [hlength, hlast]
  · rw [hlength, hlast]
  all_goals
    intro j hj
    obtain ⟨hleft, hright⟩ := hchild j (hlength ▸ hj) (Nat.zero_le j)
    simp only [Joining.pairs, List.getElem_map]
  · rw [hleft]
  · rw [hright]
  · rw [hleft]
  · rw [hright]

/-! ## The codes of the symbols -/

/-- Counters that a tree can be built for: they are not 0, and their sum is less than the 24th number of Fibonacci. -/
structure CountersOk (n : ℕ) (counter : ℕ → ℕ) : Prop where
  two_le : 2 ≤ n
  le_maxhuf : n ≤ maxhuf
  pos : ∀ s < n, 0 < counter s
  sum_lt : ∑ s ∈ range n, counter s < 46368

/-- The code that some counters give to a symbol. -/
def symbolWord (n : ℕ) (counter : ℕ → ℕ) (s : ℕ) : Word :=
  let nodes := sortedNodes n counter
  words nodes (nodes.findIdx fun node => node.left = s)

/-- Every row of bits begins with exactly one code word, and no uniquely decodable code is shorter for these counters. -/
structure OptimalCode (n : ℕ) (counter : ℕ → ℕ) (word : ℕ → Word) : Prop where
  code_lt : ∀ s < n, (word s).code < 2 ^ (word s).bits
  bits_pos : ∀ s < n, 0 < (word s).bits
  bits_le : ∀ s < n, (word s).bits ≤ 21
  existsUnique : ∀ x, ∃! s, s < n ∧ x % 2 ^ (word s).bits = (word s).code
  minimal : ∀ words : ℕ → List Bool, Set.InjOn words (range n) →
    InformationTheory.UniquelyDecodable (words '' range n) →
      ∑ s ∈ range n, counter s * (word s).bits ≤ ∑ s ∈ range n, counter s * (words s).length

namespace CountersOk

variable {n : ℕ} {counter : ℕ → ℕ}

/-- No counter is large. -/
lemma counter_lt (h : CountersOk n counter) {s : ℕ} (hs : s < n) : counter s < 2 ^ 20 := by
  have hle := Finset.single_le_sum (f := counter) (fun _ _ => Nat.zero_le _) (Finset.mem_range.mpr hs)
  have := h.sum_lt
  omega

/-- The nodes are all symbols, in the order of their counters. -/
lemma nodes (h : CountersOk n counter) :
    ((sortedNodes n counter).map Node.left).Perm (List.range n) ∧
      (∀ node ∈ sortedNodes n counter, node.cnt = counter node.left) ∧
      (sortedNodes n counter).Pairwise fun a b => a.cnt ≤ b.cnt :=
  sortedNodes_spec h.le_maxhuf fun _ hs => h.counter_lt hs

/-- There are as many nodes as symbols. -/
lemma length_nodes (h : CountersOk n counter) : (sortedNodes n counter).length = n := by
  have hlength := h.nodes.1.length_eq
  rwa [List.length_map, List.length_range] at hlength

/-- The node of a symbol. -/
lemma exists_node (h : CountersOk n counter) {s : ℕ} (hs : s < n) :
    ∃ (i : ℕ) (hi : i < (sortedNodes n counter).length), (sortedNodes n counter)[i].left = s := by
  have hmem : s ∈ (sortedNodes n counter).map Node.left := h.nodes.1.mem_iff.mpr (List.mem_range.mpr hs)
  obtain ⟨node, hnode, rfl⟩ := List.mem_map.mp hmem
  obtain ⟨i, hi, rfl⟩ := List.mem_iff_getElem.mp hnode
  exact ⟨i, hi, rfl⟩

/-- The symbol of a node. -/
lemma left_lt (h : CountersOk n counter) {node : Node} (hnode : node ∈ sortedNodes n counter) : node.left < n :=
  List.mem_range.mp (h.nodes.1.mem_iff.mp (List.mem_map_of_mem hnode))

/-- No symbol has two nodes. -/
lemma nodup_left (h : CountersOk n counter) : ((sortedNodes n counter).map Node.left).Nodup :=
  h.nodes.1.nodup_iff.mpr List.nodup_range

/-- The code of the symbol of a node. -/
lemma symbolWord_left (h : CountersOk n counter) {i : ℕ} (hi : i < (sortedNodes n counter).length) :
    symbolWord n counter (sortedNodes n counter)[i].left = words (sortedNodes n counter) i := by
  have hfind : (sortedNodes n counter).findIdx
      (fun node => node.left = (sortedNodes n counter)[i].left) = i := by
    refine (List.findIdx_eq hi).mpr ⟨by rw [decide_eq_true_iff], fun j hji => ?_⟩
    have hne := List.pairwise_iff_getElem.mp h.nodup_left j i (by rw [List.length_map]; omega)
      (by rwa [List.length_map]) hji
    rw [List.getElem_map, List.getElem_map] at hne
    exact decide_eq_false hne
  rw [symbolWord, hfind]

/-- A sum over the nodes is one over the symbols. -/
lemma sum_nodes (h : CountersOk n counter) {F G : ℕ → ℕ}
    (hFG : ∀ (i : ℕ) (hi : i < (sortedNodes n counter).length), G i = F (sortedNodes n counter)[i].left) :
    ∑ i ∈ range (sortedNodes n counter).length, G i = ∑ s ∈ range n, F s := by
  have hnodes : ∑ i ∈ range (sortedNodes n counter).length, G i =
      ((sortedNodes n counter).map fun node => F node.left).sum := by
    rw [← Fin.sum_univ_fun_getElem, Finset.sum_range]
    exact Finset.sum_congr rfl fun i _ => hFG i i.isLt
  have hperm := (h.nodes.1.map F).sum_eq
  rw [List.map_map] at hperm
  exact hnodes.trans hperm

/-- The counters of the nodes. -/
lemma sum_cnt (h : CountersOk n counter) : ((sortedNodes n counter).map Node.cnt).sum = ∑ s ∈ range n, counter s := by
  have hperm := (h.nodes.1.map counter).sum_eq
  rw [List.map_map] at hperm
  rw [← (List.map_congr_left fun node hnode => (h.nodes.2.1 node hnode).symm : _ = _)]
  exact hperm

/-- The joins are a sorted merge, and the codes of the nodes are its words. -/
lemma merge (h : CountersOk n counter) :
    ∃ weight : ℕ → ℕ,
      SortedMerge (sortedNodes n counter).length ((sortedNodes n counter).length + 2) weight
        (joined (sortedNodes n counter)).pairs ∧
      MergeWords ((sortedNodes n counter).length + 2) (joined (sortedNodes n counter)).pairs
        (fun v => (words (sortedNodes n counter) v).bits) (fun v => (words (sortedNodes n counter) v).code) ∧
      (∀ (i : ℕ) (hi : i < (sortedNodes n counter).length), weight i = counter (sortedNodes n counter)[i].left) ∧
      ∀ hfirst : 0 < (joined (sortedNodes n counter)).pairs.length,
        (joined (sortedNodes n counter)).pairs[0].1 = 0 := by
  obtain ⟨-, hcnt, hsorted⟩ := h.nodes
  have hsum : ((sortedNodes n counter).map Node.cnt).sum < intMax := by
    rw [h.sum_cnt]
    exact h.sum_lt.trans (by decide)
  obtain ⟨-, hmerge, hp2, hfirst⟩ := joined_spec hsorted hsum (by rw [h.length_nodes]; exact h.two_le)
  refine ⟨_, hmerge, mergeWords_words hmerge hp2, fun i hi => ?_, fun hpos => ?_⟩
  · rw [Joining.cnt_leaf hi, hcnt _ (List.getElem_mem hi)]
  · simp only [Joining.pairs, List.getElem_map]
    rw [Joining.length_pairs] at hpos
    refine hfirst _ ?_
    rw [List.head?_eq_getElem?, List.getElem?_eq_getElem hpos, Option.mem_some_iff]

/-- The joins end: they are not stopped by their number of turns. -/
lemma done (h : CountersOk n counter) : (joined (sortedNodes n counter)).Done (sortedNodes n counter) := by
  have hsum : ((sortedNodes n counter).map Node.cnt).sum < intMax := by
    rw [h.sum_cnt]
    exact h.sum_lt.trans (by decide)
  exact (joined_spec h.nodes.2.2 hsum (by rw [h.length_nodes]; exact h.two_le)).1

/-- A property of all nodes is one of all symbols. -/
lemma forall_symbols (h : CountersOk n counter) {P : ℕ → Word → Prop}
    (hP : ∀ (i : ℕ) (hi : i < (sortedNodes n counter).length),
      P (sortedNodes n counter)[i].left (words (sortedNodes n counter) i)) :
    ∀ s < n, P s (symbolWord n counter s) := by
  intro s hs
  obtain ⟨i, hi, rfl⟩ := h.exists_node hs
  rw [h.symbolWord_left hi]
  exact hP i hi

end CountersOk

/-- **The code of a tree is optimal.** The joins are a merge in the order of the counters. -/
theorem optimalCode_symbolWord {n : ℕ} {counter : ℕ → ℕ} (h : CountersOk n counter) :
    OptimalCode n counter (symbolWord n counter) := by
  obtain ⟨weight, hmerge, hwords, hweight, -⟩ := h.merge
  have hleaf : ∀ (i : ℕ) (hi : i < (sortedNodes n counter).length), (sortedNodes n counter)[i].left < n :=
    fun i hi => h.left_lt (List.getElem_mem hi)
  refine ⟨?_, ?_, ?_, fun x => ?_, fun words hinj hdecodable => ?_⟩
  · exact h.forall_symbols (P := fun _ word => word.code < 2 ^ word.bits) fun i hi => hwords.code_lt hmerge hi
  · exact h.forall_symbols (P := fun _ word => 0 < word.bits) fun i hi => hwords.bits_pos hmerge hi
  · refine h.forall_symbols (P := fun _ word => word.bits ≤ 21) fun i hi => ?_
    have hpos : ∀ v ∈ children (joined (sortedNodes n counter)).pairs, 0 < weight v :=
      hmerge.weight_pos fun i hi => by
        rw [hweight i hi]
        exact h.pos _ (hleaf i hi)
    have hfib := hwords.fib_le hmerge hpos hi
    rw [h.sum_nodes hweight] at hfib
    have hlt : Nat.fib ((words (sortedNodes n counter) i).bits + 2) < Nat.fib 24 := by
      rw [show Nat.fib 24 = 46368 by decide]
      exact hfib.trans_lt h.sum_lt
    by_contra hlong
    exact absurd (Nat.fib_mono (show 24 ≤ (words (sortedNodes n counter) i).bits + 2 by omega)) (Nat.not_le_of_lt hlt)
  · obtain ⟨i, ⟨hi, hx⟩, hunique⟩ := hwords.existsUnique_leaf hmerge x
    refine ⟨(sortedNodes n counter)[i].left, ⟨hleaf i hi, by rwa [h.symbolWord_left hi]⟩, ?_⟩
    rintro s ⟨hs, hsx⟩
    obtain ⟨j, hj, rfl⟩ := h.exists_node hs
    rw [h.symbolWord_left hj] at hsx
    obtain rfl := hunique j ⟨hj, hsx⟩
    rfl
  · have hcost : ∑ s ∈ range n, counter s * (symbolWord n counter s).bits =
        ∑ j ∈ range (joined (sortedNodes n counter)).pairs.length, weight ((sortedNodes n counter).length + 2 + j) := by
      rw [← hwords.cost_eq hmerge]
      exact (h.sum_nodes fun i hi => by rw [hweight i hi, h.symbolWord_left hi]).symm
    have hbound := hmerge.lowerBound
    have hweights : (Multiset.range (sortedNodes n counter).length).map weight = (range n).val.map counter := by
      rw [Finset.range_val, Multiset.range, Multiset.range, Multiset.map_coe, Multiset.map_coe, Multiset.coe_eq_coe]
      refine List.Perm.trans (List.Perm.of_eq ?_) (h.nodes.1.map counter)
      rw [List.map_map]
      refine List.ext_getElem (by rw [List.length_map, List.length_map, List.length_range]) fun i hi hi' => ?_
      rw [List.length_map] at hi'
      rw [List.getElem_map, List.getElem_map, List.getElem_range, hweight i hi']
      rfl
    rw [hcost]
    rw [hweights] at hbound
    exact hbound.le_cost_words hinj hdecodable

/-! ## The tables -/

/-- The last write to a place decides what is there. -/
lemma foldl_writes {σ α β : Type} {step : σ → β → σ} {v : α} (obs : σ → α) (inv : σ → Prop) (writes : β → Option α)
    (l : List β) (hinv : ∀ t, ∀ b ∈ l, inv t → inv (step t b))
    (hstep : ∀ t, ∀ b ∈ l, inv t → obs (step t b) = (writes b).getD (obs t))
    (hall : ∀ b ∈ l, ∀ w, writes b = some w → w = v) :
    ∀ t, inv t → (obs t = v ∨ ∃ b ∈ l, writes b = some v) → obs (l.foldl step t) = v := by
  induction l with
  | nil =>
    rintro t - (h | ⟨b, hb, -⟩)
    · exact h
    · cases hb
  | cons b l ih =>
    intro t ht h
    rw [List.foldl_cons]
    refine ih (fun t b' hb' => hinv t b' (List.mem_cons_of_mem _ hb'))
      (fun t b' hb' => hstep t b' (List.mem_cons_of_mem _ hb'))
      (fun b' hb' => hall b' (List.mem_cons_of_mem _ hb')) _ (hinv t b List.mem_cons_self ht) ?_
    rw [hstep t b List.mem_cons_self ht]
    rcases hw : writes b with _ | w
    · rcases h with h | ⟨b', hb', hw'⟩
      · exact Or.inl h
      · rcases List.mem_cons.mp hb' with rfl | hb'
        · rw [hw] at hw'
          cases hw'
        · exact Or.inr ⟨b', hb', hw'⟩
    · exact Or.inl (hall b List.mem_cons_self w hw)

namespace HuffmanTree

/-- The elements that `fill` writes: those below `2 ^ m` whose low bits are the code. -/
lemma fill_apply {α : Type} (table : ℕ → α) {code bits m : ℕ} (hcode : code < 2 ^ bits) (hbits : bits ≤ m) (s : α)
    (y : ℕ) :
    fill table code bits (1 <<< (m - bits)) s y = if y < 2 ^ m ∧ y % 2 ^ bits = code then s else table y := by
  have hrun : ∀ count, fill table code bits count s y =
      if y < count * 2 ^ bits ∧ y % 2 ^ bits = code then s else table y := by
    intro count
    unfold fill
    induction count with
    | zero => rw [Nat.zero_mul, if_neg fun h => absurd h.1 (Nat.not_lt_zero _)]; rfl
    | succ count ih =>
      rw [List.range_succ, List.foldl_append, List.foldl_cons, List.foldl_nil, Function.update_apply, ih,
        Nat.shiftLeft_eq]
      have hdiv := Nat.div_add_mod y (2 ^ bits)
      have hmod := Nat.mod_lt y (Nat.two_pow_pos bits)
      by_cases heq : y = code + count * 2 ^ bits
      · have hlow : y % 2 ^ bits = code := by
          rw [heq, Nat.add_mul_mod_self_right, Nat.mod_eq_of_lt hcode]
        rw [if_pos heq, if_pos ⟨by rw [Nat.succ_mul]; omega, hlow⟩]
      · rw [if_neg heq]
        refine if_congr (and_congr_left fun hlow => ⟨fun hlt => hlt.trans_le (Nat.mul_le_mul_right _ (Nat.le_succ _)),
          fun hlt => ?_⟩) rfl rfl
        by_contra hge
        have hquot : y / 2 ^ bits = count := by
          refine Nat.div_eq_of_lt_le ?_ hlt
          omega
        rw [hquot, hlow] at hdiv
        rw [Nat.mul_comm] at hdiv
        omega
  rw [hrun, Nat.one_shiftLeft, ← pow_add, Nat.sub_add_cancel hbits]

/-- What a symbol writes into the table for short codes. -/
def fastWrites (word : ℕ → Word) (f : ℕ) (node : Node × ℕ) : Option Int :=
  if (word node.2).bits ≤ fastBits then
    if f % 2 ^ (word node.2).bits = (word node.2).code then some (node.1.left : Int) else none
  else if f = (word node.2).code % 2 ^ fastBits then some (-1) else none

/-- What a symbol writes into the table for long codes. -/
def indexWrites (word : ℕ → Word) (y : ℕ) (node : Node × ℕ) : Option ℕ :=
  if (word node.2).bits ≤ fastBits then none
  else if y % 2 ^ (word node.2).bits = (word node.2).code then some node.1.left else none

/-- The table for short codes after another symbol. -/
lemma fastIndex_putIndex {word : ℕ → Word} {t : HuffmanTree} {node : Node × ℕ} {f : ℕ}
    (hcode : (word node.2).code < 2 ^ (word node.2).bits) (hf : f < 2 ^ fastBits) :
    (putIndex word t node).fastIndex f = (fastWrites word f node).getD (t.fastIndex f) := by
  unfold putIndex fastWrites
  dsimp only
  split
  · next hshort =>
    dsimp only
    rw [fill_apply _ hcode hshort]
    by_cases hlow : f % 2 ^ (word node.2).bits = (word node.2).code
    · rw [if_pos ⟨hf, hlow⟩, if_pos hlow, Option.getD_some]
    · rw [if_neg fun h => hlow h.2, if_neg hlow, Option.getD_none]
  · next hlong =>
    dsimp only
    rw [Function.update_apply, mask_eq]
    split
    · rfl
    · rfl

/-- The table for long codes after another symbol. -/
lemma index_putIndex {word : ℕ → Word} {t : HuffmanTree} {node : Node × ℕ} {y : ℕ}
    (hcode : (word node.2).code < 2 ^ (word node.2).bits) (hbits : (word node.2).bits ≤ t.maxbits)
    (hy : y < 2 ^ t.maxbits) : (putIndex word t node).index y = (indexWrites word y node).getD (t.index y) := by
  unfold putIndex indexWrites
  dsimp only
  split
  · next hshort => rfl
  · next hlong =>
    dsimp only
    rw [fill_apply _ hcode hbits]
    by_cases hlow : y % 2 ^ (word node.2).bits = (word node.2).code
    · rw [if_pos ⟨hy, hlow⟩, if_pos hlow, Option.getD_some]
    · rw [if_neg fun h => hlow h.2, if_neg hlow, Option.getD_none]

/-- The tables of the encoder only are changed. -/
lemma putWord_keeps (word : ℕ → Word) (t : HuffmanTree) (node : Node × ℕ) :
    (putWord word t node).n = t.n ∧ (putWord word t node).counter = t.counter := ⟨rfl, rfl⟩

/-- The other fields stay as they are. -/
lemma putIndex_keeps (word : ℕ → Word) (t : HuffmanTree) (node : Node × ℕ) :
    (putIndex word t node).n = t.n ∧ (putIndex word t node).counter = t.counter ∧
      (putIndex word t node).maxbits = t.maxbits ∧ (putIndex word t node).maxbitsSoFar = t.maxbitsSoFar ∧
      (putIndex word t node).bits = Function.update t.bits node.1.left (word node.2).bits := by
  unfold putIndex
  dsimp only
  split <;> exact ⟨rfl, rfl, rfl, rfl, rfl⟩

end HuffmanTree

/-- A part of the state that no step changes. -/
lemma foldl_keeps {σ α β : Type} (obs : σ → α) {step : σ → β → σ} (hstep : ∀ t b, obs (step t b) = obs t) (l : List β)
    (t : σ) : obs (l.foldl step t) = obs t := by
  induction l generalizing t with
  | nil => rfl
  | cons b l ih => rw [List.foldl_cons, ih, hstep]

section

variable {n : ℕ} {counter : ℕ → ℕ}

/-- The nodes with their places: the code of a place is the code of the symbol. -/
lemma CountersOk.word_of_mem (h : CountersOk n counter) {node : Node × ℕ}
    (hnode : node ∈ (sortedNodes n counter).zipIdx) :
    node.1.left < n ∧ words (sortedNodes n counter) node.2 = symbolWord n counter node.1.left := by
  obtain ⟨hi, heq⟩ := List.getElem?_eq_some_iff.mp (List.mem_zipIdx_iff_getElem?.mp hnode)
  rw [← heq]
  exact ⟨h.left_lt (List.getElem_mem hi), (h.symbolWord_left hi).symm⟩

/-- The place of a symbol. -/
lemma CountersOk.exists_mem (h : CountersOk n counter) {s : ℕ} (hs : s < n) :
    ∃ node ∈ (sortedNodes n counter).zipIdx, node.1.left = s := by
  obtain ⟨i, hi, rfl⟩ := h.exists_node hs
  exact ⟨((sortedNodes n counter)[i], i), List.mem_zipIdx_iff_getElem?.mpr (List.getElem?_eq_getElem hi), rfl⟩

/-- A table that gets the value of every symbol. -/
lemma CountersOk.foldl_update (h : CountersOk n counter) {α : Type} (table : HuffmanTree → ℕ → α) (value : Word → α)
    {step : HuffmanTree → Node × ℕ → HuffmanTree}
    (hstep : ∀ t node, table (step t node) =
      Function.update (table t) node.1.left (value (words (sortedNodes n counter) node.2)))
    (t : HuffmanTree) {s : ℕ} (hs : s < n) :
    table ((sortedNodes n counter).zipIdx.foldl step t) s = value (symbolWord n counter s) := by
  refine foldl_writes (fun t => table t s) (fun _ => True)
    (fun node => if node.1.left = s then some (value (words (sortedNodes n counter) node.2)) else none)
    _ (fun _ _ _ _ => trivial) (fun t node _ _ => ?_) (fun node hnode w hw => ?_) t trivial (Or.inr ?_)
  · rw [hstep, Function.update_apply]
    by_cases heq : node.1.left = s
    · rw [if_pos heq.symm, if_pos heq, Option.getD_some]
    · rw [if_neg fun h => heq h.symm, if_neg heq, Option.getD_none]
  · split at hw
    · next heq =>
      rw [← Option.some.inj hw, (h.word_of_mem hnode).2, heq]
    · cases hw
  · obtain ⟨node, hnode, heq⟩ := h.exists_mem hs
    exact ⟨node, hnode, by rw [if_pos heq, (h.word_of_mem hnode).2, heq]⟩

/-- The first node has the longest code. -/
lemma CountersOk.bits_le_first (h : CountersOk n counter) {s : ℕ} (hs : s < n) :
    (symbolWord n counter s).bits ≤ (words (sortedNodes n counter) 0).bits := by
  obtain ⟨weight, hmerge, hwords, -, hfirst⟩ := h.merge
  obtain ⟨i, hi, rfl⟩ := h.exists_node hs
  rw [h.symbolWord_left hi]
  have hle := hwords.bits_le_first hmerge hi hmerge.length_pos
  rwa [hfirst hmerge.length_pos] at hle

/-- The longest code is that of a symbol. -/
lemma CountersOk.exists_longest (h : CountersOk n counter) :
    ∃ s < n, (symbolWord n counter s).bits = (words (sortedNodes n counter) 0).bits := by
  have hpos : 0 < (sortedNodes n counter).length := by
    rw [h.length_nodes]
    exact Nat.zero_lt_of_lt h.two_le
  exact ⟨_, h.left_lt (List.getElem_mem hpos), by rw [h.symbolWord_left hpos]⟩

namespace HuffmanTree

/-- `rescale` changes the counters only. -/
lemma rescale_keeps (t : HuffmanTree) (mode : ℕ) :
    (t.rescale mode).n = t.n ∧ (t.rescale mode).bits = t.bits ∧ (t.rescale mode).code = t.code ∧
      (t.rescale mode).maxbits = t.maxbits ∧ (t.rescale mode).maxbitsSoFar = t.maxbitsSoFar ∧
      (t.rescale mode).fastIndex = t.fastIndex ∧ (t.rescale mode).index = t.index := by
  unfold rescale
  split <;> exact ⟨rfl, rfl, rfl, rfl, rfl, rfl, rfl⟩

/-- The counters behind `rescale`. -/
lemma counter_rescale (t : HuffmanTree) (mode s : ℕ) :
    (t.rescale mode).counter s =
      if s < t.n then (factor mode).elim (t.counter s) fun f => rescaled f (t.counter s) else t.counter s := by
  unfold rescale
  split
  · next f hf => rw [hf]; rfl
  · next hf => rw [hf, Option.elim_none, ite_self]

/-- What a tree was built from: the number of symbols and the counters that were made smaller. -/
lemma buildTree_keeps (type : CodecDirection) (t : HuffmanTree) (mode : ℕ) :
    (t.buildTree type mode).n = t.n ∧ ∀ s, (t.buildTree type mode).counter s =
      if s < t.n then (factor mode).elim (t.counter s) fun f => rescaled f (t.counter s) else t.counter s := by
  have hputWord : ∀ (word : ℕ → Word) (l : List (Node × ℕ)),
      (l.foldl (putWord word) t).n = t.n ∧ (l.foldl (putWord word) t).counter = t.counter := fun word l =>
    ⟨foldl_keeps HuffmanTree.n (fun t node => (putWord_keeps word t node).1) l t,
      foldl_keeps HuffmanTree.counter (fun t node => (putWord_keeps word t node).2) l t⟩
  have hputIndex : ∀ (word : ℕ → Word) (l : List (Node × ℕ)) (t' : HuffmanTree),
      (l.foldl (putIndex word) t').n = t'.n ∧ (l.foldl (putIndex word) t').counter = t'.counter := fun word l t' =>
    ⟨foldl_keeps HuffmanTree.n (fun t node => (putIndex_keeps word t node).1) l t',
      foldl_keeps HuffmanTree.counter (fun t node => (putIndex_keeps word t node).2.1) l t'⟩
  unfold buildTree
  dsimp only
  refine ⟨?_, fun s => ?_⟩
  · rw [(rescale_keeps _ _).1]
    cases type with
    | encoder => exact (hputWord _ _).1
    | decoder => exact (hputIndex _ _ _).1
  · rw [counter_rescale]
    cases type with
    | encoder =>
      dsimp only
      rw [(hputWord _ _).1, (hputWord _ _).2]
    | decoder =>
      dsimp only
      rw [(hputIndex _ _ _).1, (hputIndex _ _ _).2]

/-- The tables of the encoder hold a code. -/
structure Encodes (t : HuffmanTree) (word : ℕ → Word) : Prop where
  bits : ∀ s < t.n, t.bits s = (word s).bits
  code : ∀ s < t.n, t.code s = (word s).code

/-- The tables of the decoder look a code up: they find the symbol for every row of bits that begins with its code. -/
structure Decodes (t : HuffmanTree) (word : ℕ → Word) : Prop where
  bits : ∀ s < t.n, t.bits s = (word s).bits
  bits_le : ∀ s < t.n, (word s).bits ≤ t.maxbits
  exists_longest : ∃ s < t.n, (word s).bits = t.maxbits
  maxbits_le : t.maxbits ≤ t.maxbitsSoFar
  decode : ∀ s < t.n, ∀ x, x % 2 ^ (word s).bits = (word s).code → t.decode (x % 2 ^ t.maxbits) = s

/-- **The tables of the encoder hold the code of the counters.** -/
theorem buildTree_encoder {t : HuffmanTree} (h : CountersOk t.n t.counter) (mode : ℕ) :
    (t.buildTree .encoder mode).Encodes (symbolWord t.n t.counter) := by
  have hn := (buildTree_keeps .encoder t mode).1
  constructor
  · intro s hs
    rw [hn] at hs
    unfold buildTree
    dsimp only
    rw [(rescale_keeps _ _).2.1]
    exact h.foldl_update HuffmanTree.bits Word.bits (fun _ _ => rfl) t hs
  · intro s hs
    rw [hn] at hs
    unfold buildTree
    dsimp only
    rw [(rescale_keeps _ _).2.2.1]
    exact h.foldl_update HuffmanTree.code Word.code (fun _ _ => rfl) t hs

/-- A row of bits begins with the code of one symbol only. -/
lemma eq_of_begins (h : CountersOk n counter) {x s s' : ℕ} (hs : s < n) (hs' : s' < n)
    (hx : x % 2 ^ (symbolWord n counter s).bits = (symbolWord n counter s).code)
    (hx' : x % 2 ^ (symbolWord n counter s').bits = (symbolWord n counter s').code) : s = s' :=
  ((optimalCode_symbolWord h).existsUnique x).unique ⟨hs, hx⟩ ⟨hs', hx'⟩

/-- The place of a short code, in the table for short codes. -/
lemma fastIndex_of_short (h : CountersOk n counter) (t : HuffmanTree) {s f : ℕ} (hs : s < n)
    (hshort : (symbolWord n counter s).bits ≤ fastBits) (hf : f < 2 ^ fastBits)
    (hbegins : f % 2 ^ (symbolWord n counter s).bits = (symbolWord n counter s).code) :
    ((sortedNodes n counter).zipIdx.foldl (putIndex (words (sortedNodes n counter))) t).fastIndex f = s := by
  have hcode := (optimalCode_symbolWord h).code_lt
  refine foldl_writes (fun t => t.fastIndex f) (fun _ => True) (fastWrites (words (sortedNodes n counter)) f) _
    (fun _ _ _ _ => trivial) (fun t node hnode _ => ?_) (fun node hnode w hw => ?_) t trivial (Or.inr ?_)
  · obtain ⟨hlt, hword⟩ := h.word_of_mem hnode
    exact fastIndex_putIndex (by rw [hword]; exact hcode _ hlt) hf
  · obtain ⟨hlt, hword⟩ := h.word_of_mem hnode
    rw [fastWrites, hword] at hw
    split at hw
    · split at hw
      · next hbegins' => rw [← Option.some.inj hw, eq_of_begins h hs hlt hbegins hbegins']
      · cases hw
    · next hlong =>
      split at hw
      · next heq =>
        -- the other code would begin with the short one
        refine absurd (eq_of_begins h hs hlt (x := (symbolWord n counter node.1.left).code) ?_
          (Nat.mod_eq_of_lt (hcode _ hlt))) fun hsame => hlong (hsame ▸ hshort)
        rw [← hbegins, heq, Nat.mod_mod_of_dvd _ (Nat.pow_dvd_pow 2 hshort)]
      · cases hw
  · obtain ⟨node, hnode, heq⟩ := h.exists_mem hs
    refine ⟨node, hnode, ?_⟩
    rw [fastWrites, (h.word_of_mem hnode).2, heq, if_pos hshort, if_pos hbegins]

/-- The place of a long code, in the table for short codes. -/
lemma fastIndex_of_long (h : CountersOk n counter) (t : HuffmanTree) {s x : ℕ} (hs : s < n)
    (hlong : fastBits < (symbolWord n counter s).bits)
    (hbegins : x % 2 ^ (symbolWord n counter s).bits = (symbolWord n counter s).code) :
    ((sortedNodes n counter).zipIdx.foldl (putIndex (words (sortedNodes n counter))) t).fastIndex (x % 2 ^ fastBits) =
      -1 := by
  have hcode := (optimalCode_symbolWord h).code_lt
  refine foldl_writes (fun t => t.fastIndex (x % 2 ^ fastBits)) (fun _ => True)
    (fastWrites (words (sortedNodes n counter)) (x % 2 ^ fastBits)) _
    (fun _ _ _ _ => trivial) (fun t node hnode _ => ?_) (fun node hnode w hw => ?_) t trivial (Or.inr ?_)
  · obtain ⟨hlt, hword⟩ := h.word_of_mem hnode
    exact fastIndex_putIndex (by rw [hword]; exact hcode _ hlt) (Nat.mod_lt _ (Nat.two_pow_pos _))
  · obtain ⟨hlt, hword⟩ := h.word_of_mem hnode
    rw [fastWrites, hword] at hw
    split at hw
    · next hshort =>
      split at hw
      · next hbegins' =>
        rw [Nat.mod_mod_of_dvd _ (Nat.pow_dvd_pow 2 hshort)] at hbegins'
        rw [eq_of_begins h hs hlt hbegins hbegins'] at hlong
        omega
      · cases hw
    · split at hw
      · exact (Option.some.inj hw).symm
      · cases hw
  · obtain ⟨node, hnode, heq⟩ := h.exists_mem hs
    refine ⟨node, hnode, ?_⟩
    rw [fastWrites, (h.word_of_mem hnode).2, heq, if_neg (Nat.not_le_of_lt hlong), ← hbegins,
      Nat.mod_mod_of_dvd _ (Nat.pow_dvd_pow 2 hlong.le), if_pos rfl]

/-- The places of a long code, in the table for long codes. -/
lemma index_of_long (h : CountersOk n counter) {t : HuffmanTree} {s y : ℕ}
    (hmax : ∀ s < n, (symbolWord n counter s).bits ≤ t.maxbits) (hs : s < n)
    (hlong : fastBits < (symbolWord n counter s).bits) (hy : y < 2 ^ t.maxbits)
    (hbegins : y % 2 ^ (symbolWord n counter s).bits = (symbolWord n counter s).code) :
    ((sortedNodes n counter).zipIdx.foldl (putIndex (words (sortedNodes n counter))) t).index y = s := by
  have hcode := (optimalCode_symbolWord h).code_lt
  refine foldl_writes (fun t => t.index y) (fun t' => t'.maxbits = t.maxbits)
    (indexWrites (words (sortedNodes n counter)) y) _
    (fun t' node _ ht' => ?_) (fun t' node hnode ht' => ?_) (fun node hnode w hw => ?_) t rfl (Or.inr ?_)
  · rw [(putIndex_keeps _ t' node).2.2.1]
    exact ht'
  · obtain ⟨hlt, hword⟩ := h.word_of_mem hnode
    exact index_putIndex (by rw [hword]; exact hcode _ hlt) (by rw [hword, ht']; exact hmax _ hlt) (by rwa [ht'])
  · obtain ⟨hlt, hword⟩ := h.word_of_mem hnode
    rw [indexWrites, hword] at hw
    split at hw
    · cases hw
    · split at hw
      · next hbegins' => rw [← Option.some.inj hw, eq_of_begins h hs hlt hbegins hbegins']
      · cases hw
  · obtain ⟨node, hnode, heq⟩ := h.exists_mem hs
    refine ⟨node, hnode, ?_⟩
    rw [indexWrites, (h.word_of_mem hnode).2, heq, if_neg (Nat.not_le_of_lt hlong), if_pos hbegins]

/-- **The tables of the decoder look the code of the counters up.** A symbol writes the places that begin with its
code, and no other symbol has a code that these places begin with. -/
theorem buildTree_decoder {t : HuffmanTree} (h : CountersOk t.n t.counter) (mode : ℕ) :
    (t.buildTree .decoder mode).Decodes (symbolWord t.n t.counter) := by
  have hcode := optimalCode_symbolWord h
  have hn := (buildTree_keeps .decoder t mode).1
  set nodes := sortedNodes t.n t.counter with hnodes
  set t₀ : HuffmanTree :=
    { t with maxbits := (words nodes 0).bits, maxbitsSoFar := max t.maxbitsSoFar (words nodes 0).bits } with ht₀
  have hbuild : t.buildTree .decoder mode = (nodes.zipIdx.foldl (putIndex (words nodes)) t₀).rescale mode := rfl
  set t₁ := nodes.zipIdx.foldl (putIndex (words nodes)) t₀ with ht₁
  obtain ⟨-, hbits, -, hmaxbits, hmaxbitsSoFar, hfast, hindex⟩ := rescale_keeps t₁ mode
  have hmax : t₁.maxbits = (words nodes 0).bits :=
    foldl_keeps HuffmanTree.maxbits (fun t node => (putIndex_keeps _ t node).2.2.1) _ t₀
  have hmaxSoFar : t₁.maxbitsSoFar = max t.maxbitsSoFar (words nodes 0).bits :=
    foldl_keeps HuffmanTree.maxbitsSoFar (fun t node => (putIndex_keeps _ t node).2.2.2.1) _ t₀
  rw [← hbuild] at hbits hmaxbits hmaxbitsSoFar hfast hindex
  refine ⟨fun s hs => ?_, fun s hs => ?_, ?_, ?_, fun s hs x hx => ?_⟩
  · rw [hn] at hs
    rw [hbits]
    exact h.foldl_update HuffmanTree.bits Word.bits (fun t node => (putIndex_keeps _ t node).2.2.2.2) t₀ hs
  · rw [hn] at hs
    rw [hmaxbits, hmax]
    exact h.bits_le_first hs
  · rw [hn, hmaxbits, hmax]
    exact h.exists_longest
  · rw [hmaxbits, hmaxbitsSoFar, hmax, hmaxSoFar]
    exact le_max_right _ _
  · rw [hn] at hs
    have hle : ∀ s < t.n, (symbolWord t.n t.counter s).bits ≤ t₀.maxbits := fun s hs => h.bits_le_first hs
    have hlow : ∀ k ≤ t₀.maxbits, x % 2 ^ t₀.maxbits % 2 ^ k = x % 2 ^ k := fun k hk =>
      Nat.mod_mod_of_dvd _ (Nat.pow_dvd_pow 2 hk)
    have hmax₀ : (t.buildTree .decoder mode).maxbits = t₀.maxbits := by rw [hmaxbits, hmax]
    rw [decode, hmax₀, hfast, hindex, mask_eq]
    rcases Nat.lt_or_ge fastBits (symbolWord t.n t.counter s).bits with hlong | hshort
    · rw [hlow fastBits (hlong.le.trans (hle s hs)), fastIndex_of_long h t₀ hs hlong hx, if_neg (by decide)]
      exact index_of_long h hle hs hlong (Nat.mod_lt _ (Nat.two_pow_pos _)) (by rw [hlow _ (hle s hs), hx])
    · rw [fastIndex_of_short h t₀ hs hshort (Nat.mod_lt _ (Nat.two_pow_pos _))
        (by rw [Nat.mod_mod_of_dvd _ (Nat.pow_dvd_pow 2 hshort), hlow _ (hle s hs), hx]),
        if_pos (Int.natCast_nonneg s), Int.toNat_natCast]

end HuffmanTree

end

end DArc.Tornado
