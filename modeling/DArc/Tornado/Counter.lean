import DArc.Compression.Common
import Mathlib.Data.List.GetD

/-!
# Counters of the arithmetic coder

`TCounter` codes with the counts of the last block of symbols, and gathers those of the next one.  A block ends when
the gathered counts have used up the range; they become the new ones then, and the next block starts from a part of
them.  The decoder finds a symbol with the help of an index, which gives the first symbol that may be meant.

### Outline

* `TCounter`, `TCounter.rescale`, `TCounter.inc`, `TCounter.decode`: the counters and their operations;
* `TCounter.Ok`: the invariant.

### Main results

* `TCounter.ok_new`, `TCounter.Ok.inc`: the invariant holds at first, and after every symbol;
* `TCounter.Ok.decode_eq`: every count is decoded to the symbol whose interval it is in.
-/

namespace DArc.Tornado

/-- Whether a counter is one of the encoder or of the decoder. -/
inductive CodecDirection
  | encoder
  | decoder

/-- `RANGE_BITS`. -/
def rangeBits : ℕ := 14

/-- `RANGE`. -/
def rangeSize : ℕ := 2 ^ rangeBits

/-- `INDEXES`. -/
def indexes : ℕ := 2048

/-- `NUM`. -/
def numSymbols : ℕ := 2048

/-- `TCounter`; the lists hold the part of the arrays for the symbols there are. -/
structure TCounter where
  remainder : ℕ
  cnt : List ℕ
  cum : List ℕ
  livecnt : List ℕ
  index : List ℕ
  deriving DecidableEq

namespace TCounter

/-- What is left of a count for the next block. -/
def shrink (live : ℕ) : ℕ := live - if live > 1 ∧ live < 6 then 1 else live / 6

/-- The column `cum` of `Rescale`. -/
def cumFrom (total : ℕ) : List ℕ → List ℕ
  | [] => []
  | c :: cnt => total :: cumFrom (total + c) cnt

/-- The inner loop of `Rescale`, for a symbol whose last count is given. -/
def fillWhile (s last ind : ℕ) : List ℕ :=
  if rangeSize / indexes * ind ≤ last then s :: fillWhile s last (ind + 1) else []
termination_by last + 1 - rangeSize / indexes * ind
decreasing_by
  have hstep : rangeSize / indexes = 8 := by decide
  rename_i h
  rw [hstep] at h ⊢
  omega

/-- The column `index` of `Rescale`. -/
def fillFrom (s total ind : ℕ) : List ℕ → List ℕ
  | [] => []
  | c :: cnt =>
    let filled := fillWhile s (total + c - 1) ind
    filled ++ fillFrom (s + 1) (total + c) (ind + filled.length) cnt

/-- `Rescale`, with the gathered counts. -/
def rescale (type : CodecDirection) (live : List ℕ) : TCounter where
  remainder := (live.map shrink).foldl (fun remainder l => remainder - l) rangeSize
  cnt := live
  cum := cumFrom 0 live
  livecnt := live.map shrink
  index :=
    match type with
    | .encoder => []
    | .decoder => fillFrom 0 0 0 live

/-- The constructor, for `n` symbols. -/
def new (type : CodecDirection) (n : ℕ) : TCounter :=
  rescale type ((List.range n).map fun s =>
    rangeSize / n + if s < rangeSize - rangeSize / n * n then 1 else 0)

/-- `Inc`. -/
def inc (type : CodecDirection) (c : TCounter) (s : ℕ) : TCounter :=
  let live := c.livecnt.modify s (· + 1)
  if c.remainder - 1 = 0 then rescale type live else { c with livecnt := live, remainder := c.remainder - 1 }

/-- The loop of `Decode`, for the symbols from `s` on with their counts. -/
def decodeFrom (count s : ℕ) : List (ℕ × ℕ) → ℕ
  | [] => s
  | (cum, cnt) :: rest => if cum + cnt - 1 < count then decodeFrom count (s + 1) rest else s

/-- `Decode`. -/
def decode (c : TCounter) (count : ℕ) : ℕ :=
  let s := c.index.getD (count / (rangeSize / indexes)) 0
  decodeFrom count s ((c.cum.zip c.cnt).drop s)

/-- The counters of the last block and those that are gathered: none is 0, and they make up the range; and the
tables belong to the counters of the last block. -/
structure Ok (type : CodecDirection) (n : ℕ) (c : TCounter) : Prop where
  length_cnt : c.cnt.length = n
  length_live : c.livecnt.length = n
  cnt_pos : ∀ k ∈ c.cnt, 1 ≤ k
  live_pos : ∀ k ∈ c.livecnt, 1 ≤ k
  sum_cnt : c.cnt.sum = rangeSize
  sum_live : c.livecnt.sum + c.remainder = rangeSize
  remainder_pos : 1 ≤ c.remainder
  cum_eq : c.cum = cumFrom 0 c.cnt
  index_eq : c.index = match type with
    | .encoder => []
    | .decoder => fillFrom 0 0 0 c.cnt

variable {type : CodecDirection} {n : ℕ} {c : TCounter}

/-! ## The counts -/

/-- A count that is not 0 stays so. -/
lemma one_le_shrink {live : ℕ} (h : 1 ≤ live) : 1 ≤ shrink live := by
  unfold shrink
  split_ifs <;> omega

/-- A count does not grow. -/
lemma shrink_le (live : ℕ) : shrink live ≤ live := Nat.sub_le _ _

/-- A count above 1 becomes smaller. -/
lemma shrink_lt {live : ℕ} (h : 1 < live) : shrink live < live := by
  unfold shrink
  split_ifs <;> omega

/-- The remainder is what the counts leave of the range. -/
lemma foldl_sub (total : ℕ) (counts : List ℕ) :
    counts.foldl (fun remainder l => remainder - l) total = total - counts.sum := by
  induction counts generalizing total with
  | nil => rfl
  | cons l counts ih => rw [List.foldl_cons, ih, List.sum_cons, Nat.sub_sub]

/-- All counts together do not grow. -/
lemma sum_shrink_le (live : List ℕ) : (live.map shrink).sum ≤ live.sum := by
  induction live with
  | nil => exact le_rfl
  | cons l live ih =>
    have hle := shrink_le l
    rw [List.map_cons, List.sum_cons, List.sum_cons]
    omega

/-- Where there is more than one count for each symbol, some are given up. -/
lemma sum_shrink_lt {live : List ℕ} (h : live.length < live.sum) : (live.map shrink).sum < live.sum := by
  induction live with
  | nil => exact absurd h (Nat.not_lt_zero _)
  | cons l live ih =>
    rw [List.map_cons, List.sum_cons, List.sum_cons]
    rw [List.length_cons, List.sum_cons] at h
    by_cases hl : 1 < l
    · have hlt := shrink_lt hl
      have hle := sum_shrink_le live
      omega
    · have hle := shrink_le l
      have hlt := ih (by omega)
      omega

/-- **Rescaling** leads to counters that fulfil the invariant. -/
lemma ok_rescale (hn : n ≤ numSymbols) {live : List ℕ} (hlength : live.length = n) (hpos : ∀ k ∈ live, 1 ≤ k)
    (hsum : live.sum = rangeSize) : (rescale type live).Ok type n := by
  have hmany : live.length < live.sum := by
    rw [hlength, hsum]
    exact lt_of_le_of_lt hn (by decide)
  have hlt := sum_shrink_lt hmany
  have hremainder : (rescale type live).remainder = rangeSize - (live.map shrink).sum := foldl_sub _ _
  exact {
    length_cnt := hlength
    length_live := (List.length_map _).trans hlength
    cnt_pos := hpos
    live_pos := by
      intro k hk
      obtain ⟨l, hl, rfl⟩ := List.mem_map.mp hk
      exact one_le_shrink (hpos l hl)
    sum_cnt := hsum
    sum_live := by
      rw [hremainder]
      change (live.map shrink).sum + _ = _
      omega
    remainder_pos := by
      rw [hremainder]
      omega
    cum_eq := rfl
    index_eq := rfl }

/-- The counts of `new` are the range spread over the symbols. -/
lemma sum_spread (q r n : ℕ) :
    ((List.range n).map fun s => q + if s < r then 1 else 0).sum = n * q + min n r := by
  induction n with
  | zero => simp
  | succ n ih =>
    rw [List.range_succ, List.map_append, List.sum_append, ih, List.map_singleton, List.sum_singleton, Nat.succ_mul]
    split_ifs <;> omega

/-- **The invariant holds at first.** -/
theorem ok_new (hpos : 1 ≤ n) (hn : n ≤ numSymbols) : (new type n).Ok type n := by
  have hone : 1 ≤ rangeSize / n := (Nat.one_le_div_iff hpos).mpr (hn.trans (by decide))
  refine ok_rescale hn ?_ ?_ ?_
  · rw [List.length_map, List.length_range]
  · intro k hk
    obtain ⟨s, -, rfl⟩ := List.mem_map.mp hk
    exact hone.trans (Nat.le_add_right _ _)
  · have hrest : rangeSize - rangeSize / n * n = rangeSize % n := by
      have hdiv := Nat.div_add_mod rangeSize n
      rw [Nat.mul_comm n] at hdiv
      omega
    have hlt : rangeSize % n < n := Nat.mod_lt _ hpos
    rw [sum_spread, hrest, min_eq_right hlt.le]
    exact Nat.div_add_mod rangeSize n

/-- Counting a symbol adds 1 to the sum. -/
lemma sum_modify_succ {live : List ℕ} {s : ℕ} (hs : s < live.length) :
    (live.modify s (· + 1)).sum = live.sum + 1 := by
  induction live generalizing s with
  | nil => exact absurd hs (Nat.not_lt_zero _)
  | cons l live ih =>
    cases s with
    | zero =>
      rw [List.modify_zero_cons, List.sum_cons, List.sum_cons]
      omega
    | succ s =>
      rw [List.modify_succ_cons, List.sum_cons, List.sum_cons, ih (Nat.lt_of_succ_lt_succ hs), Nat.add_assoc]

/-- Counting a symbol keeps the counts from being 0. -/
lemma pos_modify_succ {live : List ℕ} (s : ℕ) (h : ∀ k ∈ live, 1 ≤ k) : ∀ k ∈ live.modify s (· + 1), 1 ≤ k := by
  intro k hk
  obtain ⟨j, hj, rfl⟩ := List.mem_iff_getElem.mp hk
  rw [List.getElem_modify]
  have hold := h _ (List.getElem_mem (by simpa using hj : j < live.length))
  split_ifs
  · exact Nat.le_add_left _ _
  · exact hold

/-- **The invariant is kept** by counting a symbol. -/
theorem Ok.inc (h : c.Ok type n) (hn : n ≤ numSymbols) {s : ℕ} (hs : s < n) : (c.inc type s).Ok type n := by
  have hlength : (c.livecnt.modify s (· + 1)).length = n := (List.length_modify _ _ _).trans h.length_live
  have hpos := pos_modify_succ s h.live_pos
  have hsum := sum_modify_succ (hs.trans_eq h.length_live.symm)
  have hall := h.sum_live
  have hremainder := h.remainder_pos
  unfold TCounter.inc
  dsimp only
  split_ifs with hend
  · exact ok_rescale hn hlength hpos (by omega)
  · exact { h with
      length_live := hlength
      live_pos := hpos
      sum_live := by
        change (c.livecnt.modify s (· + 1)).sum + (c.remainder - 1) = _
        omega
      remainder_pos := by
        change 1 ≤ c.remainder - 1
        omega }

/-- The encoder's and the decoder's counters after the same symbols differ in the index only. -/
lemma inc_eq {c' : TCounter} {type' : CodecDirection} (h : { c with index := [] } = { c' with index := [] }) (s : ℕ) :
    { c.inc type s with index := [] } = { c'.inc type' s with index := [] } := by
  obtain ⟨hremainder, hcnt, hcum, hlive, -⟩ := TCounter.mk.injEq .. |>.mp h
  unfold TCounter.inc
  dsimp only
  rw [hremainder, hlive]
  split_ifs
  · rfl
  · rw [hcnt, hcum]

/-! ## The tables -/

/-- The column `cum` has one entry for each symbol. -/
lemma length_cumFrom (total : ℕ) (cnt : List ℕ) : (cumFrom total cnt).length = cnt.length := by
  induction cnt generalizing total with
  | nil => rfl
  | cons c cnt ih => rw [cumFrom, List.length_cons, List.length_cons, ih]

/-- The column `cum` has the sums of the counts before. -/
lemma getElem?_cumFrom (total : ℕ) {cnt : List ℕ} {s : ℕ} (hs : s < cnt.length) :
    (cumFrom total cnt)[s]? = some (total + (cnt.take s).sum) := by
  induction cnt generalizing total s with
  | nil => exact absurd hs (Nat.not_lt_zero _)
  | cons c cnt ih =>
    cases s with
    | zero => rfl
    | succ s =>
      rw [cumFrom, List.getElem?_cons_succ, ih _ (Nat.lt_of_succ_lt_succ hs), List.take_succ_cons, List.sum_cons,
        Nat.add_assoc]

/-- The inner loop fills the index as far as the symbol goes. -/
lemma fillWhile_eq (s last ind : ℕ) : fillWhile s last ind = List.replicate (last / 8 + 1 - ind) s := by
  have hstep : rangeSize / indexes = 8 := by decide
  induction hk : last / 8 + 1 - ind generalizing ind with
  | zero =>
    rw [fillWhile, hstep, if_neg (by omega), List.replicate_zero]
  | succ k ih =>
    rw [fillWhile, hstep, if_pos (by omega), ih (ind + 1) (by omega), List.replicate_succ]

/-- An entry of the index is no later than a symbol that goes as far. -/
lemma le_of_getElem?_fillFrom {cnt : List ℕ} {s total ind k v j : ℕ} (hv : (fillFrom s total ind cnt)[k]? = some v)
    (hj : 8 * (ind + k) ≤ total + (cnt.take (j + 1)).sum - 1) : v ≤ s + j := by
  induction cnt generalizing s total ind k j with
  | nil => simp [fillFrom] at hv
  | cons c cnt ih =>
    rw [fillFrom, fillWhile_eq, List.length_replicate] at hv
    by_cases hk : k < (total + c - 1) / 8 + 1 - ind
    · rw [List.getElem?_append_left (by rwa [List.length_replicate]), List.getElem?_replicate, if_pos hk] at hv
      obtain rfl := Option.some.inj hv
      exact Nat.le_add_right _ _
    · rw [List.getElem?_append_right (by rw [List.length_replicate]; omega), List.length_replicate] at hv
      rw [List.take_succ_cons, List.sum_cons] at hj
      cases j with
      | zero =>
        rw [List.take_zero, List.sum_nil] at hj
        omega
      | succ j =>
        have hnext := ih (j := j) hv (by omega)
        omega

/-- The index is filled up to the sum of the counts, and not further. -/
lemma length_fillFrom {cnt : List ℕ} (hpos : ∀ k ∈ cnt, 1 ≤ k) (s total : ℕ) {ind : ℕ}
    (hind : ind = (total + 7) / 8) : (fillFrom s total ind cnt).length = (total + cnt.sum + 7) / 8 - ind := by
  induction cnt generalizing s total ind with
  | nil =>
    rw [fillFrom, List.sum_nil, List.length_nil]
    omega
  | cons c cnt ih =>
    have hc := hpos c (List.mem_cons_self ..)
    have hnext : ind + ((total + c - 1) / 8 + 1 - ind) = (total + c + 7) / 8 := by omega
    have hrest := ih (fun k hk => hpos k (List.mem_cons_of_mem _ hk)) (s + 1) (total + c) hnext
    have hmono : total + c + cnt.sum = total + (c + cnt.sum) := Nat.add_assoc ..
    rw [fillFrom, fillWhile_eq, List.length_append, List.length_replicate, hrest, List.sum_cons]
    omega

/-- The index of a decoder has an entry for every part of the range, and no other. -/
theorem Ok.length_index (h : c.Ok .decoder n) : c.index.length = indexes := by
  have hlength := length_fillFrom h.cnt_pos 0 0 (Eq.refl 0)
  rw [h.sum_cnt] at hlength
  rw [h.index_eq, hlength]
  rfl

/-- The loop of `Decode` passes the symbols that end before the count. -/
lemma decodeFrom_eq {count s x : ℕ} {rows : List (ℕ × ℕ)} (cum cnt : ℕ → ℕ)
    (hrows : ∀ j ≤ x, rows[j]? = some (cum j, cnt j)) (hpast : ∀ j < x, cum j + cnt j - 1 < count)
    (hstop : count ≤ cum x + cnt x - 1) : decodeFrom count s rows = s + x := by
  induction rows generalizing s x cum cnt with
  | nil => simpa using hrows 0 (Nat.zero_le x)
  | cons row rows ih =>
    have hrow : row = (cum 0, cnt 0) := by simpa using hrows 0 (Nat.zero_le x)
    subst hrow
    cases x with
    | zero => rw [decodeFrom, if_neg (not_lt.mpr hstop), Nat.add_zero]
    | succ x =>
      have hrest := ih (s := s + 1) (x := x) (fun j => cum (j + 1)) (fun j => cnt (j + 1))
        (fun j hj => by simpa using hrows (j + 1) (Nat.succ_le_succ hj))
        (fun j hj => hpast (j + 1) (Nat.succ_lt_succ hj)) hstop
      rw [decodeFrom, if_pos (hpast 0 (Nat.succ_pos x)), hrest]
      omega

/-- The sums of counts grow. -/
lemma sum_take_mono (cnt : List ℕ) {j k : ℕ} (h : j ≤ k) : (cnt.take j).sum ≤ (cnt.take k).sum := by
  rw [← Nat.add_sub_cancel' h, List.take_add, List.sum_append]
  exact Nat.le_add_right _ _

/-- A symbol's count is what it adds to the sum. -/
lemma sum_take_succ {cnt : List ℕ} {s : ℕ} (hs : s < cnt.length) :
    (cnt.take (s + 1)).sum = (cnt.take s).sum + cnt.getD s 0 := by
  rw [List.take_succ_eq_append_getElem hs, List.sum_append, List.sum_singleton,
    List.getD_eq_getElem _ _ hs]

/-- The entries of the column `cum`. -/
lemma Ok.cum_getD (h : c.Ok type n) {s : ℕ} (hs : s < n) : c.cum.getD s 0 = (c.cnt.take s).sum := by
  rw [h.cum_eq, List.getD_eq_getElem?_getD, getElem?_cumFrom 0 (hs.trans_eq h.length_cnt.symm), Option.getD_some,
    Nat.zero_add]

/-- The intervals of the symbols end within the range. -/
lemma Ok.cum_add_cnt_le (h : c.Ok type n) {s : ℕ} (hs : s < n) :
    c.cum.getD s 0 + c.cnt.getD s 0 ≤ rangeSize := by
  have hlength : s < c.cnt.length := hs.trans_eq h.length_cnt.symm
  rw [h.cum_getD hs, ← sum_take_succ hlength, ← h.sum_cnt]
  exact List.Sublist.sum_le_sum (List.take_sublist _ _) (fun _ _ => Nat.zero_le _)

/-- No interval is empty. -/
lemma Ok.one_le_cnt (h : c.Ok type n) {s : ℕ} (hs : s < n) : 1 ≤ c.cnt.getD s 0 := by
  have hlength : s < c.cnt.length := hs.trans_eq h.length_cnt.symm
  rw [List.getD_eq_getElem _ _ hlength]
  exact h.cnt_pos _ (List.getElem_mem hlength)

/-- **Decoding a count** finds the symbol whose interval it is in. -/
theorem Ok.decode_eq (h : c.Ok .decoder n) {count x : ℕ} (hx : x < n) (hle : c.cum.getD x 0 ≤ count)
    (hlt : count < c.cum.getD x 0 + c.cnt.getD x 0) : c.decode count = x := by
  have hcount : count < rangeSize := hlt.trans_le (h.cum_add_cnt_le hx)
  have hentry : count / 8 < c.index.length := by
    rw [h.length_index]
    exact Nat.div_lt_of_lt_mul hcount
  -- The index gives a symbol that is not after the one looked for.
  obtain ⟨s, hs⟩ : ∃ s, c.index[count / 8]? = some s := ⟨_, List.getElem?_eq_getElem hentry⟩
  have hlength : x < c.cnt.length := hx.trans_eq h.length_cnt.symm
  have hsx : s ≤ x := by
    have hfill : (fillFrom 0 0 0 c.cnt)[count / 8]? = some s := by rw [← hs, h.index_eq]
    have hle := le_of_getElem?_fillFrom (j := x) hfill (by
      rw [sum_take_succ hlength, ← h.cum_getD hx]
      omega)
    omega
  have hindex : c.index.getD (count / (rangeSize / indexes)) 0 = s := by
    change c.index.getD (count / 8) 0 = s
    rw [List.getD_eq_getElem?_getD, hs, Option.getD_some]
  unfold decode
  dsimp only
  rw [hindex, decodeFrom_eq (x := x - s) (fun j => c.cum.getD (s + j) 0) (fun j => c.cnt.getD (s + j) 0)]
  · omega
  · intro j hj
    have hj' : s + j < c.cnt.length := by omega
    have hcum : s + j < c.cum.length := by rwa [h.cum_eq, length_cumFrom]
    rw [List.getElem?_drop, List.getElem?_zip_eq_some.mpr ⟨?_, ?_⟩]
    · exact (List.getD_eq_getElem _ _ hcum).symm ▸ List.getElem?_eq_getElem hcum
    · exact (List.getD_eq_getElem _ _ hj').symm ▸ List.getElem?_eq_getElem hj'
  · intro j hj
    have hj' : s + j < n := by omega
    have hpos := h.one_le_cnt hj'
    have hnext := sum_take_succ (hj'.trans_eq h.length_cnt.symm)
    have hmono := sum_take_mono c.cnt (j := s + j + 1) (k := x) (by omega)
    rw [h.cum_getD hx] at hle
    rw [h.cum_getD hj']
    omega
  · have hback : s + (x - s) = x := by omega
    rw [hback]
    omega

/-- Every count of the range is in some symbol's interval. -/
lemma Ok.exists_interval (h : c.Ok type n) {count : ℕ} (hcount : count < rangeSize) :
    ∃ x < n, c.cum.getD x 0 ≤ count ∧ count < c.cum.getD x 0 + c.cnt.getD x 0 := by
  have hfind : ∃ x, count < (c.cnt.take (x + 1)).sum :=
    ⟨n, by rwa [List.take_of_length_le (by rw [h.length_cnt]; omega), h.sum_cnt]⟩
  have hx := Nat.find_spec hfind
  have hmin := fun y hy => Nat.find_min (m := y) hfind hy
  generalize Nat.find hfind = x at hx hmin
  have hxn : x < n := by
    by_contra hge
    obtain rfl | ⟨y, rfl⟩ : x = 0 ∨ ∃ y, x = y + 1 := by cases x <;> simp
    · rw [List.take_of_length_le (by rw [h.length_cnt]; omega), ← List.take_of_length_le (l := c.cnt) (i := 0)
        (by rw [h.length_cnt]; omega)] at hx
      exact absurd hx (Nat.not_lt_zero _)
    · refine hmin y (Nat.lt_succ_self y) ?_
      rwa [List.take_of_length_le (by rw [h.length_cnt]; omega)] at hx ⊢
  refine ⟨x, hxn, ?_, ?_⟩
  · rw [h.cum_getD hxn]
    cases x with
    | zero => exact Nat.zero_le _
    | succ y => exact not_lt.mp (hmin y (Nat.lt_succ_self y))
  · rwa [h.cum_getD hxn, ← sum_take_succ (hxn.trans_eq h.length_cnt.symm)]

end TCounter

end DArc.Tornado
