import DArc.Tornado.Undiff

/-!
# The search for data tables

Where the bytes look like a table of numbers, the compressor goes through the rows and counts how long the numbers grow
or fall.  It stops when they do not any more, and up to there the rows are replaced by their differences.

### Outline

* `scanTable`: the loop over the rows;
* `LooksLikeTable`: what is checked before.

### Main results

* `scanTable_spec`: a table that is found ends in front of the end of the data;
* `undiffed_diffTable`: a table that is found behind others is undone together with them.
-/

namespace DArc

namespace Memory

variable {N : ℕ} {r a : Int} {v n : ℕ} {m : Memory}

/-- The loop leaves the bytes outside. -/
lemma difference_of_outside {count : ℕ} {x : Int} (h : x < r ∨ r + N * count ≤ x) :
    difference N count r v m x = m x := by
  induction count generalizing r v m with
  | zero => rfl
  | succ count ih =>
    have hnonneg : 0 ≤ (N : Int) * count := by positivity
    rw [Nat.cast_succ, mul_add, mul_one] at h
    rw [difference, ih (by omega), setWord_of_outside (by omega)]

/-- A number in front of the rows is put there before or afterwards. -/
lemma difference_setWord {count w : ℕ} (h : a + n ≤ r) :
    difference N count r v (m.setWord a n w) = (difference N count r v m).setWord a n w := by
  induction count generalizing r v m with
  | zero => rfl
  | succ count ih =>
    have hword : (m.setWord a n w).word r N = m.word r N := word_setWord_of_disjoint (.inr h)
    rw [difference, difference, hword, ← setWord_comm (.inl h), ih (by omega)]

/-- The differences of rows that are the same. -/
lemma difference_congr (v : ℕ) {m m' : Memory} {r r' : Int} {count : ℕ}
    (h : ∀ i : ℕ, i < N * count → m (r + i) = m' (r' + i)) :
    ∀ i : ℕ, i < N * count → difference N count r v m (r + i) = difference N count r' v m' (r' + i) := by
  induction count generalizing r r' v m m' with
  | zero => exact fun i hi => absurd hi (Nat.not_lt_zero i)
  | succ count ih =>
    intro i hi
    rw [Nat.mul_succ] at h hi
    have hword : m.word r N = m'.word r' N := word_congr fun i hi => h i (by omega)
    rw [difference, difference, hword]
    by_cases hfirst : i < N
    · rw [difference_of_outside (.inl (by omega)), difference_of_outside (.inl (by omega)), setWord, setWord,
        if_pos (by omega), if_pos (by omega), add_sub_cancel_left, add_sub_cancel_left]
    · have hrows : ∀ j : ℕ, j < N * count →
          m.setWord r N ((m'.word r' N + (256 ^ N - v)) % 256 ^ N) (r + N + j) =
            m'.setWord r' N ((m'.word r' N + (256 ^ N - v)) % 256 ^ N) (r' + N + j) := fun j hj => by
        rw [setWord_of_outside (by omega), setWord_of_outside (by omega), add_assoc, add_assoc, ← Nat.cast_add]
        exact h _ (by omega)
      have hrest := ih (m'.word r' N) hrows (i - N) (by omega)
      rwa [show r + (N : Int) + ((i - N : ℕ) : Int) = r + i by omega,
        show r' + (N : Int) + ((i - N : ℕ) : Int) = r' + i by omega] at hrest

/-- **The sums of the differences** are what was there before. -/
theorem accumulate_difference {count : ℕ} (hv : v < 256 ^ N) :
    accumulate N count r v (difference N count r v m) = m := by
  induction count generalizing r v m with
  | zero => rfl
  | succ count ih =>
    have hmod : (m.word r N + (256 ^ N - v)) % 256 ^ N < 256 ^ N := Nat.mod_lt _ (by positivity)
    have hread : (difference N count (r + N) (m.word r N)
        (m.setWord r N ((m.word r N + (256 ^ N - v)) % 256 ^ N))).word r N =
          (m.word r N + (256 ^ N - v)) % 256 ^ N := by
      rw [difference_setWord le_rfl, word_setWord hmod]
    have hback : (v + (m.word r N + (256 ^ N - v)) % 256 ^ N) % 256 ^ N = m.word r N := by
      have hsum : v + (m.word r N + (256 ^ N - v)) = m.word r N + 256 ^ N := by omega
      rw [Nat.add_mod_mod, hsum, Nat.add_mod_right, Nat.mod_eq_of_lt (word_lt m r N)]
    rw [difference, accumulate, hread, hback, ← difference_setWord le_rfl, setWord_setWord, setWord_word,
      ih (word_lt m r N)]

end Memory

namespace Tornado

open Memory

/-! ## The search -/

/-- `value16s`. -/
def value16s (m : Memory) (t : Int) : Int := Int.bmod (m.word t 2) (2 ^ 16)

/-- The variables of `check_for_data_table`. -/
structure TableScan where
  t : Int
  lastpoint : Int
  lensum : ℕ
  len : ℕ
  dir : Int
  lenminus : ℕ

/-- The logarithm with which a value is compared. -/
def itemlb (value : Int) : ℕ := lb (1 + value.natAbs) - if lb (1 + value.natAbs) > 10 then 1 else 0

/-- The numbers do not grow or fall any more. -/
def TableScan.turn (diff : Int) (s : TableScan) : TableScan :=
  { s with
    lastpoint := if s.len > 3 then s.t else s.lastpoint
    lensum := s.lensum - s.lensum / 8 + min s.len 10 * 30
    dir := if diff < 0 then -1 else 1
    len := 0 }

/-- The loop of `check_for_data_table`, for some turns at most. -/
def scanTable (N : ℕ) (m : Memory) (bufend : Int) : ℕ → TableScan → TableScan
  | 0, s => s
  | turns + 1, s =>
    if s.t + 2 ≤ bufend then
      let diff := value16s m s.t - value16s m (s.t - N)
      let difflb := lb (1 + diff.natAbs)
      if s.dir < 0 ∧ diff < 0 ∧ difflb < itemlb (value16s m s.t) ∨
          s.dir > 0 ∧ diff > 0 ∧ difflb < itemlb (value16s m s.t) then
        scanTable N m bufend turns { s with len := s.len + 1, t := s.t + N }
      else if diff = 0 then scanTable N m bufend turns { s with lenminus := s.lenminus + 1, t := s.t + N }
      else
        let s := s.turn diff
        if s.lensum < 500 then s else scanTable N m bufend turns { s with t := s.t + N }
    else s

/-- The variables before the loop. -/
def TableScan.new (N : ℕ) (m : Memory) (p : Int) : TableScan where
  t := p - 2 + N
  lastpoint := p - 2 + N
  lensum := 600
  len := 0
  dir := if value16s m (p - 2 + N) - value16s m (p - 2) < 0 then -1 else 1
  lenminus := 0

/-- What `check_for_data_table` finds in the data from `p` on: where it has stopped, and the number of rows. -/
def findTable (N : ℕ) (m : Memory) (p bufend : Int) : Int × Option ℕ :=
  let s := scanTable N m bufend (bufend - p).toNat (.new N m p)
  if s.t - p > N * (40 + s.lenminus) ∧ s.lastpoint - p > max N 20 then (s.t, some ((s.lastpoint - p) / N).toNat)
  else (s.t, none)

/-- The test of `CHECK_FOR_DATA_TABLE`. -/
def LooksLikeTable (N : ℕ) (m : Memory) (p : Int) : Prop :=
  m (p - 1) = m (p + N - 1) ∧
    uint32 ((m (p + N - 1)).toNat - (m (p + 2 * N - 1)).toNat + 4) ≤ 2 * 4 ∧
    uint32 ((m (p + 2 * N - 1)).toNat - (m (p + 3 * N - 1)).toNat + 4) ≤ 2 * 4 ∧
    ¬m.word (p + 2 * N - 4) 4 = m.word (p + N - 4) 4

instance (N : ℕ) (m : Memory) (p : Int) : Decidable (LooksLikeTable N m p) :=
  inferInstanceAs (Decidable (_ ∧ _ ∧ _ ∧ _))

section Scan

variable {N : ℕ} {m : Memory} {p bufend : Int}

/-- The loop stops the numbers in front of the end of the data, or it has not found any. -/
lemma scanTable_lastpoint (N : ℕ) (m : Memory) (bufend : Int) (turns : ℕ) (s : TableScan) :
    (scanTable N m bufend turns s).lastpoint = s.lastpoint ∨
      (scanTable N m bufend turns s).lastpoint + 2 ≤ bufend := by
  induction turns generalizing s with
  | zero => exact .inl rfl
  | succ turns ih =>
    have hturn (hend : s.t + 2 ≤ bufend) (diff : Int) :
        (s.turn diff).lastpoint = s.lastpoint ∨ (s.turn diff).lastpoint + 2 ≤ bufend := by
      unfold TableScan.turn
      dsimp only
      split_ifs
      · exact .inr hend
      · exact .inl rfl
    rw [scanTable]
    dsimp only
    split_ifs with hend hgrow hsame hsum
    · exact ih _
    · exact ih _
    · exact hturn hend _
    · rcases ih { s.turn (value16s m s.t - value16s m (s.t - N)) with t := s.t + N } with hlast | hlast
      · rcases hturn hend (value16s m s.t - value16s m (s.t - N)) with hlast' | hlast'
        · exact .inl (hlast.trans hlast')
        · exact .inr (by rw [← hlast] at hlast'; exact hlast')
      · exact .inr hlast
    · exact .inl rfl

/-- **A table that is found** ends in front of the end of the data, and it is not empty. -/
theorem findTable_spec {rows : ℕ} (hN : 2 ≤ N) (hle : N ≤ 20) (h : (findTable N m p bufend).2 = some rows) :
    1 ≤ rows ∧ p + N * rows + 2 ≤ bufend := by
  unfold findTable at h
  dsimp only at h
  split at h
  · next hfound =>
    obtain ⟨-, hlast⟩ := hfound
    have hfirst : (TableScan.new N m p).lastpoint = p - 2 + N := rfl
    have hend := (scanTable_lastpoint N m bufend (bufend - p).toNat (.new N m p)).resolve_left (by rw [hfirst]; omega)
    generalize (scanTable N m bufend (bufend - p).toNat (.new N m p)).lastpoint = lastpoint at h hlast hend
    have hrows : rows = ((lastpoint - p) / N).toNat := (Option.some.inj h).symm
    have hdiv : N * ((lastpoint - p) / N) ≤ lastpoint - p := Int.mul_ediv_self_le (by omega)
    have hone : 1 ≤ (lastpoint - p) / N := (Int.le_ediv_iff_mul_le (by omega)).mpr (by omega)
    have hcast : (rows : Int) = (lastpoint - p) / N := by omega
    exact ⟨by omega, by rw [hcast]; omega⟩
  · cases h

end Scan

/-! ## A table behind others -/

variable {N : ℕ} {a : Int} {len : ℕ} {S : Memory} {T : List Table}

/-- The sums undo the differences. -/
lemma undiffTable_diffTable (N : ℕ) (a : Int) (len : ℕ) (m : Memory) :
    undiffTable N a len (diffTable N a len m) = m := by
  have hfirst : (diffTable N a len m).word a N = m.word a N :=
    word_congr fun i hi => difference_of_outside (.inl (by omega))
  unfold undiffTable
  rw [hfirst]
  exact accumulate_difference (word_lt m a N)

/-- The differences concern the rows only. -/
lemma diffTable_of_outside {x : Int} (h : x < a ∨ a + N * len ≤ x) : diffTable N a len S x = S x := by
  cases len with
  | zero => rfl
  | succ len =>
    refine difference_of_outside ?_
    push_cast at h
    rw [mul_add, mul_one] at h
    rw [Nat.add_sub_cancel]
    omega

/-- The differences do not depend on the place. -/
lemma diffTable_congr {m : Memory} {d : Int} (h : ∀ x, a ≤ x → x < a + N * len → m x = S (d + x)) {x : Int}
    (h₁ : a ≤ x) (h₂ : x < a + N * len) : diffTable N a len m x = diffTable N (d + a) len S (d + x) := by
  cases len with
  | zero => exact absurd h₂ (by push_cast; omega)
  | succ len =>
    have hcast : (N : Int) * ((len + 1 : ℕ) : Int) = N + (N * len : ℕ) := by push_cast; ring
    rw [hcast] at h h₂
    have hword : m.word a N = S.word (d + a) N := word_congr fun i hi => by
      rw [h _ (by omega) (by omega), add_assoc]
    unfold diffTable
    rw [Nat.add_sub_cancel, hword]
    by_cases hfirst : x < a + N
    · rw [difference_of_outside (.inl (by omega)), difference_of_outside (.inl (by omega)), h x h₁ h₂]
    · have hrows : ∀ i : ℕ, i < N * len → m (a + N + i) = S (d + a + N + i) := fun i hi => by
        rw [h _ (by omega) (by omega)]
        congr 1
        ring
      have hrow := difference_congr (S.word (d + a) N) hrows (x - (a + N)).toNat (by omega)
      rwa [show a + (N : Int) + ((x - (a + N)).toNat : ℕ) = x by omega,
        show d + a + (N : Int) + ((x - (a + N)).toNat : ℕ) = d + x by omega] at hrow

/-- A table behind others can be undone first. -/
lemma undiffed_undiffTable (h : ∀ t ∈ T, t.stop ≤ a) :
    undiffed T (undiffTable N a len S) = undiffTable N a len (undiffed T S) := by
  induction T generalizing S with
  | nil => rfl
  | cons t T ih =>
    obtain ⟨hfirst, hrest⟩ := List.forall_mem_cons.mp h
    change undiffed T (undiffTable t.type t.start t.rows (undiffTable N a len S)) =
      undiffTable N a len (undiffed T (undiffTable t.type t.start t.rows S))
    rw [(localTo_undiffTable t.type t.start t.rows).comm (localTo_undiffTable N a len) (.inl hfirst), ih hrest]

/-- **A table that is found behind others** is undone together with them. -/
theorem undiffed_diffTable {t : Table} (h : ∀ t' ∈ T, t'.stop ≤ t.start) :
    undiffed (T ++ [t]) (diffTable t.type t.start t.rows S) = undiffed T S := by
  have hlast : undiffed (T ++ [t]) (diffTable t.type t.start t.rows S) =
      undiffTable t.type t.start t.rows (undiffed T (diffTable t.type t.start t.rows S)) := by
    unfold undiffed
    rw [List.foldl_append]
    rfl
  rw [hlast, ← undiffed_undiffTable h, undiffTable_diffTable]

end Tornado

end DArc
