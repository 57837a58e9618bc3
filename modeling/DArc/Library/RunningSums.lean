import Mathlib.Algebra.BigOperators.Group.Finset.Basic
import Mathlib.Algebra.BigOperators.Intervals
import Mathlib.Tactic

/-!
# Running sums in memory

Rows of a few bytes stand one after another in a memory, each a number with its low byte first.  A loop replaces
each of them by the sum of all rows up to it, another one takes the differences again.

### Outline

* `Memory`, `Memory.word`, `Memory.setWord`: bytes, and the numbers that they spell;
* `Memory.accumulate`, `Memory.difference`: the two loops;
* `Memory.rowSum`: the sum of the low bytes of some rows;
* `Memory.copy`, `Memory.bytes`: copies of some bytes;
* `Memory.LocalTo`: operations that concern a part of the memory only.

### Main results

* `Memory.difference_accumulate`: the differences of the sums are what was there before;
* `Memory.accumulate_apply`: a byte of a sum depends on no byte behind it;
* `Memory.rowSum_restart`: sums can be taken up from any row whose sum is known;
* `Memory.LocalTo.comm`, `Memory.foldl_undo`: operations on different parts commute, and so can be undone one
  after another.
-/

namespace DArc

/-- Bytes at all addresses. -/
abbrev Memory := Int → UInt8

namespace Memory

/-- The number that `n` bytes spell, the low byte first. -/
def word (m : Memory) (a : Int) : ℕ → ℕ
  | 0 => 0
  | n + 1 => m.word a n + (m (a + n)).toNat * 256 ^ n

/-- A number is put to `n` bytes. -/
def setWord (m : Memory) (a : Int) (n v : ℕ) : Memory := fun x =>
  if a ≤ x ∧ x < a + n then UInt8.ofNat (v / 256 ^ (x - a).toNat) else m x

/-- `memcpy`, from a place in one memory to a place in another. -/
def copy (m : Memory) (a : Int) (m' : Memory) (b : Int) (n : ℕ) : Memory := fun x =>
  if a ≤ x ∧ x < a + n then m' (b + (x - a)) else m x

/-- The bytes from an address on. -/
def bytes (m : Memory) (a : Int) (n : ℕ) : List UInt8 := (List.range n).map fun i : ℕ => m (a + i)

/-- The next rows are replaced by the sums, `v` the sum so far. -/
def accumulate (N : ℕ) : ℕ → Int → ℕ → Memory → Memory
  | 0, _, _, m => m
  | count + 1, r, v, m =>
    let v' := (v + m.word r N) % 256 ^ N
    accumulate N count (r + N) v' (m.setWord r N v')

/-- The next rows are replaced by the differences, `prev` the row before. -/
def difference (N : ℕ) : ℕ → Int → ℕ → Memory → Memory
  | 0, _, _, m => m
  | count + 1, r, prev, m =>
    difference N count (r + N) (m.word r N) (m.setWord r N ((m.word r N + (256 ^ N - prev)) % 256 ^ N))

variable {m m' : Memory} {a b r : Int} {n N v : ℕ}

/-! ## Words -/

/-- A number is below the range of its bytes. -/
lemma word_lt (m : Memory) (a : Int) (n : ℕ) : m.word a n < 256 ^ n := by
  induction n with
  | zero => exact Nat.one_pos
  | succ n ih =>
    have hbyte : (m (a + n)).toNat < 256 := (m (a + n)).toNat_lt
    have hle : (m (a + n)).toNat * 256 ^ n ≤ 255 * 256 ^ n := Nat.mul_le_mul_right _ (by omega)
    rw [word, pow_succ]
    omega

/-- The low bytes spell the remainder. -/
lemma word_mod (m : Memory) (a : Int) {j n : ℕ} (h : j ≤ n) : m.word a n % 256 ^ j = m.word a j := by
  induction n, h using Nat.le_induction with
  | base => exact Nat.mod_eq_of_lt (word_lt m a j)
  | succ n hle ih =>
    have hdvd : 256 ^ j ∣ (m (a + n)).toNat * 256 ^ n := Dvd.dvd.mul_left (Nat.pow_dvd_pow _ hle) _
    rw [word, Nat.add_mod, Nat.mod_eq_zero_of_dvd hdvd, Nat.add_zero, Nat.mod_mod, ih]

/-- A number depends on its bytes only. -/
lemma word_congr (h : ∀ i : ℕ, i < n → m (a + i) = m' (b + i)) : m.word a n = m'.word b n := by
  induction n with
  | zero => rfl
  | succ n ih => rw [word, word, ih fun i hi => h i (by omega), h n (Nat.lt_succ_self n)]

/-- The bytes of a number that has been put there. -/
lemma word_eq_mod {k : ℕ} (h : ∀ i : ℕ, i < k → m (a + i) = UInt8.ofNat (v / 256 ^ i)) : m.word a k = v % 256 ^ k := by
  induction k with
  | zero => rw [word, pow_zero, Nat.mod_one]
  | succ k ih =>
    have hbyte : (UInt8.ofNat (v / 256 ^ k)).toNat = v / 256 ^ k % 256 := UInt8.toNat_ofNat'
    have hmod : v % (256 ^ k * 256) = v % 256 ^ k + 256 ^ k * (v / 256 ^ k % 256) := Nat.mod_mul
    rw [word, ih fun i hi => h i (by omega), h k (Nat.lt_succ_self k), hbyte, pow_succ, hmod, Nat.mul_comm]

/-- A byte of a number. -/
lemma ofNat_word_div (m : Memory) (a : Int) {j n : ℕ} (h : j < n) : UInt8.ofNat (m.word a n / 256 ^ j) = m (a + j) := by
  have hpos : 0 < 256 ^ j := by positivity
  have hdiv : m.word a n % (256 ^ j * 256) / 256 ^ j = m.word a n / 256 ^ j % 256 := Nat.mod_mul_right_div_self _ _ _
  rw [← pow_succ, word_mod m a h, word, Nat.add_mul_div_right _ _ hpos, Nat.div_eq_of_lt (word_lt m a j),
    Nat.zero_add] at hdiv
  apply UInt8.toNat_inj.mp
  rw [UInt8.toNat_ofNat']
  exact hdiv.symm

/-- A number is read back. -/
lemma word_setWord (hv : v < 256 ^ n) : (m.setWord a n v).word a n = v := by
  have hbyte : ∀ i : ℕ, i < n → m.setWord a n v (a + i) = UInt8.ofNat (v / 256 ^ i) := by
    intro i hi
    have hoffset : (a + i - a).toNat = i := by omega
    rw [setWord, if_pos ⟨by omega, by omega⟩, hoffset]
  rw [word_eq_mod hbyte, Nat.mod_eq_of_lt hv]

/-- Bytes outside are the same. -/
lemma setWord_of_outside {x : Int} (h : x < a ∨ a + n ≤ x) : m.setWord a n v x = m x := by
  rw [setWord, if_neg (by omega)]

/-- Another number is the same. -/
lemma word_setWord_of_disjoint {k : ℕ} (h : b + k ≤ a ∨ a + n ≤ b) : (m.setWord a n v).word b k = m.word b k :=
  word_congr fun i hi => setWord_of_outside (by omega)

/-- A number that is put back. -/
lemma setWord_word (m : Memory) (a : Int) (n : ℕ) : m.setWord a n (m.word a n) = m := by
  funext x
  unfold setWord
  split_ifs with hx
  · have hbyte := ofNat_word_div m a (show (x - a).toNat < n by omega)
    have hoffset : a + ((x - a).toNat : Int) = x := by omega
    rwa [hoffset] at hbyte
  · rfl

/-- The later number stays. -/
lemma setWord_setWord (w : ℕ) : (m.setWord a n v).setWord a n w = m.setWord a n w := by
  funext x
  unfold setWord
  split_ifs <;> rfl

/-- Numbers at different places are put in any order. -/
lemma setWord_comm {k w : ℕ} (h : b + k ≤ a ∨ a + n ≤ b) :
    (m.setWord a n v).setWord b k w = (m.setWord b k w).setWord a n v := by
  funext x
  unfold setWord
  split_ifs <;> first | rfl | omega

/-! ## Copies -/

/-- Inside of the copy. -/
lemma copy_of_mem {x : Int} (h₁ : a ≤ x) (h₂ : x < a + n) : m.copy a m' b n x = m' (b + (x - a)) := if_pos ⟨h₁, h₂⟩

/-- Outside of the copy. -/
lemma copy_of_outside {x : Int} (h : x < a ∨ a + n ≤ x) : m.copy a m' b n x = m x := if_neg (by omega)

/-- Some bytes are saved, replaced and put back. -/
lemma copy_back (m m' saved : Memory) (a b c : Int) (n : ℕ) :
    (m.copy a m' b n).copy a (saved.copy c m a n) c n = m := by
  funext x
  by_cases hx : a ≤ x ∧ x < a + n
  · have hplace : a + (c + (x - a) - c) = x := by ring
    rw [copy_of_mem hx.1 hx.2, copy_of_mem (by omega) (by omega), hplace]
  · rw [copy_of_outside (by omega), copy_of_outside (by omega)]

/-- More bytes. -/
lemma bytes_add (m : Memory) (a : Int) (k n : ℕ) : m.bytes a (k + n) = m.bytes a k ++ m.bytes (a + k) n := by
  unfold bytes
  rw [List.range_add, List.map_append, List.map_map]
  refine congrArg _ (List.map_congr_left fun i _ => ?_)
  dsimp only [Function.comp]
  push_cast
  rw [add_assoc]

/-- The same bytes. -/
lemma bytes_congr (h : ∀ i : ℕ, i < n → m (a + i) = m' (b + i)) : m.bytes a n = m'.bytes b n :=
  List.map_congr_left fun i hi => h i (List.mem_range.mp hi)

/-! ## The two loops -/

/-- The loop leaves the bytes outside. -/
lemma accumulate_of_outside {count : ℕ} {x : Int} (h : x < r ∨ r + N * count ≤ x) :
    accumulate N count r v m x = m x := by
  induction count generalizing r v m with
  | zero => rfl
  | succ count ih =>
    have hnonneg : 0 ≤ (N : Int) * count := by positivity
    rw [Nat.cast_succ, mul_add, mul_one] at h
    rw [accumulate, ih (by omega), setWord_of_outside (by omega)]

/-- A number in front of the rows is put there before or afterwards. -/
lemma accumulate_setWord {count w : ℕ} (h : a + n ≤ r) :
    accumulate N count r v (m.setWord a n w) = (accumulate N count r v m).setWord a n w := by
  induction count generalizing r v m with
  | zero => rfl
  | succ count ih =>
    have hword : (m.setWord a n w).word r N = m.word r N := word_setWord_of_disjoint (.inr h)
    rw [accumulate, accumulate, hword, ← setWord_comm (.inl h), ih (by omega)]

/-- **The differences of the sums** are what was there before. -/
theorem difference_accumulate {count : ℕ} (hv : v < 256 ^ N) :
    difference N count r v (accumulate N count r v m) = m := by
  induction count generalizing r v m with
  | zero => rfl
  | succ count ih =>
    have hmod : (v + m.word r N) % 256 ^ N < 256 ^ N := Nat.mod_lt _ (by positivity)
    have hread : (accumulate N count (r + N) ((v + m.word r N) % 256 ^ N)
        (m.setWord r N ((v + m.word r N) % 256 ^ N))).word r N = (v + m.word r N) % 256 ^ N := by
      rw [accumulate_setWord le_rfl, word_setWord hmod]
    have hback : ((v + m.word r N) % 256 ^ N + (256 ^ N - v)) % 256 ^ N = m.word r N := by
      have hsum : v + m.word r N + (256 ^ N - v) = m.word r N + 256 ^ N := by omega
      rw [Nat.mod_add_mod, hsum, Nat.add_mod_right, Nat.mod_eq_of_lt (word_lt m r N)]
    rw [accumulate, difference, hread, hback, ← accumulate_setWord le_rfl, setWord_setWord, setWord_word, ih hmod]

/-! ## Sums of rows -/

/-- The sum of the `n` low bytes of the first `k` rows. -/
def rowSum (m : Memory) (a : Int) (N k n : ℕ) : ℕ := ∑ i ∈ Finset.range k, m.word (a + N * i) n

/-- The first row, and those behind it. -/
lemma rowSum_succ' (m : Memory) (a : Int) (N k n : ℕ) :
    m.rowSum a N (k + 1) n = m.word a n + m.rowSum (a + N) N k n := by
  have hrow (i : ℕ) : a + N * ((i + 1 : ℕ) : Int) = a + N + N * i := by push_cast; ring
  unfold rowSum
  rw [Finset.sum_range_succ', Nat.add_comm, Nat.cast_zero, mul_zero, add_zero]
  simp only [hrow]

/-- A sum depends on the low bytes of its rows only. -/
lemma rowSum_congr {k : ℕ} (h : ∀ i : ℕ, i < k → ∀ j : ℕ, j < n → m (a + N * i + j) = m' (b + N * i + j)) :
    m.rowSum a N k n = m'.rowSum b N k n :=
  Finset.sum_congr rfl fun i hi => word_congr (h i (Finset.mem_range.mp hi))

/-- The low bytes of a sum come from the low bytes of the rows. -/
lemma rowSum_mod (m : Memory) (a : Int) (N k : ℕ) {j : ℕ} (h : j ≤ n) :
    m.rowSum a N k n ≡ m.rowSum a N k j [MOD 256 ^ j] := by
  unfold rowSum
  induction k with
  | zero => exact Nat.ModEq.refl _
  | succ k ih =>
    rw [Finset.sum_range_succ, Finset.sum_range_succ]
    refine ih.add ?_
    rw [← word_mod m _ h]
    exact (Nat.mod_modEq _ _).symm

/-- A row behind the loop is the sum up to it. -/
lemma word_accumulate {count k : ℕ} (hk : k < count) (hv : v < 256 ^ N) :
    (accumulate N count r v m).word (r + N * k) N = (v + m.rowSum r N (k + 1) N) % 256 ^ N := by
  induction count generalizing r v m k with
  | zero => exact absurd hk (Nat.not_lt_zero k)
  | succ count ih =>
    have hmod : (v + m.word r N) % 256 ^ N < 256 ^ N := Nat.mod_lt _ (by positivity)
    rw [accumulate]
    cases k with
    | zero =>
      rw [Nat.cast_zero, mul_zero, add_zero, accumulate_setWord le_rfl, word_setWord hmod, rowSum_succ']
      rfl
    | succ k =>
      have hrow : r + N * ((k + 1 : ℕ) : Int) = r + N + N * k := by push_cast; ring
      have hsame : (m.setWord r N ((v + m.word r N) % 256 ^ N)).rowSum (r + N) N (k + 1) N =
          m.rowSum (r + N) N (k + 1) N := by
        refine rowSum_congr fun i _ j _ => setWord_of_outside (.inr ?_)
        have hnonneg : 0 ≤ (N : Int) * i := by positivity
        omega
      rw [hrow, ih (by omega) hmod, hsame, Nat.mod_add_mod, Nat.add_assoc, ← rowSum_succ' m r]

/-- Numbers with the same low bytes. -/
lemma ofNat_div_congr {x y j : ℕ} (h : x ≡ y [MOD 256 ^ (j + 1)]) :
    UInt8.ofNat (x / 256 ^ j) = UInt8.ofNat (y / 256 ^ j) := by
  have hbyte (z : ℕ) : (UInt8.ofNat (z / 256 ^ j)).toNat = z % (256 ^ j * 256) / 256 ^ j := by
    rw [Nat.mod_mul_right_div_self]
    exact UInt8.toNat_ofNat'
  apply UInt8.toNat_inj.mp
  rw [hbyte, hbyte, ← pow_succ]
  exact congrArg (· / 256 ^ j) h

/-- **A byte behind the loop**, when it starts with the first row: the sum of the low bytes of the rows up to it. -/
theorem accumulate_apply {count k j : ℕ} (hk : k ≤ count) (hj : j < N) :
    accumulate N count (a + N) (m.word a N) m (a + N * k + j) =
      UInt8.ofNat (m.rowSum a N (k + 1) (j + 1) / 256 ^ j) := by
  cases k with
  | zero =>
    rw [Nat.cast_zero, mul_zero, add_zero, accumulate_of_outside (.inl (by omega)), rowSum_succ', rowSum,
      Finset.range_zero, Finset.sum_empty, Nat.add_zero, ofNat_word_div m a (Nat.lt_succ_self j)]
  | succ k =>
    have hrow : a + N * ((k + 1 : ℕ) : Int) = a + N + N * k := by push_cast; ring
    have hbyte := ofNat_word_div (accumulate N count (a + N) (m.word a N) m) (a + N + N * k) hj
    rw [hrow, ← hbyte, word_accumulate (by omega) (word_lt m a N), ← rowSum_succ' m a]
    refine ofNat_div_congr ?_
    have hdvd : 256 ^ (j + 1) ∣ 256 ^ N := Nat.pow_dvd_pow _ hj
    exact ((Nat.mod_modEq _ _).of_dvd hdvd).trans (rowSum_mod m a N (k + 1 + 1) hj)

/-- A row that is the sum up to it. -/
lemma word_of_sums {m₁ : Memory} {q n : ℕ} (h : ∀ i : ℕ, i < n →
    m₁ (b + i) = UInt8.ofNat (m.rowSum a N q (i + 1) / 256 ^ i)) :
    m₁.word b n ≡ m.rowSum a N q n [MOD 256 ^ n] := by
  have hbytes : ∀ i : ℕ, i < n → m₁ (b + i) = UInt8.ofNat (m.rowSum a N q n / 256 ^ i) := by
    intro i hi
    rw [h i hi]
    exact ofNat_div_congr (rowSum_mod m a N q hi).symm
  rw [word_eq_mod hbytes]
  exact Nat.mod_modEq _ _

/-- **Sums are taken up** from a row that is the sum up to it. -/
theorem rowSum_restart {m₁ : Memory} {q k n : ℕ} (hfirst : ∀ i : ℕ, i < n →
      m₁ (b + i) = UInt8.ofNat (m.rowSum a N (q + 1) (i + 1) / 256 ^ i))
    (hlater : ∀ i : ℕ, i < k → ∀ j : ℕ, j < n → m₁ (b + N + N * i + j) = m (a + N * ((q + 1 + i : ℕ) : Int) + j)) :
    m₁.rowSum b N (k + 1) n ≡ m.rowSum a N (q + 1 + k) n [MOD 256 ^ n] := by
  have hsum : m.rowSum a N (q + 1 + k) n = m.rowSum a N (q + 1) n +
      ∑ i ∈ Finset.range k, m.word (a + N * ((q + 1 + i : ℕ) : Int)) n := Finset.sum_range_add _ _ _
  have hrest : m₁.rowSum (b + N) N k n = ∑ i ∈ Finset.range k, m.word (a + N * ((q + 1 + i : ℕ) : Int)) n :=
    Finset.sum_congr rfl fun i hi => word_congr (hlater i (Finset.mem_range.mp hi))
  rw [rowSum_succ', hsum, hrest]
  exact (word_of_sums hfirst).add_right _

/-! ## Parts of the memory -/

/-- An operation concerns the bytes from `lo` to `hi` only. -/
structure LocalTo (f : Memory → Memory) (lo hi : Int) : Prop where
  outside : ∀ (m : Memory) (x : Int), x < lo ∨ hi ≤ x → f m x = m x
  inside : ∀ m m' : Memory, (∀ x, lo ≤ x → x < hi → m x = m' x) → ∀ x, lo ≤ x → x < hi → f m x = f m' x

/-- **Operations on different parts** commute. -/
theorem LocalTo.comm {f g : Memory → Memory} {lo hi lo' hi' : Int} (hf : LocalTo f lo hi) (hg : LocalTo g lo' hi')
    (h : hi ≤ lo' ∨ hi' ≤ lo) (m : Memory) : f (g m) = g (f m) := by
  funext x
  by_cases hx : lo ≤ x ∧ x < hi
  · rw [hg.outside (f m) x (by omega)]
    exact hf.inside _ _ (fun y h₁ h₂ => hg.outside m y (by omega)) x hx.1 hx.2
  · rw [hf.outside (g m) x (by omega)]
    by_cases hx' : lo' ≤ x ∧ x < hi'
    · exact hg.inside _ _ (fun y h₁ h₂ => (hf.outside m y (by omega)).symm) x hx'.1 hx'.2
    · rw [hg.outside m x (by omega), hg.outside (f m) x (by omega), hf.outside m x (by omega)]

section Folds

variable {ι : Type} {act undo : ι → Memory → Memory} {lo hi : ι → Int}

/-- Outside of all parts. -/
lemma foldl_of_outside (hact : ∀ i, LocalTo (act i) (lo i) (hi i)) {l : List ι} {x : Int}
    (h : ∀ i ∈ l, x < lo i ∨ hi i ≤ x) (m : Memory) : l.foldl (fun m i => act i m) m x = m x := by
  induction l generalizing m with
  | nil => rfl
  | cons i l ih =>
    obtain ⟨hfirst, hrest⟩ := List.forall_mem_cons.mp h
    rw [List.foldl_cons, ih hrest, (hact i).outside m x hfirst]

/-- The first operation can be the last. -/
lemma foldl_comm (hact : ∀ i, LocalTo (act i) (lo i) (hi i)) {i : ι} {l : List ι}
    (h : ∀ j ∈ l, hi i ≤ lo j) (m : Memory) :
    l.foldl (fun m i => act i m) (act i m) = act i (l.foldl (fun m i => act i m) m) := by
  induction l generalizing m with
  | nil => rfl
  | cons j l ih =>
    obtain ⟨hfirst, hrest⟩ := List.forall_mem_cons.mp h
    rw [List.foldl_cons, List.foldl_cons, (hact j).comm (hact i) (.inr hfirst), ih hrest]

/-- Inside of one of the parts. -/
lemma foldl_of_mem (hact : ∀ i, LocalTo (act i) (lo i) (hi i)) {l : List ι}
    (hl : l.Pairwise fun i j => hi i ≤ lo j) {i : ι} (hmem : i ∈ l) {x : Int} (h₁ : lo i ≤ x) (h₂ : x < hi i)
    (m : Memory) : l.foldl (fun m i => act i m) m x = act i m x := by
  induction l generalizing m with
  | nil => cases hmem
  | cons j l ih =>
    obtain ⟨hj, hl⟩ := List.pairwise_cons.mp hl
    rw [List.foldl_cons]
    rcases List.mem_cons.mp hmem with rfl | hmem
    · exact foldl_of_outside hact (fun k hk => .inl (by have hle := hj k hk; omega)) _
    · rw [ih hl hmem]
      have hle := hj i hmem
      exact (hact i).inside _ _ (fun y h₁ _ => (hact j).outside m y (.inr (by omega))) x h₁ h₂

/-- **Operations on different parts are undone** in the order in which they were done. -/
theorem foldl_undo (hact : ∀ i, LocalTo (act i) (lo i) (hi i)) (hundo : ∀ i m, undo i (act i m) = m) {l : List ι}
    (hl : l.Pairwise fun i j => hi i ≤ lo j) (m : Memory) :
    l.foldl (fun m i => undo i m) (l.foldl (fun m i => act i m) m) = m := by
  induction l generalizing m with
  | nil => rfl
  | cons i l ih =>
    obtain ⟨hfirst, hrest⟩ := List.pairwise_cons.mp hl
    rw [List.foldl_cons, List.foldl_cons, foldl_comm hact hfirst, hundo, ih hrest]

end Folds

/-- The loop that starts with the first row concerns the rows only. -/
lemma localTo_accumulate (N : ℕ) (a : Int) (count : ℕ) :
    LocalTo (fun m => accumulate N count (a + N) (m.word a N) m) a (a + N * ((count + 1 : ℕ) : Int)) where
  outside := by
    intro m x hx
    refine accumulate_of_outside ?_
    push_cast at hx
    rw [mul_add, mul_one] at hx
    omega
  inside := by
    intro m m' hsame x h₁ h₂
    -- the byte `j` of the row `k`
    obtain ⟨d, rfl⟩ : ∃ d : ℕ, x = a + d := ⟨(x - a).toNat, by omega⟩
    have hpos : 0 < N := by
      rcases Nat.eq_zero_or_pos N with rfl | hpos
      · simp only [Nat.cast_zero, zero_mul, add_zero] at h₂
        omega
      · exact hpos
    have hd : d < N * (count + 1) := by
      zify
      push_cast at h₂
      omega
    have hk : d / N ≤ count := Nat.lt_succ_iff.mp (Nat.div_lt_of_lt_mul hd)
    have hj := Nat.mod_lt d hpos
    have hsplit : a + (d : Int) = a + N * (d / N : ℕ) + (d % N : ℕ) := by
      rw [add_assoc, ← Nat.cast_mul, ← Nat.cast_add, Nat.div_add_mod]
    rw [hsplit, accumulate_apply hk hj, accumulate_apply hk hj]
    refine congrArg (fun z => UInt8.ofNat (z / _)) (rowSum_congr fun i hi j hij => hsame _ ?_ ?_)
    · have hnonneg : 0 ≤ (N : Int) * i := by positivity
      omega
    · have hrow : (N : Int) * i + N ≤ N * ((count + 1 : ℕ) : Int) := by
        rw [← mul_add_one]
        exact mul_le_mul_of_nonneg_left (by push_cast; omega) (Int.natCast_nonneg _)
      omega

end Memory

end DArc
