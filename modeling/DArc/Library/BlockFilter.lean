import Mathlib.Tactic

/-!
# Filters that work block by block

A filter keeps a state and rewrites its data in blocks of a fixed size; what is left behind the
last whole block passes through unchanged (`mapBlocks`).  A program feeds such a filter with chunks
of its own size (`chunkLoop`).  Chunks that hold a whole number of blocks do not matter: the result
is that of one call over all the data (`Chunkable.chunkLoop`).

### Main results

* `mapBlocks_append`, `mapBlocks_chunkable`: data can be cut between blocks;
* `mapBlocks_inverse`: filters that undo each other on one block undo each other on all data;
* `Chunkable.chunkLoop`: chunks of whole blocks give the result of one call.
-/

namespace DArc

variable {α σ τ : Type*}

/-! ## Whole blocks -/

/-- Rewrite the data in blocks of `size` items and keep what remains behind the last block. -/
def mapBlocks (size : ℕ) (f : σ → List α → List α × σ) (s : σ) (xs : List α) : List α × σ :=
  if _h : 0 < size ∧ size ≤ xs.length then
    let (out, s') := f s (xs.take size)
    let (rest, s'') := mapBlocks size f s' (xs.drop size)
    (out ++ rest, s'')
  else (xs, s)
termination_by xs.length
decreasing_by simp only [List.length_drop]; omega

variable {size : ℕ} {f : σ → List α → List α × σ} {g : τ → List α → List α × τ}

/-- A block at the front is rewritten first. -/
lemma mapBlocks_block (hsize : 0 < size) (s : σ) {block : List α} (hblock : block.length = size)
    (xs : List α) :
    mapBlocks size f s (block ++ xs) =
      ((f s block).1 ++ (mapBlocks size f (f s block).2 xs).1,
        (mapBlocks size f (f s block).2 xs).2) := by
  rw [mapBlocks, dif_pos ⟨hsize, by simp [hblock]⟩, List.take_left' hblock, List.drop_left' hblock]

/-- Less than a block passes through. -/
lemma mapBlocks_short (s : σ) {xs : List α} (h : xs.length < size) :
    mapBlocks size f s xs = (xs, s) := by
  rw [mapBlocks, dif_neg (by omega)]

/-- Data can be cut behind a whole number of blocks. -/
lemma mapBlocks_append (s : σ) (xs ys : List α) (h : size ∣ xs.length) :
    mapBlocks size f s (xs ++ ys) =
      ((mapBlocks size f s xs).1 ++ (mapBlocks size f (mapBlocks size f s xs).2 ys).1,
        (mapBlocks size f (mapBlocks size f s xs).2 ys).2) := by
  fun_induction mapBlocks size f s xs with
  | case1 s xs hle out s' hf rest s'' hrest ih =>
    have hlen : (xs.take size).length = size := List.length_take_of_le hle.2
    have hdvd : size ∣ (xs.drop size).length := by
      rw [List.length_drop]
      exact Nat.dvd_sub h dvd_rfl
    have hfront : mapBlocks size f s (xs ++ ys) =
        mapBlocks size f s (xs.take size ++ (xs.drop size ++ ys)) := by
      rw [← List.append_assoc, List.take_append_drop]
    rw [hfront, mapBlocks_block hle.1 s hlen, hf, ih hdvd, hrest]
    simp [List.append_assoc]
  | case2 s xs hle =>
    obtain hzero | hpos := Nat.eq_zero_or_pos size
    · subst hzero
      obtain rfl : xs = [] := List.eq_nil_of_length_eq_zero (Nat.eq_zero_of_zero_dvd h)
      simp
    · obtain rfl : xs = [] :=
        List.eq_nil_of_length_eq_zero (Nat.eq_zero_of_dvd_of_lt h (by omega))
      simp

/-- Two filters whose states stay related and which undo each other on every block undo each other
on all data. -/
lemma mapBlocks_inverse {Rel : σ → τ → Prop}
    (hinv : ∀ s t block, Rel s t → block.length = size → (f s block).1.length = size ∧
      (g t (f s block).1).1 = block ∧ Rel (f s block).2 (g t (f s block).1).2)
    {s : σ} {t : τ} (h : Rel s t) (xs : List α) :
    (mapBlocks size g t (mapBlocks size f s xs).1).1 = xs := by
  fun_induction mapBlocks size f s xs generalizing t with
  | case1 s xs hle out s' hout rest s'' hrest ih =>
    have hlen : (xs.take size).length = size := List.length_take_of_le hle.2
    obtain ⟨hkeep, hback, hrel⟩ := hinv s t (xs.take size) h hlen
    rw [hout] at hkeep hback hrel
    have hih := ih hrel
    rw [hrest] at hih
    rw [mapBlocks_block hle.1 t hkeep, hback, hih, List.take_append_drop]
  | case2 s xs hle =>
    rw [mapBlocks, dif_neg hle]

/-! ## Chunks -/

/-- Feed the filter with chunks: the first one begins with `rest`, each one is filled up from the
data to `chunk` items, and an empty one ends the loop. -/
def chunkLoop (chunk : ℕ) (f : σ → List α → List α × σ) (s : σ) (rest xs : List α) : List α :=
  if _h : rest ++ xs.take (chunk - rest.length) = [] then []
  else
    let (out, s') := f s (rest ++ xs.take (chunk - rest.length))
    out ++ chunkLoop chunk f s' [] (xs.drop (chunk - rest.length))
termination_by rest.length + xs.length
decreasing_by
  rw [List.append_eq_nil_iff, not_and_or] at _h
  simp only [List.length_nil, List.length_drop]
  rcases _h with h | h
  · have := List.length_pos_of_ne_nil h
    omega
  · have := List.length_pos_of_ne_nil h
    rw [List.length_take] at this
    omega

/-- The result on data that is cut behind a multiple of `size` items is that of two calls. -/
structure Chunkable (size : ℕ) (f : σ → List α → List α × σ) : Prop where
  /-- Without data nothing happens. -/
  nil : ∀ s, f s [] = ([], s)
  /-- Data can be cut. -/
  append : ∀ s xs ys, size ∣ xs.length →
    f s (xs ++ ys) = ((f s xs).1 ++ (f (f s xs).2 ys).1, (f (f s xs).2 ys).2)

/-- A block filter can be fed in chunks of whole blocks. -/
lemma mapBlocks_chunkable : Chunkable size (mapBlocks size f) where
  nil s := by
    rw [mapBlocks, dif_neg]
    rintro ⟨hpos, hle⟩
    simp only [List.length_nil] at hle
    omega
  append s xs ys h := mapBlocks_append s xs ys h

/-- A copy can be fed in any chunks. -/
lemma copy_chunkable : Chunkable size fun (s : σ) (xs : List α) => (xs, s) where
  nil _ := rfl
  append _ _ _ _ := rfl

/-- Chunks of whole blocks give the result of one call over all the data. -/
lemma Chunkable.chunkLoop {chunk : ℕ} (h : Chunkable size f) (hdvd : size ∣ chunk)
    (hpos : 0 < chunk) (s : σ) (rest xs : List α) (hrest : rest.length ≤ chunk) :
    chunkLoop chunk f s rest xs = (f s (rest ++ xs)).1 := by
  fun_induction DArc.chunkLoop chunk f s rest xs with
  | case1 s rest xs hnil =>
    obtain ⟨rfl, hxs⟩ := List.append_eq_nil_iff.mp hnil
    have hempty : xs = [] := by
      rcases List.take_eq_nil_iff.mp hxs with hz | hz
      · simp only [List.length_nil] at hz
        omega
      · exact hz
    simp [hempty, h.nil]
  | case2 s rest xs hne out s' hout ih =>
    have hih := ih (Nat.zero_le _)
    have hwhole : rest ++ xs = (rest ++ xs.take (chunk - rest.length)) ++
        xs.drop (chunk - rest.length) := by
      rw [List.append_assoc, List.take_append_drop]
    by_cases hlong : chunk ≤ rest.length + xs.length
    · have hlen : (rest ++ xs.take (chunk - rest.length)).length = chunk := by
        rw [List.length_append, List.length_take]
        omega
      rw [hih, hwhole, h.append s _ _ (by rw [hlen]; exact hdvd), hout, List.nil_append]
    · -- the last chunk: nothing is left behind it
      have hdrop : xs.drop (chunk - rest.length) = [] := List.drop_eq_nil_of_le (by omega)
      rw [hih, hwhole, hdrop, List.append_nil, List.append_nil, h.nil, hout, List.append_nil]

end DArc
