import DArc.Library.BlockFilter
import DArc.Library.Words

/-!
# Differences of multimedia samples

A sample is one word for each channel.  The filter replaces each word by its difference from the
word of the same channel in the sample before, and its inverse adds the differences up again.  The
four pairs `diff1`/`undiff1` … `diff4`/`undiff4` differ in the width of the words in the data and of
the variables that keep the previous words: 24-bit words are kept in 32-bit variables.

### Main results

* `Width.load_store`: words and their bytes;
* `Width.undiff_diff`: adding the differences up gives back the data.
-/

namespace DArc.MM

/-- The widths of a word in the data and of the variable that keeps the word before. -/
structure Width where
  /-- Bytes of a word in the data. -/
  bytes : ℕ
  /-- Bytes of the variable. -/
  register : ℕ
  /-- A variable holds a word. -/
  le : bytes ≤ register

namespace Width

variable (w : Width)

/-! ## Words of a sample -/

/-- The first `n` words of the data. -/
def load : ℕ → List UInt8 → List ℕ
  | 0, _ => []
  | n + 1, data => leValue (data.take w.bytes) :: load n (data.drop w.bytes)

/-- The bytes of the words. -/
def store (xs : List ℕ) : List UInt8 := (xs.map (leBytes w.bytes)).flatten

/-- Loading `n` words gives `n` words. -/
@[simp] lemma length_load (n : ℕ) (data : List UInt8) : (w.load n data).length = n := by
  induction n generalizing data with
  | zero => rfl
  | succ n ih => simp [load, ih]

/-- Each word takes its bytes. -/
@[simp] lemma length_store (xs : List ℕ) : (w.store xs).length = xs.length * w.bytes := by
  induction xs with
  | nil => simp [store]
  | cons x xs ih =>
    have hcons : w.store (x :: xs) = leBytes w.bytes x ++ w.store xs := rfl
    rw [hcons, List.length_append, ih, length_leBytes, List.length_cons, Nat.succ_mul, Nat.add_comm]

/-- The words of the data are below the range of a word. -/
lemma load_lt (n : ℕ) (data : List UInt8) : ∀ x ∈ w.load n data, x < 256 ^ w.bytes := by
  induction n generalizing data with
  | zero => simp [load]
  | succ n ih =>
    intro x hx
    rcases List.mem_cons.mp hx with rfl | hx
    · have hlt := leValue_lt (data.take w.bytes)
      have hlen : (data.take w.bytes).length ≤ w.bytes := List.length_take_le ..
      exact hlt.trans_le (Nat.pow_le_pow_right (by norm_num) hlen)
    · exact ih _ x hx

/-- Storing and loading reduces each word to its range. -/
lemma load_store (xs : List ℕ) :
    w.load xs.length (w.store xs) = xs.map (· % 256 ^ w.bytes) := by
  induction xs with
  | nil => rfl
  | cons x xs ih =>
    have hcons : w.store (x :: xs) = leBytes w.bytes x ++ w.store xs := rfl
    have hlen : (leBytes w.bytes x).length = w.bytes := length_leBytes ..
    rw [List.length_cons, load, hcons, List.take_left' hlen, List.drop_left' hlen, ih,
      leValue_leBytes, List.map_cons]

/-- Storing the words of a sample gives the sample. -/
lemma store_load (n : ℕ) {data : List UInt8} (h : data.length = n * w.bytes) :
    w.store (w.load n data) = data := by
  induction n generalizing data with
  | zero =>
    rw [Nat.zero_mul] at h
    rw [List.eq_nil_of_length_eq_zero h]
    rfl
  | succ n ih =>
    rw [Nat.succ_mul] at h
    have htake : (data.take w.bytes).length = w.bytes := List.length_take_of_le (by omega)
    have hword : leBytes w.bytes (leValue (data.take w.bytes)) = data.take w.bytes := by
      have hback := leBytes_leValue (data.take w.bytes)
      rwa [htake] at hback
    have hcons : w.store (w.load (n + 1) data) =
        leBytes w.bytes (leValue (data.take w.bytes)) ++ w.store (w.load n (data.drop w.bytes)) :=
      rfl
    rw [hcons, hword, ih (by rw [List.length_drop]; omega), List.take_append_drop]

/-! ## Differences -/

/-- `x - base` in the arithmetic of the variables. -/
def sub (x base : ℕ) : ℕ := (x + 256 ^ w.register - base) % 256 ^ w.register

/-- `base + d` in the arithmetic of the variables. -/
def add (base d : ℕ) : ℕ := (base + d) % 256 ^ w.register

/-- One sample: each word becomes its difference from the variable of its channel, which keeps the
word. -/
def diffSample (base : List ℕ) (sample : List UInt8) : List UInt8 × List ℕ :=
  let xs := w.load base.length sample
  (w.store (List.zipWith w.sub xs base), xs)

/-- One sample: each difference is added to the variable of its channel and becomes its value. -/
def undiffSample (base : List ℕ) (sample : List UInt8) : List UInt8 × List ℕ :=
  let sums := List.zipWith w.add base (w.load base.length sample)
  (w.store sums, sums)

/-- Run through the data of `channels` channels and take differences. -/
def diff (channels : ℕ) : List ℕ → List UInt8 → List UInt8 × List ℕ :=
  mapBlocks (channels * w.bytes) w.diffSample

/-- Run through the data of `channels` channels and add the differences up. -/
def undiff (channels : ℕ) : List ℕ → List UInt8 → List UInt8 × List ℕ :=
  mapBlocks (channels * w.bytes) w.undiffSample

/-- The ranges of a word and of a variable. -/
lemma range_dvd : 256 ^ w.bytes ∣ 256 ^ w.register := pow_dvd_pow 256 w.le

/-- Adding the difference of a word to a variable that agrees with the base on the bytes of a word
gives a variable that agrees with the word. -/
lemma add_sub_mod {x b c : ℕ} (hb : b < 256 ^ w.bytes) (hx : x < 256 ^ w.bytes)
    (h : c % 256 ^ w.bytes = b) : w.add c (w.sub x b % 256 ^ w.bytes) % 256 ^ w.bytes = x := by
  have hle : 256 ^ w.bytes ≤ 256 ^ w.register := Nat.pow_le_pow_right (by norm_num) w.le
  have hdvd := w.range_dvd
  unfold add sub
  rw [Nat.mod_mod_of_dvd _ hdvd, Nat.mod_mod_of_dvd _ hdvd, Nat.add_mod, Nat.mod_mod, h,
    ← Nat.add_mod_mod]
  obtain ⟨k, hk⟩ := hdvd
  rw [Nat.add_mod_mod, Nat.add_mod_mod, show b + (x + 256 ^ w.register - b) = x + 256 ^ w.register by omega,
    hk, Nat.add_mul_mod_self_left, Nat.mod_eq_of_lt hx]

/-- The decoder's variable agrees with the encoder's on the bytes of a word. -/
def Matches (b c : ℕ) : Prop := b < 256 ^ w.bytes ∧ c % 256 ^ w.bytes = b

/-- The decoder's variables agree with the encoder's. -/
def Agree (base base' : List ℕ) : Prop := List.Forall₂ w.Matches base base'

/-- Before the first sample all variables are zero. -/
lemma agree_zero (n : ℕ) : w.Agree (List.replicate n 0) (List.replicate n 0) := by
  induction n with
  | zero => exact .nil
  | succ n ih =>
    refine .cons ⟨Nat.pow_pos (by norm_num), Nat.zero_mod _⟩ ih

/-- Adding up the differences of one sample makes the variables agree again. -/
lemma agree_sums {base base' xs : List ℕ} (h : w.Agree base base')
    (hlen : xs.length = base.length) (hx : ∀ x ∈ xs, x < 256 ^ w.bytes) :
    w.Agree xs (List.zipWith w.add base'
      ((List.zipWith w.sub xs base).map (· % 256 ^ w.bytes))) := by
  induction h generalizing xs with
  | nil =>
    obtain rfl : xs = [] := List.eq_nil_of_length_eq_zero hlen
    exact .nil
  | @cons b c bs cs hbc _ ih =>
    cases xs with
    | nil => simp at hlen
    | cons x xs =>
      have hxlt := hx x List.mem_cons_self
      refine .cons ⟨hxlt, w.add_sub_mod hbc.1 hxlt hbc.2⟩ ?_
      exact ih (by simpa using hlen) fun y hy => hx y (List.mem_cons_of_mem _ hy)

/-- Storing depends only on the bytes of a word. -/
lemma store_congr {xs ys : List ℕ} (h : w.Agree xs ys) : w.store ys = w.store xs := by
  induction h with
  | nil => rfl
  | @cons x y xs ys hxy _ ih =>
    have hword : leBytes w.bytes y = leBytes w.bytes x := by
      rw [← hxy.2]
      have hlen : (leBytes w.bytes y).length = w.bytes := length_leBytes ..
      have hback := leBytes_leValue (leBytes w.bytes y)
      rw [hlen, leValue_leBytes] at hback
      exact hback.symm
    have hy : w.store (y :: ys) = leBytes w.bytes y ++ w.store ys := rfl
    have hx : w.store (x :: xs) = leBytes w.bytes x ++ w.store xs := rfl
    rw [hy, hx, hword, ih]

/-- Variables that agree are equally many. -/
lemma Agree.length_eq {w : Width} {base base' : List ℕ} (h : w.Agree base base') :
    base.length = base'.length := List.Forall₂.length_eq h

/-- One sample: the inverse gives back the bytes and keeps the variables in agreement. -/
lemma undiffSample_diffSample {base base' : List ℕ} {sample : List UInt8}
    (h : w.Agree base base') (hlen : sample.length = base.length * w.bytes) :
    (w.undiffSample base' (w.diffSample base sample).1).1 = sample ∧
      w.Agree (w.diffSample base sample).2 (w.undiffSample base' (w.diffSample base sample).1).2 := by
  set xs := w.load base.length sample with hxs
  have hsub : (List.zipWith w.sub xs base).length = base'.length := by
    rw [List.length_zipWith, hxs, length_load, Nat.min_self, h.length_eq]
  have hload : w.load base'.length (w.diffSample base sample).1 =
      (List.zipWith w.sub xs base).map (· % 256 ^ w.bytes) := by
    rw [← hsub]
    exact w.load_store _
  have hagree : w.Agree xs (List.zipWith w.add base'
      ((List.zipWith w.sub xs base).map (· % 256 ^ w.bytes))) :=
    w.agree_sums h (by simp [hxs]) (w.load_lt base.length sample)
  unfold undiffSample
  simp only [hload]
  exact ⟨by rw [w.store_congr hagree, hxs, w.store_load _ hlen], hagree⟩

/-- A sample keeps its length. -/
lemma length_diffSample (base : List ℕ) (sample : List UInt8) :
    (w.diffSample base sample).1.length = base.length * w.bytes := by
  simp [diffSample]

/-- Adding the differences of all samples up gives back the data. -/
lemma undiff_diff {channels : ℕ} {base base' : List ℕ} (h : w.Agree base base')
    (hlen : base.length = channels) (data : List UInt8) :
    (w.undiff channels base' (w.diff channels base data).1).1 = data := by
  have hstep : ∀ b c block, (b.length = channels ∧ w.Agree b c) →
      block.length = channels * w.bytes → (w.diffSample b block).1.length = channels * w.bytes ∧
        (w.undiffSample c (w.diffSample b block).1).1 = block ∧
        ((w.diffSample b block).2.length = channels ∧
          w.Agree (w.diffSample b block).2 (w.undiffSample c (w.diffSample b block).1).2) := by
    rintro b c block ⟨rfl, hbc⟩ hblock
    obtain ⟨hback, hagree⟩ := w.undiffSample_diffSample hbc hblock
    exact ⟨w.length_diffSample b block, hback, by simp [diffSample], hagree⟩
  exact mapBlocks_inverse hstep ⟨hlen, h⟩ data

end Width

/-! ## The four widths -/

/-- 8-bit words. -/
def width1 : Width := ⟨1, 1, le_rfl⟩

/-- 16-bit words. -/
def width2 : Width := ⟨2, 2, le_rfl⟩

/-- 24-bit words, whose previous values are kept in 32-bit variables. -/
def width3 : Width := ⟨3, 4, by norm_num⟩

/-- 32-bit words. -/
def width4 : Width := ⟨4, 4, le_rfl⟩

/-- `diff1`: run through the data diffing 8-bit elements. -/
def diff1 : ℕ → List ℕ → List UInt8 → List UInt8 × List ℕ := width1.diff

/-- `diff2`: 16-bit elements. -/
def diff2 : ℕ → List ℕ → List UInt8 → List UInt8 × List ℕ := width2.diff

/-- `diff3`: 24-bit elements. -/
def diff3 : ℕ → List ℕ → List UInt8 → List UInt8 × List ℕ := width3.diff

/-- `diff4`: 32-bit elements. -/
def diff4 : ℕ → List ℕ → List UInt8 → List UInt8 × List ℕ := width4.diff

/-- `undiff1`: run through the data undiffing 8-bit elements. -/
def undiff1 : ℕ → List ℕ → List UInt8 → List UInt8 × List ℕ := width1.undiff

/-- `undiff2`: 16-bit elements. -/
def undiff2 : ℕ → List ℕ → List UInt8 → List UInt8 × List ℕ := width2.undiff

/-- `undiff3`: 24-bit elements. -/
def undiff3 : ℕ → List ℕ → List UInt8 → List UInt8 × List ℕ := width3.undiff

/-- `undiff4`: 32-bit elements. -/
def undiff4 : ℕ → List ℕ → List UInt8 → List UInt8 × List ℕ := width4.undiff

/-- The `switch (byte_size)` of the compressor: other sizes are copied. -/
def diffBy (byteSize : Int) (channels : ℕ) (base : List ℕ) (data : List UInt8) :
    List UInt8 × List ℕ :=
  match byteSize with
  | 1 => diff1 channels base data
  | 2 => diff2 channels base data
  | 3 => diff3 channels base data
  | 4 => diff4 channels base data
  | _ => (data, base)

/-- The `switch (byte_size)` of the decompressor. -/
def undiffBy (byteSize : Int) (channels : ℕ) (base : List ℕ) (data : List UInt8) :
    List UInt8 × List ℕ :=
  match byteSize with
  | 1 => undiff1 channels base data
  | 2 => undiff2 channels base data
  | 3 => undiff3 channels base data
  | 4 => undiff4 channels base data
  | _ => (data, base)

/-- The sizes that are filtered. -/
def Diffed (byteSize : Int) : Prop := 1 ≤ byteSize ∧ byteSize ≤ 4

instance (byteSize : Int) : Decidable (Diffed byteSize) :=
  inferInstanceAs (Decidable (1 ≤ byteSize ∧ byteSize ≤ 4))

/-- Words of other sizes are copied. -/
lemma diffBy_of_not_diffed {byteSize : Int} (h : ¬ Diffed byteSize) (channels : ℕ) :
    (diffBy byteSize channels = fun base data => (data, base)) ∧
      undiffBy byteSize channels = fun base data => (data, base) := by
  unfold Diffed at h
  constructor <;> funext base data
  · unfold diffBy
    split <;> first | omega | rfl
  · unfold undiffBy
    split <;> first | omega | rfl

/-- Either one of the four widths is at work, or the data are copied. -/
lemma diffBy_cases (byteSize : Int) (channels : ℕ) :
    (∃ w : Width, (w.bytes : Int) = byteSize ∧ diffBy byteSize channels = w.diff channels ∧
      undiffBy byteSize channels = w.undiff channels) ∨
    ((diffBy byteSize channels = fun base data => (data, base)) ∧
      undiffBy byteSize channels = fun base data => (data, base)) := by
  by_cases h : Diffed byteSize
  · obtain rfl | rfl | rfl | rfl : byteSize = 1 ∨ byteSize = 2 ∨ byteSize = 3 ∨ byteSize = 4 := by
      unfold Diffed at h
      omega
    · exact .inl ⟨width1, rfl, rfl, rfl⟩
    · exact .inl ⟨width2, rfl, rfl, rfl⟩
    · exact .inl ⟨width3, rfl, rfl, rfl⟩
    · exact .inl ⟨width4, rfl, rfl, rfl⟩
  · exact .inr (diffBy_of_not_diffed h channels)

/-- The data of a stream of whole samples can be filtered in chunks. -/
lemma diffBy_chunkable {byteSize : Int} {channels n : ℕ} (h : (n : Int) = channels * byteSize) :
    Chunkable n (diffBy byteSize channels) ∧ Chunkable n (undiffBy byteSize channels) := by
  rcases diffBy_cases byteSize channels with ⟨w, hw, hd, hu⟩ | ⟨hd, hu⟩
  · obtain rfl : n = channels * w.bytes := by
      rw [← hw] at h
      exact_mod_cast h
    rw [hd, hu]
    exact ⟨mapBlocks_chunkable, mapBlocks_chunkable⟩
  · rw [hd, hu]
    exact ⟨copy_chunkable, copy_chunkable⟩

/-- The decompressor's switch undoes the compressor's. -/
lemma undiffBy_diffBy (byteSize : Int) (channels : ℕ) (data : List UInt8) :
    (undiffBy byteSize channels (List.replicate channels 0)
      (diffBy byteSize channels (List.replicate channels 0) data).1).1 = data := by
  rcases diffBy_cases byteSize channels with ⟨w, -, hd, hu⟩ | ⟨hd, hu⟩
  · rw [hd, hu]
    exact w.undiff_diff (w.agree_zero channels) (by simp) data
  · rw [hd, hu]

end DArc.MM
