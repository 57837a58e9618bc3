import DArc.Archive.RoundTrip

/-!
# The buffer of the unpacker

The unpacker parses control blocks in memory.  `MEMORY_BUFFER` reads words of four and eight bytes at the read
pointer, also over the end of the data, and checks afterwards that the pointer is not behind the end.

### Outline

* `skip`, `readInteger`, `read1`, `read4`, `readChars`: the reads, where `behind` is what lies behind the data.

### Main results

* `readInteger_eq`: numbers are read as by the archiver, whatever lies behind the data;
* `readInteger_encodes`, `read4_encodes`, `read1_encodes`, `readChars_encodes`: what the archiver writes.
-/

namespace DArc.Unarc

open DArc.Archive (peek consume writeInteger writeStorable writeBool writeString toUTF8List Str Chr)

/-! ## Reads -/

variable (behind : List UInt8)

/-- `skip`, which checks that the pointer is not behind the end. -/
def skip (n : ℕ) (s : List UInt8) : Option (List UInt8) := if n ≤ s.length then some (s.drop n) else none

/-- `return` of a value behind `skip`. -/
def skipped (n value : ℕ) (s : List UInt8) : Option (ℕ × List UInt8) := (skip n s).map fun rest => (value, rest)

/-- `readInteger`. -/
def readInteger : Decoder UInt8 ℕ := fun s =>
  let x := peek 4 (s ++ behind)
  if x &&& 1 = 0 then skipped 1 ((x &&& (2 ^ 8 - 1)) >>> 1) s
  else if x &&& 3 = 1 then skipped 2 ((x &&& (2 ^ 16 - 1)) >>> 2) s
  else if x &&& 7 = 3 then skipped 3 ((x &&& (2 ^ 24 - 1)) >>> 3) s
  else if x &&& 15 = 7 then skipped 4 (x >>> 4) s
  else
    let y := peek 8 (s ++ behind)
    if x &&& 31 = 15 then skipped 5 ((y &&& (2 ^ 40 - 1)) >>> 5) s
    else if x &&& 63 = 31 then skipped 6 ((y &&& (2 ^ 48 - 1)) >>> 6) s
    else if x &&& 127 = 63 then skipped 7 ((y &&& (2 ^ 56 - 1)) >>> 7) s
    else if x &&& 255 = 127 then skipped 8 (y >>> 8) s
    else (skip 1 s).bind fun s => skipped 8 (peek 8 (s ++ behind)) s

/-- `read1`. -/
def read1 : Decoder UInt8 ℕ := fun s => skipped 1 (peek 1 (s ++ behind)) s

/-- `read4`. -/
def read4 : Decoder UInt8 ℕ := fun s => skipped 4 (peek 4 (s ++ behind)) s

/-- `read` for `char*`: the bytes up to the next zero. -/
def readChars : Decoder UInt8 (List UInt8) := fun s =>
  if 0 ∈ s then some (s.takeWhile (· ≠ 0), (s.dropWhile (· ≠ 0)).tail) else none

/-- A number in a variable of the type `FILESIZE`. -/
def int64 (n : ℕ) : Int := Int.bmod n (2 ^ 64)

/-! ## Numbers -/

/-- Half of the numbers of eight bytes are file sizes. -/
lemma int64_toNat {x : Int} (h₀ : 0 ≤ x) (h : x < 2 ^ 63) : int64 x.toNat = x := by
  unfold int64
  rw [Int.bmod_def]
  omega

/-- The other half is negative. -/
lemma int64_toNat_pos_iff {x : Int} (h : 0 ≤ x ∧ x < 2 ^ 64) :
    0 < int64 x.toNat ↔ 0 < x ∧ x < 2 ^ 63 := by
  unfold int64
  rw [Int.bmod_def]
  omega

variable {behind}

/-- The low bytes of a word are the first ones. -/
lemma peek_mod {k n : ℕ} (hn : n ≤ k) {s : List UInt8} (hs : n ≤ s.length) :
    peek k s % 256 ^ n = leValue (s.take n) := by
  have hsplit : s.take k = s.take n ++ (s.take k).drop n := by
    have htake : (s.take k).take n = s.take n := by rw [List.take_take, min_eq_left hn]
    rw [← htake, List.take_append_drop]
  have hlen : (s.take n).length = n := by rw [List.length_take, min_eq_left hs]
  have hlt := leValue_lt (s.take n)
  rw [hlen] at hlt
  rw [peek, hsplit, leValue_append, hlen, Nat.add_mul_mod_self_left, Nat.mod_eq_of_lt hlt]

variable (behind) in
/-- The low bytes of a word do not depend on what lies behind them. -/
lemma peek_append_mod {k n : ℕ} (hn : n ≤ k) {s : List UInt8} (hs : n ≤ s.length) :
    peek k (s ++ behind) % 256 ^ n = peek k s % 256 ^ n := by
  rw [peek_mod hn (by rw [List.length_append]; omega), peek_mod hn hs, List.take_append_of_le_length hs]

/-- The archiver's `consume` in the words of the unpacker. -/
lemma skipped_eq (n value : ℕ) (s : List UInt8) :
    skipped n value s = (consume n value s).map fun r => (r.1.toNat, r.2) := by
  unfold skipped skip consume
  split <;> rfl

/-- The value matters only when there are enough bytes. -/
lemma skipped_congr {n value value' : ℕ} {s : List UInt8} (h : n ≤ s.length → value = value') :
    skipped n value s = (consume n value' s).map fun r => (r.1.toNat, r.2) := by
  rw [skipped_eq]
  unfold consume
  split
  case isTrue hle => rw [h hle]
  case isFalse => rfl

/-- A peeked word is not larger than its bytes. -/
lemma peek_lt (k : ℕ) (s : List UInt8) : peek k s < 256 ^ k :=
  lt_of_lt_of_le (leValue_lt _) (Nat.pow_le_pow_right (by norm_num) (List.length_take_le k s))

variable (behind) in
/-- A whole word does not depend on what lies behind it. -/
lemma peek_append {k : ℕ} {s : List UInt8} (hs : k ≤ s.length) : peek k (s ++ behind) = peek k s := by
  have hmod := peek_append_mod behind (le_refl k) hs
  rwa [Nat.mod_eq_of_lt (peek_lt k _), Nat.mod_eq_of_lt (peek_lt k _)] at hmod

/-- There is no number where no byte is left. -/
lemma readInteger_nil : readInteger behind [] = none := by
  have hnone : ∀ n value, skipped (n + 1) value ([] : List UInt8) = none := fun _ _ => rfl
  unfold readInteger
  dsimp only
  split_ifs <;> first | exact hnone _ _ | rfl

/-- `readInteger` with remainders for masks. -/
lemma readInteger_mod (s : List UInt8) :
    readInteger behind s =
      let x := peek 4 (s ++ behind)
      let y := peek 8 (s ++ behind)
      if x % 2 = 0 then skipped 1 (x % 256 ^ 1 / 2) s
      else if x % 4 = 1 then skipped 2 (x % 256 ^ 2 / 4) s
      else if x % 8 = 3 then skipped 3 (x % 256 ^ 3 / 8) s
      else if x % 16 = 7 then skipped 4 (x / 16) s
      else if x % 32 = 15 then skipped 5 (y % 256 ^ 5 / 32) s
      else if x % 64 = 31 then skipped 6 (y % 256 ^ 6 / 64) s
      else if x % 128 = 63 then skipped 7 (y % 256 ^ 7 / 128) s
      else if x % 256 = 127 then skipped 8 (y / 256) s
      else (skip 1 s).bind fun s => skipped 8 (peek 8 (s ++ behind)) s := by
  obtain ⟨h₁, h₂, h₃, h₄, h₅, h₆, h₇, h₈⟩ := DArc.Archive.and_mask (peek 4 (s ++ behind))
  unfold readInteger
  simp only [h₁, h₂, h₃, h₄, h₅, h₆, h₇, h₈, Nat.and_two_pow_sub_one_eq_mod, Nat.shiftRight_eq_div_pow]
  norm_num only

/-- A number of eight bytes behind its mark. -/
lemma skip_skipped (s : List UInt8) :
    ((skip 1 s).bind fun s => skipped 8 (peek 8 (s ++ behind)) s) =
      (consume 9 (peek 8 (s.drop 1)) s).map fun r => (r.1.toNat, r.2) := by
  unfold skip consume
  by_cases hone : 1 ≤ s.length
  · have hvalue (hlen : 8 ≤ (s.drop 1).length) : peek 8 (s.drop 1 ++ behind) = peek 8 (s.drop 1) :=
      peek_append behind hlen
    rw [if_pos hone, Option.bind_some, skipped_congr hvalue]
    unfold consume
    rw [List.length_drop, List.drop_drop]
    by_cases hnine : 9 ≤ s.length
    · rw [if_pos (by omega), if_pos hnine]
    · rw [if_neg (by omega), if_neg hnine]
  · rw [if_neg hone, if_neg (by omega)]
    rfl

variable (behind) in
/-- The first byte of a word is read also when less than a word is left. -/
lemma peek_first {s : List UInt8} (hs : 1 ≤ s.length) :
    peek 4 (s ++ behind) % 256 = peek 4 s % 256 ∧ peek 8 s % 256 = peek 4 s % 256 := by
  have hx := peek_append_mod behind (show 1 ≤ 4 by omega) hs
  have hy := (peek_mod (show 1 ≤ 8 by omega) hs).trans (peek_mod (show 1 ≤ 4 by omega) hs).symm
  exact ⟨hx, hy⟩

/-- Long numbers are read as by the archiver. -/
lemma readInteger_eq_long {s : List UInt8} (hs : 1 ≤ s.length) (h : peek 4 s % 16 = 15) :
    readInteger behind s = (DArc.Archive.readInteger s).map fun r => (r.1.toNat, r.2) := by
  obtain ⟨e₅, e₆, e₇, e₈, e₉⟩ := DArc.Archive.readInteger_long rfl h (rfl : peek 8 s = peek 8 s)
  obtain ⟨hx, hy⟩ := peek_first behind hs
  rw [readInteger_mod]
  dsimp only
  generalize peek 4 (s ++ behind) = x at hx ⊢
  generalize peek 4 s = x' at *
  rw [if_neg (by omega), if_neg (by omega), if_neg (by omega), if_neg (by omega)]
  split_ifs with h₅ h₆ h₇ h₈
  · rw [e₅ (by omega)]
    exact skipped_congr fun hlen => by rw [peek_append_mod behind (by omega) hlen]
  · rw [e₆ (by omega)]
    exact skipped_congr fun hlen => by rw [peek_append_mod behind (by omega) hlen]
  · rw [e₇ (by omega)]
    exact skipped_congr fun hlen => by rw [peek_append_mod behind (by omega) hlen]
  · rw [e₈ (by omega)]
    exact skipped_congr fun hlen => by rw [peek_append behind hlen]
  · rw [e₉ (by omega)]
    exact skip_skipped s

/-- Numbers are read as by the archiver, whatever lies behind the data. -/
lemma readInteger_eq (s : List UInt8) :
    readInteger behind s = (DArc.Archive.readInteger s).map fun r => (r.1.toNat, r.2) := by
  by_cases hs : s = []
  · rw [hs, readInteger_nil]
    rfl
  have hpos : 1 ≤ s.length := List.length_pos_iff.mpr hs
  by_cases hlong : peek 4 s % 16 = 15
  · exact readInteger_eq_long hpos hlong
  -- the first byte tells how many bytes there are
  obtain ⟨hx, -⟩ := peek_first behind hpos
  obtain ⟨e₁, e₂, e₃, e₄⟩ := DArc.Archive.readInteger_short (s := s) rfl
  rw [readInteger_mod]
  dsimp only
  by_cases h₁ : peek 4 s % 2 = 0
  · rw [if_pos (by omega), e₁ h₁]
    exact skipped_congr fun _ => by rw [pow_one, hx]
  by_cases h₂ : peek 4 s % 4 = 1
  · rw [if_neg (by omega), if_pos (by omega), e₂ h₂]
    exact skipped_congr fun hlen => by rw [peek_append_mod behind (by omega) hlen]
  by_cases h₃ : peek 4 s % 8 = 3
  · rw [if_neg (by omega), if_neg (by omega), if_pos (by omega), e₃ h₃]
    exact skipped_congr fun hlen => by rw [peek_append_mod behind (by omega) hlen]
  · have h₄ : peek 4 s % 16 = 7 := by omega
    rw [if_neg (by omega), if_neg (by omega), if_neg (by omega), if_pos (by omega), e₄ h₄]
    exact skipped_congr fun hlen => by rw [peek_append behind hlen]

/-! ## What the archiver writes -/

/-- What is written for a number stands for this number. -/
lemma readInteger_encodes {x : Int} {w : List UInt8} (h : writeInteger x = some w) :
    Encodes (readInteger behind) w x.toNat := by
  intro rest
  rw [readInteger_eq, DArc.Archive.integer_encodes h rest]
  rfl

/-- A word is read with the bytes that were written. -/
lemma skipped_peek {k n : ℕ} (h : n < 256 ^ k) (rest : List UInt8) :
    skipped k (peek k (leBytes k n ++ rest ++ behind)) (leBytes k n ++ rest) = some (n, rest) := by
  have hlen : k ≤ (leBytes k n ++ rest).length := by
    rw [List.length_append, length_leBytes]
    exact Nat.le_add_right _ _
  have hvalue : peek k (leBytes k n ++ rest) = n := by
    unfold peek
    rw [List.take_left' (length_leBytes k n), leValue_leBytes_of_lt h]
  unfold skipped skip
  rw [if_pos hlen, peek_append behind hlen, hvalue, List.drop_left' (length_leBytes k n)]
  rfl

/-- Words are read back. -/
lemma read4_encodes (x : BitVec (8 * 4)) : Encodes (read4 behind) (leBytes 4 x.toNat) x.toNat :=
  skipped_peek x.isLt

/-- Booleans are read back. -/
lemma read1_encodes (b : Bool) : Encodes (read1 behind) [if b then 1 else 0] b.toNat := by
  intro rest
  cases b <;> rfl

/-- The bytes of a string without NUL are not zero. -/
lemma zero_notMem_toUTF8List {s : Str} (h : 0 ∉ s) : (0 : UInt8) ∉ toUTF8List s := by
  intro hmem
  obtain ⟨bytes, hbytes, hzero⟩ := List.mem_flatten.mp hmem
  obtain ⟨c, hc, rfl⟩ := List.mem_map.mp hbytes
  have hlt := c.isLt
  have hpos : 0 < c.val := Nat.pos_of_ne_zero fun h₀ => h ((Fin.ext h₀ : c = 0) ▸ hc)
  have hne {n : ℕ} (hn : n < 256) (hn₀ : 0 < n) : (0 : UInt8) ≠ UInt8.ofNat n := by
    intro heq
    have hval := congrArg UInt8.toNat heq
    rw [UInt8.toNat_ofNat', Nat.mod_eq_of_lt hn] at hval
    exact hn₀.ne hval
  rw [DArc.Archive.toUTF8_eq] at hzero
  split_ifs at hzero
  · rcases List.mem_singleton.mp hzero with heq
    exact hne (by omega) hpos heq
  · simp only [List.mem_cons, List.not_mem_nil, or_false] at hzero
    rcases hzero with heq | heq
    · exact hne (by omega) (by omega) heq
    · exact hne (by omega) (by omega) heq
  · simp only [List.mem_cons, List.not_mem_nil, or_false] at hzero
    rcases hzero with heq | heq | heq
    · exact hne (by omega) (by omega) heq
    · exact hne (by omega) (by omega) heq
    · exact hne (by omega) (by omega) heq
  · simp only [List.mem_cons, List.not_mem_nil, or_false] at hzero
    rcases hzero with heq | heq | heq | heq
    · exact hne (by omega) (by omega) heq
    · exact hne (by omega) (by omega) heq
    · exact hne (by omega) (by omega) heq
    · exact hne (by omega) (by omega) heq

/-- Strings are read back as their bytes. -/
lemma readChars_encodes {s : Str} (h : 0 ∉ s) : Encodes readChars (toUTF8List s ++ [0]) (toUTF8List s) := by
  intro rest
  have hmem : (0 : UInt8) ∈ toUTF8List s ++ [0] ++ rest := by simp
  have hne : ∀ x ∈ toUTF8List s, decide (x ≠ 0) = true := by
    intro x hx
    refine decide_eq_true fun hzero => ?_
    exact zero_notMem_toUTF8List h (hzero ▸ hx)
  unfold readChars
  rw [if_pos hmem, List.append_assoc, List.takeWhile_append_of_pos hne, List.dropWhile_append_of_pos hne]
  simp

end DArc.Unarc
