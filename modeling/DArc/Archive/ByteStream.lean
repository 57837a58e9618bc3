import DArc.Library.Wire
import DArc.Library.Words

/-!
# The byte streams of the archive directory

The values that `ByteStream` writes: numbers of up to nine bytes whose lowest one bits tell how many
bytes follow (`writeInteger`, `readInteger`), strings in UTF-8 with a final zero byte (`writeString`,
`readString`), words of a fixed size (`writeStorable`, `readStorable`) and Booleans (`writeBool`,
`readBool`).  A character is a Haskell `Char`, that is, any code point, the surrogates included.

Numbers are read through words of four and eight bytes peeked at the current position; bytes behind
the end of the stream read as zero there, and a number that does not end within the stream is not
read.

### Main results

* `integer_transmits`, `writeInteger_eq_none`: the numbers from 0 to 2^64 - 1, and the others;
* `string_transmits`: every string without NUL;
* `storable_transmits`, `bool_transmits`.
-/

namespace DArc.Archive

/-! ## Integers -/

/-- The low `n` bytes of a word of `k` bytes: the others are overwritten by what follows. -/
def lowBytes (k n value : ℕ) : List UInt8 := (leBytes k value).take n

/-- `writeUnchecked` for `Integer`; `none` is the call of `fail`. -/
def writeInteger (x : Int) : Option (List UInt8) :=
  let n := x.toNat
  if x < 0 then none
  else if n < 128 then some (lowBytes 4 1 (n * 2 + 0))
  else if n < 128 ^ 2 then some (lowBytes 4 2 (n * 4 + 1))
  else if n < 128 ^ 3 then some (lowBytes 4 3 (n * 8 + 3))
  else if n < 128 ^ 4 then some (lowBytes 4 4 (n * 16 + 7))
  else if n < 128 ^ 5 then some (lowBytes 8 5 (n * 32 + 15))
  else if n < 128 ^ 6 then some (lowBytes 8 6 (n * 64 + 31))
  else if n < 128 ^ 7 then some (lowBytes 8 7 (n * 128 + 63))
  else if n < 128 ^ 8 then some (lowBytes 8 8 (n * 256 + 127))
  else if n < 256 ^ 8 then some (255 :: leBytes 8 n)
  else none

/-- The word of `k` bytes at the front of the stream. -/
def peek (k : ℕ) (s : List UInt8) : ℕ := leValue (s.take k)

/-- Return a value that takes `n` bytes of the stream. -/
def consume (n value : ℕ) (s : List UInt8) : Option (Int × List UInt8) :=
  if n ≤ s.length then some (value, s.drop n) else none

/-- `readUnchecked` for `Integer`. -/
def readInteger (s : List UInt8) : Option (Int × List UInt8) :=
  let x := peek 4 s
  if x &&& 1 = 0 then consume 1 ((x % 256 ^ 1) >>> 1) s
  else if x &&& 3 = 1 then consume 2 ((x % 256 ^ 2) >>> 2) s
  else if x &&& 7 = 3 then consume 3 ((x % 256 ^ 3) >>> 3) s
  else if x &&& 15 = 7 then consume 4 (x >>> 4) s
  else
    let x := peek 8 s
    if x &&& 31 = 15 then consume 5 ((x % 256 ^ 5) >>> 5) s
    else if x &&& 63 = 31 then consume 6 ((x % 256 ^ 6) >>> 6) s
    else if x &&& 127 = 63 then consume 7 ((x % 256 ^ 7) >>> 7) s
    else if x &&& 255 = 127 then consume 8 (x >>> 8) s
    else consume 9 (peek 8 (s.drop 1)) s

/-- The low bytes of a word are a shorter word. -/
lemma lowBytes_eq {k n : ℕ} (h : n ≤ k) (value : ℕ) : lowBytes k n value = leBytes n value := by
  unfold lowBytes
  induction n generalizing k value with
  | zero => simp [leBytes]
  | succ n ih =>
    obtain ⟨k, rfl⟩ : ∃ j, k = j + 1 := ⟨k - 1, by omega⟩
    rw [leBytes, leBytes, List.take_succ_cons, ih (by omega)]

/-- Peeking `k` bytes at a word of at most `k` bytes gives the word and something above it. -/
lemma peek_le {n k v : ℕ} (hn : n ≤ k) (hv : v < 256 ^ n) (rest : List UInt8) :
    ∃ r, peek k (leBytes n v ++ rest) = v + 256 ^ n * r := by
  refine ⟨leValue (rest.take (k - n)), ?_⟩
  rw [peek, List.take_append, length_leBytes, leValue_append,
    List.take_of_length_le (by rw [length_leBytes]; exact hn), leValue_leBytes_of_lt hv, length_leBytes]

/-- Peeking `k` bytes at a word of more bytes gives its low bytes. -/
lemma peek_ge {n k : ℕ} (hn : k ≤ n) (v : ℕ) (rest : List UInt8) :
    peek k (leBytes n v ++ rest) = v % 256 ^ k := by
  rw [peek, List.take_append_of_le_length (by rw [length_leBytes]; exact hn)]
  have hlow := lowBytes_eq hn v
  unfold lowBytes at hlow
  rw [hlow, leValue_leBytes]

/-- A value that takes a word at the front leaves the rest. -/
lemma consume_leBytes (n v value : ℕ) (rest : List UInt8) :
    consume n value (leBytes n v ++ rest) = some ((value : Int), rest) := by
  unfold consume
  rw [if_pos (by simp), List.drop_left' (length_leBytes n v)]

/-- Masking with `2 ^ n - 1` is the remainder. -/
lemma and_mask (x : ℕ) : x &&& 1 = x % 2 ∧ x &&& 3 = x % 4 ∧ x &&& 7 = x % 8 ∧ x &&& 15 = x % 16 ∧
    x &&& 31 = x % 32 ∧ x &&& 63 = x % 64 ∧ x &&& 127 = x % 128 ∧ x &&& 255 = x % 256 :=
  ⟨Nat.and_two_pow_sub_one_eq_mod x 1, Nat.and_two_pow_sub_one_eq_mod x 2,
    Nat.and_two_pow_sub_one_eq_mod x 3, Nat.and_two_pow_sub_one_eq_mod x 4,
    Nat.and_two_pow_sub_one_eq_mod x 5, Nat.and_two_pow_sub_one_eq_mod x 6,
    Nat.and_two_pow_sub_one_eq_mod x 7, Nat.and_two_pow_sub_one_eq_mod x 8⟩

/-- Numbers of up to four bytes are recognised by the lowest bits of the first word. -/
lemma readInteger_short {s : List UInt8} {x : ℕ} (hx : peek 4 s = x) :
    (x % 2 = 0 → readInteger s = consume 1 (x % 256 / 2) s) ∧
    (x % 4 = 1 → readInteger s = consume 2 (x % 256 ^ 2 / 4) s) ∧
    (x % 8 = 3 → readInteger s = consume 3 (x % 256 ^ 3 / 8) s) ∧
    (x % 16 = 7 → readInteger s = consume 4 (x / 16) s) := by
  obtain ⟨h₁, h₂, h₃, h₄, -⟩ := and_mask x
  unfold readInteger
  simp only [hx, h₁, h₂, h₃, h₄, Nat.shiftRight_eq_div_pow]
  refine ⟨fun h => ?_, fun h => ?_, fun h => ?_, fun h => ?_⟩
  · rw [if_pos h, pow_one, pow_one]
  · rw [if_neg (by omega), if_pos h]
  · rw [if_neg (by omega), if_neg (by omega), if_pos h]
  · rw [if_neg (by omega), if_neg (by omega), if_neg (by omega), if_pos h]

/-- Longer numbers are recognised by the lowest bits of the first eight bytes. -/
lemma readInteger_long {s : List UInt8} {x y : ℕ} (hx : peek 4 s = x) (hlow : x % 16 = 15)
    (hy : peek 8 s = y) :
    (y % 32 = 15 → readInteger s = consume 5 (y % 256 ^ 5 / 32) s) ∧
    (y % 64 = 31 → readInteger s = consume 6 (y % 256 ^ 6 / 64) s) ∧
    (y % 128 = 63 → readInteger s = consume 7 (y % 256 ^ 7 / 128) s) ∧
    (y % 256 = 127 → readInteger s = consume 8 (y / 256) s) ∧
    (y % 256 = 255 → readInteger s = consume 9 (peek 8 (s.drop 1)) s) := by
  obtain ⟨h₁, h₂, h₃, h₄, -⟩ := and_mask x
  obtain ⟨-, -, -, -, h₅, h₆, h₇, h₈⟩ := and_mask y
  unfold readInteger
  simp only [hx, hy, h₁, h₂, h₃, h₄, h₅, h₆, h₇, h₈, Nat.shiftRight_eq_div_pow]
  rw [if_neg (by omega), if_neg (by omega), if_neg (by omega), if_neg (by omega)]
  refine ⟨fun h => ?_, fun h => ?_, fun h => ?_, fun h => ?_, fun h => ?_⟩
  · rw [if_pos h]
  · rw [if_neg (by omega), if_pos h]
  · rw [if_neg (by omega), if_neg (by omega), if_pos h]
  · rw [if_neg (by omega), if_neg (by omega), if_neg (by omega), if_pos h]
  · rw [if_neg (by omega), if_neg (by omega), if_neg (by omega), if_neg (by omega)]

/-- Numbers of up to four bytes are read back. -/
lemma readInteger_leBytes_short (n : ℕ) (rest : List UInt8) :
    (n < 128 → readInteger (leBytes 1 (n * 2 + 0) ++ rest) = some ((n : Int), rest)) ∧
    (n < 128 ^ 2 → readInteger (leBytes 2 (n * 4 + 1) ++ rest) = some ((n : Int), rest)) ∧
    (n < 128 ^ 3 → readInteger (leBytes 3 (n * 8 + 3) ++ rest) = some ((n : Int), rest)) ∧
    (n < 128 ^ 4 → readInteger (leBytes 4 (n * 16 + 7) ++ rest) = some ((n : Int), rest)) := by
  refine ⟨fun h => ?_, fun h => ?_, fun h => ?_, fun h => ?_⟩
  · obtain ⟨r, hr⟩ := peek_le (show 1 ≤ 4 by omega) (show n * 2 + 0 < 256 ^ 1 by omega) rest
    rw [(readInteger_short hr).1 (by omega), show (n * 2 + 0 + 256 ^ 1 * r) % 256 / 2 = n by omega]
    exact consume_leBytes ..
  · obtain ⟨r, hr⟩ := peek_le (show 2 ≤ 4 by omega) (show n * 4 + 1 < 256 ^ 2 by omega) rest
    rw [(readInteger_short hr).2.1 (by omega),
      show (n * 4 + 1 + 256 ^ 2 * r) % 256 ^ 2 / 4 = n by omega]
    exact consume_leBytes ..
  · obtain ⟨r, hr⟩ := peek_le (show 3 ≤ 4 by omega) (show n * 8 + 3 < 256 ^ 3 by omega) rest
    rw [(readInteger_short hr).2.2.1 (by omega),
      show (n * 8 + 3 + 256 ^ 3 * r) % 256 ^ 3 / 8 = n by omega]
    exact consume_leBytes ..
  · have hr := peek_ge (le_refl 4) (n * 16 + 7) rest
    have hlt : n * 16 + 7 < 256 ^ 4 := by omega
    rw [Nat.mod_eq_of_lt hlt] at hr
    rw [(readInteger_short hr).2.2.2 (by omega), show (n * 16 + 7) / 16 = n by omega]
    exact consume_leBytes ..

/-- Longer numbers are read back. -/
lemma readInteger_leBytes_long (n : ℕ) (rest : List UInt8) :
    (n < 128 ^ 5 → readInteger (leBytes 5 (n * 32 + 15) ++ rest) = some ((n : Int), rest)) ∧
    (n < 128 ^ 6 → readInteger (leBytes 6 (n * 64 + 31) ++ rest) = some ((n : Int), rest)) ∧
    (n < 128 ^ 7 → readInteger (leBytes 7 (n * 128 + 63) ++ rest) = some ((n : Int), rest)) ∧
    (n < 128 ^ 8 → readInteger (leBytes 8 (n * 256 + 127) ++ rest) = some ((n : Int), rest)) ∧
    (n < 256 ^ 8 → readInteger (255 :: leBytes 8 n ++ rest) = some ((n : Int), rest)) := by
  refine ⟨fun h => ?_, fun h => ?_, fun h => ?_, fun h => ?_, fun h => ?_⟩
  · have hx := peek_ge (show 4 ≤ 5 by omega) (n * 32 + 15) rest
    obtain ⟨r, hr⟩ := peek_le (show 5 ≤ 8 by omega) (show n * 32 + 15 < 256 ^ 5 by omega) rest
    rw [(readInteger_long hx (by omega) hr).1 (by omega),
      show (n * 32 + 15 + 256 ^ 5 * r) % 256 ^ 5 / 32 = n by omega]
    exact consume_leBytes ..
  · have hx := peek_ge (show 4 ≤ 6 by omega) (n * 64 + 31) rest
    obtain ⟨r, hr⟩ := peek_le (show 6 ≤ 8 by omega) (show n * 64 + 31 < 256 ^ 6 by omega) rest
    rw [(readInteger_long hx (by omega) hr).2.1 (by omega),
      show (n * 64 + 31 + 256 ^ 6 * r) % 256 ^ 6 / 64 = n by omega]
    exact consume_leBytes ..
  · have hx := peek_ge (show 4 ≤ 7 by omega) (n * 128 + 63) rest
    obtain ⟨r, hr⟩ := peek_le (show 7 ≤ 8 by omega) (show n * 128 + 63 < 256 ^ 7 by omega) rest
    rw [(readInteger_long hx (by omega) hr).2.2.1 (by omega),
      show (n * 128 + 63 + 256 ^ 7 * r) % 256 ^ 7 / 128 = n by omega]
    exact consume_leBytes ..
  · have hx := peek_ge (show 4 ≤ 8 by omega) (n * 256 + 127) rest
    have hr := peek_ge (le_refl 8) (n * 256 + 127) rest
    have hlt : n * 256 + 127 < 256 ^ 8 := by omega
    rw [Nat.mod_eq_of_lt hlt] at hr
    rw [(readInteger_long hx (by omega) hr).2.2.2.1 (by omega), show (n * 256 + 127) / 256 = n by omega]
    exact consume_leBytes ..
  · have hx : peek 4 (255 :: leBytes 8 n ++ rest) =
        255 + 256 * peek 3 (leBytes 8 n ++ rest) := rfl
    have hy : peek 8 (255 :: leBytes 8 n ++ rest) =
        255 + 256 * peek 7 (leBytes 8 n ++ rest) := rfl
    have hdrop : (255 :: leBytes 8 n ++ rest).drop 1 = leBytes 8 n ++ rest := rfl
    have hvalue := peek_ge (le_refl 8) n rest
    rw [Nat.mod_eq_of_lt h] at hvalue
    rw [(readInteger_long hx (by omega) hy).2.2.2.2 (by omega), hdrop, hvalue]
    unfold consume
    rw [if_pos (by simp)]
    rfl

/-- **Integers**: every number from 0 to 2^64 - 1 can be written and is read back. -/
theorem integer_transmits {x : Int} (h₀ : 0 ≤ x) (h : x < 2 ^ 64) :
    Transmits writeInteger readInteger x := by
  obtain ⟨n, rfl⟩ := Int.eq_ofNat_of_zero_le h₀
  have hn : n < 256 ^ 8 := by
    norm_num
    omega
  unfold Transmits writeInteger
  simp only [Int.toNat_natCast, lowBytes_eq (show 1 ≤ 4 by omega), lowBytes_eq (show 2 ≤ 4 by omega),
    lowBytes_eq (show 3 ≤ 4 by omega), lowBytes_eq (le_refl 4), lowBytes_eq (show 5 ≤ 8 by omega),
    lowBytes_eq (show 6 ≤ 8 by omega), lowBytes_eq (show 7 ≤ 8 by omega), lowBytes_eq (le_refl 8)]
  rw [if_neg (by omega)]
  split
  · next hk => exact ⟨_, rfl, fun rest => (readInteger_leBytes_short n rest).1 hk⟩
  split
  · next hk => exact ⟨_, rfl, fun rest => (readInteger_leBytes_short n rest).2.1 hk⟩
  split
  · next hk => exact ⟨_, rfl, fun rest => (readInteger_leBytes_short n rest).2.2.1 hk⟩
  split
  · next hk => exact ⟨_, rfl, fun rest => (readInteger_leBytes_short n rest).2.2.2 hk⟩
  split
  · next hk => exact ⟨_, rfl, fun rest => (readInteger_leBytes_long n rest).1 hk⟩
  split
  · next hk => exact ⟨_, rfl, fun rest => (readInteger_leBytes_long n rest).2.1 hk⟩
  split
  · next hk => exact ⟨_, rfl, fun rest => (readInteger_leBytes_long n rest).2.2.1 hk⟩
  split
  · next hk => exact ⟨_, rfl, fun rest => (readInteger_leBytes_long n rest).2.2.2.1 hk⟩
  exact ⟨_, rfl, fun rest => (readInteger_leBytes_long n rest).2.2.2.2 hn⟩

/-- A number that is read is not negative. -/
lemma readInteger_nonneg {s t : List UInt8} {x : Int} (h : readInteger s = some (x, t)) : 0 ≤ x := by
  have hconsume {n value : ℕ} {s : List UInt8} (h : consume n value s = some (x, t)) : 0 ≤ x := by
    unfold consume at h
    split at h
    · cases h
      exact Int.natCast_nonneg _
    · cases h
  unfold readInteger at h
  dsimp only at h
  split_ifs at h <;> exact hconsume h

/-- Other numbers are refused. -/
lemma writeInteger_eq_none {x : Int} : writeInteger x = none ↔ ¬ (0 ≤ x ∧ x < 2 ^ 64) := by
  constructor
  · rintro hnone ⟨h₀, h⟩
    obtain ⟨w, hw, -⟩ := integer_transmits h₀ h
    rw [hw] at hnone
    cases hnone
  · intro h
    unfold writeInteger
    by_cases hneg : x < 0
    · exact if_pos hneg
    · have hlarge : 256 ^ 8 ≤ x.toNat := by
        norm_num
        omega
      rw [if_neg hneg, if_neg (by omega), if_neg (by omega), if_neg (by omega), if_neg (by omega),
        if_neg (by omega), if_neg (by omega), if_neg (by omega), if_neg (by omega),
        if_neg (by omega)]

/-- What is written for a number stands for this number. -/
lemma integer_encodes {x : Int} {w : List UInt8} (h : writeInteger x = some w) :
    Encodes readInteger w x := by
  have hx : 0 ≤ x ∧ x < 2 ^ 64 := by
    by_contra hx
    exact absurd (h.symm.trans (writeInteger_eq_none.mpr hx)) (Option.some_ne_none _)
  obtain ⟨w', hw', hread⟩ := integer_transmits hx.1 hx.2
  obtain rfl := Option.some.inj (h.symm.trans hw')
  exact hread

/-! ## Strings -/

/-- A Haskell character: a code point, surrogates included. -/
abbrev Chr := Fin 0x110000

/-- There is a character for every number, which makes character literals possible. -/
instance instNeZeroChr : NeZero 0x110000 := ⟨by decide⟩

/-- A Haskell string. -/
abbrev Str := List Chr

/-- `toUTF8List` of one character. -/
def toUTF8 (c : Chr) : List UInt8 :=
  let x := c.val
  if x ≤ 0x7f then [UInt8.ofNat x]
  else if x ≤ 0x7ff then
    [UInt8.ofNat (0xC0 ||| ((x >>> 6) &&& 0x1F)), UInt8.ofNat (0x80 ||| (x &&& 0x3F))]
  else if x ≤ 0xffff then
    [UInt8.ofNat (0xE0 ||| ((x >>> 12) &&& 0x0F)), UInt8.ofNat (0x80 ||| ((x >>> 6) &&& 0x3F)),
      UInt8.ofNat (0x80 ||| (x &&& 0x3F))]
  else
    [UInt8.ofNat (0xF0 ||| (x >>> 18)), UInt8.ofNat (0x80 ||| ((x >>> 12) &&& 0x3F)),
      UInt8.ofNat (0x80 ||| ((x >>> 6) &&& 0x3F)), UInt8.ofNat (0x80 ||| (x &&& 0x3F))]

/-- `toUTF8List`. -/
def toUTF8List (s : Str) : List UInt8 := (s.map toUTF8).flatten

/-- `write` for `String`. -/
def writeString (s : Str) : Option (List UInt8) := some (toUTF8List s ++ [0])

/-- `unsafeChr`, where the result is a character. -/
def chr (x : Int) : Option Chr :=
  if h : 0 ≤ x ∧ x < 0x110000 then some ⟨x.toNat, by omega⟩ else none

/-- The payload of a byte above the base of its kind. -/
def payload (b : UInt8) (base : Int) : Int := b.toNat - base

/-- `unpackCharUtf8`: the character at the front of the stream. -/
def unpackCharUtf8 : Decoder UInt8 Chr
  | [] => none
  | ch0 :: s =>
    if ch0 ≤ 0x7F then (chr ch0.toNat).map (·, s)
    else if ch0 ≤ 0xDF then
      match s with
      | ch1 :: s => (chr (payload ch0 0xC0 * 2 ^ 6 + payload ch1 0x80)).map (·, s)
      | [] => none
    else if ch0 ≤ 0xEF then
      match s with
      | ch1 :: ch2 :: s =>
        (chr (payload ch0 0xE0 * 2 ^ 12 + payload ch1 0x80 * 2 ^ 6 + payload ch2 0x80)).map (·, s)
      | _ => none
    else
      match s with
      | ch1 :: ch2 :: ch3 :: s =>
        (chr (payload ch0 0xF0 * 2 ^ 18 + payload ch1 0x80 * 2 ^ 12 + payload ch2 0x80 * 2 ^ 6 +
          payload ch3 0x80)).map (·, s)
      | _ => none

/-- A decoded character leaves the rest it is paired with. -/
lemma rest_of_map {o : Option Chr} {s rest : List UInt8} {c : Chr}
    (h : o.map (·, s) = some (c, rest)) : rest = s := by
  obtain ⟨x, -, hx⟩ := Option.map_eq_some_iff.mp h
  exact (Prod.mk.inj hx).2.symm

/-- A character takes at least one byte. -/
lemma length_unpackCharUtf8 {s rest : List UInt8} {c : Chr}
    (h : unpackCharUtf8 s = some (c, rest)) : rest.length < s.length := by
  cases s with
  | nil => cases h
  | cons ch0 s =>
    simp only [unpackCharUtf8] at h
    split at h
    · obtain rfl := rest_of_map h
      exact Nat.lt_succ_self _
    split at h
    · split at h
      · obtain rfl := rest_of_map h
        simp only [List.length_cons]
        omega
      · cases h
    split at h
    · split at h
      · obtain rfl := rest_of_map h
        simp only [List.length_cons]
        omega
      · cases h
    · split at h
      · obtain rfl := rest_of_map h
        simp only [List.length_cons]
        omega
      · cases h

/-- `unpackCStringUtf8`: the characters up to the next zero byte. -/
def readString (s : List UInt8) : Option (Str × List UInt8) :=
  if s.head? = some 0 then some ([], s.tail)
  else
    match _h : unpackCharUtf8 s with
    | none => none
    | some (c, rest) => (readString rest).map fun r => (c :: r.1, r.2)
termination_by s.length
decreasing_by exact length_unpackCharUtf8 _h

/-- The bits of a byte below its mark. -/
lemma or_mark {n : ℕ} :
    (n < 32 → 0xC0 ||| n = 0xC0 + n) ∧ (n < 64 → 0x80 ||| n = 0x80 + n) ∧
    (n < 16 → 0xE0 ||| n = 0xE0 + n) ∧ (n < 8 → 0xF0 ||| n = 0xF0 + n) := by
  refine ⟨fun h => ?_, fun h => ?_, fun h => ?_, fun h => ?_⟩
  · exact (Nat.shiftLeft_add_eq_or_of_lt (show n < 2 ^ 6 by omega) 3).symm
  · exact (Nat.shiftLeft_add_eq_or_of_lt (show n < 2 ^ 6 by omega) 2).symm
  · exact (Nat.shiftLeft_add_eq_or_of_lt (show n < 2 ^ 4 by omega) 14).symm
  · exact (Nat.shiftLeft_add_eq_or_of_lt (show n < 2 ^ 3 by omega) 30).symm

/-- The bytes of a character as sums. -/
lemma toUTF8_eq (c : Chr) :
    toUTF8 c =
      if c.val ≤ 0x7f then [UInt8.ofNat c.val]
      else if c.val ≤ 0x7ff then [UInt8.ofNat (0xC0 + c.val / 64), UInt8.ofNat (0x80 + c.val % 64)]
      else if c.val ≤ 0xffff then
        [UInt8.ofNat (0xE0 + c.val / 4096), UInt8.ofNat (0x80 + c.val / 64 % 64),
          UInt8.ofNat (0x80 + c.val % 64)]
      else
        [UInt8.ofNat (0xF0 + c.val / 262144), UInt8.ofNat (0x80 + c.val / 4096 % 64),
          UInt8.ofNat (0x80 + c.val / 64 % 64), UInt8.ofNat (0x80 + c.val % 64)] := by
  have hc := c.isLt
  have hmod : ∀ x : ℕ, x % 64 < 64 := fun x => Nat.mod_lt x (by norm_num)
  unfold toUTF8
  simp only [Nat.shiftRight_eq_div_pow, (and_mask _).2.2.2.2.1, (and_mask _).2.2.2.2.2.1,
    (and_mask _).2.2.2.1]
  split
  · rfl
  split
  · rw [or_mark.1 (by omega), or_mark.2.1 (hmod _), Nat.mod_eq_of_lt (by omega)]
  split
  · rw [or_mark.2.2.1 (by omega), or_mark.2.1 (hmod _), or_mark.2.1 (hmod _),
      Nat.mod_eq_of_lt (by omega)]
  · rw [or_mark.2.2.2 (by omega), or_mark.2.1 (hmod _), or_mark.2.1 (hmod _), or_mark.2.1 (hmod _)]

/-- The code of a character is that character. -/
lemma chr_val {c : Chr} {x : Int} (h : x = c.val) : chr x = some c := by
  have hc := c.isLt
  unfold chr
  rw [dif_pos (by omega)]
  congr 1
  apply Fin.ext
  simp only
  omega

/-- The value of a byte below 256. -/
lemma payload_ofNat {n : ℕ} (h : n < 256) (base : Int) : payload (UInt8.ofNat n) base = n - base := by
  unfold payload
  rw [UInt8.toNat_ofNat', Nat.mod_eq_of_lt h]

/-- Bytes compare as the numbers they hold. -/
lemma ofNat_le_iff {n m : ℕ} (hn : n < 256) (hm : m < 256) :
    UInt8.ofNat n ≤ UInt8.ofNat m ↔ n ≤ m := by
  rw [UInt8.le_iff_toNat_le, UInt8.toNat_ofNat', UInt8.toNat_ofNat', Nat.mod_eq_of_lt hn,
    Nat.mod_eq_of_lt hm]

/-- A character is read back. -/
lemma unpackCharUtf8_toUTF8 (c : Chr) : Encodes unpackCharUtf8 (toUTF8 c) c := by
  intro rest
  have hlt := c.isLt
  have h7F : (0x7F : UInt8) = UInt8.ofNat 127 := rfl
  have hDF : (0xDF : UInt8) = UInt8.ofNat 223 := rfl
  have hEF : (0xEF : UInt8) = UInt8.ofNat 239 := rfl
  rw [toUTF8_eq]
  split
  · have hval : ((UInt8.ofNat c.val).toNat : Int) = c.val := by
      rw [UInt8.toNat_ofNat', Nat.mod_eq_of_lt (by omega)]
    rw [List.singleton_append]
    unfold unpackCharUtf8
    dsimp only
    rw [if_pos (by rw [h7F, ofNat_le_iff] <;> omega), chr_val hval]
    rfl
  split
  · rw [List.cons_append, List.singleton_append]
    unfold unpackCharUtf8
    dsimp only
    rw [if_neg (by rw [h7F, ofNat_le_iff] <;> omega), if_pos (by rw [hDF, ofNat_le_iff] <;> omega)]
    rw [payload_ofNat (by omega), payload_ofNat (by omega), chr_val (c := c) (by push_cast; omega)]
    rfl
  split
  · rw [List.cons_append, List.cons_append, List.singleton_append]
    unfold unpackCharUtf8
    dsimp only
    rw [if_neg (by rw [h7F, ofNat_le_iff] <;> omega), if_neg (by rw [hDF, ofNat_le_iff] <;> omega),
      if_pos (by rw [hEF, ofNat_le_iff] <;> omega)]
    rw [payload_ofNat (by omega), payload_ofNat (by omega), payload_ofNat (by omega),
      chr_val (c := c) (by push_cast; omega)]
    rfl
  · rw [List.cons_append, List.cons_append, List.cons_append, List.singleton_append]
    unfold unpackCharUtf8
    dsimp only
    rw [if_neg (by rw [h7F, ofNat_le_iff] <;> omega), if_neg (by rw [hDF, ofNat_le_iff] <;> omega),
      if_neg (by rw [hEF, ofNat_le_iff] <;> omega)]
    rw [payload_ofNat (by omega), payload_ofNat (by omega), payload_ofNat (by omega),
      payload_ofNat (by omega), chr_val (c := c) (by push_cast; omega)]
    rfl

/-- The bytes of a character other than NUL do not begin with a zero byte. -/
lemma head?_toUTF8 {c : Chr} (hc : c ≠ 0) (rest : List UInt8) :
    (toUTF8 c ++ rest).head? ≠ some 0 := by
  have hlt := c.isLt
  have hpos : 0 < c.val := Nat.pos_of_ne_zero fun h => hc (Fin.ext h)
  have hne : ∀ n : ℕ, n < 256 → 0 < n → some (UInt8.ofNat n) ≠ some 0 := by
    intro n hn hn0 h
    have hval := congrArg UInt8.toNat (Option.some.inj h)
    rw [UInt8.toNat_ofNat', Nat.mod_eq_of_lt hn] at hval
    exact hn0.ne' hval
  rw [toUTF8_eq]
  split
  · exact hne _ (by omega) hpos
  split
  · exact hne _ (by omega) (by omega)
  split
  · exact hne _ (by omega) (by omega)
  · exact hne _ (by omega) (by omega)

/-- A character in front of a string is read first. -/
lemma readString_toUTF8 {c : Chr} (hc : c ≠ 0) (rest : List UInt8) :
    readString (toUTF8 c ++ rest) = (readString rest).map fun r => (c :: r.1, r.2) := by
  rw [readString, if_neg (head?_toUTF8 hc rest)]
  have hread := unpackCharUtf8_toUTF8 c rest
  split
  · next hnone =>
    rw [hread] at hnone
    cases hnone
  · next d t hsome =>
    rw [hread] at hsome
    obtain ⟨rfl, rfl⟩ := Prod.mk.inj (Option.some.inj hsome)
    rfl

/-- **Strings**: every string without NUL is read back. -/
theorem string_transmits {s : Str} (h : 0 ∉ s) : Transmits writeString readString s := by
  refine ⟨_, rfl, fun rest => ?_⟩
  induction s with
  | nil =>
    rw [readString]
    exact if_pos rfl
  | cons c s ih =>
    rw [List.mem_cons, not_or] at h
    have hsplit : toUTF8List (c :: s) ++ [0] ++ rest = toUTF8 c ++ (toUTF8List s ++ [0] ++ rest) := by
      simp [toUTF8List]
    rw [hsplit, readString_toUTF8 (Ne.symm h.1), ih h.2]
    rfl

/-! ## Words and Booleans -/

/-- `writeUnchecked` for a `Storable` of `k` bytes. -/
def writeStorable {k : ℕ} (x : BitVec (8 * k)) : Option (List UInt8) := some (leBytes k x.toNat)

/-- `readUnchecked` for a `Storable` of `k` bytes. -/
def readStorable (k : ℕ) : Decoder UInt8 (BitVec (8 * k)) := fun s => do
  let (w, s) ← takeExact k s
  return (BitVec.ofNat (8 * k) (leValue w), s)

/-- `writeUnchecked` for `Bool`. -/
def writeBool (b : Bool) : Option (List UInt8) := some [if b then 1 else 0]

/-- `readUnchecked` for `Bool`; other bytes are not in the range of `toEnum`. -/
def readBool : Decoder UInt8 Bool
  | 0 :: s => some (false, s)
  | 1 :: s => some (true, s)
  | _ => none

/-- Every word is read back. -/
lemma storable_transmits {k : ℕ} (x : BitVec (8 * k)) : Transmits writeStorable (readStorable k) x := by
  refine ⟨_, rfl, fun rest => ?_⟩
  have hlt : x.toNat < 256 ^ k := by
    have hx := x.isLt
    rwa [pow_mul] at hx
  refine Option.bind_eq_some_iff.mpr ⟨_, takeExact_leBytes_append k x.toNat rest, ?_⟩
  dsimp only
  rw [leValue_leBytes_of_lt hlt, BitVec.ofNat_toNat, BitVec.setWidth_eq]
  rfl

/-- Every Boolean is read back. -/
lemma bool_transmits (b : Bool) : Transmits writeBool readBool b := by
  refine ⟨_, rfl, fun rest => ?_⟩
  cases b <;> rfl

end DArc.Archive
