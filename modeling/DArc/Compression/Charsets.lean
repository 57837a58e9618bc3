import DArc.Archive.ByteStream

/-!
# Conversion of character sets

`utf8_to_utf16` and `utf16_to_utf8` convert strings that end at a NUL, one character in each turn of a loop
that stops behind the character whose last unit is zero.  Memory is a list that begins at the pointer; what lies
behind its end is not read.

A string is well-formed when it encodes characters other than NUL, where a `Char` is a Unicode scalar value.

### Main results

* `utf8ToUtf16_encode`, `utf16ToUtf8_encode`: encoded characters are encoded the other way;
* `utf16_utf8_roundTrip`: both ways and back again.
-/

namespace DArc.Compression

open DArc.Archive (and_mask or_mark ofNat_le_iff)

/-! ## From UTF-8 to UTF-16 -/

/-- One character of `utf8_to_utf16`: its code, its last byte, and the memory behind it. -/
def readUtf8 : List UInt8 → Option (ℕ × UInt8 × List UInt8)
  | [] => none
  | c :: utf8 =>
    if c ≤ 0x7F then some (c.toNat, c, utf8)
    else if c ≤ 0xBF then some (63, c, utf8)
    else if c ≤ 0xDF then
      match utf8 with
      | c₁ :: utf8 => some (((c.toNat &&& 0x1F) <<< 6) + (c₁.toNat &&& 0x3F), c₁, utf8)
      | _ => none
    else if c ≤ 0xEF then
      match utf8 with
      | c₁ :: c₂ :: utf8 =>
        some (((c.toNat &&& 0x0F) <<< 12) + ((c₁.toNat &&& 0x3F) <<< 6) + (c₂.toNat &&& 0x3F), c₂, utf8)
      | _ => none
    else
      match utf8 with
      | c₁ :: c₂ :: c₃ :: utf8 =>
        some (((c.toNat &&& 0x0F) <<< 18) + ((c₁.toNat &&& 0x3F) <<< 12) + ((c₂.toNat &&& 0x3F) <<< 6) +
          (c₃.toNat &&& 0x3F), c₃, utf8)
      | _ => none

/-- The units that `utf8_to_utf16` writes for a code. -/
def writeUtf16 (c32 : ℕ) : List UInt16 :=
  if c32 ≤ 0xFFFF then [UInt16.ofNat c32]
  else
    let c32 := c32 - 0x10000
    [UInt16.ofNat (c32 / 0x400 + 0xd800), UInt16.ofNat (c32 % 0x400 + 0xdc00)]

/-- Reading a character goes forward. -/
lemma length_readUtf8 {utf8 rest : List UInt8} {c32 : ℕ} {last : UInt8}
    (h : readUtf8 utf8 = some (c32, last, rest)) : rest.length < utf8.length := by
  have hrest {x : ℕ} {l : UInt8} {t : List UInt8} (heq : some (x, l, t) = some (c32, last, rest)) :
      rest = t := by
    cases heq
    rfl
  cases utf8 with
  | nil => cases h
  | cons c utf8 =>
    simp only [readUtf8] at h
    split at h
    · exact hrest h ▸ Nat.lt_succ_self _
    split at h
    · exact hrest h ▸ Nat.lt_succ_self _
    split at h
    · split at h
      · rw [hrest h]
        simp only [List.length_cons]
        omega
      · cases h
    split at h
    · split at h
      · rw [hrest h]
        simp only [List.length_cons]
        omega
      · cases h
    · split at h
      · rw [hrest h]
        simp only [List.length_cons]
        omega
      · cases h

/-- `utf8_to_utf16`: what is written, the NUL included. -/
def utf8ToUtf16 (utf8 : List UInt8) : Option (List UInt16) :=
  match _h : readUtf8 utf8 with
  | none => none
  | some (c32, last, rest) =>
    if last ≠ 0 then (utf8ToUtf16 rest).map (writeUtf16 c32 ++ ·)
    else some (writeUtf16 c32)
termination_by utf8.length
decreasing_by exact length_readUtf8 _h

/-! ## From UTF-16 to UTF-8 -/

/-- One character of `utf16_to_utf8`: its code, its last unit, and the memory behind it. -/
def readUtf16 : List UInt16 → Option (ℕ × UInt16 × List UInt16)
  | [] => none
  | c :: utf16 =>
    if 0xd800 ≤ c ∧ c ≤ 0xdbff then
      match utf16 with
      | [] => none
      | d :: rest =>
        if 0xdc00 ≤ d ∧ d ≤ 0xdfff then
          some ((c.toNat - 0xd800) * 0x400 + (d.toNat - 0xdc00) + 0x10000, d, rest)
        else some (c.toNat, c, utf16)
    else some (c.toNat, c, utf16)

/-- The bytes that `utf16_to_utf8` writes for a code. -/
def writeUtf8 (c : ℕ) : List UInt8 :=
  if c ≤ 0x7F then [UInt8.ofNat c]
  else if c ≤ 0x07FF then
    [UInt8.ofNat (0xC0 ||| ((c >>> 6) &&& 0x1F)), UInt8.ofNat (0x80 ||| ((c >>> 0) &&& 0x3F))]
  else if c ≤ 0xFFFF then
    [UInt8.ofNat (0xE0 ||| ((c >>> 12) &&& 0x0F)), UInt8.ofNat (0x80 ||| ((c >>> 6) &&& 0x3F)),
      UInt8.ofNat (0x80 ||| ((c >>> 0) &&& 0x3F))]
  else
    [UInt8.ofNat (0xF0 ||| ((c >>> 18) &&& 0x0F)), UInt8.ofNat (0x80 ||| ((c >>> 12) &&& 0x3F)),
      UInt8.ofNat (0x80 ||| ((c >>> 6) &&& 0x3F)), UInt8.ofNat (0x80 ||| ((c >>> 0) &&& 0x3F))]

/-- Reading a character goes forward. -/
lemma length_readUtf16 {utf16 rest : List UInt16} {c : ℕ} {last : UInt16}
    (h : readUtf16 utf16 = some (c, last, rest)) : rest.length < utf16.length := by
  cases utf16 with
  | nil => cases h
  | cons c utf16 =>
    simp only [readUtf16] at h
    split at h
    · split at h
      · cases h
      · split at h
        · cases h
          simp only [List.length_cons]
          omega
        · cases h
          exact Nat.lt_succ_self _
    · cases h
      exact Nat.lt_succ_self _

/-- `utf16_to_utf8`: what is written, the NUL included. -/
def utf16ToUtf8 (utf16 : List UInt16) : Option (List UInt8) :=
  match _h : readUtf16 utf16 with
  | none => none
  | some (c, last, rest) =>
    if last ≠ 0 then (utf16ToUtf8 rest).map (writeUtf8 c ++ ·)
    else some (writeUtf8 c)
termination_by utf16.length
decreasing_by exact length_readUtf16 _h

/-! ## Well-formed strings -/

/-- A character in UTF-16: one unit, or a pair of surrogates. -/
def utf16EncodeChar (c : Char) : List UInt16 :=
  if c.toNat < 0x10000 then [UInt16.ofNat c.toNat]
  else
    [UInt16.ofNat (0xD800 + (c.toNat - 0x10000) / 0x400),
      UInt16.ofNat (0xDC00 + (c.toNat - 0x10000) % 0x400)]

/-- Characters in UTF-8. -/
def utf8Encode (cs : List Char) : List UInt8 := cs.flatMap String.utf8EncodeChar

/-- Characters in UTF-16. -/
def utf16Encode (cs : List Char) : List UInt16 := cs.flatMap utf16EncodeChar

/-- The string in front of a NUL is well-formed UTF-8. -/
def WellFormedUtf8 (s : List UInt8) : Prop := ∃ cs : List Char, (∀ c ∈ cs, c.toNat ≠ 0) ∧ s = utf8Encode cs

/-- The string in front of a NUL is well-formed UTF-16. -/
def WellFormedUtf16 (s : List UInt16) : Prop :=
  ∃ cs : List Char, (∀ c ∈ cs, c.toNat ≠ 0) ∧ s = utf16Encode cs

/-! ## Characters -/

/-- A character is a code point that is not a surrogate. -/
lemma char_range (c : Char) : c.toNat < 0xD800 ∨ 0xDFFF < c.toNat ∧ c.toNat < 0x110000 := c.valid

/-- The number in a byte. -/
lemma toNat_ofNat {n : ℕ} (h : n < 256) : (UInt8.ofNat n).toNat = n := by
  rw [UInt8.toNat_ofNat', Nat.mod_eq_of_lt h]

/-- A byte is zero when its number is. -/
lemma ofNat_eq_zero_iff {n : ℕ} (h : n < 256) : UInt8.ofNat n = 0 ↔ n = 0 := by
  rw [← UInt8.toNat_inj, toNat_ofNat h]
  rfl

/-- The bytes of a code, as sums. -/
def utf8Sums (n : ℕ) : List UInt8 :=
  if n ≤ 0x7F then [UInt8.ofNat n]
  else if n ≤ 0x7FF then [UInt8.ofNat (0xC0 + n / 64), UInt8.ofNat (0x80 + n % 64)]
  else if n ≤ 0xFFFF then
    [UInt8.ofNat (0xE0 + n / 4096), UInt8.ofNat (0x80 + n / 64 % 64), UInt8.ofNat (0x80 + n % 64)]
  else
    [UInt8.ofNat (0xF0 + n / 262144), UInt8.ofNat (0x80 + n / 4096 % 64),
      UInt8.ofNat (0x80 + n / 64 % 64), UInt8.ofNat (0x80 + n % 64)]

/-- The encoding of a character as sums. -/
lemma utf8EncodeChar_eq (c : Char) : String.utf8EncodeChar c = utf8Sums c.toNat := by
  have hrange := char_range c
  change (if c.toNat ≤ 0x7F then [UInt8.ofNat c.toNat]
    else if c.toNat ≤ 0x7FF then
      [UInt8.ofNat (c.toNat / 64 % 0x20 + 0xC0), UInt8.ofNat (c.toNat % 0x40 + 0x80)]
    else if c.toNat ≤ 0xFFFF then
      [UInt8.ofNat (c.toNat / 4096 % 0x10 + 0xE0), UInt8.ofNat (c.toNat / 64 % 0x40 + 0x80),
        UInt8.ofNat (c.toNat % 0x40 + 0x80)]
    else
      [UInt8.ofNat (c.toNat / 262144 % 0x08 + 0xF0), UInt8.ofNat (c.toNat / 4096 % 0x40 + 0x80),
        UInt8.ofNat (c.toNat / 64 % 0x40 + 0x80), UInt8.ofNat (c.toNat % 0x40 + 0x80)]) = _
  generalize c.toNat = n at hrange ⊢
  have h₁ : n ≤ 0x7FF → n / 64 % 0x20 = n / 64 := fun _ => Nat.mod_eq_of_lt (by omega)
  have h₂ : n ≤ 0xFFFF → n / 4096 % 0x10 = n / 4096 := fun _ => Nat.mod_eq_of_lt (by omega)
  have h₃ : n / 262144 % 0x08 = n / 262144 := Nat.mod_eq_of_lt (by omega)
  unfold utf8Sums
  split
  · rfl
  split
  · next hle => rw [h₁ hle, Nat.add_comm _ 0xC0, Nat.add_comm _ 0x80]
  split
  · next hle => rw [h₂ hle, Nat.add_comm _ 0xE0, Nat.add_comm _ 0x80, Nat.add_comm _ 0x80]
  · rw [h₃, Nat.add_comm _ 0xF0, Nat.add_comm _ 0x80, Nat.add_comm _ 0x80, Nat.add_comm _ 0x80]

/-- What is written for a code, as sums. -/
lemma writeUtf8_eq {n : ℕ} (hn : n < 0x110000) : writeUtf8 n = utf8Sums n := by
  have hmod (x : ℕ) : x % 64 < 64 := Nat.mod_lt x (by norm_num)
  unfold writeUtf8 utf8Sums
  simp only [Nat.shiftRight_eq_div_pow, (and_mask _).2.2.2.2.1, (and_mask _).2.2.2.2.2.1,
    (and_mask _).2.2.2.1]
  split
  · rfl
  split
  · rw [or_mark.1 (by omega), or_mark.2.1 (hmod _), Nat.mod_eq_of_lt (by omega), pow_zero, Nat.div_one]
  split
  · rw [or_mark.2.2.1 (by omega), or_mark.2.1 (hmod _), or_mark.2.1 (hmod _),
      Nat.mod_eq_of_lt (by omega), pow_zero, Nat.div_one]
  · rw [or_mark.2.2.2 (by omega), or_mark.2.1 (hmod _), or_mark.2.1 (hmod _), or_mark.2.1 (hmod _),
      Nat.mod_eq_of_lt (by omega), pow_zero, Nat.div_one]

/-- A code is read from its bytes, the last of which is zero for NUL alone. -/
lemma readUtf8_sums {n : ℕ} (hn : n < 0x110000) (rest : List UInt8) :
    ∃ last, (last = 0 ↔ n = 0) ∧ readUtf8 (utf8Sums n ++ rest) = some (n, last, rest) := by
  have h7F : (0x7F : UInt8) = UInt8.ofNat 127 := rfl
  have hBF : (0xBF : UInt8) = UInt8.ofNat 191 := rfl
  have hDF : (0xDF : UInt8) = UInt8.ofNat 223 := rfl
  have hEF : (0xEF : UInt8) = UInt8.ofNat 239 := rfl
  unfold utf8Sums
  split
  · rw [List.singleton_append]
    refine ⟨UInt8.ofNat n, ofNat_eq_zero_iff (by omega), ?_⟩
    unfold readUtf8
    dsimp only
    rw [if_pos (by rw [h7F, ofNat_le_iff] <;> omega), toNat_ofNat (by omega)]
  split
  · have hcode : (0xC0 + n / 64) % 32 * 2 ^ 6 + (0x80 + n % 64) % 64 = n := by omega
    rw [List.cons_append, List.singleton_append]
    refine ⟨UInt8.ofNat (0x80 + n % 64), by rw [ofNat_eq_zero_iff] <;> omega, ?_⟩
    unfold readUtf8
    dsimp only
    rw [if_neg (by rw [h7F, ofNat_le_iff] <;> omega), if_neg (by rw [hBF, ofNat_le_iff] <;> omega),
      if_pos (by rw [hDF, ofNat_le_iff] <;> omega), toNat_ofNat (by omega), toNat_ofNat (by omega),
      (and_mask _).2.2.2.2.1, (and_mask _).2.2.2.2.2.1, Nat.shiftLeft_eq, hcode]
  split
  · have hcode : (0xE0 + n / 4096) % 16 * 2 ^ 12 + (0x80 + n / 64 % 64) % 64 * 2 ^ 6 +
        (0x80 + n % 64) % 64 = n := by omega
    rw [List.cons_append, List.cons_append, List.singleton_append]
    refine ⟨UInt8.ofNat (0x80 + n % 64), by rw [ofNat_eq_zero_iff] <;> omega, ?_⟩
    unfold readUtf8
    dsimp only
    rw [if_neg (by rw [h7F, ofNat_le_iff] <;> omega), if_neg (by rw [hBF, ofNat_le_iff] <;> omega),
      if_neg (by rw [hDF, ofNat_le_iff] <;> omega), if_pos (by rw [hEF, ofNat_le_iff] <;> omega),
      toNat_ofNat (by omega), toNat_ofNat (by omega), toNat_ofNat (by omega),
      (and_mask _).2.2.2.1, (and_mask _).2.2.2.2.2.1, (and_mask _).2.2.2.2.2.1, Nat.shiftLeft_eq,
      Nat.shiftLeft_eq, hcode]
  · have hcode : (0xF0 + n / 262144) % 16 * 2 ^ 18 + (0x80 + n / 4096 % 64) % 64 * 2 ^ 12 +
        (0x80 + n / 64 % 64) % 64 * 2 ^ 6 + (0x80 + n % 64) % 64 = n := by omega
    rw [List.cons_append, List.cons_append, List.cons_append, List.singleton_append]
    refine ⟨UInt8.ofNat (0x80 + n % 64), by rw [ofNat_eq_zero_iff] <;> omega, ?_⟩
    unfold readUtf8
    dsimp only
    rw [if_neg (by rw [h7F, ofNat_le_iff] <;> omega), if_neg (by rw [hBF, ofNat_le_iff] <;> omega),
      if_neg (by rw [hDF, ofNat_le_iff] <;> omega), if_neg (by rw [hEF, ofNat_le_iff] <;> omega),
      toNat_ofNat (by omega), toNat_ofNat (by omega), toNat_ofNat (by omega), toNat_ofNat (by omega),
      (and_mask _).2.2.2.1, (and_mask _).2.2.2.2.2.1, (and_mask _).2.2.2.2.2.1,
      (and_mask _).2.2.2.2.2.1, Nat.shiftLeft_eq, Nat.shiftLeft_eq, Nat.shiftLeft_eq, hcode]

/-- The units that are written for a character encode it. -/
lemma writeUtf16_eq (c : Char) : writeUtf16 c.toNat = utf16EncodeChar c := by
  unfold writeUtf16 utf16EncodeChar
  by_cases hle : c.toNat ≤ 0xFFFF
  · rw [if_pos hle, if_pos (Nat.lt_succ_of_le hle)]
  · rw [if_neg hle, if_neg (by omega)]
    dsimp only
    rw [Nat.add_comm _ 0xd800, Nat.add_comm _ 0xdc00]

/-- Units compare as the numbers they hold. -/
lemma le_ofNat_iff {n m : ℕ} (hn : n < 65536) (hm : m < 65536) :
    UInt16.ofNat n ≤ UInt16.ofNat m ↔ n ≤ m := by
  rw [UInt16.le_iff_toNat_le, UInt16.toNat_ofNat', UInt16.toNat_ofNat', Nat.mod_eq_of_lt hn,
    Nat.mod_eq_of_lt hm]

/-- The number in a unit. -/
lemma toNat_unit {n : ℕ} (h : n < 65536) : (UInt16.ofNat n).toNat = n := by
  rw [UInt16.toNat_ofNat', Nat.mod_eq_of_lt h]

/-- A unit is zero when its number is. -/
lemma unit_eq_zero_iff {n : ℕ} (h : n < 65536) : UInt16.ofNat n = 0 ↔ n = 0 := by
  rw [← UInt16.toNat_inj, toNat_unit h]
  rfl

/-- A character is read from its units, the last of which is zero for NUL alone. -/
lemma readUtf16_encode (c : Char) (rest : List UInt16) :
    ∃ last, (last = 0 ↔ c.toNat = 0) ∧
      readUtf16 (utf16EncodeChar c ++ rest) = some (c.toNat, last, rest) := by
  have hrange := char_range c
  have hD800 : (0xd800 : UInt16) = UInt16.ofNat 0xd800 := rfl
  have hDBFF : (0xdbff : UInt16) = UInt16.ofNat 0xdbff := rfl
  have hDC00 : (0xdc00 : UInt16) = UInt16.ofNat 0xdc00 := rfl
  have hDFFF : (0xdfff : UInt16) = UInt16.ofNat 0xdfff := rfl
  unfold utf16EncodeChar
  split
  · have hplain : ¬ (0xd800 ≤ UInt16.ofNat c.toNat ∧ UInt16.ofNat c.toNat ≤ 0xdbff) := by
      rw [hD800, hDBFF, le_ofNat_iff (by omega) (by omega), le_ofNat_iff (by omega) (by omega)]
      omega
    rw [List.singleton_append]
    refine ⟨UInt16.ofNat c.toNat, unit_eq_zero_iff (by omega), ?_⟩
    unfold readUtf16
    dsimp only
    rw [if_neg hplain, toNat_unit (by omega)]
  · generalize hhigh : 0xD800 + (c.toNat - 0x10000) / 0x400 = high
    generalize hlow : 0xDC00 + (c.toNat - 0x10000) % 0x400 = low
    have hpair : 0xd800 ≤ UInt16.ofNat high ∧ UInt16.ofNat high ≤ 0xdbff := by
      rw [hD800, hDBFF, le_ofNat_iff (by omega) (by omega), le_ofNat_iff (by omega) (by omega)]
      omega
    have hsecond : 0xdc00 ≤ UInt16.ofNat low ∧ UInt16.ofNat low ≤ 0xdfff := by
      rw [hDC00, hDFFF, le_ofNat_iff (by omega) (by omega), le_ofNat_iff (by omega) (by omega)]
      omega
    have hcode : (high - 0xd800) * 0x400 + (low - 0xdc00) + 0x10000 = c.toNat := by omega
    rw [List.cons_append, List.singleton_append]
    refine ⟨UInt16.ofNat low, by rw [unit_eq_zero_iff] <;> omega, ?_⟩
    unfold readUtf16
    dsimp only
    rw [if_pos hpair, if_pos hsecond, toNat_unit (by omega), toNat_unit (by omega), hcode]

/-! ## Strings -/

/-- Characters in UTF-8 with a NUL behind them are converted to UTF-16. -/
lemma utf8ToUtf16_encode {cs : List Char} (hcs : ∀ c ∈ cs, c.toNat ≠ 0) (rest : List UInt8) :
    utf8ToUtf16 (utf8Encode cs ++ 0 :: rest) = some (utf16Encode cs ++ [0]) := by
  induction cs with
  | nil =>
    rw [utf8ToUtf16]
    rfl
  | cons c cs ih =>
    have hlt : c.toNat < 0x110000 := by
      have hrange := char_range c
      omega
    have hsplit : utf8Encode (c :: cs) ++ 0 :: rest =
        utf8Sums c.toNat ++ (utf8Encode cs ++ 0 :: rest) := by
      rw [utf8Encode, List.flatMap_cons, utf8EncodeChar_eq, List.append_assoc]
      rfl
    obtain ⟨last, hlast, hread⟩ := readUtf8_sums hlt (utf8Encode cs ++ 0 :: rest)
    have hne : last ≠ 0 := fun h => hcs c List.mem_cons_self (hlast.mp h)
    rw [hsplit, utf8ToUtf16, hread]
    dsimp only
    rw [if_pos hne, ih fun d hd => hcs d (List.mem_cons_of_mem c hd), Option.map_some, writeUtf16_eq,
      ← List.append_assoc]
    rfl

/-- Characters in UTF-16 with a NUL behind them are converted to UTF-8. -/
lemma utf16ToUtf8_encode {cs : List Char} (hcs : ∀ c ∈ cs, c.toNat ≠ 0) (rest : List UInt16) :
    utf16ToUtf8 (utf16Encode cs ++ 0 :: rest) = some (utf8Encode cs ++ [0]) := by
  induction cs with
  | nil =>
    rw [utf16ToUtf8]
    rfl
  | cons c cs ih =>
    have hlt : c.toNat < 0x110000 := by
      have hrange := char_range c
      omega
    have hsplit : utf16Encode (c :: cs) ++ 0 :: rest =
        utf16EncodeChar c ++ (utf16Encode cs ++ 0 :: rest) := by
      rw [utf16Encode, List.flatMap_cons, List.append_assoc]
      rfl
    obtain ⟨last, hlast, hread⟩ := readUtf16_encode c (utf16Encode cs ++ 0 :: rest)
    have hne : last ≠ 0 := fun h => hcs c List.mem_cons_self (hlast.mp h)
    rw [hsplit, utf16ToUtf8, hread]
    dsimp only
    rw [if_pos hne, ih fun d hd => hcs d (List.mem_cons_of_mem c hd), Option.map_some,
      writeUtf8_eq hlt, ← utf8EncodeChar_eq, ← List.append_assoc]
    rfl

/-- **Well-formed strings survive the conversion and the way back**, whatever lies in memory behind their NUL
and behind what was written. -/
theorem utf16_utf8_roundTrip :
    (∀ s : List UInt16, WellFormedUtf16 s → ∀ rest, ∃ w, utf16ToUtf8 (s ++ 0 :: rest) = some w ∧
      ∀ rest', utf8ToUtf16 (w ++ rest') = some (s ++ [0])) ∧
    (∀ s : List UInt8, WellFormedUtf8 s → ∀ rest, ∃ w, utf8ToUtf16 (s ++ 0 :: rest) = some w ∧
      ∀ rest', utf16ToUtf8 (w ++ rest') = some (s ++ [0])) := by
  constructor
  · rintro s ⟨cs, hcs, rfl⟩ rest
    refine ⟨_, utf16ToUtf8_encode hcs rest, fun rest' => ?_⟩
    rw [List.append_assoc, List.singleton_append]
    exact utf8ToUtf16_encode hcs rest'
  · rintro s ⟨cs, hcs, rfl⟩ rest
    refine ⟨_, utf8ToUtf16_encode hcs rest, fun rest' => ?_⟩
    rw [List.append_assoc, List.singleton_append]
    exact utf16ToUtf8_encode hcs rest'

/-- A pair of surrogates, and the four bytes of its character. -/
theorem utf16_utf8_roundTrip_pair :
    (∃ w, utf16ToUtf8 [0xD83D, 0xDE00, 0] = some w ∧
      ∀ rest', utf8ToUtf16 (w ++ rest') = some [0xD83D, 0xDE00, 0]) ∧
    ∃ w, utf8ToUtf16 [0xF0, 0x9F, 0x98, 0x80, 0] = some w ∧
      ∀ rest', utf16ToUtf8 (w ++ rest') = some [0xF0, 0x9F, 0x98, 0x80, 0] :=
  have hface : ∀ c ∈ ['😀'], c.toNat ≠ 0 := fun c hc => by
    obtain rfl := List.mem_singleton.mp hc
    decide
  ⟨utf16_utf8_roundTrip.1 [0xD83D, 0xDE00] ⟨['😀'], hface, by decide⟩ [],
    utf16_utf8_roundTrip.2 [0xF0, 0x9F, 0x98, 0x80] ⟨['😀'], hface, by decide⟩ []⟩

end DArc.Compression
