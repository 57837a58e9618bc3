import DArc.Archive.ByteStream

/-!
# Keys in hexadecimal notation

`generateEncryption` puts keys, initial vectors, salts and check codes into method strings with the Haskell
`encode16`; the methods take them out again with `decode16` of `C_Encryption.cpp`.

### Outline

* `encode16`, `decode16`: the two functions;
* `transfer`: a byte string on its way from one to the other;
* `foldByte`: what arrives of a byte, since `char2int` gives the digits `a`..`f` the values 0..5.

### Main results

* `transfer_eq`: what arrives of a byte string;
* `transfer_eq_self_iff`: which byte strings arrive, and which cannot be told apart.
-/

namespace DArc.Encryption

open DArc.Archive (Chr Str toUTF8 toUTF8List)

/-! ## The encoder -/

/-- `intToDigit`. -/
def intToDigit (n : ℕ) : Option Chr :=
  if n ≤ 9 then some (Fin.ofNat _ (0x30 + n))
  else if n ≤ 15 then some (Fin.ofNat _ (0x61 + n - 10))
  else none

/-- `encode16`, which is not defined for characters above 255. -/
def encode16 : Str → Option Str
  | [] => some []
  | c :: cs =>
    let n := c.val
    if n < 256 then do
      let high ← intToDigit (n / 16)
      let low ← intToDigit (n % 16)
      let rest ← encode16 cs
      return high :: low :: rest
    else none

/-- `map (chr . fromIntegral)` in `generateRandomBytes`. -/
def ofBytes (bytes : List UInt8) : Str := bytes.map fun b => Fin.ofNat _ b.toNat

/-! ## The decoder -/

/-- The value of a `char`. -/
def charValue (c : UInt8) : Int := c.toBitVec.toInt

/-- `isdigit`. -/
def isdigit (c : Int) : Bool := 0x30 ≤ c && c ≤ 0x39

/-- `tolower`. -/
def tolower (c : Int) : Int := if 0x41 ≤ c ∧ c ≤ 0x5A then c + 0x20 else c

/-- `char2int`. -/
def char2int (c : UInt8) : Int :=
  if isdigit (charValue c) then charValue c - 0x30 else tolower (charValue c) - 0x61

/-- `decode16`, on the bytes from `src` on. -/
def decode16 : List UInt8 → List UInt8
  | c₀ :: c₁ :: src =>
    if c₀ ≠ 0 ∧ c₁ ≠ 0 then UInt8.ofInt (char2int c₀ * 16 + char2int c₁) :: decode16 src else []
  | _ => []

/-- The bytes of a string that is handed to C. -/
def withCString (s : Str) : List UInt8 := toUTF8List s ++ [0]

/-- A byte string that is encoded, handed to C and decoded. -/
def transfer (bytes : List UInt8) : Option (List UInt8) :=
  (encode16 (ofBytes bytes)).map fun hex => decode16 (withCString hex)

/-! ## What arrives -/

/-- The `char` of a digit. -/
def digitChar (n : ℕ) : UInt8 := if n ≤ 9 then UInt8.ofNat (0x30 + n) else UInt8.ofNat (0x57 + n)

/-- The byte whose digits have the values that `char2int` gives to the digits of the byte. -/
def foldByte (b : UInt8) : UInt8 := UInt8.ofNat (b.toNat / 16 % 10 * 16 + b.toNat % 16 % 10)

/-- A digit is written as one `char`. -/
lemma intToDigit_eq {n : ℕ} (h : n < 16) :
    ∃ c, intToDigit n = some c ∧ toUTF8 c = [digitChar n] := by
  interval_cases n <;> exact ⟨_, rfl, rfl⟩

/-- The value of a digit, as `char2int` takes it. -/
lemma char2int_digitChar {n : ℕ} (h : n < 16) :
    digitChar n ≠ 0 ∧ char2int (digitChar n) = (n % 10 : ℕ) := by
  interval_cases n <;> decide

/-- The halves of a byte. -/
lemma halves_lt (b : UInt8) : b.toNat / 16 < 16 ∧ b.toNat % 16 < 16 := by
  have hlt := b.toNat_lt
  omega

/-- A byte is two digits in hexadecimal notation. -/
lemma encode16_cons (b : UInt8) {bytes : List UInt8} {hex : Str}
    (h : encode16 (ofBytes bytes) = some hex) :
    ∃ high low, encode16 (ofBytes (b :: bytes)) = some (high :: low :: hex) ∧
      toUTF8 high = [digitChar (b.toNat / 16)] ∧ toUTF8 low = [digitChar (b.toNat % 16)] := by
  have hlt := b.toNat_lt
  obtain ⟨high, hhigh, hhighChar⟩ := intToDigit_eq (halves_lt b).1
  obtain ⟨low, hlow, hlowChar⟩ := intToDigit_eq (halves_lt b).2
  have hval : (Fin.ofNat 0x110000 b.toNat).val = b.toNat := Nat.mod_eq_of_lt (by omega)
  refine ⟨high, low, ?_, hhighChar, hlowChar⟩
  change encode16 (Fin.ofNat _ b.toNat :: ofBytes bytes) = _
  rw [encode16, hval, if_pos (by omega), hhigh, hlow, h]
  rfl

/-- Two digits are taken as one byte. -/
lemma decode16_digits (b : UInt8) (src : List UInt8) :
    decode16 (digitChar (b.toNat / 16) :: digitChar (b.toNat % 16) :: src) =
      foldByte b :: decode16 src := by
  obtain ⟨hhigh, hhighValue⟩ := char2int_digitChar (halves_lt b).1
  obtain ⟨hlow, hlowValue⟩ := char2int_digitChar (halves_lt b).2
  have hvalue : UInt8.ofInt (((b.toNat / 16 % 10 : ℕ) : Int) * 16 + (b.toNat % 16 % 10 : ℕ)) =
      foldByte b := by
    have hcast : ((b.toNat / 16 % 10 : ℕ) : Int) * 16 + (b.toNat % 16 % 10 : ℕ) =
        (b.toNat / 16 % 10 * 16 + b.toNat % 16 % 10 : ℕ) := by push_cast; rfl
    rw [hcast, UInt8.ofInt, Int.emod_eq_of_lt (Int.natCast_nonneg _) (by norm_num; omega),
      Int.toNat_natCast, foldByte]
  rw [decode16, if_pos ⟨hhigh, hlow⟩, hhighValue, hlowValue, hvalue]

/-- **What arrives of a byte string** are its bytes with folded digits. -/
theorem transfer_eq (bytes : List UInt8) : transfer bytes = some (bytes.map foldByte) := by
  suffices h : ∃ hex, encode16 (ofBytes bytes) = some hex ∧
      decode16 (withCString hex) = bytes.map foldByte by
    obtain ⟨hex, hencode, hdecode⟩ := h
    rw [transfer, hencode, Option.map_some, hdecode]
  induction bytes with
  | nil => exact ⟨[], rfl, rfl⟩
  | cons b bytes ih =>
    obtain ⟨hex, hencode, hdecode⟩ := ih
    obtain ⟨high, low, hcons, hhigh, hlow⟩ := encode16_cons b hencode
    refine ⟨high :: low :: hex, hcons, ?_⟩
    have hbytes : withCString (high :: low :: hex) =
        digitChar (b.toNat / 16) :: digitChar (b.toNat % 16) :: withCString hex := by
      simp [withCString, toUTF8List, hhigh, hlow]
    rw [hbytes, decode16_digits, hdecode, List.map_cons]

/-- The value of a folded byte. -/
lemma toNat_foldByte (b : UInt8) :
    (foldByte b).toNat = b.toNat / 16 % 10 * 16 + b.toNat % 16 % 10 := by
  unfold foldByte
  rw [UInt8.toNat_ofNat', Nat.mod_eq_of_lt (by omega)]

/-- Bytes are folded to one byte when their digits are equal modulo 10. -/
lemma foldByte_eq_iff (b c : UInt8) :
    foldByte b = foldByte c ↔
      b.toNat / 16 ≡ c.toNat / 16 [MOD 10] ∧ b.toNat % 16 ≡ c.toNat % 16 [MOD 10] := by
  rw [← UInt8.toNat_inj, toNat_foldByte, toNat_foldByte]
  unfold Nat.ModEq
  omega

/-- A byte is kept when its digits are decimal. -/
lemma foldByte_eq_self_iff (b : UInt8) : foldByte b = b ↔ b.toNat / 16 < 10 ∧ b.toNat % 16 < 10 := by
  have hlt := b.toNat_lt
  rw [← UInt8.toNat_inj, toNat_foldByte]
  omega

/-- **Exactly the byte strings of decimal digits arrive**, and byte strings are confused with each other
exactly when their digits are equal modulo 10. -/
theorem transfer_eq_self_iff (a b : List UInt8) :
    (transfer a = some a ↔ ∀ x ∈ a, x.toNat / 16 < 10 ∧ x.toNat % 16 < 10) ∧
      (transfer a = transfer b ↔ List.Forall₂ (fun x y => x.toNat / 16 ≡ y.toNat / 16 [MOD 10] ∧
        x.toNat % 16 ≡ y.toNat % 16 [MOD 10]) a b) := by
  rw [transfer_eq, transfer_eq, Option.some_inj, Option.some_inj]
  constructor
  · simp only [← foldByte_eq_self_iff]
    conv_lhs => rhs; rw [← List.map_id a]
    exact List.map_inj_left
  · simp only [← foldByte_eq_iff]
    rw [← List.forall₂_eq_eq_eq, List.forall₂_map_left_iff, List.forall₂_map_right_iff]

/-- **The digit `a` arrives as the digit 0**, so two keys become one. -/
theorem not_transfer_eq_self :
    ¬∀ a : List UInt8, transfer a = some a ∧ ∀ b, transfer a = transfer b → a = b := by
  intro h
  exact absurd ((h [0x0A]).2 [0x00] (by decide)) (by decide)

end DArc.Encryption
