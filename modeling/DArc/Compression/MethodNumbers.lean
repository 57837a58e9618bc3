import DArc.Compression.Common

/-!
# Numbers in method strings

How the parsers of the compression methods read numbers and amounts of memory out of their parameters.  A parameter is
the list of its characters; numbers are unsigned words of 32 bits, and those that are too large wrap.
-/

namespace DArc

/-- One gigabyte. -/
abbrev gb : ℕ := 1024 * mb

/-- The number in front of a parameter, behind what has been read, and the characters behind it. -/
def readDigits : ℕ → List Char → ℕ × List Char
  | n, [] => (n, [])
  | n, c :: cs => if '0' ≤ c ∧ c ≤ '9' then readDigits ((n * 10 + (c.toNat - '0'.toNat)) % 2 ^ 32) cs else (n, c :: cs)

/-- A parameter without the `=` in front. -/
def skipEquals : List Char → List Char
  | '=' :: cs => cs
  | cs => cs

/-- `parseInt`. -/
def parseInt (param : List Char) : Option ℕ :=
  match skipEquals param with
  | [] => none
  | cs =>
    match readDigits 0 cs with
    | (n, []) => some n
    | _ => none

/-- `parseMem`. -/
def parseMem (param : List Char) : Option ℕ :=
  match skipEquals param with
  | [] => none
  | cs =>
    match readDigits 0 cs with
    | (n, 'b' :: _) => some n
    | (n, 'k' :: _) => some (n * kb % 2 ^ 32)
    | (n, 'm' :: _) => some (n * mb % 2 ^ 32)
    | (n, 'g' :: _) => some (n * gb % 2 ^ 32)
    | (n, '^' :: _) => some (2 ^ (n % 32))
    | (n, []) => some (2 ^ (n % 32))
    | _ => none

/-- Numbers are words. -/
lemma readDigits_lt {n : ℕ} (cs : List Char) (hn : n < 2 ^ 32) : (readDigits n cs).1 < 2 ^ 32 := by
  induction cs generalizing n with
  | nil => exact hn
  | cons c cs ih =>
    rw [readDigits]
    split
    · exact ih (Nat.mod_lt _ (by norm_num))
    · exact hn

/-- What is parsed is a word. -/
lemma parseInt_lt {param : List Char} {n : ℕ} (h : parseInt param = some n) : n < 2 ^ 32 := by
  rw [parseInt] at h
  split at h
  · cases h
  · have hlt := readDigits_lt (skipEquals param) (show 0 < 2 ^ 32 by norm_num)
    split at h
    · next hread =>
      obtain rfl := Option.some.inj h
      rwa [hread] at hlt
    · cases h

/-- Amounts of memory are words. -/
lemma parseMem_lt {param : List Char} {n : ℕ} (h : parseMem param = some n) : n < 2 ^ 32 := by
  have hpower : ∀ k, 2 ^ (k % 32) < 2 ^ 32 := fun k =>
    Nat.pow_lt_pow_right (by norm_num) (Nat.mod_lt _ (by norm_num))
  rw [parseMem] at h
  split at h
  · cases h
  · have hlt := readDigits_lt (skipEquals param) (show 0 < 2 ^ 32 by norm_num)
    split at h
    · next hread =>
      obtain rfl := Option.some.inj h
      rwa [hread] at hlt
    all_goals first
      | exact Option.some.inj h ▸ Nat.mod_lt _ (by norm_num)
      | exact Option.some.inj h ▸ hpower _
      | cases h

end DArc
