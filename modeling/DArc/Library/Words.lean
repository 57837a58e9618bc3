import Mathlib.Tactic

/-!
# Little-endian words and exact reads

Byte streams are lists.  `leBytes k n` lists the `k` low bytes of `n`, least significant first, and
`leValue` reads such a list back; the two are inverse below `256 ^ k` (`leValue_leBytes_of_lt`).
`takeExact n s` splits off exactly `n` items of a stream, or fails when fewer are left.

### Outline

* `leBytes`, `leValue` and their round trip;
* `takeExact` on a stream with a known front.
-/

namespace DArc

/-! ## Little-endian words -/

/-- The `k` low bytes of `n`, least significant first. -/
def leBytes : ℕ → ℕ → List UInt8
  | 0, _ => []
  | k + 1, n => UInt8.ofNat n :: leBytes k (n / 256)

/-- The number a list of bytes spells, least significant byte first. -/
def leValue : List UInt8 → ℕ
  | [] => 0
  | b :: bs => b.toNat + 256 * leValue bs

/-- A word of `k` bytes has `k` bytes. -/
@[simp] lemma length_leBytes (k n : ℕ) : (leBytes k n).length = k := by
  induction k generalizing n with
  | zero => rfl
  | succ k ih => simp [leBytes, ih]

/-- Reading a word back gives the number modulo its range. -/
lemma leValue_leBytes (k n : ℕ) : leValue (leBytes k n) = n % 256 ^ k := by
  induction k generalizing n with
  | zero => simp [leBytes, leValue, Nat.mod_one]
  | succ k ih =>
    have hmod : n % (256 * 256 ^ k) = n % 256 + 256 * (n / 256 % 256 ^ k) := Nat.mod_mul
    rw [leBytes, leValue, ih, pow_succ', hmod, UInt8.toNat_ofNat']

/-- Reading back a word that is large enough for its number gives the number. -/
lemma leValue_leBytes_of_lt {k n : ℕ} (h : n < 256 ^ k) : leValue (leBytes k n) = n := by
  rw [leValue_leBytes, Nat.mod_eq_of_lt h]

/-- The number spelt by `k` bytes is below `256 ^ k`. -/
lemma leValue_lt (bs : List UInt8) : leValue bs < 256 ^ bs.length := by
  induction bs with
  | nil => simp [leValue]
  | cons b bs ih =>
    have hb : b.toNat < 256 := b.toNat_lt
    rw [leValue, List.length_cons, pow_succ']
    omega

/-- A word in front of a rest, read as a number. -/
lemma leValue_append (a b : List UInt8) : leValue (a ++ b) = leValue a + 256 ^ a.length * leValue b := by
  induction a with
  | nil => simp [leValue]
  | cons x a ih =>
    rw [List.cons_append, leValue, leValue, ih, List.length_cons, pow_succ']
    ring

/-- Writing back the number spelt by a list of bytes gives the list. -/
lemma leBytes_leValue (bs : List UInt8) : leBytes bs.length (leValue bs) = bs := by
  induction bs with
  | nil => rfl
  | cons b bs ih =>
    have hb : b.toNat < 256 := b.toNat_lt
    have hlow : UInt8.ofNat (b.toNat + 256 * leValue bs) = b := by
      apply UInt8.toNat_inj.mp
      rw [UInt8.toNat_ofNat']
      omega
    have hhigh : (b.toNat + 256 * leValue bs) / 256 = leValue bs := by omega
    rw [List.length_cons, leValue, leBytes, hlow, hhigh, ih]

/-! ## Exact reads -/

variable {α : Type*}

/-- Split off exactly `n` items, or fail. -/
def takeExact (n : ℕ) (s : List α) : Option (List α × List α) :=
  if n ≤ s.length then some (s.take n, s.drop n) else none

/-- An exact read of a front of the right length returns the front and leaves the rest. -/
lemma takeExact_append {n : ℕ} {front rest : List α} (h : front.length = n) :
    takeExact n (front ++ rest) = some (front, rest) := by
  subst h
  simp [takeExact]

/-- A word at the front of a stream is split off whole. -/
@[simp] lemma takeExact_leBytes_append (k n : ℕ) (rest : List UInt8) :
    takeExact k (leBytes k n ++ rest) = some (leBytes k n, rest) :=
  takeExact_append (length_leBytes k n)

/-- What an exact read returned, it returned in order. -/
lemma append_of_takeExact_eq_some {n : ℕ} {s front rest : List α}
    (h : takeExact n s = some (front, rest)) : front ++ rest = s ∧ front.length = n := by
  unfold takeExact at h
  split at h
  · next hle =>
    obtain ⟨rfl, rfl⟩ := Prod.mk.inj (Option.some.inj h)
    exact ⟨List.take_append_drop n s, List.length_take_of_le hle⟩
  · cases h

end DArc
