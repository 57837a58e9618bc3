import Mathlib.Tactic

/-!
# Coding by intervals

A message is coded by an interval of numbers that every symbol makes smaller.  The interval is widened by 256 whenever
another byte of the code is wanted, so its ends are known without any bound; the code is a number in the last
interval, and the first bytes of it are in the intervals before.

### Outline

* `beValue`: the number that bytes spell, the high byte first;
* `CodeInterval`, `CodeInterval.narrow`, `CodeInterval.widen`: intervals and what is done to them;
* `CodeInterval.Holds`: a code of which some bytes are still to come.

### Main results

* `CodeInterval.Holds.of_narrow`: a code within a part is within the whole;
* `CodeInterval.Holds.count_mem`: the code tells which part it is in.
-/

namespace DArc

/-! ## Numbers with the high byte first -/

/-- The number that a list of bytes spells, most significant byte first. -/
def beValue (bs : List UInt8) : ℕ := bs.foldl (fun v b => v * 256 + b.toNat) 0

/-- The empty list spells 0. -/
@[simp] lemma beValue_nil : beValue [] = 0 := rfl

/-- A byte at the end is the lowest one. -/
lemma beValue_concat (bs : List UInt8) (b : UInt8) : beValue (bs ++ [b]) = beValue bs * 256 + b.toNat := by
  rw [beValue, List.foldl_append]
  rfl

/-- The value of two lists behind each other. -/
lemma beValue_append (as bs : List UInt8) :
    beValue (as ++ bs) = beValue as * 256 ^ bs.length + beValue bs := by
  induction bs using List.reverseRecOn with
  | nil => simp
  | append_singleton bs b ih =>
    rw [← List.append_assoc, beValue_concat, ih, beValue_concat, List.length_append, List.length_singleton, pow_succ]
    ring

/-- A list of `k` bytes spells a number below `256 ^ k`. -/
lemma beValue_lt (bs : List UInt8) : beValue bs < 256 ^ bs.length := by
  induction bs using List.reverseRecOn with
  | nil => simp
  | append_singleton bs b ih =>
    have hb : b.toNat < 256 := b.toNat_lt
    rw [beValue_concat, List.length_append, List.length_singleton, pow_succ]
    omega

/-- A row of the highest bytes is 1 below the next power. -/
lemma beValue_replicate_max (k : ℕ) : beValue (List.replicate k 255) + 1 = 256 ^ k := by
  induction k with
  | zero => rfl
  | succ k ih =>
    have hmax : (255 : UInt8).toNat = 255 := rfl
    rw [List.replicate_succ', beValue_concat, pow_succ, ← ih, hmax]
    ring

/-- A row of zero bytes is 0. -/
lemma beValue_replicate_zero (k : ℕ) : beValue (List.replicate k 0) = 0 := by
  induction k with
  | zero => rfl
  | succ k ih =>
    have hzero : (0 : UInt8).toNat = 0 := rfl
    rw [List.replicate_succ', beValue_concat, ih, hzero]

/-- The first bytes spell what is left of the number without the last ones. -/
lemma beValue_take {bs : List UInt8} {k m : ℕ} (h : k + m = bs.length) :
    beValue (bs.take k) = beValue bs / 256 ^ m := by
  have hall := beValue_append (bs.take k) (bs.drop k)
  have hlength : (bs.drop k).length = m := by
    rw [List.length_drop]
    omega
  have hlt := beValue_lt (bs.drop k)
  rw [List.take_append_drop, hlength] at hall
  rw [hlength] at hlt
  rw [hall, Nat.add_div_of_dvd_right (Dvd.intro_left _ rfl), Nat.mul_div_cancel _ (by positivity),
    Nat.div_eq_of_lt hlt, Nat.add_zero]

/-- One more byte of a list. -/
lemma beValue_take_succ {bs : List UInt8} {k : ℕ} (h : k < bs.length) :
    beValue (bs.take (k + 1)) = beValue (bs.take k) * 256 + bs[k].toNat := by
  rw [List.take_succ_eq_append_getElem h, beValue_concat]

/-! ## Intervals -/

/-- The numbers from `low` on, `range` of them. -/
@[ext]
structure CodeInterval where
  low : ℕ
  range : ℕ

namespace CodeInterval

variable {i : CodeInterval} {cum cnt bits k m x : ℕ}

/-- The part of an interval for the counts from `cum` on, `cnt` of them, of `2 ^ bits`. -/
def narrow (i : CodeInterval) (cum cnt bits : ℕ) : CodeInterval where
  low := i.low + cum * (i.range / 2 ^ bits)
  range := i.range / 2 ^ bits * cnt

/-- The interval with `k` more bytes. -/
def widen (k : ℕ) (i : CodeInterval) : CodeInterval where
  low := i.low * 256 ^ k
  range := i.range * 256 ^ k

/-- The number `x` is in the interval, with `m` more bytes. -/
def Holds (i : CodeInterval) (m x : ℕ) : Prop :=
  i.low * 256 ^ m ≤ x ∧ x < (i.low + i.range) * 256 ^ m

/-- The first number of an interval is in it. -/
lemma holds_low (h : 0 < i.range) : i.Holds 0 i.low := by
  constructor <;> simp [h]

/-- More bytes of the interval are fewer that are still to come. -/
lemma holds_widen : (i.widen k).Holds m x ↔ i.Holds (k + m) x := by
  have hlow : i.low * 256 ^ k * 256 ^ m = i.low * 256 ^ (k + m) := by ring
  have hhigh : (i.low * 256 ^ k + i.range * 256 ^ k) * 256 ^ m = (i.low + i.range) * 256 ^ (k + m) := by ring
  rw [Holds, Holds, widen, hlow, hhigh]

/-- The parts of an interval end within it. -/
lemma narrow_end_le (h : cum + cnt ≤ 2 ^ bits) :
    (i.narrow cum cnt bits).low + (i.narrow cum cnt bits).range ≤ i.low + i.range :=
  calc i.low + cum * (i.range / 2 ^ bits) + i.range / 2 ^ bits * cnt
      = i.low + (cum + cnt) * (i.range / 2 ^ bits) := by ring
    _ ≤ i.low + 2 ^ bits * (i.range / 2 ^ bits) := Nat.add_le_add_left (Nat.mul_le_mul_right _ h) _
    _ ≤ i.low + i.range := Nat.add_le_add_left (Nat.mul_div_le _ _) _

/-- **A code within a part** is within the whole. -/
lemma Holds.of_narrow (h : (i.narrow cum cnt bits).Holds m x) (hcount : cum + cnt ≤ 2 ^ bits) : i.Holds m x :=
  ⟨(Nat.mul_le_mul_right _ (Nat.le_add_right _ _)).trans h.1,
    h.2.trans_le (Nat.mul_le_mul_right _ (narrow_end_le hcount))⟩

/-- The first bytes of a code are in the interval. -/
lemma Holds.div_mem (h : i.Holds m x) : i.low ≤ x / 256 ^ m ∧ x / 256 ^ m < i.low + i.range :=
  ⟨(Nat.le_div_iff_mul_le (by positivity)).mpr h.1, (Nat.div_lt_iff_lt_mul (by positivity)).mpr h.2⟩

/-- **The code tells the part** that it is in. -/
lemma Holds.count_mem (h : (i.narrow cum cnt bits).Holds m x) :
    cum ≤ (x / 256 ^ m - i.low) / (i.range / 2 ^ bits) ∧
      (x / 256 ^ m - i.low) / (i.range / 2 ^ bits) < cum + cnt := by
  obtain ⟨hle, hlt⟩ := h.div_mem
  change i.low + cum * (i.range / 2 ^ bits) ≤ _ at hle
  change _ < i.low + cum * (i.range / 2 ^ bits) + i.range / 2 ^ bits * cnt at hlt
  have hpos : 0 < i.range / 2 ^ bits := by
    by_contra hzero
    rw [Nat.eq_zero_of_not_pos hzero] at hle hlt
    omega
  have hring : (cum + cnt) * (i.range / 2 ^ bits) = cum * (i.range / 2 ^ bits) + i.range / 2 ^ bits * cnt := by ring
  exact ⟨(Nat.le_div_iff_mul_le hpos).mpr (by omega), (Nat.div_lt_iff_lt_mul hpos).mpr (by omega)⟩

end CodeInterval

end DArc
