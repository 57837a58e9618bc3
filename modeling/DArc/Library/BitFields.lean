import Mathlib.Data.Nat.Bitwise
import Mathlib.Tactic

/-!
# Fields of bits

Fields of bits behind each other are a number whose low bits are the first field.

### Outline

* `fieldsBits`, `fieldsValue`: the bits of some fields, and their number;
* `lor_shiftLeft_mod`: a field that is put into a word, as far as it fits.
-/

namespace DArc

/-- The number of bits of some fields. -/
def fieldsBits (fields : List (ℕ × ℕ)) : ℕ := (fields.map Prod.fst).sum

/-- The number that some fields make, each of them a number of bits and its value. -/
def fieldsValue : List (ℕ × ℕ) → ℕ
  | [] => 0
  | (n, x) :: fields => x + 2 ^ n * fieldsValue fields

@[simp] lemma fieldsBits_nil : fieldsBits [] = 0 := rfl

@[simp] lemma fieldsValue_nil : fieldsValue [] = 0 := rfl

@[simp] lemma fieldsBits_cons (n x : ℕ) (fields : List (ℕ × ℕ)) :
    fieldsBits ((n, x) :: fields) = n + fieldsBits fields := by
  rw [fieldsBits, List.map_cons, List.sum_cons, fieldsBits]

@[simp] lemma fieldsValue_cons (n x : ℕ) (fields : List (ℕ × ℕ)) :
    fieldsValue ((n, x) :: fields) = x + 2 ^ n * fieldsValue fields := rfl

/-- The bits of one more field. -/
lemma fieldsBits_concat (fields : List (ℕ × ℕ)) (n x : ℕ) :
    fieldsBits (fields ++ [(n, x)]) = fieldsBits fields + n := by
  rw [fieldsBits, List.map_append, List.sum_append, fieldsBits]
  rfl

/-- The number with one more field. -/
lemma fieldsValue_concat (fields : List (ℕ × ℕ)) (n x : ℕ) :
    fieldsValue (fields ++ [(n, x)]) = fieldsValue fields + 2 ^ fieldsBits fields * x := by
  induction fields with
  | nil => simp
  | cons field fields ih =>
    obtain ⟨m, y⟩ := field
    rw [List.cons_append, fieldsValue_cons, ih, fieldsValue_cons, fieldsBits_cons, pow_add]
    ring

/-- The number has the bits of its fields. -/
lemma fieldsValue_lt {fields : List (ℕ × ℕ)} (h : ∀ field ∈ fields, field.2 < 2 ^ field.1) :
    fieldsValue fields < 2 ^ fieldsBits fields := by
  induction fields with
  | nil => exact Nat.one_pos
  | cons field fields ih =>
    obtain ⟨n, x⟩ := field
    have hx : x < 2 ^ n := h (n, x) List.mem_cons_self
    have hlt := ih fun field hfield => h field (List.mem_cons_of_mem _ hfield)
    rw [fieldsValue_cons, fieldsBits_cons, pow_add]
    calc x + 2 ^ n * fieldsValue fields < 2 ^ n + 2 ^ n * fieldsValue fields := Nat.add_lt_add_right hx _
      _ = 2 ^ n * (fieldsValue fields + 1) := by ring
      _ ≤ 2 ^ n * 2 ^ fieldsBits fields := Nat.mul_le_mul_left _ hlt

/-- A field above the bits that are there. -/
lemma lor_shiftLeft {buf count : ℕ} (hbuf : buf < 2 ^ count) (x : ℕ) : buf ||| x <<< count = buf + 2 ^ count * x := by
  rw [Nat.lor_comm, ← Nat.shiftLeft_add_eq_or_of_lt hbuf, Nat.shiftLeft_eq, Nat.add_comm, Nat.mul_comm]

/-- A field that is put into a word above the bits that are there, as far as it fits. -/
lemma lor_shiftLeft_mod {buf count width : ℕ} (hbuf : buf < 2 ^ count) (hle : count ≤ width) (x : ℕ) :
    buf ||| (x <<< count) % 2 ^ width = buf + 2 ^ count * (x % 2 ^ (width - count)) := by
  have hsplit : 2 ^ width = 2 ^ count * 2 ^ (width - count) := by rw [← pow_add, Nat.add_sub_cancel' hle]
  have hmod : (x <<< count) % 2 ^ width = (x % 2 ^ (width - count)) <<< count := by
    rw [Nat.shiftLeft_eq, Nat.shiftLeft_eq, Nat.mul_comm x, Nat.mul_comm _ (2 ^ count), hsplit, Nat.mul_mod_mul_left]
  rw [hmod, lor_shiftLeft hbuf]

end DArc
