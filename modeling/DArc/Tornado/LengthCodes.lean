import Mathlib.Data.List.GetD
import Mathlib.Tactic

/-!
# Codes for lengths and distances

A length or a distance is coded by the code of an interval that it is in, and by its place in the interval.  The
intervals follow from the numbers of bits for the place.  The code of a value is looked up in a table; for distances
the table has an entry for each value up to 512, then one for each 256 values, then one for each 65536.

### Outline

* `VLE`: the table, and the first value and the number of bits of each code;
* `lc`, `lc2`, `dc`: the codes of lengths and of distances;
* `VLE.Right`: an entry of the table is the code of an interval that a value is in.

### Main results

* `LengthCoder.right`, `DistanceCoder.right`: the code of a value is that of its interval.
-/

namespace DArc.Tornado

/-- `VLE_SIZE`. -/
def vleSize : ℕ := 1024 + 16384 + 1

/-- `VLE`. -/
structure VLE where
  xcode : ℕ → ℕ
  xextraBits : List ℕ
  xbaseValue : List ℕ

namespace VLE

/-- `extra_bits`. -/
def extraBits (t : VLE) (code : ℕ) : ℕ := t.xextraBits.getD code 0

/-- `base_value`. -/
def baseValue (t : VLE) (code : ℕ) : ℕ := t.xbaseValue.getD code 0

/-- No code; the table is static memory. -/
def empty : VLE := ⟨fun _ => 0, [], []⟩

/-- One more code, for `count` entries of the table. -/
def add (t : VLE) (start count base bits : ℕ) : VLE where
  xcode := fun i => if start ≤ i ∧ i < start + count then t.xextraBits.length else t.xcode i
  xextraBits := t.xextraBits ++ [bits]
  xbaseValue := t.xbaseValue ++ [base]

/-- A turn of the loop of the constructor: the table is not filled beyond its end. -/
def addNext (t : VLE × ℕ) (bits : ℕ) : VLE × ℕ :=
  let count := min (2 ^ bits) (vleSize - t.2)
  (t.1.add t.2 count t.2 bits, t.2 + count)

/-- The constructor. -/
def new (extraBits : List ℕ) : VLE := (extraBits.foldl addNext (empty, 0)).1

/-- `code`. -/
def code (t : VLE) (value : ℕ) : ℕ := t.xcode value

/-- The place of a value in an interval. -/
structure In (t : VLE) (code value : ℕ) : Prop where
  code_lt : code < t.xextraBits.length
  le : t.baseValue code ≤ value
  lt : value < t.baseValue code + 2 ^ t.extraBits code

/-- An entry of the table is the code of an interval that a value is in. -/
def Right (t : VLE) (i value : ℕ) : Prop := t.In (t.xcode i) value

variable {t : VLE} {i value start count base bits : ℕ}

/-- As many codes have a first value as have bits. -/
def Paired (t : VLE) : Prop := t.xbaseValue.length = t.xextraBits.length

/-- Codes are added with both. -/
lemma Paired.add (h : t.Paired) (start count base bits : ℕ) : (t.add start count base bits).Paired := by
  rw [Paired, VLE.add, List.length_append, List.length_append, h]
  rfl

/-- The first value and the bits of a code do not change. -/
lemma In.add {code : ℕ} (hpaired : t.Paired) (h : t.In code value) : (t.add start count base bits).In code value := by
  obtain ⟨hlt, hle, hvalue⟩ := h
  have hbase : (t.add start count base bits).baseValue code = t.baseValue code :=
    List.getD_append _ _ _ _ (hpaired.symm ▸ hlt)
  have hbits : (t.add start count base bits).extraBits code = t.extraBits code := List.getD_append _ _ _ _ hlt
  refine ⟨?_, ?_, ?_⟩
  · rw [VLE.add, List.length_append]
    exact Nat.lt_add_right _ hlt
  · rwa [hbase]
  · rwa [hbase, hbits]

/-- The entries of the new code. -/
lemma right_add (hpaired : t.Paired) (hi : start ≤ i ∧ i < start + count)
    (hvalue : base ≤ value ∧ value < base + 2 ^ bits) :
    (t.add start count base bits).Right i value := by
  have hbase : (t.add start count base bits).baseValue t.xextraBits.length = base := by
    rw [VLE.add, baseValue, ← hpaired, List.getD_append_right _ _ _ _ le_rfl, Nat.sub_self]
    rfl
  have hbits : (t.add start count base bits).extraBits t.xextraBits.length = bits := by
    rw [VLE.add, extraBits, List.getD_append_right _ _ _ _ le_rfl, Nat.sub_self]
    rfl
  rw [Right, show (t.add start count base bits).xcode i = t.xextraBits.length from if_pos hi]
  refine ⟨?_, ?_, ?_⟩
  · rw [VLE.add, List.length_append]
    exact Nat.lt_succ_self _
  · rw [hbase]
    exact hvalue.1
  · rw [hbase, hbits]
    exact hvalue.2

/-- The other entries. -/
lemma Right.add (hpaired : t.Paired) (h : t.Right i value) (hi : ¬(start ≤ i ∧ i < start + count)) :
    (t.add start count base bits).Right i value := by
  rw [Right, show (t.add start count base bits).xcode i = t.xcode i from if_neg hi]
  exact In.add hpaired h

/-- **The constructor fills the table** with the codes of the intervals that its values are in. -/
theorem right_new (codes : List ℕ) :
    (codes.foldl addNext (empty, 0)).1.Paired ∧
      ∀ value < (codes.foldl addNext (empty, 0)).2, (codes.foldl addNext (empty, 0)).1.Right value value := by
  induction codes using List.reverseRecOn with
  | nil => exact ⟨rfl, fun value h => absurd h (Nat.not_lt_zero _)⟩
  | append_singleton codes bits ih =>
    rw [List.foldl_append]
    change ((codes.foldl addNext (empty, 0)).1.add _ _ _ _).Paired ∧ _
    set s := codes.foldl addNext (empty, 0)
    refine ⟨ih.1.add _ _ _ _, fun value h => ?_⟩
    change (s.1.add s.2 (min (2 ^ bits) (vleSize - s.2)) s.2 bits).Right value value
    change value < s.2 + min (2 ^ bits) (vleSize - s.2) at h
    rcases Nat.lt_or_ge value s.2 with hlt | hge
    · exact Right.add ih.1 (ih.2 value hlt) (by omega)
    · exact right_add ih.1 ⟨hge, h⟩ ⟨hge, h.trans_le (Nat.add_le_add_left (min_le_left _ _) _)⟩

end VLE

/-! ## Lengths -/

/-- `extra_lbits`. -/
def extraLbits : List ℕ := [0, 0, 0, 1, 2, 4, 8, 30]

/-- `extra_lbits2`. -/
def extraLbits2 : List ℕ := [0, 0, 0, 0, 0, 0, 0, 1, 1, 2, 2, 3, 3, 4, 8, 30]

/-- `code` of `LengthCoder`, for codes with these bits. -/
def LengthCoder.code (extraBits : List ℕ) (length : ℕ) : ℕ :=
  if 600 < length then extraBits.length - 1 else (VLE.new extraBits).code length

/-- `lc`. -/
def lc : VLE := .new extraLbits

/-- `lc2`. -/
def lc2 : VLE := .new extraLbits2

/-- The code of a length is that of its interval, if the table has an entry for each length that is looked up, and the
last code is for all others. -/
lemma LengthCoder.right {extraBits : List ℕ} {bound : ℕ} (htable : 600 < (extraBits.foldl VLE.addNext (.empty, 0)).2)
    (hlast : (VLE.new extraBits).baseValue (extraBits.length - 1) ≤ 600)
    (hlength : extraBits.length - 1 < (VLE.new extraBits).xextraBits.length)
    (hbound : bound ≤ (VLE.new extraBits).baseValue (extraBits.length - 1) +
      2 ^ (VLE.new extraBits).extraBits (extraBits.length - 1)) {length : ℕ} (h : length < bound) :
    (VLE.new extraBits).In (code extraBits length) length := by
  unfold code
  split
  · next hlong => exact ⟨hlength, hlast.trans hlong.le, h.trans_le hbound⟩
  · next hshort => exact (VLE.right_new extraBits).2 length (by omega)

/-- The code of a length for the bit coder. -/
lemma lc_right {length : ℕ} (h : length < 2 ^ 30) : lc.In (LengthCoder.code extraLbits length) length :=
  LengthCoder.right (by decide) (by decide) (by decide) (by decide) h

/-- The code of a length for the coders of symbols. -/
lemma lc2_right {length : ℕ} (h : length < 2 ^ 30 + 300) : lc2.In (LengthCoder.code extraLbits2 length) length :=
  LengthCoder.right (by decide) (by decide) (by decide) (by decide) h

/-! ## Distances -/

/-- `extra_dbits`. -/
def extraDbits : List ℕ :=
  [4, 4, 5, 5, 5, 6, 6, 7, 7, 8, 8, 9, 9, 10, 10, 11, 11, 12, 12, 13, 13, 14, 14, 15, 15, 16, 17, 18, 19, 21, 23, 30]

namespace DistanceCoder

/-- A turn of one of the loops of the constructor, where the distances are divided by `2 ^ shift` and the entries start
at `first`. -/
def addNext (first shift : ℕ) (t : VLE × ℕ) (bits : ℕ) : VLE × ℕ :=
  (t.1.add (first + t.2) (2 ^ (bits - shift)) (t.2 <<< shift) bits, t.2 + 2 ^ (bits - shift))

/-- The first two loops, which end at the distance 512. -/
def fill (first shift : ℕ) : VLE × ℕ → List ℕ → (VLE × ℕ) × List ℕ
  | t, [] => (t, [])
  | t, bits :: codes => if t.2 < 512 then fill first shift (addNext first shift t bits) codes else (t, bits :: codes)

/-- A turn of the last loop, which does not go beyond the end of the table. -/
def addLast (t : VLE × ℕ) (bits : ℕ) : VLE × ℕ :=
  let count := min (2 ^ (bits - 16)) (vleSize - (1024 + t.2))
  (t.1.add (1024 + t.2) count (t.2 <<< 16) bits, t.2 + count)

/-- The table behind each of the loops, and the codes that are left. -/
def new (extraBits : List ℕ) : VLE :=
  let (t, codes) := fill 0 0 (.empty, 0) extraBits
  let (t, codes) := fill 512 8 (t.1, t.2 >>> 8) codes
  (codes.foldl addLast (t.1, t.2 >>> 8)).1

/-- The entry of a distance. -/
def slot (distance : ℕ) : ℕ :=
  if distance < 512 then distance
  else if distance < 512 * 256 then 512 + distance >>> 8
  else 1024 + distance >>> 16

/-- `code`. -/
def code (t : VLE) (distance : ℕ) : ℕ := t.xcode (slot distance)

/-- The entries of the distances from `2 ^ shift * low` on have been filled. -/
def Filled (first shift low : ℕ) (t : VLE × ℕ) : Prop :=
  ∀ value, low ≤ value / 2 ^ shift → value / 2 ^ shift < t.2 → t.1.Right (first + value / 2 ^ shift) value

variable {first shift low : ℕ} {t : VLE × ℕ} {bits : ℕ}

/-- The entries of one more code are filled. -/
lemma Filled.add (h : Filled first shift low t) (hpaired : t.1.Paired) {count : ℕ} (hshift : shift ≤ bits)
    (hcount : count ≤ 2 ^ (bits - shift)) :
    Filled first shift low (t.1.add (first + t.2) count (t.2 <<< shift) bits, t.2 + count) := by
  intro value hlow hvalue
  dsimp only at hvalue ⊢
  rcases Nat.lt_or_ge (value / 2 ^ shift) t.2 with hlt | hge
  · exact VLE.Right.add hpaired (h value hlow hlt) (by omega)
  · refine VLE.right_add hpaired (by omega) ?_
    rw [Nat.shiftLeft_eq]
    refine ⟨(Nat.le_div_iff_mul_le (Nat.two_pow_pos _)).mp hge, ?_⟩
    have hlt : value / 2 ^ shift < t.2 + 2 ^ (bits - shift) := by omega
    rw [Nat.div_lt_iff_lt_mul (Nat.two_pow_pos _), Nat.add_mul, ← pow_add, Nat.sub_add_cancel hshift] at hlt
    exact hlt

/-- Entries in front of those that are filled stay as they are. -/
lemma right_add_of_lt {i value count base : ℕ} (h : t.1.Right i value) (hpaired : t.1.Paired) (hi : i < first) :
    (t.1.add (first + t.2) count base bits).Right i value :=
  VLE.Right.add hpaired h (by omega)

/-- One of the first two loops. -/
lemma Filled.fill (hpaired : t.1.Paired) {codes : List ℕ} (hcodes : ∀ bits ∈ codes, shift ≤ bits)
    (h : Filled first shift low t) :
    (DistanceCoder.fill first shift t codes).1.1.Paired ∧
      Filled first shift low (DistanceCoder.fill first shift t codes).1 ∧
      ∀ i value, i < first → t.1.Right i value → (DistanceCoder.fill first shift t codes).1.1.Right i value := by
  induction codes generalizing t with
  | nil => exact ⟨hpaired, h, fun _ _ _ hright => hright⟩
  | cons bits codes ih =>
    rw [DistanceCoder.fill]
    split
    · obtain ⟨hpaired', hfilled, hkept⟩ := ih (t := addNext first shift t bits) (hpaired.add _ _ _ _)
        (fun b hb => hcodes b (List.mem_cons_of_mem _ hb)) (h.add hpaired (hcodes bits List.mem_cons_self) le_rfl)
      exact ⟨hpaired', hfilled, fun i value hi hright => hkept i value hi (right_add_of_lt hright hpaired hi)⟩
    · exact ⟨hpaired, h, fun _ _ _ hright => hright⟩

/-- The last loop. -/
lemma Filled.last (hpaired : t.1.Paired) {codes : List ℕ} (hcodes : ∀ bits ∈ codes, 16 ≤ bits)
    (h : Filled 1024 16 low t) :
    Filled 1024 16 low (codes.foldl addLast t) ∧
      ∀ i value, i < 1024 → t.1.Right i value → (codes.foldl addLast t).1.Right i value := by
  induction codes generalizing t with
  | nil => exact ⟨h, fun _ _ _ hright => hright⟩
  | cons bits codes ih =>
    obtain ⟨hfilled, hkept⟩ := ih (t := addLast t bits) (hpaired.add _ _ _ _)
      (fun b hb => hcodes b (List.mem_cons_of_mem _ hb))
      (h.add hpaired (hcodes bits List.mem_cons_self) (min_le_left _ _))
    exact ⟨hfilled, fun i value hi hright => hkept i value hi (right_add_of_lt hright hpaired hi)⟩

end DistanceCoder

/-- `dc`. -/
def dc : VLE := DistanceCoder.new extraDbits

namespace DistanceCoder

/-- The codes for distances from 512 on, and those for distances from `512 * 256` on. -/
lemma fill_codes :
    (fill 0 0 (.empty, 0) extraDbits).1.2 = 512 ∧ (fill 0 0 (.empty, 0) extraDbits).2 = extraDbits.drop 9 ∧
      (fill 512 8 ((fill 0 0 (.empty, 0) extraDbits).1.1, 2) (extraDbits.drop 9)).1.2 = 512 ∧
      (fill 512 8 ((fill 0 0 (.empty, 0) extraDbits).1.1, 2) (extraDbits.drop 9)).2 = extraDbits.drop 25 := by
  decide

/-- **The code of a distance** below 1 Gb is that of its interval. -/
theorem right {distance : ℕ} (h : distance < 2 ^ 30) : dc.In (code dc distance) distance := by
  obtain ⟨hend, hcodes, hend', hcodes'⟩ := fill_codes
  obtain ⟨hpaired, hfilled, -⟩ := @Filled.fill 0 0 0 (.empty, 0) rfl extraDbits (fun _ _ => Nat.zero_le _)
    fun value _ hvalue => absurd hvalue (Nat.not_lt_zero _)
  obtain ⟨hpaired', hfilled', hkept⟩ := @Filled.fill 512 8 2 ((fill 0 0 (.empty, 0) extraDbits).1.1, 2) hpaired
    (extraDbits.drop 9) (by decide) fun value hlow hvalue => by dsimp only at hvalue; omega
  obtain ⟨hfilled'', hkept'⟩ := @Filled.last 2
    ((fill 512 8 ((fill 0 0 (.empty, 0) extraDbits).1.1, 2) (extraDbits.drop 9)).1.1, 2) hpaired'
    (extraDbits.drop 25) (by decide) fun value hlow hvalue => by dsimp only at hvalue; omega
  have hdc : dc = ((extraDbits.drop 25).foldl addLast
      ((fill 512 8 ((fill 0 0 (.empty, 0) extraDbits).1.1, 2) (extraDbits.drop 9)).1.1, 2)).1 := by
    rw [dc, new]
    dsimp only
    rw [hend, hcodes]
    rw [show 512 >>> 8 = 2 from rfl, hend', hcodes']
    rfl
  change dc.Right (slot distance) distance
  rw [slot, hdc, Nat.shiftRight_eq_div_pow, Nat.shiftRight_eq_div_pow]
  split
  · next hshort =>
    refine hkept' _ _ (by omega) (hkept _ _ hshort ?_)
    have hright := hfilled distance (Nat.zero_le _) (by rw [hend, pow_zero, Nat.div_one]; exact hshort)
    rwa [pow_zero, Nat.div_one, Nat.zero_add] at hright
  · split
    · next hlong hmiddle =>
      refine hkept' _ _ (by omega) (hfilled' distance (by omega) ?_)
      rw [hend']
      omega
    · next hlong =>
      refine hfilled'' distance (by omega) ?_
      have hlast : ((extraDbits.drop 25).foldl addLast
          ((fill 512 8 ((fill 0 0 (.empty, 0) extraDbits).1.1, 2) (extraDbits.drop 9)).1.1, 2)).2 = 16385 := by
        decide
      rw [hlast]
      omega

end DistanceCoder

end DArc.Tornado
