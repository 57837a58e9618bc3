import DArc.Library.BitFields
import DArc.Library.Words

/-!
# Bit-aligned streams

`OutputBitStream` gathers bits in a word of 32 or 64 bits, and writes the word when it is full.  `InputBitStream` reads
32 bits whenever no more than 32 are left, so it reads beyond the end of what was written; the bytes there are
anything.

### Outline

* `OutputBitStream`, `InputBitStream`: the two streams;
* `OutputBitStream.Holds`: the fields that have been put;
* `InputBitStream.Begins`: the bits that come next.

### Main results

* `OutputBitStream.Holds.putbits`, `OutputBitStream.Holds.begins`: what is put is what comes next in the end;
* `InputBitStream.Begins.needbits`, `InputBitStream.Begins.dumpbits`: the bits that come next are delivered.
-/

namespace DArc.Tornado

/-- `mask`. -/
def mask (x n : ℕ) : ℕ := x &&& (1 <<< n - 1)

/-- The low bits. -/
lemma mask_eq (x n : ℕ) : mask x n = x % 2 ^ n := by
  rw [mask, Nat.one_shiftLeft, Nat.and_two_pow_sub_one_eq_mod]

/-! ## The streams -/

/-- `OutputBitStream`, with the bytes written so far. -/
structure OutputBitStream where
  output : List UInt8
  bitbuf : ℕ
  bitcount : ℕ

namespace OutputBitStream

/-- The constructor. -/
def new : OutputBitStream := ⟨[], 0, 0⟩

/-- `putbits`, with a `bitbuf` of `size` bytes. -/
def putbits (size n x : ℕ) (s : OutputBitStream) : OutputBitStream :=
  let bitbuf := s.bitbuf ||| (x <<< s.bitcount) % 2 ^ (8 * size)
  let bitcount := s.bitcount + n
  if 8 * size ≤ bitcount then
    let bitcount := bitcount - 8 * size
    ⟨s.output ++ leBytes size bitbuf, x >>> (n - bitcount), bitcount⟩
  else ⟨s.output, bitbuf, bitcount⟩

/-- `putlowerbits`. -/
def putlowerbits (size n x : ℕ) (s : OutputBitStream) : OutputBitStream := s.putbits size n (mask x n)

/-- The loop of `finish`. -/
def finishLoop (output : List UInt8) (bitbuf bitcount : ℕ) : List UInt8 :=
  if 0 < bitcount then finishLoop (output ++ [UInt8.ofNat bitbuf]) (bitbuf >>> 8) (bitcount - 8) else output
termination_by bitcount

/-- `finish`. -/
def finish (s : OutputBitStream) : List UInt8 := finishLoop s.output s.bitbuf s.bitcount

end OutputBitStream

/-- `InputBitStream`, with the bytes that are read next. -/
structure InputBitStream where
  input : ℕ → UInt8
  bitbuf : ℕ
  bitcount : ℕ

namespace InputBitStream

/-- The constructor. -/
def new (input : ℕ → UInt8) : InputBitStream := ⟨input, 0, 0⟩

/-- The number that the next `k` bytes spell. -/
def peek (input : ℕ → UInt8) (k : ℕ) : ℕ := leValue ((List.range k).map input)

/-- `needbits`. -/
def needbits (n : ℕ) (s : InputBitStream) : ℕ × InputBitStream :=
  let s := if s.bitcount ≤ 32 then
    { input := fun i => s.input (i + 4), bitbuf := s.bitbuf ||| peek s.input 4 <<< s.bitcount
      bitcount := s.bitcount + 32 } else s
  (mask s.bitbuf n, s)

/-- `dumpbits`. -/
def dumpbits (n : ℕ) (s : InputBitStream) : InputBitStream :=
  { s with bitbuf := s.bitbuf >>> n, bitcount := s.bitcount - n }

/-- `getbits`. -/
def getbits (n : ℕ) (s : InputBitStream) : ℕ × InputBitStream :=
  let (x, s) := s.needbits n
  (x, s.dumpbits n)

end InputBitStream

/-! ## What is put -/

/-- A field that can be put: its value has its bits, and there are less than 32 of them. -/
def FieldOk (field : ℕ × ℕ) : Prop := field.1 < 32 ∧ field.2 < 2 ^ field.1

namespace OutputBitStream

variable {size : ℕ} {s : OutputBitStream} {fields : List (ℕ × ℕ)}

/-- The stream holds some fields, in its bytes and in its word. -/
structure Holds (size : ℕ) (s : OutputBitStream) (fields : List (ℕ × ℕ)) : Prop where
  bits : 8 * s.output.length + s.bitcount = fieldsBits fields
  value : leValue s.output + 2 ^ (8 * s.output.length) * s.bitbuf = fieldsValue fields
  bitbuf_lt : s.bitbuf < 2 ^ s.bitcount
  bitcount_lt : s.bitcount < 8 * size

/-- A new stream holds nothing. -/
lemma holds_new (hsize : 0 < size) : new.Holds size [] := ⟨rfl, rfl, Nat.one_pos, by dsimp only [new]; omega⟩

/-- **A field is put.** The part of it that does not fit into the word goes to the next one. -/
theorem Holds.putbits (h : s.Holds size fields) (hsize : 4 ≤ size) {n x : ℕ} (hfield : FieldOk (n, x)) :
    (s.putbits size n x).Holds size (fields ++ [(n, x)]) := by
  obtain ⟨hbits, hvalue, hbuf, hcount⟩ := h
  obtain ⟨hn, hx⟩ := hfield
  dsimp only at hn hx
  have hlor := lor_shiftLeft_mod hbuf hcount.le x
  unfold OutputBitStream.putbits
  dsimp only
  rw [hlor]
  split
  · next hfull =>
    have hshift : n - (s.bitcount + n - 8 * size) = 8 * size - s.bitcount := by omega
    have hword : s.bitbuf + 2 ^ s.bitcount * (x % 2 ^ (8 * size - s.bitcount)) < 256 ^ size := by
      have hlow : x % 2 ^ (8 * size - s.bitcount) < 2 ^ (8 * size - s.bitcount) := Nat.mod_lt _ (Nat.two_pow_pos _)
      have hpow : 256 ^ size = 2 ^ s.bitcount * 2 ^ (8 * size - s.bitcount) := by
        rw [← pow_add, Nat.add_sub_cancel' hcount.le, pow_mul]
        norm_num
      rw [hpow]
      nlinarith
    have hsplit : 2 ^ s.bitcount * x = 2 ^ s.bitcount * (x % 2 ^ (8 * size - s.bitcount)) +
        2 ^ (8 * size) * (x / 2 ^ (8 * size - s.bitcount)) := by
      have hpow : 2 ^ (8 * size) = 2 ^ s.bitcount * 2 ^ (8 * size - s.bitcount) := by
        rw [← pow_add, Nat.add_sub_cancel' hcount.le]
      rw [hpow, Nat.mul_assoc, ← Nat.mul_add, Nat.mod_add_div]
    refine ⟨?_, ?_, ?_, ?_⟩
    · rw [List.length_append, length_leBytes, fieldsBits_concat, ← hbits]
      dsimp only
      omega
    · dsimp only
      rw [leValue_append, leValue_leBytes_of_lt hword, List.length_append, length_leBytes, fieldsValue_concat, ← hvalue,
        ← hbits, hshift, Nat.shiftRight_eq_div_pow, pow_add 2 _ s.bitcount, Nat.mul_assoc _ _ x, hsplit, Nat.mul_add 8,
        pow_add, show 256 ^ s.output.length = 2 ^ (8 * s.output.length) by rw [pow_mul]; norm_num]
      ring
    · dsimp only
      rw [hshift, Nat.shiftRight_eq_div_pow]
      refine Nat.div_lt_of_lt_mul ?_
      rwa [← pow_add, show 8 * size - s.bitcount + (s.bitcount + n - 8 * size) = n by omega]
    · dsimp only
      omega
  · next hfit =>
    have hlow : x % 2 ^ (8 * size - s.bitcount) = x :=
      Nat.mod_eq_of_lt (hx.trans_le (Nat.pow_le_pow_right Nat.two_pos (by omega)))
    rw [hlow]
    refine ⟨?_, ?_, ?_, ?_⟩
    · rw [fieldsBits_concat, ← hbits]
      dsimp only
      omega
    · dsimp only
      rw [fieldsValue_concat, ← hvalue, ← hbits, pow_add]
      ring
    · dsimp only
      rw [pow_add]
      nlinarith
    · dsimp only
      omega

/-- The bytes of `finish` spell what is left. -/
lemma leValue_finishLoop (output : List UInt8) (bitbuf bitcount : ℕ) (hbuf : bitbuf < 2 ^ bitcount) :
    8 * output.length + bitcount ≤ 8 * (finishLoop output bitbuf bitcount).length ∧
      leValue (finishLoop output bitbuf bitcount) = leValue output + 2 ^ (8 * output.length) * bitbuf := by
  fun_induction finishLoop output bitbuf bitcount with
  | case1 output bitbuf bitcount hpos ih =>
    have hnext : bitbuf >>> 8 < 2 ^ (bitcount - 8) := by
      rw [Nat.shiftRight_eq_div_pow]
      refine Nat.div_lt_of_lt_mul (hbuf.trans_le ?_)
      rw [← pow_add]
      exact Nat.pow_le_pow_right Nat.two_pos (by omega)
    obtain ⟨hlength, hvalue⟩ := ih hnext
    rw [List.length_append, List.length_singleton] at hlength hvalue
    refine ⟨by omega, ?_⟩
    have hbyte : leValue [UInt8.ofNat bitbuf] = bitbuf % 256 := by
      rw [leValue, leValue, UInt8.toNat_ofNat', Nat.mul_zero, Nat.add_zero]
    have hpow : 256 ^ output.length = 2 ^ (8 * output.length) := by rw [pow_mul]; norm_num
    rw [hvalue, leValue_append, hbyte, hpow, Nat.shiftRight_eq_div_pow, Nat.mul_add 8, pow_add, Nat.add_assoc,
      Nat.mul_assoc, ← Nat.mul_add]
    congr 2
    omega
  | case2 output bitbuf bitcount hzero =>
    obtain rfl : bitcount = 0 := by omega
    obtain rfl : bitbuf = 0 := by omega
    exact ⟨le_rfl, by rw [Nat.mul_zero, Nat.add_zero]⟩

end OutputBitStream

/-! ## What comes next -/

namespace InputBitStream

variable {s : InputBitStream} {length x n m : ℕ}

/-- The number that the word and the next `k` bytes spell. -/
def value (s : InputBitStream) (k : ℕ) : ℕ := s.bitbuf + 2 ^ s.bitcount * peek s.input k

/-- The next bits are those of a number. -/
structure Begins (s : InputBitStream) (length x : ℕ) : Prop where
  bitbuf_lt : s.bitbuf < 2 ^ s.bitcount
  value : ∀ k, length ≤ s.bitcount + 8 * k → s.value k % 2 ^ length = x

/-- The next bytes behind some others. -/
lemma peek_add (input : ℕ → UInt8) (j k : ℕ) :
    peek input (j + k) = peek input j + 2 ^ (8 * j) * peek (fun i => input (i + j)) k := by
  have hpow : 256 ^ j = 2 ^ (8 * j) := by rw [pow_mul]; norm_num
  rw [peek, List.range_add, List.map_append, leValue_append, List.length_map, List.length_range, hpow, List.map_map]
  simp only [peek, Function.comp_def, Nat.add_comm j]

/-- The first bits do not depend on the bytes behind them. -/
lemma peek_add_mod (input : ℕ → UInt8) {j : ℕ} (h : length ≤ 8 * j) (k : ℕ) :
    peek input (j + k) % 2 ^ length = peek input j % 2 ^ length := by
  obtain ⟨d, hd⟩ := Nat.exists_eq_add_of_le h
  rw [peek_add, hd, pow_add, Nat.mul_assoc, Nat.add_mul_mod_self_left]

/-- **The bits that come next are delivered.** More of them can be asked for than are known. -/
theorem Begins.needbits (h : s.Begins length x) (hn : n ≤ length) (hnm : n ≤ m) (hm : m ≤ 32) :
    (s.needbits m).1 % 2 ^ n = x % 2 ^ n ∧ (s.needbits m).2.Begins length x ∧ m ≤ (s.needbits m).2.bitcount := by
  obtain ⟨hbuf, hvalue⟩ := h
  -- the word is filled
  obtain ⟨t, ht, hcount, htbuf, htvalue⟩ : ∃ t, s.needbits m = (mask t.bitbuf m, t) ∧ 32 ≤ t.bitcount ∧
      t.bitbuf < 2 ^ t.bitcount ∧ ∀ k, length ≤ t.bitcount + 8 * k → t.value k % 2 ^ length = x := by
    refine ⟨_, rfl, ?_⟩
    split
    · have hfour : peek s.input 4 < 2 ^ 32 := by
        have hlt := leValue_lt ((List.range 4).map s.input)
        rwa [List.length_map, List.length_range, show 256 ^ 4 = 2 ^ 32 by norm_num] at hlt
      dsimp only
      rw [lor_shiftLeft hbuf]
      refine ⟨Nat.le_add_left _ _, ?_, fun k hk => ?_⟩
      · rw [pow_add]
        nlinarith
      · rw [← hvalue (4 + k) (by omega), InputBitStream.value, InputBitStream.value, peek_add]
        dsimp only
        rw [pow_add]
        congr 1
        ring
    · next hle => exact ⟨by omega, hbuf, hvalue⟩
  rw [ht]
  refine ⟨?_, ⟨htbuf, htvalue⟩, hm.trans hcount⟩
  have hlow := htvalue length (by omega)
  have hbits : t.value length % 2 ^ n = t.bitbuf % 2 ^ n := by
    obtain ⟨d, hd⟩ := Nat.exists_eq_add_of_le ((hnm.trans hm).trans hcount)
    rw [InputBitStream.value, hd, pow_add, Nat.mul_assoc, Nat.add_mul_mod_self_left]
  dsimp only
  rw [mask_eq, Nat.mod_mod_of_dvd _ (Nat.pow_dvd_pow 2 hnm), ← hbits, ← hlow,
    Nat.mod_mod_of_dvd _ (Nat.pow_dvd_pow 2 hn)]

/-- **Bits are thrown out.** -/
theorem Begins.dumpbits (h : s.Begins length x) (hn : n ≤ length) (hcount : n ≤ s.bitcount) :
    (s.dumpbits n).Begins (length - n) (x / 2 ^ n) := by
  obtain ⟨hbuf, hvalue⟩ := h
  obtain ⟨d, hd⟩ := Nat.exists_eq_add_of_le hcount
  obtain ⟨e, rfl⟩ := Nat.exists_eq_add_of_le hn
  refine ⟨?_, fun k hk => ?_⟩
  · dsimp only [InputBitStream.dumpbits]
    rw [Nat.shiftRight_eq_div_pow]
    refine Nat.div_lt_of_lt_mul ?_
    rwa [← pow_add, Nat.add_sub_cancel' hcount]
  · dsimp only [InputBitStream.dumpbits] at hk
    have hdiv : (s.dumpbits n).value k = s.value k / 2 ^ n := by
      dsimp only [InputBitStream.dumpbits, InputBitStream.value]
      rw [hd, Nat.add_sub_cancel_left, pow_add, Nat.mul_assoc, Nat.add_mul_div_left _ _ (Nat.two_pow_pos n),
        Nat.shiftRight_eq_div_pow]
    rw [hdiv, ← hvalue k (by omega), Nat.add_sub_cancel_left, pow_add, Nat.mod_mul_right_div_self]

/-- The next field is read. -/
lemma Begins.getbits {fields : List (ℕ × ℕ)} (hfield : FieldOk (n, x))
    (h : s.Begins (fieldsBits ((n, x) :: fields)) (fieldsValue ((n, x) :: fields))) :
    (s.getbits n).1 = x ∧ (s.getbits n).2.Begins (fieldsBits fields) (fieldsValue fields) := by
  obtain ⟨hn, hx⟩ := hfield
  dsimp only at hn hx
  rw [fieldsBits_cons, fieldsValue_cons] at h
  obtain ⟨hbits, hbegins, hcount⟩ := h.needbits (Nat.le_add_right _ _) le_rfl hn.le
  refine ⟨?_, ?_⟩
  · rw [Nat.add_mul_mod_self_left, Nat.mod_eq_of_lt hx] at hbits
    rw [← hbits, InputBitStream.getbits]
    dsimp only [InputBitStream.needbits]
    rw [mask_eq, Nat.mod_mod]
  · have hdump := hbegins.dumpbits (Nat.le_add_right _ _) hcount
    rwa [Nat.add_sub_cancel_left, Nat.add_mul_div_left _ _ (Nat.two_pow_pos n), Nat.div_eq_of_lt hx, Nat.zero_add]
      at hdump

end InputBitStream

/-- **What was put comes next.** Behind the bytes written there is anything. -/
theorem OutputBitStream.Holds.begins {size : ℕ} {s : OutputBitStream} {fields : List (ℕ × ℕ)}
    (h : s.Holds size fields) (hfields : ∀ field ∈ fields, FieldOk field) {input : ℕ → UInt8}
    (hinput : ∀ i (hi : i < s.finish.length), input i = s.finish[i]) :
    (InputBitStream.new input).Begins (fieldsBits fields) (fieldsValue fields) := by
  obtain ⟨hlength, hvalue⟩ := OutputBitStream.leValue_finishLoop s.output s.bitbuf s.bitcount h.bitbuf_lt
  change _ ≤ 8 * s.finish.length at hlength
  change leValue s.finish = _ at hvalue
  rw [h.bits] at hlength
  rw [h.value] at hvalue
  have hlt := fieldsValue_lt fun field hfield => (hfields field hfield).2
  have hfront : InputBitStream.peek input s.finish.length = fieldsValue fields := by
    rw [← hvalue, InputBitStream.peek]
    congr 1
    refine List.ext_getElem (by rw [List.length_map, List.length_range]) fun i hi hi' => ?_
    rw [List.getElem_map, List.getElem_range, hinput i hi']
  refine ⟨Nat.one_pos, fun k hk => ?_⟩
  dsimp only [InputBitStream.new, InputBitStream.value] at hk ⊢
  rw [pow_zero, Nat.one_mul, Nat.zero_add]
  rw [Nat.zero_add] at hk
  have hmod : InputBitStream.peek input k % 2 ^ fieldsBits fields = fieldsValue fields % 2 ^ fieldsBits fields := by
    rw [← hfront]
    rcases Nat.le_total k s.finish.length with hle | hle
    · obtain ⟨d, hd⟩ := Nat.exists_eq_add_of_le hle
      rw [hd, InputBitStream.peek_add_mod input hk]
    · obtain ⟨d, rfl⟩ := Nat.exists_eq_add_of_le hle
      exact InputBitStream.peek_add_mod input hlength d
  rw [hmod, Nat.mod_eq_of_lt hlt]

end DArc.Tornado
