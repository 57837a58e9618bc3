import DArc.Library.ShiftRegister
import DArc.Library.Words

/-!
# The CRC of files

`UpdateCRC` takes eight bytes at a time through eight tables, and the bytes that are left through the
first of them.  Both are clocks of one shift register, so it is the fold of a step for single bytes.

### Main results

* `crcTab8_eq`: the tables hold the bytes followed by zeros;
* `updateCRC_eq_foldl`: eight bytes at a time are the same as one;
* `updateCRC_append`: the CRC of two parts is updated part after part;
* `updateCRC_correct`: all of this, down to single bits;
* `updateCRC_residue`: the register behind data with their CRC does not depend on the data.
-/

namespace DArc.Environment

/-- The CRC of a file. -/
abbrev CRC := BitVec 32

/-- The value a computation starts with. -/
def initCRC : CRC := 0xffffffff#32

/-- The feedback of the register. -/
def polynomial : CRC := 0xEDB88320#32

/-- The table that `InitCRC` fills. -/
def crcTab (i : BitVec 8) : CRC := (clock polynomial)^[8] (i.setWidth 32)

/-- The tables that `InitCRCSlice8` fills. -/
def crcTab8 : ℕ → BitVec 8 → CRC
  | 0, i => crcTab i
  | k + 1, i =>
    let c := crcTab8 k i
    crcTab ((c &&& 0xff).setWidth 8) ^^^ (c >>> 8)

/-- One byte in the loop at the end of `UpdateCRC`. -/
def updateByte (crc : CRC) (d : UInt8) : CRC :=
  crcTab ((crc ^^^ d.toBitVec.setWidth 32).setWidth 8) ^^^ (crc >>> 8)

/-- Four bytes, read as a number with the lowest byte first. -/
def word (d₀ d₁ d₂ d₃ : UInt8) : BitVec 32 :=
  (d₃.toBitVec ++ d₂.toBitVec ++ d₁.toBitVec ++ d₀.toBitVec : BitVec (8 + 8 + 8 + 8))

/-- Updates the CRC with the bytes at `Addr`. -/
def updateCRC : List UInt8 → CRC → CRC
  | d₀ :: d₁ :: d₂ :: d₃ :: d₄ :: d₅ :: d₆ :: d₇ :: data, crc =>
    let lo := crc ^^^ word d₀ d₁ d₂ d₃
    let hi := word d₄ d₅ d₆ d₇
    updateCRC data
      (crcTab8 7 ((lo &&& 0xff).setWidth 8)
        ^^^ crcTab8 6 (((lo >>> 8) &&& 0xff).setWidth 8)
        ^^^ crcTab8 5 (((lo >>> 16) &&& 0xff).setWidth 8)
        ^^^ crcTab8 4 ((lo >>> 24).setWidth 8)
        ^^^ crcTab8 3 ((hi &&& 0xff).setWidth 8)
        ^^^ crcTab8 2 (((hi >>> 8) &&& 0xff).setWidth 8)
        ^^^ crcTab8 1 (((hi >>> 16) &&& 0xff).setWidth 8)
        ^^^ crcTab8 0 ((hi >>> 24).setWidth 8))
  | data, crc => data.foldl updateByte crc

/-- The CRC of a block of data. -/
def calcCRC (data : List UInt8) : CRC := updateCRC data initCRC ^^^ initCRC

/-! ## The tables -/

/-- Masking keeps the lowest byte. -/
lemma setWidth_and_ff (x : BitVec 32) : (x &&& 0xff).setWidth 8 = x.setWidth 8 := by
  have hmask : BitVec.setWidth 8 (0xff : BitVec 32) = BitVec.allOnes 8 := rfl
  rw [BitVec.setWidth_and, hmask, BitVec.and_allOnes]

/-- Eight clocks take the lowest byte through the table. -/
lemma clock_byte (x : CRC) :
    (clock polynomial)^[8] x = crcTab (x.setWidth 8) ^^^ (x >>> 8) := by
  have h := clock_iterate_split polynomial 0 x
  rwa [byteAt, Nat.mul_zero, BitVec.ushiftRight_zero] at h

/-- The table `k` holds the bytes followed by `k` zero bytes. -/
lemma crcTab8_eq (k : ℕ) (i : BitVec 8) :
    crcTab8 k i = (clock polynomial)^[8 * (k + 1)] (i.setWidth 32) := by
  induction k with
  | zero => rfl
  | succ k ih =>
    rw [crcTab8, setWidth_and_ff, ← clock_byte, ih, ← Function.iterate_add_apply,
      Nat.mul_succ 8 (k + 1), Nat.add_comm]

/-- A byte is added to the register, which is then clocked eight times. -/
lemma updateByte_eq (crc : CRC) (d : UInt8) :
    updateByte crc d = (clock polynomial)^[8] (crc ^^^ d.toBitVec.setWidth 32) := by
  have hhigh : (crc ^^^ d.toBitVec.setWidth 32) >>> 8 = crc >>> 8 := by
    have hd : d.toBitVec.setWidth 32 >>> 8 = 0#32 := by
      apply BitVec.eq_of_getLsbD_eq
      intro i _
      simp
    rw [BitVec.ushiftRight_xor_distrib, hd, BitVec.xor_zero]
  rw [clock_byte, hhigh, updateByte]

/-! ## Eight bytes at a time -/

/-- Thirty-two clocks take every byte of the register through a table. -/
lemma clock_word (m : ℕ) (x : CRC) :
    (clock polynomial)^[m + 32] x =
      (clock polynomial)^[m + 32] ((byteAt 0 x).setWidth 32) ^^^
        (clock polynomial)^[m + 24] ((byteAt 1 x).setWidth 32) ^^^
        (clock polynomial)^[m + 16] ((byteAt 2 x).setWidth 32) ^^^
        (clock polynomial)^[m + 8] ((byteAt 3 x).setWidth 32) := by
  have hzero : x >>> 8 >>> 8 >>> 8 >>> 8 = 0#32 := by
    apply BitVec.eq_of_getLsbD_eq
    intro i hi
    simp only [BitVec.getLsbD_ushiftRight, BitVec.getLsbD_zero]
    exact BitVec.getLsbD_of_ge _ _ (by omega)
  have hlast : ∀ n, (clock polynomial)^[n] 0#32 = 0#32 := fun n => by
    rw [clock_iterate_of_low polynomial fun i _ => BitVec.getLsbD_zero, BitVec.zero_ushiftRight]
  rw [clock_iterate_split polynomial (m + 24) x, clock_iterate_split polynomial (m + 16) (x >>> 8),
    clock_iterate_split polynomial (m + 8) (x >>> 8 >>> 8),
    clock_iterate_split polynomial m (x >>> 8 >>> 8 >>> 8), hzero, hlast, BitVec.xor_zero,
    byteAt_ushiftRight, byteAt_ushiftRight, byteAt_ushiftRight, byteAt_ushiftRight,
    byteAt_ushiftRight, byteAt_ushiftRight, BitVec.xor_assoc, BitVec.xor_assoc]

/-- The bytes of a word. -/
lemma byteAt_word (d₀ d₁ d₂ d₃ : UInt8) :
    byteAt 0 (word d₀ d₁ d₂ d₃) = d₀.toBitVec ∧ byteAt 1 (word d₀ d₁ d₂ d₃) = d₁.toBitVec ∧
      byteAt 2 (word d₀ d₁ d₂ d₃) = d₂.toBitVec ∧ byteAt 3 (word d₀ d₁ d₂ d₃) = d₃.toBitVec := by
  refine ⟨?_, ?_, ?_, ?_⟩ <;>
  · apply BitVec.eq_of_getLsbD_eq
    intro i hi
    simp only [byteAt, word, BitVec.getLsbD_setWidth, BitVec.getLsbD_ushiftRight,
      BitVec.getLsbD_append]
    interval_cases i <;> simp

/-- Four bytes one after another are one word. -/
lemma updateByte_word (crc : CRC) (d₀ d₁ d₂ d₃ : UInt8) :
    updateByte (updateByte (updateByte (updateByte crc d₀) d₁) d₂) d₃ =
      (clock polynomial)^[32] (crc ^^^ word d₀ d₁ d₂ d₃) := by
  obtain ⟨h₀, h₁, h₂, h₃⟩ := byteAt_word d₀ d₁ d₂ d₃
  have hword := clock_word 0 (word d₀ d₁ d₂ d₃)
  rw [h₀, h₁, h₂, h₃] at hword
  simp only [updateByte_eq, clock_iterate_xor, ← Function.iterate_add_apply]
  rw [Nat.zero_add] at hword
  rw [hword]
  simp only [BitVec.xor_assoc]

/-- The tables take four bytes of the register, and `k` bytes after them, at once. -/
lemma crcTab8_word (k : ℕ) (x : CRC) :
    (crcTab8 (k + 3) ((x &&& 0xff).setWidth 8) ^^^ crcTab8 (k + 2) (((x >>> 8) &&& 0xff).setWidth 8)
        ^^^ crcTab8 (k + 1) (((x >>> 16) &&& 0xff).setWidth 8)
        ^^^ crcTab8 k ((x >>> 24).setWidth 8)) =
      (clock polynomial)^[8 * k + 32] x := by
  rw [clock_word, setWidth_and_ff, setWidth_and_ff, setWidth_and_ff, crcTab8_eq, crcTab8_eq,
    crcTab8_eq, crcTab8_eq]
  simp only [byteAt, Nat.mul_zero, BitVec.ushiftRight_zero]
  rfl

/-- Eight bytes at a time are the same as one byte at a time. -/
lemma updateCRC_eq_foldl (data : List UInt8) (crc : CRC) :
    updateCRC data crc = data.foldl updateByte crc := by
  fun_induction updateCRC data crc with
  | case1 d₀ d₁ d₂ d₃ d₄ d₅ d₆ d₇ data crc lo hi ih =>
    have hword : updateByte (updateByte (updateByte (updateByte
        (updateByte (updateByte (updateByte (updateByte crc d₀) d₁) d₂) d₃) d₄) d₅) d₆) d₇ =
          (clock polynomial)^[8 * 4 + 32] lo ^^^ (clock polynomial)^[8 * 0 + 32] hi := by
      rw [updateByte_word crc, updateByte_word, clock_iterate_xor polynomial 32 _ hi,
        ← Function.iterate_add_apply]
    rw [ih]
    simp only [List.foldl_cons]
    rw [hword, ← crcTab8_word, ← crcTab8_word]
    simp only [BitVec.xor_assoc]
  | case2 data crc _ => rfl

/-- The check value of the polynomial. -/
example : calcCRC [0x31, 0x32, 0x33, 0x34, 0x35, 0x36, 0x37, 0x38, 0x39] = 0xCBF43926#32 := by
  decide +kernel

/-- The CRC of two parts is updated part after part. -/
lemma updateCRC_append (a b : List UInt8) (crc : CRC) :
    updateCRC (a ++ b) crc = updateCRC b (updateCRC a crc) := by
  rw [updateCRC_eq_foldl, updateCRC_eq_foldl, updateCRC_eq_foldl, List.foldl_append]

/-- The CRC, one bit of the data after another. -/
def bitwiseCRC (data : List UInt8) (crc : CRC) : CRC :=
  (data.flatMap fun d => bitsOf d.toBitVec).foldl (feed polynomial) crc

/-- A byte through the table is its bits through the register. -/
lemma foldl_updateByte (data : List UInt8) (crc : CRC) :
    data.foldl updateByte crc = bitwiseCRC data crc := by
  unfold bitwiseCRC
  induction data generalizing crc with
  | nil => rfl
  | cons d data ih =>
    have hbits : (bitsOf d.toBitVec).foldl (feed polynomial) crc = updateByte crc d := by
      rw [updateByte_eq]
      exact foldl_feed polynomial crc d.toBitVec (by decide)
    rw [List.foldl_cons, List.flatMap_cons, List.foldl_append, hbits, ih]

/-- **The CRC is the same for eight bytes, for one byte and for one bit at a time**, whatever it is before;
and a concatenation is updated part after part. -/
theorem updateCRC_correct (data : List UInt8) (crc : CRC) :
    updateCRC data crc = data.foldl updateByte crc ∧
      data.foldl updateByte crc = bitwiseCRC data crc ∧
      ∀ a b, data = a ++ b → updateCRC data crc = updateCRC b (updateCRC a crc) := by
  refine ⟨updateCRC_eq_foldl data crc, foldl_updateByte data crc, ?_⟩
  rintro a b rfl
  exact updateCRC_append a b crc

/-- No data leave the CRC as it is. -/
lemma updateCRC_nil (crc : CRC) : updateCRC [] crc = crc := rfl

/-! ## Data with their CRC behind them -/

/-- The bytes of a word make the word. -/
lemma word_leBytes (v : CRC) :
    word (UInt8.ofNat v.toNat) (UInt8.ofNat (v.toNat / 256)) (UInt8.ofNat (v.toNat / 256 / 256))
      (UInt8.ofNat (v.toNat / 256 / 256 / 256)) = v := by
  apply BitVec.eq_of_toNat_eq
  have hlt := v.isLt
  have hbyte (n : ℕ) : (UInt8.ofNat n).toBitVec.toNat = n % 256 := by
    rw [UInt8.toNat_toBitVec, UInt8.toNat_ofNat']
  have happend (w : ℕ) (x : BitVec w) (y : BitVec 8) :
      (x ++ y).toNat = x.toNat * 256 + y.toNat := by
    rw [BitVec.toNat_append, ← Nat.shiftLeft_add_eq_or_of_lt y.isLt, Nat.shiftLeft_eq]
  unfold word
  rw [happend, happend, happend, hbyte, hbyte, hbyte, hbyte]
  omega

/-- What the register holds behind data with their CRC. -/
def residue : CRC := 0xDEBB20E3#32

/-- Behind data with their CRC the register holds the same value for all data. -/
lemma updateCRC_residue (d : List UInt8) :
    updateCRC (d ++ leBytes 4 (calcCRC d).toNat) initCRC = residue := by
  have hmask (c : CRC) : c ^^^ (c ^^^ initCRC) = initCRC := by
    rw [← BitVec.xor_assoc, BitVec.xor_self, BitVec.zero_xor]
  have hbytes (v : CRC) : leBytes 4 v.toNat = [UInt8.ofNat v.toNat, UInt8.ofNat (v.toNat / 256),
      UInt8.ofNat (v.toNat / 256 / 256), UInt8.ofNat (v.toNat / 256 / 256 / 256)] := rfl
  rw [updateCRC_append, hbytes, updateCRC_eq_foldl]
  simp only [List.foldl_cons, List.foldl_nil]
  rw [updateByte_word, word_leBytes, calcCRC, hmask]
  decide +kernel

/-- Zeros only clock the register. -/
lemma updateCRC_zeros (n : ℕ) (crc : CRC) :
    updateCRC (List.replicate n 0) crc = (clock polynomial)^[n * 8] crc := by
  rw [updateCRC_eq_foldl]
  induction n generalizing crc with
  | zero => rfl
  | succ n ih =>
    have hbyte : updateByte crc 0 = (clock polynomial)^[8] crc := by
      rw [updateByte_eq]
      exact congrArg _ (BitVec.xor_zero)
    rw [List.replicate_succ, List.foldl_cons, ih, hbyte, ← Function.iterate_add_apply,
      Nat.succ_mul]

/-- Registers that differ do so behind any number of zeros. -/
lemma updateCRC_zeros_injective (n : ℕ) :
    Function.Injective (updateCRC (List.replicate n 0)) := by
  intro x y h
  rw [updateCRC_zeros, updateCRC_zeros] at h
  exact (clock_injective rfl).iterate _ h

end DArc.Environment
