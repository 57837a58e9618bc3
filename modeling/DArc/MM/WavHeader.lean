import DArc.MM.Detector
import DArc.Library.Walk

/-!
# The header of a WAV file on machines of any width

`autodetect_wav_header` reads the header as a structure of `unsigned long` fields, so its layout and the wrapping of
its sums depend on the width of that type and of pointers.  `Detector` fixes the 32-bit program; here the search is
modelled for every width the program is built for, with every read checked against the buffer, as a walk over the
headers of the subchunks.

### Outline

* `Abi`, `Buffer`: the widths, and a buffer whose size is a `long`;
* `firstSubchunk`, `subchunk`, `autodetectWavHeader`: the header, one turn of the loop, and the function;

### Main results

* `autodetectWavHeader_inside`: every read is inside the buffer;
* `detects_iff`: the search ends with values that `mm_compress` can store iff no subchunk leads back to itself and the
  format of samples that are found fits.
-/

namespace DArc.MM.Wav

open Relation

/-! ## Widths -/

/-- What the sizes of `unsigned long` and of a pointer are. -/
inductive Abi
  | ilp32
  | llp64
  | lp64
  deriving DecidableEq, Repr

/-- `sizeof(unsigned long)`. -/
def Abi.long : Abi → ℕ
  | .ilp32 => 4
  | .llp64 => 4
  | .lp64 => 8

/-- `sizeof(void*)`. -/
def Abi.pointer : Abi → ℕ
  | .ilp32 => 4
  | .llp64 => 8
  | .lp64 => 8

/-- `sizeof(wave_hdr_t)`: seven fields of type `long`, two of them behind two of type `short`, and padding. -/
def Abi.waveHdr (abi : Abi) : ℕ := 8 * abi.long + if abi.long = 8 then 8 else 4

/-- `sizeof(subchunk_hdr)`. -/
def Abi.subchunkHdr (abi : Abi) : ℕ := 2 * abi.long

/-- A buffer; its size is a `long`. -/
structure Buffer (abi : Abi) where
  bytes : List UInt8
  size_lt : bytes.length < 2 ^ (8 * abi.long - 1)

/-- The size of the buffer. -/
def Buffer.size {abi : Abi} (buf : Buffer abi) : ℕ := buf.bytes.length

variable {abi : Abi}

/-- A field of `k` bytes; `none` if a byte of it is not in the buffer. -/
def Buffer.field (buf : Buffer abi) (k : ℕ) (pos : Int) : Option ℕ :=
  if 0 ≤ pos ∧ pos + k ≤ buf.size then some (word k buf.bytes pos.toNat) else none

/-- A field of type `unsigned long`. -/
def Buffer.ulong (buf : Buffer abi) (pos : Int) : Option ℕ := buf.field abi.long pos

/-- A field of type `unsigned short`. -/
def Buffer.ushort (buf : Buffer abi) (pos : Int) : Option ℕ := buf.field 2 pos

/-- A difference of pointers as an unsigned number. -/
def Abi.unsigned (abi : Abi) (x : Int) : ℕ := (x % 2 ^ (8 * abi.pointer)).toNat

/-! ## The code -/

/-- What the detection returns; `outside` stands for a read behind an end of the buffer. -/
inductive Detection
  | outside
  | fails
  | ok (layout : Layout)
  deriving DecidableEq, Repr

/-- What the search for the samples returns. -/
inductive Found
  | outside
  | fails
  | data (p : Int)
  deriving DecidableEq, Repr

/-- The format of the samples, and where the first subchunk behind it is. -/
structure Header where
  isFloat : Int
  numChannels : ℕ
  bitsPerSample : ℕ
  p : Int
  deriving DecidableEq, Repr

/-- The first part of `autodetect_wav_header`, in front of the loop; the outer `none` is a read outside the buffer, the
inner one a detection that fails. -/
def firstSubchunk (buf : Buffer abi) : Option (Option Header) := do
  if buf.size < abi.waveHdr then return none
  let chunkID ← buf.ulong 0
  let chunkSize ← buf.ulong abi.long
  let format ← buf.ulong (2 * abi.long)
  let subchunk1ID ← buf.ulong (3 * abi.long)
  let subchunk1Size ← buf.ulong (4 * abi.long)
  let audioFormat ← buf.ushort (5 * abi.long)
  let numChannels ← buf.ushort (5 * abi.long + 2)
  -- behind `SampleRate` and `ByteRate`, which are aligned, and `BlockAlign`
  let bitsPerSample ← buf.ushort (if abi.long = 8 then 66 else 34)
  if chunkID ≠ riffSign ∨ format ≠ waveSign ∨ subchunk1ID ≠ fmtSign ∨ subchunk1Size > chunkSize ∨
      numChannels = 0 ∨ bitsPerSample > maxBps then return none
  if audioFormat ≠ 3 ∧ audioFormat ≠ 1 ∧ audioFormat ≠ 0xFFFE then return none
  let isFloat := if audioFormat = 3 then 1 else 0
  let p : Int := abi.waveHdr
  -- neither side of this comparison is negative
  if subchunk1Size > 16 ∧ buf.size - p ≤ (subchunk1Size - 16 : ℕ) then return none
  let p := p + (subchunk1Size - 16 : ℕ)
  if abi.unsigned (buf.size - p) ≤ abi.subchunkHdr then return none
  return some ⟨isFloat, numChannels, bitsPerSample, p⟩

/-- One turn of the loop over subchunks: the header of the samples is found, the detection fails, or the pointer goes
on. -/
def subchunk (buf : Buffer abi) (p : Int) : Found ⊕ Int :=
  match buf.ulong p with
  | none => .inl .outside
  | some subchunkID =>
    if subchunkID = dataSign then .inl (.data p)
    else
      match buf.ulong (p + abi.long) with
      | none => .inl .outside
      | some subchunkSize =>
        let skipBytes := (abi.subchunkHdr + subchunkSize) % 2 ^ (8 * abi.long)
        if abi.unsigned (buf.size - p) ≤ (skipBytes + abi.subchunkHdr) % 2 ^ (8 * abi.pointer) then .inl .fails
        else .inr ((p + skipBytes).bmod (2 ^ (8 * abi.pointer)))

/-- `autodetect_wav_header`, with fuel for its loop. -/
def autodetectWavHeader (fuel : ℕ) (buf : Buffer abi) : Option Detection :=
  match firstSubchunk buf with
  | none => some .outside
  | some none => some .fails
  | some (some hdr) =>
    (walk (subchunk buf) fuel hdr.p).map fun
      | .outside => .outside
      | .fails => .fails
      | .data p => .ok ⟨hdr.isFloat, hdr.numChannels, hdr.bitsPerSample, int32 (p + abi.subchunkHdr)⟩

/-! ## The bytes of a field -/

/-- A word is at least each of its bytes, at its place. -/
lemma byte_mul_le_leValue (bs : List UInt8) {j : ℕ} {b : UInt8} (h : bs[j]? = some b) :
    b.toNat * 256 ^ j ≤ leValue bs := by
  induction bs generalizing j with
  | nil => cases h
  | cons c bs ih =>
    rw [leValue]
    cases j with
    | zero =>
      obtain rfl := Option.some.inj h
      rw [pow_zero, Nat.mul_one]
      exact Nat.le_add_right _ _
    | succ j =>
      have hle := ih h
      rw [pow_succ, ← Nat.mul_assoc]
      omega

/-- What a byte lacks the word lacks too, at the place of the byte. -/
lemma leValue_add_lt (bs : List UInt8) {j : ℕ} {b : UInt8} (h : bs[j]? = some b) :
    leValue bs + (255 - b.toNat) * 256 ^ j < 256 ^ bs.length := by
  induction bs generalizing j with
  | nil => cases h
  | cons c bs ih =>
    have hc := c.toNat_lt
    rw [leValue, List.length_cons, pow_succ]
    cases j with
    | zero =>
      obtain rfl := Option.some.inj h
      have hlt := leValue_lt bs
      rw [pow_zero, Nat.mul_one]
      omega
    | succ j =>
      have hlt := ih h
      rw [pow_succ, ← Nat.mul_assoc]
      omega

/-- A word is less than the power for its length. -/
lemma word_lt (k : ℕ) (buf : List UInt8) (pos : ℕ) : word k buf pos < 256 ^ k :=
  lt_of_lt_of_le (leValue_lt _) (Nat.pow_le_pow_right (by omega) (List.length_take_le _ _))

/-! ## The fixed part of the header -/

/-- A field inside the buffer can be read. -/
lemma Buffer.field_eq (buf : Buffer abi) (k i : ℕ) {pos : Int} (hpos : pos = i) (h : i + k ≤ buf.size) :
    buf.field k pos = some (word k buf.bytes i) := by
  subst hpos
  rw [field, if_pos ⟨Int.natCast_nonneg i, by exact_mod_cast h⟩, Int.toNat_natCast]

/-- What the fixed part of a header tells. -/
structure Recognized (buf : Buffer abi) (hdr : Header) : Prop where
  waveHdr_le : abi.waveHdr ≤ hdr.p
  inside : hdr.p + abi.subchunkHdr < buf.size
  subchunk1ID_eq : word abi.long buf.bytes (3 * abi.long) = fmtSign
  subchunk1Size_lt : word abi.long buf.bytes (4 * abi.long) < 2 ^ (8 * abi.long - 1)
  numChannels_pos : 1 ≤ hdr.numChannels
  bitsPerSample_le : hdr.bitsPerSample ≤ maxBps

/-- A difference that is not negative is the same as an unsigned number. -/
lemma Abi.unsigned_of_nonneg {x : Int} (h : 0 ≤ x) (hlt : x < 2 ^ (8 * abi.long - 1)) :
    (abi.unsigned x : Int) = x := by
  have hpow : (2 : Int) ^ (8 * abi.long - 1) ≤ 2 ^ (8 * abi.pointer) :=
    pow_le_pow_right₀ (by omega) (by cases abi <;> decide)
  rw [unsigned, Int.emod_eq_of_lt h (by omega), Int.toNat_of_nonneg h]

/-- The fixed part is read inside the buffer. -/
lemma firstSubchunk_spec (buf : Buffer abi) :
    ∃ r, firstSubchunk buf = some r ∧ ∀ hdr, r = some hdr → Recognized buf hdr := by
  unfold firstSubchunk
  by_cases hsize : buf.size < abi.waveHdr
  · rw [if_pos hsize]
    exact ⟨none, rfl, fun _ h => nomatch h⟩
  rw [if_neg hsize]
  have hread : ∀ (k i : ℕ) (pos : Int), pos = i → i + k ≤ abi.waveHdr →
      buf.field k pos = some (word k buf.bytes i) := fun k i pos hpos hle => buf.field_eq k i hpos (by omega)
  simp only [Buffer.ulong, Buffer.ushort]
  have hhdr : 8 * abi.long + 4 ≤ abi.waveHdr ∧ (if abi.long = 8 then 66 else 34) + 2 ≤ abi.waveHdr ∧
      36 ≤ abi.waveHdr := by
    cases abi <;> decide
  rw [hread abi.long 0 0 rfl (by omega), hread abi.long abi.long _ rfl (by omega),
    hread abi.long (2 * abi.long) _ (by push_cast; rfl) (by omega),
    hread abi.long (3 * abi.long) _ (by push_cast; rfl) (by omega),
    hread abi.long (4 * abi.long) _ (by push_cast; rfl) (by omega),
    hread 2 (5 * abi.long) _ (by push_cast; rfl) (by omega),
    hread 2 (5 * abi.long + 2) _ (by push_cast; rfl) (by omega),
    hread 2 (if abi.long = 8 then 66 else 34) _ (by split <;> rfl) hhdr.2.1]
  generalize word 2 buf.bytes (if abi.long = 8 then 66 else 34) = bits
  simp only [Option.bind_eq_bind, Option.bind_some]
  split
  next => exact ⟨none, rfl, fun _ h => nomatch h⟩
  next hsigns =>
  push Not at hsigns
  obtain ⟨-, -, hfmt, -, hchannels, hbits⟩ := hsigns
  split
  next => exact ⟨none, rfl, fun _ h => nomatch h⟩
  split
  next => exact ⟨none, rfl, fun _ h => nomatch h⟩
  next hextra =>
  split
  next => exact ⟨none, rfl, fun _ h => nomatch h⟩
  next hroom =>
  refine ⟨_, rfl, fun hdr h => ?_⟩
  obtain rfl := Option.some.inj h
  have hlt : (buf.size : Int) < 2 ^ (8 * abi.long - 1) := by exact_mod_cast buf.size_lt
  have hwidth : (16 : ℕ) < 2 ^ (8 * abi.long - 1) := by cases abi <;> decide
  have hpositive : (0 : Int) ≤ buf.size - (abi.waveHdr + (word abi.long buf.bytes (4 * abi.long) - 16 : ℕ)) := by
    omega
  rw [not_le, ← Int.ofNat_lt, Abi.unsigned_of_nonneg hpositive (by omega)] at hroom
  refine ⟨?_, ?_, hfmt, ?_, Nat.pos_of_ne_zero hchannels, hbits⟩
  · dsimp only
    omega
  · dsimp only
    omega
  · zify
    zify at hwidth
    omega

/-! ## One turn of the loop -/

/-- Where the pointer can be: behind the first two fields, with a header of a subchunk in front of it in the buffer. -/
def Inside (buf : Buffer abi) (p : Int) : Prop := abi.subchunkHdr ≤ p ∧ p + abi.subchunkHdr < buf.size

/-- Where the pointer goes on: it moves backward only when the size of the subchunk is almost the largest number. -/
lemma skip_spec (abi : Abi) {size i subchunkSize skipBytes : ℕ} {q : Int} (hsize : size < 2 ^ (8 * abi.long - 1))
    (hi : i + abi.subchunkHdr < size) (hlt : subchunkSize < 256 ^ abi.long)
    (hskip : skipBytes = (abi.subchunkHdr + subchunkSize) % 2 ^ (8 * abi.long))
    (hroom : (skipBytes + abi.subchunkHdr) % 2 ^ (8 * abi.pointer) < size - i)
    (hq : q = ((i : Int) + skipBytes).bmod (2 ^ (8 * abi.pointer))) :
    ((i : Int) ≤ q ∧ q + abi.subchunkHdr < size) ∨
      (q < i ∧ i ≤ q + abi.subchunkHdr ∧ 256 ^ abi.long ≤ subchunkSize + 2 * abi.subchunkHdr) := by
  cases abi with
  | ilp32 =>
    simp only [Abi.long, Abi.pointer, Abi.subchunkHdr, Int.bmod] at *
    norm_num at *
    split at hq <;> omega
  | llp64 =>
    simp only [Abi.long, Abi.pointer, Abi.subchunkHdr, Int.bmod] at *
    norm_num at *
    split at hq <;> omega
  | lp64 =>
    simp only [Abi.long, Abi.pointer, Abi.subchunkHdr, Int.bmod] at *
    norm_num at *
    split at hq <;> omega

/-- What one turn does inside the buffer: it does not read outside, and when the pointer goes on it goes forward to
another header in the buffer, or backward by no more than a header, over a size whose bytes are all large. -/
lemma subchunk_spec {buf : Buffer abi} {p : Int} (hp : Inside buf p) :
    subchunk buf p ≠ .inl .outside ∧ (∀ q, subchunk buf p = .inl (.data q) → q = p) ∧
      ∀ q, subchunk buf p = .inr q → (p ≤ q ∧ q + abi.subchunkHdr < buf.size) ∨
        (q < p ∧ p ≤ q + abi.subchunkHdr ∧
          256 ^ abi.long ≤ word abi.long buf.bytes (p + abi.long).toNat + 2 * abi.subchunkHdr) := by
  obtain ⟨hlow, hhigh⟩ := hp
  obtain ⟨i, rfl⟩ := Int.eq_ofNat_of_zero_le (a := p) (by omega)
  have hword : i + abi.subchunkHdr < buf.size := by exact_mod_cast hhigh
  have hlen : buf.ulong i = some (word abi.long buf.bytes i) ∧
      buf.ulong (i + abi.long) = some (word abi.long buf.bytes (i + abi.long)) := by
    unfold Abi.subchunkHdr at hword
    exact ⟨buf.field_eq _ i rfl (by omega), buf.field_eq _ (i + abi.long) (by push_cast; rfl) (by omega)⟩
  unfold subchunk
  rw [hlen.1]
  dsimp only
  split
  next => simp
  next =>
  rw [hlen.2]
  dsimp only
  split
  next => simp
  next hroom =>
  have hlong : word abi.long buf.bytes (i + abi.long) < 256 ^ abi.long := word_lt _ _ _
  have hlt : (buf.size : Int) < 2 ^ (8 * abi.long - 1) := by exact_mod_cast buf.size_lt
  rw [not_le, ← Int.ofNat_lt, Abi.unsigned_of_nonneg (by omega) (by omega)] at hroom
  refine ⟨by simp, by simp, fun q hq => ?_⟩
  rw [show ((i : Int) + abi.long).toNat = i + abi.long by omega]
  exact skip_spec abi buf.size_lt hword hlong rfl (by omega) (Sum.inr.inj hq).symm

/-- A byte of a size over which the pointer goes backward is large. -/
lemma large_byte {buf : Buffer abi} {i j : ℕ} {b : UInt8} (hsize : 256 ^ abi.long ≤ word abi.long buf.bytes i +
    2 * abi.subchunkHdr) (hj : i ≤ j ∧ j < i + abi.long) (hin : i + abi.long ≤ buf.size)
    (hb : buf.bytes[j]? = some b) : 0xE0 ≤ b.toNat := by
  have hbyte : ((buf.bytes.drop i).take abi.long)[j - i]? = some b := by
    rw [List.getElem?_take, if_pos (by omega), List.getElem?_drop, Nat.add_sub_cancel' hj.1, hb]
  have hlacks := leValue_add_lt _ hbyte
  have hlen : ((buf.bytes.drop i).take abi.long).length = abi.long := by
    rw [List.length_take, List.length_drop, min_eq_left]
    unfold Buffer.size at hin
    omega
  rw [hlen] at hlacks
  have hhdr : 2 * abi.subchunkHdr ≤ 32 := by cases abi <;> decide
  have hplace : 255 - b.toNat ≤ (255 - b.toNat) * 256 ^ (j - i) := Nat.le_mul_of_pos_right _ (by positivity)
  unfold word at hsize
  omega

/-- The last byte of a word is small when the word is. -/
lemma small_byte {buf : Buffer abi} {i : ℕ} {b : UInt8} (hb : buf.bytes[i + (abi.long - 1)]? = some b)
    (hsmall : word abi.long buf.bytes i < 2 ^ (8 * abi.long - 1)) : b.toNat < 0x80 := by
  have hbyte : ((buf.bytes.drop i).take abi.long)[abi.long - 1]? = some b := by
    rw [List.getElem?_take, if_pos (by cases abi <;> decide), List.getElem?_drop, hb]
  have hlt := lt_of_le_of_lt (byte_mul_le_leValue _ hbyte) hsmall
  cases abi <;> norm_num [Abi.long] at hlt <;> omega

/-- **The pointer stays inside the buffer.** It never moves backward over the first two fields, for the last bytes of
the fields behind them are small. -/
lemma Inside.next {buf : Buffer abi} {hdr : Header} (hhdr : Recognized buf hdr) {p q : Int} (hp : Inside buf p)
    (hq : Leads (subchunk buf) p q) : Inside buf q := by
  have hfmt : word abi.long buf.bytes (3 * abi.long) < 2 ^ (8 * abi.long - 1) := by
    rw [hhdr.subchunk1ID_eq]
    cases abi <;> decide
  obtain ⟨-, -, hnext⟩ := subchunk_spec hp
  obtain ⟨hlow, hhigh⟩ := hp
  obtain ⟨i, rfl⟩ := Int.eq_ofNat_of_zero_le (a := p) (by omega)
  have hlong : abi.subchunkHdr = 2 * abi.long ∧ 4 ≤ abi.long := by cases abi <;> decide
  have hroom := hhdr.inside
  have hstart := hhdr.waveHdr_le
  have hwave : 8 * abi.long ≤ abi.waveHdr := Nat.le_add_right _ _
  have hbyte : ∀ k, k * abi.long < buf.size → 0 < k → ∃ b, buf.bytes[(k - 1) * abi.long + (abi.long - 1)]? = some b := by
    intro k hk hpos
    obtain ⟨m, rfl⟩ := Nat.exists_eq_add_of_lt hpos
    refine ⟨_, List.getElem?_eq_getElem ?_⟩
    simp only [Nat.zero_add, Nat.add_sub_cancel, Nat.add_mul, Nat.one_mul] at hk ⊢
    unfold Buffer.size at hk
    omega
  rcases hnext q hq with ⟨hle, hin⟩ | ⟨hlt, hback, hlarge⟩
  · exact ⟨by omega, hin⟩
  · rw [show ((i : Int) + abi.long).toNat = i + abi.long by omega] at hlarge
    by_cases hfar : 2 * abi.subchunkHdr ≤ i
    · exact ⟨by omega, by omega⟩
    · exfalso
      by_cases hID : i < 3 * abi.long
      · obtain ⟨b, hb⟩ := hbyte 4 (by omega) (by omega)
        have := large_byte hlarge (by omega) (by omega) hb
        have := small_byte hb hfmt
        omega
      · obtain ⟨b, hb⟩ := hbyte 5 (by omega) (by omega)
        have := large_byte hlarge (by omega) (by omega) hb
        have := small_byte hb hhdr.subchunk1Size_lt
        omega

/-! ## The whole search -/

/-- What the function does: the search ends, it has read only bytes of the buffer, and a layout that it has found
begins inside the buffer and has numbers that `mm_compress` can store in bytes. -/
def Detects (buf : Buffer abi) : Prop :=
  ∃ fuel r, autodetectWavHeader fuel buf = some r ∧ r ≠ .outside ∧ ∀ layout, r = .ok layout →
    layout.offset ≤ buf.size ∧ (1 ≤ layout.numChan ∧ layout.numChan ≤ 255) ∧
      1 ≤ layout.wordSize ∧ layout.wordSize ≤ 255

/-- The pointer comes to `p` when the search begins at the first subchunk. -/
def Reaches (buf : Buffer abi) (hdr : Header) (p : Int) : Prop := ReflTransGen (Leads (subchunk buf)) hdr.p p

/-- No subchunk leads back to itself. -/
def Forward (buf : Buffer abi) (hdr : Header) : Prop :=
  ∀ p, Reaches buf hdr p → ¬ TransGen (Leads (subchunk buf)) p p

/-- The numbers of the format fit into bytes if there are samples. -/
def FormatFits (buf : Buffer abi) (hdr : Header) : Prop :=
  ∀ p, Reaches buf hdr p → buf.ulong p = some dataSign → hdr.numChannels ≤ 255 ∧ 1 ≤ hdr.bitsPerSample

/-- The pointer is inside the buffer at every turn. -/
lemma Reaches.inside {buf : Buffer abi} {hdr : Header} (hhdr : Recognized buf hdr) {p : Int}
    (hp : Reaches buf hdr p) : Inside buf p := by
  unfold Reaches at hp
  induction hp with
  | refl =>
    have hstart := hhdr.waveHdr_le
    have hle : abi.subchunkHdr ≤ abi.waveHdr := by cases abi <;> decide
    exact ⟨by omega, hhdr.inside⟩
  | tail _ hstep ih => exact ih.next hhdr hstep

/-- There are only finitely many places where the pointer can be. -/
lemma reaches_finite {buf : Buffer abi} {hdr : Header} (hhdr : Recognized buf hdr) :
    {p | Reaches buf hdr p}.Finite := by
  refine (Set.finite_Icc (0 : Int) buf.size).subset fun p hp => ?_
  have hin := Reaches.inside hhdr hp
  exact ⟨by have := hin.1; omega, by have := hin.2; omega⟩

/-- The samples are found where the identifier of the subchunk says so. -/
lemma subchunk_data {buf : Buffer abi} {p q : Int} :
    subchunk buf p = .inl (.data q) ↔ buf.ulong p = some dataSign ∧ q = p := by
  unfold subchunk
  cases hID : buf.ulong p with
  | none => simp
  | some subchunkID =>
    dsimp only
    by_cases hdata : subchunkID = dataSign
    · rw [if_pos hdata, hdata]
      simp [eq_comm]
    · rw [if_neg hdata]
      cases buf.ulong (p + abi.long) with
      | none => simp [hdata]
      | some subchunkSize =>
        dsimp only
        split <;> simp [hdata]

/-- A number in front of the samples is not larger as an `int`. -/
lemma int32_le {x : Int} (h : 0 ≤ x) : int32 x ≤ x := by
  have hle : x % (2 ^ 32 : ℕ) ≤ x := by omega
  unfold int32 Int.bmod
  dsimp only
  split <;> omega

/-- **Every read is inside the buffer**, whatever the buffer contains. -/
theorem autodetectWavHeader_inside (fuel : ℕ) (buf : Buffer abi) :
    autodetectWavHeader fuel buf ≠ some .outside := by
  intro hout
  obtain ⟨r, hfirst, hspec⟩ := firstSubchunk_spec buf
  unfold autodetectWavHeader at hout
  rw [hfirst] at hout
  cases r with
  | none => cases hout
  | some hdr =>
    dsimp only at hout
    obtain ⟨found, hwalk, hfound⟩ := Option.map_eq_some_iff.mp hout
    obtain ⟨x, hreach, hx⟩ := walk_result hwalk
    cases found with
    | outside => exact (subchunk_spec (Reaches.inside (hspec hdr rfl) hreach)).1 hx
    | fails => cases hfound
    | data p => cases hfound

/-- **The search ends with values that can be stored exactly when no subchunk leads back to itself and, if there are
samples, their format fits into bytes.** The condition speaks only of buffers whose fixed part is recognized. -/
theorem detects_iff (buf : Buffer abi) :
    Detects buf ↔ ∀ hdr, firstSubchunk buf = some (some hdr) → Forward buf hdr ∧ FormatFits buf hdr := by
  obtain ⟨r, hfirst, hspec⟩ := firstSubchunk_spec buf
  unfold Detects
  cases r with
  | none =>
    refine iff_of_true ⟨0, .fails, by rw [autodetectWavHeader, hfirst], by simp, by simp⟩ ?_
    intro hdr h
    rw [hfirst] at h
    cases h
  | some hdr =>
    have hhdr := hspec hdr rfl
    have hends := walk_ends_iff (reaches_finite hhdr)
    constructor
    · rintro ⟨fuel, r, hrun, -, hok⟩ hdr' h
      obtain rfl : hdr = hdr' := by
        rw [hfirst] at h
        exact Option.some.inj (Option.some.inj h)
      unfold autodetectWavHeader at hrun
      rw [hfirst] at hrun
      obtain ⟨found, hwalk, hfound⟩ := Option.map_eq_some_iff.mp hrun
      refine ⟨hends.mp ⟨fuel, found, hwalk⟩, fun p hp hdata => ?_⟩
      obtain ⟨enough, hdone⟩ := walk_of_reflTransGen hp (subchunk_data.mpr ⟨hdata, rfl⟩)
      obtain rfl : found = .data p :=
        ((walk_steady _ _).converges hwalk).unique ((walk_steady _ _).converges hdone)
      have hstored := hok _ hfound.symm
      dsimp only at hstored
      exact ⟨by omega, by omega⟩
    · intro h
      obtain ⟨hforward, hfits⟩ := h hdr hfirst
      obtain ⟨fuel, found, hwalk⟩ := hends.mpr hforward
      obtain ⟨x, hreach, hx⟩ := walk_result hwalk
      have hin := Reaches.inside hhdr hreach
      cases found with
      | outside => exact absurd hx (subchunk_spec hin).1
      | fails =>
        refine ⟨fuel, .fails, ?_, by simp, by simp⟩
        rw [autodetectWavHeader, hfirst]
        exact congrArg (Option.map _) hwalk
      | data p =>
        obtain ⟨hdata, rfl⟩ := subchunk_data.mp hx
        obtain ⟨hchannels, hbits⟩ := hfits p hreach hdata
        refine ⟨fuel, .ok ⟨hdr.isFloat, hdr.numChannels, hdr.bitsPerSample, int32 (p + abi.subchunkHdr)⟩, ?_,
          by simp, ?_⟩
        · rw [autodetectWavHeader, hfirst]
          exact congrArg (Option.map _) hwalk
        · intro layout hlayout
          obtain rfl := Detection.ok.inj hlayout
          have hpos := hhdr.numChannels_pos
          have hle : hdr.bitsPerSample ≤ 32 := hhdr.bitsPerSample_le
          obtain ⟨hlow, hhigh⟩ := hin
          have hoffset : int32 (p + abi.subchunkHdr) ≤ p + abi.subchunkHdr := int32_le (by omega)
          dsimp only
          omega

/-- A header of which the first subchunk claims to be almost 2^32 bytes long. -/
def endless : Buffer .ilp32 :=
  ⟨[0x52, 0x49, 0x46, 0x46, 0x25, 0, 0, 0, 0x57, 0x41, 0x56, 0x45, 0x66, 0x6D, 0x74, 0x20, 16, 0, 0, 0, 1, 0, 2, 0,
    0x44, 0xAC, 0, 0, 0x10, 0xB1, 2, 0, 4, 0, 16, 0, 0x4C, 0x49, 0x53, 0x54, 0xF8, 0xFF, 0xFF, 0xFF, 0], by decide⟩

/-- The loop stays at this subchunk for ever, for the length of it and of its header together is 0. -/
theorem not_detects_endless : ¬ Detects endless := by
  have hfirst : firstSubchunk endless = some (some ⟨0, 2, 16, 36⟩) := by decide
  have hstay : Leads (subchunk endless) 36 36 := by
    unfold Leads
    decide
  rintro ⟨fuel, r, hrun, -⟩
  unfold autodetectWavHeader at hrun
  rw [hfirst] at hrun
  obtain ⟨found, hwalk, -⟩ := Option.map_eq_some_iff.mp hrun
  exact not_leads_back hwalk (.single hstay)

end DArc.MM.Wav
