import DArc.Compression.Common
import DArc.Library.Guarded

/-!
# Reading and writing blocks

The methods read and write through the callback by a few macros, each of which leaves the method where the
callback does not do what is asked for.  Reads deliver what is left of the stream; a write may return any code.

### Outline

* `Port`: the stream that is left, and the writes made;
* `callRead`, `readFull`, `readLenOrEof`, `read4`, `read4OrEof`, `write`: the macros.

### Main results

* one rule for each macro: what it needs for its accesses to stay inside the buffer, and where it leads;
* one more for each: how it comes out, the exit code included.
-/

namespace DArc.BlockDecoders

open Guarded

/-- What a method sees through its callback. -/
structure Port where
  /-- What is left of the compressed stream. -/
  stream : List UInt8
  /-- The writes made. -/
  writes : ℕ
  written : List UInt8

/-- `callback("read", buf, size)`. -/
def callRead (capacity offset size : Int) : Guarded Port (List UInt8) := do
  access ⟨capacity, offset, size⟩
  let port ← get
  set { port with stream := port.stream.drop size.toNat }
  return port.stream.take size.toNat

/-- `READ`: exactly `size` bytes, to the position `offset` of a buffer. -/
def readFull (capacity offset size : Int) : Guarded Port (List UInt8) :=
  if size = 0 then return []
  else do
    let bytes ← callRead capacity offset size
    if (bytes.length : Int) ≠ size then exit ErrCode.io.toInt
    return bytes

/-- `READ_LEN_OR_EOF`. -/
def readLenOrEof (capacity size : Int) : Guarded Port (List UInt8) := do
  let bytes ← callRead capacity 0 size
  if bytes.length = 0 then exit 0
  return bytes

/-- The word at the front of the stream. -/
def headWord (stream : List UInt8) : Int := int32 (leValue (stream.take 4))

/-- `READ4`. -/
def read4 : Guarded Port Int := do
  let bytes ← readFull 4 0 4
  return int32 (leValue bytes)

/-- `READ4_OR_EOF`. -/
def read4OrEof : Guarded Port Int := do
  let bytes ← readLenOrEof 4 4
  if bytes.length ≠ 4 then exit ErrCode.io.toInt
  return int32 (leValue bytes)

/-- `WRITE`: the first `size` bytes of a buffer, which begins with `bytes`; the codes are the results of the
writes. -/
def write (codes : ℕ → Int) (capacity size : Int) (bytes : List UInt8) : Guarded Port Unit :=
  if size = 0 then return ()
  else do
    access ⟨capacity, 0, size⟩
    let port ← get
    set { port with writes := port.writes + 1, written := port.written ++ bytes.take size.toNat }
    if codes port.writes < 0 then exit (codes port.writes)

variable {Q : List UInt8 → Port → Prop} {R : Int → Port → Prop} {capacity offset size : Int} {port : Port}

/-- The port after some bytes have been read. -/
def Port.skip (port : Port) (n : ℕ) : Port := { port with stream := port.stream.drop n }

/-- The port after a write; writing nothing makes no call. -/
def Port.wrote (port : Port) (size : Int) (bytes : List UInt8) : Port :=
  if size = 0 then port
  else { port with writes := port.writes + 1, written := port.written ++ bytes.take size.toNat }

/-- A write does not read. -/
@[simp] lemma Port.stream_wrote (port : Port) (size : Int) (bytes : List UInt8) :
    (port.wrote size bytes).stream = port.stream := by
  unfold Port.wrote
  split_ifs <;> rfl

/-- What is left behind some bytes. -/
@[simp] lemma Port.stream_skip (port : Port) (n : ℕ) : (port.skip n).stream = port.stream.drop n := by
  rw [Port.skip]

/-- Reading makes no writes. -/
@[simp] lemma Port.writes_skip (port : Port) (n : ℕ) : (port.skip n).writes = port.writes := by
  rw [Port.skip]

/-- The writes after a write. -/
lemma Port.writes_wrote (port : Port) (size : Int) (bytes : List UInt8) :
    (port.wrote size bytes).writes = if size = 0 then port.writes else port.writes + 1 := by
  unfold Port.wrote
  split_ifs <;> rfl

/-- The word at the front is an `int`. -/
lemma headWord_mem (stream : List UInt8) : -2 ^ 31 ≤ headWord stream ∧ headWord stream < 2 ^ 31 :=
  int32_mem _

/-- What a read needs. -/
lemma wp_callRead : wp (callRead capacity offset size) Q port ↔
    Access.Fits ⟨capacity, offset, size⟩ ∧ Q (port.stream.take size.toNat) (port.skip size.toNat) := by
  simp [callRead, Port.skip]

/-- What `READ` needs. -/
lemma wp_readFull (hoffset : 0 ≤ offset) (hcapacity : offset ≤ capacity) :
    wp (readFull capacity offset size) Q port ↔
      0 ≤ size ∧ offset + size ≤ capacity ∧ (size.toNat ≤ port.stream.length →
        Q (port.stream.take size.toNat) (port.skip size.toNat)) := by
  unfold readFull
  by_cases hzero : size = 0
  · subst hzero
    simp [Port.skip, hcapacity]
  · rw [if_neg hzero, wp_bind, wp_callRead]
    unfold Access.Fits
    simp only [wp_bind, wp_ite, wp_exit, wp_pure, List.length_take]
    constructor
    · rintro ⟨⟨-, hnonneg, hle⟩, -, hnext⟩
      exact ⟨hnonneg, hle, fun hlength => hnext (by omega)⟩
    · rintro ⟨hnonneg, hle, hnext⟩
      refine ⟨⟨hoffset, hnonneg, hle⟩, fun _ => trivial, fun heq => hnext (by omega)⟩

/-- What `READ_LEN_OR_EOF` needs. -/
lemma wp_readLenOrEof : wp (readLenOrEof capacity size) Q port ↔
    0 ≤ size ∧ size ≤ capacity ∧ ((port.stream.take size.toNat).length ≠ 0 →
      Q (port.stream.take size.toNat) (port.skip size.toNat)) := by
  unfold readLenOrEof
  rw [wp_bind, wp_callRead]
  unfold Access.Fits
  simp only [wp_bind, wp_ite, wp_exit, wp_pure, le_refl, true_and, zero_add, and_assoc]
  simp

/-- What `READ4` needs. -/
lemma wp_read4 : wp read4 R port ↔
    (4 ≤ port.stream.length → R (headWord port.stream) (port.skip 4)) := by
  unfold read4 headWord
  rw [wp_bind, wp_readFull le_rfl (by decide)]
  simp

/-- What `READ4_OR_EOF` needs. -/
lemma wp_read4OrEof : wp read4OrEof R port ↔
    (4 ≤ port.stream.length → R (headWord port.stream) (port.skip 4)) := by
  unfold read4OrEof headWord
  rw [wp_bind, wp_readLenOrEof]
  have hfour : (4 : Int).toNat = 4 := rfl
  simp only [wp_bind, wp_ite, wp_exit, wp_pure, List.length_take, implies_true, true_and, not_not, hfour]
  constructor
  · rintro ⟨-, -, h⟩ hlength
    exact h (by omega) (by omega)
  · intro h
    exact ⟨by decide, by decide, fun _ heq => h (by omega)⟩

/-- What `WRITE` needs. -/
lemma wp_write {codes : ℕ → Int} {bytes : List UInt8} {Q : Unit → Port → Prop} (hcapacity : 0 ≤ capacity) :
    wp (write codes capacity size bytes) Q port ↔
      0 ≤ size ∧ size ≤ capacity ∧ (size = 0 ∨ 0 ≤ codes port.writes → Q () (port.wrote size bytes)) := by
  unfold write Port.wrote
  by_cases hzero : size = 0
  · subst hzero
    simp [hcapacity]
  · rw [if_neg hzero, wp_bind, wp_access]
    unfold Access.Fits
    simp only [wp_bind, wp_get, wp_set, wp_ite, wp_exit, wp_pure, le_refl, true_and, zero_add, and_assoc,
      hzero, false_or, not_lt, implies_true, if_false]

/-! ## How the macros come out -/

variable {E : Int → Prop}

/-- How a read comes out. -/
lemma total_callRead : total (callRead capacity offset size) E Q port ↔
    Access.Fits ⟨capacity, offset, size⟩ ∧ Q (port.stream.take size.toNat) (port.skip size.toNat) := by
  simp [callRead, Port.skip]

/-- How `READ` comes out. -/
lemma total_readFull (hoffset : 0 ≤ offset) (hcapacity : offset ≤ capacity) :
    total (readFull capacity offset size) E Q port ↔
      0 ≤ size ∧ offset + size ≤ capacity ∧
        (size.toNat ≤ port.stream.length → Q (port.stream.take size.toNat) (port.skip size.toNat)) ∧
        (port.stream.length < size.toNat → E ErrCode.io.toInt) := by
  unfold readFull
  by_cases hzero : size = 0
  · subst hzero
    simp [Port.skip, hcapacity]
  · rw [if_neg hzero, total_bind, total_callRead]
    unfold Access.Fits
    simp only [total_bind, total_ite, total_exit, total_pure, List.length_take]
    constructor
    · rintro ⟨⟨-, hnonneg, hle⟩, hexit, hnext⟩
      exact ⟨hnonneg, hle, fun hlength => hnext (by omega), fun hlength => hexit (by omega)⟩
    · rintro ⟨hnonneg, hle, hnext, hexit⟩
      exact ⟨⟨hoffset, hnonneg, hle⟩, fun heq => hexit (by omega), fun heq => hnext (by omega)⟩

/-- How `READ_LEN_OR_EOF` comes out. -/
lemma total_readLenOrEof : total (readLenOrEof capacity size) E Q port ↔
    0 ≤ size ∧ size ≤ capacity ∧
      (port.stream.take size.toNat = [] → E 0) ∧
      (port.stream.take size.toNat ≠ [] → Q (port.stream.take size.toNat) (port.skip size.toNat)) := by
  unfold readLenOrEof
  rw [total_bind, total_callRead]
  unfold Access.Fits
  simp only [total_bind, total_ite, total_exit, total_pure, le_refl, true_and, zero_add, and_assoc,
    List.length_eq_zero_iff, ne_eq]

/-- How `READ4` comes out. -/
lemma total_read4 : total read4 E R port ↔
    (4 ≤ port.stream.length → R (headWord port.stream) (port.skip 4)) ∧
      (port.stream.length < 4 → E ErrCode.io.toInt) := by
  unfold read4 headWord
  rw [total_bind, total_readFull le_rfl (by decide)]
  simp

/-- How `READ4_OR_EOF` comes out. -/
lemma total_read4OrEof : total read4OrEof E R port ↔
    (4 ≤ port.stream.length → R (headWord port.stream) (port.skip 4)) ∧ (port.stream = [] → E 0) ∧
      (port.stream ≠ [] → port.stream.length < 4 → E ErrCode.io.toInt) := by
  have hfour : (4 : Int).toNat = 4 := rfl
  unfold read4OrEof headWord
  rw [total_bind, total_readLenOrEof]
  simp only [total_bind, total_ite, total_exit, total_pure, List.length_take, not_not, hfour]
  have hempty : port.stream.take 4 = [] ↔ port.stream = [] := by
    rw [List.take_eq_nil_iff]
    simp
  rw [hempty, ne_eq, hempty]
  have hlength : port.stream = [] ↔ port.stream.length = 0 := List.length_eq_zero_iff.symm
  constructor
  · rintro ⟨-, -, hzero, hsome⟩
    refine ⟨fun hle => ?_, hzero, fun hne hlt => (hsome hne).1 (by omega)⟩
    exact (hsome (by rw [hlength]; omega)).2 (by omega)
  · rintro ⟨hnext, hzero, hshort⟩
    exact ⟨by decide, by decide, hzero, fun hne => ⟨fun heq => hshort hne (by omega), fun heq => hnext (by omega)⟩⟩

/-- How `WRITE` comes out. -/
lemma total_write {codes : ℕ → Int} {bytes : List UInt8} {Q : Unit → Port → Prop} (hcapacity : 0 ≤ capacity)
    (hcodes : ∀ n, 0 ≤ codes n) :
    total (write codes capacity size bytes) E Q port ↔
      0 ≤ size ∧ size ≤ capacity ∧ Q () (port.wrote size bytes) := by
  unfold write Port.wrote
  by_cases hzero : size = 0
  · subst hzero
    simp [hcapacity]
  · rw [if_neg hzero, total_bind, total_access]
    unfold Access.Fits
    simp only [total_bind, total_get, total_set, total_ite, total_exit, total_pure, le_refl, true_and, zero_add,
      and_assoc, not_lt.mpr (hcodes _), false_imp_iff, not_false_eq_true, true_imp_iff, if_neg hzero]

/-- The word at the front of a stream is the one that was written there. -/
lemma headWord_leBytes {x : Int} (h₁ : -2 ^ 31 ≤ x) (h₂ : x < 2 ^ 31) (rest : List UInt8) :
    headWord (leBytes 4 (uint32 x) ++ rest) = x ∧ (leBytes 4 (uint32 x) ++ rest).drop 4 = rest := by
  have hlt : uint32 x < 256 ^ 4 := by
    unfold uint32
    omega
  refine ⟨?_, List.drop_left' (length_leBytes 4 _)⟩
  unfold headWord
  rw [List.take_left' (length_leBytes 4 _), leValue_leBytes_of_lt hlt, int32_uint32, int32_of_mem h₁ h₂]

/-- A word is read back. -/
lemma total_read4OrEof_word {x : Int} (h₁ : -2 ^ 31 ≤ x) (h₂ : x < 2 ^ 31) {rest out : List UInt8} {w : ℕ} :
    total read4OrEof E R ⟨leBytes 4 (uint32 x) ++ rest, w, out⟩ ↔ R x ⟨rest, w, out⟩ := by
  obtain ⟨hword, hdrop⟩ := headWord_leBytes h₁ h₂ rest
  have hlength : (leBytes 4 (uint32 x) ++ rest).length = 4 + rest.length := by
    rw [List.length_append, length_leBytes]
  have hne : leBytes 4 (uint32 x) ++ rest ≠ [] := by
    rw [← List.length_pos_iff, hlength]
    omega
  rw [total_read4OrEof, Port.skip]
  dsimp only
  rw [hword, hdrop, hlength]
  exact ⟨fun h => h.1 (by omega), fun h => ⟨fun _ => h, fun heq => absurd heq hne, fun _ hlt => absurd hlt (by omega)⟩⟩

/-- A word is read back, where there must be one. -/
lemma total_read4_word {x : Int} (h₁ : -2 ^ 31 ≤ x) (h₂ : x < 2 ^ 31) {rest out : List UInt8} {w : ℕ} :
    total read4 E R ⟨leBytes 4 (uint32 x) ++ rest, w, out⟩ ↔ R x ⟨rest, w, out⟩ := by
  obtain ⟨hword, hdrop⟩ := headWord_leBytes h₁ h₂ rest
  have hlength : (leBytes 4 (uint32 x) ++ rest).length = 4 + rest.length := by
    rw [List.length_append, length_leBytes]
  rw [total_read4, Port.skip]
  dsimp only
  rw [hword, hdrop, hlength]
  exact ⟨fun h => h.1 (by omega), fun h => ⟨fun _ => h, fun hlt => absurd hlt (by omega)⟩⟩

/-- Bytes are read back. -/
lemma total_readFull_bytes {bytes rest out : List UInt8} {w : ℕ} (h : (bytes.length : Int) ≤ capacity) :
    total (readFull capacity 0 bytes.length) E Q ⟨bytes ++ rest, w, out⟩ ↔ Q bytes ⟨rest, w, out⟩ := by
  rw [total_readFull le_rfl (by omega), Port.skip, Int.toNat_natCast]
  dsimp only
  rw [List.take_left, List.drop_left, List.length_append]
  exact ⟨fun h => h.2.2.1 (by omega), fun hQ => ⟨by omega, by omega, fun _ => hQ, fun hlt => absurd hlt (by omega)⟩⟩

/-- The port after a write of all bytes. -/
lemma Port.wrote_bytes {bytes : List UInt8} (hne : bytes ≠ []) (port : Port) :
    port.wrote bytes.length bytes = ⟨port.stream, port.writes + 1, port.written ++ bytes⟩ := by
  have hpos := List.length_pos_iff.mpr hne
  rw [Port.wrote, if_neg (by omega), Int.toNat_natCast, List.take_length]

end DArc.BlockDecoders
