import DArc.Archive.ByteStream

/-!
# The buffered output stream

An `OutStream` collects the bytes of the values in a buffer that it was given by its receiver.  Before a value
is written, `ensureFreeSpaceInOutStream` makes sure that the most bytes the value can take, and one more, are
free; otherwise the buffer is sent off and a new one is received.  Values are then written without checks, in
words that may be longer than what is counted.  Lists are written in portions of a hundred items, and `writeBuf`
fills up one buffer after another.

A buffer is the memory it consists of, with whatever it holds when it is received.  A write that would go past
the end of the buffer is an error of its own.

### Outline

* `poke`, `FastBufferData`: writing without checks, and what is required of a type;
* `OutStream`, `ensureFreeSpaceInOutStream`, `writeFast`, `writeListFast`, `writeBuf`: the stream;
* `Op`, `writeAll`: a sequence of values, from the creation of the stream until it is closed.

A list, a tuple, `Maybe` or `Either` is written by writing its parts one after another.

### Main results

* `writeAll_ends`: what comes out for any values and any buffers;
* `writeAll_transparent`: the chunks that are sent make up the encodings of the values;
* `not_transparent`: a list is refused by a buffer that has room for it, but not for a hundred items.
-/

namespace DArc.Archive

/-! ## Memory -/

/-- How writing can end early. -/
inductive Failure
  /-- A write past the end of the buffer. -/
  | overrun
  /-- The value has no encoding: a call of `fail`. -/
  | value
  /-- A new buffer is too small: the call of `fail` in `ensureFreeSpaceInOutStream`. -/
  | buffer
  deriving DecidableEq

/-- Write bytes to a position of the memory. -/
def poke (buf : List UInt8) (pos : ℕ) (bytes : List UInt8) : Except Failure (List UInt8) :=
  if pos + bytes.length ≤ buf.length then
    .ok (buf.take pos ++ bytes ++ buf.drop (pos + bytes.length))
  else .error .overrun

/-- After a write, the memory up to a position in what was written. -/
lemma poke_of_le {buf bytes : List UInt8} {pos n : ℕ} (h : pos + bytes.length ≤ buf.length)
    (hn : n ≤ bytes.length) : ∃ buf', poke buf pos bytes = .ok buf' ∧ buf'.length = buf.length ∧
      buf'.take (pos + n) = buf.take pos ++ bytes.take n := by
  refine ⟨_, if_pos h, ?_, ?_⟩
  · rw [List.length_append, List.length_append, List.length_take, List.length_drop]
    omega
  · have hpos : (buf.take pos).length = pos := by
      rw [List.length_take]
      omega
    rw [List.append_assoc, List.take_append, hpos, List.take_of_length_le (by omega),
      Nat.add_sub_cancel_left, List.take_append_of_le_length hn]

/-! ## Values -/

/-- The word is in the memory up to the new position. -/
def Writes (buf : List UInt8) (pos : ℕ) (w : List UInt8) (r : Except Failure (List UInt8 × ℕ)) : Prop :=
  ∃ buf', r = .ok (buf', pos + w.length) ∧ buf'.length = buf.length ∧
    buf'.take (pos + w.length) = buf.take pos ++ w

/-- A value is written as its encoding, or refused when it has none. -/
def WritesOrFails (buf : List UInt8) (pos : ℕ) : Option (List UInt8) → Except Failure (List UInt8 × ℕ) → Prop
  | some w, r => Writes buf pos w r
  | none, r => r = .error .value

/-- Bytes that are written as they are. -/
lemma writes_poke {buf bytes : List UInt8} {pos : ℕ} (h : pos + bytes.length ≤ buf.length) :
    Writes buf pos bytes (do let buf ← poke buf pos bytes; return (buf, pos + bytes.length)) := by
  obtain ⟨buf', hpoke, hlen, htake⟩ := poke_of_le h le_rfl
  refine ⟨buf', ?_, hlen, ?_⟩
  · rw [hpoke]
    rfl
  · rw [htake, List.take_length]

/-- `FastBufferData`: the most bytes a value takes, whichever value it is, how it is written to a position of
the memory, where the position behind it is returned, and its encoding. -/
structure FastBufferData (α : Type) where
  maxSizeOf : ℕ
  writeUnchecked : List UInt8 → α → ℕ → Except Failure (List UInt8 × ℕ)
  /-- The bytes that stand for a value. -/
  encode : α → Option (List UInt8)
  length_le : ∀ x w, encode x = some w → w.length ≤ maxSizeOf
  writes : ∀ buf x pos, pos + maxSizeOf ≤ buf.length →
    WritesOrFails buf pos (encode x) (writeUnchecked buf x pos)

/-- `writeUnchecked` for a `Storable` of `k` bytes. -/
def writeUncheckedStorable {k : ℕ} (buf : List UInt8) (x : BitVec (8 * k)) (pos : ℕ) :
    Except Failure (List UInt8 × ℕ) := do
  let buf ← poke buf pos (leBytes k x.toNat)
  return (buf, pos + k)

/-- A `Storable` of `k` bytes. -/
def storable (k : ℕ) : FastBufferData (BitVec (8 * k)) where
  maxSizeOf := k
  writeUnchecked := writeUncheckedStorable
  encode := writeStorable
  length_le x w h := by
    obtain rfl := Option.some.inj h
    rw [length_leBytes]
  writes buf x pos hroom := by
    have hroom' : pos + (leBytes k x.toNat).length ≤ buf.length := (length_leBytes k x.toNat).symm ▸ hroom
    have hwrites := writes_poke hroom'
    rw [length_leBytes] at hwrites
    exact hwrites

/-- `writeUnchecked` for `Bool`. -/
def writeUncheckedBool (buf : List UInt8) (x : Bool) (pos : ℕ) : Except Failure (List UInt8 × ℕ) := do
  let buf ← poke buf pos [if x then 1 else 0]
  return (buf, pos + 1)

/-- `Bool`. -/
def bool : FastBufferData Bool where
  maxSizeOf := 1
  writeUnchecked := writeUncheckedBool
  encode := writeBool
  length_le x w h := by
    obtain rfl := Option.some.inj h
    exact le_rfl
  writes _ _ _ hroom := writes_poke hroom

/-- `write1`, `write4` and `write_8` at a position, of which `n` bytes are kept. -/
def writeWord (k n value : ℕ) (buf : List UInt8) (pos : ℕ) : Except Failure (List UInt8 × ℕ) := do
  let buf ← poke buf pos (leBytes k value)
  return (buf, pos + n)

/-- `writeUnchecked` for `Integer`. -/
def writeUncheckedInteger (buf : List UInt8) (x : Int) (pos : ℕ) : Except Failure (List UInt8 × ℕ) :=
  let n := x.toNat
  if x < 0 then .error .value
  else if n < 128 then writeWord 4 1 (n * 2 + 0) buf pos
  else if n < 128 ^ 2 then writeWord 4 2 (n * 4 + 1) buf pos
  else if n < 128 ^ 3 then writeWord 4 3 (n * 8 + 3) buf pos
  else if n < 128 ^ 4 then writeWord 4 4 (n * 16 + 7) buf pos
  else if n < 128 ^ 5 then writeWord 8 5 (n * 32 + 15) buf pos
  else if n < 128 ^ 6 then writeWord 8 6 (n * 64 + 31) buf pos
  else if n < 128 ^ 7 then writeWord 8 7 (n * 128 + 63) buf pos
  else if n < 128 ^ 8 then writeWord 8 8 (n * 256 + 127) buf pos
  else if n < 256 ^ 8 then do
    let (buf, pos) ← writeWord 1 1 255 buf pos
    writeWord 8 8 n buf pos
  else .error .value

/-- `maxSizeOf` for `Integer`: a byte of ones and eight bytes of data. -/
def maxSizeOfInteger : ℕ := 9

/-- A word of which the low bytes are kept. -/
lemma writes_writeWord {k n pos : ℕ} {buf : List UInt8} (value : ℕ) (hn : n ≤ k)
    (h : pos + k ≤ buf.length) : Writes buf pos (lowBytes k n value) (writeWord k n value buf pos) := by
  have hk : (leBytes k value).length = k := length_leBytes k value
  have hlow : (lowBytes k n value).length = n := by
    rw [lowBytes, List.length_take, hk, min_eq_left hn]
  obtain ⟨buf', hpoke, hlen, htake⟩ := poke_of_le (hk.symm ▸ h) (hk.symm ▸ hn)
  refine ⟨buf', ?_, hlen, ?_⟩
  · rw [writeWord, hpoke, hlow]
    rfl
  · rw [hlow, htake]
    rfl

/-- A number of eight bytes behind its mark. -/
lemma writes_marked {pos : ℕ} {buf : List UInt8} (n : ℕ) (h : pos + 9 ≤ buf.length) :
    Writes buf pos (255 :: leBytes 8 n)
      (do let (buf, pos) ← writeWord 1 1 255 buf pos; writeWord 8 8 n buf pos) := by
  have hroom₁ : pos + 1 ≤ buf.length := by omega
  obtain ⟨buf₁, h₁, hlen₁, htake₁⟩ := writes_writeWord 255 (le_refl 1) hroom₁
  have hroom₂ : pos + 1 + 8 ≤ buf₁.length := by omega
  obtain ⟨buf₂, h₂, hlen₂, htake₂⟩ := writes_writeWord n (le_refl 8) hroom₂
  have hmark : lowBytes 1 1 255 = [255] := rfl
  have hword : lowBytes 8 8 n = leBytes 8 n := List.take_of_length_le (length_leBytes 8 n).le
  rw [hmark] at h₁ htake₁
  rw [hword] at h₂ htake₂
  have hlength : (255 :: leBytes 8 n).length = 1 + (leBytes 8 n).length := Nat.add_comm _ _
  refine ⟨buf₂, ?_, hlen₂.trans hlen₁, ?_⟩
  · rw [h₁, hlength, ← Nat.add_assoc]
    exact h₂
  · rw [hlength, ← Nat.add_assoc, htake₂]
    have htake : buf₁.take (pos + 1) = buf.take pos ++ [255] := htake₁
    rw [htake, List.append_assoc]
    rfl

/-- Two functions that decide by the same condition. -/
lemma writesOrFails_ite {c : Prop} [Decidable c] {buf : List UInt8} {pos : ℕ} {o o' : Option (List UInt8)}
    {r r' : Except Failure (List UInt8 × ℕ)} (h : WritesOrFails buf pos o r)
    (h' : WritesOrFails buf pos o' r') :
    WritesOrFails buf pos (if c then o else o') (if c then r else r') := by
  split
  · exact h
  · exact h'

/-- A number is written as its encoding, or refused. -/
lemma writesOrFails_integer {buf : List UInt8} {pos : ℕ} (x : Int)
    (hroom : pos + maxSizeOfInteger ≤ buf.length) :
    WritesOrFails buf pos (writeInteger x) (writeUncheckedInteger buf x pos) := by
  unfold maxSizeOfInteger at hroom
  have hshort {n : ℕ} (value : ℕ) (hn : n ≤ 4) :
      WritesOrFails buf pos (some (lowBytes 4 n value)) (writeWord 4 n value buf pos) :=
    writes_writeWord value hn (by omega)
  have hlong {n : ℕ} (value : ℕ) (hn : n ≤ 8) :
      WritesOrFails buf pos (some (lowBytes 8 n value)) (writeWord 8 n value buf pos) :=
    writes_writeWord value hn (by omega)
  refine writesOrFails_ite rfl ?_
  refine writesOrFails_ite (hshort _ (by omega)) ?_
  refine writesOrFails_ite (hshort _ (by omega)) ?_
  refine writesOrFails_ite (hshort _ (by omega)) ?_
  refine writesOrFails_ite (hshort _ (by omega)) ?_
  refine writesOrFails_ite (hlong _ (by omega)) ?_
  refine writesOrFails_ite (hlong _ (by omega)) ?_
  refine writesOrFails_ite (hlong _ (by omega)) ?_
  refine writesOrFails_ite (hlong _ (by omega)) ?_
  exact writesOrFails_ite (writes_marked _ hroom) rfl

/-- The encoding of a number takes from one to nine bytes. -/
lemma length_writeInteger {x : Int} {w : List UInt8} (h : writeInteger x = some w) :
    1 ≤ w.length ∧ w.length ≤ maxSizeOfInteger := by
  unfold maxSizeOfInteger
  unfold writeInteger at h
  dsimp only at h
  have hword {k n value : ℕ} (hn : n ≤ k) (h₁ : 1 ≤ n) (h₉ : n ≤ 9)
      (hw : some (lowBytes k n value) = some w) : 1 ≤ w.length ∧ w.length ≤ 9 := by
    obtain rfl := Option.some.inj hw
    rw [lowBytes_eq hn, length_leBytes]
    exact ⟨h₁, h₉⟩
  split_ifs at h
  · exact hword (by omega) (by omega) (by omega) h
  · exact hword (by omega) (by omega) (by omega) h
  · exact hword (by omega) (by omega) (by omega) h
  · exact hword (by omega) (by omega) (by omega) h
  · exact hword (by omega) (by omega) (by omega) h
  · exact hword (by omega) (by omega) (by omega) h
  · exact hword (by omega) (by omega) (by omega) h
  · exact hword (by omega) (by omega) (by omega) h
  · obtain rfl := Option.some.inj h
    rw [List.length_cons, length_leBytes]
    exact ⟨by omega, le_rfl⟩

/-- `Integer`. -/
def integer : FastBufferData Int where
  maxSizeOf := maxSizeOfInteger
  writeUnchecked := writeUncheckedInteger
  encode := writeInteger
  length_le _ _ h := (length_writeInteger h).2
  writes _ x _ hroom := writesOrFails_integer x hroom

/-! ## The stream -/

/-- `OutStream`. -/
structure OutStream where
  /-- The current buffer, `ref_size` bytes long. -/
  buf : List UInt8
  /-- `ref_pos`. -/
  pos : ℕ
  /-- The buffers that `receiveBuf` will give. -/
  supply : ℕ → List UInt8
  /-- The data that `sendBuf` was given. -/
  sent : List (List UInt8)

/-- `create`. -/
def create (supply : ℕ → List UInt8) : OutStream where
  buf := supply 0
  pos := 0
  supply := fun i => supply (i + 1)
  sent := []

/-- `sendBuffer`. -/
def sendBuffer (s : OutStream) : OutStream := { s with sent := s.sent ++ [s.buf.take s.pos] }

/-- `receiveBuffer`. -/
def receiveBuffer (s : OutStream) : OutStream :=
  { s with
    buf := s.supply 0
    pos := 0
    supply := fun i => s.supply (i + 1) }

/-- `ensureFreeSpaceInOutStream`. -/
def ensureFreeSpaceInOutStream (s : OutStream) (bytes : ℕ) : Except Failure OutStream :=
  if (s.pos + bytes : Int) > s.buf.length - 1 then
    let s := receiveBuffer (sendBuffer s)
    if (s.pos + bytes : Int) > s.buf.length - 1 then .error .buffer else .ok s
  else .ok s

/-- `closeOut`; what was sent. -/
def closeOut (s : OutStream) : List (List UInt8) := (sendBuffer s).sent

/-- Write a value without a check. -/
def writeNext {α : Type} (t : FastBufferData α) (s : OutStream) (x : α) : Except Failure OutStream := do
  let (buf, pos) ← t.writeUnchecked s.buf x s.pos
  return { s with buf, pos }

/-- `writeFast`. -/
def writeFast {α : Type} (t : FastBufferData α) (s : OutStream) (x : α) : Except Failure OutStream := do
  let s ← ensureFreeSpaceInOutStream s t.maxSizeOf
  writeNext t s x

/-- `aSIZE`: how many items of a list are written without a check. -/
def aSIZE : ℕ := 100

/-- `writeListFast`. -/
def writeListFast {α : Type} (t : FastBufferData α) (s : OutStream) (list : List α) :
    Except Failure OutStream := do
  let s ← ensureFreeSpaceInOutStream s (aSIZE * t.maxSizeOf)
  let s ← (list.take aSIZE).foldlM (writeNext t) s
  if list.length ≤ aSIZE then return s else writeListFast t s (list.drop aSIZE)
termination_by list.length
decreasing_by
  rw [List.length_drop]
  unfold aSIZE at *
  omega

/-- Where the stream has made sure of free space, there is one byte more. -/
lemma room_of_ensure {s s' : OutStream} {bytes : ℕ} (h : ensureFreeSpaceInOutStream s bytes = .ok s') :
    s'.pos + bytes + 1 ≤ s'.buf.length := by
  unfold ensureFreeSpaceInOutStream at h
  dsimp only at h
  split_ifs at h with hfull hfull'
  · obtain rfl := Except.ok.inj h
    omega
  · obtain rfl := Except.ok.inj h
    omega

/-- `writeBuf`. -/
def writeBuf (s : OutStream) (data : List UInt8) : Except Failure OutStream :=
  if data.length > 0 then
    match h : ensureFreeSpaceInOutStream s 1 with
    | .error e => .error e
    | .ok s =>
      let len := min data.length (s.buf.length - s.pos)
      match poke s.buf s.pos (data.take len) with
      | .error e => .error e
      | .ok buf => writeBuf { s with buf, pos := s.pos + len } (data.drop len)
  else .ok s
termination_by data.length
decreasing_by
  have hroom := room_of_ensure h
  rw [List.length_drop]
  omega

/-! ## Sequences of values -/

/-- One operation on a stream. -/
inductive Op : Type 1
  /-- `write` of a value. -/
  | value {α : Type} (t : FastBufferData α) (x : α)
  /-- `writeList` of values. -/
  | list {α : Type} (t : FastBufferData α) (xs : List α)
  /-- `writeBuf`. -/
  | block (data : List UInt8)

namespace Op

/-- What the operation does. -/
def run (s : OutStream) : Op → Except Failure OutStream
  | value t x => writeFast t s x
  | list t xs => writeListFast t s xs
  | block data => writeBuf s data

/-- The encoding of what the operation writes. -/
def encode : Op → Option (List UInt8)
  | value t x => t.encode x
  | list t xs => encodeAll t.encode xs
  | block data => some data

/-- The free space that the operation asks for. -/
def reserve : Op → ℕ
  | value t _ => t.maxSizeOf
  | list t _ => aSIZE * t.maxSizeOf
  | block _ => 1

end Op

/-- `write` for `String`. -/
def writeStringOps (s : Str) : List Op :=
  [.list (storable 1) ((toUTF8List s).map fun b => b.toBitVec), .value (storable 1) 0#8]

/-- `writeAll`: a stream is created, the values are written one after another, and the stream is closed. -/
def writeAll (supply : ℕ → List UInt8) (ops : List Op) : Except Failure (List (List UInt8)) := do
  let s ← ops.foldlM Op.run (create supply)
  return closeOut s

/-! ## What comes out -/

/-- What was sent and what is in the buffer is `w`; the buffers that will be given are some of `supply`. -/
structure Holds (supply : ℕ → List UInt8) (w : List UInt8) (s : OutStream) : Prop where
  flatten : s.sent.flatten ++ s.buf.take s.pos = w
  pos_le : s.pos ≤ s.buf.length
  supply_eq : ∀ i, ∃ j, s.supply i = supply j

/-- How an operation can end that adds `o` to what is in the stream; a buffer of a length for which `small` holds
makes it fail. -/
inductive Ends (supply : ℕ → List UInt8) (w : List UInt8) (o : Option (List UInt8)) (small : ℕ → Prop) :
    Except Failure OutStream → Prop
  | ok {s : OutStream} {v : List UInt8} (ho : o = some v) (h : Holds supply (w ++ v) s) :
      Ends supply w o small (.ok s)
  | value (ho : o = none) : Ends supply w o small (.error .value)
  | buffer {j : ℕ} (h : small (supply j).length) : Ends supply w o small (.error .buffer)

variable {supply : ℕ → List UInt8} {w : List UInt8} {s : OutStream} {o : Option (List UInt8)}
  {small small' : ℕ → Prop}

/-- What was in the stream before can be counted as written. -/
lemma Ends.prepend {m : Except Failure OutStream} {v : List UInt8} (h : Ends supply (w ++ v) o small m) :
    Ends supply w (o.map fun u => v ++ u) small m := by
  cases h with
  | value ho => exact .value (by rw [ho]; rfl)
  | buffer h => exact .buffer h
  | @ok s u ho h =>
    refine .ok (v := v ++ u) (by rw [ho]; rfl) ?_
    rwa [← List.append_assoc]

/-- One operation after another. -/
lemma Ends.bind {m : Except Failure OutStream} {f : OutStream → Except Failure OutStream}
    {o' : Option (List UInt8)} (h : Ends supply w o small m)
    (hf : ∀ s v, m = .ok s → o = some v → Holds supply (w ++ v) s → Ends supply (w ++ v) o' small (f s)) :
    Ends supply w (o.bind fun v => o'.map fun v' => v ++ v') small (m >>= f) := by
  cases h with
  | value ho => exact .value (by rw [ho]; rfl)
  | buffer h => exact .buffer h
  | @ok s v ho h =>
    rw [ho]
    exact (hf s v rfl ho h).prepend

/-- More buffers may be too small. -/
lemma Ends.mono {m : Except Failure OutStream} (h : Ends supply w o small m)
    (hsmall : ∀ n, small n → small' n) : Ends supply w o small' m := by
  cases h with
  | ok ho h => exact .ok ho h
  | value ho => exact .value ho
  | buffer h => exact .buffer (hsmall _ h)

/-- Sending the buffer off and receiving a new one keeps what is in the stream. -/
lemma holds_receive (h : Holds supply w s) : Holds supply w (receiveBuffer (sendBuffer s)) where
  flatten := by
    dsimp only [receiveBuffer, sendBuffer]
    rw [List.flatten_append, List.flatten_singleton, List.take_zero, List.append_nil, h.flatten]
  pos_le := Nat.zero_le _
  supply_eq i := h.supply_eq (i + 1)

/-- Making sure of free space adds nothing, and goes on with enough of it. -/
lemma Ends.of_ensure {f : OutStream → Except Failure OutStream} (h : Holds supply w s) {bytes : ℕ}
    (hsmall : ∀ n ≤ bytes, small n)
    (hf : ∀ s, s.pos + bytes + 1 ≤ s.buf.length → Holds supply w s → Ends supply w o small (f s)) :
    Ends supply w o small (ensureFreeSpaceInOutStream s bytes >>= f) := by
  cases hs : ensureFreeSpaceInOutStream s bytes with
  | error e =>
    unfold ensureFreeSpaceInOutStream at hs
    dsimp only at hs
    split_ifs at hs with hfull hfull'
    obtain rfl := Except.error.inj hs
    obtain ⟨j, hj⟩ := h.supply_eq 0
    refine .buffer (j := j) (hsmall _ ?_)
    rw [← hj]
    dsimp only [receiveBuffer, sendBuffer] at hfull'
    omega
  | ok s' =>
    refine hf s' (room_of_ensure hs) ?_
    unfold ensureFreeSpaceInOutStream at hs
    dsimp only at hs
    split_ifs at hs
    · obtain rfl := Except.ok.inj hs
      exact holds_receive h
    · obtain rfl := Except.ok.inj hs
      exact h

section

variable {α : Type} {t : FastBufferData α}

/-- A value that is written without a check. -/
lemma ends_writeNext (h : Holds supply w s) (x : α) (hroom : s.pos + t.maxSizeOf ≤ s.buf.length) :
    Ends supply w (t.encode x) small (writeNext t s x) := by
  have hwrites := t.writes s.buf x s.pos hroom
  cases ho : t.encode x with
  | none =>
    rw [ho] at hwrites
    have hfail : t.writeUnchecked s.buf x s.pos = .error .value := hwrites
    rw [writeNext, hfail]
    exact .value rfl
  | some v =>
    rw [ho] at hwrites
    obtain ⟨buf', hwrite, hlen, htake⟩ := hwrites
    have hv := t.length_le x v ho
    rw [writeNext, hwrite]
    refine .ok rfl ⟨?_, ?_, h.supply_eq⟩
    · dsimp only
      rw [htake, ← List.append_assoc, h.flatten]
    · dsimp only
      omega

/-- A value that is written without a check takes no more than was asked for. -/
lemma pos_of_writeNext {x : α} {s' : OutStream} (hroom : s.pos + t.maxSizeOf ≤ s.buf.length)
    (h : writeNext t s x = .ok s') : s'.buf.length = s.buf.length ∧ s'.pos ≤ s.pos + t.maxSizeOf := by
  have hwrites := t.writes s.buf x s.pos hroom
  cases ho : t.encode x with
  | none =>
    rw [ho] at hwrites
    have hfail : t.writeUnchecked s.buf x s.pos = .error .value := hwrites
    rw [writeNext, hfail] at h
    cases h
  | some v =>
    rw [ho] at hwrites
    obtain ⟨buf', hwrite, hlen, -⟩ := hwrites
    have hv := t.length_le x v ho
    rw [writeNext, hwrite] at h
    obtain rfl := Except.ok.inj h
    exact ⟨hlen, Nat.add_le_add_left hv _⟩

/-- Values that are written without a check. -/
lemma ends_portion {xs : List α} (h : Holds supply w s)
    (hroom : s.pos + xs.length * t.maxSizeOf ≤ s.buf.length) :
    Ends supply w (encodeAll t.encode xs) small (xs.foldlM (writeNext t) s) := by
  induction xs generalizing s w with
  | nil => exact .ok rfl ((List.append_nil w).symm ▸ h)
  | cons x xs ih =>
    rw [List.length_cons, Nat.succ_mul] at hroom
    have hfirst : s.pos + t.maxSizeOf ≤ s.buf.length := by omega
    rw [encodeAll_cons, List.foldlM_cons]
    refine (ends_writeNext h x hfirst).bind fun s' v hs' _ h' => ih h' ?_
    obtain ⟨hlen, hle⟩ := pos_of_writeNext hfirst hs'
    omega

/-- `writeFast` adds the encoding of the value. -/
lemma ends_writeFast (h : Holds supply w s) (x : α) :
    Ends supply w (t.encode x) (· ≤ t.maxSizeOf) (writeFast t s x) :=
  .of_ensure h (fun _ hn => hn) fun s hroom h => ends_writeNext h x (by omega)

/-- `writeListFast` adds the encodings of the items. -/
lemma ends_writeListFast {xs : List α} (h : Holds supply w s) :
    Ends supply w (encodeAll t.encode xs) (· ≤ aSIZE * t.maxSizeOf) (writeListFast t s xs) := by
  induction hn : xs.length using Nat.strong_induction_on generalizing xs s w with
  | _ n ih =>
    subst hn
    rw [writeListFast]
    refine .of_ensure h (fun _ hn => hn) fun s hroom h => ?_
    have hle : (xs.take aSIZE).length * t.maxSizeOf ≤ aSIZE * t.maxSizeOf :=
      Nat.mul_le_mul_right _ (List.length_take_le _ _)
    have hportion : Ends supply w (encodeAll t.encode (xs.take aSIZE)) (· ≤ aSIZE * t.maxSizeOf)
        ((xs.take aSIZE).foldlM (writeNext t) s) := ends_portion h (by omega)
    have hsplit := encodeAll_append t.encode (xs.take aSIZE) (xs.drop aSIZE)
    rw [List.take_append_drop] at hsplit
    rw [hsplit]
    refine hportion.bind fun s' v _ _ h' => ?_
    by_cases hshort : xs.length ≤ aSIZE
    · rw [if_pos hshort, List.drop_of_length_le hshort]
      exact .ok rfl ((List.append_nil _).symm ▸ h')
    · rw [if_neg hshort]
      refine ih _ ?_ h' rfl
      rw [List.length_drop]
      unfold aSIZE at *
      omega

end

/-- `writeBuf` of some data. -/
lemma writeBuf_of_pos {data : List UInt8} (h : data.length > 0) :
    writeBuf s data = (do
      let s ← ensureFreeSpaceInOutStream s 1
      let len := min data.length (s.buf.length - s.pos)
      let buf ← poke s.buf s.pos (data.take len)
      writeBuf { s with buf, pos := s.pos + len } (data.drop len)) := by
  rw [writeBuf, if_pos h]
  split
  · next e he =>
    rw [he]
    rfl
  · next s' hs' =>
    rw [hs']
    dsimp only [bind, Except.bind]
    cases poke s'.buf s'.pos (data.take (min data.length (s'.buf.length - s'.pos))) <;> rfl

/-- `writeBuf` adds the data. -/
lemma ends_writeBuf {data : List UInt8} (h : Holds supply w s) :
    Ends supply w (some data) (· ≤ 1) (writeBuf s data) := by
  induction hn : data.length using Nat.strong_induction_on generalizing data s w with
  | _ n ih =>
    subst hn
    by_cases hpos : data.length > 0
    · rw [writeBuf_of_pos hpos]
      refine .of_ensure h (fun _ hn => hn) fun s hroom h => ?_
      dsimp only
      generalize hk : min data.length (s.buf.length - s.pos) = k
      have hlen : (data.take k).length = k := by
        rw [List.length_take]
        omega
      have hroom' : s.pos + (data.take k).length ≤ s.buf.length := by omega
      obtain ⟨buf', hpoke, hlength, htake⟩ := poke_of_le hroom' hlen.ge
      rw [List.take_take, min_self] at htake
      rw [hpoke]
      have hholds : Holds supply (w ++ data.take k) { s with buf := buf', pos := s.pos + k } := by
        refine ⟨?_, ?_, h.supply_eq⟩
        · dsimp only
          rw [htake, ← List.append_assoc, h.flatten]
        · dsimp only
          omega
      have hshort : (data.drop k).length < data.length := by
        rw [List.length_drop]
        omega
      have hrest := (ih _ hshort hholds rfl).prepend
      rw [Option.map_some, List.take_append_drop] at hrest
      exact hrest
    · rw [writeBuf, if_neg hpos, List.eq_nil_of_length_eq_zero (Nat.eq_zero_of_not_pos hpos)]
      exact .ok rfl ((List.append_nil w).symm ▸ h)

/-- Every operation adds its encoding. -/
lemma ends_run (h : Holds supply w s) (op : Op) : Ends supply w op.encode (· ≤ op.reserve) (op.run s) := by
  cases op with
  | value t x => exact ends_writeFast h x
  | list t xs => exact ends_writeListFast h
  | block data => exact ends_writeBuf h

/-- Operations add their encodings one after another. -/
lemma ends_foldlM (h : Holds supply w s) (ops : List Op) :
    Ends supply w (encodeAll Op.encode ops) (fun n => ∃ op ∈ ops, n ≤ op.reserve)
      (ops.foldlM Op.run s) := by
  induction ops generalizing s w with
  | nil => exact .ok rfl ((List.append_nil w).symm ▸ h)
  | cons op ops ih =>
    rw [encodeAll_cons, List.foldlM_cons]
    have hfirst : Ends supply w op.encode (fun n => ∃ op' ∈ op :: ops, n ≤ op'.reserve) (op.run s) :=
      (ends_run h op).mono fun n hn => ⟨op, List.mem_cons_self, hn⟩
    refine hfirst.bind fun s' v _ _ h' => (ih h').mono ?_
    rintro n ⟨op', hop', hn⟩
    exact ⟨op', List.mem_cons_of_mem _ hop', hn⟩

/-- A new stream is empty. -/
lemma holds_create (supply : ℕ → List UInt8) : Holds supply [] (create supply) where
  flatten := rfl
  pos_le := Nat.zero_le _
  supply_eq i := ⟨i + 1, rfl⟩

/-- Closing the stream sends what is still in the buffer. -/
lemma flatten_closeOut (h : Holds supply w s) : (closeOut s).flatten = w := by
  rw [closeOut, sendBuffer, List.flatten_append, List.flatten_singleton]
  exact h.flatten

/-- **What comes out of the stream**: the encodings of the values, unless one of them has none or a buffer is
not larger than what is asked for; no write goes past the end of a buffer. -/
theorem writeAll_ends (supply : ℕ → List UInt8) (ops : List Op) :
    match writeAll supply ops with
    | .ok chunks => encodeAll Op.encode ops = some chunks.flatten
    | .error .value => encodeAll Op.encode ops = none
    | .error .buffer => ∃ i, ∃ op ∈ ops, (supply i).length ≤ op.reserve
    | .error .overrun => False := by
  have hends := ends_foldlM (holds_create supply) ops
  rw [writeAll]
  generalize ops.foldlM Op.run (create supply) = r at hends
  cases hends with
  | @ok s v ho h => exact ho.trans (congrArg some (flatten_closeOut h).symm)
  | value ho => exact ho
  | buffer h => exact ⟨_, h⟩

/-- **Buffering is transparent**: when the values have encodings and every buffer is larger than what a value
asks for, the chunks that are sent make up the encodings; whatever the values and the buffers are, no write
goes past the end of a buffer. -/
theorem writeAll_transparent (supply : ℕ → List UInt8) (ops : List Op) :
    writeAll supply ops ≠ .error .overrun ∧
      ∀ w, encodeAll Op.encode ops = some w → (∀ i, ∀ op ∈ ops, op.reserve < (supply i).length) →
        ∃ chunks, writeAll supply ops = .ok chunks ∧ chunks.flatten = w := by
  have hends := writeAll_ends supply ops
  cases hrun : writeAll supply ops with
  | ok chunks =>
    rw [hrun] at hends
    refine ⟨fun h => (by cases h), fun w hw _ => ⟨chunks, rfl, ?_⟩⟩
    exact Option.some.inj (hends.symm.trans hw)
  | error e =>
    rw [hrun] at hends
    cases e with
    | overrun => exact absurd hends not_false
    | value =>
      refine ⟨fun h => (by cases h), fun w hw _ => ?_⟩
      exact absurd (hw.symm.trans hends) (Option.some_ne_none _)
    | buffer =>
      obtain ⟨i, op, hop, hle⟩ := hends
      exact ⟨fun h => (by cases h), fun w _ hlarge => absurd hle (not_le.mpr (hlarge i op hop))⟩

/-- A string of one character in a buffer of 256 bytes. -/
theorem writeAll_transparent_small :
    ∃ chunks, writeAll (fun _ => List.replicate 256 0) (writeStringOps [97]) = .ok chunks ∧
      chunks.flatten = [97, 0] := by
  refine (writeAll_transparent _ _).2 [97, 0] rfl fun i op hop => ?_
  simp only [writeStringOps, List.mem_cons, List.not_mem_nil, or_false] at hop
  rcases hop with rfl | rfl <;> rw [List.length_replicate] <;> decide

/-- The bytes that a single value of the operation takes at most. -/
def Op.largest : Op → ℕ
  | value t _ => t.maxSizeOf
  | list t _ => t.maxSizeOf
  | block _ => 1

/-- A string is not written to a buffer of 64 bytes. -/
lemma writeAll_string_small :
    writeAll (fun _ => List.replicate 64 0) (writeStringOps [97]) = .error .buffer := by
  rw [writeAll, writeStringOps, List.foldlM_cons, Op.run, writeListFast]
  rfl

/-- **Room for each single value is not enough**: a list asks for the room of a hundred of its items. -/
theorem not_transparent :
    ¬∀ supply ops w, encodeAll Op.encode ops = some w →
      (∀ i, ∀ op ∈ ops, op.largest ≤ (supply i).length) →
        ∃ chunks, writeAll supply ops = .ok chunks ∧ chunks.flatten = w := by
  intro h
  obtain ⟨chunks, hrun, -⟩ := h (fun _ => List.replicate 64 0) (writeStringOps [97]) [97, 0] rfl (by
    intro i op hop
    simp only [writeStringOps, List.mem_cons, List.not_mem_nil, or_false] at hop
    rcases hop with rfl | rfl <;> rw [List.length_replicate] <;> decide)
  cases writeAll_string_small.symm.trans hrun

end DArc.Archive
