import DArc.Compression.Common
import DArc.Library.Spans

/-!
# Match records

A compressed block has a list of 32-bit words (`STAT`) for its matches: the length of the literals in front of the
match, its offset in one or two words, and its length without the base length.  With `ROUND_MATCHES` the offset
and the length are counted in units of the base length.  The macros that write and read one record are
`encodeLZMatch` and `decodeLZMatch`; what is read is `statRecords`, the words cut into records.

### Main results

* `statRecords_encode`: the words of a record are cut off as that record;
* `decode_encoded`, `decode_future`: a record is decoded to the match it was written for.
-/

namespace DArc.SREP

/-- Reduction of a result to `Offset`, the type of positions in a file. -/
def uint64 (x : Int) : ℕ := (x % 2 ^ 64).toNat

/-- A position below `2 ^ 64` is kept. -/
lemma uint64_of_lt {n : ℕ} (h : n < 2 ^ 64) : uint64 (n : Int) = n := by
  unfold uint64
  omega

/-- A match: its source and its destination in the file, and its length. -/
@[ext] structure LZMatch where
  src : ℕ
  dest : ℕ
  len : ℕ
  deriving DecidableEq, Repr

/-- The number of words of a match record. -/
def statsPerMatch (roundMatches : Bool) : ℕ := if roundMatches then 3 else 4

/-- The unit of the offset and the length of a record. -/
def unit (roundMatches : Bool) (baseLen : ℕ) : ℕ := if roundMatches then baseLen else 1

/-- The words of one match record; `none` is the error of a match that is shorter than the base length. -/
def encodeLZMatch (roundMatches : Bool) (baseLen litLen offset len : ℕ) : Option (List ℕ) :=
  let unit := unit roundMatches baseLen
  if len < baseLen then none
  else some ([uint32 litLen, uint32 (offset / unit : ℕ)] ++
    (if roundMatches then [] else [uint32 (offset / unit / 2 ^ 32 : ℕ)]) ++ [uint32 ((len - baseLen) / unit : ℕ)])

/-- The fields of a match record: the offset is put together from its words. -/
structure StatRecord where
  litLen : ℕ
  offset : ℕ
  len : ℕ
  deriving DecidableEq, Repr

/-- The words of a block, record by record, as long as they suffice for one more. -/
def statRecords : Bool → List ℕ → List StatRecord
  | true, lit :: offset :: len :: stat => ⟨lit, offset, len⟩ :: statRecords true stat
  | false, lit :: low :: high :: len :: stat => ⟨lit, low + high * 2 ^ 32, len⟩ :: statRecords false stat
  | _, _ => []

/-- The match of a record.  The literals in front of it begin at `basicPos` and end at its destination or, in the
Future-LZ format, at its source. -/
def decodeLZMatch (futureLZ roundMatches : Bool) (baseLen basicPos : ℕ) (r : StatRecord) : LZMatch :=
  let unit := unit roundMatches baseLen
  let offset := uint64 (r.offset * unit : ℕ)
  let len := uint32 (r.len * unit + baseLen : ℕ)
  if futureLZ then
    let src := uint64 (basicPos + r.litLen : ℕ)
    ⟨src, uint64 (src + offset : ℕ), len⟩
  else
    let dest := uint64 (basicPos + r.litLen : ℕ)
    ⟨uint64 ((dest / unit * unit : ℕ) - offset), dest, len⟩

/-- Copies a match inside the output buffer, byte after byte. -/
def memcpyLZMatch (out : List UInt8) (src len : ℕ) : List UInt8 := copyWithin out src len

variable {round future : Bool} {L lit offset len pos : ℕ} {m : LZMatch}

/-! ## Words and records -/

/-- What one record of the list can hold. -/
structure Encodable (roundMatches : Bool) (baseLen litLen offset len : ℕ) : Prop where
  base_le : baseLen ≤ len
  len_lt : len < 2 ^ 32
  litLen_lt : litLen < 2 ^ 32
  offset_lt : offset < 2 ^ 64
  rounded : roundMatches = true → offset / baseLen < 2 ^ 32

/-- The record of a match. -/
def recordOf (roundMatches : Bool) (baseLen litLen offset len : ℕ) : StatRecord :=
  ⟨litLen, offset / unit roundMatches baseLen, (len - baseLen) / unit roundMatches baseLen⟩

/-- The words of a match that can be written. -/
def wordsOf (roundMatches : Bool) (baseLen litLen offset len : ℕ) : List ℕ :=
  [uint32 litLen, uint32 (offset / unit roundMatches baseLen : ℕ)] ++
    (if roundMatches then [] else [uint32 (offset / unit roundMatches baseLen / 2 ^ 32 : ℕ)]) ++
    [uint32 ((len - baseLen) / unit roundMatches baseLen : ℕ)]

/-- A match of at least the base length can be written. -/
lemma encodeLZMatch_of_le (h : L ≤ len) :
    encodeLZMatch round L lit offset len = some (wordsOf round L lit offset len) := by
  unfold encodeLZMatch
  dsimp only
  rw [if_neg (Nat.not_lt.mpr h)]
  rfl

/-- The number of words of a record. -/
lemma length_wordsOf : (wordsOf round L lit offset len).length = statsPerMatch round := by
  unfold wordsOf statsPerMatch
  cases round <;> rfl

/-- Without a base length every match can be written. -/
lemma encodeLZMatch_zero :
    encodeLZMatch round 0 lit offset len = some (wordsOf round 0 lit offset len) :=
  encodeLZMatch_of_le (Nat.zero_le _)

/-- The two words of an offset give the offset back. -/
lemma low_add_high (n : ℕ) (h : n < 2 ^ 64) : uint32 (n : Int) + uint32 (n / 2 ^ 32 : ℕ) * 2 ^ 32 = n := by
  unfold uint32
  omega

/-- **The words of a record are cut off as that record.** -/
theorem statRecords_encode (h : Encodable round L lit offset len) (stat : List ℕ) :
    statRecords round (wordsOf round L lit offset len ++ stat) =
      recordOf round L lit offset len :: statRecords round stat := by
  have hlit := uint32_of_lt h.litLen_lt
  have hshort : (len - L) / unit round L < 2 ^ 32 :=
    (Nat.div_le_self _ _).trans_lt ((Nat.sub_le _ _).trans_lt h.len_lt)
  have hlen := uint32_of_lt hshort
  unfold wordsOf recordOf
  cases round with
  | true =>
    have hoffset : uint32 (offset / unit true L : ℕ) = offset / unit true L := uint32_of_lt (h.rounded rfl)
    rw [hlit, hlen, hoffset]
    rfl
  | false =>
    have hle : offset / unit false L < 2 ^ 64 := (Nat.div_le_self _ _).trans_lt h.offset_lt
    have hoffset := low_add_high (offset / unit false L) hle
    rw [hlit, hlen, if_neg Bool.false_ne_true]
    simp only [List.cons_append, List.nil_append, statRecords]
    rw [hoffset]

/-! ## Records and matches -/

/-- The unit of the records without rounding. -/
@[simp] lemma unit_false : unit false L = 1 := rfl

/-- The unit of the rounded records. -/
@[simp] lemma unit_true : unit true L = L := rfl

/-- The base length is a multiple of the unit. -/
lemma unit_dvd_base : unit round L ∣ L := by
  cases round with
  | true => exact dvd_rfl
  | false => exact one_dvd L

/-- The length of a record is the length of its match. -/
lemma decoded_len (hbase : L ≤ len) (hlen : len < 2 ^ 32) (hdvd : unit round L ∣ len) :
    uint32 ((len - L) / unit round L * unit round L + L : ℕ) = len := by
  rw [Nat.div_mul_cancel (Nat.dvd_sub hdvd unit_dvd_base), Nat.sub_add_cancel hbase]
  exact uint32_of_lt hlen

/-- Rounding the destination and the offset down gives a source that is a multiple of the unit. -/
lemma rounded_src {u src dest : ℕ} (hu : 0 < u) (hsrc : u ∣ src) (hle : src ≤ dest) :
    ((dest / u * u : ℕ) : Int) - ((dest - src) / u * u : ℕ) = src := by
  obtain ⟨k, rfl⟩ := hsrc
  have hk : k ≤ dest / u := (Nat.le_div_iff_mul_le hu).mpr (by rw [Nat.mul_comm]; exact hle)
  have hquot : (dest - u * k) / u = dest / u - k := Nat.sub_mul_div dest u k
  have hsplit : dest / u * u = (dest / u - k) * u + u * k := by
    rw [Nat.mul_comm u k, ← Nat.add_mul, Nat.sub_add_cancel hk]
  rw [hquot, hsplit]
  push_cast
  ring

/-- **A record is decoded to the match it was written for.** -/
theorem decode_encoded (hunit : 0 < unit round L) (hdest : m.dest = pos + lit) (hlt : m.dest < 2 ^ 64)
    (hle : m.src ≤ m.dest) (hsrc : unit round L ∣ m.src) (hdvd : unit round L ∣ m.len) (hbase : L ≤ m.len)
    (hlen : m.len < 2 ^ 32) :
    decodeLZMatch false round L pos (recordOf round L lit (m.dest - m.src) m.len) = m := by
  have hshort : (m.dest - m.src) / unit round L * unit round L < 2 ^ 64 :=
    (Nat.div_mul_le_self _ _).trans_lt ((Nat.sub_le _ _).trans_lt hlt)
  have hoffset := uint64_of_lt hshort
  have hpos : uint64 ((pos + lit : ℕ) : Int) = m.dest := by rw [← hdest]; exact uint64_of_lt hlt
  have hback := uint64_of_lt (hle.trans_lt hlt)
  unfold decodeLZMatch recordOf
  dsimp only
  rw [if_neg Bool.false_ne_true, decoded_len hbase hlen hdvd, hoffset, hpos, rounded_src hunit hsrc hle, hback]

/-- A record of the Future-LZ format is decoded to the match it was written for. -/
lemma decode_future (hsrc : m.src = pos + lit) (hlt : m.dest < 2 ^ 64) (hle : m.src ≤ m.dest)
    (hlen : m.len < 2 ^ 32) :
    decodeLZMatch true false 0 pos (recordOf false 0 lit (m.dest - m.src) m.len) = m := by
  have hoffset : uint64 ((m.dest - m.src : ℕ) : Int) = m.dest - m.src :=
    uint64_of_lt ((Nat.sub_le _ _).trans_lt hlt)
  have hpos : uint64 ((pos + lit : ℕ) : Int) = m.src := by
    rw [← hsrc]
    exact uint64_of_lt (hle.trans_lt hlt)
  have hback : uint64 ((m.src + (m.dest - m.src) : ℕ) : Int) = m.dest := by
    rw [Nat.add_sub_cancel' hle]
    exact uint64_of_lt hlt
  have hshort : uint32 ((m.len - 0) / unit false 0 * unit false 0 + 0 : ℕ) = m.len :=
    decoded_len (Nat.zero_le m.len) hlen (one_dvd _)
  unfold decodeLZMatch recordOf
  dsimp only
  rw [if_pos rfl, hshort, unit_false, Nat.div_one, Nat.mul_one, hoffset, hpos, hback]

end DArc.SREP
