import DArc.Library.IntervalCoding
import Mathlib.Data.Nat.Bitwise

/-!
# The range coder

The coder keeps the low end of its interval in `low`, apart from the bytes that are put out already, one byte in
`buffer`, and `help` bytes 255 behind it that wait for a carry.  The decoder keeps how far the code is behind the low
end of the same interval.

### Outline

* `TRangeCoder`, `TRangeDecoder`: the two coders;
* `TRangeCoder.value`, `TRangeCoder.interval`: the low end with all of its bytes, and the interval of the code;
* `TRangeCoder.Ok`: the room that there is for a carry;
* `TRangeCoder.CanWait`: another byte can be counted among those that wait;
* `TRangeDecoder.Synced`: the decoder is where the encoder was.

### Main results

* `TRangeCoder.shiftLow_spec`: another byte is taken off the low end, and a carry goes through all bytes that wait;
* `TRangeCoder.encode_spec`, `TRangeCoder.finish_spec`: the bytes put out are a number in the last interval;
* `TRangeDecoder.Synced.exists_step`: the decoder follows the encoder.
-/

namespace DArc.Tornado

/-! ## The coders -/

/-- `TRangeCoder`, with the bytes that are put out. -/
structure TRangeCoder where
  low : ℕ
  range : ℕ
  buffer : ℕ
  help : ℕ
  output : List UInt8
  deriving DecidableEq

namespace TRangeCoder

/-- The constructor. -/
def new : TRangeCoder where
  low := 0
  range := 0xffffffff
  buffer := 0
  help := 0
  output := []

/-- `ShiftLow`. -/
def shiftLow (rc : TRangeCoder) : TRangeCoder :=
  if rc.low ^^^ 0xff000000 ≥ 2 ^ 24 then
    let c := rc.low / 2 ^ 32
    { rc with
      output := rc.output ++ UInt8.ofNat (rc.buffer + c) :: List.replicate rc.help (UInt8.ofNat (c + 255))
      help := 0
      buffer := rc.low % 2 ^ 32 / 2 ^ 24
      low := rc.low % 2 ^ 32 * 2 ^ 8 % 2 ^ 32 }
  else
    { rc with
      help := (rc.help + 1) % 2 ^ 32
      low := rc.low % 2 ^ 32 * 2 ^ 8 % 2 ^ 32 }

/-- The state before `ShiftLow` in the loop of `Encode`. -/
def widened (rc : TRangeCoder) : TRangeCoder := { rc with range := rc.range * 2 ^ 8 }

/-- `ShiftLow` leaves the range alone. -/
@[simp] lemma range_shiftLow (rc : TRangeCoder) : rc.shiftLow.range = rc.range := by
  unfold shiftLow
  split_ifs <;> rfl

/-- The loop of `Encode`; a range of 0, which would be shifted for ever, does not occur. -/
def renormalize (rc : TRangeCoder) : TRangeCoder :=
  if 0 < rc.range ∧ rc.range < 2 ^ 24 then renormalize rc.widened.shiftLow else rc
termination_by 2 ^ 24 - rc.range
decreasing_by
  rename_i h
  rw [range_shiftLow]
  change 2 ^ 24 - rc.range * 2 ^ 8 < 2 ^ 24 - rc.range
  omega

/-- What `Encode` does in front of its loop. -/
def narrowed (cum cnt bits : ℕ) (rc : TRangeCoder) : TRangeCoder :=
  let range := rc.range / 2 ^ bits
  { rc with low := rc.low + cum * range % 2 ^ 32, range := range * cnt % 2 ^ 32 }

/-- `Encode`. -/
def encode (cum cnt bits : ℕ) (rc : TRangeCoder) : TRangeCoder := (rc.narrowed cum cnt bits).renormalize

/-- `finish`. -/
def finish (rc : TRangeCoder) : TRangeCoder := shiftLow^[5] rc

/-- `putlowerbits`. -/
def putlowerbits (n x : ℕ) (rc : TRangeCoder) : TRangeCoder :=
  if n ≤ 24 then rc.encode (x % 2 ^ n) 1 n
  else (rc.encode (x % 2 ^ 15) 1 15).encode (x / 2 ^ 15 % 2 ^ (n - 15)) 1 (n - 15)

end TRangeCoder

/-- `TRangeDecoder`, with the bytes that are still to be read. -/
structure TRangeDecoder where
  range : ℕ
  buffer : ℕ
  input : List UInt8
  deriving DecidableEq

namespace TRangeDecoder

/-- A byte is shifted into the buffer. -/
def shiftByte (rd : TRangeDecoder) : Option TRangeDecoder :=
  match rd.input with
  | [] => none
  | b :: rest => some { rd with buffer := (rd.buffer * 2 ^ 8 + b.toNat) % 2 ^ 32, input := rest }

/-- Some bytes are shifted into the buffer. -/
def shiftBytes : ℕ → TRangeDecoder → Option TRangeDecoder
  | 0, rd => some rd
  | k + 1, rd => rd.shiftByte.bind (shiftBytes k)

/-- The constructor; the buffer has any contents before. -/
def new (buffer : ℕ) (data : List UInt8) : Option TRangeDecoder :=
  shiftBytes 5 { range := 0xffffffff, buffer := buffer, input := data }

/-- `GetCount`. -/
def getCount (bits : ℕ) (rd : TRangeDecoder) : Option (ℕ × TRangeDecoder) :=
  let range := rd.range / 2 ^ bits
  let count := rd.buffer / range
  if range = 0 ∨ count ≥ 2 ^ bits then none else some (count, { rd with range := range })

/-- A byte leaves the range alone. -/
lemma range_of_shiftByte {rd rd' : TRangeDecoder} (h : rd.shiftByte = some rd') : rd'.range = rd.range := by
  unfold shiftByte at h
  split at h
  · cases h
  · obtain rfl := Option.some.inj h
    rfl

/-- The loop of `Update`; see `TRangeCoder.renormalize`. -/
def renormalize (rd : TRangeDecoder) : Option TRangeDecoder :=
  if 0 < rd.range ∧ rd.range < 2 ^ 24 then
    match _hnext : { rd with range := rd.range * 2 ^ 8 }.shiftByte with
    | none => none
    | some rd' => renormalize rd'
  else some rd
termination_by 2 ^ 24 - rd.range
decreasing_by
  rename_i hrange
  rw [range_of_shiftByte _hnext]
  change 2 ^ 24 - rd.range * 2 ^ 8 < 2 ^ 24 - rd.range
  omega

/-- `Update`. -/
def update (cum cnt : ℕ) (rd : TRangeDecoder) : Option TRangeDecoder :=
  renormalize {
    rd with
    buffer := (rd.buffer + 2 ^ 32 - cum * rd.range % 2 ^ 32) % 2 ^ 32
    range := rd.range * cnt % 2 ^ 32 }

/-- `getbits`. -/
def getbits (n : ℕ) (rd : TRangeDecoder) : Option (ℕ × TRangeDecoder) :=
  if n ≤ 24 then do
    let (x, rd) ← rd.getCount n
    let rd ← rd.update x 1
    return (x, rd)
  else do
    let (x1, rd) ← rd.getCount 15
    let rd ← rd.update x1 1
    let (x2, rd) ← rd.getCount (n - 15)
    let rd ← rd.update x2 1
    return (x2 * 2 ^ 15 + x1, rd)

end TRangeDecoder

/-! ## The encoder's interval -/

namespace TRangeCoder

variable {rc : TRangeCoder} {range : ℕ}

/-- The number that the bytes put out, `buffer` and the bytes that wait spell. -/
def settled (rc : TRangeCoder) : ℕ :=
  (beValue rc.output * 256 + rc.buffer) * 256 ^ rc.help + (256 ^ rc.help - 1)

/-- The low end of the interval with all of its bytes. -/
def value (rc : TRangeCoder) : ℕ := rc.settled * 2 ^ 32 + rc.low

/-- The bytes that were taken off the low end, without `buffer`. -/
def bytes (rc : TRangeCoder) : ℕ := rc.output.length + rc.help

/-- The interval of the code. -/
def interval (rc : TRangeCoder) : CodeInterval := ⟨rc.value, rc.range⟩

/-- Another byte can be counted among those that wait, if it has to. -/
def CanWait (rc : TRangeCoder) : Prop := rc.low ^^^ 0xff000000 < 2 ^ 24 → rc.help + 1 < 2 ^ 32

/-- There is room for the only carry that is possible, where the interval has a given range. -/
structure Ok (rc : TRangeCoder) (range : ℕ) : Prop where
  buffer_lt : rc.buffer < 256
  range_pos : 0 < range
  fits : rc.low + range < 2 ^ 33
  no_carry : rc.buffer = 255 → rc.low + range ≤ 2 ^ 32

/-- A smaller range leaves more room. -/
lemma Ok.mono (h : rc.Ok range) {range' : ℕ} (hpos : 0 < range') (hle : range' ≤ range) : rc.Ok range' where
  buffer_lt := h.buffer_lt
  range_pos := hpos
  fits := (Nat.add_le_add_left hle _).trans_lt h.fits
  no_carry hbuffer := (Nat.add_le_add_left hle _).trans (h.no_carry hbuffer)

/-- There is room at first. -/
lemma ok_new : TRangeCoder.new.Ok TRangeCoder.new.range := ⟨by decide, by decide, by decide, by decide⟩

/-- The condition of `ShiftLow`: the byte taken off is 255, and there is no carry. -/
lemma xor_lt_iff (low : ℕ) : low ^^^ 0xff000000 < 2 ^ 24 ↔ low / 2 ^ 24 = 255 := by
  have hshift : (low ^^^ 0xff000000) / 2 ^ 24 = low / 2 ^ 24 ^^^ 255 := Nat.xor_div_two_pow
  rw [← Nat.div_eq_zero_iff_lt (by positivity), hshift, Nat.xor_eq_zero_iff]

/-- What `ShiftLow` leaves of the low end. -/
lemma low_shiftLow (rc : TRangeCoder) : rc.shiftLow.low = rc.low % 2 ^ 24 * 256 := by
  have hlow : rc.shiftLow.low = rc.low % 2 ^ 32 * 2 ^ 8 % 2 ^ 32 := by
    unfold shiftLow
    split_ifs <;> rfl
  rw [hlow]
  omega

/-- `ShiftLow` where the byte has to wait. -/
lemma shiftLow_wait (h : rc.low / 2 ^ 24 = 255) :
    rc.shiftLow.output = rc.output ∧ rc.shiftLow.help = (rc.help + 1) % 2 ^ 32 ∧ rc.shiftLow.buffer = rc.buffer := by
  unfold shiftLow
  rw [if_neg (not_le.mpr ((xor_lt_iff _).mpr h))]
  exact ⟨rfl, rfl, rfl⟩

/-- `ShiftLow` where the bytes that wait are put out. -/
lemma shiftLow_put (h : rc.low / 2 ^ 24 ≠ 255) :
    rc.shiftLow.output = rc.output ++ UInt8.ofNat (rc.buffer + rc.low / 2 ^ 32) ::
        List.replicate rc.help (UInt8.ofNat (rc.low / 2 ^ 32 + 255)) ∧
      rc.shiftLow.help = 0 ∧ rc.shiftLow.buffer = rc.low % 2 ^ 32 / 2 ^ 24 := by
  unfold shiftLow
  rw [if_pos (not_lt.mp fun hlt => h ((xor_lt_iff _).mp hlt))]
  exact ⟨rfl, rfl, rfl⟩

/-- The bytes that are put out, with the carry that they get. -/
lemma beValue_put (h : rc.Ok range) (output : List UInt8) :
    beValue (output ++ UInt8.ofNat (rc.buffer + rc.low / 2 ^ 32) ::
        List.replicate rc.help (UInt8.ofNat (rc.low / 2 ^ 32 + 255))) =
      (beValue output * 256 + rc.buffer) * 256 ^ rc.help + (256 ^ rc.help - 1) + rc.low / 2 ^ 32 := by
  have hfits := h.fits
  have hpos := h.range_pos
  have hbuffer := h.buffer_lt
  have hcarry := h.no_carry
  have hpow : 0 < 256 ^ rc.help := by positivity
  have hfirst : (UInt8.ofNat (rc.buffer + rc.low / 2 ^ 32)).toNat = rc.buffer + rc.low / 2 ^ 32 := by
    rw [UInt8.toNat_ofNat']
    omega
  have hlist : output ++ UInt8.ofNat (rc.buffer + rc.low / 2 ^ 32) ::
      List.replicate rc.help (UInt8.ofNat (rc.low / 2 ^ 32 + 255)) =
      output ++ [UInt8.ofNat (rc.buffer + rc.low / 2 ^ 32)] ++
        List.replicate rc.help (UInt8.ofNat (rc.low / 2 ^ 32 + 255)) := by
    rw [List.append_assoc, List.singleton_append]
  rw [hlist, beValue_append, beValue_concat, hfirst, List.length_replicate]
  obtain hc | hc : rc.low / 2 ^ 32 = 0 ∨ rc.low / 2 ^ 32 = 1 := by omega
  · have hmax := beValue_replicate_max rc.help
    have hbyte : UInt8.ofNat 255 = 255 := rfl
    rw [hc, Nat.zero_add, hbyte, Nat.add_zero, Nat.add_zero]
    omega
  · have hbyte : UInt8.ofNat (1 + 255) = 0 := rfl
    rw [hc, hbyte, beValue_replicate_zero, Nat.add_zero, Nat.add_assoc _ _ 1, Nat.sub_add_cancel hpow]
    ring

/-- **Another byte** is taken off the low end; a carry goes through all the bytes that wait. -/
theorem shiftLow_spec (h : rc.Ok range) (hrange : range < 2 ^ 24) (hwait : rc.CanWait) :
    rc.shiftLow.value = rc.value * 256 ∧ rc.shiftLow.bytes = rc.bytes + 1 ∧ rc.shiftLow.Ok (range * 256) := by
  have hlow := low_shiftLow rc
  have hfits := h.fits
  have hbuffer := h.buffer_lt
  have hpos := h.range_pos
  by_cases hff : rc.low / 2 ^ 24 = 255
  · obtain ⟨houtput, hhelp, hbuf⟩ := shiftLow_wait hff
    rw [Nat.mod_eq_of_lt (hwait ((xor_lt_iff _).mpr hff))] at hhelp
    have hcarry := h.no_carry
    refine ⟨?_, ?_, ?_, ?_, ?_, ?_⟩
    · have hsettled : rc.shiftLow.settled = rc.settled * 256 + 255 := by
        have hpow : 0 < 256 ^ rc.help := by positivity
        unfold settled
        rw [houtput, hhelp, hbuf, pow_succ]
        have hring : (beValue rc.output * 256 + rc.buffer) * (256 ^ rc.help * 256) =
          (beValue rc.output * 256 + rc.buffer) * 256 ^ rc.help * 256 := by ring
        omega
      unfold value
      rw [hsettled, hlow]
      omega
    · unfold bytes
      rw [houtput, hhelp, Nat.add_assoc]
    · rw [hbuf]
      exact hbuffer
    · omega
    · omega
    · rw [hbuf]
      omega
  · obtain ⟨houtput, hhelp, hbuf⟩ := shiftLow_put hff
    refine ⟨?_, ?_, ?_, ?_, ?_, ?_⟩
    · have hsettled : rc.shiftLow.settled = (rc.settled + rc.low / 2 ^ 32) * 256 + rc.low % 2 ^ 32 / 2 ^ 24 := by
        unfold settled
        rw [houtput, hhelp, hbuf, beValue_put h, pow_zero, Nat.mul_one, Nat.sub_self, Nat.add_zero]
      unfold value
      rw [hsettled, hlow]
      omega
    · unfold bytes
      rw [houtput, hhelp, List.length_append, List.length_cons, List.length_replicate]
      omega
    · rw [hbuf]
      omega
    · omega
    · omega
    · rw [hbuf]
      omega

/-- The number of bytes by which a range is widened. -/
def widenings (range : ℕ) : ℕ := if 0 < range ∧ range < 2 ^ 24 then widenings (range * 2 ^ 8) + 1 else 0
termination_by 2 ^ 24 - range

/-- The states before each `ShiftLow` in the loop of `Encode`. -/
def shifted (rc : TRangeCoder) : List TRangeCoder :=
  if 0 < rc.range ∧ rc.range < 2 ^ 24 then rc.widened :: shifted rc.widened.shiftLow else []
termination_by 2 ^ 24 - rc.range
decreasing_by
  rename_i h
  rw [range_shiftLow]
  change 2 ^ 24 - rc.range * 2 ^ 8 < 2 ^ 24 - rc.range
  omega

/-- How often `ShiftLow` is called depends on the range only. -/
lemma length_shifted (rc : TRangeCoder) : rc.shifted.length = widenings rc.range := by
  induction rc using shifted.induct with
  | case1 rc hrange ih =>
    rw [shifted, if_pos hrange, widenings, if_pos hrange, List.length_cons, ih, range_shiftLow]
    rfl
  | case2 rc hrange =>
    rw [shifted, if_neg hrange, widenings, if_neg hrange, List.length_nil]

/-- A range is large enough after the loop, and still fits. -/
lemma range_renormalize (hpos : 0 < rc.range) (hlt : rc.range < 2 ^ 32) :
    rc.renormalize.range = rc.range * 256 ^ widenings rc.range ∧
      2 ^ 24 ≤ rc.renormalize.range ∧ rc.renormalize.range < 2 ^ 32 := by
  induction rc using renormalize.induct with
  | case1 rc hrange ih =>
    rw [range_shiftLow] at ih
    have hwide : rc.widened.range = rc.range * 2 ^ 8 := rfl
    obtain ⟨heq, hbounds⟩ := ih (by omega) (by omega)
    rw [renormalize, if_pos hrange, widenings, if_pos hrange]
    refine ⟨?_, hbounds⟩
    rw [heq, hwide, pow_succ']
    ring
  | case2 rc hrange =>
    rw [renormalize, if_neg hrange, widenings, if_neg hrange]
    exact ⟨(Nat.mul_one _).symm, by omega, hlt⟩

/-- **The loop of `Encode`** widens the interval. -/
lemma renormalize_spec (h : rc.Ok rc.range) (hwait : ∀ rc' ∈ rc.shifted, rc'.CanWait) :
    rc.renormalize.value = rc.value * 256 ^ widenings rc.range ∧
      rc.renormalize.bytes = rc.bytes + widenings rc.range ∧ rc.renormalize.Ok rc.renormalize.range := by
  induction rc using renormalize.induct with
  | case1 rc hrange ih =>
    rw [shifted, if_pos hrange] at hwait
    have hwide : rc.widened.Ok rc.range := ⟨h.buffer_lt, h.range_pos, h.fits, h.no_carry⟩
    obtain ⟨hvalue, hbytes, hok⟩ := shiftLow_spec hwide hrange.2 (hwait _ (List.mem_cons_self ..))
    have hnext : rc.widened.shiftLow.range = rc.range * 2 ^ 8 := range_shiftLow _
    rw [hnext] at ih
    obtain ⟨hvalue', hbytes', hok'⟩ := ih hok fun rc' hmem => hwait rc' (List.mem_cons_of_mem _ hmem)
    rw [renormalize, if_pos hrange, widenings, if_pos hrange]
    refine ⟨?_, ?_, hok'⟩
    · rw [hvalue', hvalue]
      change rc.value * 256 * _ = _
      ring
    · rw [hbytes', hbytes]
      change rc.bytes + 1 + _ = _
      omega
  | case2 rc hrange =>
    rw [renormalize, if_neg hrange, widenings, if_neg hrange]
    exact ⟨(Nat.mul_one _).symm, rfl, h⟩

/-! ## One step of the encoder -/

/-- Counts that can be encoded. -/
structure Slot (cum cnt bits : ℕ) : Prop where
  one_le : 1 ≤ cnt
  end_le : cum + cnt ≤ 2 ^ bits
  bits_le : bits ≤ 24

variable {cum cnt bits : ℕ}

/-- Where no interval is too large, its parts are computed without overflow. -/
lemma narrowed_eq (hlt : rc.range < 2 ^ 32) (hslot : Slot cum cnt bits) :
    (rc.narrowed cum cnt bits).low = rc.low + cum * (rc.range / 2 ^ bits) ∧
      (rc.narrowed cum cnt bits).range = rc.range / 2 ^ bits * cnt := by
  have hle : (cum + cnt) * (rc.range / 2 ^ bits) ≤ rc.range :=
    (Nat.mul_le_mul_right _ hslot.end_le).trans (Nat.mul_div_le _ _)
  have hring : (cum + cnt) * (rc.range / 2 ^ bits) = cum * (rc.range / 2 ^ bits) + rc.range / 2 ^ bits * cnt := by ring
  have hlow : cum * (rc.range / 2 ^ bits) % 2 ^ 32 = cum * (rc.range / 2 ^ bits) := Nat.mod_eq_of_lt (by omega)
  have hrange : rc.range / 2 ^ bits * cnt % 2 ^ 32 = rc.range / 2 ^ bits * cnt := Nat.mod_eq_of_lt (by omega)
  exact ⟨congrArg (rc.low + ·) hlow, hrange⟩

/-- A part of an interval that is large enough is not empty. -/
lemma narrow_range_pos (hle : 2 ^ 24 ≤ rc.range) (hslot : Slot cum cnt bits) : 0 < rc.range / 2 ^ bits * cnt := by
  have hpow : 2 ^ bits ≤ 2 ^ 24 := Nat.pow_le_pow_right (by decide) hslot.bits_le
  exact Nat.mul_pos (Nat.div_pos (hpow.trans hle) (by positivity)) hslot.one_le

/-- The number of bytes by which a step widens its interval. -/
def stepWidenings (rc : TRangeCoder) (cnt bits : ℕ) : ℕ := widenings (rc.range / 2 ^ bits * cnt)

/-- The range after a step. -/
lemma range_encode (hle : 2 ^ 24 ≤ rc.range) (hlt : rc.range < 2 ^ 32) (hslot : Slot cum cnt bits) :
    (rc.encode cum cnt bits).range = rc.range / 2 ^ bits * cnt * 256 ^ rc.stepWidenings cnt bits ∧
      2 ^ 24 ≤ (rc.encode cum cnt bits).range ∧ (rc.encode cum cnt bits).range < 2 ^ 32 := by
  obtain ⟨-, hrange⟩ := narrowed_eq hlt hslot
  have hpos := narrow_range_pos hle hslot
  rw [← hrange] at hpos
  have hbound : (rc.narrowed cum cnt bits).range < 2 ^ 32 := Nat.mod_lt _ (by positivity)
  have hnormal := range_renormalize hpos hbound
  rw [hrange] at hnormal
  exact hnormal

/-- **`Encode`** takes the part of the interval, widened. -/
theorem encode_spec (h : rc.Ok rc.range) (hle : 2 ^ 24 ≤ rc.range) (hlt : rc.range < 2 ^ 32)
    (hslot : Slot cum cnt bits) (hwait : ∀ rc' ∈ (rc.narrowed cum cnt bits).shifted, rc'.CanWait) :
    (rc.encode cum cnt bits).interval =
        (rc.interval.narrow cum cnt bits).widen (rc.stepWidenings cnt bits) ∧
      (rc.encode cum cnt bits).bytes = rc.bytes + rc.stepWidenings cnt bits ∧
      (rc.encode cum cnt bits).Ok (rc.encode cum cnt bits).range := by
  obtain ⟨hlow, hrange⟩ := narrowed_eq hlt hslot
  have hpos := narrow_range_pos hle hslot
  have hend := CodeInterval.narrow_end_le (i := ⟨rc.low, rc.range⟩) hslot.end_le
  change rc.low + cum * (rc.range / 2 ^ bits) + rc.range / 2 ^ bits * cnt ≤ rc.low + rc.range at hend
  have hok : (rc.narrowed cum cnt bits).Ok (rc.narrowed cum cnt bits).range := by
    rw [hrange]
    have hfits := h.fits
    have hcarry := h.no_carry
    constructor
    · exact h.buffer_lt
    · exact hpos
    · rw [hlow]
      omega
    · intro hbuffer
      have hroom := hcarry hbuffer
      rw [hlow]
      omega
  obtain ⟨hvalue, hbytes, hok'⟩ := renormalize_spec hok hwait
  rw [hrange] at hvalue hbytes
  refine ⟨?_, hbytes, hok'⟩
  have hnarrow : (rc.narrowed cum cnt bits).value = rc.value + cum * (rc.range / 2 ^ bits) := by
    unfold value
    rw [hlow]
    exact (Nat.add_assoc ..).symm
  ext
  · change (rc.encode cum cnt bits).value = _
    unfold encode
    rw [hvalue, hnarrow]
    rfl
  · exact (range_encode hle hlt hslot).1

/-! ## The end of the code -/

/-- The states before each `ShiftLow` of `finish`. -/
def finishing (rc : TRangeCoder) : List TRangeCoder := (List.range 5).map fun k => shiftLow^[k] rc

/-- Some calls of `ShiftLow`, where the range does not matter. -/
lemma iterate_spec (h : rc.Ok 1) {k : ℕ} (hwait : ∀ j < k, (shiftLow^[j] rc).CanWait) :
    (shiftLow^[k] rc).value = rc.value * 256 ^ k ∧ (shiftLow^[k] rc).bytes = rc.bytes + k ∧
      (shiftLow^[k] rc).Ok 1 := by
  induction k with
  | zero => exact ⟨(Nat.mul_one _).symm, rfl, h⟩
  | succ k ih =>
    obtain ⟨hvalue, hbytes, hok⟩ := ih fun j hj => hwait j (Nat.lt_succ_of_lt hj)
    rw [Function.iterate_succ_apply']
    obtain ⟨hvalue', hbytes', hok'⟩ := shiftLow_spec hok (by decide) (hwait k (Nat.lt_succ_self k))
    refine ⟨?_, ?_, hok'.mono Nat.one_pos (by decide)⟩
    · rw [hvalue', hvalue, pow_succ, Nat.mul_assoc]
    · rw [hbytes', hbytes, Nat.add_assoc]

/-- Nothing is left of the low end after four bytes. -/
lemma low_iterate_four (rc : TRangeCoder) : (shiftLow^[4] rc).low = 0 := by
  have h0 := low_shiftLow rc
  have h1 := low_shiftLow rc.shiftLow
  have h2 := low_shiftLow rc.shiftLow.shiftLow
  have h3 := low_shiftLow rc.shiftLow.shiftLow.shiftLow
  change rc.shiftLow.shiftLow.shiftLow.shiftLow.low = 0
  omega

/-- **`finish`** puts out all bytes of the low end. -/
theorem finish_spec (h : rc.Ok 1) (hwait : ∀ rc' ∈ rc.finishing, rc'.CanWait) :
    beValue rc.finish.output = rc.value ∧ rc.finish.output.length = rc.bytes + 5 := by
  have hwait' : ∀ j < 5, (shiftLow^[j] rc).CanWait := fun j hj =>
    hwait _ (List.mem_map.mpr ⟨j, List.mem_range.mpr hj, rfl⟩)
  obtain ⟨hvalue, hbytes, hok⟩ := iterate_spec h fun j hj => hwait' j (hj.trans (Nat.lt_succ_self 4))
  have hzero := low_iterate_four rc
  have hfinish : rc.finish = (shiftLow^[4] rc).shiftLow := Function.iterate_succ_apply' ..
  have hff : (shiftLow^[4] rc).low / 2 ^ 24 ≠ 255 := by
    rw [hzero]
    decide
  obtain ⟨houtput, -, -⟩ := shiftLow_put hff
  constructor
  · have hsettled : (shiftLow^[4] rc).settled = rc.value := by
      unfold value at hvalue
      rw [hzero] at hvalue
      unfold value
      omega
    rw [hfinish, houtput, beValue_put hok, ← hsettled, hzero]
    rfl
  · rw [hfinish, houtput, List.length_append, List.length_cons, List.length_replicate]
    unfold bytes at hbytes ⊢
    omega

end TRangeCoder

/-! ## Bytes that are lost -/

namespace TRangeCoder

variable {rc : TRangeCoder} {cum cnt bits : ℕ}

/-- `ShiftLow` adds a byte, or loses some where those that wait are too many. -/
lemma bytes_shiftLow_le (rc : TRangeCoder) : rc.shiftLow.bytes ≤ rc.bytes + 1 := by
  unfold bytes
  by_cases hff : rc.low / 2 ^ 24 = 255
  · obtain ⟨houtput, hhelp, -⟩ := shiftLow_wait hff
    have hmod : (rc.help + 1) % 2 ^ 32 ≤ rc.help + 1 := Nat.mod_le _ _
    rw [houtput, hhelp]
    omega
  · obtain ⟨houtput, hhelp, -⟩ := shiftLow_put hff
    rw [houtput, hhelp, List.length_append, List.length_cons, List.length_replicate]
    omega

/-- Where no further byte can be counted, bytes are lost. -/
lemma bytes_shiftLow_lt (h : ¬rc.CanWait) : rc.shiftLow.bytes < rc.bytes + 1 := by
  obtain ⟨hxor, hhelp⟩ := Classical.not_imp.mp h
  obtain ⟨houtput, hhelp', -⟩ := shiftLow_wait ((xor_lt_iff _).mp hxor)
  have hmod : (rc.help + 1) % 2 ^ 32 < rc.help + 1 :=
    (Nat.mod_lt _ (by positivity)).trans_le (not_lt.mp hhelp)
  unfold bytes
  rw [houtput, hhelp']
  omega

/-- The loop of `Encode` adds no more bytes than it has turns. -/
lemma bytes_renormalize_le (rc : TRangeCoder) : rc.renormalize.bytes ≤ rc.bytes + rc.shifted.length := by
  induction rc using renormalize.induct with
  | case1 rc hrange ih =>
    have hstep := bytes_shiftLow_le rc.widened
    have hwide : rc.widened.bytes = rc.bytes := rfl
    rw [renormalize, if_pos hrange, shifted, if_pos hrange, List.length_cons]
    omega
  | case2 rc hrange =>
    rw [renormalize, if_neg hrange]
    exact Nat.le_add_right _ _

/-- The loop of `Encode` adds less where bytes are lost. -/
lemma bytes_renormalize_lt (h : ∃ rc' ∈ rc.shifted, ¬rc'.CanWait) :
    rc.renormalize.bytes < rc.bytes + rc.shifted.length := by
  induction rc using renormalize.induct with
  | case1 rc hrange ih =>
    have hwide : rc.widened.bytes = rc.bytes := rfl
    obtain ⟨rc', hmem, hlost⟩ := h
    rw [shifted, if_pos hrange, List.mem_cons] at hmem
    rw [renormalize, if_pos hrange, shifted, if_pos hrange, List.length_cons]
    obtain rfl | hmem := hmem
    · have hstep := bytes_shiftLow_lt hlost
      have hrest := bytes_renormalize_le rc.widened.shiftLow
      omega
    · have hstep := bytes_shiftLow_le rc.widened
      have hrest := ih ⟨rc', hmem, hlost⟩
      omega
  | case2 rc hrange =>
    obtain ⟨rc', hmem, -⟩ := h
    rw [shifted, if_neg hrange] at hmem
    exact absurd hmem List.not_mem_nil

/-- Some calls of `ShiftLow` add no more bytes than they are. -/
lemma bytes_iterate_le (rc : TRangeCoder) (j k : ℕ) :
    (shiftLow^[j + k] rc).bytes ≤ (shiftLow^[j] rc).bytes + k := by
  induction k with
  | zero => exact le_rfl
  | succ k ih =>
    have hstep := bytes_shiftLow_le (shiftLow^[j + k] rc)
    rw [← Nat.add_assoc, Function.iterate_succ_apply']
    omega

/-- `finish` adds five bytes, or fewer where bytes are lost. -/
lemma length_finish_le (rc : TRangeCoder) :
    rc.finish.output.length ≤ rc.bytes + 5 ∧
      ((∃ rc' ∈ rc.finishing, ¬rc'.CanWait) → rc.finish.output.length < rc.bytes + 5) := by
  have hall := bytes_iterate_le rc 0 5
  have hlength : rc.finish.output.length ≤ (shiftLow^[5] rc).bytes := Nat.le_add_right _ _
  rw [Nat.zero_add] at hall
  refine ⟨hlength.trans hall, ?_⟩
  rintro ⟨rc', hmem, hlost⟩
  obtain ⟨j, hj, rfl⟩ := List.mem_map.mp hmem
  have hj' : j < 5 := List.mem_range.mp hj
  have hfirst := bytes_iterate_le rc 0 j
  have hstep := bytes_shiftLow_lt hlost
  have hrest := bytes_iterate_le rc (j + 1) (4 - j)
  have hsum : j + 1 + (4 - j) = 5 := by omega
  rw [Nat.zero_add] at hfirst
  rw [hsum, Function.iterate_succ_apply' shiftLow j] at hrest
  change _ ≤ rc.bytes + j at hfirst
  omega

/-- A step adds no more bytes than it widens the interval by, or fewer where bytes are lost. -/
lemma bytes_encode_le (hlt : rc.range < 2 ^ 32) (hslot : Slot cum cnt bits) :
    (rc.encode cum cnt bits).bytes ≤ rc.bytes + rc.stepWidenings cnt bits ∧
      ((∃ rc' ∈ (rc.narrowed cum cnt bits).shifted, ¬rc'.CanWait) →
        (rc.encode cum cnt bits).bytes < rc.bytes + rc.stepWidenings cnt bits) := by
  have hlength := length_shifted (rc.narrowed cum cnt bits)
  rw [(narrowed_eq hlt hslot).2] at hlength
  unfold stepWidenings
  rw [← hlength]
  exact ⟨bytes_renormalize_le _, bytes_renormalize_lt⟩

end TRangeCoder

/-! ## The decoder -/

namespace TRangeDecoder

open TRangeCoder

variable {rd : TRangeDecoder} {data : List UInt8} {cum cnt bits p low : ℕ}

/-- The decoder has read `p` bytes of the data, and its buffer is how far they are behind `low`. -/
structure Follows (data : List UInt8) (low p : ℕ) (rd : TRangeDecoder) : Prop where
  input_eq : rd.input = data.drop p
  buffer_eq : low + rd.buffer = beValue (data.take p)

/-- One more byte is read. -/
lemma Follows.shiftByte (h : rd.Follows data low p) (hp : p < data.length) (hbuffer : rd.buffer < 2 ^ 24) :
    ∃ rd', rd.shiftByte = some rd' ∧ rd'.range = rd.range ∧ rd'.Follows data (low * 2 ^ 8) (p + 1) ∧
      rd'.buffer < (rd.buffer + 1) * 2 ^ 8 := by
  have hinput : rd.input = data[p] :: data.drop (p + 1) := by rw [h.input_eq, List.drop_eq_getElem_cons hp]
  have hbyte : data[p].toNat < 256 := data[p].toNat_lt
  have hmod : (rd.buffer * 2 ^ 8 + data[p].toNat) % 2 ^ 32 = rd.buffer * 2 ^ 8 + data[p].toNat :=
    Nat.mod_eq_of_lt (by omega)
  have hbuf := h.buffer_eq
  unfold TRangeDecoder.shiftByte
  rw [hinput]
  dsimp only
  rw [hmod]
  refine ⟨_, rfl, rfl, ⟨rfl, ?_⟩, ?_⟩
  · change low * 2 ^ 8 + (rd.buffer * 2 ^ 8 + data[p].toNat) = _
    rw [beValue_take_succ hp, ← hbuf]
    ring
  · change rd.buffer * 2 ^ 8 + data[p].toNat < _
    omega

/-- **The loop of `Update`** reads as many bytes as the interval is widened by. -/
lemma Follows.renormalize (h : rd.Follows data low p) (hp : p + widenings rd.range ≤ data.length)
    (hbuffer : rd.buffer < rd.range) :
    ∃ rd', rd.renormalize = some rd' ∧ rd'.range = rd.range * 256 ^ widenings rd.range ∧
      rd'.Follows data (low * 256 ^ widenings rd.range) (p + widenings rd.range) := by
  induction hk : widenings rd.range generalizing rd low p with
  | zero =>
    rw [widenings] at hk
    split_ifs at hk with hrange
    refine ⟨rd, ?_, (Nat.mul_one _).symm, ?_⟩
    · rw [TRangeDecoder.renormalize, if_neg hrange]
    · rw [pow_zero, Nat.mul_one]
      exact h
  | succ k ih =>
    rw [widenings] at hk
    split_ifs at hk with hrange
    have hwide : ({ rd with range := rd.range * 2 ^ 8 } : TRangeDecoder).Follows data low p := ⟨h.input_eq, h.buffer_eq⟩
    rw [widenings, if_pos hrange] at hp
    obtain ⟨rd₁, hbyte, hrange₁, hfollows, hlt⟩ :=
      hwide.shiftByte (by omega) (hbuffer.trans hrange.2)
    have hcount : widenings rd₁.range = k := by
      rw [hrange₁]
      exact Nat.succ.inj hk
    have hlt' : rd₁.buffer < rd₁.range := by
      rw [hrange₁]
      change rd₁.buffer < rd.range * 2 ^ 8
      have hmul : (rd.buffer + 1) * 2 ^ 8 ≤ rd.range * 2 ^ 8 := Nat.mul_le_mul_right _ hbuffer
      exact hlt.trans_le hmul
    obtain ⟨rd₂, hrest, hrange₂, hfollows₂⟩ := ih hfollows (by rw [hcount]; omega) hlt' hcount
    refine ⟨rd₂, ?_, ?_, ?_⟩
    · rw [TRangeDecoder.renormalize, if_pos hrange]
      split
      · rename_i hnone
        rw [hnone] at hbyte
        cases hbyte
      · rename_i rd' hsome
        rw [hsome] at hbyte
        obtain rfl := Option.some.inj hbyte
        exact hrest
    · rw [hrange₂, hrange₁, pow_succ']
      change rd.range * 2 ^ 8 * 256 ^ k = _
      ring
    · have hlow : low * 256 ^ (k + 1) = low * 2 ^ 8 * 256 ^ k := by ring
      have hpos : p + (k + 1) = p + 1 + k := by omega
      rw [hlow, hpos]
      exact hfollows₂

/-- The decoder is where the encoder was. -/
structure Synced (data : List UInt8) (rc : TRangeCoder) (rd : TRangeDecoder) : Prop where
  range_eq : rd.range = rc.range
  follows : rd.Follows data rc.value (5 + rc.bytes)

/-- **The decoder follows** the encoder: it finds a count of the part that was taken, and is where the encoder was
then. -/
theorem Synced.exists_step {rc : TRangeCoder} (h : Synced data rc rd) (hok : rc.Ok rc.range)
    (hle : 2 ^ 24 ≤ rc.range) (hlt : rc.range < 2 ^ 32) (hslot : Slot cum cnt bits)
    (hwait : ∀ rc' ∈ (rc.narrowed cum cnt bits).shifted, rc'.CanWait) {m : ℕ}
    (hlength : data.length = 5 + (rc.encode cum cnt bits).bytes + m)
    (hholds : (rc.encode cum cnt bits).interval.Holds m (beValue data)) :
    ∃ count rd', rd.getCount bits = some (count, rd') ∧ cum ≤ count ∧ count < cum + cnt ∧
      ∃ rd'', rd'.update cum cnt = some rd'' ∧ Synced data (rc.encode cum cnt bits) rd'' := by
  obtain ⟨hinterval, hbytes, -⟩ := encode_spec hok hle hlt hslot hwait
  have hrangeEq := (range_encode hle hlt hslot).1
  have hpart := narrow_range_pos hle hslot
  rw [hinterval, CodeInterval.holds_widen] at hholds
  set k := rc.stepWidenings cnt bits with hk
  -- The bytes read so far are in the part, so the buffer tells the count.
  have htake : beValue (data.take (5 + rc.bytes)) = beValue data / 256 ^ (k + m) := beValue_take (by omega)
  have hbuffer := h.follows.buffer_eq
  rw [htake] at hbuffer
  obtain ⟨hcountLe, hcountLt⟩ := hholds.count_mem
  obtain ⟨hfrom, hto⟩ := hholds.div_mem
  change rc.value + cum * (rc.range / 2 ^ bits) ≤ _ at hfrom
  change _ < rc.value + cum * (rc.range / 2 ^ bits) + rc.range / 2 ^ bits * cnt at hto
  change cum ≤ (_ - rc.value) / (rc.range / 2 ^ bits) at hcountLe
  change (_ - rc.value) / (rc.range / 2 ^ bits) < _ at hcountLt
  rw [← hbuffer, Nat.add_sub_cancel_left] at hcountLe hcountLt
  rw [← hbuffer] at hfrom hto
  have hstep : rc.range / 2 ^ bits ≠ 0 := fun hzero => by
    rw [hzero, Nat.zero_mul] at hpart
    exact absurd hpart (lt_irrefl 0)
  have hend := hslot.end_le
  refine ⟨rd.buffer / (rc.range / 2 ^ bits), { rd with range := rc.range / 2 ^ bits }, ?_, hcountLe, hcountLt, ?_⟩
  · unfold getCount
    dsimp only
    rw [h.range_eq, if_neg (not_or.mpr ⟨hstep, by omega⟩)]
  · have hwhole : (cum + cnt) * (rc.range / 2 ^ bits) ≤ rc.range :=
      (Nat.mul_le_mul_right _ hend).trans (Nat.mul_div_le _ _)
    have hring : (cum + cnt) * (rc.range / 2 ^ bits) = cum * (rc.range / 2 ^ bits) + rc.range / 2 ^ bits * cnt := by
      ring
    have hcum : cum * (rc.range / 2 ^ bits) % 2 ^ 32 = cum * (rc.range / 2 ^ bits) := Nat.mod_eq_of_lt (by omega)
    have hsub : (rd.buffer + 2 ^ 32 - cum * (rc.range / 2 ^ bits)) % 2 ^ 32 =
        rd.buffer - cum * (rc.range / 2 ^ bits) := by
      have hsplit : rd.buffer + 2 ^ 32 - cum * (rc.range / 2 ^ bits) =
        rd.buffer - cum * (rc.range / 2 ^ bits) + 2 ^ 32 := by omega
      rw [hsplit, Nat.add_mod_right, Nat.mod_eq_of_lt (by omega)]
    have hmul : rc.range / 2 ^ bits * cnt % 2 ^ 32 = rc.range / 2 ^ bits * cnt := Nat.mod_eq_of_lt (by omega)
    unfold update
    dsimp only
    rw [hcum, hsub, hmul]
    have hfollows : Follows data (rc.value + cum * (rc.range / 2 ^ bits)) (5 + rc.bytes)
        ⟨rc.range / 2 ^ bits * cnt, rd.buffer - cum * (rc.range / 2 ^ bits), rd.input⟩ := by
      refine ⟨h.follows.input_eq, ?_⟩
      rw [htake, ← hbuffer]
      change rc.value + cum * (rc.range / 2 ^ bits) + (rd.buffer - cum * (rc.range / 2 ^ bits)) = _
      omega
    obtain ⟨rd'', hnormal, hrange, hfollows'⟩ := hfollows.renormalize
      (by change 5 + rc.bytes + k ≤ _; omega)
      (by change rd.buffer - cum * (rc.range / 2 ^ bits) < rc.range / 2 ^ bits * cnt; omega)
    refine ⟨rd'', hnormal, ?_, ?_⟩
    · rw [hrange, hrangeEq]
      rfl
    · have hvalue : (rc.encode cum cnt bits).value = (rc.value + cum * (rc.range / 2 ^ bits)) * 256 ^ k :=
        congrArg CodeInterval.low hinterval
      rw [hvalue, hbytes, ← Nat.add_assoc]
      exact hfollows'

/-- Some bytes are shifted into the buffer behind what was there before. -/
lemma exists_shiftBytes (k : ℕ) (rd : TRangeDecoder) (h : k ≤ rd.input.length) :
    ∃ rd', shiftBytes k rd = some rd' ∧ rd'.range = rd.range ∧ rd'.input = rd.input.drop k ∧
      rd'.buffer ≡ rd.buffer * 256 ^ k + beValue (rd.input.take k) [MOD 2 ^ 32] ∧
      (0 < k → rd'.buffer < 2 ^ 32) := by
  induction k generalizing rd with
  | zero => exact ⟨rd, rfl, rfl, rfl, by rw [pow_zero, Nat.mul_one]; rfl, fun h => absurd h (lt_irrefl 0)⟩
  | succ k ih =>
    obtain ⟨range, buffer, input⟩ := rd
    cases input with
    | nil => exact absurd h (Nat.not_succ_le_zero k)
    | cons b rest =>
      have hk : k ≤ rest.length := Nat.le_of_succ_le_succ h
      obtain ⟨rd', hrest, hrange, hinput, hbuffer, hlt⟩ :=
        ih ⟨range, (buffer * 2 ^ 8 + b.toNat) % 2 ^ 32, rest⟩ hk
      refine ⟨rd', hrest, hrange, hinput, ?_, fun _ => ?_⟩
      · have hfirst : beValue (b :: rest.take k) = b.toNat * 256 ^ k + beValue (rest.take k) := by
          have hsplit := beValue_append [b] (rest.take k)
          have hone : beValue [b] = b.toNat := by
            rw [← List.nil_append [b], beValue_concat, beValue_nil, Nat.zero_mul, Nat.zero_add]
          rwa [List.length_take, min_eq_left hk, hone] at hsplit
        have hring : buffer * 256 ^ (k + 1) + (b.toNat * 256 ^ k + beValue (rest.take k)) =
          (buffer * 2 ^ 8 + b.toNat) * 256 ^ k + beValue (rest.take k) := by ring
        rw [List.take_succ_cons, hfirst, hring]
        exact hbuffer.trans (((Nat.mod_modEq _ _).mul_right _).add_right _)
      · cases k with
        | zero =>
          obtain rfl := Option.some.inj hrest
          exact Nat.mod_lt _ (by positivity)
        | succ k => exact hlt (Nat.succ_pos k)

/-- The decoder starts where the encoder does, whatever is in the buffer before. -/
lemma exists_new (buffer : ℕ) {data : List UInt8} {m : ℕ} (hlength : data.length = 5 + m)
    (hholds : TRangeCoder.new.interval.Holds m (beValue data)) :
    ∃ rd, new buffer data = some rd ∧ Synced data .new rd := by
  obtain ⟨rd, hnew, hrange, hinput, hbuffer, hlt⟩ :=
    exists_shiftBytes 5 ⟨0xffffffff, buffer, data⟩ (by change 5 ≤ data.length; omega)
  refine ⟨rd, hnew, hrange, hinput, ?_⟩
  have hvalue : TRangeCoder.new.value = 0 := rfl
  have hbytes : TRangeCoder.new.bytes = 0 := rfl
  obtain ⟨-, hto⟩ := hholds.div_mem
  change _ < TRangeCoder.new.value + 0xffffffff at hto
  rw [← beValue_take hlength.symm, hvalue] at hto
  have hzero : buffer * 256 ^ 5 ≡ 0 [MOD 2 ^ 32] :=
    (Nat.modEq_zero_iff_dvd).mpr ((by decide : 2 ^ 32 ∣ 256 ^ 5).mul_left buffer)
  have hmod := hbuffer.trans (hzero.add_right (beValue (data.take 5)))
  rw [Nat.zero_add] at hmod
  rw [hvalue, hbytes, Nat.zero_add]
  exact hmod.eq_of_lt_of_lt (hlt (by decide)) (by omega)

/-! ## What the decoder reads -/

/-- One byte is read. -/
lemma length_of_shiftByte {rd' : TRangeDecoder} (h : rd.shiftByte = some rd') :
    rd.input.length = rd'.input.length + 1 := by
  unfold TRangeDecoder.shiftByte at h
  split at h
  · cases h
  · rename_i hinput
    obtain rfl := Option.some.inj h
    rw [hinput, List.length_cons]

/-- Some bytes are read. -/
lemma of_shiftBytes {k : ℕ} {rd' : TRangeDecoder} (h : shiftBytes k rd = some rd') :
    rd'.range = rd.range ∧ rd.input.length = rd'.input.length + k := by
  induction k generalizing rd with
  | zero =>
    obtain rfl := Option.some.inj h
    exact ⟨rfl, rfl⟩
  | succ k ih =>
    obtain ⟨rd₁, hbyte, hrest⟩ := Option.bind_eq_some_iff.mp h
    obtain ⟨hrange, hlength⟩ := ih hrest
    have hfirst := length_of_shiftByte hbyte
    exact ⟨hrange.trans (range_of_shiftByte hbyte), by omega⟩

/-- The loop of `Update` reads as many bytes as the interval is widened by. -/
lemma of_renormalize {rd' : TRangeDecoder} (h : rd.renormalize = some rd') :
    rd'.range = rd.range * 256 ^ widenings rd.range ∧
      rd.input.length = rd'.input.length + widenings rd.range := by
  induction hk : widenings rd.range generalizing rd with
  | zero =>
    rw [widenings] at hk
    split_ifs at hk with hrange
    rw [TRangeDecoder.renormalize, if_neg hrange] at h
    obtain rfl := Option.some.inj h
    exact ⟨(Nat.mul_one _).symm, rfl⟩
  | succ k ih =>
    rw [widenings] at hk
    split_ifs at hk with hrange
    rw [TRangeDecoder.renormalize, if_pos hrange] at h
    split at h
    · cases h
    · rename_i rd₁ hbyte
      have hrange₁ : rd₁.range = rd.range * 2 ^ 8 := range_of_shiftByte hbyte
      have hlength₁ : rd.input.length = rd₁.input.length + 1 :=
        @length_of_shiftByte { rd with range := rd.range * 2 ^ 8 } rd₁ hbyte
      obtain ⟨hrange', hlength'⟩ := ih h (by rw [hrange₁]; exact Nat.succ.inj hk)
      refine ⟨?_, by omega⟩
      rw [hrange', hrange₁, pow_succ']
      ring

/-- Whatever is decoded, the range is that of the encoder, and as many bytes are read as it is widened by. -/
lemma of_step {rc : TRangeCoder} {rd' rd'' : TRangeDecoder} {count : ℕ} (hrange : rd.range = rc.range)
    (hle : 2 ^ 24 ≤ rc.range) (hlt : rc.range < 2 ^ 32) (hslot : Slot cum cnt bits)
    (hcount : rd.getCount bits = some (count, rd')) (hupdate : rd'.update cum cnt = some rd'') :
    rd''.range = (rc.encode cum cnt bits).range ∧
      rd.input.length = rd''.input.length + rc.stepWidenings cnt bits := by
  unfold getCount at hcount
  dsimp only at hcount
  split_ifs at hcount
  obtain ⟨-, rfl⟩ := Prod.mk.inj (Option.some.inj hcount)
  obtain ⟨hrange', hlength'⟩ := of_renormalize hupdate
  have hmod : rd.range / 2 ^ bits * cnt % 2 ^ 32 = rc.range / 2 ^ bits * cnt := by
    rw [hrange]
    exact (narrowed_eq hlt hslot).2
  dsimp only at hrange' hlength'
  rw [hmod] at hrange' hlength'
  exact ⟨hrange'.trans (range_encode hle hlt hslot).1.symm, hlength'⟩

end TRangeDecoder

end DArc.Tornado
