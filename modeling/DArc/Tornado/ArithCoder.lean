import DArc.Tornado.Counter
import DArc.Tornado.RangeCoder

/-!
# The arithmetic coder

Symbols are coded with the counts that a counter has for them, and bits with counts of their own.  The decoder gathers
the same counts as the encoder, and so knows the part of the interval for every symbol.

### Outline

* `ArithItem`, `Request`, `ArithCoder`, `ArithDecoder`: the coders of symbols and of bits;
* `ArithRoundTrips`: what is decoded is what was encoded, with the same counters;
* `HelpFits`: the bytes that wait for a carry can be counted.

### Main results

* `ArithCoder.Ok.foldl`, `ArithDecoder.exists_gets`: the encoder's interval after some items, and the decoder's way
  through them;
* `arithRoundTrips_iff`: the round trip succeeds if and only if the bytes that wait can be counted.
-/

namespace DArc.Tornado

/-! ## The coders -/

/-- What is encoded: a symbol, or the `n` low bits of a number. -/
inductive ArithItem
  | symbol (x : ℕ)
  | bits (n x : ℕ)

/-- What is decoded. -/
inductive Request
  | symbol
  | bits (n : ℕ)

namespace ArithItem

/-- What the decoder has to ask for. -/
def request : ArithItem → Request
  | symbol _ => .symbol
  | bits n _ => .bits n

/-- What the decoder has to find. -/
def value : ArithItem → ℕ
  | symbol x => x
  | bits n x => x % 2 ^ n

/-- The symbols are among the `n` ones, the bits are at most 24. -/
def Valid (n : ℕ) : ArithItem → Prop
  | symbol x => x < n
  | bits k _ => k ≤ 24

instance (n : ℕ) (item : ArithItem) : Decidable (item.Valid n) := by
  cases item <;> unfold Valid <;> infer_instance

end ArithItem

/-- `ArithCoder`. -/
structure ArithCoder where
  rc : TRangeCoder
  c : TCounter

namespace ArithCoder

/-- The constructor, for `n` symbols. -/
def new (n : ℕ) : ArithCoder := ⟨.new, .new .encoder n⟩

/-- `encode` and `putlowerbits`. -/
def put (ac : ArithCoder) : ArithItem → ArithCoder
  | .symbol x => ⟨ac.rc.encode (ac.c.cum.getD x 0) (ac.c.cnt.getD x 0) rangeBits, ac.c.inc .encoder x⟩
  | .bits n x => ⟨ac.rc.putlowerbits n x, ac.c⟩

end ArithCoder

/-- The bytes that some items are encoded to. -/
def encoded (n : ℕ) (items : List ArithItem) : List UInt8 :=
  (items.foldl ArithCoder.put (.new n)).rc.finish.output

/-- `ArithDecoder`. -/
structure ArithDecoder where
  rd : TRangeDecoder
  c : TCounter

namespace ArithDecoder

/-- The constructor, for `n` symbols. -/
def new (n buffer : ℕ) (data : List UInt8) : Option ArithDecoder :=
  (TRangeDecoder.new buffer data).map fun rd => ⟨rd, .new .decoder n⟩

/-- `decode` and `getbits`. -/
def get (ad : ArithDecoder) : Request → Option (ℕ × ArithDecoder)
  | .symbol => do
    let (count, rd) ← ad.rd.getCount rangeBits
    let x := ad.c.decode count
    let rd ← rd.update (ad.c.cum.getD x 0) (ad.c.cnt.getD x 0)
    return (x, ⟨rd, ad.c.inc .decoder x⟩)
  | .bits n => do
    let (x, rd) ← ad.rd.getbits n
    return (x, ⟨rd, ad.c⟩)

/-- Some calls of the decoder. -/
def gets : List Request → ArithDecoder → Option (List ℕ × ArithDecoder)
  | [], ad => some ([], ad)
  | request :: requests, ad => do
    let (x, ad) ← ad.get request
    let (xs, ad) ← ad.gets requests
    return (x :: xs, ad)

end ArithDecoder

namespace ArithItem

/-- The counts that an item is coded with. -/
def slot (c : TCounter) : ArithItem → ℕ × ℕ × ℕ
  | symbol x => (c.cum.getD x 0, c.cnt.getD x 0, rangeBits)
  | bits n x => (x % 2 ^ n, 1, n)

/-- The counters after an item. -/
def next (type : CodecDirection) (c : TCounter) : ArithItem → TCounter
  | symbol x => c.inc type x
  | bits _ _ => c

end ArithItem

namespace ArithCoder

/-- `Encode` for an item. -/
def step (ac : ArithCoder) (item : ArithItem) : TRangeCoder :=
  ac.rc.encode (item.slot ac.c).1 (item.slot ac.c).2.1 (item.slot ac.c).2.2

/-- The states before each `ShiftLow` of an item. -/
def shifted (ac : ArithCoder) (item : ArithItem) : List TRangeCoder :=
  (ac.rc.narrowed (item.slot ac.c).1 (item.slot ac.c).2.1 (item.slot ac.c).2.2).shifted

/-- The states before each `ShiftLow` of some items. -/
def shifts : List ArithItem → ArithCoder → List TRangeCoder
  | [], _ => []
  | item :: items, ac => ac.shifted item ++ shifts items (ac.put item)

end ArithCoder

/-- Whenever a byte has to wait for a carry, the number of bytes that wait still fits into 32 bits. -/
def HelpFits (n : ℕ) (items : List ArithItem) : Prop :=
  ∀ rc ∈ ArithCoder.shifts items (.new n) ++ (items.foldl ArithCoder.put (.new n)).rc.finishing, rc.CanWait

/-- The counters of encoder and decoder are the same, no live counter is 0, they make up the range with the remainder,
and every count of the range is decoded to the symbol whose interval it is in. -/
structure Tables (n : ℕ) (encoder decoder : TCounter) : Prop where
  remainder_eq : decoder.remainder = encoder.remainder
  cnt_eq : decoder.cnt = encoder.cnt
  cum_eq : decoder.cum = encoder.cum
  livecnt_eq : decoder.livecnt = encoder.livecnt
  live_pos : ∀ k ∈ decoder.livecnt, 1 ≤ k
  sum_live : decoder.livecnt.sum + decoder.remainder = rangeSize
  index_lt : ∀ count < rangeSize, count / (rangeSize / indexes) < decoder.index.length
  decode_mem : ∀ count < rangeSize, decoder.decode count < n ∧ decoder.cum.getD (decoder.decode count) 0 ≤ count ∧
    count < decoder.cum.getD (decoder.decode count) 0 + decoder.cnt.getD (decoder.decode count) 0

/-- At every point of what was encoded, the decoder has found the same items, and has the same tables. -/
def ArithRoundTrips (n : ℕ) (items : List ArithItem) : Prop :=
  ∀ (buffer : ℕ) (front : List ArithItem), front <+: items →
    ∃ ad, (ArithDecoder.new n buffer (encoded n items)).bind (ArithDecoder.gets (front.map ArithItem.request)) =
        some (front.map ArithItem.value, ad) ∧
      Tables n (front.foldl ArithCoder.put (.new n)).c ad.c

/-! ## The counters -/

namespace ArithItem

variable {n : ℕ} {type : CodecDirection} {c : TCounter} {item : ArithItem}

/-- The counts of an item can be encoded. -/
lemma slot_ok (hc : c.Ok type n) (hvalid : item.Valid n) :
    TRangeCoder.Slot (item.slot c).1 (item.slot c).2.1 (item.slot c).2.2 := by
  cases item with
  | symbol x => exact ⟨hc.one_le_cnt hvalid, hc.cum_add_cnt_le hvalid, (by decide : rangeBits ≤ 24)⟩
  | bits k x =>
    have hmod : x % 2 ^ k < 2 ^ k := Nat.mod_lt _ (by positivity)
    exact ⟨le_rfl, hmod, hvalid⟩

/-- The counters stay as they should be. -/
lemma next_ok (hc : c.Ok type n) (hn : n ≤ numSymbols) (hvalid : item.Valid n) : (item.next type c).Ok type n := by
  cases item with
  | symbol x => exact hc.inc hn hvalid
  | bits k x => exact hc

end ArithItem

/-- Counters that are the same up to the index. -/
def SameTables (c c' : TCounter) : Prop := { c with index := [] } = { c' with index := [] }

namespace SameTables

variable {n : ℕ} {c c' : TCounter}

/-- The counters start out the same. -/
lemma new (n : ℕ) : SameTables (.new .encoder n) (.new .decoder n) := rfl

/-- The columns are the same. -/
lemma columns (h : SameTables c c') :
    c.remainder = c'.remainder ∧ c.cnt = c'.cnt ∧ c.cum = c'.cum ∧ c.livecnt = c'.livecnt := by
  obtain ⟨hremainder, hcnt, hcum, hlive, -⟩ := TCounter.mk.injEq .. |>.mp h
  exact ⟨hremainder, hcnt, hcum, hlive⟩

/-- The counters stay the same. -/
lemma next (h : SameTables c c') (item : ArithItem) : SameTables (item.next .encoder c) (item.next .decoder c') := by
  cases item with
  | symbol x => exact TCounter.inc_eq h x
  | bits k x => exact h

/-- Both coders code an item with the same counts. -/
lemma slot_eq (h : SameTables c c') (item : ArithItem) : item.slot c' = item.slot c := by
  obtain ⟨-, hcnt, hcum, -⟩ := h.columns
  cases item with
  | symbol x =>
    unfold ArithItem.slot
    rw [hcnt, hcum]
  | bits k x => rfl

/-- The tables are as they should be. -/
lemma tables (h : SameTables c c') (hc : c'.Ok .decoder n) : Tables n c c' := by
  obtain ⟨hremainder, hcnt, hcum, hlive⟩ := h.columns
  exact {
    remainder_eq := hremainder.symm
    cnt_eq := hcnt.symm
    cum_eq := hcum.symm
    livecnt_eq := hlive.symm
    live_pos := hc.live_pos
    sum_live := hc.sum_live
    index_lt := fun count hcount => by
      rw [hc.length_index]
      exact Nat.div_lt_of_lt_mul hcount
    decode_mem := fun count hcount => by
      obtain ⟨x, hx, hle, hlt⟩ := hc.exists_interval hcount
      rw [hc.decode_eq hx hle hlt]
      exact ⟨hx, hle, hlt⟩ }

end SameTables

/-! ## The encoder's way -/

namespace ArithCoder

variable {n : ℕ} {ac : ArithCoder} {item : ArithItem} {items : List ArithItem}

/-- An item is encoded by one step of the range coder. -/
lemma put_eq (hvalid : item.Valid n) : ac.put item = ⟨ac.step item, item.next .encoder ac.c⟩ := by
  cases item with
  | symbol x => rfl
  | bits k x =>
    have hput : ac.rc.putlowerbits k x = ac.rc.encode (x % 2 ^ k) 1 k := if_pos hvalid
    exact congrArg (ArithCoder.mk · ac.c) hput

/-- The range of the coder is that of a loop that has ended, and its counters are as they should be. -/
structure Ranged (n : ℕ) (ac : ArithCoder) : Prop where
  le_range : 2 ^ 24 ≤ ac.rc.range
  range_lt : ac.rc.range < 2 ^ 32
  c_ok : ac.c.Ok .encoder n

/-- There is room for a carry, too. -/
structure Ok (n : ℕ) (ac : ArithCoder) : Prop extends Ranged n ac where
  rc_ok : ac.rc.Ok ac.rc.range

/-- The coder starts well. -/
lemma ok_new (hpos : 1 ≤ n) (hn : n ≤ numSymbols) : (new n).Ok n where
  rc_ok := TRangeCoder.ok_new
  le_range := (by decide : 2 ^ 24 ≤ TRangeCoder.new.range)
  range_lt := (by decide : TRangeCoder.new.range < 2 ^ 32)
  c_ok := TCounter.ok_new hpos hn

/-- The range is large enough after each item. -/
lemma Ranged.put (h : ac.Ranged n) (hn : n ≤ numSymbols) (hvalid : item.Valid n) : (ac.put item).Ranged n := by
  obtain ⟨-, hle, hlt⟩ := TRangeCoder.range_encode h.le_range h.range_lt (ArithItem.slot_ok h.c_ok hvalid)
  rw [put_eq hvalid]
  exact ⟨hle, hlt, ArithItem.next_ok h.c_ok hn hvalid⟩

/-- **An item** takes a part of the interval. -/
lemma Ok.put (h : ac.Ok n) (hn : n ≤ numSymbols) (hvalid : item.Valid n)
    (hwait : ∀ rc ∈ ac.shifted item, rc.CanWait) :
    (ac.put item).Ok n ∧ ∃ k, (ac.put item).rc.bytes = ac.rc.bytes + k ∧
      ∀ m x, (ac.put item).rc.interval.Holds m x → ac.rc.interval.Holds (k + m) x := by
  have hslot := ArithItem.slot_ok h.c_ok hvalid
  obtain ⟨hinterval, hbytes, hok⟩ := TRangeCoder.encode_spec h.rc_ok h.le_range h.range_lt hslot hwait
  have hranged := h.toRanged.put hn hvalid
  rw [put_eq hvalid] at hranged ⊢
  refine ⟨⟨hranged, hok⟩, _, hbytes, fun m x hholds => ?_⟩
  change CodeInterval.Holds (ac.step item).interval m x at hholds
  unfold step at hholds
  rw [hinterval, CodeInterval.holds_widen] at hholds
  exact hholds.of_narrow hslot.end_le

/-- **Some items** take a part of the interval. -/
lemma Ok.foldl (h : ac.Ok n) (hn : n ≤ numSymbols) (hvalid : ∀ item ∈ items, item.Valid n)
    (hwait : ∀ rc ∈ shifts items ac, rc.CanWait) :
    (items.foldl ArithCoder.put ac).Ok n ∧ ∃ k, (items.foldl ArithCoder.put ac).rc.bytes = ac.rc.bytes + k ∧
      ∀ m x, (items.foldl ArithCoder.put ac).rc.interval.Holds m x → ac.rc.interval.Holds (k + m) x := by
  induction items generalizing ac with
  | nil => exact ⟨h, 0, rfl, fun m x hholds => by rwa [Nat.zero_add]⟩
  | cons item items ih =>
    obtain ⟨hok, k, hbytes, hpart⟩ := h.put hn (hvalid item (List.mem_cons_self ..)) fun rc hmem =>
      hwait rc (List.mem_append_left _ hmem)
    obtain ⟨hok', k', hbytes', hpart'⟩ := ih hok (fun item hmem => hvalid item (List.mem_cons_of_mem _ hmem))
      fun rc hmem => hwait rc (List.mem_append_right _ hmem)
    refine ⟨hok', k + k', ?_, fun m x hholds => ?_⟩
    · rw [List.foldl_cons, hbytes', hbytes, Nat.add_assoc]
    · rw [Nat.add_assoc]
      exact hpart _ _ (hpart' m x hholds)

/-- The states before each `ShiftLow` of items behind one another. -/
lemma shifts_append (front rest : List ArithItem) (ac : ArithCoder) :
    shifts (front ++ rest) ac = shifts front ac ++ shifts rest (front.foldl put ac) := by
  induction front generalizing ac with
  | nil => rfl
  | cons item front ih =>
    rw [List.cons_append, shifts, ih, shifts, List.append_assoc]
    rfl

end ArithCoder

/-! ## The decoder's way -/

namespace ArithDecoder

variable {n : ℕ} {ac : ArithCoder} {ad : ArithDecoder} {item : ArithItem} {items : List ArithItem} {data : List UInt8}

/-- What the decoder does for an item, once the count is one of the item's. -/
lemma get_eq (hc : ad.c.Ok .decoder n) (hvalid : item.Valid n) {count : ℕ} {rd' rd'' : TRangeDecoder}
    (hcount : ad.rd.getCount (item.slot ad.c).2.2 = some (count, rd')) (hle : (item.slot ad.c).1 ≤ count)
    (hlt : count < (item.slot ad.c).1 + (item.slot ad.c).2.1)
    (hupdate : rd'.update (item.slot ad.c).1 (item.slot ad.c).2.1 = some rd'') :
    ad.get item.request = some (item.value, ⟨rd'', item.next .decoder ad.c⟩) := by
  cases item with
  | symbol x =>
    have hdecode : ad.c.decode count = x := hc.decode_eq hvalid hle hlt
    change ad.rd.getCount rangeBits = _ at hcount
    change rd'.update (ad.c.cum.getD x 0) (ad.c.cnt.getD x 0) = _ at hupdate
    unfold get ArithItem.request
    dsimp only
    rw [hcount, Option.bind_eq_bind, Option.bind_some]
    dsimp only
    rw [hdecode, hupdate]
    rfl
  | bits k x =>
    have hfound : count = x % 2 ^ k := le_antisymm (Nat.le_of_lt_succ hlt) hle
    change ad.rd.getCount k = _ at hcount
    change rd'.update (x % 2 ^ k) 1 = _ at hupdate
    have hbits : ad.rd.getbits k = some (x % 2 ^ k, rd'') := by
      unfold TRangeDecoder.getbits
      rw [if_pos (show k ≤ 24 from hvalid), hcount, Option.bind_eq_bind, Option.bind_some]
      dsimp only
      rw [hfound, hupdate]
      rfl
    unfold get ArithItem.request
    dsimp only
    rw [hbits]
    rfl

/-- The decoder is where the encoder was, and has the same counters. -/
structure Synced (n : ℕ) (data : List UInt8) (ac : ArithCoder) (ad : ArithDecoder) : Prop where
  rd_synced : TRangeDecoder.Synced data ac.rc ad.rd
  same : SameTables ac.c ad.c
  c_ok : ad.c.Ok .decoder n

/-- **The decoder finds the next item.** -/
lemma Synced.get (h : Synced n data ac ad) (hok : ac.Ok n) (hn : n ≤ numSymbols) (hvalid : item.Valid n)
    (hwait : ∀ rc ∈ ac.shifted item, rc.CanWait) {m : ℕ}
    (hlength : data.length = 5 + (ac.put item).rc.bytes + m)
    (hholds : (ac.put item).rc.interval.Holds m (beValue data)) :
    ∃ ad', ad.get item.request = some (item.value, ad') ∧ Synced n data (ac.put item) ad' := by
  have hslot := ArithItem.slot_ok hok.c_ok hvalid
  have hsame := h.same.slot_eq item
  rw [ArithCoder.put_eq hvalid] at hlength hholds ⊢
  obtain ⟨count, rd', hcount, hle, hlt, rd'', hupdate, hsynced⟩ :=
    h.rd_synced.exists_step hok.rc_ok hok.le_range hok.range_lt hslot hwait hlength hholds
  rw [← hsame] at hcount hle hlt hupdate
  exact ⟨_, get_eq h.c_ok hvalid hcount hle hlt hupdate, hsynced, h.same.next item, ArithItem.next_ok h.c_ok hn hvalid⟩

/-- **The decoder finds all items.** -/
theorem Synced.exists_gets (h : Synced n data ac ad) (hok : ac.Ok n) (hn : n ≤ numSymbols)
    (hvalid : ∀ item ∈ items, item.Valid n) (hwait : ∀ rc ∈ ArithCoder.shifts items ac, rc.CanWait) {m : ℕ}
    (hlength : data.length = 5 + (items.foldl ArithCoder.put ac).rc.bytes + m)
    (hholds : (items.foldl ArithCoder.put ac).rc.interval.Holds m (beValue data)) :
    ∃ ad', gets (items.map ArithItem.request) ad = some (items.map ArithItem.value, ad') ∧
      Synced n data (items.foldl ArithCoder.put ac) ad' := by
  induction items generalizing ac ad with
  | nil => exact ⟨ad, rfl, h⟩
  | cons item items ih =>
    have hitem := hvalid item (List.mem_cons_self ..)
    have hrest := fun item' hmem => hvalid item' (List.mem_cons_of_mem item hmem)
    have hwaitItem := fun rc hmem => hwait rc (List.mem_append_left _ hmem)
    have hwaitRest := fun rc hmem => hwait rc (List.mem_append_right _ hmem)
    obtain ⟨hok', -⟩ := hok.put hn hitem hwaitItem
    obtain ⟨-, k, hbytes, hpart⟩ := hok'.foldl hn hrest hwaitRest
    rw [List.foldl_cons] at hlength hholds
    obtain ⟨ad₁, hget, hsynced⟩ :=
      h.get hok hn hitem hwaitItem (m := k + m) (by omega) (hpart m _ hholds)
    obtain ⟨ad', hgets, hsynced'⟩ := ih hsynced hok' hrest hwaitRest hlength hholds
    refine ⟨ad', ?_, hsynced'⟩
    rw [List.map_cons, List.map_cons, gets, hget, Option.bind_eq_bind, Option.bind_some]
    dsimp only
    rw [hgets]
    rfl

end ArithDecoder

/-! ## Bytes that are lost -/

namespace ArithCoder

variable {n : ℕ} {ac : ArithCoder} {items : List ArithItem}

/-- The number of bytes by which some items widen the interval. -/
def widened : List ArithItem → ArithCoder → ℕ
  | [], _ => 0
  | item :: items, ac =>
    ac.rc.stepWidenings (item.slot ac.c).2.1 (item.slot ac.c).2.2 + widened items (ac.put item)

/-- The encoder makes no more bytes than it widens the interval by, and fewer where bytes are lost. -/
lemma Ranged.bytes_foldl_le (h : ac.Ranged n) (hn : n ≤ numSymbols) (hvalid : ∀ item ∈ items, item.Valid n) :
    (items.foldl ArithCoder.put ac).rc.bytes ≤ ac.rc.bytes + widened items ac ∧
      ((∃ rc ∈ shifts items ac, ¬rc.CanWait) →
        (items.foldl ArithCoder.put ac).rc.bytes < ac.rc.bytes + widened items ac) := by
  induction items generalizing ac with
  | nil => exact ⟨le_rfl, fun ⟨_, hmem, _⟩ => absurd hmem List.not_mem_nil⟩
  | cons item items ih =>
    have hitem := hvalid item (List.mem_cons_self ..)
    obtain ⟨hle, hlt⟩ := ih (h.put hn hitem) fun item' hmem => hvalid item' (List.mem_cons_of_mem item hmem)
    obtain ⟨hstep, hlost⟩ := TRangeCoder.bytes_encode_le h.range_lt (ArithItem.slot_ok h.c_ok hitem)
    have hput : (ac.put item).rc = ac.step item := congrArg ArithCoder.rc (put_eq hitem)
    rw [hput] at hle hlt
    change (ac.step item).bytes ≤ _ at hstep
    rw [List.foldl_cons, widened]
    refine ⟨by omega, ?_⟩
    rintro ⟨rc, hmem, hwait⟩
    obtain hmem | hmem := List.mem_append.mp hmem
    · have hfewer : (ac.step item).bytes < _ := hlost ⟨rc, hmem, hwait⟩
      omega
    · have hfewer := hlt ⟨rc, hmem, hwait⟩
      omega

end ArithCoder

namespace ArithDecoder

variable {n : ℕ} {ac : ArithCoder} {ad ad' : ArithDecoder} {item : ArithItem} {items : List ArithItem}

/-- A decoder that finds an item has done so with the item's counts. -/
lemma of_get (hvalid : item.Valid n) (h : ad.get item.request = some (item.value, ad')) :
    ad'.c = item.next .decoder ad.c ∧ ∃ count rd', ad.rd.getCount (item.slot ad.c).2.2 = some (count, rd') ∧
      rd'.update (item.slot ad.c).1 (item.slot ad.c).2.1 = some ad'.rd := by
  cases item with
  | symbol x =>
    obtain ⟨⟨count, rd'⟩, hcount, hrest⟩ := Option.bind_eq_some_iff.mp h
    obtain ⟨rd'', hupdate, hvalue⟩ := Option.bind_eq_some_iff.mp hrest
    obtain ⟨hx, rfl⟩ := Prod.mk.inj (Option.some.inj hvalue)
    change ad.c.decode count = x at hx
    rw [hx] at hupdate
    exact ⟨congrArg (ad.c.inc .decoder) hx, count, rd', hcount, hupdate⟩
  | bits k x =>
    obtain ⟨⟨found, rd₁⟩, hbits, hvalue⟩ := Option.bind_eq_some_iff.mp h
    obtain ⟨hx, rfl⟩ := Prod.mk.inj (Option.some.inj hvalue)
    unfold TRangeDecoder.getbits at hbits
    rw [if_pos (show k ≤ 24 from hvalid)] at hbits
    obtain ⟨⟨count, rd'⟩, hcount, hrest⟩ := Option.bind_eq_some_iff.mp hbits
    obtain ⟨rd'', hupdate, hpair⟩ := Option.bind_eq_some_iff.mp hrest
    obtain ⟨rfl, rfl⟩ := Prod.mk.inj (Option.some.inj hpair)
    change count = x % 2 ^ k at hx
    rw [hx] at hupdate
    exact ⟨rfl, count, rd', hcount, hupdate⟩

/-- A decoder that finds all items has read all the bytes by which they widen the interval. -/
lemma length_of_gets (h : gets (items.map ArithItem.request) ad = some (items.map ArithItem.value, ad'))
    (hrange : ad.rd.range = ac.rc.range) (hsame : SameTables ac.c ad.c) (hok : ac.Ranged n) (hn : n ≤ numSymbols)
    (hvalid : ∀ item ∈ items, item.Valid n) :
    ad.rd.input.length = ad'.rd.input.length + ac.widened items := by
  induction items generalizing ac ad with
  | nil =>
    obtain ⟨-, rfl⟩ := Prod.mk.inj (Option.some.inj h)
    rfl
  | cons item items ih =>
    have hitem := hvalid item (List.mem_cons_self ..)
    obtain ⟨⟨x, ad₁⟩, hget, hrest⟩ := Option.bind_eq_some_iff.mp h
    obtain ⟨⟨xs, ad₂⟩, hgets, hpair⟩ := Option.bind_eq_some_iff.mp hrest
    obtain ⟨hvalues, rfl⟩ := Prod.mk.inj (Option.some.inj hpair)
    obtain ⟨rfl, rfl⟩ := List.cons.inj hvalues
    obtain ⟨hcounter, count, rd', hcount, hupdate⟩ := of_get hitem hget
    rw [hsame.slot_eq] at hcount hupdate
    obtain ⟨hrange₁, hlength₁⟩ := TRangeDecoder.of_step hrange hok.le_range hok.range_lt (ArithItem.slot_ok hok.c_ok hitem)
      hcount hupdate
    have hput : ac.put item = _ := ArithCoder.put_eq hitem
    have hsame₁ : SameTables (ac.put item).c ad₁.c := by
      rw [hput, hcounter]
      exact hsame.next item
    have hlength := ih hgets (by rw [hput]; exact hrange₁) hsame₁ (hok.put hn hitem)
      fun item' hmem => hvalid item' (List.mem_cons_of_mem item hmem)
    rw [ArithCoder.widened]
    omega

end ArithDecoder

/-! ## The round trip -/

variable {n : ℕ} {items : List ArithItem}

/-- The round trip fails where bytes are lost: the decoder has too few to read. -/
lemma helpFits_of_arithRoundTrips (hpos : 1 ≤ n) (hn : n ≤ numSymbols) (hvalid : ∀ item ∈ items, item.Valid n)
    (h : ArithRoundTrips n items) : HelpFits n items := by
  by_contra hlost
  obtain ⟨rc, hmem, hwait⟩ : ∃ rc ∈ ArithCoder.shifts items (.new n) ++ (items.foldl ArithCoder.put (.new n)).rc.finishing,
      ¬rc.CanWait := by
    unfold HelpFits at hlost
    push Not at hlost
    exact hlost
  have hok := (ArithCoder.ok_new hpos hn).toRanged
  -- The decoder has read all the bytes that there should be.
  obtain ⟨ad, hdecode, -⟩ := h 0 items List.prefix_rfl
  obtain ⟨ad₀, hnew, hgets⟩ := Option.bind_eq_some_iff.mp hdecode
  obtain ⟨rd₀, hrd, rfl⟩ := Option.map_eq_some_iff.mp hnew
  obtain ⟨hrange, hlength⟩ := TRangeDecoder.of_shiftBytes hrd
  have hread := ArithDecoder.length_of_gets hgets hrange (SameTables.new n) hok hn hvalid
  change (encoded n items).length = _ at hlength
  -- The encoder has put out fewer.
  obtain ⟨hbytesLe, hbytesLt⟩ := hok.bytes_foldl_le hn hvalid
  obtain ⟨hfinishLe, hfinishLt⟩ := TRangeCoder.length_finish_le (items.foldl ArithCoder.put (.new n)).rc
  have hzero : (ArithCoder.new n).rc.bytes = 0 := rfl
  change (encoded n items).length ≤ _ at hfinishLe
  change _ → (encoded n items).length < _ at hfinishLt
  have hfewer : (encoded n items).length < 5 + ArithCoder.widened items (.new n) := by
    obtain hmem | hmem := List.mem_append.mp hmem
    · have hlt := hbytesLt ⟨rc, hmem, hwait⟩
      omega
    · have hlt := hfinishLt ⟨rc, hmem, hwait⟩
      omega
  change rd₀.input.length = _ at hread
  omega

/-- The round trip succeeds where no byte is lost. -/
lemma arithRoundTrips_of_helpFits (hpos : 1 ≤ n) (hn : n ≤ numSymbols) (hvalid : ∀ item ∈ items, item.Valid n)
    (h : HelpFits n items) : ArithRoundTrips n items := by
  rintro buffer front ⟨rest, rfl⟩
  have hwait := fun rc hmem => h rc (List.mem_append_left _ hmem)
  rw [ArithCoder.shifts_append] at hwait
  have hwaitFront := fun rc hmem => hwait rc (List.mem_append_left _ hmem)
  have hwaitRest := fun rc hmem => hwait rc (List.mem_append_right _ hmem)
  have hvalidFront := fun item hmem => hvalid item (List.mem_append_left _ hmem)
  have hvalidRest := fun item hmem => hvalid item (List.mem_append_right _ hmem)
  have hok := ArithCoder.ok_new hpos hn
  obtain ⟨hokFront, k, hbytes, hpart⟩ := hok.foldl hn hvalidFront hwaitFront
  obtain ⟨hokRest, k', hbytes', hpart'⟩ := hokFront.foldl hn hvalidRest hwaitRest
  rw [← List.foldl_append] at hokRest hbytes' hpart'
  -- The code is the low end of the last interval.
  obtain ⟨hvalue, hlength⟩ := TRangeCoder.finish_spec
    (hokRest.rc_ok.mono Nat.one_pos hokRest.rc_ok.range_pos) fun rc hmem => h rc (List.mem_append_right _ hmem)
  have hlast : CodeInterval.Holds ((front ++ rest).foldl ArithCoder.put (.new n)).rc.interval 0
      (beValue (encoded n (front ++ rest))) := by
    unfold encoded
    rw [hvalue]
    exact CodeInterval.holds_low hokRest.rc_ok.range_pos
  have hfront := hpart' 0 _ hlast
  have hfirst := hpart _ _ hfront
  change (encoded n (front ++ rest)).length = _ at hlength
  have hzero : (ArithCoder.new n).rc.bytes = 0 := rfl
  obtain ⟨rd, hnew, hsynced⟩ := TRangeDecoder.exists_new buffer (by omega) hfirst
  have hstart : ArithDecoder.Synced n (encoded n (front ++ rest)) (.new n) ⟨rd, .new .decoder n⟩ :=
    ⟨hsynced, SameTables.new n, TCounter.ok_new hpos hn⟩
  obtain ⟨ad, hgets, hsynced'⟩ := hstart.exists_gets hok hn hvalidFront hwaitFront (by omega) hfront
  refine ⟨ad, ?_, hsynced'.same.tables hsynced'.c_ok⟩
  unfold ArithDecoder.new
  rw [hnew]
  exact hgets

/-- **The round trip** gives back the symbols and bits, with equal tables after each of them, if and only if the bytes
that wait for a carry can be counted. -/
theorem arithRoundTrips_iff (hpos : 1 ≤ n) (hn : n ≤ numSymbols) (hvalid : ∀ item ∈ items, item.Valid n) :
    ArithRoundTrips n items ↔ HelpFits n items :=
  ⟨helpFits_of_arithRoundTrips hpos hn hvalid, arithRoundTrips_of_helpFits hpos hn hvalid⟩

/-- The round trip of two symbols and some bits. -/
theorem arithRoundTrips_iff_two :
    ArithRoundTrips 2 [.symbol 0, .bits 3 5, .symbol 1] ↔ HelpFits 2 [.symbol 0, .bits 3 5, .symbol 1] :=
  arithRoundTrips_iff (by decide) (by decide) (by decide)

/-! ## Too many bytes that wait -/

namespace TRangeCoder

/-- A coder that waits for a carry with some bytes. -/
def waiting (low help : ℕ) : TRangeCoder where
  low := low
  range := 0xffffff00
  buffer := 0xfe
  help := help
  output := [0]

/-- What is in front of the loop for eight bits. -/
lemma narrowed_waiting (low help x : ℕ) :
    (waiting low help).narrowed x 1 8 = ⟨low + x * 0xffffff % 2 ^ 32, 0xffffff, 0xfe, help, [0]⟩ := by
  have hdiv : 0xffffff00 / 2 ^ 8 = 0xffffff := by norm_num
  have hmul : 0xffffff * 1 % 2 ^ 32 = 0xffffff := by norm_num
  unfold narrowed waiting
  dsimp only
  rw [hdiv, hmul]

/-- Eight bits that add a byte to those that wait. -/
lemma encode_waiting {low help help' x next : ℕ} (hwait : (low + x * 0xffffff % 2 ^ 32) / 2 ^ 24 = 255)
    (hnext : (low + x * 0xffffff % 2 ^ 32) % 2 ^ 32 * 2 ^ 8 % 2 ^ 32 = next) (hhelp : help + 1 < 2 ^ 32)
    (hhelp' : help + 1 = help') : (waiting low help).encode x 1 8 = waiting next help' := by
  have hwide : (⟨low + x * 0xffffff % 2 ^ 32, 0xffffff, 0xfe, help, [0]⟩ : TRangeCoder).widened =
      waiting (low + x * 0xffffff % 2 ^ 32) help := by
    unfold widened waiting
    norm_num
  have hshift : (waiting (low + x * 0xffffff % 2 ^ 32) help).shiftLow = waiting next help' := by
    unfold shiftLow waiting
    dsimp only
    rw [if_neg (not_le.mpr ((xor_lt_iff _).mpr hwait)), Nat.mod_eq_of_lt hhelp, hnext, hhelp']
  have hrange : (waiting next help').range = 0xffffff00 := rfl
  unfold encode
  rw [narrowed_waiting, renormalize, if_pos ⟨by norm_num, by norm_num⟩, hwide, hshift, renormalize,
    if_neg (by rw [hrange]; norm_num)]

end TRangeCoder

namespace ArithCoder

open TRangeCoder (waiting encode_waiting)

/-- Three numbers of eight bits that add three bytes to those that wait. -/
def cycle : List ArithItem := [.bits 8 0, .bits 8 0, .bits 8 255]

/-- Eight bits are encoded at once. -/
lemma put_byte {rc : TRangeCoder} {c : TCounter} {x : ℕ} (h : x < 2 ^ 8) :
    put ⟨rc, c⟩ (.bits 8 x) = ⟨rc.encode x 1 8, c⟩ := by
  unfold put TRangeCoder.putlowerbits
  dsimp only
  rw [if_pos (by norm_num), Nat.mod_eq_of_lt h]

/-- Three more bytes wait. -/
lemma foldl_cycle {c : TCounter} {help : ℕ} (h : help + 3 < 2 ^ 32) :
    cycle.foldl put ⟨waiting 0xffff0100 help, c⟩ = ⟨waiting 0xffff0100 (help + 3), c⟩ := by
  have hfirst : (waiting 0xffff0100 help).encode 0 1 8 = waiting 0xff010000 (help + 1) :=
    encode_waiting (by norm_num) (by norm_num) (by omega) (by omega)
  have hsecond : (waiting 0xff010000 (help + 1)).encode 0 1 8 = waiting 0x01000000 (help + 2) :=
    encode_waiting (by norm_num) (by norm_num) (by omega) (by omega)
  have hthird : (waiting 0x01000000 (help + 2)).encode 255 1 8 = waiting 0xffff0100 (help + 3) :=
    encode_waiting (by norm_num) (by norm_num) (by omega) (by omega)
  unfold cycle
  rw [List.foldl_cons, put_byte (by norm_num), hfirst, List.foldl_cons, put_byte (by norm_num), hsecond,
    List.foldl_cons, put_byte (by norm_num), hthird, List.foldl_nil]

/-- Some cycles. -/
lemma foldl_cycles (c : TCounter) {k : ℕ} (h : 3 * k < 2 ^ 32) :
    (List.replicate k cycle).flatten.foldl put ⟨waiting 0xffff0100 0, c⟩ =
      ⟨waiting 0xffff0100 (3 * k), c⟩ := by
  induction k with
  | zero => rfl
  | succ k ih =>
    rw [List.replicate_succ', List.flatten_append, List.flatten_singleton, List.foldl_append, ih (by omega),
      foldl_cycle (by omega)]
    rfl

/-- The first byte waits for a carry. -/
lemma put_first (n : ℕ) : (new n).put (.bits 8 255) = ⟨waiting 0xffff0100 0, .new .encoder n⟩ := by
  have hnarrow : TRangeCoder.narrowed 255 1 8 .new = ⟨0xfeffff01, 0xffffff, 0, 0, []⟩ := rfl
  have hwide : (⟨0xfeffff01, 0xffffff, 0, 0, []⟩ : TRangeCoder).widened.shiftLow =
    waiting 0xffff0100 0 := by decide
  have hencode : TRangeCoder.encode 255 1 8 .new = waiting 0xffff0100 0 := by
    unfold TRangeCoder.encode
    rw [hnarrow, TRangeCoder.renormalize, if_pos ⟨by decide, by decide⟩, hwide, TRangeCoder.renormalize,
      if_neg (by decide)]
  unfold new
  rw [put_byte (by norm_num), hencode]

end ArithCoder

/-- Numbers of eight bits, one byte each, of which all but the first wait for a carry. -/
def patient (k : ℕ) : List ArithItem := .bits 8 255 :: (List.replicate k ArithCoder.cycle).flatten ++ [.bits 8 0]

/-- The numbers are valid. -/
lemma valid_patient (n k : ℕ) : ∀ item ∈ patient k, item.Valid n := by
  have hcycle : ∀ item ∈ ArithCoder.cycle, item.Valid n := by
    intro item hmem
    simp only [ArithCoder.cycle, List.mem_cons, List.not_mem_nil, or_false] at hmem
    obtain rfl | rfl | rfl := hmem <;> exact (by decide : 8 ≤ 24)
  intro item hmem
  obtain hmem | hmem := List.mem_append.mp hmem
  · obtain rfl | hmem := List.mem_cons.mp hmem
    · exact (by decide : 8 ≤ 24)
    · obtain ⟨items, hitems, hmem⟩ := List.mem_flatten.mp hmem
      rw [List.eq_of_mem_replicate hitems] at hmem
      exact hcycle item hmem
  · obtain rfl := List.mem_singleton.mp hmem
    exact (by decide : 8 ≤ 24)

/-- One byte too many has to wait. -/
lemma not_helpFits_patient (n : ℕ) {k : ℕ} (hk : 3 * k + 1 = 2 ^ 32) : ¬HelpFits n (patient k) := by
  intro h
  have hstate : (ArithItem.bits 8 255 :: (List.replicate k ArithCoder.cycle).flatten).foldl ArithCoder.put (.new n) =
      ⟨.waiting 0xffff0100 (3 * k), .new .encoder n⟩ := by
    rw [List.foldl_cons, ArithCoder.put_first, ArithCoder.foldl_cycles _ (by omega)]
  have hwait : ∀ rc ∈ ArithCoder.shifts [.bits 8 0] ⟨.waiting 0xffff0100 (3 * k), .new .encoder n⟩, rc.CanWait := by
    intro rc hmem
    refine h rc (List.mem_append_left _ ?_)
    unfold patient
    rw [ArithCoder.shifts_append, hstate]
    exact List.mem_append_right _ hmem
  have hmem : TRangeCoder.waiting 0xffff0100 (3 * k) ∈
      ArithCoder.shifts [.bits 8 0] ⟨.waiting 0xffff0100 (3 * k), .new .encoder n⟩ := by
    have hwide : (⟨0xffff0100 + 0 * 0xffffff % 2 ^ 32, 0xffffff, 0xfe, 3 * k, [0]⟩ : TRangeCoder).widened =
        .waiting 0xffff0100 (3 * k) := by
      unfold TRangeCoder.widened TRangeCoder.waiting
      norm_num
    have hshifted : TRangeCoder.waiting 0xffff0100 (3 * k) ∈
        ((TRangeCoder.waiting 0xffff0100 (3 * k)).narrowed 0 1 8).shifted := by
      rw [TRangeCoder.narrowed_waiting, TRangeCoder.shifted, if_pos ⟨by norm_num, by norm_num⟩, hwide]
      exact List.mem_cons_self ..
    exact List.mem_append_left _ hshifted
  have hlow : (TRangeCoder.waiting 0xffff0100 (3 * k)).low / 2 ^ 24 = 255 := (by norm_num : 0xffff0100 / 2 ^ 24 = 255)
  have hfits : 3 * k + 1 < 2 ^ 32 := hwait _ hmem ((TRangeCoder.xor_lt_iff _).mpr hlow)
  exact absurd (hk ▸ hfits) (lt_irrefl _)

/-- **Too many bytes** that wait are lost. -/
theorem not_arithRoundTrips : ¬ArithRoundTrips 842 (patient 1431655765) := fun h =>
  not_helpFits_patient 842 (by norm_num)
    (helpFits_of_arithRoundTrips (by decide) (by decide) (valid_patient 842 1431655765) h)

end DArc.Tornado
