import DArc.Tornado.LZ77Coder
import DArc.Tornado.WaitingBytes

/-!
# The coder of literals and matches over the entropy coders

The Huffman coder and the arithmetic coder supply the symbols and bits that were put to them.  The bit coder needs no
model: a literal has nine bits, and so have the codes of a match.

### Outline

* `HuffmanDecoder.Ahead`, `ArithDecoder.Ahead`: what the decoders are about to deliver;
* `BitCoder.put`, `BitDecoder.next`: the bit coder;

### Main results

* `huffman_yields`, `arith_yields`, `bit_yields`: the decoders return what the encoders have been told.
-/

namespace DArc.Tornado

/-! ## The Huffman coder -/

namespace HuffmanDecoder

/-- The decoder is about to deliver some items. -/
def Ahead (size n eob : ℕ) (d : HuffmanDecoder) (items : List ArithItem) : Prop :=
  ∃ (e : HuffmanEncoder) (rest : List (ℕ × ℕ)), e.Ok n ∧ SameTrees n e.huf d.huf ∧
    (∀ item ∈ items, item.Codable n eob) ∧
    d.stream.Begins (fieldsBits (e.runFields size eob items ++ rest)) (fieldsValue (e.runFields size eob items ++ rest))

/-- **The Huffman decoder supplies** what it is about to deliver. -/
theorem supply {size n eob : ℕ} (heob : eob < n) (fuel : ℕ) :
    Supply (fun d : HuffmanDecoder => d.get eob (fuel + 2)) (Ahead size n eob) where
  step := by
    rintro d item items ⟨e, rest, hok, hsame, hitems, hbegins⟩
    have hitem := hitems item List.mem_cons_self
    rw [HuffmanEncoder.runFields, List.append_assoc] at hbegins
    obtain ⟨d', hget, hsame', hnext⟩ := exists_get hok heob hsame hitem size hbegins fuel
    exact ⟨d', hget, _, rest, hok.put size hitem, hsame', fun item hmem => hitems item (List.mem_cons_of_mem _ hmem),
      hnext⟩
  skip := by
    rintro d x items ⟨e, rest, hok, hsame, hitems, hbegins⟩
    refine ⟨_, rest, hok.put size (hitems _ List.mem_cons_self), hsame,
      fun item hmem => hitems item (List.mem_cons_of_mem _ hmem), ?_⟩
    rw [HuffmanEncoder.runFields, List.append_assoc] at hbegins
    change d.stream.Begins (fieldsBits ((0, x % 2 ^ 0) :: _)) (fieldsValue ((0, x % 2 ^ 0) :: _)) at hbegins
    rwa [fieldsBits_cons, fieldsValue_cons, pow_zero, Nat.mod_one, Nat.zero_add, Nat.one_mul, Nat.zero_add] at hbegins

end HuffmanDecoder

/-- What is put can be coded by the Huffman coder. -/
lemma ArithItem.Put.codable {item : ArithItem} (h : item.Put) : item.Codable codes eobCode := by
  cases item with
  | symbol x => exact h
  | bits n x => exact Nat.lt_of_le_of_lt h (by decide : 30 < 32)

/-- `LZ77_Coder` over the Huffman coder: the bytes for some calls. -/
def huffmanBytes (size minlen : ℕ) (memory : HuffmanTree) (calls : List Call) : List UInt8 :=
  (calls.foldl (LZ77Coder.put (HuffmanEncoder.put size eobCode) minlen)
    ⟨HuffmanEncoder.new codes memory, .new⟩).coder.stream.finish

/-- **Through the Huffman coder** calls are found, and the last distances are known. -/
theorem huffman_yields_append {size minlen : ℕ} (hsize : 4 ≤ size) (memory memory' : HuffmanTree) (dists : ℕ → ℕ)
    {front back : List Call} (hcalls : ∀ call ∈ front ++ back, call.Ok minlen) {input : ℕ → UInt8}
    (hinput : ∀ i (hi : i < (huffmanBytes size minlen memory (front ++ back)).length),
      input i = (huffmanBytes size minlen memory (front ++ back))[i]) (fuel : ℕ) :
    ∃ s, Yields (LZ77Decoder.next (fun d : HuffmanDecoder => d.get eobCode (fuel + 2)) minlen)
        (PrevDists.new.founds minlen front) (.new (.new codes memory' input) dists) s ∧
      SamePrev (PrevDists.new.after minlen front) s := by
  set items := PrevDists.new.items minlen (front ++ back) with hitems
  have hcodable : ∀ item ∈ items, item.Codable codes eobCode := fun item hmem =>
    (PrevDists.put_items hcalls .new item hmem).codable
  have hok := HuffmanEncoder.ok_new (n := codes) (by decide) (by decide) memory
  have hfields := hok.runFields size (by decide) hcodable
  have hnew : (HuffmanEncoder.new codes memory).stream.Holds size [] := OutputBitStream.holds_new (by omega)
  have hholds := HuffmanEncoder.holds_puts hsize hnew hfields
  rw [List.nil_append] at hholds
  have hbytes : huffmanBytes size minlen memory (front ++ back) =
      ((HuffmanEncoder.new codes memory).puts size eobCode items).stream.finish := by
    rw [huffmanBytes, LZ77Coder.coder_foldl]
    rfl
  rw [hbytes] at hinput
  have hbegins := hholds.begins hfields hinput
  have hahead : HuffmanDecoder.Ahead size codes eobCode (.new codes memory' input) items := by
    refine ⟨_, [], hok, HuffmanDecoder.sameTrees_new (by decide) (by decide) memory memory', hcodable, ?_⟩
    rwa [List.append_nil]
  rw [hitems, PrevDists.items_append] at hahead
  generalize HuffmanDecoder.new codes memory' input = d at hahead
  obtain ⟨s, hyields, -, hsame⟩ := LZ77Decoder.yields_calls (HuffmanDecoder.supply (by decide : eobCode < codes) fuel)
    (SamePrev.new d dists) (fun call hmem => hcalls call (List.mem_append_left _ hmem)) hahead
  exact ⟨s, hyields, hsame⟩

/-- All calls are found. -/
lemma huffman_yields {size minlen : ℕ} (hsize : 4 ≤ size) (memory memory' : HuffmanTree) (dists : ℕ → ℕ)
    {calls : List Call} (hcalls : ∀ call ∈ calls, call.Ok minlen) {input : ℕ → UInt8}
    (hinput : ∀ i (hi : i < (huffmanBytes size minlen memory calls).length),
      input i = (huffmanBytes size minlen memory calls)[i]) (fuel : ℕ) :
    ∃ s, Yields (LZ77Decoder.next (fun d : HuffmanDecoder => d.get eobCode (fuel + 2)) minlen)
      (PrevDists.new.founds minlen calls) (.new (.new codes memory' input) dists) s := by
  rw [← List.append_nil calls] at hcalls hinput
  obtain ⟨s, hyields, -⟩ := huffman_yields_append hsize memory memory' dists hcalls hinput fuel
  exact ⟨s, hyields⟩

/-- **What is decoded through the Huffman coder** is what was told, and after any number of calls each distance that the
encoder remembers is the decoder's, too. -/
theorem huffman_founds {size minlen : ℕ} (hsize : 4 ≤ size) (memory memory' : HuffmanTree) (dists : ℕ → ℕ)
    {calls front : List Call} (hfront : front <+: calls) (hcalls : ∀ call ∈ calls, call.Ok minlen) {input : ℕ → UInt8}
    (hinput : ∀ i (hi : i < (huffmanBytes size minlen memory calls).length),
      input i = (huffmanBytes size minlen memory calls)[i]) (fuel : ℕ) :
    ∃ s, Yields (LZ77Decoder.next (fun d : HuffmanDecoder => d.get eobCode (fuel + 2)) minlen)
        (PrevDists.new.founds minlen front) (.new (.new codes memory' input) dists) s ∧
      SamePrev (PrevDists.new.after minlen front) s := by
  obtain ⟨back, rfl⟩ := hfront
  exact huffman_yields_append hsize memory memory' dists hcalls hinput fuel

/-- A match, a shift and a match at the same distance are found. -/
theorem huffman_founds_three :
    let calls : List Call := [.encode (fun _ => 0) 9 20 10, .shiftOccurs, .encode (fun _ => 0) 7 15 5]
    let bytes := huffmanBytes 8 4 default calls
    ∃ s, Yields (LZ77Decoder.next (fun d : HuffmanDecoder => d.get eobCode 2) 4)
        (PrevDists.new.founds 4 calls) (.new (.new codes default fun i => bytes.getD i 0) fun _ => 0) s ∧
      SamePrev (PrevDists.new.after 4 calls) s :=
  huffman_founds (by decide) default default _ (List.prefix_refl _) (by decide)
    (fun i hi => List.getD_eq_getElem _ _ hi) 0

/-! ## The arithmetic coder -/

/-- More than 24 bits are coded in two parts. -/
def ArithItem.parts : ArithItem → List ArithItem
  | .symbol x => [.symbol x]
  | .bits n x => if n ≤ 24 then [.bits n x] else [.bits 15 x, .bits (n - 15) (x / 2 ^ 15)]

/-- The parts of what is put. -/
lemma ArithItem.Put.valid {item : ArithItem} (h : item.Put) : ∀ part ∈ item.parts, part.Valid codes := by
  cases item with
  | symbol x =>
    intro part hpart
    rw [List.mem_singleton.mp hpart]
    exact h.1
  | bits n x =>
    have hle : n ≤ 30 := h
    rw [parts]
    split
    · next hshort =>
      intro part hpart
      rw [List.mem_singleton.mp hpart]
      exact hshort
    · intro part hpart
      rcases List.mem_cons.mp hpart with rfl | hpart
      · exact (by decide : 15 ≤ 24)
      · rw [List.mem_singleton.mp hpart]
        change n - 15 ≤ 24
        omega

/-- An item is put in its parts. -/
lemma ArithCoder.foldl_parts (ac : ArithCoder) {item : ArithItem} (h : item.Put) :
    item.parts.foldl ArithCoder.put ac = ac.put item := by
  cases item with
  | symbol x => rfl
  | bits n x =>
    have hle : n ≤ 30 := h
    rw [ArithItem.parts]
    split
    · rfl
    · next hlong =>
      simp only [List.foldl_cons, List.foldl_nil, ArithCoder.put, TRangeCoder.putlowerbits]
      rw [if_pos (show 15 ≤ 24 by decide), if_pos (show n - 15 ≤ 24 by omega), if_neg hlong]

/-- Items are put in their parts. -/
lemma ArithCoder.foldl_flatMap_parts (ac : ArithCoder) {items : List ArithItem} (h : ∀ item ∈ items, item.Put) :
    (items.flatMap ArithItem.parts).foldl ArithCoder.put ac = items.foldl ArithCoder.put ac := by
  induction items generalizing ac with
  | nil => rfl
  | cons item items ih =>
    rw [List.flatMap_cons, List.foldl_append, foldl_parts ac (h item List.mem_cons_self), List.foldl_cons]
    exact ih _ fun item hmem => h item (List.mem_cons_of_mem _ hmem)

/-- No bits take no part of the interval. -/
lemma ArithCoder.Ranged.put_zero {n : ℕ} {ac : ArithCoder} (h : ac.Ranged n) (x : ℕ) :
    ac.put (.bits 0 x) = ac ∧ ac.shifted (.bits 0 x) = [] := by
  have hle := h.le_range
  have hlt := h.range_lt
  have hnarrow : ac.rc.narrowed (x % 2 ^ 0) 1 0 = ac.rc := by
    rw [TRangeCoder.narrowed, pow_zero, Nat.mod_one, Nat.div_one, Nat.zero_mul, Nat.zero_mod, Nat.add_zero,
      Nat.mul_one, Nat.mod_eq_of_lt hlt]
  refine ⟨?_, ?_⟩
  · change (⟨ac.rc.encode (x % 2 ^ 0) 1 0, ac.c⟩ : ArithCoder) = ac
    rw [TRangeCoder.encode, hnarrow, TRangeCoder.renormalize, if_neg (by omega)]
  · change (ac.rc.narrowed (x % 2 ^ 0) 1 0).shifted = []
    rw [hnarrow, TRangeCoder.shifted, if_neg (by omega)]

namespace ArithDecoder

/-- The decoder is about to deliver some parts. -/
def Ahead (n : ℕ) (data : List UInt8) (ad : ArithDecoder) (parts : List ArithItem) : Prop :=
  ∃ (ac : ArithCoder) (m : ℕ), ac.Ok n ∧ Synced n data ac ad ∧ (∀ part ∈ parts, part.Valid n) ∧
    (∀ rc ∈ ArithCoder.shifts parts ac, rc.CanWait) ∧
    data.length = 5 + (parts.foldl ArithCoder.put ac).rc.bytes + m ∧
    (parts.foldl ArithCoder.put ac).rc.interval.Holds m (beValue data)

variable {n : ℕ} {data : List UInt8} {ad : ArithDecoder} {part : ArithItem} {parts : List ArithItem}

/-- The next part is delivered. -/
lemma Ahead.get (hn : n ≤ numSymbols) (h : Ahead n data ad (part :: parts)) :
    ∃ ad', ad.get part.request = some (part.value, ad') ∧ Ahead n data ad' parts := by
  obtain ⟨ac, m, hok, hsynced, hvalid, hwait, hlength, hholds⟩ := h
  have hpart := hvalid part List.mem_cons_self
  have hrest := fun part' hmem => hvalid part' (List.mem_cons_of_mem part hmem)
  have hwaitPart := fun rc hmem => hwait rc (List.mem_append_left _ hmem)
  have hwaitRest := fun rc hmem => hwait rc (List.mem_append_right _ hmem)
  rw [List.foldl_cons] at hlength hholds
  obtain ⟨hok', -⟩ := hok.put hn hpart hwaitPart
  obtain ⟨-, k, hbytes, hnarrow⟩ := hok'.foldl hn hrest hwaitRest
  obtain ⟨ad', hget, hsynced'⟩ :=
    hsynced.get hok hn hpart hwaitPart (m := k + m) (by omega) (hnarrow m _ hholds)
  exact ⟨ad', hget, _, m, hok', hsynced', hrest, hwaitRest, hlength, hholds⟩

/-- No bits need not be read. -/
lemma Ahead.skip {x : ℕ} (h : Ahead n data ad (.bits 0 x :: parts)) : Ahead n data ad parts := by
  obtain ⟨ac, m, hok, hsynced, hvalid, hwait, hlength, hholds⟩ := h
  obtain ⟨hput, hshifted⟩ := hok.toRanged.put_zero x
  rw [List.foldl_cons, hput] at hlength hholds
  rw [ArithCoder.shifts, hput, hshifted, List.nil_append] at hwait
  exact ⟨ac, m, hok, hsynced, fun part hmem => hvalid part (List.mem_cons_of_mem _ hmem), hwait, hlength, hholds⟩

/-- Many bits are read in two parts. -/
lemma get_parts {k x₁ x₂ : ℕ} {ad₁ ad₂ : ArithDecoder} (hlong : 24 < k) (hk : k ≤ 39)
    (h₁ : ad.get (.bits 15) = some (x₁, ad₁)) (h₂ : ad₁.get (.bits (k - 15)) = some (x₂, ad₂)) :
    ad.get (.bits k) = some (x₂ * 2 ^ 15 + x₁, ad₂) := by
  have hsplit : ad.rd.getbits k = ad.rd.getbits 15 >>= fun low =>
      low.2.getbits (k - 15) >>= fun high => pure (high.1 * 2 ^ 15 + low.1, high.2) := by
    simp only [TRangeDecoder.getbits, if_neg (not_le.mpr hlong), if_pos (show 15 ≤ 24 by decide),
      if_pos (show k - 15 ≤ 24 by omega), bind_assoc, pure_bind]
  obtain ⟨⟨y₁, rd₁⟩, hbits₁, hpair₁⟩ := Option.bind_eq_some_iff.mp h₁
  obtain ⟨rfl, rfl⟩ := Prod.mk.inj (Option.some.inj hpair₁)
  obtain ⟨⟨y₂, rd₂⟩, hbits₂, hpair₂⟩ := Option.bind_eq_some_iff.mp h₂
  obtain ⟨rfl, rfl⟩ := Prod.mk.inj (Option.some.inj hpair₂)
  change rd₁.getbits (k - 15) = _ at hbits₂
  simp only [ArithDecoder.get, hsplit, hbits₁, hbits₂, Option.bind_eq_bind, Option.bind_some]
  rfl

/-- **The arithmetic decoder supplies** what it is about to deliver. -/
theorem supply (data : List UInt8) : Supply ArithDecoder.get fun ad items =>
    (∀ item ∈ items, item.Put) ∧ Ahead codes data ad (items.flatMap ArithItem.parts) where
  step := by
    rintro ad item items ⟨hput, hahead⟩
    have hrest : ∀ item ∈ items, item.Put := fun item hmem => hput item (List.mem_cons_of_mem _ hmem)
    have hn : codes ≤ numSymbols := by decide
    rw [List.flatMap_cons] at hahead
    cases item with
    | symbol x =>
      obtain ⟨ad', hget, hnext⟩ := hahead.get hn
      exact ⟨ad', hget, hrest, hnext⟩
    | bits k x =>
      have hle : k ≤ 30 := hput _ List.mem_cons_self
      rw [ArithItem.parts] at hahead
      split at hahead
      · obtain ⟨ad', hget, hnext⟩ := hahead.get hn
        exact ⟨ad', hget, hrest, hnext⟩
      · next hlong =>
        obtain ⟨ad₁, hget₁, hnext₁⟩ := hahead.get hn
        obtain ⟨ad₂, hget₂, hnext₂⟩ := hnext₁.get hn
        refine ⟨ad₂, ?_, hrest, hnext₂⟩
        have hvalue : x / 2 ^ 15 % 2 ^ (k - 15) * 2 ^ 15 + x % 2 ^ 15 = x % 2 ^ k := by
          have hpow : 2 ^ k = 2 ^ 15 * 2 ^ (k - 15) := by rw [← pow_add, Nat.add_sub_cancel' (by omega)]
          rw [hpow, Nat.mod_mul]
          ring
        have hget := get_parts (not_le.mp hlong) (by omega) hget₁ hget₂
        rw [ArithItem.value, ArithItem.value, hvalue] at hget
        exact hget
  skip := by
    rintro ad x items ⟨hput, hahead⟩
    rw [List.flatMap_cons] at hahead
    exact ⟨fun item hmem => hput item (List.mem_cons_of_mem _ hmem), hahead.skip⟩

end ArithDecoder

/-- `LZ77_Coder` over the arithmetic coder: the bytes for some calls. -/
def arithBytes (minlen : ℕ) (calls : List Call) : List UInt8 :=
  (calls.foldl (LZ77Coder.put ArithCoder.put minlen) ⟨ArithCoder.new codes, .new⟩).coder.rc.finish.output

/-- The parts that some calls put to the arithmetic coder. -/
def arithParts (minlen : ℕ) (calls : List Call) : List ArithItem :=
  (PrevDists.new.items minlen calls).flatMap ArithItem.parts

/-- **Through the arithmetic coder** calls are found, and the last distances are known, if the bytes that wait for a
carry can be counted. -/
theorem arith_yields_append {minlen : ℕ} (buffer : ℕ) (dists : ℕ → ℕ) {front back : List Call}
    (hcalls : ∀ call ∈ front ++ back, call.Ok minlen) (hfits : HelpFits codes (arithParts minlen (front ++ back))) :
    ∃ ad s, ArithDecoder.new codes buffer (arithBytes minlen (front ++ back)) = some ad ∧
      Yields (LZ77Decoder.next ArithDecoder.get minlen) (PrevDists.new.founds minlen front) (.new ad dists) s ∧
      SamePrev (PrevDists.new.after minlen front) s := by
  set items := PrevDists.new.items minlen (front ++ back) with hitems
  have hput : ∀ item ∈ items, item.Put := PrevDists.put_items hcalls .new
  have hvalid : ∀ part ∈ items.flatMap ArithItem.parts, part.Valid codes := by
    intro part hpart
    obtain ⟨item, hitem, hmem⟩ := List.mem_flatMap.mp hpart
    exact (hput item hitem).valid part hmem
  have hn : codes ≤ numSymbols := by decide
  have hbytes : arithBytes minlen (front ++ back) = encoded codes (items.flatMap ArithItem.parts) := by
    rw [arithBytes, LZ77Coder.coder_foldl, encoded, ArithCoder.foldl_flatMap_parts _ hput]
  -- the decoder starts out about to deliver everything
  have hok := ArithCoder.ok_new (by decide : 1 ≤ codes) hn
  have hwait := fun rc hmem => hfits rc (List.mem_append_left _ hmem)
  obtain ⟨hend, k, hcount, hnarrow⟩ := hok.foldl hn hvalid hwait
  obtain ⟨hvalue, hlength⟩ := TRangeCoder.finish_spec
    (hend.rc_ok.mono Nat.one_pos hend.rc_ok.range_pos) fun rc hmem => hfits rc (List.mem_append_right _ hmem)
  have hlast : CodeInterval.Holds ((items.flatMap ArithItem.parts).foldl ArithCoder.put (.new codes)).rc.interval 0
      (beValue (encoded codes (items.flatMap ArithItem.parts))) := by
    unfold encoded
    rw [hvalue]
    exact CodeInterval.holds_low hend.rc_ok.range_pos
  change (encoded codes (items.flatMap ArithItem.parts)).length = _ at hlength
  have hzero : (ArithCoder.new codes).rc.bytes = 0 := rfl
  obtain ⟨rd, hnew, hsynced⟩ := TRangeDecoder.exists_new buffer (by omega) (hnarrow 0 _ hlast)
  have hstart : ArithDecoder.Synced codes (encoded codes (items.flatMap ArithItem.parts)) (.new codes)
      ⟨rd, .new .decoder codes⟩ := ⟨hsynced, SameTables.new codes, TCounter.ok_new (by decide) hn⟩
  have hahead : (∀ item ∈ items, item.Put) ∧ ArithDecoder.Ahead codes
      (encoded codes (items.flatMap ArithItem.parts)) ⟨rd, .new .decoder codes⟩ (items.flatMap ArithItem.parts) :=
    ⟨hput, _, 0, hok, hstart, hvalid, hwait, by omega, hlast⟩
  nth_rewrite 1 [hitems] at hahead
  nth_rewrite 2 [hitems] at hahead
  rw [PrevDists.items_append] at hahead
  obtain ⟨s, hyields, -, hsame⟩ := LZ77Decoder.yields_calls (s := .new ⟨rd, .new .decoder codes⟩ dists)
    (ArithDecoder.supply _) (SamePrev.new _ _) (fun call hmem => hcalls call (List.mem_append_left _ hmem)) hahead
  refine ⟨_, s, ?_, hyields, hsame⟩
  rw [hbytes, ArithDecoder.new, hnew]
  rfl

/-- All calls are found. -/
lemma arith_yields {minlen : ℕ} (buffer : ℕ) (dists : ℕ → ℕ) {calls : List Call}
    (hcalls : ∀ call ∈ calls, call.Ok minlen) (hfits : HelpFits codes (arithParts minlen calls)) :
    ∃ ad s, ArithDecoder.new codes buffer (arithBytes minlen calls) = some ad ∧
      Yields (LZ77Decoder.next ArithDecoder.get minlen) (PrevDists.new.founds minlen calls) (.new ad dists) s := by
  rw [← List.append_nil calls] at hcalls hfits
  obtain ⟨ad, s, hnew, hyields, -⟩ := arith_yields_append buffer dists hcalls hfits
  rw [List.append_nil] at hnew
  exact ⟨ad, s, hnew, hyields⟩

/-- What is put has at most two parts. -/
lemma ArithItem.length_parts_le (item : ArithItem) : item.parts.length ≤ 2 := by
  cases item with
  | symbol x => exact (by decide : 1 ≤ 2)
  | bits n x =>
    rw [parts]
    split
    · exact (by decide : 1 ≤ 2)
    · exact le_rfl

/-- A call that is found has at most five parts. -/
lemma PrevDists.length_parts_le (minlen : ℕ) (prev : PrevDists) (call : Call) :
    ((prev.put minlen call).1.flatMap ArithItem.parts).length ≤ 5 * (prev.found minlen call).length := by
  have hmatch (prev : PrevDists) (len dist : ℕ) :
      ((prev.encodeMatch len dist).1.flatMap ArithItem.parts).length ≤ 5 := by
    rw [encodeMatch_fst, List.flatMap_cons, List.flatMap_cons, List.flatMap_singleton, List.length_append,
      List.length_append]
    have hlen := ArithItem.length_parts_le (.bits (lc2.extraBits (LengthCoder.code extraLbits2 (tableLen len)))
      (tableLen len - lc2.baseValue (LengthCoder.code extraLbits2 (tableLen len))))
    have hdist := ArithItem.length_parts_le (.bits (prev.distCode dist).1.2.1 (dist - (prev.distCode dist).1.2.2))
    change 1 + _ ≤ 5
    omega
  cases call with
  | encode m len current source =>
    rw [put, found]
    split
    · split <;> exact (by decide : 1 ≤ 5)
    · exact hmatch _ _ _
  | encodeTable type len => exact hmatch _ _ _
  | shiftOccurs => exact le_rfl

/-- All that is found has at most five parts each. -/
lemma PrevDists.length_flatMap_parts_le (minlen : ℕ) (prev : PrevDists) (calls : List Call) :
    ((prev.items minlen calls).flatMap ArithItem.parts).length ≤ 5 * (prev.founds minlen calls).length := by
  induction calls generalizing prev with
  | nil => exact le_rfl
  | cons call calls ih =>
    have hcall := prev.length_parts_le minlen call
    have hrest := ih (prev.put minlen call).2
    rw [items, founds, List.flatMap_append, List.length_append, List.length_append]
    omega

/-- **Few calls** have few bytes that wait for a carry. -/
theorem helpFits_of_founds {minlen : ℕ} {calls : List Call} (hcalls : ∀ call ∈ calls, call.Ok minlen)
    (hlength : 15 * (PrevDists.new.founds minlen calls).length + 6 < 2 ^ 32) :
    HelpFits codes (arithParts minlen calls) := by
  have hparts := PrevDists.length_flatMap_parts_le minlen .new calls
  refine helpFits_of_length (fun part hpart => ?_) ?_
  · obtain ⟨item, hitem, hmem⟩ := List.mem_flatMap.mp hpart
    exact (PrevDists.put_items hcalls .new item hitem).valid part hmem
  · change 3 * ((PrevDists.new.items minlen calls).flatMap ArithItem.parts).length + 6 < _
    omega

/-- **What is decoded through the arithmetic coder** is what was told, and after any number of calls each distance that
the encoder remembers is the decoder's, too. -/
theorem arith_founds {minlen : ℕ} (buffer : ℕ) (dists : ℕ → ℕ) {calls front : List Call} (hfront : front <+: calls)
    (hcalls : ∀ call ∈ calls, call.Ok minlen) (hfits : HelpFits codes (arithParts minlen calls)) :
    ∃ ad s, ArithDecoder.new codes buffer (arithBytes minlen calls) = some ad ∧
      Yields (LZ77Decoder.next ArithDecoder.get minlen) (PrevDists.new.founds minlen front) (.new ad dists) s ∧
      SamePrev (PrevDists.new.after minlen front) s := by
  obtain ⟨back, rfl⟩ := hfront
  exact arith_yields_append buffer dists hcalls hfits

/-- A match, a shift and a match at the same distance are found. -/
theorem arith_founds_three :
    let calls : List Call := [.encode (fun _ => 0) 9 20 10, .shiftOccurs, .encode (fun _ => 0) 7 15 5]
    ∃ ad s, ArithDecoder.new codes 4096 (arithBytes 4 calls) = some ad ∧
      Yields (LZ77Decoder.next ArithDecoder.get 4) (PrevDists.new.founds 4 calls) (.new ad fun _ => 0) s ∧
      SamePrev (PrevDists.new.after 4 calls) s :=
  arith_founds 4096 _ (List.prefix_refl _) (by decide) (helpFits_of_founds (by decide) (by decide))

/-! ## The bit coder -/

/-- What a coder without tables and without last distances lets the decoder find. -/
def Call.found (minlen : ℕ) : Call → List Found
  | .encode m len current source =>
    if len < minlen then [.literal (m current)] else [.copy len (current - source).toNat]
  | .encodeTable type len => [.copy (impossibleLen + type) len]
  | .shiftOccurs => []

/-- The call is not that of a table. -/
def Call.Plain : Call → Prop
  | .encodeTable _ _ => False
  | _ => True

/-- `LZ77_BitCoder`; tables are not supported. -/
def BitCoder.put (size minlen : ℕ) (s : OutputBitStream) : Call → OutputBitStream
  | .encode m len current source =>
    if len < minlen then s.putbits size 9 (m current).toNat
    else
      let len := len - minlen
      let dist := (current - source).toNat
      let lcode := LengthCoder.code extraLbits len
      let dcode := DistanceCoder.code dc dist
      let s := s.putbits size 9 (256 + lcode <<< 5 + dcode)
      let s := s.putlowerbits size (lc.extraBits lcode) (len - lc.baseValue lcode)
      s.putlowerbits size (dc.extraBits dcode) (dist - dc.baseValue dcode)
  | .encodeTable _ _ => s
  | .shiftOccurs => s

/-- `LZ77_BitDecoder`: `is_literal`, and `getchar`, or `getlen` and `getdist`. -/
def BitDecoder.next (minlen : ℕ) (s : InputBitStream) : Option (Found × InputBitStream) :=
  let (x, s) := s.getbits 9
  if x < 256 then some (.literal (UInt8.ofNat x), s)
  else
    let lcode := x >>> 5 - 8
    let (lbits, s) := s.getbits (lc.extraBits lcode)
    let dcode := x &&& 31
    let (dbits, s) := s.getbits (dc.extraBits dcode)
    some (.copy (minlen + lc.baseValue lcode + lbits) (dc.baseValue dcode + dbits), s)

/-- The bytes for some calls. -/
def bitBytes (size minlen : ℕ) (calls : List Call) : List UInt8 :=
  (calls.foldl (BitCoder.put size minlen) .new).finish

namespace BitCoder

/-- The fields of a call. -/
def fields (minlen : ℕ) : Call → List (ℕ × ℕ)
  | .encode m len current source =>
    if len < minlen then [(9, (m current).toNat)]
    else
      let len := len - minlen
      let dist := (current - source).toNat
      let lcode := LengthCoder.code extraLbits len
      let dcode := DistanceCoder.code dc dist
      [(9, 256 + lcode <<< 5 + dcode), (lc.extraBits lcode, (len - lc.baseValue lcode) % 2 ^ lc.extraBits lcode),
        (dc.extraBits dcode, (dist - dc.baseValue dcode) % 2 ^ dc.extraBits dcode)]
  | .encodeTable _ _ => []
  | .shiftOccurs => []

variable {size minlen : ℕ} {call : Call}

/-- The codes of a match. -/
lemma codes_lt {len dist : ℕ} (hlen : len < 2 ^ 30) (hdist : dist < 2 ^ 30) :
    LengthCoder.code extraLbits len < 8 ∧ DistanceCoder.code dc dist < 32 :=
  ⟨(lc_right hlen).code_lt, (DistanceCoder.right hdist).code_lt⟩

/-- The fields of a call can be put. -/
lemma fieldOk (hcall : call.Ok minlen) : ∀ field ∈ fields minlen call, FieldOk field := by
  have himpossible : impossibleLen = 1073741823 := rfl
  have himpossible' : impossibleDist = 1073741823 := rfl
  cases call with
  | encode m len current source =>
    rw [fields]
    split
    · have hlt : (m current).toNat < 256 := (m current).toNat_lt
      intro field hfield
      rw [List.mem_singleton.mp hfield]
      exact ⟨(by decide : 9 < 32), hlt.trans (by decide : 256 < 2 ^ 9)⟩
    · next hlen =>
      obtain ⟨hle, hlt, hdist⟩ := hcall (not_lt.mp hlen)
      obtain ⟨hlcode, hdcode⟩ := codes_lt (by omega : len - minlen < 2 ^ 30)
        (by omega : (current - source).toNat < 2 ^ 30)
      have hbits (t : VLE) (ht : ∀ bits ∈ t.xextraBits, bits ≤ 30) (code x : ℕ) :
          FieldOk (t.extraBits code, x % 2 ^ t.extraBits code) :=
        ⟨(extraBits_le ht code).trans_lt (by decide), Nat.mod_lt _ (Nat.two_pow_pos _)⟩
      simp only [List.mem_cons, List.not_mem_nil, or_false, forall_eq_or_imp, forall_eq]
      refine ⟨⟨(by decide : 9 < 32), ?_⟩, hbits lc (by decide) _ _, hbits dc (by decide) _ _⟩
      dsimp only
      rw [Nat.shiftLeft_eq]
      omega
  | encodeTable type len => exact fun field hfield => by cases hfield
  | shiftOccurs => exact fun field hfield => by cases hfield

/-- The fields of a call are put. -/
lemma holds_put (hsize : 4 ≤ size) {s : OutputBitStream} {front : List (ℕ × ℕ)} (h : s.Holds size front)
    (hfields : ∀ field ∈ fields minlen call, FieldOk field) :
    (put size minlen s call).Holds size (front ++ fields minlen call) := by
  cases call with
  | encode m len current source =>
    rw [fields] at hfields ⊢
    rw [put]
    split
    · next hlen =>
      rw [if_pos hlen] at hfields
      exact h.putbits hsize (hfields _ (List.mem_singleton_self _))
    · next hlen =>
      rw [if_neg hlen] at hfields
      have hcodes := h.putbits hsize (hfields _ List.mem_cons_self)
      have hlbits := hcodes.putbits hsize (hfields _ (List.mem_cons_of_mem _ List.mem_cons_self))
      have hdbits := hlbits.putbits hsize
        (hfields _ (List.mem_cons_of_mem _ (List.mem_cons_of_mem _ (List.mem_singleton_self _))))
      dsimp only [OutputBitStream.putlowerbits]
      rw [mask_eq, mask_eq]
      rwa [List.append_assoc, List.append_assoc] at hdbits
  | encodeTable type len => rwa [fields, List.append_nil]
  | shiftOccurs => rwa [fields, List.append_nil]

/-- The fields of some calls are put. -/
lemma holds_foldl (hsize : 4 ≤ size) {calls : List Call} (hcalls : ∀ call ∈ calls, call.Ok minlen)
    {s : OutputBitStream} {front : List (ℕ × ℕ)} (h : s.Holds size front) :
    (calls.foldl (put size minlen) s).Holds size (front ++ calls.flatMap (fields minlen)) := by
  induction calls generalizing s front with
  | nil => rwa [List.flatMap_nil, List.append_nil]
  | cons call calls ih =>
    rw [List.flatMap_cons, ← List.append_assoc]
    exact ih (fun call hmem => hcalls call (List.mem_cons_of_mem _ hmem))
      (holds_put hsize h (fieldOk (hcalls call List.mem_cons_self)))

end BitCoder

namespace BitDecoder

variable {minlen : ℕ} {s : InputBitStream} {call : Call} {rest : List (ℕ × ℕ)}

/-- **A call is decoded.** -/
theorem yields_call (hcall : call.Ok minlen) (hplain : call.Plain)
    (h : s.Begins (fieldsBits (BitCoder.fields minlen call ++ rest))
      (fieldsValue (BitCoder.fields minlen call ++ rest))) :
    ∃ s', Yields (next minlen) (call.found minlen) s s' ∧ s'.Begins (fieldsBits rest) (fieldsValue rest) := by
  have himpossible : impossibleLen = 1073741823 := rfl
  have himpossible' : impossibleDist = 1073741823 := rfl
  have hfields := BitCoder.fieldOk hcall
  cases call with
  | encode m len current source =>
    rw [BitCoder.fields] at h hfields
    rw [Call.found]
    by_cases hlen : len < minlen
    · rw [if_pos hlen] at h hfields
      rw [if_pos hlen]
      obtain ⟨hvalue, hnext⟩ := h.getbits (hfields _ (List.mem_singleton_self _))
      refine ⟨(s.getbits 9).2, .single ?_, hnext⟩
      rw [next]
      dsimp only
      rw [hvalue, if_pos (m current).toNat_lt, UInt8.ofNat_toNat]
    · obtain ⟨hle, hlt, hdist⟩ := hcall (not_lt.mp hlen)
      obtain ⟨hlcode, hdcode⟩ := BitCoder.codes_lt (by omega : len - minlen < 2 ^ 30)
        (by omega : (current - source).toNat < 2 ^ 30)
      have hlin := lc_right (by omega : len - minlen < 2 ^ 30)
      have hdin := DistanceCoder.right (by omega : (current - source).toNat < 2 ^ 30)
      rw [if_neg hlen] at h hfields
      rw [if_neg hlen]
      dsimp only at h hfields
      generalize LengthCoder.code extraLbits (len - minlen) = lcode at *
      generalize DistanceCoder.code dc (current - source).toNat = dcode at *
      obtain ⟨hcodes, hnext⟩ := h.getbits (hfields _ List.mem_cons_self)
      obtain ⟨hlbits, hnext⟩ := hnext.getbits (hfields _ (List.mem_cons_of_mem _ List.mem_cons_self))
      obtain ⟨hdbits, hnext⟩ := hnext.getbits
        (hfields _ (List.mem_cons_of_mem _ (List.mem_cons_of_mem _ (List.mem_singleton_self _))))
      refine ⟨_, .single ?_, hnext⟩
      have hlcode' : (256 + lcode <<< 5 + dcode) >>> 5 - 8 = lcode := by
        rw [Nat.shiftLeft_eq, Nat.shiftRight_eq_div_pow]
        omega
      have hdcode' : (256 + lcode <<< 5 + dcode) &&& 31 = dcode := by
        rw [Nat.shiftLeft_eq, show 31 = 2 ^ 5 - 1 from rfl, Nat.and_two_pow_sub_one_eq_mod]
        omega
      rw [next]
      dsimp only
      rw [hcodes, if_neg (by omega), hlcode', hdcode', hlbits, hdbits, Nat.add_assoc, LZ77Decoder.baseValue_add hlin,
        LZ77Decoder.baseValue_add hdin, Nat.add_sub_cancel' (not_lt.mp hlen)]
  | encodeTable type len => exact hplain.elim
  | shiftOccurs => exact ⟨s, rfl, h⟩

/-- All calls are decoded. -/
lemma yields_calls {calls : List Call} (hcalls : ∀ call ∈ calls, call.Ok minlen) (hplain : ∀ call ∈ calls, call.Plain)
    (h : s.Begins (fieldsBits (calls.flatMap (BitCoder.fields minlen)))
      (fieldsValue (calls.flatMap (BitCoder.fields minlen)))) :
    ∃ s', Yields (next minlen) (calls.flatMap (Call.found minlen)) s s' := by
  induction calls generalizing s with
  | nil => exact ⟨s, rfl⟩
  | cons call calls ih =>
    obtain ⟨t, hyields, hnext⟩ := yields_call (hcalls call List.mem_cons_self) (hplain call List.mem_cons_self) h
    obtain ⟨s', hrest⟩ := ih (fun call hmem => hcalls call (List.mem_cons_of_mem _ hmem))
      (fun call hmem => hplain call (List.mem_cons_of_mem _ hmem)) hnext
    exact ⟨s', hyields.append hrest⟩

end BitDecoder

/-- **Through the bit coder** all calls are found. -/
theorem bit_yields {size minlen : ℕ} (hsize : 4 ≤ size) {calls : List Call} (hcalls : ∀ call ∈ calls, call.Ok minlen)
    (hplain : ∀ call ∈ calls, call.Plain) {input : ℕ → UInt8}
    (hinput : ∀ i (hi : i < (bitBytes size minlen calls).length), input i = (bitBytes size minlen calls)[i]) :
    ∃ s, Yields (BitDecoder.next minlen) (calls.flatMap (Call.found minlen)) (.new input) s := by
  have hholds := BitCoder.holds_foldl hsize hcalls (OutputBitStream.holds_new (by omega : 0 < size))
  rw [List.nil_append] at hholds
  refine BitDecoder.yields_calls hcalls hplain (hholds.begins (fun field hfield => ?_) hinput)
  obtain ⟨call, hcall, hmem⟩ := List.mem_flatMap.mp hfield
  exact BitCoder.fieldOk (hcalls call hcall) field hmem

/-- **What is decoded through the bit coder** is what was told, call by call. -/
theorem bit_founds {size minlen : ℕ} (hsize : 4 ≤ size) {calls front : List Call} (hfront : front <+: calls)
    (hcalls : ∀ call ∈ calls, call.Ok minlen) (hplain : ∀ call ∈ calls, call.Plain) {input : ℕ → UInt8}
    (hinput : ∀ i (hi : i < (bitBytes size minlen calls).length), input i = (bitBytes size minlen calls)[i]) :
    ∃ s, Yields (BitDecoder.next minlen) (front.flatMap (Call.found minlen)) (.new input) s := by
  obtain ⟨back, rfl⟩ := hfront
  obtain ⟨s, hyields⟩ := bit_yields hsize hcalls hplain hinput
  rw [List.flatMap_append] at hyields
  obtain ⟨t, hfirst, -⟩ := hyields.of_append
  exact ⟨t, hfirst⟩

/-- A literal and a match are found. -/
theorem bit_founds_two :
    let calls : List Call := [.encode (fun _ => 7) 1 20 10, .encode (fun _ => 0) 300 7000 5]
    ∃ s, Yields (BitDecoder.next 4) (calls.flatMap (Call.found 4)) (.new fun i => (bitBytes 8 4 calls).getD i 0) s :=
  bit_founds (by decide) (List.prefix_refl _) (by decide) (by simp [Call.Plain]) fun i hi => List.getD_eq_getElem _ _ hi

end DArc.Tornado
