import DArc.Tornado.ArithCoder
import DArc.Tornado.HuffmanCodes

/-!
# The Huffman coder

Symbols are coded with the code of a tree that is rebuilt now and then.  The encoder says so by the code of an extra
symbol, `EOB`, so both sides rebuild their trees at the same symbols.  Raw fields of bits may stand between symbols.

### Outline

* `HuffmanEncoder`, `HuffmanDecoder`: the coders;
* `HuffmanEncoder.Ok`: the counters can always be built a tree for;
* `SameTrees`: the trees of both sides were built from the same counters, and have the same counters since.

### Main results

* `huffman_optimal`: in every run, each tree has an optimal code for the counters that it was built from;
* `huffman_gets`: what is decoded is what was encoded, with the same trees.
-/

namespace DArc.Tornado

open Finset (range)

/-! ## The coders -/

/-- `HUFBLOCKSIZE`. -/
def hufBlockSize : ℕ := 5000

/-- `HuffmanEncoder`. -/
structure HuffmanEncoder where
  stream : OutputBitStream
  huf : HuffmanTree
  remainder : Int

namespace HuffmanEncoder

/-- The constructor, for `n` symbols. -/
def new (n : ℕ) (memory : HuffmanTree) : HuffmanEncoder := ⟨.new, .new .encoder n memory, hufBlockSize / 4⟩

/-- The tree is rebuilt, and the decoder is told so. -/
def rebuild (size eob : ℕ) (e : HuffmanEncoder) : HuffmanEncoder where
  stream := (e.stream.putbits size (e.huf.bits eob) (e.huf.code eob)).putbits size 3 3
  huf := e.huf.buildTree .encoder 3
  remainder := hufBlockSize

/-- `encode`. -/
def encode (size eob x : ℕ) (e : HuffmanEncoder) : HuffmanEncoder :=
  let e := { e with remainder := e.remainder - 1 }
  let e := if e.remainder = 0 then e.rebuild size eob else e
  let e := { e with huf := e.huf.inc x }
  { e with stream := e.stream.putbits size (e.huf.bits x) (e.huf.code x) }

/-- `encode` and `putlowerbits`. -/
def put (size eob : ℕ) (e : HuffmanEncoder) : ArithItem → HuffmanEncoder
  | .symbol x => e.encode size eob x
  | .bits n x => { e with stream := e.stream.putlowerbits size n x }

/-- The encoder after some items. -/
def puts (size eob : ℕ) (e : HuffmanEncoder) (items : List ArithItem) : HuffmanEncoder := items.foldl (put size eob) e

end HuffmanEncoder

/-- The bytes that some items are encoded to. -/
def huffmanEncoded (size n eob : ℕ) (memory : HuffmanTree) (items : List ArithItem) : List UInt8 :=
  ((HuffmanEncoder.new n memory).puts size eob items).stream.finish

/-- `HuffmanDecoder`. -/
structure HuffmanDecoder where
  stream : InputBitStream
  huf : HuffmanTree

namespace HuffmanDecoder

/-- The constructor, for `n` symbols. -/
def new (n : ℕ) (memory : HuffmanTree) (input : ℕ → UInt8) : HuffmanDecoder := ⟨.new input, .new .decoder n memory⟩

/-- `decode`, for some turns at most. -/
def decode (eob : ℕ) : ℕ → HuffmanDecoder → Option (ℕ × HuffmanDecoder)
  | 0, _ => none
  | fuel + 1, d =>
    let (code, stream) := d.stream.needbits d.huf.maxbits
    let x := d.huf.decode code
    let stream := stream.dumpbits (d.huf.bits x)
    if x ≠ eob then some (x, ⟨stream, d.huf.inc x⟩)
    else
      let (mode, stream) := stream.getbits 3
      decode eob fuel ⟨stream, d.huf.buildTree .decoder mode⟩

/-- `decode` and `getbits`. -/
def get (eob fuel : ℕ) (d : HuffmanDecoder) : Request → Option (ℕ × HuffmanDecoder)
  | .symbol => d.decode eob fuel
  | .bits n =>
    let (x, stream) := d.stream.getbits n
    some (x, { d with stream })

/-- Some calls of the decoder. -/
def gets (eob fuel : ℕ) : List Request → HuffmanDecoder → Option (List ℕ × HuffmanDecoder)
  | [], d => some ([], d)
  | request :: requests, d => do
    let (x, d) ← d.get eob fuel request
    let (xs, d) ← d.gets eob fuel requests
    return (x :: xs, d)

end HuffmanDecoder

/-- What can be coded: symbols other than `EOB`, and fields of less than 32 bits. -/
def ArithItem.Codable (n eob : ℕ) : ArithItem → Prop
  | .symbol x => x < n ∧ x ≠ eob
  | .bits k _ => k < 32

instance (n eob : ℕ) : (item : ArithItem) → Decidable (item.Codable n eob)
  | .symbol x => @instDecidableAnd (x < n) (x ≠ eob) (Nat.decLt x n) (@instDecidableNot (x = eob) (Nat.decEq x eob))
  | .bits k _ => Nat.decLt k 32

/-- The trees of both sides were built from the same counters, and have the same counters since. -/
structure SameTrees (n : ℕ) (encoder decoder : HuffmanTree) : Prop where
  n_encoder : encoder.n = n
  n_decoder : decoder.n = n
  counter : ∀ s < n, decoder.counter s = encoder.counter s
  built : ∃ counter, CountersOk n counter ∧ encoder.Encodes (symbolWord n counter) ∧
    decoder.Decodes (symbolWord n counter)

/-! ## The counters -/

/-- `rescale(6)` makes a counter smaller by a sixth, and never 0. -/
lemma rescaled_six {c : ℕ} (hc : 0 < c) :
    0 < HuffmanTree.rescaled 6 c ∧ 6 * HuffmanTree.rescaled 6 c ≤ 5 * c + 5 := by
  unfold HuffmanTree.rescaled
  split <;> omega

/-- Counting a symbol does not change the tables. -/
lemma HuffmanTree.Encodes.inc {t : HuffmanTree} {word : ℕ → Word} (h : t.Encodes word) (x : ℕ) :
    (t.inc x).Encodes word := ⟨h.bits, h.code⟩

/-- Counting a symbol does not change the tables. -/
lemma HuffmanTree.Decodes.inc {t : HuffmanTree} {word : ℕ → Word} (h : t.Decodes word) (x : ℕ) :
    (t.inc x).Decodes word := ⟨h.bits, h.bits_le, h.exists_longest, h.maxbits_le, h.decode⟩

namespace HuffmanEncoder

/-- The counters are not 0, their sum is bounded, and the tables hold the code of some counters. -/
structure Ok (n : ℕ) (e : HuffmanEncoder) : Prop where
  two_le : 2 ≤ n
  le_maxhuf : n ≤ maxhuf
  n_eq : e.huf.n = n
  pos : ∀ s < n, 0 < e.huf.counter s
  remainder_pos : 0 < e.remainder
  sum_le : ((∑ s ∈ range n, e.huf.counter s : ℕ) : Int) + e.remainder ≤ 30001 + 5 * n
  encodes : ∃ counter, CountersOk n counter ∧ e.huf.Encodes (symbolWord n counter)

variable {n size eob : ℕ} {e : HuffmanEncoder}

/-- A tree can be built for the counters. -/
lemma Ok.countersOk (h : e.Ok n) : CountersOk n e.huf.counter := by
  have hsum := h.sum_le
  have hpos := h.remainder_pos
  have hmax := h.le_maxhuf
  have hmaxhuf : maxhuf = 2048 := rfl
  exact ⟨h.two_le, h.le_maxhuf, h.pos, by omega⟩

/-- Counters that are all 1. -/
lemma sum_one {counter : ℕ → ℕ} (hone : ∀ s < n, counter s = 1) : ∑ s ∈ range n, counter s = n := by
  rw [Finset.sum_congr rfl fun s hs => hone s (Finset.mem_range.mp hs), Finset.sum_const, Finset.card_range,
    smul_eq_mul, Nat.mul_one]

/-- A tree can be built for counters that are all 1. -/
lemma countersOk_one (htwo : 2 ≤ n) (hmax : n ≤ maxhuf) {counter : ℕ → ℕ} (hone : ∀ s < n, counter s = 1) :
    CountersOk n counter := by
  have hmaxhuf : maxhuf = 2048 := rfl
  refine ⟨htwo, hmax, fun s hs => by rw [hone s hs]; exact Nat.one_pos, ?_⟩
  rw [sum_one hone]
  omega

/-- A new encoder. -/
lemma ok_new (htwo : 2 ≤ n) (hmax : n ≤ maxhuf) (memory : HuffmanTree) : (new n memory).Ok n := by
  set t := HuffmanTree.fresh n memory with ht
  have hone : ∀ s < n, t.counter s = 1 := fun s hs => if_pos hs
  have hok : CountersOk t.n t.counter := countersOk_one htwo hmax hone
  obtain ⟨hn, hcounter⟩ := t.buildTree_keeps .encoder 0
  have hafter : ∀ s < n, (t.buildTree .encoder 0).counter s = 1 := fun s hs => by
    rw [hcounter, if_pos (show s < t.n from hs), hone s hs]
    rfl
  have hsum : ∑ s ∈ range n, (t.buildTree .encoder 0).counter s = n := sum_one hafter
  refine ⟨htwo, hmax, hn, fun s hs => ?_, ?_, ?_, t.counter, hok, HuffmanTree.buildTree_encoder hok 0⟩
  · exact (hafter s hs).symm ▸ Nat.one_pos
  · change (0 : Int) < 5000 / 4
    decide
  · change ((∑ s ∈ range n, (t.buildTree .encoder 0).counter s : ℕ) : Int) + 5000 / 4 ≤ _
    rw [hsum]
    omega

/-- Another symbol is counted. -/
lemma sum_inc {x : ℕ} (t : HuffmanTree) (hx : x < n) :
    ∑ s ∈ range n, (t.inc x).counter s = ∑ s ∈ range n, t.counter s + 1 := by
  have hmem := Finset.mem_range.mpr hx
  rw [← Finset.add_sum_erase _ _ hmem, ← Finset.add_sum_erase _ t.counter hmem]
  have hrest : ∑ s ∈ (range n).erase x, (t.inc x).counter s = ∑ s ∈ (range n).erase x, t.counter s :=
    Finset.sum_congr rfl fun s hs => Function.update_of_ne (Finset.ne_of_mem_erase hs) _ _
  have hself : (t.inc x).counter x = t.counter x + 1 := Function.update_self _ _ _
  rw [hrest, hself]
  omega

/-- The counters after the tree has been rebuilt. -/
lemma Ok.rebuild (h : e.Ok n) :
    (e.huf.buildTree .encoder 3).n = n ∧ (∀ s < n, 0 < (e.huf.buildTree .encoder 3).counter s) ∧
      6 * ∑ s ∈ range n, (e.huf.buildTree .encoder 3).counter s ≤ 5 * ∑ s ∈ range n, e.huf.counter s + 5 * n := by
  obtain ⟨hn, hcounter⟩ := e.huf.buildTree_keeps .encoder 3
  have hafter : ∀ s < n, (e.huf.buildTree .encoder 3).counter s = HuffmanTree.rescaled 6 (e.huf.counter s) :=
    fun s hs => by
      rw [hcounter, h.n_eq, if_pos hs]
      rfl
  refine ⟨hn.trans h.n_eq, fun s hs => ?_, ?_⟩
  · rw [hafter s hs]
    exact (rescaled_six (h.pos s hs)).1
  · have hle : ∑ s ∈ range n, 6 * HuffmanTree.rescaled 6 (e.huf.counter s) ≤
        ∑ s ∈ range n, (5 * e.huf.counter s + 5) :=
      Finset.sum_le_sum fun s hs => (rescaled_six (h.pos s (Finset.mem_range.mp hs))).2
    rw [← Finset.mul_sum, Finset.sum_add_distrib, ← Finset.mul_sum, Finset.sum_const, Finset.card_range, smul_eq_mul,
      Nat.mul_comm n 5] at hle
    rwa [Finset.sum_congr rfl fun s hs => hafter s (Finset.mem_range.mp hs)]

/-- A symbol is counted. -/
lemma Ok.inc {x : ℕ} (h : e.Ok n) (hx : x < n) (stream : OutputBitStream) {remainder : Int}
    (hremainder : remainder + 1 = e.remainder) (hpos : 0 < remainder) : Ok n ⟨stream, e.huf.inc x, remainder⟩ where
  two_le := h.two_le
  le_maxhuf := h.le_maxhuf
  n_eq := h.n_eq
  pos := fun s hs => by
    change 0 < Function.update e.huf.counter x _ s
    rw [Function.update_apply]
    split
    · exact Nat.succ_pos _
    · exact h.pos s hs
  remainder_pos := hpos
  sum_le := by
    have hsum := h.sum_le
    dsimp only
    rw [sum_inc _ hx]
    omega
  encodes := by
    obtain ⟨counter, hok, hencodes⟩ := h.encodes
    exact ⟨counter, hok, hencodes.inc x⟩

/-! ## What is encoded -/

/-- The tree that the next symbol is coded with. -/
def current (e : HuffmanEncoder) : HuffmanTree := if e.remainder - 1 = 0 then e.huf.buildTree .encoder 3 else e.huf

/-- The fields that say that the tree is rebuilt. -/
def announced (eob : ℕ) (e : HuffmanEncoder) : List (ℕ × ℕ) :=
  if e.remainder - 1 = 0 then [(e.huf.bits eob, e.huf.code eob), (3, 3)] else []

/-- The fields of an item. -/
def fields (eob : ℕ) (e : HuffmanEncoder) : ArithItem → List (ℕ × ℕ)
  | .symbol x => e.announced eob ++ [(e.current.bits x, e.current.code x)]
  | .bits n x => [(n, x % 2 ^ n)]

/-- The fields of some items. -/
def runFields (size eob : ℕ) : List ArithItem → HuffmanEncoder → List (ℕ × ℕ)
  | [], _ => []
  | item :: items, e => e.fields eob item ++ runFields size eob items (e.put size eob item)

/-- The code of a symbol is a field. -/
lemma Ok.fieldOk (h : e.Ok n) {s : ℕ} (hs : s < n) : FieldOk (e.huf.bits s, e.huf.code s) := by
  obtain ⟨counter, hok, hencodes⟩ := h.encodes
  have hcode := optimalCode_symbolWord hok
  have hs' : s < e.huf.n := h.n_eq.symm ▸ hs
  have hbits := hcode.bits_le s hs
  rw [hencodes.bits s hs', hencodes.code s hs']
  exact ⟨by dsimp only; omega, hcode.code_lt s hs⟩

/-- The encoder with the tree for the next symbol. -/
lemma Ok.current (h : e.Ok n) (size eob : ℕ) (stream : OutputBitStream) :
    ∃ remainder : Int, Ok n ⟨stream, e.current, remainder + 1⟩ ∧ 0 < remainder ∧
      ∀ x, (e.encode size eob x).huf = e.current.inc x ∧ (e.encode size eob x).remainder = remainder := by
  by_cases hlast : e.remainder - 1 = 0
  · obtain ⟨hn, hpos, hle⟩ := h.rebuild
    have hsum := h.sum_le
    refine ⟨5000, ⟨h.two_le, h.le_maxhuf, ?_, ?_, by dsimp only; omega, ?_, e.huf.counter, h.countersOk, ?_⟩,
      by decide, fun x => ?_⟩
    · rw [HuffmanEncoder.current, if_pos hlast]
      exact hn
    · rw [HuffmanEncoder.current, if_pos hlast]
      exact hpos
    · dsimp only
      rw [HuffmanEncoder.current, if_pos hlast]
      omega
    · rw [HuffmanEncoder.current, if_pos hlast]
      have hencodes := HuffmanTree.buildTree_encoder (t := e.huf) (by rw [h.n_eq]; exact h.countersOk) 3
      rwa [h.n_eq] at hencodes
    · rw [encode, HuffmanEncoder.current]
      dsimp only
      rw [if_pos hlast, if_pos hlast]
      exact ⟨rfl, rfl⟩
  · have hpos := h.remainder_pos
    refine ⟨e.remainder - 1, ?_, by omega, fun x => ?_⟩
    · rw [HuffmanEncoder.current, if_neg hlast, Int.sub_add_cancel]
      exact ⟨h.two_le, h.le_maxhuf, h.n_eq, h.pos, h.remainder_pos, h.sum_le, h.encodes⟩
    · rw [encode, HuffmanEncoder.current]
      dsimp only
      rw [if_neg hlast, if_neg hlast]
      exact ⟨rfl, rfl⟩

/-- **The counters stay good.** -/
theorem Ok.put (h : e.Ok n) (size : ℕ) {item : ArithItem} (hitem : item.Codable n eob) : (e.put size eob item).Ok n := by
  cases item with
  | symbol x =>
    obtain ⟨remainder, hok, hpos, hencode⟩ := h.current size eob e.stream
    have hinc := hok.inc hitem.1 (e.encode size eob x).stream rfl hpos
    obtain ⟨hhuf, hremainder⟩ := hencode x
    dsimp only at hinc
    rw [← hhuf, ← hremainder] at hinc
    exact hinc
  | bits k x => exact ⟨h.two_le, h.le_maxhuf, h.n_eq, h.pos, h.remainder_pos, h.sum_le, h.encodes⟩

/-- The fields of an item can be put. -/
lemma Ok.fields (h : e.Ok n) (heob : eob < n) {item : ArithItem} (hitem : item.Codable n eob) :
    ∀ field ∈ e.fields eob item, FieldOk field := by
  cases item with
  | symbol x =>
    obtain ⟨remainder, hok, -, -⟩ := h.current 4 eob e.stream
    intro field hfield
    rcases List.mem_append.mp hfield with hfield | hfield
    · rw [announced] at hfield
      split at hfield
      · rcases List.mem_cons.mp hfield with rfl | hfield
        · exact h.fieldOk heob
        · rw [List.mem_singleton.mp hfield]
          exact ⟨by decide, by decide⟩
      · cases hfield
    · rw [List.mem_singleton.mp hfield]
      exact hok.fieldOk hitem.1
  | bits k x =>
    intro field hfield
    rw [List.mem_singleton.mp hfield]
    exact ⟨hitem, Nat.mod_lt _ (Nat.two_pow_pos k)⟩

/-- The fields of an item are put. -/
lemma holds_put (hsize : 4 ≤ size) {item : ArithItem} {fields : List (ℕ × ℕ)} (h : e.stream.Holds size fields)
    (hfields : ∀ field ∈ e.fields eob item, FieldOk field) :
    (e.put size eob item).stream.Holds size (fields ++ e.fields eob item) := by
  cases item with
  | symbol x =>
    rw [HuffmanEncoder.fields, announced, HuffmanEncoder.current] at hfields
    rw [put, encode, HuffmanEncoder.fields, announced, HuffmanEncoder.current]
    dsimp only
    split
    · next hlast =>
      rw [if_pos hlast, if_pos hlast] at hfields
      have heob := h.putbits hsize (hfields _ List.mem_cons_self)
      have hmode := heob.putbits hsize (hfields (3, 3) (by simp))
      have hsymbol := hmode.putbits hsize (hfields _ (List.mem_append_right _ (List.mem_singleton_self _)))
      rwa [List.append_assoc, List.append_assoc] at hsymbol
    · next hlast =>
      rw [if_neg hlast, if_neg hlast] at hfields
      exact h.putbits hsize (hfields _ (List.mem_append_right _ (List.mem_singleton_self _)))
  | bits k x =>
    rw [put, HuffmanEncoder.fields, OutputBitStream.putlowerbits, mask_eq]
    exact h.putbits hsize (hfields _ (List.mem_singleton_self _))

/-- The counters stay good over whole runs. -/
lemma Ok.puts (h : e.Ok n) (size : ℕ) {items : List ArithItem} (hitems : ∀ item ∈ items, item.Codable n eob) :
    (e.puts size eob items).Ok n := by
  induction items generalizing e with
  | nil => exact h
  | cons item items ih =>
    exact ih (h.put size (hitems item List.mem_cons_self)) fun item hmem => hitems item (List.mem_cons_of_mem _ hmem)

/-- The fields of a run can be put. -/
lemma Ok.runFields (h : e.Ok n) (size : ℕ) (heob : eob < n) {items : List ArithItem}
    (hitems : ∀ item ∈ items, item.Codable n eob) :
    ∀ field ∈ runFields size eob items e, FieldOk field := by
  induction items generalizing e with
  | nil => exact fun field hfield => by cases hfield
  | cons item items ih =>
    have hitem := hitems item List.mem_cons_self
    intro field hfield
    rcases List.mem_append.mp hfield with hfield | hfield
    · exact h.fields heob hitem field hfield
    · exact ih (h.put size hitem) (fun item hmem => hitems item (List.mem_cons_of_mem _ hmem)) field hfield

/-- The fields of a run are put. -/
lemma holds_puts (hsize : 4 ≤ size) {items : List ArithItem} {fields : List (ℕ × ℕ)} (h : e.stream.Holds size fields)
    (hfields : ∀ field ∈ runFields size eob items e, FieldOk field) :
    (e.puts size eob items).stream.Holds size (fields ++ runFields size eob items e) := by
  induction items generalizing e fields with
  | nil => rwa [HuffmanEncoder.runFields, List.append_nil]
  | cons item items ih =>
    have hput := holds_put hsize h fun field hfield => hfields field (List.mem_append_left _ hfield)
    rw [HuffmanEncoder.runFields, ← List.append_assoc]
    exact ih hput fun field hfield => hfields field (List.mem_append_right _ hfield)

/-- The fields of a run that goes on. -/
lemma runFields_append (before after : List ArithItem) :
    runFields size eob (before ++ after) e =
      runFields size eob before e ++ runFields size eob after (e.puts size eob before) := by
  induction before generalizing e with
  | nil => rfl
  | cons item before ih =>
    rw [List.cons_append, HuffmanEncoder.runFields, ih, HuffmanEncoder.runFields, List.append_assoc]
    rfl

end HuffmanEncoder

/-! ## What is decoded -/

namespace HuffmanDecoder

variable {n eob : ℕ} {e : HuffmanEncoder} {d : HuffmanDecoder}

/-- **The next code is looked up.** Bits behind it may be looked at, too. -/
theorem lookup {encoder decoder : HuffmanTree} (h : SameTrees n encoder decoder) {stream : InputBitStream} {s : ℕ}
    (hs : s < n) {fields : List (ℕ × ℕ)}
    (hbegins : stream.Begins (fieldsBits ((encoder.bits s, encoder.code s) :: fields))
      (fieldsValue ((encoder.bits s, encoder.code s) :: fields))) :
    decoder.decode (stream.needbits decoder.maxbits).1 = s ∧
      ((stream.needbits decoder.maxbits).2.dumpbits (decoder.bits s)).Begins (fieldsBits fields) (fieldsValue fields) := by
  obtain ⟨counter, hok, hencodes, hdecodes⟩ := h.built
  have hcode := optimalCode_symbolWord hok
  have hs' : s < decoder.n := h.n_decoder.symm ▸ hs
  have hs'' : s < encoder.n := h.n_encoder.symm ▸ hs
  obtain ⟨s₀, hs₀, hlongest⟩ := hdecodes.exists_longest
  have hmax : decoder.maxbits ≤ 32 := by
    have := hcode.bits_le s₀ (h.n_decoder ▸ hs₀)
    omega
  have hlt := hcode.code_lt s hs
  have hle := hdecodes.bits_le s hs'
  rw [hencodes.bits s hs'', hencodes.code s hs'', fieldsBits_cons, fieldsValue_cons] at hbegins
  obtain ⟨hbits, hnext, hcount⟩ := hbegins.needbits (Nat.le_add_right _ _) hle hmax
  refine ⟨?_, ?_⟩
  · have hmask : (stream.needbits decoder.maxbits).1 % 2 ^ decoder.maxbits = (stream.needbits decoder.maxbits).1 := by
      dsimp only [InputBitStream.needbits]
      rw [mask_eq, Nat.mod_mod]
    rw [← hmask]
    refine hdecodes.decode s hs' _ ?_
    rw [hbits, Nat.add_mul_mod_self_left, Nat.mod_eq_of_lt hlt]
  · have hdump := hnext.dumpbits (Nat.le_add_right _ _) (hle.trans hcount)
    rwa [Nat.add_sub_cancel_left, Nat.add_mul_div_left _ _ (Nat.two_pow_pos _), Nat.div_eq_of_lt hlt, Nat.zero_add,
      ← hdecodes.bits s hs'] at hdump

/-- **Both trees are rebuilt from the same counters.** -/
theorem sameTrees_buildTree {encoder decoder : HuffmanTree} (hencoder : encoder.n = n) (hdecoder : decoder.n = n)
    (hcounter : ∀ s < n, decoder.counter s = encoder.counter s) (hok : CountersOk n encoder.counter) (mode : ℕ) :
    SameTrees n (encoder.buildTree .encoder mode) (decoder.buildTree .decoder mode) := by
  obtain ⟨hne, hce⟩ := encoder.buildTree_keeps .encoder mode
  obtain ⟨hnd, hcd⟩ := decoder.buildTree_keeps .decoder mode
  have hcongr : CountersOk n decoder.counter :=
    ⟨hok.two_le, hok.le_maxhuf, fun s hs => by rw [hcounter s hs]; exact hok.pos s hs, by
      rw [Finset.sum_congr rfl fun s hs => hcounter s (Finset.mem_range.mp hs)]
      exact hok.sum_lt⟩
  have hword : symbolWord n decoder.counter = symbolWord n encoder.counter := by
    funext s
    rw [symbolWord, symbolWord, sortedNodes_congr hcounter]
  have hencodes := HuffmanTree.buildTree_encoder (t := encoder) (by rw [hencoder]; exact hok) mode
  have hdecodes := HuffmanTree.buildTree_decoder (t := decoder) (by rw [hdecoder]; exact hcongr) mode
  rw [hencoder] at hencodes
  rw [hdecoder, hword] at hdecodes
  refine ⟨hne.trans hencoder, hnd.trans hdecoder, fun s hs => ?_, encoder.counter, hok, hencodes, hdecodes⟩
  rw [hcd, hce, hencoder, hdecoder, if_pos hs, if_pos hs, hcounter s hs]

/-- Both sides count the same symbol. -/
lemma SameTrees.inc {encoder decoder : HuffmanTree} (h : SameTrees n encoder decoder) (x : ℕ) :
    SameTrees n (encoder.inc x) (decoder.inc x) := by
  obtain ⟨counter, hok, hencodes, hdecodes⟩ := h.built
  refine ⟨h.n_encoder, h.n_decoder, fun s hs => ?_, counter, hok, hencodes.inc x, hdecodes.inc x⟩
  change Function.update decoder.counter x _ s = Function.update encoder.counter x _ s
  rw [Function.update_apply, Function.update_apply]
  split
  · next heq =>
    subst heq
    rw [h.counter s hs]
  · exact h.counter s hs

/-- A symbol other than `EOB` is decoded. -/
lemma decode_symbol {encoder : HuffmanTree} (h : SameTrees n encoder d.huf) {x : ℕ} (hx : x < n) (hne : x ≠ eob)
    {fields : List (ℕ × ℕ)}
    (hbegins : d.stream.Begins (fieldsBits ((encoder.bits x, encoder.code x) :: fields))
      (fieldsValue ((encoder.bits x, encoder.code x) :: fields))) (fuel : ℕ) :
    ∃ d', d.decode eob (fuel + 1) = some (x, d') ∧ SameTrees n (encoder.inc x) d'.huf ∧
      d'.stream.Begins (fieldsBits fields) (fieldsValue fields) := by
  obtain ⟨hlookup, hnext⟩ := lookup h hx hbegins
  refine ⟨⟨(d.stream.needbits d.huf.maxbits).2.dumpbits (d.huf.bits x), d.huf.inc x⟩, ?_, SameTrees.inc h x, hnext⟩
  rw [decode]
  dsimp only
  rw [hlookup, if_pos hne]

/-- **An item is decoded.** In front of a symbol there may be `EOB`, where both trees are rebuilt. -/
theorem exists_get (hok : e.Ok n) (heob : eob < n) (h : SameTrees n e.huf d.huf) {item : ArithItem}
    (hitem : item.Codable n eob) (size : ℕ) {rest : List (ℕ × ℕ)}
    (hbegins : d.stream.Begins (fieldsBits (e.fields eob item ++ rest)) (fieldsValue (e.fields eob item ++ rest)))
    (fuel : ℕ) :
    ∃ d', d.get eob (fuel + 2) item.request = some (item.value, d') ∧ SameTrees n (e.put size eob item).huf d'.huf ∧
      d'.stream.Begins (fieldsBits rest) (fieldsValue rest) := by
  cases item with
  | symbol x =>
    obtain ⟨remainder, -, -, hencode⟩ := hok.current size eob e.stream
    rw [HuffmanEncoder.put, (hencode x).1]
    rw [HuffmanEncoder.fields, HuffmanEncoder.announced] at hbegins
    by_cases hlast : e.remainder - 1 = 0
    · rw [if_pos hlast, List.append_assoc] at hbegins
      obtain ⟨hlookup, hnext⟩ := lookup h heob hbegins
      obtain ⟨hmode, hnext⟩ := hnext.getbits ⟨by decide, by decide⟩
      have hsame := sameTrees_buildTree h.n_encoder h.n_decoder h.counter hok.countersOk 3
      rw [HuffmanEncoder.current, if_pos hlast] at hnext ⊢
      obtain ⟨d', hdecode, hsame', hrest⟩ := decode_symbol
        (d := ⟨(((d.stream.needbits d.huf.maxbits).2.dumpbits (d.huf.bits eob)).getbits 3).2,
          d.huf.buildTree .decoder 3⟩) hsame hitem.1 hitem.2 hnext fuel
      refine ⟨d', ?_, hsame', hrest⟩
      change d.decode eob (fuel + 2) = some (x, d')
      rw [← hdecode, decode]
      dsimp only
      rw [hlookup, if_neg fun hne => hne rfl, hmode]
    · rw [if_neg hlast, HuffmanEncoder.current, if_neg hlast] at hbegins
      rw [HuffmanEncoder.current, if_neg hlast]
      exact decode_symbol h hitem.1 hitem.2 hbegins (fuel + 1)
  | bits k x =>
    obtain ⟨hvalue, hnext⟩ := hbegins.getbits ⟨hitem, Nat.mod_lt _ (Nat.two_pow_pos k)⟩
    refine ⟨{ d with stream := (d.stream.getbits k).2 }, ?_, h, hnext⟩
    change some ((d.stream.getbits k).1, _) = _
    rw [hvalue]
    rfl

/-- All items are decoded. -/
lemma exists_gets (hok : e.Ok n) (heob : eob < n) (h : SameTrees n e.huf d.huf) {items : List ArithItem}
    (hitems : ∀ item ∈ items, item.Codable n eob) {size : ℕ} {rest : List (ℕ × ℕ)}
    (hbegins : d.stream.Begins (fieldsBits (e.runFields size eob items ++ rest))
      (fieldsValue (e.runFields size eob items ++ rest))) (fuel : ℕ) :
    ∃ d', d.gets eob (fuel + 2) (items.map ArithItem.request) = some (items.map ArithItem.value, d') ∧
      SameTrees n (e.puts size eob items).huf d'.huf := by
  induction items generalizing e d with
  | nil => exact ⟨d, rfl, h⟩
  | cons item items ih =>
    have hitem := hitems item List.mem_cons_self
    rw [HuffmanEncoder.runFields, List.append_assoc] at hbegins
    obtain ⟨d₁, hget, hsame, hnext⟩ := exists_get hok heob h hitem size hbegins fuel
    obtain ⟨d', hgets, hsame'⟩ := ih (hok.put size hitem) hsame
      (fun item hmem => hitems item (List.mem_cons_of_mem _ hmem))
      hnext
    refine ⟨d', ?_, hsame'⟩
    rw [List.map_cons, List.map_cons, gets, hget, Option.bind_eq_bind, Option.bind_some]
    dsimp only
    rw [hgets]
    rfl

/-- Both trees are new. -/
lemma sameTrees_new (htwo : 2 ≤ n) (hmax : n ≤ maxhuf) (memory memory' : HuffmanTree) :
    SameTrees n (HuffmanTree.new .encoder n memory) (HuffmanTree.new .decoder n memory') := by
  have hone : ∀ (memory : HuffmanTree), ∀ s < n, (HuffmanTree.fresh n memory).counter s = 1 :=
    fun memory s hs => if_pos hs
  have hn : ∀ memory : HuffmanTree, (HuffmanTree.fresh n memory).n = n := fun _ => rfl
  exact sameTrees_buildTree (hn memory) (hn memory')
    (fun s hs => (hone memory' s hs).trans (hone memory s hs).symm)
    (HuffmanEncoder.countersOk_one htwo hmax (hone memory)) 0

end HuffmanDecoder

/-! ## Whole runs -/

section

variable {size n eob : ℕ} {items : List ArithItem}

/-- **Whenever a tree is built in a run, its code is optimal.** No counter ever becomes 0, and the joins end. The tables of
the encoder hold the code, and the tables of the decoder look it up. -/
theorem huffman_optimal (htwo : 2 ≤ n) (hmax : n ≤ maxhuf) (memory : HuffmanTree)
    (hitems : ∀ item ∈ items, item.Codable n eob) (mode : ℕ) :
    let huf := ((HuffmanEncoder.new n memory).puts size eob items).huf
    (∀ s < n, 0 < huf.counter s) ∧
      (joined (sortedNodes n huf.counter)).Done (sortedNodes n huf.counter) ∧
      OptimalCode n huf.counter (symbolWord n huf.counter) ∧
      (huf.buildTree .encoder mode).Encodes (symbolWord n huf.counter) ∧
      (huf.buildTree .decoder mode).Decodes (symbolWord n huf.counter) := by
  have hok := (HuffmanEncoder.ok_new htwo hmax memory).puts size hitems
  have hcounters := hok.countersOk
  have hn := hok.n_eq
  dsimp only
  refine ⟨hok.pos, hcounters.done, optimalCode_symbolWord hcounters, ?_, ?_⟩
  · have hencodes := HuffmanTree.buildTree_encoder (by rwa [hn]) mode
    rwa [hn] at hencodes
  · have hdecodes := HuffmanTree.buildTree_decoder (by rwa [hn]) mode
    rwa [hn] at hdecodes

/-- A run of two symbols with a field between them. -/
lemma codable_three :
    ∀ item ∈ [ArithItem.symbol 0, .bits 5 7, .symbol 1], item.Codable 3 2 := by
  decide

/-- The tree that would be built after such a run. -/
theorem huffman_optimal_three :
    let huf := ((HuffmanEncoder.new 3 default).puts 8 2 [.symbol 0, .bits 5 7, .symbol 1]).huf
    (∀ s < 3, 0 < huf.counter s) ∧
      (joined (sortedNodes 3 huf.counter)).Done (sortedNodes 3 huf.counter) ∧
      OptimalCode 3 huf.counter (symbolWord 3 huf.counter) ∧
      (huf.buildTree .encoder 3).Encodes (symbolWord 3 huf.counter) ∧
      (huf.buildTree .decoder 3).Decodes (symbolWord 3 huf.counter) :=
  huffman_optimal (by decide) (by decide) default codable_three 3

/-- **What is decoded is what was encoded.** After every item both sides have trees that were built from the same
counters. Behind the bytes of the encoder the decoder reads anything. -/
theorem huffman_gets (hsize : 4 ≤ size) (htwo : 2 ≤ n) (hmax : n ≤ maxhuf) (heob : eob < n)
    (memory memory' : HuffmanTree) (hitems : ∀ item ∈ items, item.Codable n eob) {input : ℕ → UInt8}
    (hinput : ∀ i (hi : i < (huffmanEncoded size n eob memory items).length),
      input i = (huffmanEncoded size n eob memory items)[i]) {front : List ArithItem} (hfront : front <+: items)
    (fuel : ℕ) :
    ∃ d, (HuffmanDecoder.new n memory' input).gets eob (fuel + 2) (front.map ArithItem.request) =
        some (front.map ArithItem.value, d) ∧
      SameTrees n ((HuffmanEncoder.new n memory).puts size eob front).huf d.huf := by
  obtain ⟨rest, rfl⟩ := hfront
  have hok := HuffmanEncoder.ok_new htwo hmax memory
  have hfields := hok.runFields size heob hitems
  have hnew : (HuffmanEncoder.new n memory).stream.Holds size [] := OutputBitStream.holds_new (by omega)
  have hholds := HuffmanEncoder.holds_puts hsize hnew hfields
  rw [List.nil_append] at hholds
  have hbegins := hholds.begins hfields hinput
  rw [HuffmanEncoder.runFields_append] at hbegins
  exact HuffmanDecoder.exists_gets (d := .new n memory' input) hok heob
    (HuffmanDecoder.sameTrees_new htwo hmax memory memory') (fun item hmem => hitems item (List.mem_append_left _ hmem)) hbegins fuel

/-- Such a run is decoded. -/
theorem huffman_gets_three :
    ∃ d, (HuffmanDecoder.new 3 default fun i =>
        (huffmanEncoded 8 3 2 default [.symbol 0, .bits 5 7, .symbol 1]).getD i 0).gets 2 2 [.symbol, .bits 5, .symbol] =
          some ([0, 7, 1], d) ∧
      SameTrees 3 ((HuffmanEncoder.new 3 default).puts 8 2 [.symbol 0, .bits 5 7, .symbol 1]).huf d.huf :=
  huffman_gets (by decide) (by decide) (by decide) (by decide) default default codable_three
    (fun i hi => List.getD_eq_getElem _ _ hi) List.prefix_rfl 0

end

end DArc.Tornado
