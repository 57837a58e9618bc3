import Mathlib.Data.List.GetD
import DArc.Tornado.LZ77Coder
import DArc.Tornado.Undiff

/-!
# The decompressor of Tornado

Literals are put to a circular buffer, and matches are copied inside it.  A match that neither begins in front of the
buffer nor comes to the next write is copied by a plain loop.  Other lengths and distances are checked first, and copied
byte by byte with a look at the end of the buffer and at the next write.

Whatever way a match is copied, it puts the bytes of the stream, if the stream repeats there what was as far before as
the match says.

### Outline

* `copyNear`, `copyFar`: the two loops;
* `decompressTurn`, `decompress`: a turn of the loop of `tor_decompress0`, and the loop;
* `Found.Fits`: what is found agrees with a stream;
* `Parse`: all that is found agrees with it.

### Main results

* `decompressTurn_eq_run`: a turn puts the items that are found;
* `decompress_parse`: the whole loop writes the stream with its tables undone.
-/

namespace DArc.Tornado

/-! ## The loop -/

/-- The turns of `do ... while (--len)`. -/
def turnsOf (len : ℕ) : ℕ := if len = 0 then 2 ^ 32 else len

/-- A byte is put to the buffer. -/
def Output.put (s : Output) (c : UInt8) : Output :=
  { s with mem := Function.update s.mem s.output c, output := s.output + 1 }

/-- A simple match is copied. -/
def copyNear : ℕ → Int → Output → Output
  | 0, _, s => s
  | turns + 1, p, s => copyNear turns (p + 1) (s.put (s.mem p))

/-- Another match is copied. -/
def copyFar (bufsize : ℕ) : ℕ → Int → Output → Output
  | 0, _, s => s
  | turns + 1, p, s =>
    let s := s.put (s.mem p)
    let p := if p + 1 = bufsize then 0 else p + 1
    copyFar bufsize turns p (if s.writeEnd ≤ s.output then s.writeData bufsize else s)

/-- How a turn of the loop ends.  The rows of a table may have another size than 2 or 4; the encoder makes no such
table. -/
inductive Turn
  | next (s : Output)
  | finished (code : ErrCode) (s : Output)
  | otherTable (s : Output)

/-- The size of the buffer. -/
def outSize (bufsize : ℕ) : ℕ := max bufsize hugeBufferSize

/-- A turn of the loop of `tor_decompress0`, with what the decoder returns. -/
def decompressTurn (bufsize : ℕ) (s : Output) : Found → Turn
  | .literal c => .next (step (outSize bufsize) s (.byte c))
  | .copy len dist =>
    if (dist : Int) ≤ s.output ∧ (len : Int) < s.writeEnd - s.output then
      .next (copyNear (turnsOf len) (s.output - dist) s)
    else if len < impossibleLen then
      if outSize bufsize < dist ∨ 2 * bufsize % 2 ^ 32 < len ∨ s.output + s.offset < dist then
        .finished .badCompressedData s
      else .next (copyFar (outSize bufsize) (turnsOf len) (matchSource (outSize bufsize) s dist) s)
    else if len = impossibleLen ∧ dist = impossibleDist then .finished .ok (s.writeData (outSize bufsize))
    else
      let type := len - impossibleLen
      if type = 0 ∨ 2 * bufsize % 2 ^ 32 < dist * type % 2 ^ 32 then .finished .badCompressedData s
      else if h : type = 2 ∨ type = 4 then .next (step (outSize bufsize) s (.table type h dist))
      else .otherTable s

/-- The loop of `tor_decompress0`, for some turns at most. -/
def decompressLoop {S : Type} (next : S → Option (Found × S)) (bufsize : ℕ) : ℕ → S → Output → Option Outcome
  | 0, _, _ => none
  | fuel + 1, decoder, s =>
    match next decoder with
    | none => none
    | some (found, decoder) =>
      match decompressTurn bufsize s found with
      | .next s => decompressLoop next bufsize fuel decoder s
      | .finished code s => some ⟨code, s.written⟩
      | .otherTable _ => none

/-- `tor_decompress0`; the memory and the arrays hold any bytes. -/
def decompress {S : Type} (next : S → Option (Found × S)) (bufsize fuel : ℕ) (mem baseData original : Memory)
    (decoder : S) : Option Outcome :=
  decompressLoop next bufsize fuel decoder (start (outSize bufsize) mem baseData original)

/-! ## What is found agrees with a stream -/

/-- The items of what is found at a position of a stream. -/
def Found.items (R : Memory) (pos : Int) : Found → List Item
  | .literal c => [.byte c]
  | .copy len dist =>
    if len < impossibleLen then (R.bytes pos len).map Item.byte
    else if h : len - impossibleLen = 2 ∨ len - impossibleLen = 4 then [.table (len - impossibleLen) h dist] else []

/-- What is found agrees with a stream: a literal is there, a match repeats what was before, and a table is of a kind
that the encoder makes. -/
def Found.Fits (R : Memory) (bufsize : ℕ) (pos : Int) : Found → Prop
  | .literal c => R pos = c
  | .copy len dist =>
    if len < impossibleLen then
      (0 < len ∧ len ≤ 2 * bufsize) ∧ (0 < dist ∧ dist ≤ outSize bufsize) ∧ (dist : Int) ≤ pos ∧
        ∀ i : ℕ, i < len → R (pos + i) = R (pos + i - dist)
    else (len - impossibleLen = 2 ∨ len - impossibleLen = 4) ∧ dist * (len - impossibleLen) ≤ 2 * bufsize

/-- All that is found agrees with a stream, and is some items there. -/
inductive Parse (R : Memory) (bufsize : ℕ) : Int → List Found → List Item → Prop
  | nil (pos : Int) : Parse R bufsize pos [] []
  | cons {pos : Int} {found : Found} {founds : List Found} {items : List Item} (h : found.Fits R bufsize pos)
    (hrest : Parse R bufsize (pos + (bytesOf (found.items R pos)).length) founds items) :
    Parse R bufsize pos (found :: founds) (found.items R pos ++ items)

variable {R : Memory} {T : List Table} {s : Output} {bufsize : ℕ} {pos : Int}

/-- The bytes of bytes. -/
@[simp] lemma bytesOf_map_byte (bytes : List UInt8) : bytesOf (bytes.map Item.byte) = bytes := by
  induction bytes with
  | nil => rfl
  | cons c bytes ih => rw [List.map_cons, bytesOf, ih]

/-- There are no tables among bytes. -/
@[simp] lemma tablesOf_map_byte (pos : Int) (bytes : List UInt8) : tablesOf pos (bytes.map Item.byte) = [] := by
  induction bytes generalizing pos with
  | nil => rfl
  | cons c bytes ih => rw [List.map_cons, tablesOf, ih]

/-- The bytes of items one after the other. -/
lemma bytesOf_append (items items' : List Item) : bytesOf (items ++ items') = bytesOf items ++ bytesOf items' := by
  induction items with
  | nil => rfl
  | cons item items ih => rw [List.cons_append, bytesOf_cons, ih, bytesOf_cons item items, List.append_assoc]

/-- The tables of items one after the other. -/
lemma tablesOf_append (pos : Int) (items items' : List Item) :
    tablesOf pos (items ++ items') = tablesOf pos items ++ tablesOf (pos + (bytesOf items).length) items' := by
  induction items generalizing pos with
  | nil =>
    change tablesOf pos items' = tablesOf (pos + ((0 : ℕ) : Int)) items'
    rw [Nat.cast_zero, add_zero]
  | cons item items ih =>
    rw [List.cons_append, tablesOf_cons, ih, tablesOf_cons pos item items, List.append_assoc, bytesOf_cons item items,
      List.length_append, Nat.cast_add, add_assoc]

/-- **A match finds the byte** that is as far behind as it says. -/
lemma Between.matchSource (h : Between bufsize R T s) {dist : ℕ} (hpos : 0 < dist) (hle : dist ≤ bufsize)
    (hdist : (dist : Int) ≤ s.offset + s.output) :
    s.mem (matchSource bufsize s dist) = R (s.offset + s.output - dist) := by
  obtain ⟨hinv, hlaps, -⟩ := h
  have hout := hlaps.output_le
  have hend := hlaps.writeEnd_le
  unfold Tornado.matchSource
  by_cases hlap : (dist : Int) ≤ s.output
  · rw [if_pos hlap, hinv.buffer _ (by omega) (by omega)]
    congr 1
    omega
  · -- the byte is from the lap before
    rw [if_neg hlap, hlaps.previous _ (by omega) (by omega) (by omega)]
    congr 1
    omega

/-- A byte of the stream is put. -/
lemma Between.byte (h : Between bufsize R T s) (hbufsize : 0 < bufsize) (hT : Apart T) :
    Between bufsize R T (step bufsize s (.byte (R (s.offset + s.output)))) ∧
      (step bufsize s (.byte (R (s.offset + s.output)))).offset +
        (step bufsize s (.byte (R (s.offset + s.output)))).output = s.offset + s.output + 1 := by
  have hstep := h.afterItem hbufsize (.byte (R (s.offset + s.output))) (by rwa [tablesOf, tablesOf, List.append_nil])
    fun i hi => by
      obtain rfl : i = 0 := Nat.lt_one_iff.mp hi
      rw [Nat.cast_zero, add_zero]
      rfl
  rwa [tablesOf, tablesOf, List.append_nil] at hstep

/-- The first byte, and those behind it. -/
lemma bytes_succ (R : Memory) (pos : Int) (len : ℕ) : R.bytes pos (len + 1) = R pos :: R.bytes (pos + 1) len := by
  rw [Nat.add_comm len 1, Memory.bytes_add]
  simp [Memory.bytes]

/-- **A simple match** puts the bytes of the stream. -/
theorem copyNear_eq_run (hbufsize : 0 < bufsize) (hT : Apart T) {len : ℕ} {dist : ℕ} (hpos : 0 < dist)
    (h : Between bufsize R T s) (hdist : (dist : Int) ≤ s.output) (hlen : (len : Int) < s.writeEnd - s.output)
    (hrepeat : ∀ i : ℕ, i < len → R (s.offset + s.output + i) = R (s.offset + s.output + i - dist)) :
    copyNear len (s.output - dist) s = run bufsize s ((R.bytes (s.offset + s.output) len).map Item.byte) := by
  induction len generalizing s with
  | zero => rfl
  | succ len ih =>
    have hend := h.laps.writeEnd_le
    have hsource := h.inv.buffer (s.output - dist) (by omega) (by omega)
    have hfirst := hrepeat 0 (Nat.succ_pos _)
    rw [Nat.cast_zero, add_zero] at hfirst
    obtain ⟨hbetween, hnext⟩ := h.byte hbufsize hT
    have hstep : step bufsize s (.byte (R (s.offset + s.output))) = s.put (R (s.offset + s.output)) := by
      unfold step Output.put
      dsimp only
      rw [if_neg (by push_cast at hlen; omega)]
    have hsource' : s.mem (s.output - dist) = R (s.offset + s.output) := by
      rw [hsource, hfirst]
      congr 1
      omega
    rw [copyNear, hsource', bytes_succ, List.map_cons]
    change copyNear len (s.output - dist + 1) (s.put (R (s.offset + s.output))) =
      run bufsize (step bufsize s (.byte (R (s.offset + s.output)))) _
    rw [hstep] at hbetween hnext ⊢
    have houtput : (s.put (R (s.offset + s.output))).output = s.output + 1 := rfl
    have hwriteEnd : (s.put (R (s.offset + s.output))).writeEnd = s.writeEnd := rfl
    have hrest := ih hbetween (by omega) (by push_cast at hlen; omega) fun i hi => by
      have hi' := hrepeat (i + 1) (Nat.succ_lt_succ hi)
      rw [hnext]
      push_cast at hi'
      rw [show s.offset + s.output + 1 + (i : Int) = s.offset + s.output + (i + 1) by ring]
      exact hi'
    rw [hnext, houtput, show s.output + 1 - (dist : Int) = s.output - dist + 1 by ring] at hrest
    exact hrest

/-- The output pointer after data have been written. -/
lemma output_writeData (bufsize : ℕ) (s : Output) :
    (s.writeData bufsize).output = if (bufsize : Int) ≤ s.output then 0 else s.output := by
  have hkept (t : Output) : (t.setWriteEnd bufsize).output = t.output := by
    unfold Output.setWriteEnd
    split <;> rfl
  unfold Output.writeData
  dsimp only
  rw [hkept, show s.flush.output = s.output from rfl]
  split <;> rfl

/-- The source of a match goes round with the output. -/
lemma matchSource_step (h : Between bufsize R T s) (hinside : 0 ≤ s.output) {dist : ℕ} (hpos : 0 < dist)
    (hle : dist ≤ bufsize) (c : UInt8) :
    matchSource bufsize (step bufsize s (.byte c)) dist =
      if matchSource bufsize s dist + 1 = bufsize then 0 else matchSource bufsize s dist + 1 := by
  have hlt := h.lt
  have hend := h.laps.writeEnd_le
  have houtput : (step bufsize s (.byte c)).output = if s.output + 1 = bufsize then 0 else s.output + 1 := by
    unfold step
    dsimp only
    split
    · rw [output_writeData]
      dsimp only
      split_ifs <;> omega
    · rw [if_neg (by omega)]
  unfold Tornado.matchSource
  rw [houtput]
  split_ifs <;> omega

/-- **Another match** puts the bytes of the stream, too. -/
theorem copyFar_eq_run (hbufsize : 0 < bufsize) (hT : Apart T) {len dist : ℕ} (hpos : 0 < dist) (hle : dist ≤ bufsize)
    (h : Between bufsize R T s) (hdist : (dist : Int) ≤ s.offset + s.output)
    (hrepeat : ∀ i : ℕ, i < len → R (s.offset + s.output + i) = R (s.offset + s.output + i - dist)) :
    copyFar bufsize len (matchSource bufsize s dist) s =
      run bufsize s ((R.bytes (s.offset + s.output) len).map Item.byte) := by
  induction len generalizing s with
  | zero => rfl
  | succ len ih =>
    have hinside := h.inv.writeStart_nonneg.trans h.inv.writeStart_le
    have hfirst := hrepeat 0 (Nat.succ_pos _)
    rw [Nat.cast_zero, add_zero] at hfirst
    have hsource : s.mem (matchSource bufsize s dist) = R (s.offset + s.output) :=
      (h.matchSource hpos hle hdist).trans hfirst.symm
    obtain ⟨hbetween, hnext⟩ := h.byte hbufsize hT
    rw [copyFar, hsource, bytes_succ, List.map_cons]
    change copyFar bufsize len (if matchSource bufsize s dist + 1 = bufsize then 0 else matchSource bufsize s dist + 1)
      (step bufsize s (.byte (R (s.offset + s.output)))) = run bufsize (step bufsize s (.byte _)) _
    rw [← matchSource_step h hinside hpos hle]
    have hrest := ih hbetween (by omega) fun i hi => by
      have hi' := hrepeat (i + 1) (Nat.succ_lt_succ hi)
      rw [hnext]
      push_cast at hi'
      rw [show s.offset + s.output + 1 + (i : Int) = s.offset + s.output + (i + 1) by ring]
      exact hi'
    rwa [hnext] at hrest

/-- The next write is not far. -/
def Output.Near (s : Output) : Prop := s.writeEnd ≤ s.writeStart + hugeBufferSize

/-- The next write is not far at first. -/
lemma near_start (bufsize : ℕ) (mem baseData original : Memory) :
    (start (outSize bufsize) mem baseData original).Near := by
  change min ((outSize bufsize : ℕ) : Int) hugeBufferSize ≤ 0 + (hugeBufferSize : Int)
  omega

/-- The next write is not far behind a write. -/
lemma Output.Near.writeData (h : s.Near) (hwrite : s.writeStart ≤ s.output) : (s.writeData bufsize).Near := by
  have hkept {t : Output} (ht : t.Near) : (t.setWriteEnd bufsize).Near := by
    unfold Output.setWriteEnd
    split
    · change t.writeStart + min ((bufsize : Int) - t.writeStart) hugeBufferSize ≤ t.writeStart + hugeBufferSize
      omega
    · exact ht
  have hflush : s.flush.Near := by
    change s.writeEnd ≤ s.output + hugeBufferSize
    exact h.trans (by omega)
  unfold Output.writeData
  refine hkept ?_
  split
  · change s.flush.writeEnd - s.flush.output ≤ s.flush.writeStart - s.flush.output + hugeBufferSize
    exact (by have := hflush; unfold Near at this; omega)
  · exact hflush

/-- No length of a match that is impossible fits in front of the next write. -/
lemma Output.Near.window (hnear : s.Near) (h : Between bufsize R T s) : s.writeEnd - s.output ≤ impossibleLen := by
  have hwrite := h.inv.writeStart_le
  have hhuge : (hugeBufferSize : Int) ≤ impossibleLen := by decide
  unfold Near at hnear
  omega

/-- The next write is not far in any run. -/
lemma Between.near_run (h : Between bufsize R T s) (hbufsize : 0 < bufsize) (hnear : s.Near) (items : List Item)
    (hT : Apart (T ++ tablesOf (s.offset + s.output) items))
    (hR : ∀ i < (bytesOf items).length, R (s.offset + s.output + i) = (bytesOf items).getD i 0) :
    (run bufsize s items).Near := by
  induction items generalizing s T with
  | nil => exact hnear
  | cons item items ih =>
    rw [tablesOf_cons _ item items, ← List.append_assoc] at hT
    rw [bytesOf_cons item items] at hR
    have hwrite := h.inv.writeStart_le
    have hstep : (step bufsize s item).Near := by
      cases item with
      | byte c =>
        unfold step
        dsimp only
        split
        · exact Output.Near.writeData hnear (by dsimp only; omega)
        · exact hnear
      | table type type_eq rows =>
        unfold step
        dsimp only
        split
        · exact Output.Near.writeData hnear hwrite
        · exact hnear
      | eof => exact Output.Near.writeData hnear hwrite
    obtain ⟨hfront, hback⟩ := spells_append hR
    obtain ⟨hbetween, hpos⟩ := h.afterItem hbufsize item (List.pairwise_append.mp hT).1 hfront
    exact ih hbetween hstep (by rwa [hpos]) (by rwa [hpos])

/-- The buffer is not empty. -/
lemma outSize_pos (bufsize : ℕ) : 0 < outSize bufsize := lt_max_of_lt_right (by decide)

/-- **A turn of the loop** puts the items that are found. -/
theorem decompressTurn_eq_run (hT : Apart T) (hbufsize : bufsize < 2 ^ 31) (h : Between (outSize bufsize) R T s)
    (hclose : s.Near) {found : Found} (hfits : found.Fits R bufsize (s.offset + s.output)) :
    decompressTurn bufsize s found = .next (run (outSize bufsize) s (found.items R (s.offset + s.output))) := by
  have hwrite := h.inv.writeStart_le
  have himpossible : impossibleLen = 1073741823 := rfl
  have hwindow := hclose.window h
  cases found with
  | literal c => rfl
  | copy len dist =>
    rw [Found.Fits] at hfits
    rw [decompressTurn, Found.items]
    by_cases hlen : len < impossibleLen
    · rw [if_pos hlen] at hfits
      obtain ⟨⟨hpos, hlong⟩, ⟨hdist, hfar⟩, hbefore, hrepeat⟩ := hfits
      have hturns : turnsOf len = len := if_neg hpos.ne'
      rw [hturns]
      by_cases hnear : (dist : Int) ≤ s.output ∧ (len : Int) < s.writeEnd - s.output
      · rw [if_pos hnear, if_pos hlen, copyNear_eq_run (outSize_pos _) hT hdist h hnear.1 hnear.2 hrepeat]
      · rw [if_neg hnear, if_pos hlen, if_pos hlen, if_neg (by omega),
          copyFar_eq_run (outSize_pos _) hT hdist hfar h hbefore hrepeat]
    · rw [if_neg hlen] at hfits
      obtain ⟨htype, hrows⟩ := hfits
      have hfar : ¬((dist : Int) ≤ s.output ∧ (len : Int) < s.writeEnd - s.output) := by omega
      have hmod : dist * (len - impossibleLen) % 2 ^ 32 ≤ dist * (len - impossibleLen) := Nat.mod_le _ _
      rw [if_neg hlen, if_neg hfar, if_neg hlen, if_neg (by omega)]
      dsimp only
      rw [if_neg (by omega), dif_pos htype, dif_pos htype]
      rfl

/-- **The loop** goes through all that is found, up to the end of the stream. -/
theorem decompressLoop_parse {S : Type} {next : S → Option (Found × S)} (hbufsize : bufsize < 2 ^ 31)
    {founds : List Found} {items : List Item} {decoder decoder' : S}
    (hyields : Yields next (founds ++ [.copy impossibleLen impossibleDist]) decoder decoder')
    (h : Between (outSize bufsize) R T s) (hclose : s.Near)
    (hparse : Parse R bufsize (s.offset + s.output) founds items)
    (hT : Apart (T ++ tablesOf (s.offset + s.output) items))
    (hR : ∀ i < (bytesOf items).length, R (s.offset + s.output + i) = (bytesOf items).getD i 0) {fuel : ℕ}
    (hfuel : founds.length < fuel) :
    decompressLoop next bufsize fuel decoder s =
      some ⟨.ok, (undiffed (T ++ tablesOf (s.offset + s.output) items) R).bytes 0
        (s.offset + s.output + (bytesOf items).length).toNat⟩ := by
  induction founds generalizing decoder s T items fuel with
  | nil =>
    obtain ⟨u, hnext, -⟩ := hyields
    cases hparse
    rw [tablesOf, List.append_nil] at hT ⊢
    obtain ⟨fuel, rfl⟩ := Nat.exists_eq_add_of_lt hfuel
    have hwindow := hclose.window h
    have hturn : decompressTurn bufsize s (.copy impossibleLen impossibleDist) =
        .finished .ok (s.writeData (outSize bufsize)) := by
      rw [decompressTurn, if_neg (by omega), if_neg (lt_irrefl _), if_pos ⟨rfl, rfl⟩]
    rw [decompressLoop, hnext]
    dsimp only
    rw [hturn]
    dsimp only
    rw [(h.inv.writeData h.laps hT (outSize_pos _)).2.2]
    rw [bytesOf, List.length_nil, Nat.cast_zero, add_zero]
  | cons found founds ih =>
    obtain ⟨u, hnext, hrest⟩ := hyields
    cases hparse with
    | @cons _ _ _ items hfits hparse =>
      rw [tablesOf_append, ← List.append_assoc] at hT ⊢
      rw [bytesOf_append] at hR ⊢
      have hfirst := (List.pairwise_append.mp hT).1
      obtain ⟨fuel, rfl⟩ := Nat.exists_eq_add_of_lt hfuel
      obtain ⟨hfront, hback⟩ := spells_append hR
      obtain ⟨hbetween, hpos⟩ := h.afterItems (outSize_pos _) (found.items R (s.offset + s.output)) hfirst hfront
      have hloop := ih hrest hbetween (h.near_run (outSize_pos _) hclose _ hfirst hfront) (by rwa [hpos])
        (by rwa [hpos]) (by rwa [hpos]) (by omega : founds.length < founds.length + 1 + fuel)
      rw [List.length_cons, decompressLoop, hnext]
      dsimp only
      rw [decompressTurn_eq_run (List.pairwise_append.mp hfirst).1 hbufsize h hclose hfits]
      dsimp only
      rw [hloop, hpos, List.length_append, Nat.cast_add, ← add_assoc]

/-- **The decompressor** writes the stream with all tables undone, when what its decoder finds agrees with the
stream. -/
theorem decompress_parse {S : Type} {next : S → Option (Found × S)} (hbufsize : bufsize < 2 ^ 31)
    {founds : List Found} {items : List Item} {decoder decoder' : S}
    (hyields : Yields next (founds ++ [.copy impossibleLen impossibleDist]) decoder decoder')
    (hparse : Parse R bufsize 0 founds items) (hT : Apart (tablesOf 0 items))
    (hR : ∀ i < (bytesOf items).length, R i = (bytesOf items).getD i 0) {fuel : ℕ} (hfuel : founds.length < fuel)
    (mem baseData original : Memory) :
    decompress next bufsize fuel mem baseData original decoder =
      some ⟨.ok, (undiffed (tablesOf 0 items) R).bytes 0 (bytesOf items).length⟩ := by
  have hzero : (start (outSize bufsize) mem baseData original).offset +
      (start (outSize bufsize) mem baseData original).output = 0 := rfl
  have hloop := decompressLoop_parse hbufsize hyields (between_start (outSize_pos bufsize) mem baseData original)
    (near_start bufsize mem baseData original) (by rwa [hzero]) (by rwa [hzero])
    (by simpa only [hzero, zero_add] using hR) hfuel
  rw [hzero, List.nil_append, zero_add, Int.toNat_natCast] at hloop
  exact hloop

end DArc.Tornado
