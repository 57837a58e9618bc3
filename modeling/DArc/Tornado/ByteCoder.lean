import DArc.Tornado.LZ77Codecs

/-!
# The byte coder

Literals and matches are whole bytes.  Two bits for each of them say which it is; the bits of 16 are gathered in a word,
whose place in front of them is kept and filled when they are complete.

### Outline

* `ByteCoder`, `ByteDecoder`: the coders;
* `packed`: the bytes of some elements, each with its two bits;
* `ByteCoder.Packs`, `ByteDecoder.Begins`: the elements that are put, and those that come next.

### Main results

* `byte_yields`: the decoder returns what the encoder has been told.
-/

namespace DArc.Tornado

/-! ## The coders -/

/-- `LZ77_ByteCoder`, with the bytes that have been put; the anchor is the place of the word, if there is one. -/
structure ByteCoder where
  flags : ℕ
  flagbit : ℕ
  anchor : Option ℕ
  output : List UInt8

namespace ByteCoder

/-- The constructor. -/
def new : ByteCoder := ⟨0, 0, none, []⟩

/-- The word is put to its place. -/
def anchored (s : ByteCoder) : List UInt8 :=
  match s.anchor with
  | none => s.output
  | some place => s.output.take place ++ leBytes 4 s.flags ++ s.output.drop (place + 4)

/-- The next two bits: after 16 elements a place is left for another word. -/
def turn (s : ByteCoder) : ByteCoder :=
  if s.flagbit * 4 % 2 ^ 32 = 0 then ⟨0, 1, some s.anchored.length, s.anchored ++ [0, 0, 0, 0]⟩
  else { s with flagbit := s.flagbit * 4 % 2 ^ 32 }

/-- The bytes of a long match. -/
def longMatch (len dist : ℕ) : List UInt8 :=
  (if 2 ^ 24 ≤ dist then [255, UInt8.ofNat (dist >>> 24)] else []) ++
    if 254 ≤ len then 254 :: leBytes 3 (len >>> 8) ++ leBytes 4 (len % 256 + dist <<< 8)
    else leBytes 4 (len + dist <<< 8)

/-- The bits and the bytes of a literal or a match. -/
def element (minlen : ℕ) (m : Memory) (len : ℕ) (current source : Int) : ℕ × List UInt8 :=
  if len < minlen then (0, [m current])
  else
    let dist := (current - source).toNat
    if len < minlen + 16 ∧ dist < 1 <<< 12 then (1, leBytes 2 ((len - minlen) <<< 12 + dist))
    else if len < minlen + 64 ∧ dist < 1 <<< 18 then (2, leBytes 3 ((len - minlen) <<< 18 + dist))
    else (3, longMatch (len - minlen) dist)

/-- `encode` and `shift_occurs`; tables are not supported. -/
def put (minlen : ℕ) (s : ByteCoder) : Call → ByteCoder
  | .encode m len current source =>
    let s := s.turn
    let (bits, bytes) := element minlen m len current source
    { s with flags := s.flags + s.flagbit * bits, output := s.output ++ bytes }
  | .encodeTable _ _ => s
  | .shiftOccurs => s

/-- `finish`. -/
def finish (s : ByteCoder) : List UInt8 := s.anchored

end ByteCoder

/-- The bytes for some calls. -/
def byteBytes (minlen : ℕ) (calls : List Call) : List UInt8 := (calls.foldl (ByteCoder.put minlen) .new).finish

/-- The next `k` bytes, and those behind them. -/
def getBytes (k : ℕ) (input : ℕ → UInt8) : ℕ × (ℕ → UInt8) := (InputBitStream.peek input k, fun i => input (i + k))

/-- `LZ77_ByteDecoder`, with the bytes that are read next. -/
structure ByteDecoder where
  input : ℕ → UInt8
  flags : ℕ
  flagpos : ℕ

namespace ByteDecoder

/-- The constructor; there are no flags yet. -/
def new (input : ℕ → UInt8) (flags : ℕ) : ByteDecoder := ⟨input, flags, 1⟩

/-- The flags of the next element. -/
def turn (s : ByteDecoder) : ByteDecoder :=
  if s.flagpos - 1 ≠ 0 then { s with flags := s.flags >>> 2, flagpos := s.flagpos - 1 }
  else
    let (flags, input) := getBytes 4 s.input
    ⟨input, flags, 16⟩

/-- The length of a long match, from its first byte on. -/
def longLen (len : ℕ) (input : ℕ → UInt8) : ℕ × (ℕ → UInt8) :=
  if len = 254 then
    let (high, input) := getBytes 3 input
    let (low, input) := getBytes 1 input
    (high <<< 8 + low, input)
  else (len, input)

/-- `getlen` and `getdist` for a long match. -/
def longMatch (minlen : ℕ) (input : ℕ → UInt8) : Found × (ℕ → UInt8) :=
  let (len, input) := getBytes 1 input
  let (dist, len, input) :=
    if len = 255 then
      let (dist, input) := getBytes 1 input
      let (len, input) := getBytes 1 input
      (dist <<< 24, len, input)
    else (0, len, input)
  let (len, input) := longLen len input
  let (low, input) := getBytes 3 input
  (.copy (minlen + len) (dist + low), input)

/-- `getchar`, or `getlen` and `getdist`. -/
def element (minlen bits : ℕ) (input : ℕ → UInt8) : Found × (ℕ → UInt8) :=
  match bits with
  | 0 => (.literal (input 0), fun i => input (i + 1))
  | 1 =>
    let (x, input) := getBytes 2 input
    (.copy (minlen + x >>> 12) (x % 1 <<< 12), input)
  | 2 =>
    let (x, input) := getBytes 3 input
    (.copy (minlen + x >>> 18) (x % 1 <<< 18), input)
  | _ => longMatch minlen input

/-- `is_literal`, and what follows it. -/
def next (minlen : ℕ) (s : ByteDecoder) : Option (Found × ByteDecoder) :=
  let s := s.turn
  let (found, input) := element minlen (s.flags % 4) s.input
  some (found, { s with input })

end ByteDecoder

/-! ## The bytes of elements -/

/-- The word of some elements. -/
def flagsOf : List (ℕ × List UInt8) → ℕ
  | [] => 0
  | e :: es => e.1 + 4 * flagsOf es

/-- The bytes of some elements: in front of each 16 of them there is their word. -/
def packed : List (ℕ × List UInt8) → List UInt8
  | [] => []
  | e :: es => leBytes 4 (flagsOf ((e :: es).take 16)) ++ ((e :: es).take 16).flatMap Prod.snd ++ packed ((e :: es).drop 16)
termination_by es => es.length
decreasing_by
  rw [List.length_drop, List.length_cons]
  omega

variable {es fs : List (ℕ × List UInt8)} {e : ℕ × List UInt8}

/-- Bits of elements. -/
def TwoBits (es : List (ℕ × List UInt8)) : Prop := ∀ e ∈ es, e.1 < 4

/-- One more element. -/
lemma flagsOf_concat (es : List (ℕ × List UInt8)) (e : ℕ × List UInt8) :
    flagsOf (es ++ [e]) = flagsOf es + 4 ^ es.length * e.1 := by
  induction es with
  | nil =>
    change e.1 + 4 * 0 = 0 + 4 ^ 0 * e.1
    omega
  | cons d es ih =>
    rw [List.cons_append, flagsOf, flagsOf, ih, List.length_cons, pow_succ']
    ring

/-- The word of 16 elements has 32 bits. -/
lemma flagsOf_lt (h : TwoBits es) : flagsOf es < 4 ^ es.length := by
  induction es with
  | nil => exact Nat.one_pos
  | cons e es ih =>
    have hrest := ih fun d hd => h d (List.mem_cons_of_mem _ hd)
    have hbits := h e List.mem_cons_self
    rw [flagsOf, List.length_cons, pow_succ']
    omega

/-- At most 16 elements. -/
lemma packed_of_le (h : es ≠ []) (hle : es.length ≤ 16) :
    packed es = leBytes 4 (flagsOf es) ++ es.flatMap Prod.snd := by
  cases es with
  | nil => exact absurd rfl h
  | cons e es => rw [packed, List.take_of_length_le hle, List.drop_of_length_le hle, packed, List.append_nil]

/-- Sixteen elements, and others. -/
lemma packed_append (h : es.length = 16) (fs : List (ℕ × List UInt8)) :
    packed (es ++ fs) = packed es ++ packed fs := by
  have hne : es ≠ [] := fun hnil => by rw [hnil] at h; cases h
  have htake : (es ++ fs).take 16 = es := List.take_left' h
  have hdrop : (es ++ fs).drop 16 = fs := List.drop_left' h
  cases es with
  | nil => exact absurd rfl hne
  | cons e es =>
    rw [packed_of_le hne h.le, List.cons_append, packed, ← List.cons_append, htake, hdrop]

/-- Any number of sixteens, and others. -/
lemma packed_append_of_dvd (h : 16 ∣ es.length) (fs : List (ℕ × List UInt8)) :
    packed (es ++ fs) = packed es ++ packed fs := by
  obtain ⟨k, hk⟩ := h
  induction k generalizing es with
  | zero =>
    obtain rfl := List.length_eq_zero_iff.mp hk
    rw [List.nil_append, packed, List.nil_append]
  | succ k ih =>
    have hfirst : (es.take 16).length = 16 := List.length_take_of_le (by omega)
    have hrest : (es.drop 16).length = 16 * k := by rw [List.length_drop]; omega
    rw [← List.take_append_drop 16 es, List.append_assoc, packed_append hfirst, packed_append hfirst, ih hrest,
      List.append_assoc]

/-! ## What is put -/

namespace ByteCoder

/-- Some elements have been put: complete sixteens with their words, and others behind the place of their word. -/
inductive Packs : ByteCoder → List (ℕ × List UInt8) → Prop
  | empty : Packs .new []
  | words {flags flagbit place : ℕ} {output : List UInt8} {front back : List (ℕ × List UInt8)} (memory : List UInt8)
    (hdvd : 16 ∣ front.length) (hback : 0 < back.length ∧ back.length ≤ 16) (hflags : flags = flagsOf back)
    (hbit : flagbit * 4 = 4 ^ back.length) (hplace : place = (packed front).length) (hmemory : memory.length = 4)
    (houtput : output = packed front ++ memory ++ back.flatMap Prod.snd) :
    Packs ⟨flags, flagbit, some place, output⟩ (front ++ back)

variable {s : ByteCoder}

/-- The words are all in their places in the end. -/
lemma Packs.anchored (h : s.Packs es) : s.anchored = packed es := by
  cases h with
  | empty => rw [packed]; rfl
  | words memory hdvd hback hflags hbit hplace hmemory houtput =>
    subst hplace houtput hflags
    have hne : _ ≠ [] := List.ne_nil_of_length_pos hback.1
    unfold ByteCoder.anchored
    dsimp only
    rw [packed_append_of_dvd hdvd, packed_of_le hne hback.2, List.append_assoc (packed _) memory, List.take_left,
      ← List.append_assoc (packed _) memory, ← hmemory, ← List.length_append, List.drop_left, List.append_assoc]

/-- **An element is put.** -/
theorem Packs.add (h : s.Packs es) (e : ℕ × List UInt8) :
    Packs { s.turn with flags := s.turn.flags + s.turn.flagbit * e.1, output := s.turn.output ++ e.2 } (es ++ [e]) := by
  have hanchored := h.anchored
  -- a word is begun
  have hfresh (hdvd : 16 ∣ es.length) (hturn : s.turn = ⟨0, 1, some s.anchored.length, s.anchored ++ [0, 0, 0, 0]⟩) :
      Packs { s.turn with flags := s.turn.flags + s.turn.flagbit * e.1, output := s.turn.output ++ e.2 } (es ++ [e]) := by
    rw [hturn, hanchored]
    refine @Packs.words _ _ _ _ es [e] [0, 0, 0, 0] hdvd ⟨Nat.one_pos, (by decide : 1 ≤ 16)⟩ ?_ rfl rfl rfl ?_
    · change 0 + 1 * e.1 = e.1 + 4 * 0
      omega
    · rw [List.flatMap_singleton]
  cases h with
  | empty => exact hfresh (dvd_zero 16) rfl
  | @words flags flagbit place output front back memory hdvd hback hflags hbit hplace hmemory houtput =>
    by_cases hfull : back.length = 16
    · refine hfresh (by rw [List.length_append, hfull]; exact dvd_add hdvd (dvd_refl 16)) ?_
      have hzero : flagbit * 4 % 2 ^ 32 = 0 := by rw [hbit, hfull]; rfl
      rw [turn, if_pos hzero]
    · have hlt : flagbit * 4 < 2 ^ 32 := by
        rw [hbit]
        calc 4 ^ back.length ≤ 4 ^ 15 := Nat.pow_le_pow_right (by decide) (by omega)
          _ < 2 ^ 32 := by decide
      have hpos : 0 < flagbit * 4 := hbit ▸ Nat.pow_pos (by decide)
      have hturn : turn ⟨flags, flagbit, some place, output⟩ = ⟨flags, flagbit * 4, some place, output⟩ := by
        rw [turn, Nat.mod_eq_of_lt hlt, if_neg hpos.ne']
      rw [hturn, List.append_assoc]
      refine .words memory hdvd ⟨?_, ?_⟩ ?_ ?_ hplace hmemory ?_
      · rw [List.length_append]
        omega
      · rw [List.length_append, List.length_singleton]
        omega
      · dsimp only
        rw [flagsOf_concat, hflags, hbit]
      · rw [List.length_append, List.length_singleton, pow_succ, hbit]
      · dsimp only
        rw [houtput, List.flatMap_append, List.flatMap_singleton, List.append_assoc]

/-- The elements of a call. -/
def elements (minlen : ℕ) : Call → List (ℕ × List UInt8)
  | .encode m len current source => [element minlen m len current source]
  | _ => []

/-- Calls put their elements. -/
lemma Packs.foldl (h : s.Packs es) (minlen : ℕ) (calls : List Call) :
    (calls.foldl (put minlen) s).Packs (es ++ calls.flatMap (elements minlen)) := by
  induction calls generalizing s es with
  | nil => rwa [List.flatMap_nil, List.append_nil]
  | cons call calls ih =>
    rw [List.flatMap_cons, ← List.append_assoc]
    refine ih ?_
    cases call with
    | encode m len current source => exact h.add _
    | encodeTable type len => exact (List.append_nil es).symm ▸ h
    | shiftOccurs => exact (List.append_nil es).symm ▸ h

end ByteCoder

/-! ## What comes next -/

/-- Some bytes come next. -/
def StartsWith (input : ℕ → UInt8) (bytes : List UInt8) : Prop := ∀ i (hi : i < bytes.length), input i = bytes[i]

/-- The first of the bytes are got. -/
lemma StartsWith.getBytes {input : ℕ → UInt8} {a b : List UInt8} (h : StartsWith input (a ++ b)) :
    (getBytes a.length input).1 = leValue a ∧ StartsWith (getBytes a.length input).2 b := by
  refine ⟨?_, fun i hi => ?_⟩
  · change leValue ((List.range a.length).map input) = leValue a
    congr 1
    refine List.ext_getElem (by rw [List.length_map, List.length_range]) fun i _ hi => ?_
    rw [List.getElem_map, List.getElem_range, h i (by rw [List.length_append]; omega), List.getElem_append_left hi]
  · change input (i + a.length) = b[i]
    rw [h _ (by rw [List.length_append]; omega), List.getElem_append_right (Nat.le_add_left _ _)]
    simp only [Nat.add_sub_cancel]

/-- A number is got. -/
lemma StartsWith.getWord {input : ℕ → UInt8} {k x : ℕ} {b : List UInt8} (h : StartsWith input (leBytes k x ++ b))
    (hx : x < 256 ^ k) :
    Tornado.getBytes k input = (x, (Tornado.getBytes k input).2) ∧ StartsWith (Tornado.getBytes k input).2 b := by
  obtain ⟨hvalue, hrest⟩ := h.getBytes
  rw [length_leBytes] at hvalue hrest
  rw [leValue_leBytes_of_lt hx] at hvalue
  exact ⟨Prod.ext hvalue rfl, hrest⟩

namespace ByteDecoder

variable {minlen : ℕ} {s : ByteDecoder} {input : ℕ → UInt8} {rest : List UInt8}

/-- A length and a distance in one word. -/
lemma leBytes_four {len dist : ℕ} (hlen : len < 256) :
    leBytes 4 (len + dist <<< 8) = leBytes 1 len ++ leBytes 3 dist := by
  have hhigh : (len + dist <<< 8) / 256 = dist := by rw [Nat.shiftLeft_eq]; omega
  have hlow : UInt8.ofNat (len + dist <<< 8) = UInt8.ofNat len := by
    rw [Nat.shiftLeft_eq]
    apply UInt8.toNat_inj.mp
    rw [UInt8.toNat_ofNat', UInt8.toNat_ofNat']
    omega
  rw [leBytes, hhigh, hlow]
  rfl

/-- The length of a long match is read. -/
lemma longLen_spec {len dist : ℕ} (hlen : len < 2 ^ 30)
    (h : StartsWith input ((if 254 ≤ len then 254 :: leBytes 3 (len >>> 8) ++ leBytes 4 (len % 256 + dist <<< 8)
      else leBytes 4 (len + dist <<< 8)) ++ rest)) :
    (getBytes 1 input).1 ≠ 255 ∧ (longLen (getBytes 1 input).1 (getBytes 1 input).2).1 = len ∧
      StartsWith (longLen (getBytes 1 input).1 (getBytes 1 input).2).2 (leBytes 3 dist ++ rest) := by
  by_cases hlong : 254 ≤ len
  · rw [if_pos hlong, leBytes_four (Nat.mod_lt _ (by decide))] at h
    have h₀ : StartsWith input (leBytes 1 254 ++ (leBytes 3 (len >>> 8) ++ (leBytes 1 (len % 256) ++
        (leBytes 3 dist ++ rest)))) := by
      rwa [← List.append_assoc, ← List.append_assoc, ← List.append_assoc]
    obtain ⟨hmark, h₁⟩ := h₀.getWord (by decide)
    obtain ⟨hupper, h₂⟩ := h₁.getWord (by rw [Nat.shiftRight_eq_div_pow]; omega)
    obtain ⟨hlower, h₃⟩ := h₂.getWord (by omega)
    have hjoin : (len >>> 8) <<< 8 + len % 256 = len := by
      rw [Nat.shiftRight_eq_div_pow, Nat.shiftLeft_eq]
      omega
    rw [hmark, longLen]
    dsimp only
    rw [if_pos rfl, hupper]
    dsimp only
    rw [hlower]
    exact ⟨by decide, hjoin, h₃⟩
  · rw [if_neg hlong, leBytes_four (by omega), List.append_assoc] at h
    obtain ⟨hshort, h⟩ := h.getWord (by omega)
    rw [hshort, longLen]
    dsimp only
    rw [if_neg (by omega)]
    exact ⟨by omega, rfl, h⟩

/-- **A long match is read.** -/
theorem longMatch_spec {len dist : ℕ} (hlen : len < 2 ^ 30) (hdist : dist < 2 ^ 30)
    (h : StartsWith input (ByteCoder.longMatch len dist ++ rest)) :
    (longMatch minlen input).1 = .copy (minlen + len) dist ∧ StartsWith (longMatch minlen input).2 rest := by
  rw [ByteCoder.longMatch] at h
  rw [longMatch]
  by_cases hfar : 2 ^ 24 ≤ dist
  · rw [if_pos hfar, List.append_assoc] at h
    change StartsWith input (leBytes 1 255 ++ (leBytes 1 (dist >>> 24) ++ _)) at h
    obtain ⟨hmark, h⟩ := h.getWord (by decide)
    obtain ⟨hhigh, h⟩ := h.getWord (by rw [Nat.shiftRight_eq_div_pow]; omega)
    obtain ⟨-, hvalue, h⟩ := longLen_spec hlen h
    obtain ⟨hlow, hrest⟩ := h.getBytes
    rw [length_leBytes] at hlow hrest
    rw [leValue_leBytes] at hlow
    rw [hmark]
    dsimp only
    rw [if_pos rfl, hhigh]
    dsimp only
    rw [hvalue, hlow]
    refine ⟨?_, hrest⟩
    rw [Nat.shiftRight_eq_div_pow, Nat.shiftLeft_eq]
    congr 1
    omega
  · rw [if_neg hfar, List.nil_append] at h
    obtain ⟨hne, hvalue, h⟩ := longLen_spec hlen h
    obtain ⟨hlow, hrest⟩ := h.getBytes
    rw [length_leBytes] at hlow hrest
    rw [leValue_leBytes_of_lt (by omega)] at hlow
    dsimp only
    rw [if_neg hne]
    dsimp only
    rw [hvalue, hlow, Nat.zero_add]
    exact ⟨rfl, hrest⟩

/-- A length and a distance are taken from their word. -/
lemma word_parts {k l dist : ℕ} (hdist : dist < 1 <<< k) :
    (l <<< k + dist) % 1 <<< k = dist ∧ (l <<< k + dist) >>> k = l := by
  rw [Nat.one_shiftLeft] at hdist
  rw [Nat.shiftLeft_eq, Nat.one_shiftLeft, Nat.shiftRight_eq_div_pow]
  refine ⟨?_, ?_⟩
  · rw [Nat.add_comm, Nat.add_mul_mod_self_right, Nat.mod_eq_of_lt hdist]
  · rw [Nat.add_comm, Nat.add_mul_div_right _ _ (Nat.two_pow_pos k), Nat.div_eq_of_lt hdist, Nat.zero_add]

/-- **An element is read.** -/
theorem element_spec {m : Memory} {len : ℕ} {current source : Int} (hcall : (Call.encode m len current source).Ok minlen)
    (h : StartsWith input ((ByteCoder.element minlen m len current source).2 ++ rest)) :
    (Call.encode m len current source).found minlen =
        [(element minlen (ByteCoder.element minlen m len current source).1 input).1] ∧
      StartsWith (element minlen (ByteCoder.element minlen m len current source).1 input).2 rest := by
  have himpossible : impossibleLen = 1073741823 := rfl
  have himpossible' : impossibleDist = 1073741823 := rfl
  rw [Call.found]
  rw [ByteCoder.element] at h ⊢
  by_cases hlit : len < minlen
  · rw [if_pos hlit] at h ⊢
    rw [if_pos hlit]
    obtain ⟨-, hrest⟩ := StartsWith.getBytes (a := [m current]) h
    refine ⟨?_, hrest⟩
    rw [element, h 0 (Nat.succ_pos _)]
    rfl
  · obtain ⟨hle, hlt, hdist⟩ := hcall (not_lt.mp hlit)
    rw [if_neg hlit] at h ⊢
    rw [if_neg hlit]
    dsimp only at h ⊢
    have hadd : minlen + (len - minlen) = len := by omega
    have hdist' : (current - source).toNat < 2 ^ 30 := by omega
    generalize (current - source).toNat = dist at *
    by_cases hnear : len < minlen + 16 ∧ dist < 1 <<< 12
    · rw [if_pos hnear] at h ⊢
      obtain ⟨hshort, hclose⟩ := hnear
      obtain ⟨hlow, hhigh⟩ := word_parts (l := len - minlen) hclose
      rw [Nat.one_shiftLeft] at hclose
      obtain ⟨hvalue, hrest⟩ := h.getWord (by rw [Nat.shiftLeft_eq]; omega)
      refine ⟨?_, hrest⟩
      rw [element]
      dsimp only
      rw [hvalue, hlow, hhigh, hadd]
    · rw [if_neg hnear] at h ⊢
      by_cases hmiddle : len < minlen + 64 ∧ dist < 1 <<< 18
      · rw [if_pos hmiddle] at h ⊢
        obtain ⟨hshort, hclose⟩ := hmiddle
        obtain ⟨hlow, hhigh⟩ := word_parts (l := len - minlen) hclose
        rw [Nat.one_shiftLeft] at hclose
        obtain ⟨hvalue, hrest⟩ := h.getWord (by rw [Nat.shiftLeft_eq]; omega)
        refine ⟨?_, hrest⟩
        rw [element]
        dsimp only
        rw [hvalue, hlow, hhigh, hadd]
      · rw [if_neg hmiddle] at h ⊢
        obtain ⟨hvalue, hrest⟩ := longMatch_spec (by omega) hdist' h
        refine ⟨?_, hrest⟩
        change [Found.copy len dist] = [(longMatch minlen input).1]
        rw [hvalue, hadd]

/-- The elements that come next: what is left of 16 of them, whose bits are known, and others with their words. -/
structure Begins (s : ByteDecoder) (es : List (ℕ × List UInt8)) : Prop where
  pos : 1 ≤ s.flagpos
  le : s.flagpos ≤ 16
  flags : s.flagpos ≠ 1 → s.flags / 4 = flagsOf (es.take (s.flagpos - 1))
  input : StartsWith s.input ((es.take (s.flagpos - 1)).flatMap Prod.snd ++ packed (es.drop (s.flagpos - 1)))

/-- **The flags of the next element** are known. -/
theorem Begins.turn (h : s.Begins (e :: es)) (hbits : TwoBits (e :: es)) :
    s.turn.flags % 4 = e.1 ∧ s.turn.flags / 4 = flagsOf (es.take (s.turn.flagpos - 1)) ∧
      (1 ≤ s.turn.flagpos ∧ s.turn.flagpos ≤ 16) ∧
      StartsWith s.turn.input (e.2 ++ ((es.take (s.turn.flagpos - 1)).flatMap Prod.snd ++
        packed (es.drop (s.turn.flagpos - 1)))) := by
  obtain ⟨hpos, hle, hflags, hinput⟩ := h
  have hbit := hbits e List.mem_cons_self
  by_cases hnew : s.flagpos = 1
  · rw [hnew, Nat.sub_self, List.take_zero, List.flatMap_nil, List.nil_append, List.drop_zero, packed,
      List.take_succ_cons, List.drop_succ_cons, List.flatMap_cons, List.append_assoc, List.append_assoc] at hinput
    have hword : flagsOf (e :: es.take 15) < 256 ^ 4 := by
      have hlt := flagsOf_lt (fun d hd => by
        rcases List.mem_cons.mp hd with rfl | hd
        · exact hbit
        · exact hbits d (List.mem_cons_of_mem _ (List.mem_of_mem_take hd)) : TwoBits (e :: es.take 15))
      refine hlt.trans_le ((Nat.pow_le_pow_right (by decide) ?_ : _ ≤ 4 ^ 16).trans (by decide))
      rw [List.length_cons, List.length_take]
      omega
    obtain ⟨hvalue, hrest⟩ := hinput.getWord hword
    have hturn : s.turn = ⟨(getBytes 4 s.input).2, flagsOf (e :: es.take 15), 16⟩ := by
      rw [ByteDecoder.turn, hnew, if_neg (by decide), hvalue]
    rw [hturn]
    refine ⟨?_, ?_, ⟨(by decide : 1 ≤ 16), le_rfl⟩, hrest⟩
    · dsimp only [flagsOf]
      omega
    · change (e.1 + 4 * flagsOf (es.take 15)) / 4 = flagsOf (es.take 15)
      omega
  · obtain ⟨k, hk⟩ : ∃ k, s.flagpos = k + 2 := Nat.exists_eq_add_of_le' (by omega)
    have hturn : s.turn = { s with flags := s.flags >>> 2, flagpos := k + 1 } := by
      rw [ByteDecoder.turn, hk, if_pos (by omega)]
      rfl
    have hword := hflags hnew
    rw [hk, show k + 2 - 1 = k + 1 by omega, List.take_succ_cons, flagsOf] at hword
    rw [hk, show k + 2 - 1 = k + 1 by omega, List.take_succ_cons, List.drop_succ_cons, List.flatMap_cons,
      List.append_assoc] at hinput
    rw [hturn]
    dsimp only
    rw [Nat.shiftRight_eq_div_pow, Nat.add_sub_cancel]
    refine ⟨by omega, by omega, by omega, hinput⟩

/-- **A call is decoded.** -/
theorem yields_call {call : Call} (hcall : call.Ok minlen) (hplain : call.Plain)
    (h : s.Begins (ByteCoder.elements minlen call ++ es)) (hbits : TwoBits (ByteCoder.elements minlen call ++ es)) :
    ∃ s', Yields (next minlen) (call.found minlen) s s' ∧ s'.Begins es := by
  cases call with
  | encode m len current source =>
    obtain ⟨hkind, hflags, ⟨hpos, hle⟩, hinput⟩ := h.turn hbits
    obtain ⟨hfound, hrest⟩ := element_spec hcall hinput
    rw [← hkind] at hfound hrest
    rw [hfound]
    exact ⟨{ s.turn with input := (element minlen (s.turn.flags % 4) s.turn.input).2 }, .single rfl,
      ⟨hpos, hle, fun _ => hflags, hrest⟩⟩
  | encodeTable type len => exact hplain.elim
  | shiftOccurs => exact ⟨s, rfl, h⟩

/-- All calls are decoded. -/
lemma yields_calls {calls : List Call} (hcalls : ∀ call ∈ calls, call.Ok minlen) (hplain : ∀ call ∈ calls, call.Plain)
    (h : s.Begins (calls.flatMap (ByteCoder.elements minlen)))
    (hbits : TwoBits (calls.flatMap (ByteCoder.elements minlen))) :
    ∃ s', Yields (next minlen) (calls.flatMap (Call.found minlen)) s s' := by
  induction calls generalizing s with
  | nil => exact ⟨s, rfl⟩
  | cons call calls ih =>
    obtain ⟨t, hyields, hnext⟩ := yields_call (hcalls call List.mem_cons_self) (hplain call List.mem_cons_self) h hbits
    obtain ⟨s', hrest⟩ := ih (fun call hmem => hcalls call (List.mem_cons_of_mem _ hmem))
      (fun call hmem => hplain call (List.mem_cons_of_mem _ hmem)) hnext
      fun e he => hbits e (List.mem_append_right _ he)
    exact ⟨s', hyields.append hrest⟩

end ByteDecoder

/-- The kind of an element takes two bits. -/
lemma twoBits_elements (minlen : ℕ) (calls : List Call) : TwoBits (calls.flatMap (ByteCoder.elements minlen)) := by
  intro e he
  obtain ⟨call, -, hmem⟩ := List.mem_flatMap.mp he
  cases call with
  | encode m len current source =>
    rw [List.mem_singleton.mp hmem, ByteCoder.element]
    split
    · exact (by decide : 0 < 4)
    · dsimp only
      split
      · exact (by decide : 1 < 4)
      · split
        · exact (by decide : 2 < 4)
        · exact (by decide : 3 < 4)
  | encodeTable type len => cases hmem
  | shiftOccurs => cases hmem

/-- **Through the byte coder** all calls are found. -/
theorem byte_yields {minlen : ℕ} {calls : List Call} (hcalls : ∀ call ∈ calls, call.Ok minlen)
    (hplain : ∀ call ∈ calls, call.Plain) {input : ℕ → UInt8}
    (hinput : ∀ i (hi : i < (byteBytes minlen calls).length), input i = (byteBytes minlen calls)[i]) (flags : ℕ) :
    ∃ s, Yields (ByteDecoder.next minlen) (calls.flatMap (Call.found minlen)) (.new input flags) s := by
  have hpacks := ByteCoder.Packs.empty.foldl minlen calls
  have hbytes : byteBytes minlen calls = packed (calls.flatMap (ByteCoder.elements minlen)) := hpacks.anchored
  refine ByteDecoder.yields_calls hcalls hplain ⟨le_rfl, (by decide : 1 ≤ 16), fun hne => absurd rfl hne, ?_⟩
    (twoBits_elements minlen calls)
  change StartsWith input (packed (calls.flatMap (ByteCoder.elements minlen)))
  rw [← hbytes]
  exact hinput

/-- **What is decoded through the byte coder** is what was told, call by call. -/
theorem byte_founds {minlen : ℕ} {calls front : List Call} (hfront : front <+: calls)
    (hcalls : ∀ call ∈ calls, call.Ok minlen) (hplain : ∀ call ∈ calls, call.Plain) {input : ℕ → UInt8}
    (hinput : ∀ i (hi : i < (byteBytes minlen calls).length), input i = (byteBytes minlen calls)[i]) (flags : ℕ) :
    ∃ s, Yields (ByteDecoder.next minlen) (front.flatMap (Call.found minlen)) (.new input flags) s := by
  obtain ⟨back, rfl⟩ := hfront
  obtain ⟨s, hyields⟩ := byte_yields hcalls hplain hinput flags
  rw [List.flatMap_append] at hyields
  obtain ⟨t, hfirst, -⟩ := hyields.of_append
  exact ⟨t, hfirst⟩

/-- A literal and a match are found. -/
theorem byte_founds_two :
    let calls : List Call := [.encode (fun _ => 7) 1 20 10, .encode (fun _ => 0) 300 7000 5]
    ∃ s, Yields (ByteDecoder.next 4) (calls.flatMap (Call.found 4)) (.new (fun i => (byteBytes 4 calls).getD i 0) 0) s :=
  byte_founds (List.prefix_refl _) (by decide) (by simp [Call.Plain]) (fun i hi => List.getD_eq_getElem _ _ hi) 0

end DArc.Tornado
