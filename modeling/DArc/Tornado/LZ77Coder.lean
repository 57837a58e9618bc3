import DArc.Library.Runs
import DArc.Library.RunningSums
import DArc.Tornado.HuffmanCoder
import DArc.Tornado.LengthCodes

/-!
# The coder of literals and matches

Literals and matches are put to an entropy coder: a match as a symbol for the codes of its length and its distance, and
the bits of both.  The last four distances have codes of their own, and so has a character that stands at the last
distance.  Data tables are coded as matches of certain lengths.

The encoder forgets the last distance after a table, and when its buffer is shifted, while the decoder does not.  What it
still knows, the decoder knows as well.

### Outline

* `Call`, `Found`: what the encoder is told, and what the decoder returns;
* `PrevDists`, `LZ77Coder`, `LZ77Decoder`: the coders, over any entropy coder;
* `Supply`: what is asked of an entropy decoder;
* `SamePrev`: the decoder knows the distances that the encoder knows.

### Main results

* `LZ77Decoder.yields_call`, `LZ77Decoder.yields_calls`: the decoder returns what the encoder has been told.
-/

namespace DArc.Tornado

/-- `IMPOSSIBLE_LEN`. -/
def impossibleLen : ℕ := 2147483647 / 2

/-- `IMPOSSIBLE_DIST`. -/
def impossibleDist : ℕ := 2147483647 / 2

/-- The calls of a coder: `encode`, with the memory that the pointers point into, `encode_table`, and
`shift_occurs`. -/
inductive Call
  | encode (m : Memory) (len : ℕ) (current source : Int)
  | encodeTable (type len : ℕ)
  | shiftOccurs

/-- What a decoder returns: a literal, or the length and the distance of a match. -/
inductive Found
  | literal (c : UInt8)
  | copy (len dist : ℕ)
deriving DecidableEq

/-- `REPDIST_CODES`. -/
def repdistCodes : ℕ := 4

/-- `DIST_CODES`. -/
def distCodes : ℕ := extraDbits.length + repdistCodes

/-- `LEN_CODES`. -/
def lenCodes : ℕ := extraLbits2.length

/-- `EOB_CODE`. -/
def eobCode : ℕ := 256 + lenCodes * distCodes

/-- `REPCHAR`. -/
def repchar : ℕ := eobCode + 1

/-- `CODES`. -/
def codes : ℕ := eobCode + 10

/-! ## The encoder -/

/-- The last distances, less 1. -/
structure PrevDists where
  prevdist0 : Int
  prevdist1 : Int
  prevdist2 : Int
  prevdist3 : Int

namespace PrevDists

/-- No distance is known. -/
def new : PrevDists := ⟨-1, -1, -1, -1⟩

/-- The code of a distance, with its number of bits and its first value. -/
def distCode (prev : PrevDists) (dist : ℕ) : (ℕ × ℕ × ℕ) × PrevDists :=
  if (dist : Int) = prev.prevdist0 then ((0, 0, 0), { prev with prevdist0 := dist })
  else if (dist : Int) = prev.prevdist1 then
    ((1, 0, 0), { prev with prevdist0 := dist, prevdist1 := prev.prevdist0 })
  else if (dist : Int) = prev.prevdist2 then
    ((2, 0, 0), { prev with prevdist0 := dist, prevdist1 := prev.prevdist0, prevdist2 := prev.prevdist1 })
  else if (dist : Int) = prev.prevdist3 then ((3, 0, 0), ⟨dist, prev.prevdist0, prev.prevdist1, prev.prevdist2⟩)
  else
    let dcode := DistanceCoder.code dc dist
    ((dcode + repdistCodes, dc.extraBits dcode, dc.baseValue dcode),
      ⟨dist, prev.prevdist0, prev.prevdist1, prev.prevdist2⟩)

/-- The lengths from 101 to 104 are those of tables. -/
def tableLen (len : ℕ) : ℕ :=
  if 100 < len then
    if impossibleLen < len then if len ≤ impossibleLen + 4 then len - (impossibleLen - 100) else len
    else len + 4
  else len

/-- `encode_match`: what is put to the entropy coder, and the last distances then. -/
def encodeMatch (prev : PrevDists) (len dist : ℕ) : List ArithItem × PrevDists :=
  let ((dcode, dbits, dbase), prev) := prev.distCode dist
  let prev := if impossibleLen < len then { prev with prevdist0 := -1 } else prev
  let len := tableLen len
  let lcode := LengthCoder.code extraLbits2 len
  ([.symbol (256 + dcode * extraLbits2.length + lcode), .bits (lc2.extraBits lcode) (len - lc2.baseValue lcode),
    .bits dbits (dist - dbase)], prev)

/-- What is put for a match. -/
lemma encodeMatch_fst (prev : PrevDists) (len dist : ℕ) : (prev.encodeMatch len dist).1 =
    [.symbol (256 + (prev.distCode dist).1.1 * extraLbits2.length + LengthCoder.code extraLbits2 (tableLen len)),
      .bits (lc2.extraBits (LengthCoder.code extraLbits2 (tableLen len)))
        (tableLen len - lc2.baseValue (LengthCoder.code extraLbits2 (tableLen len))),
      .bits (prev.distCode dist).1.2.1 (dist - (prev.distCode dist).1.2.2)] := rfl

/-- The character is that at the last distance. -/
def Repchar (prev : PrevDists) (m : Memory) (current : Int) : Prop :=
  m current = m (current - prev.prevdist0 - 1) ∧ 0 ≤ prev.prevdist0

instance (prev : PrevDists) (m : Memory) (current : Int) : Decidable (prev.Repchar m current) :=
  inferInstanceAs (Decidable (_ ∧ _))

/-- `encode`, `encode_table` and `shift_occurs`. -/
def put (minlen : ℕ) (prev : PrevDists) : Call → List ArithItem × PrevDists
  | .encode m len current source =>
    if len < minlen then
      if prev.Repchar m current then ([.symbol repchar], prev) else ([.symbol (m current).toNat], prev)
    else prev.encodeMatch (len - minlen) (current - source - 1).toNat
  | .encodeTable type len => prev.encodeMatch (impossibleLen + type) (len - 1)
  | .shiftOccurs => ([], { prev with prevdist0 := -1 })

/-- What some calls put to the entropy coder. -/
def items (minlen : ℕ) : PrevDists → List Call → List ArithItem
  | _, [] => []
  | prev, call :: calls => (prev.put minlen call).1 ++ items minlen (prev.put minlen call).2 calls

/-- The last distances after some calls. -/
def after (minlen : ℕ) (prev : PrevDists) (calls : List Call) : PrevDists :=
  calls.foldl (fun prev call => (prev.put minlen call).2) prev

/-- What calls one after the other put. -/
lemma items_append (minlen : ℕ) (prev : PrevDists) (calls calls' : List Call) :
    prev.items minlen (calls ++ calls') = prev.items minlen calls ++ (prev.after minlen calls).items minlen calls' := by
  induction calls generalizing prev with
  | nil => rfl
  | cons call calls ih =>
    rw [List.cons_append, items, items, ih, List.append_assoc]
    rfl

end PrevDists

/-- `LZ77_Coder`. -/
structure LZ77Coder (C : Type) where
  coder : C
  prev : PrevDists

namespace LZ77Coder

variable {C : Type} (putItem : C → ArithItem → C)

/-- A call. -/
def put (minlen : ℕ) (s : LZ77Coder C) (call : Call) : LZ77Coder C :=
  let (items, prev) := s.prev.put minlen call
  ⟨items.foldl putItem s.coder, prev⟩

/-- Some calls put their items. -/
lemma coder_foldl (minlen : ℕ) (s : LZ77Coder C) (calls : List Call) :
    (calls.foldl (put putItem minlen) s).coder = (s.prev.items minlen calls).foldl putItem s.coder := by
  induction calls generalizing s with
  | nil => rfl
  | cons call calls ih =>
    rw [List.foldl_cons, ih, PrevDists.items, List.foldl_append]
    rfl

end LZ77Coder

/-! ## The decoder -/

/-- `LZ77_Decoder`. -/
structure LZ77Decoder (D : Type) where
  decoder : D
  prevdists : ℕ → ℕ
  prevdist : ℕ

namespace LZ77Decoder

variable {D : Type} (get : D → Request → Option (ℕ × D))

/-- The constructor. -/
def new (decoder : D) (memory : ℕ → ℕ) : LZ77Decoder D where
  decoder
  prevdists := fun i => if i < repdistCodes then 0 else memory i
  prevdist := repdistCodes

/-- The length that is returned for a length read. -/
def foundLen (minlen len : ℕ) : ℕ :=
  if 100 < len then if len ≤ 104 then len - 100 + impossibleLen else len - 4 + minlen else len + minlen

/-- `getlen`. -/
def getlen (x minlen : ℕ) (s : LZ77Decoder D) : Option (ℕ × LZ77Decoder D) :=
  if x = repchar then some (1, s)
  else do
    let lcode := x % extraLbits2.length
    let (bits, decoder) ← get s.decoder (.bits (lc2.extraBits lcode))
    return (foundLen minlen (lc2.baseValue lcode + bits), { s with decoder })

/-- The cases of `getdist` for a distance that is repeated. -/
def repeatDist (dcode : ℕ) (s : LZ77Decoder D) : ℕ × LZ77Decoder D :=
  let p := s.prevdists
  let q := s.prevdist
  match dcode with
  | 0 => (p (q - 1), s)
  | 1 => (p (q - 2), { s with
      prevdists := Function.update (Function.update p (q - 2) (p (q - 1))) (q - 1) (p (q - 2)) })
  | 2 => (p (q - 3), { s with
      prevdists := Function.update (Function.update (Function.update p (q - 3) (p (q - 2))) (q - 2) (p (q - 1)))
        (q - 1) (p (q - 3)) })
  | _ => (p (q - 4), { s with
      prevdists := Function.update (Function.update (Function.update (Function.update p (q - 4) (p (q - 3)))
        (q - 3) (p (q - 2))) (q - 2) (p (q - 1))) (q - 1) (p (q - 4)) })

/-- The end of `getdist`: the last distances are moved to the front when the array is full. -/
def remember (dist : ℕ) (s : LZ77Decoder D) : LZ77Decoder D :=
  let (p, q) := if s.prevdist = 128 then
    (fun i => if i < repdistCodes - 1 then s.prevdists (128 - (repdistCodes - 1) + i) else s.prevdists i,
      repdistCodes - 1) else (s.prevdists, s.prevdist)
  { s with prevdists := Function.update p q dist, prevdist := q + 1 }

/-- `getdist`. -/
def getdist (x : ℕ) (s : LZ77Decoder D) : Option (ℕ × LZ77Decoder D) :=
  if x = repchar then some (s.prevdists (s.prevdist - 1), s)
  else
    let dcode := (x - 256) / extraLbits2.length
    if dcode < repdistCodes then some (s.repeatDist dcode)
    else do
      let dcode := dcode - repdistCodes
      let (bits, decoder) ← get s.decoder (.bits (dc.extraBits dcode))
      let dist := dc.baseValue dcode + bits + 1
      return (dist, remember dist { s with decoder })

/-- `is_literal`, and `getchar`, or `getlen` and `getdist`. -/
def next (minlen : ℕ) (s : LZ77Decoder D) : Option (Found × LZ77Decoder D) := do
  let (x, decoder) ← get s.decoder .symbol
  let s := { s with decoder }
  if x < 256 then return (.literal (UInt8.ofNat x), s)
  else
    let (len, s) ← s.getlen get x minlen
    let (dist, s) ← s.getdist get x
    return (.copy len dist, s)

end LZ77Decoder

/-! ## What is decoded -/

/-- A call that can be coded: a match has a distance, tables are of the types 1 to 4. -/
def Call.Ok (minlen : ℕ) : Call → Prop
  | .encode _ len current source =>
    minlen ≤ len → len ≤ impossibleLen ∧ source < current ∧ current - source ≤ impossibleDist
  | .encodeTable type len => (1 ≤ type ∧ type ≤ 4) ∧ 1 ≤ len ∧ len ≤ impossibleDist
  | .shiftOccurs => True

instance (minlen : ℕ) (call : Call) : Decidable (call.Ok minlen) := by
  cases call <;> unfold Call.Ok <;> infer_instance

/-- What the decoder finds for a call. -/
def PrevDists.found (minlen : ℕ) (prev : PrevDists) : Call → List Found
  | .encode m len current source =>
    if len < minlen then
      if prev.Repchar m current then [.copy 1 (prev.prevdist0 + 1).toNat] else [.literal (m current)]
    else [.copy len (current - source).toNat]
  | .encodeTable type len => [.copy (impossibleLen + type) len]
  | .shiftOccurs => []

/-- What the decoder finds for some calls. -/
def PrevDists.founds (minlen : ℕ) : PrevDists → List Call → List Found
  | _, [] => []
  | prev, call :: calls => prev.found minlen call ++ founds minlen (prev.put minlen call).2 calls

/-- A decoder supplies the items that a state is about to deliver.  It is the same whether no bits are read or not. -/
structure Supply {D : Type} (get : D → Request → Option (ℕ × D)) (P : D → List ArithItem → Prop) : Prop where
  step : ∀ {d item items}, P d (item :: items) → ∃ d', get d item.request = some (item.value, d') ∧ P d' items
  skip : ∀ {d x items}, P d (.bits 0 x :: items) → P d items

/-- The decoder knows a distance if the encoder knows it. -/
def SameDist (x : Int) (dist : ℕ) : Prop := x ≠ -1 → (dist : Int) = x + 1

/-- The decoder knows the distances that the encoder knows. -/
structure SamePrev {D : Type} (prev : PrevDists) (s : LZ77Decoder D) : Prop where
  le : repdistCodes ≤ s.prevdist
  le_end : s.prevdist ≤ 128
  dist0 : SameDist prev.prevdist0 (s.prevdists (s.prevdist - 1))
  dist1 : SameDist prev.prevdist1 (s.prevdists (s.prevdist - 2))
  dist2 : SameDist prev.prevdist2 (s.prevdists (s.prevdist - 3))
  dist3 : SameDist prev.prevdist3 (s.prevdists (s.prevdist - 4))

/-- The code of a distance is that of a distance remembered, or that of its interval. -/
lemma PrevDists.distCode_cases (prev : PrevDists) (dist : ℕ) :
    ((dist : Int) = prev.prevdist0 ∧ prev.distCode dist = ((0, 0, 0), { prev with prevdist0 := dist })) ∨
    ((dist : Int) = prev.prevdist1 ∧
      prev.distCode dist = ((1, 0, 0), { prev with prevdist0 := dist, prevdist1 := prev.prevdist0 })) ∨
    ((dist : Int) = prev.prevdist2 ∧ prev.distCode dist =
      ((2, 0, 0), { prev with prevdist0 := dist, prevdist1 := prev.prevdist0, prevdist2 := prev.prevdist1 })) ∨
    ((dist : Int) = prev.prevdist3 ∧
      prev.distCode dist = ((3, 0, 0), ⟨dist, prev.prevdist0, prev.prevdist1, prev.prevdist2⟩)) ∨
    prev.distCode dist =
      ((DistanceCoder.code dc dist + repdistCodes, dc.extraBits (DistanceCoder.code dc dist),
        dc.baseValue (DistanceCoder.code dc dist)), ⟨dist, prev.prevdist0, prev.prevdist1, prev.prevdist2⟩) := by
  rw [PrevDists.distCode]
  by_cases h₀ : (dist : Int) = prev.prevdist0
  · exact .inl ⟨h₀, if_pos h₀⟩
  rw [if_neg h₀]
  by_cases h₁ : (dist : Int) = prev.prevdist1
  · exact .inr (.inl ⟨h₁, if_pos h₁⟩)
  rw [if_neg h₁]
  by_cases h₂ : (dist : Int) = prev.prevdist2
  · exact .inr (.inr (.inl ⟨h₂, if_pos h₂⟩))
  rw [if_neg h₂]
  by_cases h₃ : (dist : Int) = prev.prevdist3
  · exact .inr (.inr (.inr (.inl ⟨h₃, if_pos h₃⟩)))
  · exact .inr (.inr (.inr (.inr (if_neg h₃))))

namespace SamePrev

variable {D : Type} {prev : PrevDists} {s : LZ77Decoder D}

/-- No distance is known at the beginning. -/
lemma new (decoder : D) (memory : ℕ → ℕ) : SamePrev .new (LZ77Decoder.new decoder memory) :=
  ⟨le_rfl, (by decide : repdistCodes ≤ 128), fun h => absurd rfl h, fun h => absurd rfl h, fun h => absurd rfl h,
    fun h => absurd rfl h⟩

/-- The last distances do not depend on the entropy decoder. -/
lemma decoder (h : SamePrev prev s) (decoder : D) : SamePrev prev { s with decoder } :=
  ⟨h.le, h.le_end, h.dist0, h.dist1, h.dist2, h.dist3⟩

/-- The encoder forgets the last distance. -/
lemma forget (h : SamePrev prev s) : SamePrev { prev with prevdist0 := -1 } s :=
  ⟨h.le, h.le_end, fun hne => absurd rfl hne, h.dist1, h.dist2, h.dist3⟩

/-- **A repeated distance** is known to the decoder, and both sides move it to the front. -/
theorem repeated (h : SamePrev prev s) {dist : ℕ} (hdist : (prev.distCode dist).1.1 < repdistCodes) :
    (prev.distCode dist).1.2.1 = 0 ∧ (s.repeatDist (prev.distCode dist).1.1).1 = dist + 1 ∧
      SamePrev (prev.distCode dist).2 (s.repeatDist (prev.distCode dist).1.1).2 ∧
      (s.repeatDist (prev.distCode dist).1.1).2.decoder = s.decoder := by
  obtain ⟨hle, hend, h₀, h₁, h₂, h₃⟩ := h
  have hfour : repdistCodes = 4 := rfl
  have hsame : SameDist dist (dist + 1) := fun _ => by push_cast; rfl
  have hknown {x : Int} {y : ℕ} (hxy : SameDist x y) (hx : (dist : Int) = x) : y = dist + 1 := by
    have hy := hxy (by omega)
    omega
  rcases prev.distCode_cases dist with ⟨heq, hcode⟩ | ⟨heq, hcode⟩ | ⟨heq, hcode⟩ | ⟨heq, hcode⟩ | hcode <;>
    rw [hcode] at hdist ⊢
  · have hvalue := hknown h₀ heq
    exact ⟨rfl, hvalue, ⟨hle, hend, hvalue ▸ hsame, h₁, h₂, h₃⟩, rfl⟩
  · have hvalue := hknown h₁ heq
    refine ⟨rfl, hvalue, ⟨hle, hend, ?_, ?_, ?_, ?_⟩, rfl⟩ <;>
      dsimp only [LZ77Decoder.repeatDist] <;> simp only [Function.update_apply]
    · rw [if_pos trivial, hvalue]
      exact hsame
    · rw [if_neg (by omega), if_pos trivial]
      exact h₀
    · rw [if_neg (by omega), if_neg (by omega)]
      exact h₂
    · rw [if_neg (by omega), if_neg (by omega)]
      exact h₃
  · have hvalue := hknown h₂ heq
    refine ⟨rfl, hvalue, ⟨hle, hend, ?_, ?_, ?_, ?_⟩, rfl⟩ <;>
      dsimp only [LZ77Decoder.repeatDist] <;> simp only [Function.update_apply]
    · rw [if_pos trivial, hvalue]
      exact hsame
    · rw [if_neg (by omega), if_pos trivial]
      exact h₀
    · rw [if_neg (by omega), if_neg (by omega), if_pos trivial]
      exact h₁
    · rw [if_neg (by omega), if_neg (by omega), if_neg (by omega)]
      exact h₃
  · have hvalue := hknown h₃ heq
    refine ⟨rfl, hvalue, ⟨hle, hend, ?_, ?_, ?_, ?_⟩, rfl⟩ <;>
      dsimp only [LZ77Decoder.repeatDist] <;> simp only [Function.update_apply]
    · rw [if_pos trivial, hvalue]
      exact hsame
    · rw [if_neg (by omega), if_pos trivial]
      exact h₀
    · rw [if_neg (by omega), if_neg (by omega), if_pos trivial]
      exact h₁
    · rw [if_neg (by omega), if_neg (by omega), if_neg (by omega), if_pos trivial]
      exact h₂
  · exact absurd hdist (Nat.not_lt.mpr (Nat.le_add_left _ _))

/-- **Another distance** is remembered by both sides. -/
theorem remembered (h : SamePrev prev s) {dist : ℕ} (hdist : ¬(prev.distCode dist).1.1 < repdistCodes) :
    (prev.distCode dist).1 = (DistanceCoder.code dc dist + repdistCodes, dc.extraBits (DistanceCoder.code dc dist),
        dc.baseValue (DistanceCoder.code dc dist)) ∧
      SamePrev (prev.distCode dist).2 (s.remember (dist + 1)) := by
  obtain ⟨hle, hend, h₀, h₁, h₂, -⟩ := h
  have hfour : repdistCodes = 4 := rfl
  rcases prev.distCode_cases dist with ⟨-, hcode⟩ | ⟨-, hcode⟩ | ⟨-, hcode⟩ | ⟨-, hcode⟩ | hcode <;>
    rw [hcode] at hdist ⊢
  · exact absurd (by decide : 0 < repdistCodes) hdist
  · exact absurd (by decide : 1 < repdistCodes) hdist
  · exact absurd (by decide : 2 < repdistCodes) hdist
  · exact absurd (by decide : 3 < repdistCodes) hdist
  · refine ⟨rfl, ?_⟩
    have hsame : SameDist dist (dist + 1) := fun _ => by push_cast; rfl
    by_cases hfull : s.prevdist = 128
    · rw [hfull] at h₀ h₁ h₂
      rw [LZ77Decoder.remember, if_pos hfull]
      exact ⟨le_rfl, (by decide : repdistCodes ≤ 128), hsame, h₀, h₁, h₂⟩
    · rw [LZ77Decoder.remember, if_neg hfull]
      refine ⟨by dsimp only; omega, by dsimp only; omega, ?_, ?_, ?_, ?_⟩ <;> dsimp only
      · rw [Nat.add_sub_cancel, Function.update_self]
        exact hsame
      · rw [Function.update_of_ne (by omega), show s.prevdist + 1 - 2 = s.prevdist - 1 by omega]
        exact h₀
      · rw [Function.update_of_ne (by omega), show s.prevdist + 1 - 3 = s.prevdist - 2 by omega]
        exact h₁
      · rw [Function.update_of_ne (by omega), show s.prevdist + 1 - 4 = s.prevdist - 3 by omega]
        exact h₂

/-- The codes of distances and of repeated ones are in the table. -/
lemma distCode_lt {dist : ℕ} (hsame : SamePrev prev s) (hdist : dist < 2 ^ 30) : (prev.distCode dist).1.1 < 36 := by
  by_cases hrepeated : (prev.distCode dist).1.1 < repdistCodes
  · exact hrepeated.trans (by decide)
  · rw [(hsame.remembered hrepeated).1]
    have hlt : DistanceCoder.code dc dist < 32 := (DistanceCoder.right hdist).code_lt
    exact Nat.add_lt_add_right hlt 4

end SamePrev

namespace LZ77Decoder

variable {D : Type} {get : D → Request → Option (ℕ × D)} {P : D → List ArithItem → Prop} {prev : PrevDists}
  {s : LZ77Decoder D} {minlen len dist : ℕ} {rest : List ArithItem}

/-- A literal is returned. -/
lemma next_literal {x : ℕ} {d : D} (hsymbol : get s.decoder .symbol = some (x, d)) (hx : x < 256) :
    s.next get minlen = some (.literal (UInt8.ofNat x), { s with decoder := d }) := by
  rw [next, hsymbol, Option.bind_eq_bind, Option.bind_some]
  exact if_pos hx

/-- A match is returned. -/
lemma next_copy {x : ℕ} {d : D} {t u : LZ77Decoder D} (hsymbol : get s.decoder .symbol = some (x, d)) (hx : 256 ≤ x)
    (hlen : ({ s with decoder := d } : LZ77Decoder D).getlen get x minlen = some (len, t))
    (hdist : t.getdist get x = some (dist, u)) : s.next get minlen = some (.copy len dist, u) := by
  rw [next, hsymbol, Option.bind_eq_bind, Option.bind_some]
  dsimp only
  rw [if_neg (not_lt.mpr hx), hlen, Option.bind_eq_bind, Option.bind_some, hdist]
  rfl

/-- The lengths that can be coded are not much longer than those that can be told. -/
lemma tableLen_lt {len : ℕ} (hlen : len ≤ impossibleLen + 4) : PrevDists.tableLen len < 2 ^ 30 + 300 := by
  have himpossible : impossibleLen = 1073741823 := rfl
  unfold PrevDists.tableLen
  split_ifs <;> omega

/-- The length of a match is found. -/
lemma foundLen_match (hmin : minlen ≤ len) (hlen : len ≤ impossibleLen) :
    foundLen minlen (PrevDists.tableLen (len - minlen)) = len := by
  have himpossible : impossibleLen = 1073741823 := rfl
  unfold foundLen PrevDists.tableLen
  split_ifs <;> omega

/-- The length of a table is found. -/
lemma foundLen_table {type : ℕ} (hpos : 1 ≤ type) (hle : type ≤ 4) :
    foundLen minlen (PrevDists.tableLen (impossibleLen + type)) = impossibleLen + type := by
  have himpossible : impossibleLen = 1073741823 := rfl
  unfold foundLen PrevDists.tableLen
  split_ifs <;> omega

/-- A place in an interval, with its bits. -/
lemma baseValue_add {t : VLE} {code value : ℕ} (h : t.In code value) :
    t.baseValue code + (value - t.baseValue code) % 2 ^ t.extraBits code = value := by
  have hle := h.le
  have hlt := h.lt
  rw [Nat.mod_eq_of_lt (by omega)]
  omega

/-- **A match is decoded.** -/
theorem next_match (hsupply : Supply get P) (hsame : SamePrev prev s) (hlen : PrevDists.tableLen len < 2 ^ 30 + 300)
    (hdist : dist < 2 ^ 30) (hP : P s.decoder ((prev.encodeMatch len dist).1 ++ rest)) :
    ∃ s', s.next get minlen = some (.copy (foundLen minlen (PrevDists.tableLen len)) (dist + 1), s') ∧
      P s'.decoder rest ∧ SamePrev (prev.encodeMatch len dist).2 s' := by
  have hin := lc2_right hlen
  have hafter : ∀ {t : LZ77Decoder D}, SamePrev (prev.distCode dist).2 t → SamePrev (prev.encodeMatch len dist).2 t := by
    intro t ht
    change SamePrev (if impossibleLen < len then { (prev.distCode dist).2 with prevdist0 := -1 }
      else (prev.distCode dist).2) t
    split
    · exact ht.forget
    · exact ht
  rw [PrevDists.encodeMatch_fst] at hP
  obtain ⟨d₁, hsymbol, hP₁⟩ := hsupply.step hP
  obtain ⟨d₂, hbits, hP₂⟩ := hsupply.step hP₁
  dsimp only [ArithItem.request, ArithItem.value] at hsymbol hbits
  generalize hcode : LengthCoder.code extraLbits2 (PrevDists.tableLen len) = lcode at hin hsymbol hbits
  have hlcode : lcode < 16 := hin.code_lt
  have hdcode := hsame.distCode_lt hdist
  have hsixteen : extraLbits2.length = 16 := rfl
  have hrepchar : repchar = 833 := rfl
  generalize hx : 256 + (prev.distCode dist).1.1 * extraLbits2.length + lcode = x at hsymbol
  rw [hsixteen] at hx
  have hlcode' : x % extraLbits2.length = lcode := by rw [hsixteen]; omega
  have hdcode' : (x - 256) / extraLbits2.length = (prev.distCode dist).1.1 := by rw [hsixteen]; omega
  have hlen' : ({ s with decoder := d₁ } : LZ77Decoder D).getlen get x minlen =
      some (foundLen minlen (PrevDists.tableLen len), { s with decoder := d₂ }) := by
    rw [getlen, if_neg (by omega), hlcode']
    dsimp only
    rw [hbits, Option.bind_eq_bind, Option.bind_some]
    dsimp only
    rw [baseValue_add hin]
    rfl
  have hsame₂ := hsame.decoder d₂
  by_cases hrepeated : (prev.distCode dist).1.1 < repdistCodes
  · obtain ⟨hzero, hvalue, hnext, hdecoder⟩ := hsame₂.repeated hrepeated
    rw [hzero] at hP₂
    refine ⟨_, ?_, ?_, hafter hnext⟩
    · refine next_copy hsymbol (by omega) hlen' ?_
      rw [getdist, if_neg (by omega), hdcode', if_pos hrepeated, ← hvalue]
    · rw [hdecoder]
      exact hsupply.skip hP₂
  · obtain ⟨hinterval, hnext⟩ := hsame.remembered hrepeated
    have hin' := DistanceCoder.right hdist
    rw [hinterval] at hP₂ hdcode'
    obtain ⟨d₃, hdbits, hP₃⟩ := hsupply.step hP₂
    change get d₂ (.bits (dc.extraBits (DistanceCoder.code dc dist))) = _ at hdbits
    refine ⟨remember (dist + 1) { s with decoder := d₃ }, ?_, hP₃, hafter (hnext.decoder d₃)⟩
    refine next_copy hsymbol (by omega) hlen' ?_
    rw [getdist, if_neg (by omega)]
    dsimp only
    rw [hdcode', if_neg (Nat.not_lt.mpr (Nat.le_add_left _ _)), Nat.add_sub_cancel, hdbits, Option.bind_eq_bind,
      Option.bind_some, ArithItem.value]
    dsimp only
    rw [baseValue_add hin']
    rfl

/-- **A call is decoded**: a character may be found as a match of length 1. -/
theorem yields_call (hsupply : Supply get P) (hsame : SamePrev prev s) {call : Call} (hcall : call.Ok minlen)
    (hP : P s.decoder ((prev.put minlen call).1 ++ rest)) :
    ∃ s', Yields (next get minlen) (prev.found minlen call) s s' ∧ P s'.decoder rest ∧
      SamePrev (prev.put minlen call).2 s' := by
  have himpossible : impossibleLen = 1073741823 := rfl
  have himpossible' : impossibleDist = 1073741823 := rfl
  cases call with
  | encode m len current source =>
    rw [PrevDists.put] at hP ⊢
    rw [PrevDists.found]
    by_cases hlen : len < minlen
    · rw [if_pos hlen] at hP ⊢
      rw [if_pos hlen]
      by_cases hrep : prev.Repchar m current
      · rw [if_pos hrep] at hP ⊢
        rw [if_pos hrep]
        obtain ⟨d, hsymbol, hrest⟩ := hsupply.step hP
        change get s.decoder .symbol = some (repchar, d) at hsymbol
        refine ⟨{ s with decoder := d }, .single ?_, hrest, hsame.decoder d⟩
        have hdist : s.prevdists (s.prevdist - 1) = (prev.prevdist0 + 1).toNat := by
          have hknown := hsame.dist0 (by have := hrep.2; omega)
          omega
        refine next_copy hsymbol (by decide) (if_pos rfl) ?_
        rw [getdist, if_pos rfl, ← hdist]
      · rw [if_neg hrep] at hP ⊢
        rw [if_neg hrep]
        obtain ⟨d, hsymbol, hrest⟩ := hsupply.step hP
        change get s.decoder .symbol = some ((m current).toNat, d) at hsymbol
        refine ⟨{ s with decoder := d }, .single ?_, hrest, hsame.decoder d⟩
        rw [next_literal hsymbol (m current).toNat_lt, UInt8.ofNat_toNat]
    · obtain ⟨hle, hlt, hdist⟩ := hcall (not_lt.mp hlen)
      rw [if_neg hlen] at hP ⊢
      rw [if_neg hlen]
      obtain ⟨s', hnext, hrest, hsame'⟩ := next_match hsupply hsame (tableLen_lt (by omega)) (by omega) hP
      rw [foundLen_match (not_lt.mp hlen) hle, show (current - source - 1).toNat + 1 = (current - source).toNat by omega]
        at hnext
      exact ⟨s', .single hnext, hrest, hsame'⟩
  | encodeTable type len =>
    obtain ⟨⟨hpos, htype⟩, hlen, hle⟩ := hcall
    obtain ⟨s', hnext, hrest, hsame'⟩ := next_match hsupply hsame (tableLen_lt (by omega)) (by omega) hP
    rw [foundLen_table hpos htype, Nat.sub_add_cancel hlen] at hnext
    exact ⟨s', .single hnext, hrest, hsame'⟩
  | shiftOccurs => exact ⟨s, rfl, hP, hsame.forget⟩

/-- **All calls are decoded.** -/
theorem yields_calls (hsupply : Supply get P) (hsame : SamePrev prev s) {calls : List Call}
    (hcalls : ∀ call ∈ calls, call.Ok minlen) (hP : P s.decoder (prev.items minlen calls ++ rest)) :
    ∃ s', Yields (next get minlen) (prev.founds minlen calls) s s' ∧ P s'.decoder rest ∧
      SamePrev (prev.after minlen calls) s' := by
  induction calls generalizing prev s with
  | nil => exact ⟨s, rfl, hP, hsame⟩
  | cons call calls ih =>
    rw [PrevDists.items, List.append_assoc] at hP
    obtain ⟨t, hyields, hP', hsame'⟩ := yields_call hsupply hsame (hcalls call List.mem_cons_self) hP
    obtain ⟨s', hrest, hend⟩ := ih hsame' (fun call hmem => hcalls call (List.mem_cons_of_mem _ hmem)) hP'
    exact ⟨s', hyields.append hrest, hend⟩

end LZ77Decoder

/-- What is put for a call: symbols among the codes that are used, and fields of at most 30 bits. -/
def ArithItem.Put : ArithItem → Prop
  | .symbol x => x < codes ∧ x ≠ eobCode
  | .bits n _ => n ≤ 30

/-- No code has more than 30 bits. -/
lemma extraBits_le {t : VLE} (ht : ∀ bits ∈ t.xextraBits, bits ≤ 30) (code : ℕ) : t.extraBits code ≤ 30 := by
  rw [VLE.extraBits, List.getD_eq_getElem?_getD]
  cases hbits : t.xextraBits[code]? with
  | none => exact Nat.zero_le _
  | some bits => exact ht bits (List.mem_of_getElem? hbits)

/-- What is put for a match. -/
lemma PrevDists.put_encodeMatch (prev : PrevDists) {len dist : ℕ} (hlen : tableLen len < 2 ^ 30 + 300)
    (hdist : dist < 2 ^ 30) : ∀ item ∈ (prev.encodeMatch len dist).1, item.Put := by
  have hlcode : LengthCoder.code extraLbits2 (tableLen len) < 16 := (lc2_right hlen).code_lt
  have hdcode : (prev.distCode dist).1.1 < 36 ∧ (prev.distCode dist).1.2.1 ≤ 30 := by
    rcases prev.distCode_cases dist with ⟨-, hcode⟩ | ⟨-, hcode⟩ | ⟨-, hcode⟩ | ⟨-, hcode⟩ | hcode <;> rw [hcode]
    · exact ⟨(by decide : 0 < 36), Nat.zero_le _⟩
    · exact ⟨(by decide : 1 < 36), Nat.zero_le _⟩
    · exact ⟨(by decide : 2 < 36), Nat.zero_le _⟩
    · exact ⟨(by decide : 3 < 36), Nat.zero_le _⟩
    · have hlt : DistanceCoder.code dc dist < 32 := (DistanceCoder.right hdist).code_lt
      exact ⟨Nat.add_lt_add_right hlt 4, extraBits_le (by decide) _⟩
  have hsixteen : extraLbits2.length = 16 := rfl
  have hcodes : codes = 842 := rfl
  have heob : eobCode = 832 := rfl
  rw [encodeMatch_fst, hsixteen]
  simp only [List.mem_cons, List.not_mem_nil, or_false, forall_eq_or_imp, forall_eq, ArithItem.Put]
  exact ⟨by omega, extraBits_le (by decide) _, hdcode.2⟩

/-- What is put for some calls. -/
lemma PrevDists.put_items {minlen : ℕ} {calls : List Call} (hcalls : ∀ call ∈ calls, call.Ok minlen)
    (prev : PrevDists) : ∀ item ∈ prev.items minlen calls, item.Put := by
  have himpossible : impossibleLen = 1073741823 := rfl
  have himpossible' : impossibleDist = 1073741823 := rfl
  induction calls generalizing prev with
  | nil => exact fun item hitem => by cases hitem
  | cons call calls ih =>
    have hcall := hcalls call List.mem_cons_self
    have hrest := ih (fun call hmem => hcalls call (List.mem_cons_of_mem _ hmem)) (prev.put minlen call).2
    intro item hitem
    rcases List.mem_append.mp hitem with hitem | hitem
    · cases call with
      | encode m len current source =>
        rw [put] at hitem
        split at hitem
        · split at hitem
          · rw [List.mem_singleton.mp hitem]
            exact ⟨by decide, by decide⟩
          · have hlt : (m current).toNat < 256 := (m current).toNat_lt
            have hcodes : codes = 842 := rfl
            have heob : eobCode = 832 := rfl
            rw [List.mem_singleton.mp hitem]
            exact ⟨by omega, by omega⟩
        · next hlen =>
          obtain ⟨hle, hlt, hdist⟩ := hcall (not_lt.mp hlen)
          exact prev.put_encodeMatch (LZ77Decoder.tableLen_lt (by omega)) (by omega) item hitem
      | encodeTable type len =>
        obtain ⟨⟨hpos, htype⟩, hlen, hle⟩ := hcall
        exact prev.put_encodeMatch (LZ77Decoder.tableLen_lt (by omega)) (by omega) item hitem
      | shiftOccurs => cases hitem
    · exact hrest item hitem

end DArc.Tornado
