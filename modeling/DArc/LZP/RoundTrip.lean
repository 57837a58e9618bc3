import DArc.LZP.Blocks

/-!
# Decompression undoes LZP compression

A block that is stored is copied.  A packed one is decoded to its data unless the coder takes a match of length 0, which
it does when the shortest match may have that length and only the context of a place is predicted, not the byte behind
it.

### Main results

* `Restores`: the condition on a block;
* `lzpRoundTrips_iff`: a file is restored iff all its blocks are.
-/

namespace DArc.Lzp

variable {P : Params} {data : List UInt8}

/-! ## One block -/

/-- The block is written packed. -/
def WritesPacked (P : Params) (data : List UInt8) : Prop :=
  ∃ bytes, lzpEncode P data = some (.packed bytes) ∧ ¬ tooLarge P data.length bytes.length

/-- The block is too short to be packed, or there is a hash table, the coder compares no bytes in front of the block
and, if the block is written packed, takes no empty match. -/
def Restores (P : Params) (data : List UInt8) : Prop :=
  data.length < 32 ∨ (0 ≤ P.hashSize ∧ (∀ s, Reaches P data s → ¬ ReadsInFront P data s) ∧
    (WritesPacked P data → ∀ s, Reaches P data s → ¬ EmptyMatch P data s))

/-- The decompressor gets the block back from the front of the stream. -/
def GivesBack (P : Params) (bytes data : List UInt8) : Prop :=
  ∀ fuel rest, lzpDecompress P (fuel + 1) (bytes ++ rest) =
    (lzpDecompress P fuel rest).map fun r => ⟨r.code, data ++ r.written⟩

/-- A word that was written is read back. -/
lemma leValue_put32 {n : ℕ} (h : n < 2 ^ 32) : leValue (put32 n) = n := leValue_leBytes_of_lt (by omega)

/-- The header of a stored block. -/
lemma readBlock_stored (hpos : data ≠ []) (hlen : data.length < 2 ^ 31) (rest : List UInt8) :
    readBlock (storedBlock data ++ rest) = .stored data rest := by
  have hnonempty := List.length_pos_of_ne_nil hpos
  have hvalue : leValue (put32 (uint32 (-(data.length : Int)))) = uint32 (-(data.length : Int)) :=
    leValue_put32 (by unfold uint32; omega)
  have hsize : int32 (uint32 (-(data.length : Int))) = -data.length := by
    rw [int32_uint32, int32_of_mem (by omega) (by omega)]
  have hback : int32 (-(-(data.length : Int))) = data.length := by
    rw [neg_neg, int32_of_mem (by omega) (by omega)]
  have hword : takeExact 4 (storedBlock data ++ rest) = some (put32 (uint32 (-(data.length : Int))), data ++ rest) := by
    rw [storedBlock, List.append_assoc]
    exact takeExact_append (length_leBytes 4 _)
  have hne : storedBlock data ++ rest ≠ [] := fun h => by
    rw [h] at hword
    cases hword
  unfold readBlock
  rw [if_neg hne, hword]
  dsimp only
  rw [hvalue, hsize, if_pos (by omega), hback, if_neg (by omega), Int.toNat_natCast, takeExact_append rfl]

/-- The header of a packed block. -/
lemma readBlock_packed {bytes : List UInt8} (hlen : bytes.length < 2 ^ 31) (rest : List UInt8) :
    readBlock (put32 bytes.length ++ bytes ++ rest) = .packed bytes rest := by
  have hvalue : leValue (put32 bytes.length) = bytes.length := leValue_put32 (by omega)
  have hsize : int32 bytes.length = bytes.length := int32_of_mem (by omega) (by omega)
  have hword : takeExact 4 (put32 bytes.length ++ bytes ++ rest) = some (put32 bytes.length, bytes ++ rest) := by
    rw [List.append_assoc]
    exact takeExact_append (length_leBytes 4 _)
  have hne : put32 bytes.length ++ bytes ++ rest ≠ [] := fun h => by
    rw [h] at hword
    cases hword
  unfold readBlock
  rw [if_neg hne, hword]
  dsimp only
  rw [hvalue, hsize, if_neg (by omega), Int.toNat_natCast, takeExact_append rfl]

/-- A stored block is copied. -/
lemma storedBlock_givesBack (hpos : data ≠ []) (hlen : data.length < 2 ^ 31) : GivesBack P (storedBlock data) data := by
  intro fuel rest
  rw [lzpDecompress, readBlock_stored hpos hlen]

/-- What the coder of a block of at least 32 bytes returns when there is a hash table. -/
lemma lzpEncode_cases (hmin : 32 ≤ data.length) (hlen : data.length < 2 ^ 31) (hcap : data.length ≤ P.blockSize)
    (hhash : 0 ≤ P.hashSize) :
    (∃ s, Reaches P data s ∧ ReadsInFront P data s ∧ lzpEncode P data = none) ∨
      ((∀ s, Reaches P data s → ¬ ReadsInFront P data s) ∧
        (lzpEncode P data = some .unpacked ∨
          ∃ final, Packs P data final ∧ lzpEncode P data = some (.packed final.bytes))) := by
  unfold lzpEncode
  rw [if_neg (by omega), if_neg (by omega)]
  rcases encode_run (P := P) hmin hlen with ⟨s, hs, hfront, hrun⟩ | ⟨hnot, last, final, hlast, hmove, hstop, hrun⟩
  · rw [hrun]
    exact .inl ⟨s, hs, hfront, rfl⟩
  · rw [hrun]
    refine .inr ⟨hnot, ?_⟩
    by_cases hroom : final.out.length + final.back.length ≥ data.length
    · exact .inl (if_pos hroom)
    · exact .inr ⟨final, ⟨hmin, hlen, hcap, by omega, last, hlast, hmove, hstop⟩, if_neg hroom⟩

/-- **A block is given back exactly when the condition holds.** -/
lemma compressBlock_cases (hpos : data ≠ []) (hlen : data.length < 2 ^ 31) (hcap : data.length ≤ P.blockSize) :
    (Restores P data ∧ ∃ bytes, compressBlock P data = some (.ok bytes) ∧ GivesBack P bytes data) ∨
      (¬ Restores P data ∧ ((compressBlock P data = some (.error .notEnoughMemory) ∨ compressBlock P data = none) ∨
        ∃ bytes, compressBlock P data = some (.ok bytes) ∧
          ∀ fuel rest, lzpDecompress P (fuel + 1) (bytes ++ rest) = none)) := by
  have hstored : lzpEncode P data = some .unpacked → ∃ bytes, compressBlock P data = some (.ok bytes) ∧
      GivesBack P bytes data := fun h =>
    ⟨storedBlock data, by rw [compressBlock, h]; rfl, storedBlock_givesBack hpos hlen⟩
  by_cases hmin : data.length < 32
  · exact .inl ⟨.inl hmin, hstored (if_pos hmin)⟩
  by_cases hhash : P.hashSize < 0
  · refine .inr ⟨fun h => ?_, .inl (.inl ?_)⟩
    · have hpositive := (h.resolve_left hmin).1
      omega
    · rw [compressBlock, lzpEncode, if_neg hmin, if_pos hhash]
      rfl
  rcases lzpEncode_cases (P := P) (by omega) hlen hcap (by omega) with
    ⟨s, hs, hfront, hcode⟩ | ⟨hnot, hcode | ⟨final, hpacks, hcode⟩⟩
  · refine .inr ⟨fun h => (h.resolve_left hmin).2.1 s hs hfront, .inl (.inr ?_)⟩
    rw [compressBlock, hcode]
    rfl
  · refine .inl ⟨.inr ⟨by omega, hnot, fun ⟨bytes, hbytes, _⟩ => ?_⟩, hstored hcode⟩
    rw [hcode] at hbytes
    cases hbytes
  by_cases hlarge : tooLarge P data.length final.bytes.length
  · refine .inl ⟨.inr ⟨by omega, hnot, fun ⟨bytes, hbytes, hsmall⟩ => ?_⟩, storedBlock data, ?_,
      storedBlock_givesBack hpos hlen⟩
    · rw [hcode] at hbytes
      obtain rfl : final.bytes = bytes := by
        cases hbytes
        rfl
      exact absurd hlarge hsmall
    · rw [compressBlock, hcode, Option.map_some]
      dsimp only
      rw [if_pos hlarge]
  have hblock : compressBlock P data = some (.ok (put32 final.bytes.length ++ final.bytes)) := by
    rw [compressBlock, hcode, Option.map_some]
    dsimp only
    rw [if_neg hlarge]
  have hbytes : final.bytes.length < 2 ^ 31 := by
    have hroom := hpacks.room
    unfold Enc.bytes
    rw [List.length_append, List.length_reverse]
    omega
  by_cases hempty : ∃ s, Reaches P data s ∧ EmptyMatch P data s
  · obtain ⟨s, hs, he⟩ := hempty
    refine .inr ⟨fun h => (h.resolve_left hmin).2.2 ⟨_, hcode, hlarge⟩ s hs he, .inr ⟨_, hblock, fun fuel rest => ?_⟩⟩
    rw [lzpDecompress, readBlock_packed hbytes]
    dsimp only
    rw [hpacks.lzpDecode_eq_none (by omega) hs he]
    rfl
  · have hnone : ∀ s, Reaches P data s → ¬ EmptyMatch P data s := fun s hs he => hempty ⟨s, hs, he⟩
    refine .inl ⟨.inr ⟨by omega, hnot, fun _ => hnone⟩, _, hblock, fun fuel rest => ?_⟩
    rw [lzpDecompress, readBlock_packed hbytes]
    dsimp only
    rw [hpacks.lzpDecode_eq (by omega) hnone]
    rfl

/-! ## Streams -/

/-- The blocks that are read from a source, `n` bytes at a time. -/
inductive Delivers (n : ℕ) : Source UInt8 → List UInt8 → Prop
  | here {src : Source UInt8} (h : (src.read n).1 ≠ []) : Delivers n src (src.read n).1
  | later {src : Source UInt8} {block : List UInt8} (h : (src.read n).1 ≠ [])
      (hlater : Delivers n (src.read n).2 block) : Delivers n src block

/-- Blocks are not larger than what is asked for, and are not empty. -/
lemma Delivers.length_le {n : ℕ} {src : Source UInt8} {block : List UInt8} (h : Delivers n src block) :
    block ≠ [] ∧ block.length ≤ n := by
  induction h with
  | here h => exact ⟨h, Source.length_read_le _ _⟩
  | later _ _ ih => exact ih

/-- No more is asked for than a block, and than an `int` can say. -/
lemma readSize_le (P : Params) : P.readSize ≤ P.blockSize ∧ P.readSize < 2 ^ 31 := by
  have hmem := int32_mem P.blockSize
  unfold Params.readSize
  refine ⟨?_, by omega⟩
  by_cases hlt : P.blockSize < 2 ^ 31
  · rw [int32_of_mem (by omega) (by omega), Int.toNat_natCast]
  · have hcap := P.blockSize_lt
    rw [int32_of_ge (by omega) (by omega)]
    omega

/-- Something is asked for unless the size of a block is negative as an `int`. -/
lemma readSize_pos_iff (P : Params) : 0 < P.readSize ↔ P.blockSize < 2 ^ 31 := by
  have hpos := P.blockSize_pos
  unfold Params.readSize
  by_cases hlt : P.blockSize < 2 ^ 31
  · rw [int32_of_mem (by omega) (by omega), Int.toNat_natCast]
    exact iff_of_true hpos hlt
  · have hcap := P.blockSize_lt
    rw [int32_of_ge (by omega) (by omega)]
    omega

/-- Compression of the source succeeds, and decompression of what it has written gives the data. -/
def RoundTrips (P : Params) (src : Source UInt8) : Prop :=
  ∃ fuel out, lzpCompress P fuel src = some ⟨.ok, out⟩ ∧
    ∃ fuel', lzpDecompress P fuel' out = some ⟨.ok, src.rest⟩

/-- At the end of the data nothing is written. -/
lemma lzpCompress_nil {src : Source UInt8} (h : (src.read P.readSize).1 = []) (fuel : ℕ) :
    lzpCompress P (fuel + 1) src = some ⟨.ok, []⟩ := by
  rw [lzpCompress]
  exact if_pos h

/-- A block in front of the others. -/
lemma lzpCompress_cons {src : Source UInt8} (h : (src.read P.readSize).1 ≠ []) (fuel : ℕ) :
    lzpCompress P (fuel + 1) src = (compressBlock P (src.read P.readSize).1).bind fun
      | .error code => some ⟨code, []⟩
      | .ok bytes => (lzpCompress P fuel (src.read P.readSize).2).map fun r => ⟨r.code, bytes ++ r.written⟩ := by
  rw [lzpCompress]
  exact if_neg h

/-- One block after another is given back. -/
lemma roundTrip_of_restores {n : ℕ} {src : Source UInt8} (hsize : src.rest = [] ∨ 0 < P.readSize)
    (hn : src.rest.length ≤ n) (h : ∀ block, Delivers P.readSize src block → Restores P block) :
    ∃ out, lzpCompress P (n + 1) src = some ⟨.ok, out⟩ ∧
      ∃ fuel', lzpDecompress P fuel' out = some ⟨.ok, src.rest⟩ := by
  have hread : (src.read P.readSize).1 = [] ↔ src.rest = [] := by
    rcases hsize with hnil | hpos
    · refine iff_of_true ?_ hnil
      unfold Source.read
      rw [hnil, List.take_nil]
    · exact src.read_eq_nil_iff hpos
  induction n generalizing src with
  | zero =>
    have hnil : src.rest = [] := List.eq_nil_of_length_eq_zero (Nat.le_zero.mp hn)
    rw [lzpCompress_nil (hread.mpr hnil), hnil]
    exact ⟨[], rfl, 1, rfl⟩
  | succ n ih =>
    by_cases hnil : (src.read P.readSize).1 = []
    · rw [lzpCompress_nil hnil, hread.mp hnil]
      exact ⟨[], rfl, 1, rfl⟩
    · have hpos : 0 < P.readSize := hsize.resolve_left fun h => hnil (hread.mpr h)
      have hless := src.length_rest_read_lt hnil
      have hlength := (Delivers.here hnil).length_le
      obtain ⟨hle, hlt⟩ := readSize_le P
      rcases compressBlock_cases (P := P) hnil (by omega) (by omega) with ⟨-, bytes, hbytes, hback⟩ | ⟨hnot, -⟩
      · obtain ⟨out, hcompress, fuel', hdecompress⟩ := @ih (src.read P.readSize).2 (.inr hpos) (by omega)
          (fun block hblock => h block (.later hnil hblock)) (Source.read_eq_nil_iff _ hpos)
        rw [lzpCompress_cons hnil, hbytes, Option.bind_some, hcompress]
        refine ⟨bytes ++ out, rfl, fuel' + 1, ?_⟩
        rw [hback, hdecompress, Option.map_some, src.read_append]
      · exact absurd (h _ (.here hnil)) hnot

/-- When the first block is written and read, it is given back, and the others are written and read. -/
lemma first_restores {fuel fuel' : ℕ} {src : Source UInt8} {out : List UInt8} {r : Outcome}
    (hnil : (src.read P.readSize).1 ≠ []) (hcompress : lzpCompress P fuel src = some ⟨.ok, out⟩)
    (hdecompress : lzpDecompress P fuel' out = some r) :
    Restores P (src.read P.readSize).1 ∧ ∃ fuel fuel' out r, lzpCompress P fuel (src.read P.readSize).2 = some ⟨.ok, out⟩ ∧
      lzpDecompress P fuel' out = some r := by
  cases fuel with
  | zero => cases hcompress
  | succ fuel =>
    rw [lzpCompress_cons hnil] at hcompress
    have hlength := (Delivers.here hnil).length_le
    obtain ⟨hle, hlt⟩ := readSize_le P
    have hbehind : ∀ bytes, compressBlock P (src.read P.readSize).1 = some (.ok bytes) →
        ∃ w, lzpCompress P fuel (src.read P.readSize).2 = some ⟨.ok, w⟩ ∧ out = bytes ++ w := by
      intro bytes hbytes
      rw [hbytes] at hcompress
      obtain ⟨⟨code, w⟩, hw, heq⟩ := Option.map_eq_some_iff.mp hcompress
      obtain ⟨rfl, rfl⟩ := Outcome.mk.inj heq
      exact ⟨w, hw, rfl⟩
    rcases compressBlock_cases (P := P) hnil (by omega) (by omega) with
      ⟨hrestores, bytes, hbytes, hback⟩ | ⟨-, (herror | hnone) | ⟨bytes, hbytes, hfault⟩⟩
    · obtain ⟨w, hw, rfl⟩ := hbehind bytes hbytes
      cases fuel' with
      | zero => cases hdecompress
      | succ fuel' =>
        rw [hback] at hdecompress
        obtain ⟨r', hr', -⟩ := Option.map_eq_some_iff.mp hdecompress
        exact ⟨hrestores, fuel, fuel', w, r', hw, hr'⟩
    · rw [herror] at hcompress
      cases hcompress
    · rw [hnone] at hcompress
      cases hcompress
    · obtain ⟨w, hw, rfl⟩ := hbehind bytes hbytes
      cases fuel' with
      | zero => cases hdecompress
      | succ fuel' =>
        rw [hfault] at hdecompress
        cases hdecompress

/-- When all blocks are written and read, each of them is given back. -/
lemma restores_of_roundTrip {src : Source UInt8} {block : List UInt8} (h : Delivers P.readSize src block)
    {fuel fuel' : ℕ} {out : List UInt8} {r : Outcome} (hcompress : lzpCompress P fuel src = some ⟨.ok, out⟩)
    (hdecompress : lzpDecompress P fuel' out = some r) : Restores P block := by
  induction h generalizing fuel fuel' out r with
  | here hnil => exact (first_restores hnil hcompress hdecompress).1
  | later hnil _ ih =>
    obtain ⟨-, fuel, fuel', out, r, hcompress, hdecompress⟩ := first_restores hnil hcompress hdecompress
    exact ih hcompress hdecompress

/-- **A file is restored exactly when all its blocks are**, and the size of a block is not negative as an `int`. -/
theorem lzpRoundTrips_iff (P : Params) (src : Source UInt8) :
    RoundTrips P src ↔ (src.rest = [] ∨ P.blockSize < 2 ^ 31) ∧
      ∀ block, Delivers P.readSize src block → Restores P block := by
  rw [← readSize_pos_iff]
  constructor
  · rintro ⟨fuel, out, hcompress, fuel', hdecompress⟩
    refine ⟨?_, fun block hblock => restores_of_roundTrip hblock hcompress hdecompress⟩
    by_contra hnot
    push Not at hnot
    have hzero : P.readSize = 0 := Nat.le_zero.mp hnot.2
    have hread : (src.read P.readSize).1 = [] :=
      List.eq_nil_of_length_eq_zero (Nat.le_zero.mp (hzero ▸ src.length_read_le P.readSize))
    cases fuel with
    | zero => cases hcompress
    | succ fuel =>
      rw [lzpCompress_nil hread] at hcompress
      obtain rfl : [] = out := by
        cases hcompress
        rfl
      cases fuel' with
      | zero => cases hdecompress
      | succ fuel' =>
        have hempty : lzpDecompress P (fuel' + 1) [] = some ⟨.ok, []⟩ := rfl
        rw [hempty] at hdecompress
        exact hnot.1 (Outcome.mk.inj (Option.some.inj hdecompress)).2.symm
  · rintro ⟨hsize, hrestores⟩
    obtain ⟨out, hcompress, hback⟩ := roundTrip_of_restores hsize le_rfl hrestores
    exact ⟨_, out, hcompress, hback⟩

/-- The default parameters with matches of length 0. -/
def anyLength : Params := ⟨8 * mb, by decide, by decide, 100, 0, 18, 2 ^ 31 - 1, 32⟩

/-- A hundred bytes, of which one is not zero. -/
def almostZeros : List UInt8 := List.replicate 12 0 ++ 1 :: List.replicate 87 0

/-- The first place is predicted, but not the byte there: the coder takes a match of length 0. -/
theorem not_roundTrips_anyLength : ¬ RoundTrips anyLength ⟨almostZeros, []⟩ := by
  rintro ⟨fuel, out, hcompress, fuel', hdecompress⟩
  have hdelivers : Delivers anyLength.readSize ⟨almostZeros, []⟩ almostZeros := .here (by decide)
  rcases restores_of_roundTrip hdelivers hcompress hdecompress with hshort | ⟨-, -, hempty⟩
  · exact absurd hshort (by decide)
  · refine hempty ⟨_, (by decide +kernel : lzpEncode anyLength almostZeros =
      some (.packed (List.replicate 12 0 ++ [0xB5, 0xB5, 89, 1]))), by decide⟩ _ .refl ?_
    exact ⟨5, ⟨0, by decide, rfl, by decide⟩, by decide, by decide⟩

end DArc.Lzp
