import DArc.REP.Decompressor

/-!
# True matches and their decoding

A match record is *true* for a window when the bytes it covers repeat the bytes at its source, and
the source is either earlier in the same lap or in the part of the previous lap that has not been
overwritten (`Record.True`).  A block of records is a `Chain`: every record starts where the one
before ended.  The decoder turns the tables and literals of a chain of true matches into the bytes
of the window the matches are true for (`decodeBlock_blockBytes`), whatever its own window holds at
the addresses to be written.

### Outline

* `Record.True` and `Chain`;
* what a literal run and a true match do to a decoder window that agrees with the encoder's;
* the loop over the matches, and a whole block.
-/

namespace DArc.Rep

/-! ## True matches -/

/-- Where the match of a record begins. -/
def Record.start (r : Record) : ℕ := r.dataOffset + r.datalen

/-- Where the match of a record ends. -/
def Record.stop (r : Record) : ℕ := r.dataOffset + r.datalen + r.len

/-- The address a match is copied from in a window of `blockSize` bytes. -/
def Record.source (blockSize : ℕ) (r : Record) : ℕ :=
  if r.offset ≤ r.start then r.start - r.offset else r.start + blockSize - r.offset

/-- The record is true for the window `t`: the current lap has bytes up to `hi`, the previous one
between `hi` and `top`. -/
structure Record.True (blockSize : ℕ) (t : ℕ → UInt8) (hi top : ℕ) (r : Record) : Prop where
  stop_le : r.stop ≤ hi
  offset_le : r.offset ≤ blockSize
  place : r.source blockSize < r.start ∨ hi ≤ r.source blockSize ∧ r.source blockSize + r.len ≤ top
  repeats : ∀ j < r.len, t (r.start + j) = t (r.source blockSize + j)

/-- The records follow each other from address `p` to address `q`, each with the property `V`. -/
def Chain (V : Record → Prop) : ℕ → List Record → ℕ → Prop
  | p, [], q => p = q
  | p, r :: rs, q => r.dataOffset = p ∧ V r ∧ Chain V r.stop rs q

/-- A chain can be continued by one more record. -/
lemma Chain.snoc {V : Record → Prop} {p q : ℕ} {rs : List Record} {r : Record}
    (h : Chain V p rs q) (hr : r.dataOffset = q) (hV : V r) :
    Chain V p (rs ++ [r]) r.stop := by
  induction rs generalizing p with
  | nil => exact ⟨hr.trans h.symm, hV, rfl⟩
  | cons r' rs ih => exact ⟨h.1, h.2.1, ih h.2.2⟩

/-- A chain keeps whatever its property implies. -/
lemma Chain.imp {V V' : Record → Prop} {p q : ℕ} {rs : List Record} (h : Chain V p rs q)
    (hV : ∀ r, V r → V' r) : Chain V' p rs q := by
  induction rs generalizing p with
  | nil => exact h
  | cons r rs ih => exact ⟨h.1, hV r h.2.1, ih h.2.2⟩

/-- A chain spans exactly its literals and its matches. -/
lemma Chain.span {V : Record → Prop} {p q : ℕ} {rs : List Record} (h : Chain V p rs q) :
    p + (rs.map fun r => r.datalen + r.len).sum = q := by
  induction rs generalizing p with
  | nil =>
    have hpq : p = q := h
    simpa using hpq
  | cons r rs ih =>
    have htail := ih h.2.2
    have hhead := h.1
    rw [List.map_cons, List.sum_cons]
    unfold Record.stop at htail
    omega

/-- Every record of a chain has its property. -/
lemma Chain.forall_mem {V : Record → Prop} {p q : ℕ} {rs : List Record} (h : Chain V p rs q) :
    ∀ r ∈ rs, V r := by
  induction rs generalizing p with
  | nil => intro r hr; cases hr
  | cons r' rs ih =>
    intro r hr
    rcases List.mem_cons.mp hr with rfl | hr
    · exact h.2.1
    · exact ih h.2.2 r hr

/-- The records of a chain lie between its ends. -/
lemma Chain.le_of_mem {V : Record → Prop} {p q : ℕ} {rs : List Record} (h : Chain V p rs q) :
    ∀ r ∈ rs, p ≤ r.dataOffset ∧ r.stop ≤ q := by
  induction rs generalizing p with
  | nil => intro r hr; cases hr
  | cons r' rs ih =>
    intro r hr
    have hspan := h.2.2.span
    rcases List.mem_cons.mp hr with rfl | hr
    · exact ⟨h.1.ge, by omega⟩
    · have htail := ih h.2.2 r hr
      have hhead := h.1
      unfold Record.stop at htail ⊢
      omega

/-! ## Decoder steps -/

/-- The addresses on which the windows of encoder and decoder agree when the decoder stands at
`p`: the current lap before `p`, and the previous lap from `hi` to `top`. -/
def known (p hi top : ℕ) : Set ℕ := Set.Iio p ∪ Set.Ico hi top

variable {blockSize : ℕ} {t w : ℕ → UInt8} {p q hi top : ℕ}

/-- After an extension of the agreement over `[p, q)` everything before `q` is known. -/
lemma agree_known_of_union {w t : ℕ → UInt8} (h : Agree w t (known p hi top ∪ Set.Ico p q)) :
    Agree w t (known q hi top) := by
  intro x hx
  apply h x
  rcases hx with hx | hx
  · by_cases hp : x < p
    · exact Or.inl (Or.inl hp)
    · exact Or.inr ⟨Nat.le_of_not_lt hp, hx⟩
  · exact Or.inl (Or.inr hx)

/-- Copying the literals of the target window keeps the windows in agreement. -/
lemma copyLiterals_segment (rest : List UInt8) {n : ℕ} (hfit : p + n ≤ blockSize)
    (hw : Agree w t (known p hi top)) :
    ∃ w', copyLiterals blockSize n (segment t p n ++ rest) ⟨w, p⟩ = some (⟨w', p + n⟩, rest) ∧
      Agree w' t (known (p + n) hi top) := by
  refine ⟨store w p (segment t p n), ?_, agree_known_of_union (hw.store p n)⟩
  have hcond : (0 : Int) ≤ n ∧ (p : Int) + n ≤ blockSize := by omega
  rw [copyLiterals, if_pos hcond, Int.toNat_natCast, takeExact_append (length_segment t p n)]
  rfl

/-- Copying a true match keeps the windows in agreement. -/
lemma copyMatch_of_true {r : Record} (hsize : blockSize < 2 ^ 31) (hhi : hi ≤ blockSize)
    (htop : top ≤ blockSize) (hr : r.True blockSize t hi top)
    (hw : Agree w t (known r.start hi top)) :
    ∃ w', copyMatch blockSize r.offset r.len ⟨w, r.start⟩ = some ⟨w', r.stop⟩ ∧
      Agree w' t (known r.stop hi top) := by
  have hstop := hr.stop_le
  have hoff := hr.offset_le
  have hend : r.stop = r.start + r.len := rfl
  -- the address the decoder computes is the source of the record
  have hsrc : (r.start : Int) - (if (r.offset : Int) ≤ r.start then (r.offset : Int)
      else int32 (r.offset - blockSize)) = (r.source blockSize : ℕ) := by
    unfold Record.source
    by_cases hle : r.offset ≤ r.start
    · rw [if_pos (by exact_mod_cast hle), if_pos hle]
      omega
    · rw [if_neg (by exact_mod_cast hle), if_neg hle, int32_of_mem (by omega) (by omega)]
      omega
  have hfit : r.source blockSize + r.len ≤ blockSize := by
    rcases hr.place with h | h <;> omega
  refine ⟨copyForward w r.start (r.source blockSize) r.len, ?_, ?_⟩
  · rw [copyMatch]
    simp only [hsrc]
    rw [if_pos (by omega), Int.toNat_natCast, Int.toNat_natCast, ← hend]
  · have hagree := hw.copyForward hr.repeats (by rcases hr.place with h | h <;> omega)
      (fun j hj hout => by
        rcases hr.place with h | h
        · exact Or.inl (by simp only [Set.mem_Iio]; omega)
        · exact Or.inr ⟨by omega, by omega⟩)
    exact agree_known_of_union hagree

/-! ## A whole block -/

/-- The literals of a list of records in the window `t`. -/
def literals (t : ℕ → UInt8) (rs : List Record) : List UInt8 :=
  (rs.map fun r => segment t r.dataOffset r.datalen).flatten

/-- The loop over the matches reproduces a chain of true matches. -/
lemma decodeMatches_of_chain (lens offsets datalens rest : List UInt8)
    (hsize : blockSize < 2 ^ 31) (hhi : hi ≤ blockSize) (htop : top ≤ blockSize)
    (rs : List Record) (i p : ℕ) (w : ℕ → UInt8)
    (hchain : Chain (Record.True blockSize t hi top) p rs q)
    (hlens : ∀ j (h : j < rs.length), tableAt lens (i + j) = some (rs[j].len : Int))
    (hoffsets : ∀ j (h : j < rs.length), tableAt offsets (i + j) = some (rs[j].offset : Int))
    (hdatalens : ∀ j (h : j < rs.length), tableAt datalens (i + j) = some (rs[j].datalen : Int))
    (hw : Agree w t (known p hi top)) :
    ∃ w', decodeMatches blockSize lens offsets datalens rs.length i (literals t rs ++ rest) ⟨w, p⟩
        = some (⟨w', q⟩, rest) ∧ Agree w' t (known q hi top) := by
  induction rs generalizing i p w with
  | nil =>
    obtain rfl : p = q := hchain
    exact ⟨w, rfl, hw⟩
  | cons r rs ih =>
    obtain ⟨hstart, htrue, htail⟩ := hchain
    have hfit : p + r.datalen ≤ blockSize := by
      have := htrue.stop_le
      unfold Record.stop at this
      omega
    obtain ⟨w₁, hlit, hw₁⟩ := copyLiterals_segment (literals t rs ++ rest) hfit hw
    have hp : p + r.datalen = r.start := by rw [Record.start, hstart]
    rw [hp] at hlit hw₁
    obtain ⟨w₂, hcopy, hw₂⟩ := copyMatch_of_true hsize hhi htop htrue hw₁
    obtain ⟨w₃, hrest, hw₃⟩ := ih (i + 1) r.stop w₂ htail
      (fun j hj => by rw [Nat.add_right_comm, Nat.add_assoc]; exact hlens (j + 1) (by simpa using hj))
      (fun j hj => by rw [Nat.add_right_comm, Nat.add_assoc]; exact hoffsets (j + 1) (by simpa using hj))
      (fun j hj => by rw [Nat.add_right_comm, Nat.add_assoc]; exact hdatalens (j + 1) (by simpa using hj))
      hw₂
    refine ⟨w₃, ?_, hw₃⟩
    have h₁ := hlens 0 (by simp)
    have h₂ := hoffsets 0 (by simp)
    have h₃ := hdatalens 0 (by simp)
    simp only [Nat.add_zero, List.getElem_cons_zero] at h₁ h₂ h₃
    have hlits : literals t (r :: rs) ++ rest = segment t p r.datalen ++ (literals t rs ++ rest) := by
      simp [literals, hstart]
    rw [hlits, List.length_cons, decodeMatches, h₁, h₂, h₃]
    simp [hlit, hcopy, hrest]

/-- The compressed block without its size word. -/
def blockBody (t : ℕ → UInt8) (rs : List Record) (last : ℕ × ℕ) : List UInt8 :=
  put32 rs.length ++ ((rs.map Record.len).map put32).flatten
    ++ ((rs.map Record.offset).map put32).flatten
    ++ ((rs.map Record.datalen ++ [last.2]).map put32).flatten
    ++ (literals t rs ++ segment t last.1 last.2)

/-- The size word of a block counts the bytes after it. -/
lemma blockBytes_eq (t : ℕ → UInt8) (rs : List Record) (last : ℕ × ℕ) :
    blockBytes t rs last = put32 (blockBody t rs last).length ++ blockBody t rs last := by
  have hlen : (blockBody t rs last).length = 4 * 2 + 4 * rs.length + 4 * rs.length
      + 4 * (rs.length + 1)
      + ((rs.map fun r => segment t r.dataOffset r.datalen).flatten
        ++ segment t last.1 last.2).length - 4 := by
    simp only [blockBody, literals, List.length_append, length_flatten_put32, List.length_map,
      List.length_cons, List.length_nil, put32, length_leBytes]
    omega
  rw [hlen, blockBytes]
  simp [blockBody, literals, Function.comp_def]

/-- **A block of true matches is decoded.**  The decoder ends at the end of the last literal run,
its window agrees with the encoder's up to there, and the previous lap is still known. -/
theorem decodeBlock_blockBody {rs : List Record} {n : ℕ}
    (hsize : blockSize < 2 ^ 31) (hhi : hi ≤ blockSize) (htop : top ≤ blockSize)
    (hchain : Chain (Record.True blockSize t hi top) p rs q) (hq : q + n ≤ hi)
    (hnum : rs.length < 2 ^ 31) (hw : Agree w t (known p hi top)) :
    ∃ w', decodeBlock blockSize (blockBody t rs (q, n)) ⟨w, p⟩ = some ⟨w', q + n⟩ ∧
      Agree w' t (known (q + n) hi top) := by
  have hrecord : ∀ r ∈ rs, r.len < 2 ^ 31 ∧ r.offset < 2 ^ 31 ∧ r.datalen < 2 ^ 31 := by
    intro r hr
    have htrue := hchain.forall_mem r hr
    have h₁ := htrue.stop_le
    have h₂ := htrue.offset_le
    unfold Record.stop at h₁
    omega
  set lens := ((rs.map Record.len).map put32).flatten with hlens
  set offsets := ((rs.map Record.offset).map put32).flatten with hoffsets
  set datalens := ((rs.map Record.datalen ++ [n]).map put32).flatten with hdatalens
  set lits := literals t rs ++ segment t q n with hlits
  have hbody : blockBody t rs (q, n) = put32 rs.length ++ (lens ++ (offsets ++ (datalens ++ lits))) := by
    simp only [blockBody, List.append_assoc, ← hlens, ← hoffsets, ← hdatalens, ← hlits]
  have hlen₁ : lens.length = 4 * rs.length := by rw [hlens, length_flatten_put32, List.length_map]
  have hlen₂ : offsets.length = 4 * rs.length := by
    rw [hoffsets, length_flatten_put32, List.length_map]
  have hlen₃ : datalens.length = 4 * (rs.length + 1) := by
    rw [hdatalens, length_flatten_put32, List.length_append, List.length_map, List.length_singleton]
  have hfirst : tableAt (put32 rs.length ++ (lens ++ (offsets ++ (datalens ++ lits)))) 0
      = some (rs.length : Int) := by
    simpa using tableAt_put32 [rs.length] (lens ++ (offsets ++ (datalens ++ lits)))
      (by simpa using hnum) 0 (by simp)
  obtain ⟨w₁, hmatches, hw₁⟩ := decodeMatches_of_chain
    (lens ++ (offsets ++ (datalens ++ lits))) (offsets ++ (datalens ++ lits)) (datalens ++ lits)
    (segment t q n) hsize hhi htop rs 0 p w hchain
    (fun j hj => by
      rw [Nat.zero_add, hlens, tableAt_put32 _ _ (by simpa using fun r hr => (hrecord r hr).1) j
        (by simpa using hj), List.getElem_map])
    (fun j hj => by
      rw [Nat.zero_add, hoffsets, tableAt_put32 _ _ (by simpa using fun r hr => (hrecord r hr).2.1) j
        (by simpa using hj), List.getElem_map])
    (fun j hj => by
      rw [Nat.zero_add, hdatalens, tableAt_put32 _ _ ?_ j (by simp; omega)]
      · rw [List.getElem_append_left (by simpa using hj), List.getElem_map]
      · intro x hx
        rcases List.mem_append.mp hx with hx | hx
        · obtain ⟨r, hr, rfl⟩ := List.mem_map.mp hx
          exact (hrecord r hr).2.2
        · obtain rfl := List.mem_singleton.mp hx
          omega)
    hw
  have hlast : tableAt (datalens ++ lits) rs.length = some (n : Int) := by
    rw [hdatalens, tableAt_put32 _ _ ?_ rs.length (by simp)]
    · simp
    · intro x hx
      rcases List.mem_append.mp hx with hx | hx
      · obtain ⟨r, hr, rfl⟩ := List.mem_map.mp hx
        exact (hrecord r hr).2.2
      · obtain rfl := List.mem_singleton.mp hx
        omega
  have hfit : q + n ≤ blockSize := by omega
  obtain ⟨w₂, htail, hw₂⟩ := copyLiterals_segment [] hfit hw₁
  refine ⟨w₂, ?_, hw₂⟩
  rw [List.append_nil] at htail
  have hput : (put32 rs.length).length = 4 := length_leBytes 4 _
  rw [hbody, decodeBlock, hfirst]
  simp only [Option.bind_eq_bind, Option.bind_some, Int.toNat_natCast, List.drop_left' hput,
    List.drop_left' hlen₁, List.drop_left' hlen₂, List.drop_left' hlen₃, hlast]
  rw [if_neg (by omega), hlits, hmatches]
  simp [htail]

end DArc.Rep
