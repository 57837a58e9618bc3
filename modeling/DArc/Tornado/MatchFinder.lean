import Mathlib.Data.Nat.Bits
import DArc.Compression.Common
import DArc.Library.RunningSums

/-!
# The match finders of Tornado

A match finder keeps positions of the buffer in a hash table, and looks there for strings that are equal to the one at the
current position.  Nothing in the table says that a match is one, so every candidate is compared with the bytes in the
buffer.  What has to be right in the table is that it holds positions in front of the current one only.

Lazy matching also looks one position ahead, and keeps the match that it finds there until the next call.

### Outline

* `MatchFinder`: the operations;
* `matchLen`: the loops that compare;
* `MatchAt`, `MatchFinder.Sound`, `MatchFinder.Correct`: what is asked of a match finder;
* `matchFinder1`, `matchFinder2`: finders with one and with two entries for a hash value;
* `lazyMatching`: the transformer.

### Main results

* `MatchFinder.Sound.correct`: a finder with a table can be used as it is;
* `MatchFinder.Sound.lazy`: it can be made lazy, if it never finds the length 0.
-/

namespace DArc.Tornado

/-- `MAX_HASHED_BYTES`. -/
def maxHashedBytes : ℕ := 12

/-- `matchend`: where a match may end. -/
def matchend (bufend : Int) : Int := bufend - min (maxHashedBytes : Int) bufend

/-- The operations of a match finder; positions count from the beginning of the buffer.  `findMatchlen` returns the
pointer of the match, too. -/
structure MatchFinder (M : Type) where
  minLength : ℕ
  new : Memory → M
  findMatchlen : Memory → Int → Int → M → (ℕ × Int) × M
  updateHash : Memory → Int → ℕ → M → M
  clearHash : Memory → M → M
  shift : Int → M → M
  invalidateMatch : M → M

/-- `ChangePair`. -/
def ChangePair (smallDist bigDist : ℕ) : Prop := bigDist / 64 > smallDist

instance (smallDist bigDist : ℕ) : Decidable (ChangePair smallDist bigDist) := inferInstanceAs (Decidable (_ > _))

/-! ## The tables -/

/-- `HashShift`, `HashMask` and `hash_row_width`. -/
structure HashSettings where
  hashShift : ℕ
  hashMask : ℕ
  hashRowWidth : ℕ

/-- The constructor of `BaseMatchFinder`. -/
def HashSettings.new (hashsize hashRowWidth : ℕ) : HashSettings :=
  let hashSize := 2 ^ lb hashsize / 4
  ⟨32 - lb hashSize, Nat.ldiff (uint32 (hashSize - 1)) (uint32 (roundupToPowerOf hashRowWidth - 1)), hashRowWidth⟩

/-- `hash`. -/
def HashSettings.hash (h : HashSettings) (x : ℕ) : ℕ := ((x * 123456791 % 2 ^ 32) >>> h.hashShift) &&& h.hashMask

/-- `HTable` and `q`. -/
structure BaseMatchFinder where
  hTable : ℕ → ℕ
  q : Int

/-- `clear_hash`. -/
def BaseMatchFinder.clearHash (s : BaseMatchFinder) : BaseMatchFinder := { s with hTable := fun _ => 1 }

/-- An entry after the data were shifted. -/
def shiftEntry (sh : Int) (x : ℕ) : ℕ := if uint32 sh < x then uint32 (x - sh) else 1

/-- `shift`. -/
def BaseMatchFinder.shift (sh : Int) (s : BaseMatchFinder) : BaseMatchFinder :=
  { s with hTable := fun i => shiftEntry sh (s.hTable i) }

/-! ## Comparing -/

/-- The loop that compares four bytes at once; it may stop some bytes ahead of the end. -/
def skipWords (m : Memory) (p q bufend : Int) (ahead : ℕ) : ℕ → ℕ → ℕ
  | 0, len => len
  | turns + 1, len =>
    if p + len + ahead < bufend ∧ m.word (p + len) 4 = m.word (q + len) 4 then
      skipWords m p q bufend ahead turns (len + 4)
    else len

/-- The loop that compares bytes. -/
def skipBytes (m : Memory) (p q bufend : Int) : ℕ → ℕ → ℕ
  | 0, len => len
  | turns + 1, len =>
    if p + len < bufend ∧ m (p + len) = m (q + len) then skipBytes m p q bufend turns (len + 1) else len

/-- Both loops, from a length on. -/
def matchLen (m : Memory) (p q bufend : Int) (ahead len : ℕ) : ℕ :=
  let turns := (bufend - p).toNat
  skipBytes m p q bufend turns (skipWords m p q bufend ahead turns len)

/-- Strings are equal up to a length. -/
def Same (m : Memory) (p q : Int) (len : ℕ) : Prop := ∀ i : ℕ, i < len → m (p + i) = m (q + i)

/-- A match of the string at `p`, which does not go beyond the end of the data. -/
structure MatchAt (m : Memory) (p e : Int) (len : ℕ) (q : Int) : Prop where
  lt : q < p
  le : p + len ≤ e
  same : Same m p q len

/-- If the bytes in front of a match are equal, it can start one byte earlier. -/
lemma MatchAt.extend {m : Memory} {p e q : Int} {len : ℕ} (h : MatchAt m (p + 1) e len q) (hbyte : m (q - 1) = m p) :
    MatchAt m p e (len + 1) (q - 1) := by
  have hlt := h.lt
  have hle := h.le
  refine ⟨by omega, by push_cast; omega, fun i hi => ?_⟩
  cases i with
  | zero => rw [Nat.cast_zero, add_zero, add_zero, hbyte]
  | succ i =>
    have hnext := h.same i (by omega)
    push_cast
    rwa [show p + ((i : Int) + 1) = p + 1 + i by ring, show q - 1 + ((i : Int) + 1) = q + i by ring]

section Compare

variable {m : Memory} {p q : Int} {len : ℕ}

/-- Equal words have equal bytes. -/
lemma eq_of_word_eq {a b : Int} {n : ℕ} (h : m.word a n = m.word b n) {i : ℕ} (hi : i < n) :
    m (a + i) = m (b + i) := by
  rw [← Memory.ofNat_word_div m a hi, h, Memory.ofNat_word_div m b hi]

/-- Another part is equal, too. -/
lemma Same.append (h : Same m p q len) {n : ℕ} (hn : ∀ i : ℕ, i < n → m (p + len + i) = m (q + len + i)) :
    Same m p q (len + n) := by
  intro i hi
  by_cases hlt : i < len
  · exact h i hlt
  · have hbyte := hn (i - len) (by omega)
    rwa [show p + len + ((i - len : ℕ) : Int) = p + i by omega, show q + len + ((i - len : ℕ) : Int) = q + i by omega]
      at hbyte

/-- Another word is equal. -/
lemma Same.word (h : Same m p q len) {n : ℕ} (hword : m.word (p + len) n = m.word (q + len) n) :
    Same m p q (len + n) := h.append fun _ hi => eq_of_word_eq hword hi

/-- The first word is equal. -/
lemma same_of_word {n : ℕ} (h : m.word p n = m.word q n) : Same m p q n := fun _ hi => eq_of_word_eq h hi

/-- The beginnings are equal, too. -/
lemma Same.mono (h : Same m p q len) {n : ℕ} (hn : n ≤ len) : Same m p q n := fun i hi => h i (hi.trans_le hn)

/-- The loop over words. -/
lemma skipWords_spec (bufend : Int) (ahead turns : ℕ) (h : Same m p q len) :
    Same m p q (skipWords m p q bufend ahead turns len) ∧
      (skipWords m p q bufend ahead turns len = len ∨
        p < bufend ∧ p + skipWords m p q bufend ahead turns len ≤ bufend + 3) := by
  induction turns generalizing len with
  | zero => exact ⟨h, .inl rfl⟩
  | succ turns ih =>
    rw [skipWords]
    split
    · next hcond =>
      obtain ⟨hsame, hend⟩ := ih (h.word hcond.2)
      refine ⟨hsame, .inr ⟨by omega, ?_⟩⟩
      rcases hend with hend | hend
      · rw [hend]
        push_cast
        omega
      · exact hend.2
    · exact ⟨h, .inl rfl⟩

/-- The loop over bytes. -/
lemma skipBytes_spec (bufend : Int) (turns : ℕ) (h : Same m p q len) :
    Same m p q (skipBytes m p q bufend turns len) ∧
      (skipBytes m p q bufend turns len = len ∨
        p < bufend ∧ p + skipBytes m p q bufend turns len ≤ bufend) := by
  induction turns generalizing len with
  | zero => exact ⟨h, .inl rfl⟩
  | succ turns ih =>
    rw [skipBytes]
    split
    · next hcond =>
      have hbyte : ∀ i : ℕ, i < 1 → m (p + len + i) = m (q + len + i) := fun i hi => by
        rw [Nat.lt_one_iff.mp hi, Nat.cast_zero, add_zero, add_zero]
        exact hcond.2
      obtain ⟨hsame, hend⟩ := ih (h.append hbyte)
      refine ⟨hsame, .inr ⟨by omega, ?_⟩⟩
      rcases hend with hend | hend
      · rw [hend]
        push_cast
        omega
      · exact hend.2
    · exact ⟨h, .inl rfl⟩

/-- **What the loops have compared** is equal, and they go at most three bytes beyond their end. -/
theorem matchLen_spec (bufend : Int) (ahead : ℕ) (h : Same m p q len) :
    Same m p q (matchLen m p q bufend ahead len) ∧
      (matchLen m p q bufend ahead len = len ∨
        p < bufend ∧ p + matchLen m p q bufend ahead len ≤ bufend + 3) := by
  obtain ⟨hwords, hend⟩ := skipWords_spec bufend ahead (bufend - p).toNat h
  obtain ⟨hbytes, hend'⟩ := skipBytes_spec bufend (bufend - p).toNat hwords
  unfold matchLen
  dsimp only
  refine ⟨hbytes, ?_⟩
  rcases hend' with hend' | hend'
  · rw [hend']
    exact hend
  · exact .inr ⟨hend'.1, by omega⟩

end Compare

/-! ## What is asked of a match finder -/

namespace MatchFinder

variable {M : Type}

/-- What a search is expected to find: a match from `first` on, if it is long enough. -/
def Finds (m : Memory) (first p e : Int) (minLength : ℕ) (found : ℕ × Int) : Prop :=
  minLength ≤ found.1 → first ≤ found.2 ∧ MatchAt m p e found.1 found.2

/-- What is asked of a match finder: the invariant, which is about the data up to their end, is that of a position.  It
is kept when more data are read, and when the data are shifted or the buffer is filled again. -/
structure Correct (mf : MatchFinder M) (Good : M → Memory → Int → Int → Prop) : Prop where
  two_le : 2 ≤ mf.minLength
  le : mf.minLength ≤ 255
  new (m : Memory) (e : Int) : Good (mf.new m) m 4 e
  find {s m p e} : Good s m p e → p < e → e < 2 ^ 32 →
    Finds m 0 p e mf.minLength (mf.findMatchlen m p (matchend e) s).1 ∧
      Good (mf.findMatchlen m p (matchend e) s).2 m (p + 1) e
  update {s m p e len} : Good s m (p + 1) e → mf.minLength ≤ len → p + len ≤ e → e < 2 ^ 32 →
    Good (mf.updateHash m p len s) m (p + len) e
  invalidate {s m p e} : Good s m p e → ∀ m' e', Good (mf.invalidateMatch s) m' p e'
  grow {s m m' p e e'} : Good s m p e → e ≤ e' → (∀ x < e, m' x = m x) → Good s m' p e'
  shift {s m p e sh} : Good s m p e → 0 ≤ sh → 2 ≤ p - sh → p < 2 ^ 32 →
    ∀ m' e', Good (mf.invalidateMatch (mf.shift sh s)) m' (p - sh) e'
  clear (s : M) (m m' : Memory) (e : Int) : Good (mf.invalidateMatch (mf.clearHash m s)) m' 2 e

/-- What is asked of a finder whose invariant does not depend on the data.  A match that it finds can be extended by one
byte in front; a match that is skipped has the length `least` at least. -/
structure Sound (mf : MatchFinder M) (least : ℕ) (Good : M → Int → Prop) : Prop where
  two_le : 2 ≤ mf.minLength
  le : mf.minLength ≤ 255
  new (m : Memory) : Good (mf.new m) 4
  pos {s p} : Good s p → 2 ≤ p
  mono {s p} : Good s p → Good s (p + 1)
  find {s m p e} : Good s p → p ≤ e → e < 2 ^ 32 →
    Finds m 1 p e mf.minLength (mf.findMatchlen m p (matchend e) s).1 ∧
      Good (mf.findMatchlen m p (matchend e) s).2 (p + 1)
  update {s m p e len} : Good s (p + 1) → least ≤ len → p + len ≤ e → e < 2 ^ 32 →
    Good (mf.updateHash m p len s) (p + len)
  invalidate {s p} : Good s p → Good (mf.invalidateMatch s) p
  shift {s p sh} : Good s p → 0 ≤ sh → 2 ≤ p - sh → p ≤ 2 ^ 32 → Good (mf.shift sh s) (p - sh)
  clear (s : M) (m : Memory) : Good (mf.clearHash m s) 2

variable {mf : MatchFinder M} {least : ℕ} {Good : M → Int → Prop}

/-- **A finder with a table** can be used as it is. -/
theorem Sound.correct (h : mf.Sound least Good) (hleast : least ≤ mf.minLength) :
    mf.Correct fun s _ p _ => Good s p where
  two_le := h.two_le
  le := h.le
  new m _ := h.new m
  find := by
    intro s m p e hgood hlt he
    obtain ⟨hfinds, hnext⟩ := h.find (m := m) hgood hlt.le he
    refine ⟨fun hlen => ?_, hnext⟩
    obtain ⟨hpos, hmatch⟩ := hfinds hlen
    exact ⟨hpos.trans' zero_le_one, hmatch⟩
  update := fun hgood hlen hle he => h.update hgood (hleast.trans hlen) hle he
  invalidate := fun hgood _ _ => h.invalidate hgood
  grow := fun hgood _ _ => hgood
  shift := fun hgood hsh hle hlt _ _ => h.invalidate (h.shift hgood hsh hle hlt.le)
  clear := fun s m _ _ => h.invalidate (h.clear s m)

end MatchFinder

/-! ## Tables that hold positions in front of the current one -/

/-- The entries of a table are positions in front of `p`, but not the first one. -/
def Below (t : ℕ → ℕ) (p : Int) : Prop := 2 ≤ p ∧ ∀ i, 1 ≤ t i ∧ (t i : Int) < p

namespace Below

variable {t : ℕ → ℕ} {p : Int}

/-- A later position. -/
lemma mono (h : Below t p) {p' : Int} (hle : p ≤ p') : Below t p' :=
  ⟨h.1.trans hle, fun i => ⟨(h.2 i).1, (h.2 i).2.trans_le hle⟩⟩

/-- A position is put into a table. -/
lemma update (h : Below t p) {i x : ℕ} (hpos : 1 ≤ x) (hlt : (x : Int) < p) : Below (Function.update t i x) p := by
  refine ⟨h.1, fun j => ?_⟩
  rw [Function.update_apply]
  split
  · exact ⟨hpos, hlt⟩
  · exact h.2 j

/-- A place of the buffer is put into a table. -/
lemma update_place (h : Below t p) {i : ℕ} {x : Int} (hpos : 1 ≤ x) (hlt : x < p) (hx : x < 2 ^ 32) :
    Below (Function.update t i (uint32 x)) p := by
  have hword : uint32 x = x.toNat := by unfold uint32; omega
  rw [hword]
  exact h.update (by omega) (by omega)

/-- A cleared table. -/
lemma clear : Below (fun _ => 1) 2 := ⟨le_rfl, fun _ => ⟨le_rfl, (by decide : ((1 : ℕ) : Int) < 2)⟩⟩

/-- An entry after the data were shifted. -/
lemma shiftEntry_lt {sh : Int} {x : ℕ} (hsh : 0 ≤ sh) (hle : 2 ≤ p - sh) (hp : p ≤ 2 ^ 32) (hx : (x : Int) < p) :
    1 ≤ shiftEntry sh x ∧ (shiftEntry sh x : Int) < p - sh := by
  unfold shiftEntry uint32
  split <;> omega

/-- A table after the data were shifted. -/
lemma shift (h : Below t p) {sh : Int} (hsh : 0 ≤ sh) (hle : 2 ≤ p - sh) (hp : p ≤ 2 ^ 32) :
    Below (fun i => shiftEntry sh (t i)) (p - sh) :=
  ⟨hle, fun i => shiftEntry_lt hsh hle hp (h.2 i).2⟩

end Below

/-- A match that has been compared does not go beyond the end of the data. -/
lemma matchAt_matchLen {m : Memory} {p q e : Int} {ahead len minLength : ℕ} (hp : 0 < p) (hlt : q < p)
    (h : Same m p q len) (hlen : len < minLength) (hmin : minLength ≤ matchLen m p q (matchend e) ahead len) :
    MatchAt m p e (matchLen m p q (matchend e) ahead len) q := by
  obtain ⟨hsame, hend⟩ := matchLen_spec (matchend e) ahead h
  have hhashed : (maxHashedBytes : Int) = 12 := rfl
  unfold matchend at hend hmin hsame ⊢
  exact ⟨hlt, by omega, hsame⟩

/-! ## One entry for a hash value -/

/-- `MatchFinder1`; the hash is not updated behind a match. -/
def matchFinder1 (h : HashSettings) (q₀ : Int) : MatchFinder BaseMatchFinder where
  minLength := 4
  new _ := BaseMatchFinder.clearHash ⟨fun _ => 0, q₀⟩
  findMatchlen m p bufend s :=
    let i := h.hash (m.word p 4)
    let q : Int := s.hTable i
    let s := ⟨Function.update s.hTable i (uint32 p), q⟩
    if m.word p 4 = m.word q 4 then ((matchLen m p q bufend 4 3, q), s) else ((3, q), s)
  updateHash _ _ _ s := s
  clearHash _ s := s.clearHash
  shift := BaseMatchFinder.shift
  invalidateMatch s := s

/-- The table of `MatchFinder1` is right. -/
theorem matchFinder1_sound (h : HashSettings) (q₀ : Int) : (matchFinder1 h q₀).Sound 1 fun s p => Below s.hTable p where
  two_le := (by decide : 2 ≤ 4)
  le := (by decide : 4 ≤ 255)
  new _ := Below.clear.mono (by decide)
  pos := And.left
  mono := fun hbelow => hbelow.mono (Int.le_add_one le_rfl)
  find := by
    intro s m p e hbelow hle he
    have hpos := hbelow.1
    have hentry := hbelow.2 (h.hash (m.word p 4))
    unfold matchFinder1
    dsimp only
    refine ⟨?_, ?_⟩
    · split
      · next hword =>
        exact fun hmin => ⟨by dsimp only; omega, matchAt_matchLen (by omega) hentry.2
          ((same_of_word hword).mono (by decide)) (by decide) hmin⟩
      · exact fun hmin => absurd hmin (by decide : ¬4 ≤ 3)
    · have hnext := (hbelow.mono (Int.le_add_one le_rfl)).update_place (i := h.hash (m.word p 4)) (x := p) (by omega)
        (by omega) (by omega)
      split <;> exact hnext
  update := fun hbelow hleast _ _ => hbelow.mono (by omega)
  invalidate := id
  shift := fun hbelow hsh hle hlt => hbelow.shift hsh hle hlt
  clear := fun _ _ => .clear

/-! ## Two entries for a hash value -/

/-- A place is put in front of the first entry. -/
def pushEntry (t : ℕ → ℕ) (i : ℕ) (p : Int) : ℕ → ℕ := Function.update (Function.update t (i + 1) (t i)) i (uint32 p)

/-- `MatchFinder2`. -/
def matchFinder2 (h : HashSettings) (q₀ : Int) : MatchFinder BaseMatchFinder where
  minLength := 4
  new _ := BaseMatchFinder.clearHash ⟨fun _ => 0, q₀⟩
  findMatchlen m p bufend s :=
    let i := h.hash (m.word p 4)
    let q₁ : Int := s.hTable (i + 1)
    let q : Int := s.hTable i
    let t := pushEntry s.hTable i p
    if m.word p 4 = m.word q 4 then
      let len := matchLen m p q bufend 4 3
      if m (p + len) = m (q₁ + len) then
        let len₁ := skipBytes m p q₁ bufend (bufend - p).toNat 0
        if len₁ > len then ((len₁, q₁), ⟨t, q₁⟩) else ((len, q), ⟨t, q⟩)
      else ((len, q), ⟨t, q⟩)
    else if m.word p 4 = m.word q₁ 4 then ((matchLen m p q₁ bufend 4 3, q₁), ⟨t, q₁⟩)
    else ((3, q), ⟨t, q⟩)
  updateHash m p len s :=
    let insert (p : Int) (s : BaseMatchFinder) : BaseMatchFinder :=
      { s with hTable := pushEntry s.hTable (h.hash (m.word p 4)) p }
    insert (p + len - 1) (insert (p + len - 2) (insert (p + 1) s))
  clearHash _ s := s.clearHash
  shift := BaseMatchFinder.shift
  invalidateMatch s := s

/-- A place is put in front of the first entry. -/
lemma Below.push {t : ℕ → ℕ} {p : Int} (h : Below t p) {i : ℕ} {x : Int} (hpos : 1 ≤ x) (hlt : x < p)
    (hx : x < 2 ^ 32) : Below (pushEntry t i x) p :=
  (h.update (h.2 i).1 (h.2 i).2).update_place hpos hlt hx

/-- The table of `MatchFinder2` is right. -/
theorem matchFinder2_sound (h : HashSettings) (q₀ : Int) : (matchFinder2 h q₀).Sound 2 fun s p => Below s.hTable p where
  two_le := (by decide : 2 ≤ 4)
  le := (by decide : 4 ≤ 255)
  new _ := Below.clear.mono (by decide)
  pos := And.left
  mono := fun hbelow => hbelow.mono (Int.le_add_one le_rfl)
  find := by
    intro s m p e hbelow hle he
    have hpos := hbelow.1
    have hentry := hbelow.2 (h.hash (m.word p 4))
    have hentry₁ := hbelow.2 (h.hash (m.word p 4) + 1)
    have hnext := (hbelow.mono (Int.le_add_one le_rfl)).push (i := h.hash (m.word p 4)) (x := p) (by omega)
      (by omega) (by omega)
    have hfour (q : ℕ) (hq : 1 ≤ q ∧ (q : Int) < p) (hword : m.word p 4 = m.word q 4) :
        MatchFinder.Finds m 1 p e 4 (matchLen m p q (matchend e) 4 3, q) := fun hmin =>
      ⟨by dsimp only; omega, matchAt_matchLen (by omega) hq.2 ((same_of_word hword).mono (by decide)) (by decide) hmin⟩
    unfold matchFinder2
    dsimp only
    split_ifs with hword hbyte hlonger hword₁
    · refine ⟨fun hmin => ⟨by dsimp only; omega, ?_⟩, hnext⟩
      obtain ⟨hsame, hend⟩ := skipBytes_spec (matchend e) (matchend e - p).toNat
        (fun i hi => absurd hi (Nat.not_lt_zero i) : Same m p (s.hTable (h.hash (m.word p 4) + 1)) 0)
      refine ⟨hentry₁.2, ?_, hsame⟩
      have hhashed : (maxHashedBytes : Int) = 12 := rfl
      dsimp only at hmin ⊢
      unfold matchend at hend hmin ⊢
      omega
    · exact ⟨hfour _ hentry hword, hnext⟩
    · exact ⟨hfour _ hentry hword, hnext⟩
    · exact ⟨hfour _ hentry₁ hword₁, hnext⟩
    · exact ⟨fun hmin => absurd hmin (by decide : ¬4 ≤ 3), hnext⟩
  update := by
    intro s m p e len hbelow hleast hle he
    have hpos := hbelow.1
    have hlater := hbelow.mono (by omega : p + 1 ≤ p + len)
    exact ((hlater.push (by omega) (by omega) (by omega)).push (by omega) (by omega) (by omega)).push
      (by omega) (by omega) (by omega)
  invalidate := id
  shift := fun hbelow hsh hle hlt => hbelow.shift hsh hle hlt
  clear := fun _ _ => .clear

/-! ## Lazy matching -/

/-- The state of `LazyMatching`. -/
structure LazyMatching (M : Type) where
  mf : M
  nextlen : ℕ
  prevq : Int
  nextq : Int

/-- `find_matchlen` of `LazyMatching`. -/
def LazyMatching.findMatchlen {M : Type} (mf : MatchFinder M) (m : Memory) (p bufend : Int) (s : LazyMatching M) :
    (ℕ × Int) × LazyMatching M :=
  let s :=
    if s.nextlen = 0 then
      let found := mf.findMatchlen m p bufend s.mf
      { s with mf := found.2, nextlen := found.1.1, nextq := found.1.2 }
    else s
  let prevlen := s.nextlen
  let prevq := s.nextq
  let found := mf.findMatchlen m (p + 1) bufend s.mf
  let inner := found.2
  let nextlen := found.1.1
  let nextq := found.1.2
  let nextdist := uint32 (p + 1 - nextq)
  let prevdist := uint32 (p - prevq)
  if nextlen ≥ mf.minLength ∧ m (nextq - 1) = m p ∧
      (nextlen + 1 ≥ prevlen ∧ nextdist < prevdist ∨
        nextlen + 1 = prevlen + 1 ∧ ¬ChangePair prevdist nextdist ∨
        nextlen + 1 > prevlen + 1 ∨
        nextlen + 1 + 1 ≥ prevlen ∧ prevlen ≥ mf.minLength ∧ ChangePair nextdist prevdist) then
    ((nextlen + 1, nextq - 1), ⟨inner, nextlen, nextq - 1, nextq⟩)
  else if nextlen ≥ prevlen ∧ nextdist < prevdist / 4 ∨
      nextlen = prevlen + 1 ∧ ¬ChangePair prevdist nextdist ∨
      nextlen > prevlen + 1 ∨
      nextlen + 1 ≥ prevlen ∧ prevlen ≥ mf.minLength ∧ ChangePair nextdist prevdist then
    ((mf.minLength - 1, prevq), ⟨inner, nextlen, prevq, nextq⟩)
  else ((prevlen, prevq), ⟨inner, nextlen, prevq, nextq⟩)

/-- `LazyMatching`; the pointers of a new one point anywhere. -/
def lazyMatching {M : Type} (mf : MatchFinder M) (q₀ : Int) : MatchFinder (LazyMatching M) where
  minLength := mf.minLength
  new m := ⟨mf.new m, 0, q₀, q₀⟩
  findMatchlen := LazyMatching.findMatchlen mf
  updateHash m p len s := { s with mf := mf.updateHash m (p + 1) (len - 1) s.mf, nextlen := 0 }
  clearHash m s := { s with mf := mf.clearHash m s.mf, nextlen := 0 }
  shift sh s := { s with mf := mf.shift sh s.mf, nextq := s.nextq - sh }
  invalidateMatch s := { s with mf := mf.invalidateMatch s.mf, nextlen := mf.minLength - 1 }

namespace MatchFinder

variable {M : Type} {mf : MatchFinder M} {least : ℕ} {Good : M → Int → Prop}

/-- The invariant of a lazy finder: the next position may be in the table already, and then the match that was found
there is kept. -/
def LazyGood (mf : MatchFinder M) (Good : M → Int → Prop) (s : LazyMatching M) (m : Memory) (p e : Int) : Prop :=
  if s.nextlen = 0 then Good s.mf p
  else Good s.mf (p + 1) ∧ Finds m 1 p e mf.minLength (s.nextlen, s.nextq)

/-- Nothing is found in a finder that was invalidated. -/
lemma Sound.lazyGood_invalidate (h : mf.Sound least Good) (q₀ : Int) {s : LazyMatching M} {p : Int}
    (hgood : Good s.mf (p + 1)) (m : Memory) (e : Int) : LazyGood mf Good ((lazyMatching mf q₀).invalidateMatch s) m p e := by
  have hmin := h.two_le
  have hnextlen : ((lazyMatching mf q₀).invalidateMatch s).nextlen = mf.minLength - 1 := rfl
  rw [LazyGood, if_neg (by omega)]
  refine ⟨h.invalidate hgood, fun hlen => ?_⟩
  dsimp only at hlen
  omega

/-- The next position can be put into the table. -/
lemma LazyGood.next (h : mf.Sound least Good) {s : LazyMatching M} {m : Memory} {p e : Int}
    (hgood : LazyGood mf Good s m p e) :
    Good s.mf (p + 1) := by
  rw [LazyGood] at hgood
  split at hgood
  · exact h.mono hgood
  · exact hgood.1

/-- More data can be read. -/
lemma LazyGood.grow {s : LazyMatching M} {m m' : Memory} {p e e' : Int} (hgood : LazyGood mf Good s m p e) (hle : e ≤ e')
    (hsame : ∀ x < e, m' x = m x) : LazyGood mf Good s m' p e' := by
  rw [LazyGood] at hgood ⊢
  split_ifs at hgood ⊢
  · exact hgood
  · refine ⟨hgood.1, fun hlen => ?_⟩
    obtain ⟨hfirst, hlt, hend, hmatch⟩ := hgood.2 hlen
    refine ⟨hfirst, hlt, hend.trans hle, fun i hi => ?_⟩
    dsimp only at hi hend hlt
    rw [hsame _ (by omega), hsame _ (by dsimp only; omega)]
    exact hmatch i hi

/-- **A finder with a table can be made lazy**, if it never finds the length 0: that would say that nothing has been
searched yet. -/
theorem Sound.lazy (h : mf.Sound least Good) (hleast : least < mf.minLength)
    (hpos : ∀ m p bufend s, (mf.findMatchlen m p bufend s).1.1 ≠ 0) (q₀ : Int) :
    (lazyMatching mf q₀).Correct (LazyGood mf Good) where
  two_le := h.two_le
  le := h.le
  new m _ := h.new m
  find := by
    intro s m p e hgood hlt he
    -- the match at `p`, which may be known already
    obtain ⟨t, ht, hinner, hfound⟩ : ∃ t, t = (if s.nextlen = 0 then
        { s with
          mf := (mf.findMatchlen m p (matchend e) s.mf).2
          nextlen := (mf.findMatchlen m p (matchend e) s.mf).1.1
          nextq := (mf.findMatchlen m p (matchend e) s.mf).1.2 } else s) ∧
        Good t.mf (p + 1) ∧ Finds m 1 p e mf.minLength (t.nextlen, t.nextq) := by
      refine ⟨_, rfl, ?_⟩
      unfold LazyGood at hgood
      split_ifs at hgood ⊢
      · obtain ⟨hfinds, hnext⟩ := h.find (m := m) hgood hlt.le he
        exact ⟨hnext, hfinds⟩
      · exact hgood
    obtain ⟨hnext, hafter⟩ := h.find (m := m) hinner (by omega : p + 1 ≤ e) he
    have hlazy (prevq : Int) : LazyGood mf Good ⟨(mf.findMatchlen m (p + 1) (matchend e) t.mf).2,
        (mf.findMatchlen m (p + 1) (matchend e) t.mf).1.1, prevq,
        (mf.findMatchlen m (p + 1) (matchend e) t.mf).1.2⟩ m (p + 1) e := by
      rw [LazyGood, if_neg (hpos _ _ _ _)]
      exact ⟨hafter, hnext⟩
    change Finds m 0 p e mf.minLength (LazyMatching.findMatchlen mf m p (matchend e) s).1 ∧
      LazyGood mf Good (LazyMatching.findMatchlen mf m p (matchend e) s).2 m (p + 1) e
    unfold LazyMatching.findMatchlen
    dsimp only
    rw [← ht]
    split_ifs with hextend hbetter
    · refine ⟨fun _ => ?_, hlazy _⟩
      obtain ⟨hfirst, hmatch⟩ := hnext hextend.1
      exact ⟨by dsimp only; omega, hmatch.extend hextend.2.1⟩
    · have hmin := h.two_le
      exact ⟨fun hlen => by dsimp only at hlen; omega, hlazy _⟩
    · refine ⟨fun hlen => ?_, hlazy _⟩
      obtain ⟨hfirst, hmatch⟩ := hfound hlen
      exact ⟨hfirst.trans' zero_le_one, hmatch⟩
  update := by
    intro s m p e len hgood hlen hle he
    change mf.minLength ≤ len at hlen
    have hmin := h.two_le
    have hupdate := h.update (m := m) (hgood.next h) (by omega : least ≤ len - 1)
      (by omega : p + 1 + ((len - 1 : ℕ) : Int) ≤ e) he
    change Good _ (p + len)
    rwa [show p + 1 + ((len - 1 : ℕ) : Int) = p + len by omega] at hupdate
  invalidate := fun hgood m' e' => h.lazyGood_invalidate q₀ (hgood.next h) m' e'
  grow := fun hgood hle hsame => hgood.grow hle hsame
  shift := by
    intro s m p e sh hgood hsh hle hlt m' e'
    refine h.lazyGood_invalidate q₀ ?_ m' e'
    have hshift := h.shift (hgood.next h) hsh (by omega) (by omega)
    rwa [show p + 1 - sh = p - sh + 1 by ring] at hshift
  clear := fun s m m' e => h.lazyGood_invalidate q₀ (h.mono (h.clear s.mf m)) m' e

end MatchFinder

end DArc.Tornado
