import DArc.Tornado.CachingFinders

/-!
# Match finders that are combined

`Hash3` looks for strings of two and three bytes where the finder inside has found no longer match, and `CombineMF` takes
the better of the matches of two finders.  A finder that is combined need not keep the lengths of the other one: it may
have to skip a match that is shorter than its own ones.

### Outline

* `exactMatchFinder`: matches of four bytes only;
* `hash3`: tables for two and three bytes beside a finder;
* `combineMF`: two finders.

### Main results

* `hash3_sound`, `combineMF_sound`: the tables are right if those of the finders inside are;
* `hash3_ne_zero`, `combineMF_ne_zero`: the length 0 is never found.
-/

namespace DArc.Tornado

/-! ## Matches of four bytes -/

/-- The loop of `find_matchlen` of `ExactMatchFinder` over the entries of a row: the table, and the candidate that was
found.  The entry before is put into every cell. -/
def scanExact (m : Memory) (p bufend : Int) : List ℕ → ℕ → (ℕ → ℕ) → Option ℕ × (ℕ → ℕ)
  | [], _, t => (none, t)
  | i :: is, x, t =>
    let x₁ := t i
    let t := Function.update t i x
    if p - x₁ > 48 * kb then (none, t)
    else if m.word p 4 = m.word x₁ 4 ∧ p + 4 ≤ bufend then (some x₁, t)
    else scanExact m p bufend is x₁ t

/-- `update_hash1` of `ExactMatchFinder`. -/
def BaseMatchFinder.updateExact (h : HashSettings) (m : Memory) (p : Int) (s : BaseMatchFinder) : BaseMatchFinder :=
  { s with hTable := Function.update s.hTable (hashx 4 m p h) (uint32 p) }

/-- `ExactMatchFinder`, for matches of four bytes. -/
def exactMatchFinder (h : HashSettings) (step : ℕ) (q₀ : Int) : MatchFinder BaseMatchFinder where
  minLength := 4
  new _ := BaseMatchFinder.clearHash ⟨fun _ => 0, q₀⟩
  findMatchlen m p bufend s :=
    let i := hashx 4 m p h
    let r := scanExact m p bufend ((List.range h.hashRowWidth).map (i + ·)) (uint32 p) s.hTable
    match r.1 with
    | none => ((3, s.q), { s with hTable := r.2 })
    | some x => ((4, x), ⟨r.2, x⟩)
  updateHash m p len s := skipHash (BaseMatchFinder.updateExact h m) step p len s
  clearHash _ s := s.clearHash
  shift := BaseMatchFinder.shift
  invalidateMatch s := s

section Exact

variable {m : Memory} {p e : Int} {h : HashSettings}

/-- **The entries of a row** are read in turn; those that come have not been changed. -/
theorem scanExact_spec (m : Memory) (bufend : Int) {is : List ℕ} {x : ℕ} {t : ℕ → ℕ} (hdistinct : is.Nodup)
    (ht : Below t (p + 1)) (hlater : ∀ i ∈ is, (t i : Int) < p) (hx : 1 ≤ x ∧ (x : Int) < p + 1) :
    Below (scanExact m p bufend is x t).2 (p + 1) ∧ ∀ q, (scanExact m p bufend is x t).1 = some q →
      1 ≤ q ∧ (q : Int) < p ∧ m.word p 4 = m.word q 4 ∧ p + 4 ≤ bufend := by
  induction is generalizing x t with
  | nil => exact ⟨ht, fun q hq => nomatch (hq : none = some q)⟩
  | cons i is ih =>
    obtain ⟨hnew, hdistinct⟩ := List.nodup_cons.mp hdistinct
    obtain ⟨hi, hlater⟩ := List.forall_mem_cons.mp hlater
    have hnext := ht.update (i := i) hx.1 hx.2
    rw [scanExact]
    split_ifs with hfar hfound
    · exact ⟨hnext, fun q hq => hq.elim⟩
    · refine ⟨hnext, fun q hq => ?_⟩
      obtain rfl := Option.some.inj hq
      exact ⟨(ht.2 i).1, hi, hfound⟩
    · refine ih hdistinct hnext (fun j hj => ?_) (ht.2 i)
      rw [Function.update_of_ne (fun heq : j = i => hnew (heq ▸ hj))]
      exact hlater j hj

/-- **The table of `ExactMatchFinder`** is right. -/
theorem exactMatchFinder_sound (h : HashSettings) (step : ℕ) (q₀ : Int) :
    (exactMatchFinder h step q₀).Sound 1 fun s p => Below s.hTable p where
  two_le := (by decide : 2 ≤ 4)
  le := (by decide : 4 ≤ 255)
  new _ := Below.clear.mono (by decide)
  pos := And.left
  mono := fun hbelow => hbelow.mono (Int.le_add_one le_rfl)
  find := by
    intro s m p e hbelow hle he
    have hpos := hbelow.1
    have hdistinct : ((List.range h.hashRowWidth).map (hashx 4 m p h + ·)).Nodup :=
      List.nodup_range.map fun _ _ heq => Nat.add_left_cancel heq
    have hword : uint32 p = p.toNat := by unfold uint32; omega
    obtain ⟨htable, hfound⟩ := scanExact_spec m (matchend e) hdistinct (hbelow.mono (Int.le_add_one le_rfl))
      (fun i _ => (hbelow.2 i).2) (by omega : 1 ≤ uint32 p ∧ (uint32 p : Int) < p + 1)
    have hend : matchend e ≤ e ∨ e < 0 := by
      unfold matchend
      omega
    unfold exactMatchFinder
    dsimp only
    generalize scanExact m p (matchend e) ((List.range h.hashRowWidth).map (hashx 4 m p h + ·)) (uint32 p) s.hTable = r
      at htable hfound ⊢
    cases hr : r.1 with
    | none => exact ⟨fun hlen => absurd hlen (by decide : ¬4 ≤ 3), htable⟩
    | some x =>
      obtain ⟨hx, hlt, hword, hmatch⟩ := hfound x hr
      exact ⟨fun _ => ⟨by dsimp only; omega, hlt, by dsimp only; omega, same_of_word hword⟩, htable⟩
  update := by
    intro s m p e len hbelow hleast hle he
    have hpos := hbelow.1
    exact skipHash_spec (P := fun s : BaseMatchFinder => Below s.hTable (p + len))
      (fun x s h₁ h₂ hs => hs.update_place (by omega) h₂ (by omega)) (hbelow.mono (by omega))
  invalidate := id
  shift := fun hbelow hsh hle hlt => hbelow.shift hsh hle hlt
  clear := fun _ _ => .clear

end Exact

/-! ## Two and three bytes -/

/-- The state of `Hash3`. -/
structure Hash3 (M : Type) where
  mf : M
  hTable : ℕ → ℕ
  hTable₂ : ℕ → ℕ
  q : Int

namespace Hash3

variable {M : Type}

/-- `hash`. -/
def hash (hash3Log : ℕ) (x : ℕ) : ℕ := (x * 234567913 % 2 ^ 32) >>> (32 - hash3Log)

/-- `hash2`. -/
def hash2 (hash2Log : ℕ) (x : ℕ) : ℕ := (x * 123456791 % 2 ^ 32) >>> (32 - hash2Log)

/-- A pointer after the data were shifted. -/
def shiftPointer (sh : Int) (x : ℕ) : ℕ := if (x : Int) > sh then (x - sh).toNat else 1

/-- `update_hash1`. -/
def updateHash1 (hash3Log hash2Log : ℕ) (fullUpdate : Bool) (m : Memory) (p : Int) (s : Hash3 M) : Hash3 M :=
  { s with
    hTable := Function.update s.hTable (hash hash3Log (m.word p 3)) p.toNat
    hTable₂ := if fullUpdate then Function.update s.hTable₂ (hash2 hash2Log (m.word p 2)) p.toNat else s.hTable₂ }

/-- `find_matchlen`. -/
def findMatchlen (mf : MatchFinder M) (hash3Log hash2Log : ℕ) (m : Memory) (p bufend : Int) (s : Hash3 M) :
    (ℕ × Int) × Hash3 M :=
  let found := mf.findMatchlen m p bufend s.mf
  let s := { s with mf := found.2 }
  let h := hash hash3Log (m.word p 3)
  let h₂ := hash2 hash2Log (m.word p 2)
  let t := Function.update s.hTable h p.toNat
  let t₂ := Function.update s.hTable₂ h₂ p.toNat
  if found.1.1 < mf.minLength then
    let q : Int := s.hTable h
    if p - q < 6 * kb ∧ p + 3 ≤ bufend ∧ m.word p 3 = m.word q 3 then
      ((3, q), { s with hTable := t, hTable₂ := t₂, q })
    else
      let q : Int := s.hTable₂ h₂
      if p - q < 256 ∧ p + 2 ≤ bufend ∧ m.word p 2 = m.word q 2 then
        ((2, q), { s with hTable := t, hTable₂ := t₂, q })
      else ((1, q), { s with hTable := t, hTable₂ := t₂, q })
  else (found.1, { s with hTable := t, hTable₂ := t₂, q := found.1.2 })

end Hash3

/-- `Hash3`. -/
def hash3 {M : Type} (mf : MatchFinder M) (hash3Log hash2Log : ℕ) (fullUpdate : Bool) (q₀ : Int) :
    MatchFinder (Hash3 M) where
  minLength := 2
  new m := ⟨mf.new m, fun _ => 1, fun _ => 1, q₀⟩
  findMatchlen := Hash3.findMatchlen mf hash3Log hash2Log
  updateHash m p len s :=
    let s := { s with mf := mf.updateHash m p len s.mf }
    let update₁ := Hash3.updateHash1 hash3Log hash2Log fullUpdate m
    if fullUpdate then (List.range (len - 1)).foldl (fun s i => update₁ (p + 1 + (i : ℕ)) s) s
    else
      let s := if len > 1 then update₁ (p + 1) s else s
      if len > 3 then update₁ (p + len - 1) s else s
  clearHash m s := { s with mf := mf.clearHash m s.mf, hTable := fun _ => 1, hTable₂ := fun _ => 1 }
  shift sh s :=
    { s with
      mf := mf.shift sh s.mf
      hTable := fun i => Hash3.shiftPointer sh (s.hTable i)
      hTable₂ := fun i => Hash3.shiftPointer sh (s.hTable₂ i) }
  invalidateMatch s := { s with mf := mf.invalidateMatch s.mf }

namespace Hash3

variable {M : Type} {mf : MatchFinder M} {Good : M → Int → Prop}

/-- The tables hold pointers in front of `p`. -/
structure Tables (Good : M → Int → Prop) (s : Hash3 M) (p : Int) : Prop where
  inner : Good s.mf p
  table : Below s.hTable p
  table₂ : Below s.hTable₂ p

/-- A table after the data were shifted. -/
lemma below_shiftPointer {t : ℕ → ℕ} {p sh : Int} (h : Below t p) (hle : 2 ≤ p - sh) :
    Below (fun i => shiftPointer sh (t i)) (p - sh) := by
  refine ⟨hle, fun i => ?_⟩
  have hentry := h.2 i
  dsimp only
  unfold shiftPointer
  split <;> omega

/-- A pointer is put into the tables. -/
lemma Tables.updateHash1 {s : Hash3 M} {p : Int} (h : Tables Good s p) (hash3Log hash2Log : ℕ) (fullUpdate : Bool)
    (m : Memory) {x : Int} (hpos : 1 ≤ x) (hlt : x < p) :
    Tables Good (s.updateHash1 hash3Log hash2Log fullUpdate m x) p := by
  refine ⟨h.inner, h.table.update (by omega) (by omega), ?_⟩
  unfold Hash3.updateHash1
  dsimp only
  split
  · exact h.table₂.update (by omega) (by omega)
  · exact h.table₂

/-- Several pointers are put into the tables. -/
lemma Tables.foldl {s : Hash3 M} {p : Int} (h : Tables Good s p) (hash3Log hash2Log : ℕ) (fullUpdate : Bool)
    (m : Memory) {x : Int} {len : ℕ} (hpos : 1 ≤ x) (hlt : x + len ≤ p) :
    Tables Good ((List.range len).foldl (fun s i => s.updateHash1 hash3Log hash2Log fullUpdate m (x + (i : ℕ))) s) p := by
  induction len with
  | zero => exact h
  | succ len ih =>
    rw [List.range_succ, List.foldl_append]
    exact (ih (by omega)).updateHash1 hash3Log hash2Log fullUpdate m (by omega) (by omega)

end Hash3

section Transformer

variable {M : Type} {mf : MatchFinder M} {Good : M → Int → Prop}

/-- **The tables of `Hash3`** are right if that of the finder inside is. -/
theorem hash3_sound (h : mf.Sound 1 Good) (hash3Log hash2Log : ℕ) (fullUpdate : Bool) (q₀ : Int) :
    (hash3 mf hash3Log hash2Log fullUpdate q₀).Sound 1 (Hash3.Tables Good) where
  two_le := le_rfl
  le := (by decide : 2 ≤ 255)
  new m := ⟨h.new m, Below.clear.mono (by decide), Below.clear.mono (by decide)⟩
  pos := fun htables => h.pos htables.inner
  mono := fun htables => ⟨h.mono htables.inner, htables.table.mono (Int.le_add_one le_rfl),
    htables.table₂.mono (Int.le_add_one le_rfl)⟩
  find := by
    intro s m p e htables hle he
    have hpos := h.pos htables.inner
    obtain ⟨hfound, hinner⟩ := h.find (m := m) htables.inner hle he
    have hend : matchend e ≤ e ∨ e < 0 := by
      unfold matchend
      omega
    have hentry := htables.table.2 (Hash3.hash hash3Log (m.word p 3))
    have hentry₂ := htables.table₂.2 (Hash3.hash2 hash2Log (m.word p 2))
    have htable := (htables.table.mono (Int.le_add_one le_rfl : p ≤ p + 1)).update
      (i := Hash3.hash hash3Log (m.word p 3)) (x := p.toNat) (by omega) (by omega)
    have htable₂ := (htables.table₂.mono (Int.le_add_one le_rfl : p ≤ p + 1)).update
      (i := Hash3.hash2 hash2Log (m.word p 2)) (x := p.toNat) (by omega) (by omega)
    change MatchFinder.Finds m 1 p e 2 (Hash3.findMatchlen mf hash3Log hash2Log m p (matchend e) s).1 ∧
      Hash3.Tables Good (Hash3.findMatchlen mf hash3Log hash2Log m p (matchend e) s).2 (p + 1)
    unfold Hash3.findMatchlen
    dsimp only
    split_ifs with hshort hthree htwo
    · exact ⟨fun _ => ⟨by dsimp only; omega, hentry.2, by dsimp only; omega, same_of_word hthree.2.2⟩,
        hinner, htable, htable₂⟩
    · exact ⟨fun _ => ⟨by dsimp only; omega, hentry₂.2, by dsimp only; omega, same_of_word htwo.2.2⟩,
        hinner, htable, htable₂⟩
    · exact ⟨fun hlen => absurd hlen (by decide : ¬2 ≤ 1), hinner, htable, htable₂⟩
    · exact ⟨fun _ => hfound (not_lt.mp hshort), hinner, htable, htable₂⟩
  update := by
    intro s m p e len htables hleast hle he
    have hpos := h.pos htables.inner
    have hinner : Hash3.Tables Good { s with mf := mf.updateHash m p len s.mf } (p + len) :=
      ⟨h.update htables.inner hleast hle he, htables.table.mono (by omega), htables.table₂.mono (by omega)⟩
    unfold hash3
    dsimp only
    split_ifs
    · exact hinner.foldl hash3Log hash2Log fullUpdate m (by omega) (by omega)
    · exact (hinner.updateHash1 hash3Log hash2Log fullUpdate m (by omega) (by omega)).updateHash1 hash3Log hash2Log
        fullUpdate m (by omega) (by omega)
    · exact hinner.updateHash1 hash3Log hash2Log fullUpdate m (by omega) (by omega)
    · exact hinner.updateHash1 hash3Log hash2Log fullUpdate m (by omega) (by omega)
    · exact hinner
  invalidate := fun htables => ⟨h.invalidate htables.inner, htables.table, htables.table₂⟩
  shift := fun htables hsh hle hlt => ⟨h.shift htables.inner hsh hle hlt, Hash3.below_shiftPointer htables.table hle,
    Hash3.below_shiftPointer htables.table₂ hle⟩
  clear := fun s m => ⟨h.clear s.mf m, .clear, .clear⟩

/-- `Hash3` never finds the length 0. -/
lemma hash3_ne_zero (hmin : 0 < mf.minLength) (hash3Log hash2Log : ℕ) (fullUpdate : Bool) (q₀ : Int) (m : Memory)
    (p bufend : Int) (s : Hash3 M) :
    ((hash3 mf hash3Log hash2Log fullUpdate q₀).findMatchlen m p bufend s).1.1 ≠ 0 := by
  change (Hash3.findMatchlen mf hash3Log hash2Log m p bufend s).1.1 ≠ 0
  unfold Hash3.findMatchlen
  dsimp only
  split_ifs
  · exact (by decide : 3 ≠ 0)
  · exact (by decide : 2 ≠ 0)
  · exact (by decide : 1 ≠ 0)
  · dsimp only
    omega

end Transformer

/-! ## Two finders -/

/-- The state of `CombineMF`. -/
structure CombineMF (M₁ M₂ : Type) where
  mf₁ : M₁
  mf₂ : M₂
  q : Int

section Combine

variable {M₁ M₂ : Type} (mf₁ : MatchFinder M₁) (mf₂ : MatchFinder M₂) (updateHash1 : Memory → Int → M₂ → M₂)

/-- `find_matchlen` of `CombineMF`. -/
def CombineMF.findMatchlen (m : Memory) (p bufend : Int) (s : CombineMF M₁ M₂) : (ℕ × Int) × CombineMF M₁ M₂ :=
  let found₁ := mf₁.findMatchlen m p bufend s.mf₁
  if found₁.1.1 > mf₁.minLength then (found₁.1, ⟨found₁.2, updateHash1 m p s.mf₂, found₁.1.2⟩)
  else
    let found₂ := mf₂.findMatchlen m p bufend s.mf₂
    if found₁.1.1 ≥ mf₁.minLength ∧ found₁.1.1 > found₂.1.1 ∧
        ¬(found₂.1.1 ≥ mf₂.minLength ∧ found₁.1.1 = found₂.1.1 + 1 ∧
          ChangePair (uint32 (p - found₂.1.2)) (uint32 (p - found₁.1.2))) then
      (found₁.1, ⟨found₁.2, found₂.2, found₁.1.2⟩)
    else (found₂.1, ⟨found₁.2, found₂.2, found₂.1.2⟩)

/-- `CombineMF`, with `update_hash1` of the second finder. -/
def combineMF (q₀ : Int) : MatchFinder (CombineMF M₁ M₂) where
  minLength := min mf₁.minLength mf₂.minLength
  new m := ⟨mf₁.new m, mf₂.new m, q₀⟩
  findMatchlen := CombineMF.findMatchlen mf₁ mf₂ updateHash1
  updateHash m p len s := { s with mf₁ := mf₁.updateHash m p len s.mf₁, mf₂ := mf₂.updateHash m p len s.mf₂ }
  clearHash m s := { s with mf₁ := mf₁.clearHash m s.mf₁, mf₂ := mf₂.clearHash m s.mf₂ }
  shift sh s := ⟨mf₁.shift sh s.mf₁, mf₂.shift sh s.mf₂, s.q - sh⟩
  invalidateMatch s := { s with mf₁ := mf₁.invalidateMatch s.mf₁, mf₂ := mf₂.invalidateMatch s.mf₂ }

variable {mf₁ mf₂ updateHash1} {Good₁ : M₁ → Int → Prop} {Good₂ : M₂ → Int → Prop}

/-- **The tables of `CombineMF`** are right if those of both finders are. -/
theorem combineMF_sound (h₁ : mf₁.Sound 1 Good₁) (h₂ : mf₂.Sound 1 Good₂) (hmin : mf₂.minLength ≤ mf₁.minLength)
    (hupdate : ∀ s m p, Good₂ s p → Good₂ (updateHash1 m p s) (p + 1)) (q₀ : Int) :
    (combineMF mf₁ mf₂ updateHash1 q₀).Sound 1 fun s p => Good₁ s.mf₁ p ∧ Good₂ s.mf₂ p where
  two_le := le_min h₁.two_le h₂.two_le
  le := (min_le_left _ _).trans h₁.le
  new m := ⟨h₁.new m, h₂.new m⟩
  pos := fun hgood => h₁.pos hgood.1
  mono := fun hgood => ⟨h₁.mono hgood.1, h₂.mono hgood.2⟩
  find := by
    intro s m p e hgood hle he
    obtain ⟨hfound₁, hnext₁⟩ := h₁.find (m := m) hgood.1 hle he
    obtain ⟨hfound₂, hnext₂⟩ := h₂.find (m := m) hgood.2 hle he
    change MatchFinder.Finds m 1 p e (min mf₁.minLength mf₂.minLength)
        (CombineMF.findMatchlen mf₁ mf₂ updateHash1 m p (matchend e) s).1 ∧
      Good₁ (CombineMF.findMatchlen mf₁ mf₂ updateHash1 m p (matchend e) s).2.mf₁ (p + 1) ∧
      Good₂ (CombineMF.findMatchlen mf₁ mf₂ updateHash1 m p (matchend e) s).2.mf₂ (p + 1)
    rw [min_eq_right hmin]
    unfold CombineMF.findMatchlen
    dsimp only
    split_ifs with hlong hbetter
    · exact ⟨fun _ => hfound₁ hlong.le, hnext₁, hupdate _ _ _ hgood.2⟩
    · exact ⟨fun _ => hfound₁ hbetter.1, hnext₁, hnext₂⟩
    · exact ⟨hfound₂, hnext₁, hnext₂⟩
  update := fun hgood hleast hle he => ⟨h₁.update hgood.1 hleast hle he, h₂.update hgood.2 hleast hle he⟩
  invalidate := fun hgood => ⟨h₁.invalidate hgood.1, h₂.invalidate hgood.2⟩
  shift := fun hgood hsh hle hlt => ⟨h₁.shift hgood.1 hsh hle hlt, h₂.shift hgood.2 hsh hle hlt⟩
  clear := fun s m => ⟨h₁.clear s.mf₁ m, h₂.clear s.mf₂ m⟩

/-- `CombineMF` never finds the length 0 if the second finder does not. -/
lemma combineMF_ne_zero (hmin : 0 < mf₁.minLength)
    (hpos : ∀ m p bufend s, (mf₂.findMatchlen m p bufend s).1.1 ≠ 0) (q₀ : Int) (m : Memory) (p bufend : Int)
    (s : CombineMF M₁ M₂) : ((combineMF mf₁ mf₂ updateHash1 q₀).findMatchlen m p bufend s).1.1 ≠ 0 := by
  change (CombineMF.findMatchlen mf₁ mf₂ updateHash1 m p bufend s).1.1 ≠ 0
  unfold CombineMF.findMatchlen
  dsimp only
  split_ifs with hlong hbetter
  · dsimp only
    omega
  · dsimp only
    omega
  · exact hpos m p bufend s.mf₂

end Combine

end DArc.Tornado
