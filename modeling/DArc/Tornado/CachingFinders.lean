import Mathlib.Data.Nat.Bitwise
import DArc.Compression.MethodNumbers
import DArc.Tornado.MatchFinder

/-!
# The match finders that keep bytes of the strings

Beside every position these finders keep four bytes of the string there, its key.  The keys say how long a match may be,
so that most candidates need not be compared: as long as no longer match is likely, the best candidate is only remembered
and compared in the end.  A key may be that of data that are not there any more, and so it is only a hint.

### Outline

* `acceptMatch`, `KeyScan`: the candidate remembered, and the five loops as one;
* `skipHash`: the positions of a match that are put into the table;
* `cachingMatchFinder`: the entries of a row are moved when one is put in front;
* `cycledCachingMatchFinder`: the row has a head that moves instead.

### Main results

* `KeyScan.Ok.step`: the candidate stays one in front of the current position;
* `cachingMatchFinder_sound`, `cycledCachingMatchFinder_sound`: the tables are right.
-/

namespace DArc.Tornado

/-! ## Candidates -/

/-- `accept_match`. -/
def acceptMatch (len : ℕ) (m : Memory) (p q bufend : Int) : ℕ :=
  match len with
  | 4 => if p - q < 48 * kb ∧ p ≤ bufend ∧ m.word p 4 = m.word q 4 then 4 else 0
  | 5 => if p - q < 192 * kb ∧ p ≤ bufend ∧ m.word p 4 = m.word q 4 ∧ m (p + 4) = m (q + 4) then 5 else 0
  | 6 => if p - q < 1 * mb ∧ p ≤ bufend ∧ m.word p 4 = m.word q 4 ∧ m.word (p + 4) 2 = m.word (q + 4) 2 then 6 else 0
  | 7 => if p - q < 12 * mb ∧ p ≤ bufend ∧ m.word p 4 = m.word q 4 ∧ m.word (p + 4) 3 = m.word (q + 4) 3 then 7 else 0
  | 8 => if p ≤ bufend ∧ m.word p 4 = m.word q 4 ∧ m.word (p + 4) 4 = m.word (q + 4) 4 then 8 else 0
  | 9 =>
    if p ≤ bufend ∧ m.word p 4 = m.word q 4 ∧ m.word (p + 4) 4 = m.word (q + 4) 4 ∧ m (p + 8) = m (q + 8) then 9
    else 0
  | _ => 0

/-- The loop that is gone to when the keys differ by `t`: `len0`, or `len4` to `len7`. -/
def keyStage (t : ℕ) : ℕ :=
  if t % 2 ^ 8 ≠ 0 then 0 else if t = 0 then 7 else if t % 2 ^ 16 ≠ 0 then 4 else if t % 2 ^ 24 ≠ 0 then 5 else 6

/-- The loop, the length that was compared in `len7`, and the best candidate. -/
structure KeyScan where
  stage : ℕ
  len : ℕ
  q : Int

/-- The next candidate `x` with the key `v`.  A `choosy` finder leaves a loop for the next one only if the candidate is
not much farther. -/
def KeyScan.step (N minlen : ℕ) (choosy : Bool) (m : Memory) (p bufend : Int) (x v : ℕ) (s : KeyScan) : KeyScan :=
  let t := v ^^^ m.word (p + N - 1) 4
  let far := choosy ∧ ChangePair (uint32 (p - s.q)) (uint32 (p - x))
  if s.stage < 7 then
    if keyStage t > s.stage ∧ ¬(s.stage ≠ 0 ∧ keyStage t = s.stage + 1 ∧ far ∧
        ¬(s.stage = 6 ∧ m.word (p + N) 4 = m.word (x + N) 4)) then
      if keyStage t = 7 then
        { stage := 7
          len :=
            if m.word p 4 = m.word x 4 then matchLen m p x bufend 0 (min (minlen - 1) 4) else minlen - 1
          q := x }
      else { s with stage := keyStage t, q := x }
    else s
  else if t = 0 ∧ m (p + s.len) = m (x + s.len) ∧ m.word p 4 = m.word x 4 then
    let len₁ := matchLen m p x bufend 0 (min (minlen - 1) 4)
    if len₁ > s.len ∧ ¬(len₁ = s.len + 1 ∧ far) then { s with len := len₁, q := x } else s
  else s

/-- What is returned behind the loops, for the length of the key and the pointer `q` before. -/
def KeyScan.result (N minlen : ℕ) (m : Memory) (p bufend q : Int) (s : KeyScan) : ℕ × Int :=
  if s.stage = 0 then (minlen - 1, q)
  else if s.stage = 7 then (s.len, s.q)
  else (acceptMatch (N + (s.stage - 4)) m p s.q bufend, s.q)

section Candidates

variable {m : Memory} {p q e : Int} {len N minlen : ℕ}

/-- One more byte is equal. -/
lemma Same.byte (h : Same m p q len) (hbyte : m (p + len) = m (q + len)) : Same m p q (len + 1) :=
  h.append fun i hi => by
    rw [Nat.lt_one_iff.mp hi, Nat.cast_zero, add_zero, add_zero]
    exact hbyte

/-- **A candidate that is accepted** is a match. -/
theorem acceptMatch_spec (h : 0 < acceptMatch len m p q (matchend e)) (hp : 0 < p) (hlt : q < p) :
    MatchAt m p e (acceptMatch len m p q (matchend e)) q := by
  have hend (hle : p ≤ matchend e) {n : ℕ} (hn : n ≤ 9) : p + n ≤ e := by
    have hhashed : (maxHashedBytes : Int) = 12 := rfl
    unfold matchend at hle
    omega
  have haccept {c : Prop} [Decidable c] {n : ℕ} (hpos : 0 < if c then n else 0) (hmatch : c → MatchAt m p e n q) :
      MatchAt m p e (if c then n else 0) q := by
    split_ifs at hpos ⊢ with hc
    · exact hmatch hc
    · exact absurd hpos (lt_irrefl 0)
  unfold acceptMatch at h ⊢
  split at h
  · exact haccept h fun ⟨_, hle, hword⟩ => ⟨hlt, hend hle (by decide), same_of_word hword⟩
  · exact haccept h fun ⟨_, hle, hword, hrest⟩ => ⟨hlt, hend hle (by decide), (same_of_word hword).byte hrest⟩
  · exact haccept h fun ⟨_, hle, hword, hrest⟩ => ⟨hlt, hend hle (by decide), (same_of_word hword).word hrest⟩
  · exact haccept h fun ⟨_, hle, hword, hrest⟩ => ⟨hlt, hend hle (by decide), (same_of_word hword).word hrest⟩
  · exact haccept h fun ⟨hle, hword, hrest⟩ => ⟨hlt, hend hle (by decide), (same_of_word hword).word hrest⟩
  · exact haccept h fun ⟨hle, hword, hrest, hlast⟩ =>
      ⟨hlt, hend hle (by decide), ((same_of_word hword).word hrest).byte hlast⟩
  · exact absurd h (lt_irrefl 0)

/-- The candidate is in front of the current position, and what was compared is equal. -/
structure KeyScan.Ok (minlen : ℕ) (m : Memory) (p e : Int) (s : KeyScan) : Prop where
  candidate : s.stage ≠ 0 → 1 ≤ s.q ∧ s.q < p
  compared : s.stage = 7 → minlen ≤ s.len → MatchAt m p e s.len s.q

/-- No candidate is known. -/
lemma KeyScan.ok_new (minlen : ℕ) (m : Memory) (p e : Int) : KeyScan.Ok minlen m p e ⟨0, 0, 0⟩ :=
  ⟨fun h => absurd rfl h, fun h => absurd h (by decide)⟩

/-- **The next candidate** is in front of the current position. -/
theorem KeyScan.Ok.step {s : KeyScan} (h : s.Ok minlen m p e) (N : ℕ) (choosy : Bool) {x v : ℕ} (hmin : 0 < minlen)
    (hp : 0 < p) (hpos : 1 ≤ x) (hlt : (x : Int) < p) :
    (s.step N minlen choosy m p (matchend e) x v).Ok minlen m p e := by
  have hmatch (hword : m.word p 4 = m.word x 4)
      (hlen : minlen ≤ matchLen m p x (matchend e) 0 (min (minlen - 1) 4)) :
      MatchAt m p e (matchLen m p x (matchend e) 0 (min (minlen - 1) 4)) x :=
    matchAt_matchLen hp hlt ((same_of_word hword).mono (min_le_right _ _)) (by omega) hlen
  have hcandidate : 1 ≤ (x : Int) ∧ (x : Int) < p := ⟨by omega, hlt⟩
  unfold KeyScan.step
  dsimp only
  split_ifs with hstage hleave hseven hword hmore hlonger
  · exact ⟨fun _ => hcandidate, fun _ hlen => hmatch hword hlen⟩
  · exact ⟨fun _ => hcandidate, fun _ hlen => by dsimp only at hlen; omega⟩
  · exact ⟨fun _ => hcandidate, fun heq => absurd heq hseven⟩
  · exact h
  · exact ⟨fun _ => hcandidate, fun _ hlen => hmatch hmore.2.2 hlen⟩
  · exact h
  · exact h

/-- **What is returned** is a match, if it is long enough. -/
theorem KeyScan.Ok.result {s : KeyScan} (h : s.Ok minlen m p e) (N : ℕ) (hmin : 0 < minlen) (hp : 0 < p) (q₀ : Int) :
    MatchFinder.Finds m 1 p e minlen (s.result N minlen m p (matchend e) q₀) := by
  intro hlen
  unfold KeyScan.result at hlen ⊢
  split_ifs at hlen ⊢ with hstage hseven
  · dsimp only at hlen
    omega
  · exact ⟨(h.candidate hstage).1, h.compared hseven hlen⟩
  · obtain ⟨hpos, hlt⟩ := h.candidate hstage
    exact ⟨hpos, acceptMatch_spec (hmin.trans_le hlen) hp hlt⟩

end Candidates

/-! ## Positions that are skipped -/

/-- The loop over the positions inside of a match, for some turns at most. -/
def skipInside {S : Type} (update₁ : Int → S → S) (p : Int) (len step : ℕ) : ℕ → ℕ → S → S
  | 0, _, s => s
  | turns + 1, i, s =>
    if i + 1 < len then skipInside update₁ p len step turns (i + step) (update₁ (p + i) s) else s

/-- `update_hash` of the finders with rows. -/
def skipHash {S : Type} (update₁ : Int → S → S) (step : ℕ) (p : Int) (len : ℕ) (s : S) : S :=
  let s := if len > 1 then update₁ (p + 1) s else s
  let s := skipInside update₁ p len step len 2 s
  if len > 3 then update₁ (p + len - 1) s else s

section Skip

variable {S : Type} {update₁ : Int → S → S} {P : S → Prop} {p : Int} {len step : ℕ} {s : S}

/-- The positions inside of a match are put into the table. -/
lemma skipInside_spec (hupdate : ∀ x s, p ≤ x → x < p + len → P s → P (update₁ x s)) {turns i : ℕ} (h : P s) :
    P (skipInside update₁ p len step turns i s) := by
  induction turns generalizing i s with
  | zero => exact h
  | succ turns ih =>
    rw [skipInside]
    split
    · exact ih (hupdate _ _ (by omega) (by omega) h)
    · exact h

/-- **The positions of a match** are put into the table. -/
theorem skipHash_spec (hupdate : ∀ x s, p ≤ x → x < p + len → P s → P (update₁ x s)) (h : P s) :
    P (skipHash update₁ step p len s) := by
  unfold skipHash
  have hfirst : P (if len > 1 then update₁ (p + 1) s else s) := by
    split
    · exact hupdate _ _ (by omega) (by omega) h
    · exact h
  dsimp only
  split
  · exact hupdate _ _ (by omega) (by omega) (skipInside_spec hupdate hfirst)
  · exact skipInside_spec hupdate hfirst

end Skip

/-! ## Entries that are moved -/

/-- The hash of a pair is the number of an even cell. -/
def HashSettings.Paired (h : HashSettings) : Prop := ∀ x, h.hash x % 2 = 0

/-- The settings of `CachingMatchFinder`: a row has two cells for an entry. -/
def HashSettings.newPaired (hashsize hashRowWidth : ℕ) : HashSettings :=
  { HashSettings.new hashsize (hashRowWidth * 2) with hashRowWidth }

/-- A row begins with an even cell. -/
lemma HashSettings.paired_newPaired (hashsize hashRowWidth : ℕ) :
    (newPaired hashsize hashRowWidth).Paired := by
  have heven : roundupToPowerOf (hashRowWidth * 2) % 2 = 0 := by
    unfold roundupToPowerOf
    dsimp only
    split_ifs with hzero
    · unfold uint32 at hzero
      omega
    · rw [Nat.shiftLeft_eq]
      omega
  have hodd : (uint32 ((roundupToPowerOf (hashRowWidth * 2) : Int) - 1)).testBit 0 = true := by
    rw [Nat.testBit_zero, decide_eq_true_iff]
    unfold uint32
    omega
  intro x
  have hbit : (hash (newPaired hashsize hashRowWidth) x).testBit 0 = false := by
    change ((_ >>> _) &&& Nat.ldiff _ (uint32 ((roundupToPowerOf (hashRowWidth * 2) : Int) - 1))).testBit 0 = false
    rw [Nat.testBit_and, Nat.testBit_ldiff, hodd, Bool.not_true, Bool.and_false, Bool.and_false]
  rw [Nat.testBit_zero] at hbit
  have hne := of_decide_eq_false hbit
  omega

/-- A row that is searched: the best candidate, and the pair that is put into the next cells. -/
structure RowScan where
  best : KeyScan
  x : ℕ
  v : ℕ
  table : ℕ → ℕ

/-- The next pair is read, and the one before is put into its cells. -/
def RowScan.step (N : ℕ) (m : Memory) (p bufend : Int) (i : ℕ) (r : RowScan) : RowScan where
  best := r.best.step N 4 false m p bufend (r.table i) (r.table (i + 1))
  x := r.table i
  v := r.table (i + 1)
  table := Function.update (Function.update r.table i r.x) (i + 1) r.v

/-- The loop of `update_hash1`, for some pairs. -/
def movePairs (i : ℕ) : ℕ → (ℕ → ℕ) → ℕ → ℕ
  | 0, t => t
  | 1, t => t
  | k + 2, t =>
    movePairs i (k + 1) (Function.update (Function.update t (i + 2 * (k + 1)) (t (i + 2 * k))) (i + 2 * (k + 1) + 1)
      (t (i + 2 * k + 1)))

namespace BaseMatchFinder

/-- `clear_hash` of `CachingMatchFinder`. -/
def clearPairs (N : ℕ) (m : Memory) (s : BaseMatchFinder) : BaseMatchFinder :=
  { s with hTable := fun i => if i % 2 = 0 then 1 else m.word (1 + N - 1) 4 }

/-- `shift` of `CachingMatchFinder`. -/
def shiftPairs (sh : Int) (s : BaseMatchFinder) : BaseMatchFinder :=
  { s with hTable := fun i => if i % 2 = 0 then shiftEntry sh (s.hTable i) else s.hTable i }

/-- `update_hash1` of `CachingMatchFinder`, which moves half of a row.  The width of a row is even: for an odd one the
loop would not end. -/
def updatePairs (N : ℕ) (h : HashSettings) (m : Memory) (p : Int) (s : BaseMatchFinder) : BaseMatchFinder :=
  let i := h.hash (m.word p 4)
  let t := movePairs i (h.hashRowWidth / 2) s.hTable
  { s with hTable := Function.update (Function.update t i (uint32 p)) (i + 1) (m.word (p + N - 1) 4) }

end BaseMatchFinder

/-- `CachingMatchFinder`. -/
def cachingMatchFinder (N : ℕ) (h : HashSettings) (step : ℕ) (q₀ : Int) : MatchFinder BaseMatchFinder where
  minLength := 4
  new m := BaseMatchFinder.clearPairs N m ⟨fun _ => 0, q₀⟩
  findMatchlen m p bufend s :=
    let i := h.hash (m.word p 4)
    let r := (List.range h.hashRowWidth).foldl (fun r j => RowScan.step N m p bufend (i + 2 * j) r)
      ⟨⟨0, 0, 0⟩, uint32 p, m.word (p + N - 1) 4, s.hTable⟩
    (r.best.result N 4 m p bufend s.q, ⟨r.table, (r.best.result N 4 m p bufend s.q).2⟩)
  updateHash m p len s := skipHash (BaseMatchFinder.updatePairs N h m) step p len s
  clearHash m s := s.clearPairs N m
  shift := BaseMatchFinder.shiftPairs
  invalidateMatch s := s

/-- The places in a table of pairs. -/
def places (t : ℕ → ℕ) : ℕ → ℕ := fun k => t (2 * k)

section Pairs

variable {t : ℕ → ℕ} {p : Int} {N : ℕ} {m : Memory} {e : Int}

/-- A place is put into an even cell. -/
lemma places_update_even (t : ℕ → ℕ) (k x : ℕ) :
    places (Function.update t (2 * k) x) = Function.update (places t) k x := by
  funext j
  unfold places
  rw [Function.update_apply, Function.update_apply]
  by_cases h : j = k
  · rw [if_pos h, if_pos (by omega)]
  · rw [if_neg h, if_neg (by omega)]

/-- A key is put into an odd cell. -/
lemma places_update_odd (t : ℕ → ℕ) (k v : ℕ) : places (Function.update t (2 * k + 1) v) = places t := by
  funext j
  unfold places
  rw [Function.update_of_ne (by omega)]

/-- The table after it was cleared. -/
lemma Below.clearPairs {s : BaseMatchFinder} : Below (places (s.clearPairs N m).hTable) 2 := by
  refine ⟨le_rfl, fun k => ?_⟩
  unfold places BaseMatchFinder.clearPairs
  dsimp only
  rw [if_pos (Nat.mul_mod_right 2 k)]
  exact ⟨le_rfl, by decide⟩

/-- The table after the data were shifted. -/
lemma Below.shiftPairs {s : BaseMatchFinder} (h : Below (places s.hTable) p) {sh : Int} (hsh : 0 ≤ sh)
    (hle : 2 ≤ p - sh) (hp : p ≤ 2 ^ 32) : Below (places (s.shiftPairs sh).hTable) (p - sh) := by
  have hplaces : places (s.shiftPairs sh).hTable = fun k => shiftEntry sh (places s.hTable k) := by
    funext k
    exact if_pos (Nat.mul_mod_right 2 k)
  rw [hplaces]
  exact h.shift hsh hle hp

/-- Pairs are moved inside of a row. -/
lemma Below.movePairs (h : Below (places t) p) (c k : ℕ) : Below (places (movePairs (2 * c) k t)) p := by
  induction k generalizing t with
  | zero => exact h
  | succ k ih =>
    cases k with
    | zero => exact h
    | succ k =>
      rw [Tornado.movePairs]
      refine ih ?_
      rw [← Nat.mul_add, ← Nat.mul_add, places_update_odd, places_update_even]
      exact h.update (h.2 (c + k)).1 (h.2 (c + k)).2

/-- A position is put into the table. -/
lemma Below.updatePairs {h : HashSettings} (hpaired : h.Paired) {s : BaseMatchFinder} (hbelow : Below (places s.hTable) p)
    {x : Int} (hpos : 1 ≤ x) (hlt : x < p) (hx : x < 2 ^ 32) :
    Below (places (s.updatePairs N h m x).hTable) p := by
  obtain ⟨c, hc⟩ : ∃ c, h.hash (m.word x 4) = 2 * c := ⟨_, (Nat.two_mul_div_two_of_even
    (Nat.even_iff.mpr (hpaired _))).symm⟩
  unfold BaseMatchFinder.updatePairs
  dsimp only
  rw [hc, places_update_odd, places_update_even]
  exact (hbelow.movePairs c _).update_place hpos hlt hx

/-- The invariant of a row that is searched: the cells from `c + j` on have not been read. -/
structure RowScan.Ok (c j : ℕ) (m : Memory) (p e : Int) (r : RowScan) : Prop where
  table : Below (places r.table) (p + 1)
  later : ∀ k, c + j ≤ k → (places r.table k : Int) < p
  x : 1 ≤ r.x ∧ (r.x : Int) < p + 1
  best : r.best.Ok 4 m p e

/-- **The next pair** is read. -/
theorem RowScan.Ok.step {c j : ℕ} {r : RowScan} (h : r.Ok c j m p e) (hp : 0 < p) (N : ℕ) :
    (r.step N m p (matchend e) (2 * c + 2 * j)).Ok c (j + 1) m p e := by
  have hentry := h.table.2 (c + j)
  have hlt := h.later (c + j) le_rfl
  have htable : places (r.step N m p (matchend e) (2 * c + 2 * j)).table =
      Function.update (places r.table) (c + j) r.x := by
    unfold RowScan.step
    dsimp only
    rw [← Nat.mul_add, places_update_odd, places_update_even]
  have hx : (r.step N m p (matchend e) (2 * c + 2 * j)).x = places r.table (c + j) := by
    unfold RowScan.step places
    dsimp only
    rw [← Nat.mul_add]
  refine ⟨?_, ?_, ?_, ?_⟩
  · rw [htable]
    exact h.table.update h.x.1 h.x.2
  · intro k hk
    rw [htable, Function.update_of_ne (by omega)]
    exact h.later k (by omega)
  · rw [hx]
    exact hentry
  · refine h.best.step N false (by decide) hp ?_ ?_
    · rw [← Nat.mul_add]
      exact hentry.1
    · rw [← Nat.mul_add]
      exact hlt

/-- **The whole row** is read. -/
theorem RowScan.Ok.foldl {c : ℕ} {r : RowScan} (h : r.Ok c 0 m p e) (hp : 0 < p) (N width : ℕ) :
    ((List.range width).foldl (fun r j => RowScan.step N m p (matchend e) (2 * c + 2 * j) r) r).Ok c width m p e := by
  induction width with
  | zero => exact h
  | succ width ih =>
    rw [List.range_succ, List.foldl_append]
    exact ih.step hp N

end Pairs

/-- **The table of `CachingMatchFinder`** is right. -/
theorem cachingMatchFinder_sound (N : ℕ) {h : HashSettings} (hpaired : h.Paired) (step : ℕ) (q₀ : Int) :
    (cachingMatchFinder N h step q₀).Sound 1 fun s p => Below (places s.hTable) p where
  two_le := (by decide : 2 ≤ 4)
  le := (by decide : 4 ≤ 255)
  new _ := Below.clearPairs.mono (by decide)
  pos := And.left
  mono := fun hbelow => hbelow.mono (Int.le_add_one le_rfl)
  find := by
    intro s m p e hbelow hle he
    have hpos := hbelow.1
    obtain ⟨c, hc⟩ : ∃ c, h.hash (m.word p 4) = 2 * c := ⟨_, (Nat.two_mul_div_two_of_even
      (Nat.even_iff.mpr (hpaired _))).symm⟩
    have hword : uint32 p = p.toNat := by unfold uint32; omega
    have hnew : RowScan.Ok c 0 m p e ⟨⟨0, 0, 0⟩, uint32 p, m.word (p + N - 1) 4, s.hTable⟩ :=
      ⟨hbelow.mono (Int.le_add_one le_rfl), fun k _ => (hbelow.2 k).2, by dsimp only; omega, KeyScan.ok_new _ _ _ _⟩
    have hrow := hnew.foldl (by omega) N h.hashRowWidth
    unfold cachingMatchFinder
    dsimp only
    rw [hc]
    exact ⟨hrow.best.result N (by decide) (by omega) s.q, hrow.table⟩
  update := by
    intro s m p e len hbelow hleast hle he
    have hpos := hbelow.1
    exact skipHash_spec (P := fun s : BaseMatchFinder => Below (places s.hTable) (p + len))
      (fun x s h₁ h₂ hs => hs.updatePairs hpaired (by omega) h₂ (by omega)) (hbelow.mono (by omega))
  invalidate := id
  shift := fun hbelow hsh hle hlt => hbelow.shiftPairs hsh hle hlt
  clear := fun _ _ => .clearPairs

/-! ## A head that moves -/

/-- `hashx`. -/
def hashx (N : ℕ) (m : Memory) (p : Int) (h : HashSettings) : ℕ :=
  match N with
  | 4 => ((m.word p 4 * 123456791 % 2 ^ 32) >>> h.hashShift) &&& h.hashMask
  | 5 => (((m.word p 4 * 123456791 + m.word (p + 1) 4 * 789567123) % 2 ^ 32) >>> h.hashShift) &&& h.hashMask
  | 6 => (((m.word p 4 * 123456791 + m.word (p + 2) 4 * 789567123) % 2 ^ 32) >>> h.hashShift) &&& h.hashMask
  | 7 => (((m.word p 4 * 123456791 + m.word (p + 3) 4 * 789567123) % 2 ^ 32) >>> h.hashShift) &&& h.hashMask
  | _ => 0

/-- The settings of `CycledCachingMatchFinder`: a table of 2 gb has one entry less in a row. -/
def HashSettings.newCycled (hashsize hashRowWidth : ℕ) : HashSettings :=
  let hashRowWidth :=
    if hashsize = 2 * gb ∧ hashRowWidth = 2 ^ lb hashRowWidth then hashRowWidth - 1 else hashRowWidth
  ⟨32 - lb (2 ^ lb (hashsize / (4 * hashRowWidth * 2))), 2 ^ 32 - 1, hashRowWidth⟩

/-- `CycledCachingMatchFinder`. -/
structure CycledTable where
  head : ℕ → ℕ
  hTable : ℕ → ℕ
  q : Int

namespace CycledTable

/-- The number of an entry in the table. -/
def entry (h : HashSettings) (i slot : ℕ) : ℕ := i * h.hashRowWidth + slot

/-- A new head of a row. -/
def newHead (h : HashSettings) (i : ℕ) (s : CycledTable) : ℕ :=
  if s.head i = 0 then (h.hashRowWidth - 1) % 256 else s.head i - 1

/-- A position is put to the new head of its row, as `update_hash1` does. -/
def insert (N : ℕ) (h : HashSettings) (m : Memory) (p : Int) (s : CycledTable) : CycledTable :=
  let i := hashx N m p h
  let slot := s.newHead h i
  { s with
    head := Function.update s.head i slot
    hTable := Function.update (Function.update s.hTable (entry h i slot * 2) (uint32 p)) (entry h i slot * 2 + 1)
      (m.word (p + N - 1) 4) }

/-- The loops over the other entries of a row, up to one that is empty. -/
def scanRow (N : ℕ) (m : Memory) (p bufend : Int) (t : ℕ → ℕ) : List ℕ → KeyScan → KeyScan
  | [], s => s
  | k :: ks, s =>
    if t (k * 2) = 0 then s
    else scanRow N m p bufend t ks (s.step N N true m p bufend (t (k * 2)) (t (k * 2 + 1)))

/-- `find_matchlen`: the row is read in a circle, from behind the new head on. -/
def findMatchlen (N : ℕ) (h : HashSettings) (m : Memory) (p bufend : Int) (s : CycledTable) : (ℕ × Int) × CycledTable :=
  let i := hashx N m p h
  let others := (List.range (h.hashRowWidth - 1)).map fun j => entry h i ((s.newHead h i + 1 + j) % h.hashRowWidth)
  let t := s.insert N h m p
  let found := (scanRow N m p bufend t.hTable others ⟨0, 0, 0⟩).result N N m p bufend s.q
  (found, { t with q := found.2 })

/-- `clear_hash`. -/
def clear (s : CycledTable) : CycledTable := { s with head := fun _ => 0, hTable := fun _ => 0 }

/-- `shift`. -/
def shift (sh : Int) (s : CycledTable) : CycledTable :=
  { s with hTable := fun i =>
      if i % 2 = 0 then if uint32 sh < s.hTable i then uint32 (s.hTable i - sh) else 0 else s.hTable i }

end CycledTable

/-- `CycledCachingMatchFinder`. -/
def cycledCachingMatchFinder (N : ℕ) (h : HashSettings) (q₀ : Int) : MatchFinder CycledTable where
  minLength := N
  new _ := CycledTable.clear ⟨fun _ => 0, fun _ => 0, q₀⟩
  findMatchlen := CycledTable.findMatchlen N h
  updateHash m p len s := (List.range (len - 1)).foldl (fun s i => s.insert N h m (p + 1 + (i : ℕ))) s
  clearHash _ s := s.clear
  shift := CycledTable.shift
  invalidateMatch s := s

/-- The entries are positions in front of `p`, or empty. -/
def Under (t : ℕ → ℕ) (p : Int) : Prop := 2 ≤ p ∧ ∀ k, (places t k : Int) < p

section Cycled

variable {N : ℕ} {h : HashSettings} {m : Memory} {p e : Int} {s : CycledTable}

/-- A later position. -/
lemma Under.mono {t : ℕ → ℕ} (hunder : Under t p) {p' : Int} (hle : p ≤ p') : Under t p' :=
  ⟨hunder.1.trans hle, fun k => (hunder.2 k).trans_le hle⟩

/-- The entries of a table into which a position was put. -/
lemma places_insert (N : ℕ) (h : HashSettings) (m : Memory) (p : Int) (s : CycledTable) :
    places (s.insert N h m p).hTable =
      Function.update (places s.hTable) (CycledTable.entry h (hashx N m p h) (s.newHead h (hashx N m p h))) (uint32 p) := by
  unfold CycledTable.insert
  dsimp only
  rw [Nat.mul_comm, places_update_odd, places_update_even]

/-- A position is put into the table. -/
lemma Under.insert (hunder : Under s.hTable p) {x : Int} (hpos : 0 ≤ x) (hlt : x < p) (hx : x < 2 ^ 32) :
    Under (s.insert N h m x).hTable p := by
  refine ⟨hunder.1, fun k => ?_⟩
  rw [places_insert, Function.update_apply]
  split
  · unfold uint32
    omega
  · exact hunder.2 k

/-- Several positions are put into the table. -/
lemma Under.foldl {len : ℕ} (hunder : Under s.hTable p) {x : Int} (hpos : 0 ≤ x) (hlt : x + len ≤ p)
    (hx : p ≤ 2 ^ 32) :
    Under ((List.range len).foldl (fun s i => CycledTable.insert N h m (x + (i : ℕ)) s) s).hTable p := by
  induction len with
  | zero => exact hunder
  | succ len ih =>
    rw [List.range_succ, List.foldl_append]
    exact (ih (by omega)).insert (by omega) (by omega) (by omega)

/-- The loops over some entries. -/
lemma scanRow_spec {t : ℕ → ℕ} {ks : List ℕ} (hN : 0 < N) (hp : 0 < p) (hks : ∀ k ∈ ks, (places t k : Int) < p)
    {r : KeyScan} (hr : r.Ok N m p e) : (CycledTable.scanRow N m p (matchend e) t ks r).Ok N m p e := by
  induction ks generalizing r with
  | nil => exact hr
  | cons k ks ih =>
    obtain ⟨hk, hks⟩ := List.forall_mem_cons.mp hks
    rw [CycledTable.scanRow]
    split
    · exact hr
    · next hne =>
      refine ih hks (hr.step N true hN hp (Nat.one_le_iff_ne_zero.mpr hne) ?_)
      rwa [places, Nat.mul_comm] at hk

/-- The other entries of a row are not its head. -/
lemma head_ne {w slot j : ℕ} (hj : j + 1 < w) : (slot + 1 + j) % w ≠ slot := by
  by_cases hslot : slot < w
  · by_cases hwrap : slot + 1 + j < w
    · rw [Nat.mod_eq_of_lt hwrap]
      omega
    · rw [Nat.mod_eq_sub_mod (not_lt.mp hwrap), Nat.mod_eq_of_lt (by omega)]
      omega
  · have hlt := Nat.mod_lt (slot + 1 + j) (by omega : 0 < w)
    omega

/-- **The table of `CycledCachingMatchFinder`** is right. -/
theorem cycledCachingMatchFinder_sound {N : ℕ} (hN : 4 ≤ N) (hle : N ≤ 7) (h : HashSettings) (q₀ : Int) :
    (cycledCachingMatchFinder N h q₀).Sound 1 fun s p => Under s.hTable p where
  two_le := (by omega : 2 ≤ N)
  le := (by omega : N ≤ 255)
  new _ := ⟨(by decide : (2 : Int) ≤ 4), fun _ => (by decide : ((0 : ℕ) : Int) < 4)⟩
  pos := And.left
  mono := fun hunder => hunder.mono (Int.le_add_one le_rfl)
  find := by
    intro s m p e hunder hle' he
    have hpos := hunder.1
    change MatchFinder.Finds m 1 p e N (CycledTable.findMatchlen N h m p (matchend e) s).1 ∧
      Under (CycledTable.findMatchlen N h m p (matchend e) s).2.hTable (p + 1)
    unfold CycledTable.findMatchlen
    dsimp only
    refine ⟨KeyScan.Ok.result (scanRow_spec (by omega) (by omega) (fun k hk => ?_) (KeyScan.ok_new _ _ _ _)) N (by omega)
      (by omega) s.q, (hunder.mono (Int.le_add_one le_rfl)).insert (by omega) (by omega) (by omega)⟩
    obtain ⟨j, hj, rfl⟩ := List.mem_map.mp hk
    have hslot : j + 1 < h.hashRowWidth := by
      have hlt := List.mem_range.mp hj
      omega
    have hne : CycledTable.entry h (hashx N m p h) ((s.newHead h (hashx N m p h) + 1 + j) % h.hashRowWidth) ≠
        CycledTable.entry h (hashx N m p h) (s.newHead h (hashx N m p h)) := fun heq =>
      head_ne hslot (Nat.add_left_cancel heq)
    rw [places_insert, Function.update_of_ne hne]
    exact hunder.2 _
  update := by
    intro s m p e len hunder hleast hle' he
    have hpos := hunder.1
    exact (hunder.mono (by omega)).foldl (by omega) (by omega) (by omega)
  invalidate := id
  shift := by
    intro s p sh hunder hsh hle' hlt
    refine ⟨hle', fun k => ?_⟩
    have hentry := hunder.2 k
    change ((if 2 * k % 2 = 0 then if uint32 sh < s.hTable (2 * k) then uint32 (s.hTable (2 * k) - sh) else 0
      else s.hTable (2 * k) : ℕ) : Int) < p - sh
    rw [if_pos (Nat.mul_mod_right 2 k)]
    unfold places at hentry
    unfold uint32
    split <;> omega
  clear := fun _ _ => ⟨le_rfl, fun _ => (by decide : ((0 : ℕ) : Int) < 2)⟩

end Cycled

end DArc.Tornado
