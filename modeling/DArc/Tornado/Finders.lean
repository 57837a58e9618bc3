import DArc.Tornado.CombinedFinders
import DArc.Tornado.Parameters

/-!
# The match finder of a method

`tor_compress` chooses the match finder by the parameters.  Whatever the compressor does with it, a match that it finds
is one: between the searches literals are skipped, matches are skipped, tables are replaced by their differences, more
data are read, the data are shifted, and the buffer is filled again.

### Outline

* `finderOf`: the cascade of `tor_compress`;
* `Finding`, `Finding.Step`: the data and the match finder, and what happens to them.

### Main results

* `finderOf_spec`: the match finder of each compressor keeps its invariant;
* `finderOf_finds`: in every run it finds matches that are there.
-/

namespace DArc.Tornado

open Relation

/-! ## The cascade -/

/-- The match finders of the cascade of `tor_compress`; their pointers have the value `q₀` before they are set. -/
def finderOf (m : PackMethod) (q₀ : Int) : Option (Σ M : Type, MatchFinder M) :=
  let row := m.hashRowWidth.toNat
  let auxRow := m.auxhashRowWidth.toNat
  let updateStep := m.updateStep.toNat
  let cached := cachingMatchFinder 4 (.newPaired m.hashsize row) updateStep q₀
  let cycled (N : ℕ) := cycledCachingMatchFinder N (.newCycled m.hashsize row) q₀
  let exact := exactMatchFinder (.new m.auxhashSize auxRow) updateStep q₀
  let auxCycled := cycledCachingMatchFinder 4 (.newCycled m.auxhashSize auxRow) q₀
  if m.encodingMethod = bytecoder ∧ m.hashRowWidth = 1 ∧ m.hash3 = 0 ∧ m.cachingFinder = 0 ∧ m.matchParser = greedy ∨
      m.encodingMethod = storing then
    some ⟨_, matchFinder1 (.new m.hashsize row) q₀⟩
  else if m.encodingMethod = bitcoder ∧ m.hashRowWidth = 1 ∧ m.hash3 = 0 ∧ m.cachingFinder = 0 ∧
      m.matchParser = greedy then
    some ⟨_, matchFinder1 (.new m.hashsize row) q₀⟩
  else if m.encodingMethod = hufcoder ∧ m.hashRowWidth = 2 ∧ m.hash3 = 0 ∧ m.cachingFinder = 0 ∧
      m.matchParser = greedy then
    some ⟨_, matchFinder2 (.new m.hashsize row) q₀⟩
  else if m.encodingMethod = hufcoder ∧ m.hashRowWidth ≥ 2 ∧ m.hash3 = 0 ∧ m.cachingFinder ≠ 0 ∧
      m.matchParser = greedy then
    some ⟨_, cached⟩
  else if m.encodingMethod = aricoder ∧ m.hashRowWidth ≥ 2 ∧ m.hash3 = 1 ∧ m.cachingFinder = 1 ∧
      m.matchParser = lazyParser then
    some ⟨_, lazyMatching (hash3 cached 12 10 false q₀) q₀⟩
  else if m.encodingMethod = hufcoder ∧ m.hashRowWidth ≥ 2 ∧ m.hash3 = 1 ∧ m.cachingFinder = 1 ∧
      m.matchParser = lazyParser then
    some ⟨_, lazyMatching (hash3 cached 12 10 false q₀) q₀⟩
  else if m.hashRowWidth ≥ 2 ∧ m.hash3 = 2 ∧ m.cachingFinder = 5 ∧ m.matchParser = lazyParser then
    some ⟨_, lazyMatching (combineMF (cycled 5) (hash3 exact 16 12 true q₀) (Hash3.updateHash1 16 12 true) q₀) q₀⟩
  else if m.hashRowWidth ≥ 2 ∧ m.hash3 = 2 ∧ m.cachingFinder = 6 ∧ m.matchParser = lazyParser then
    some ⟨_, lazyMatching (combineMF (cycled 6) (hash3 auxCycled 16 12 true q₀) (Hash3.updateHash1 16 12 true) q₀) q₀⟩
  else if m.hashRowWidth ≥ 2 ∧ m.hash3 = 2 ∧ m.cachingFinder = 7 ∧ m.matchParser = lazyParser then
    some ⟨_, lazyMatching (combineMF (cycled 7) (hash3 auxCycled 16 12 true q₀) (Hash3.updateHash1 16 12 true) q₀) q₀⟩
  else none

variable {m : PackMethod}

/-- A lazy match finder with a second table for short matches. -/
lemma combined_correct {M : Type} {mf : MatchFinder M} {Good : M → Int → Prop} (h : mf.Sound 1 Good) {N : ℕ}
    (hN : 4 ≤ N) (hle : N ≤ 7) (settings : HashSettings) (q₀ : Int) :
    ∃ Good', (lazyMatching (combineMF (cycledCachingMatchFinder N settings q₀) (hash3 mf 16 12 true q₀)
      (Hash3.updateHash1 16 12 true) q₀) q₀).Correct Good' := by
  have haux := hash3_sound h 16 12 true q₀
  have hupdate : ∀ (s : Hash3 M) (m : Memory) (p : Int), Hash3.Tables Good s p →
      Hash3.Tables Good (s.updateHash1 16 12 true m p) (p + 1) := fun s m p htables => by
    have hpos := haux.pos htables
    exact (haux.mono htables).updateHash1 16 12 true m (by omega) (by omega)
  have htwo : 2 ≤ (cycledCachingMatchFinder N settings q₀).minLength := (by omega : 2 ≤ N)
  have hsound := combineMF_sound (cycledCachingMatchFinder_sound hN hle settings q₀) haux htwo hupdate q₀
  have hmin : 1 < (combineMF (cycledCachingMatchFinder N settings q₀) (hash3 mf 16 12 true q₀)
      (Hash3.updateHash1 16 12 true) q₀).minLength := hsound.two_le
  exact ⟨_, hsound.lazy hmin (combineMF_ne_zero (by omega)
    (hash3_ne_zero (Nat.zero_lt_of_lt h.two_le) 16 12 true q₀) q₀) q₀⟩

/-- **The match finder** of each compressor finds matches that are there, and the shortest of them are as long as the
header says. -/
theorem finderOf_spec {v : Variant} (h : variant m = some v) (q₀ : Int) :
    ∃ f Good, finderOf m q₀ = some f ∧ f.2.minLength = v.minLength ∧ f.2.Correct Good := by
  have hcached := cachingMatchFinder_sound 4
    (HashSettings.paired_newPaired m.hashsize m.hashRowWidth.toNat) m.updateStep.toNat q₀
  have hlazy := (hash3_sound hcached 12 10 false q₀).lazy (by decide : 1 < 2)
    (hash3_ne_zero (by decide : 0 < 4) 12 10 false q₀) q₀
  have hexact := exactMatchFinder_sound (.new m.auxhashSize m.auxhashRowWidth.toNat) m.updateStep.toNat q₀
  have hcycled := cycledCachingMatchFinder_sound (by decide : 4 ≤ 4) (by decide)
    (.newCycled m.auxhashSize m.auxhashRowWidth.toNat) q₀
  rw [variant] at h
  rw [finderOf]
  split_ifs at h with h₁ h₂ h₃ h₄ h₅ h₆ h₇ h₈ h₉
  all_goals obtain rfl := Option.some.inj h
  · rw [if_pos h₁]
    exact ⟨_, _, rfl, rfl, (matchFinder1_sound _ q₀).correct (by decide : 1 ≤ 4)⟩
  · rw [if_neg h₁, if_pos h₂]
    exact ⟨_, _, rfl, rfl, (matchFinder1_sound _ q₀).correct (by decide : 1 ≤ 4)⟩
  · rw [if_neg h₁, if_neg h₂, if_pos h₃]
    exact ⟨_, _, rfl, rfl, (matchFinder2_sound _ q₀).correct (by decide : 2 ≤ 4)⟩
  · rw [if_neg h₁, if_neg h₂, if_neg h₃, if_pos h₄]
    exact ⟨_, _, rfl, rfl, hcached.correct (by decide : 1 ≤ 4)⟩
  · rw [if_neg h₁, if_neg h₂, if_neg h₃, if_neg h₄, if_pos h₅]
    exact ⟨_, _, rfl, rfl, hlazy⟩
  · rw [if_neg h₁, if_neg h₂, if_neg h₃, if_neg h₄, if_neg h₅, if_pos h₆]
    exact ⟨_, _, rfl, rfl, hlazy⟩
  · rw [if_neg h₁, if_neg h₂, if_neg h₃, if_neg h₄, if_neg h₅, if_neg h₆, if_pos h₇]
    obtain ⟨Good, hcorrect⟩ := combined_correct hexact (by decide : 4 ≤ 5) (by decide)
      (.newCycled m.hashsize m.hashRowWidth.toNat) q₀
    exact ⟨_, Good, rfl, rfl, hcorrect⟩
  · rw [if_neg h₁, if_neg h₂, if_neg h₃, if_neg h₄, if_neg h₅, if_neg h₆, if_neg h₇, if_pos h₈]
    obtain ⟨Good, hcorrect⟩ := combined_correct hcycled (by decide : 4 ≤ 6) (by decide)
      (.newCycled m.hashsize m.hashRowWidth.toNat) q₀
    exact ⟨_, Good, rfl, rfl, hcorrect⟩
  · rw [if_neg h₁, if_neg h₂, if_neg h₃, if_neg h₄, if_neg h₅, if_neg h₆, if_neg h₇, if_neg h₈, if_pos h₉]
    obtain ⟨Good, hcorrect⟩ := combined_correct hcycled (by decide : 4 ≤ 7) (by decide)
      (.newCycled m.hashsize m.hashRowWidth.toNat) q₀
    exact ⟨_, Good, rfl, rfl, hcorrect⟩

/-- There is no match finder without a compressor. -/
lemma finderOf_eq_none (h : variant m = none) (q₀ : Int) : finderOf m q₀ = none := by
  rw [variant] at h
  split_ifs at h with h₁ h₂ h₃ h₄ h₅ h₆ h₇ h₈ h₉
  rw [finderOf, if_neg h₁, if_neg h₂, if_neg h₃, if_neg h₄, if_neg h₅, if_neg h₆, if_neg h₇, if_neg h₈, if_neg h₉]

/-! ## Runs -/

/-- The variables of a match finder, the data in the buffer up to their end, and the current position. -/
structure Finding (M : Type) where
  mf : M
  buf : Memory
  p : Int
  bufend : Int

namespace Finding

variable {M : Type}

/-- The search at the current position. -/
def find (mf : MatchFinder M) (s : Finding M) : (ℕ × Int) × M := mf.findMatchlen s.buf s.p (matchend s.bufend) s.mf

/-- The search begins behind the first four bytes. -/
def start (mf : MatchFinder M) (buf : Memory) (bufend : Int) : Finding M := ⟨mf.new buf, buf, 4, bufend⟩

/-- What happens between two searches: nothing that is long enough is found, or a match is skipped; the data of a table
are replaced; more data are read; they are shifted; or the buffer is filled with other data behind the last two bytes. -/
inductive Step (mf : MatchFinder M) (s : Finding M) : Finding M → Prop
  | literal (hlt : s.p < s.bufend) (hlen : (s.find mf).1.1 < mf.minLength) :
    Step mf s { s with mf := (s.find mf).2, p := s.p + 1 }
  | skip (hlt : s.p < s.bufend) (hlen : mf.minLength ≤ (s.find mf).1.1) :
    Step mf s { s with
      mf := mf.updateHash s.buf s.p (s.find mf).1.1 (s.find mf).2
      p := s.p + (s.find mf).1.1 }
  | table (buf : Memory) : Step mf s { s with mf := mf.invalidateMatch s.mf, buf }
  | read {buf : Memory} {bufend : Int} (hle : s.bufend ≤ bufend) (hlt : bufend < 2 ^ 32)
    (hsame : ∀ x < s.bufend, buf x = s.buf x) : Step mf s { s with buf, bufend }
  | shift {sh bufend : Int} (buf : Memory) (hsh : 0 ≤ sh) (hle : 2 ≤ s.p - sh) (hlt : s.p < 2 ^ 32)
    (hend : bufend < 2 ^ 32) : Step mf s ⟨mf.invalidateMatch (mf.shift sh s.mf), buf, s.p - sh, bufend⟩
  | clear {bufend : Int} (cleared buf : Memory) (hend : bufend < 2 ^ 32) :
    Step mf s ⟨mf.invalidateMatch (mf.clearHash cleared s.mf), buf, 2, bufend⟩

variable {mf : MatchFinder M} {Good : M → Memory → Int → Int → Prop} {s t : Finding M}

/-- What a step keeps. -/
lemma Step.good (hmf : mf.Correct Good) (h : Step mf s t) (hgood : Good s.mf s.buf s.p s.bufend)
    (hend : s.bufend < 2 ^ 32) : Good t.mf t.buf t.p t.bufend ∧ t.bufend < 2 ^ 32 := by
  cases h with
  | literal hlt hlen => exact ⟨(hmf.find hgood hlt hend).2, hend⟩
  | skip hlt hlen =>
    obtain ⟨hfinds, hnext⟩ := hmf.find hgood hlt hend
    exact ⟨hmf.update hnext hlen (hfinds hlen).2.le hend, hend⟩
  | table buf => exact ⟨hmf.invalidate hgood buf s.bufend, hend⟩
  | read hle hlt hsame => exact ⟨hmf.grow hgood hle hsame, hlt⟩
  | shift buf hsh hle hlt hend' => exact ⟨hmf.shift hgood hsh hle hlt buf _, hend'⟩
  | clear cleared buf hend' => exact ⟨hmf.clear s.mf cleared buf _, hend'⟩

/-- What a run keeps. -/
lemma good_of_reachable (hmf : mf.Correct Good) {buf : Memory} {bufend : Int} (hend : bufend < 2 ^ 32)
    (h : ReflTransGen (Step mf) (start mf buf bufend) s) :
    Good s.mf s.buf s.p s.bufend ∧ s.bufend < 2 ^ 32 := by
  induction h with
  | refl => exact ⟨hmf.new buf bufend, hend⟩
  | tail _ hstep ih => exact hstep.good hmf ih.1 ih.2

end Finding

end DArc.Tornado
