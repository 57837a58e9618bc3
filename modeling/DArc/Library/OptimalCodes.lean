import Mathlib.InformationTheory.Coding.KraftMcMillan
import Mathlib.Data.Multiset.Fold
import Mathlib.Tactic

/-!
# Optimal codes

A code gives a length to each of some weights, and costs the sum of the weights by their lengths.  Lengths are
*feasible* if they meet the inequality of Kraft.  A number is a *lower bound* for some weights if no feasible code
costs less.

Lower bounds go from the weights behind a join of the two smallest ones to the weights in front of it, so a procedure
that joins the two smallest weights again and again gives a bound that no uniquely decodable code goes below.

### Main results

* `LowerBound.join`: the two smallest weights are joined;
* `LowerBound.le_cost_words`: the bound for uniquely decodable codes.
-/

namespace DArc

/-- Weights with lengths. -/
abbrev Code := Multiset (ℕ × ℕ)

namespace Code

/-- The sum of the weights by their lengths. -/
def cost (s : Code) : ℕ := (s.map fun p => p.1 * p.2).sum

/-- The number of words of length `m` that the words of some lengths take. -/
def taken (m : ℕ) (lengths : Multiset ℕ) : ℕ := (lengths.map fun l => 2 ^ (m - l)).sum

/-- The lengths meet the inequality of Kraft. -/
def Feasible (m : ℕ) (s : Code) : Prop := (∀ p ∈ s, p.2 ≤ m) ∧ taken m (s.map Prod.snd) ≤ 2 ^ m

@[simp] lemma cost_cons (p : ℕ × ℕ) (s : Code) : cost (p ::ₘ s) = p.1 * p.2 + cost s := by
  rw [cost, Multiset.map_cons, Multiset.sum_cons, cost]

@[simp] lemma taken_cons (m l : ℕ) (s : Multiset ℕ) : taken m (l ::ₘ s) = 2 ^ (m - l) + taken m s := by
  rw [taken, Multiset.map_cons, Multiset.sum_cons, taken]

/-- A bound for all words is one for all lengths. -/
lemma forall_snd {m : ℕ} {s : Code} (h : ∀ p ∈ s, p.2 ≤ m) : ∀ l ∈ s.map Prod.snd, l ≤ m := by
  intro l hl
  obtain ⟨p, hp, rfl⟩ := Multiset.mem_map.mp hl
  exact h p hp

/-- Words that are one longer are twice as many. -/
lemma taken_succ {m : ℕ} {lengths : Multiset ℕ} (h : ∀ l ∈ lengths, l ≤ m) :
    taken (m + 1) lengths = 2 * taken m lengths := by
  induction lengths using Multiset.induction_on with
  | empty => rfl
  | cons l s ih =>
    have hl := h l (Multiset.mem_cons_self l s)
    rw [taken_cons, taken_cons, ih fun l' hl' => h l' (Multiset.mem_cons_of_mem hl'), Nat.succ_sub hl, pow_succ]
    ring

/-- A smallest weight gets the length of a longest word, and the code does not cost more. -/
lemma exists_exchange {x : ℕ} {p : ℕ × ℕ} {t : Code} {weights : Multiset ℕ}
    (hs : (p ::ₘ t).map Prod.fst = x ::ₘ weights) (hmin : ∀ w ∈ weights, x ≤ w) (hmax : ∀ q ∈ t, q.2 ≤ p.2) :
    ∃ t' : Code, t'.map Prod.fst = weights ∧ t'.map Prod.snd = t.map Prod.snd ∧
      x * p.2 + cost t' ≤ cost (p ::ₘ t) := by
  obtain ⟨a, n⟩ := p
  rw [Multiset.map_cons] at hs
  dsimp only at hs hmax
  by_cases hax : a = x
  · subst hax
    exact ⟨t, (Multiset.cons_inj_right a).mp hs, rfl, by rw [cost_cons]⟩
  · have hmem : x ∈ t.map Prod.fst := by
      have hx : x ∈ a ::ₘ t.map Prod.fst := by rw [hs]; exact Multiset.mem_cons_self x weights
      exact (Multiset.mem_cons.mp hx).resolve_left fun h => hax h.symm
    have ha : a ∈ weights := by
      have ha : a ∈ x ::ₘ weights := by rw [← hs]; exact Multiset.mem_cons_self a _
      exact (Multiset.mem_cons.mp ha).resolve_left hax
    obtain ⟨⟨w, l⟩, hp, rfl⟩ := Multiset.mem_map.mp hmem
    obtain ⟨u, rfl⟩ := Multiset.exists_cons_of_mem hp
    refine ⟨(a, l) ::ₘ u, ?_, ?_, ?_⟩
    · rw [Multiset.map_cons, Multiset.cons_swap] at hs
      rw [Multiset.map_cons]
      exact (Multiset.cons_inj_right w).mp hs
    · rw [Multiset.map_cons, Multiset.map_cons]
    · have hle : w ≤ a := hmin a ha
      have hl : l ≤ n := hmax (w, l) (Multiset.mem_cons_self _ _)
      obtain ⟨d, rfl⟩ := Nat.exists_eq_add_of_le hle
      obtain ⟨e, rfl⟩ := Nat.exists_eq_add_of_le hl
      rw [cost_cons, cost_cons, cost_cons]
      dsimp only
      nlinarith [Nat.zero_le (d * e)]

/-- Two empty words take too much. -/
lemma not_feasible_zero {x y : ℕ} {weights : Multiset ℕ} {s : Code} (hs : s.map Prod.fst = x ::ₘ y ::ₘ weights) :
    ¬Feasible 0 s := by
  rintro ⟨-, hkraft⟩
  have hcard : taken 0 (s.map Prod.snd) = Multiset.card s := by
    have hone : ((s.map Prod.snd).map fun l => 2 ^ (0 - l)) = Multiset.replicate (Multiset.card s) 1 := by
      refine Multiset.eq_replicate.mpr ⟨?_, ?_⟩
      · rw [Multiset.card_map, Multiset.card_map]
      · intro k hk
        obtain ⟨l, _, rfl⟩ := Multiset.mem_map.mp hk
        rw [Nat.zero_sub, pow_zero]
    rw [taken, hone, Multiset.sum_replicate, smul_eq_mul, Nat.mul_one]
  have htwo : Multiset.card s = Multiset.card weights + 2 := by
    rw [← Multiset.card_map Prod.fst, hs, Multiset.card_cons, Multiset.card_cons]
  rw [hcard, htwo, pow_zero] at hkraft
  omega

/-- A single longest word can be one shorter. -/
lemma feasible_shorten {a m : ℕ} {t : Code} (h : Feasible (m + 1) ((a, m + 1) ::ₘ t)) (halone : ∀ p ∈ t, p.2 ≤ m) :
    Feasible m ((a, m) ::ₘ t) := by
  obtain ⟨-, hkraft⟩ := h
  have htaken : taken (m + 1) (t.map Prod.snd) = 2 * taken m (t.map Prod.snd) := taken_succ (forall_snd halone)
  rw [Multiset.map_cons, taken_cons, Nat.sub_self, pow_zero, htaken, pow_succ] at hkraft
  refine ⟨fun p hp => ?_, ?_⟩
  · rcases Multiset.mem_cons.mp hp with rfl | hp
    · exact le_rfl
    · exact halone p hp
  · rw [Multiset.map_cons, taken_cons, Nat.sub_self, pow_zero]
    omega

/-- Two longest words can go to the two smallest weights, which gives a code for their sum. -/
lemma exists_joined {x y m : ℕ} {weights : Multiset ℕ} {p q : ℕ × ℕ} {u : Code} (hxy : x ≤ y)
    (hx : ∀ w ∈ weights, x ≤ w) (hy : ∀ w ∈ weights, y ≤ w)
    (hs : (p ::ₘ q ::ₘ u).map Prod.fst = x ::ₘ y ::ₘ weights) (hfeasible : Feasible (m + 1) (p ::ₘ q ::ₘ u))
    (hp : p.2 = m + 1) (hq : q.2 = m + 1) :
    ∃ t : Code, t.map Prod.fst = (x + y) ::ₘ weights ∧ Feasible (m + 1) t ∧
      cost t + (x + y) ≤ cost (p ::ₘ q ::ₘ u) := by
  obtain ⟨hlengths, hkraft⟩ := hfeasible
  have hlengths' : ∀ l ∈ (q ::ₘ u).map Prod.snd, l ≤ m + 1 :=
    forall_snd fun p' hp' => hlengths p' (Multiset.mem_cons_of_mem hp')
  -- the smallest weight first
  obtain ⟨t, hfst, hsnd, hcost⟩ := exists_exchange hs
    (fun w hw => (Multiset.mem_cons.mp hw).elim (fun h => h ▸ hxy) (hx w))
    (fun p' hp' => hp ▸ hlengths p' (Multiset.mem_cons_of_mem hp'))
  have hmem : m + 1 ∈ t.map Prod.snd := by
    rw [hsnd, Multiset.map_cons, hq]
    exact Multiset.mem_cons_self _ _
  obtain ⟨r, hr, hlong⟩ := Multiset.mem_map.mp hmem
  obtain ⟨v, rfl⟩ := Multiset.exists_cons_of_mem hr
  -- then the other one
  obtain ⟨v', hfst', hsnd', hcost'⟩ := exists_exchange hfst hy (fun p' hp' => hlong ▸ hlengths' p'.2 (by
    rw [← hsnd]
    exact Multiset.mem_map_of_mem _ (Multiset.mem_cons_of_mem hp')))
  have hlengths : v.map Prod.snd = u.map Prod.snd := by
    rw [Multiset.map_cons, Multiset.map_cons, hlong, hq] at hsnd
    exact (Multiset.cons_inj_right _).mp hsnd
  refine ⟨(x + y, m) ::ₘ v', by rw [Multiset.map_cons, hfst'], ⟨fun p' hp' => ?_, ?_⟩, ?_⟩
  · rcases Multiset.mem_cons.mp hp' with rfl | hp'
    · exact Nat.le_succ m
    · refine hlengths' p'.2 ?_
      rw [← hsnd, Multiset.map_cons, ← hsnd']
      exact Multiset.mem_cons_of_mem (Multiset.mem_map_of_mem _ hp')
  · rw [Multiset.map_cons, Multiset.map_cons, taken_cons, taken_cons, hp, hq, Nat.sub_self, ← hlengths, ← hsnd']
      at hkraft
    rw [Multiset.map_cons, taken_cons, Nat.add_sub_cancel_left]
    omega
  · rw [hp] at hcost
    rw [hlong] at hcost'
    rw [cost_cons]
    dsimp only
    linarith

end Code

open Code

/-- No feasible code for the weights costs less. -/
def LowerBound (weights : Multiset ℕ) (c : ℕ) : Prop :=
  ∀ (m : ℕ) (s : Code), s.map Prod.fst = weights → Feasible m s → c ≤ cost s

namespace LowerBound

/-- No code costs less than nothing. -/
lemma zero (weights : Multiset ℕ) : LowerBound weights 0 := fun _ _ _ _ => Nat.zero_le _

/-- **The two smallest weights are joined.** In a cheapest code they can have the same length, the largest one, so
that their sum can have a word that is one shorter. -/
theorem join {x y c : ℕ} {weights : Multiset ℕ} (hx : ∀ w ∈ weights, x ≤ w) (hy : ∀ w ∈ weights, y ≤ w)
    (h : LowerBound ((x + y) ::ₘ weights) c) : LowerBound (x ::ₘ y ::ₘ weights) (c + (x + y)) := by
  wlog hxy : x ≤ y generalizing x y
  · rw [Multiset.cons_swap, Nat.add_comm x y]
    exact this hy hx (by rwa [Nat.add_comm y x]) (Nat.le_of_not_le hxy)
  intro m
  induction m with
  | zero => exact fun s hs hfeasible => absurd hfeasible (not_feasible_zero hs)
  | succ m ih =>
    intro s hs hfeasible
    by_cases hshort : ∀ p ∈ s, p.2 ≤ m
    · refine ih s hs ⟨hshort, ?_⟩
      have hkraft := hfeasible.2
      rw [taken_succ (forall_snd hshort), pow_succ] at hkraft
      omega
    · push Not at hshort
      obtain ⟨⟨a, l⟩, hp, hlong⟩ := hshort
      obtain rfl : l = m + 1 := Nat.le_antisymm (hfeasible.1 _ hp) hlong
      obtain ⟨t, rfl⟩ := Multiset.exists_cons_of_mem hp
      by_cases halone : ∀ p ∈ t, p.2 ≤ m
      · have hle := ih ((a, m) ::ₘ t) (by rw [← hs, Multiset.map_cons, Multiset.map_cons])
          (feasible_shorten hfeasible halone)
        have hmul : a * m ≤ a * (m + 1) := Nat.mul_le_mul_left a (Nat.le_succ m)
        rw [cost_cons] at hle ⊢
        dsimp only at hle ⊢
        omega
      · push Not at halone
        obtain ⟨⟨b, l⟩, hq, hlong⟩ := halone
        obtain rfl : l = m + 1 := Nat.le_antisymm (hfeasible.1 _ (Multiset.mem_cons_of_mem hq)) hlong
        obtain ⟨u, rfl⟩ := Multiset.exists_cons_of_mem hq
        obtain ⟨t, hfst, ht, hcost⟩ := exists_joined hxy hx hy hs hfeasible rfl rfl
        have hle := h (m + 1) t hfst ht
        omega

/-- **The bound for uniquely decodable codes.** They meet the inequality of Kraft and McMillan. -/
theorem le_cost_words {ι : Type*} {s : Finset ι} {weight : ι → ℕ} {words : ι → List Bool} {c : ℕ}
    (h : LowerBound (s.val.map weight) c) (hinj : Set.InjOn words s)
    (hwords : InformationTheory.UniquelyDecodable (words '' s)) : c ≤ ∑ i ∈ s, weight i * (words i).length := by
  classical
  have hsum : ∑ i ∈ s, (1 / 2 : ℝ) ^ (words i).length ≤ 1 := by
    have hkraft := InformationTheory.kraft_mcmillan_inequality (S := s.image words) (by rwa [Finset.coe_image])
    rw [Finset.sum_image hinj, Fintype.card_bool] at hkraft
    exact_mod_cast hkraft
  set m := s.sup fun i => (words i).length with hm
  have hle : ∀ i ∈ s, (words i).length ≤ m := fun i hi => Finset.le_sup (f := fun i => (words i).length) hi
  have hcost : cost (s.val.map fun i => (weight i, (words i).length)) = ∑ i ∈ s, weight i * (words i).length := by
    rw [cost, Multiset.map_map]
    rfl
  rw [← hcost]
  refine h m _ (by rw [Multiset.map_map]; rfl) ⟨fun p hp => ?_, ?_⟩
  · obtain ⟨i, hi, rfl⟩ := Multiset.mem_map.mp hp
    exact hle i hi
  · have htaken : taken m ((s.val.map fun i => (weight i, (words i).length)).map Prod.snd) =
        ∑ i ∈ s, 2 ^ (m - (words i).length) := by
      rw [taken, Multiset.map_map, Multiset.map_map]
      rfl
    have hreal : ((∑ i ∈ s, 2 ^ (m - (words i).length) : ℕ) : ℝ) =
        2 ^ m * ∑ i ∈ s, (1 / 2 : ℝ) ^ (words i).length := by
      rw [Finset.mul_sum]
      push_cast
      refine Finset.sum_congr rfl fun i hi => ?_
      rw [pow_sub₀ _ two_ne_zero (hle i hi), one_div, inv_pow]
    rw [htaken]
    have hpow : (0 : ℝ) < 2 ^ m := by positivity
    have hfinal : ((∑ i ∈ s, 2 ^ (m - (words i).length) : ℕ) : ℝ) ≤ ((2 ^ m : ℕ) : ℝ) := by
      rw [hreal]
      push_cast
      nlinarith
    exact_mod_cast hfinal

end LowerBound

end DArc
