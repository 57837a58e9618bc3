import Mathlib.Tactic

/-!
# Runs with fuel

A loop that need not end is a function of its fuel: `run n` is the result after at most `n`
iterations, or `none`.  `Steady run` says that more fuel never changes a result, and
`Converges run a` that all sufficiently large fuels give the result `a`.

### Main results

* `Steady.converges`: one result of a steady run is its limit;
* `Converges.unique`: a run has at most one limit;
* `Steady.bind`, `Steady.mapM`: runs one after the other.
-/

namespace DArc

variable {α β : Type*}

/-- With enough fuel the run returns `a`. -/
def Converges (run : ℕ → Option α) (a : α) : Prop := ∃ n, ∀ fuel ≥ n, run fuel = some a

/-- One more unit of fuel does not change a result. -/
def Steady (run : ℕ → Option α) : Prop := ∀ n a, run n = some a → run (n + 1) = some a

/-- A result of a steady run is kept by all larger fuels. -/
lemma Steady.of_le {run : ℕ → Option α} (h : Steady run) {n m : ℕ} {a : α} (hnm : n ≤ m)
    (ha : run n = some a) : run m = some a := by
  induction hnm with
  | refl => exact ha
  | step _ ih => exact h _ _ ih

/-- A result of a steady run is its limit. -/
lemma Steady.converges {run : ℕ → Option α} (h : Steady run) {n : ℕ} {a : α}
    (ha : run n = some a) : Converges run a :=
  ⟨n, fun _ hle => h.of_le hle ha⟩

/-- A run converges to at most one result. -/
lemma Converges.unique {run : ℕ → Option α} {a b : α} (ha : Converges run a)
    (hb : Converges run b) : a = b := by
  obtain ⟨n, hn⟩ := ha
  obtain ⟨m, hm⟩ := hb
  exact Option.some.inj ((hn (max n m) (le_max_left _ _)).symm.trans (hm _ (le_max_right _ _)))

/-! ## Runs one after the other -/

/-- A result that needs no fuel. -/
lemma steady_const (a : Option α) : Steady fun _ => a := fun _ _ h => h

/-- A run that goes on with the result of another. -/
lemma Steady.bind {run : ℕ → Option α} {next : α → ℕ → Option β} (hrun : Steady run)
    (hnext : ∀ a, Steady (next a)) : Steady fun n => (run n).bind fun a => next a n := by
  intro n b h
  obtain ⟨a, ha, hb⟩ := Option.bind_eq_some_iff.mp h
  exact Option.bind_eq_some_iff.mpr ⟨a, hrun n a ha, hnext a n b hb⟩

/-- A function of the result. -/
lemma Steady.map {run : ℕ → Option α} (hrun : Steady run) (f : α → β) : Steady fun n => (run n).map f := by
  intro n b h
  obtain ⟨a, ha, hb⟩ := Option.map_eq_some_iff.mp h
  exact Option.map_eq_some_iff.mpr ⟨a, hrun n a ha, hb⟩

/-- Results for all items of a list are kept by a function that keeps each of them. -/
lemma mapM_mono {f g : β → Option α} (hfg : ∀ b a, f b = some a → g b = some a) {bs : List β} {as : List α}
    (h : bs.mapM f = some as) : bs.mapM g = some as := by
  induction bs generalizing as with
  | nil => exact h
  | cons b bs ih =>
    simp only [List.mapM_cons, Option.bind_eq_bind, Option.bind_eq_some_iff] at h ⊢
    obtain ⟨a, ha, rest, hrest, heq⟩ := h
    exact ⟨a, hfg b a ha, rest, ih hrest, heq⟩

/-- Runs for all items of a list. -/
lemma Steady.mapM {run : β → ℕ → Option α} (hrun : ∀ b, Steady (run b)) (bs : List β) :
    Steady fun n => bs.mapM fun b => run b n := fun n _ h =>
  mapM_mono (fun b a ha => hrun b n a ha) h

end DArc
