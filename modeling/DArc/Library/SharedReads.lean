import Mathlib.Tactic

/-!
# Programs that read a shared memory

A program reads places of a memory one after another, reports what it finds and ends with a result.  Other parties
write to the memory between two reads, so the memory may be another one at each of them.  A program that reads only
such places as nobody writes to does what it would do alone.

### Outline

* `SharedReads`, `SharedReads.bind`: the programs;
* `SharedReads.act`: one read or one report;
* `SharedReads.Safe`: a program reads only places of a set, and its reports and its result have given properties.

### Main results

* `SharedReads.Safe.bind`: the rule for programs one after another;
* `SharedReads.Safe.act`: a safe program stays safe, whatever is written elsewhere.
-/

namespace DArc

/-- A program that reads values `β` at places `ι`, reports `ε` and ends with `α`. -/
inductive SharedReads (ε ι β α : Type)
  | done (a : α)
  | read (i : ι) (next : β → SharedReads ε ι β α)
  | report (e : ε) (next : SharedReads ε ι β α)

namespace SharedReads

variable {ε ι β α γ : Type}

/-- One program after another. -/
def bind : SharedReads ε ι β α → (α → SharedReads ε ι β γ) → SharedReads ε ι β γ
  | done a, f => f a
  | read i next, f => read i fun b => (next b).bind f
  | report e next, f => report e (next.bind f)

/-- One read or report, where the memory is `m`. -/
def act (m : ι → β) : SharedReads ε ι β α → SharedReads ε ι β α × Option ε
  | done a => (done a, none)
  | read i next => (next (m i), none)
  | report e next => (next, some e)

/-- Alone with the memory `m`, the program reads only places of `S`, what it reports is in `P` and its result in
`Q`. -/
def Safe (m : ι → β) (S : Set ι) (P : ε → Prop) (Q : α → Prop) : SharedReads ε ι β α → Prop
  | done a => Q a
  | read i next => i ∈ S ∧ (next (m i)).Safe m S P Q
  | report e next => P e ∧ next.Safe m S P Q

variable {m m' : ι → β} {S : Set ι} {P : ε → Prop} {Q Q' : α → Prop} {R : γ → Prop} {prog : SharedReads ε ι β α}

/-- **The rule for programs one after another.** -/
lemma Safe.bind {f : α → SharedReads ε ι β γ} (h : prog.Safe m S P Q) (hf : ∀ a, Q a → (f a).Safe m S P R) :
    (prog.bind f).Safe m S P R := by
  induction prog with
  | done a => exact hf a h
  | read i next ih => exact ⟨h.1, ih _ h.2⟩
  | report e next ih => exact ⟨h.1, ih h.2⟩

/-- Programs one after another can be put together in any way. -/
lemma bind_assoc {δ : Type} (f : α → SharedReads ε ι β γ) (g : γ → SharedReads ε ι β δ) :
    (prog.bind f).bind g = prog.bind fun a => (f a).bind g := by
  induction prog with
  | done a => rfl
  | read i next ih => exact congrArg (SharedReads.read i) (funext fun b => ih b)
  | report e next ih => exact congrArg (SharedReads.report e) ih

/-- The rule of consequence. -/
lemma Safe.imp (h : prog.Safe m S P Q) (hQ : ∀ a, Q a → Q' a) : prog.Safe m S P Q' := by
  induction prog with
  | done a => exact hQ a h
  | read i next ih => exact ⟨h.1, ih _ h.2⟩
  | report e next ih => exact ⟨h.1, ih h.2⟩

/-- What is outside of the places that are read does not matter. -/
lemma Safe.congr (h : prog.Safe m S P Q) (hm : ∀ i ∈ S, m' i = m i) : prog.Safe m' S P Q := by
  induction prog with
  | done a => exact h
  | read i next ih =>
    refine ⟨h.1, ?_⟩
    rw [hm i h.1]
    exact ih _ h.2
  | report e next ih => exact ⟨h.1, ih h.2⟩

/-- **A safe program stays safe**, and what it reports has the property. -/
lemma Safe.act (h : prog.Safe m S P Q) :
    (prog.act m).1.Safe m S P Q ∧ ∀ e, (prog.act m).2 = some e → P e := by
  cases prog with
  | done a => exact ⟨h, fun e he => nomatch he⟩
  | read i next => exact ⟨h.2, fun e he => nomatch he⟩
  | report e next => exact ⟨h.2, fun e' he => Option.some.inj he ▸ h.1⟩

end SharedReads

end DArc
