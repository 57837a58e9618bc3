import Mathlib.Tactic

/-!
# Programs that note what they meet

`Noted C α` is a program that notes values of type `C` on its way and ends with a result or fails.  What it notes is
kept when it fails.  `Yields G Q x` says that the program succeeds with a result in `Q` whenever everything it notes
is good: a property of its runs under an assumption about the states in which they take a certain step.

### Main results

* `yields_pure`, `yields_bind`, `yields_note`: the rules for the parts of a program;
* `Yields.of_notes`: with good notes the program succeeds.
-/

namespace DArc

variable {C α β : Type}

/-- What a program notes, and its result. -/
def Noted (C α : Type) : Type := List C × Option α

namespace Noted

/-- What the program notes. -/
def notes (x : Noted C α) : List C := x.1

/-- The result of the program, if it does not fail. -/
def result (x : Noted C α) : Option α := x.2

/-- A value. -/
protected def pure (a : α) : Noted C α := ([], some a)

/-- One part after another. -/
protected def bind (x : Noted C α) (f : α → Noted C β) : Noted C β :=
  match x.2 with
  | none => (x.1, none)
  | some a => (x.1 ++ (f a).1, (f a).2)

instance : Monad (Noted C) where
  pure := Noted.pure
  bind := Noted.bind

/-- The program fails. -/
def fail : Noted C α := ([], none)

/-- The program notes a value. -/
def note (c : C) : Noted C Unit := ([c], some ())

/-- The program fails unless there is a result. -/
def ofOption (a : Option α) : Noted C α := ([], a)

/-! ## Success under good notes -/

/-- If everything the program notes is good, it succeeds with a result in `Q`. -/
def Yields (G : C → Prop) (Q : α → Prop) (x : Noted C α) : Prop :=
  (∀ c ∈ x.notes, G c) → ∃ a, x.result = some a ∧ Q a

variable {G : C → Prop} {Q Q' : α → Prop} {R : β → Prop} {x : Noted C α} {f : α → Noted C β}

/-- A value is a result. -/
lemma yields_pure {a : α} (h : Q a) : Yields G Q (pure a : Noted C α) := fun _ => ⟨a, rfl, h⟩

/-- A good result is a result. -/
lemma yields_ofOption {o : Option α} {a : α} (ho : o = some a) (h : Q a) : Yields G Q (ofOption o : Noted C α) :=
  fun _ => ⟨a, ho, h⟩

/-- What is noted may be used. -/
lemma yields_note {c : C} {Q : Unit → Prop} (h : G c → Q ()) : Yields G Q (note c) :=
  fun hgood => ⟨(), rfl, h (hgood c List.mem_cons_self)⟩

/-- One part after another. -/
lemma yields_bind (hx : Yields G Q x) (hf : ∀ a, Q a → Yields G R (f a)) : Yields G R (x >>= f) := by
  change Yields G R (Noted.bind x f)
  obtain ⟨notes, result⟩ := x
  cases result with
  | none =>
    intro hgood
    obtain ⟨a, ha, -⟩ := hx hgood
    cases ha
  | some a =>
    intro hgood
    have hfirst : ∀ c ∈ notes, G c := fun c hc => hgood c (List.mem_append_left _ hc)
    obtain ⟨a', ha, hQ⟩ := hx hfirst
    obtain rfl : a = a' := Option.some.inj ha
    exact hf a hQ fun c hc => hgood c (List.mem_append_right _ hc)

/-- A weaker property of the result. -/
lemma Yields.mono (h : Yields G Q x) (hQ : ∀ a, Q a → Q' a) : Yields G Q' x := by
  intro hgood
  obtain ⟨a, ha, hQa⟩ := h hgood
  exact ⟨a, ha, hQ a hQa⟩

/-- With good notes the program succeeds. -/
lemma Yields.of_notes (h : Yields G Q x) (hgood : ∀ c ∈ x.notes, G c) : ∃ a, x.result = some a ∧ Q a := h hgood

end Noted

end DArc
