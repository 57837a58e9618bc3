import Mathlib.Tactic

/-!
# Parity of striped sectors

Sectors are dealt to `N` classes in turn, and the bytes at one place of the sectors of a class are added
with `^^^`.  Bytes behind the end of a sector count as zero.

### Main results

* `parity_xor_of_eq`: the parities of two lists that agree in a class cancel out;
* `parity_xor_of_differ`: where they differ in one sector of the class, the difference remains.
-/

namespace DArc

/-- The byte `p` of a sector, with zeros behind its end. -/
def byteOf (X : List UInt8) (p : ℕ) : UInt8 := X.getD p 0

/-- There are zeros behind the end. -/
lemma byteOf_of_le {X : List UInt8} {p : ℕ} (h : X.length ≤ p) : byteOf X p = 0 := by
  rw [byteOf, List.getD_eq_getElem?_getD, List.getElem?_eq_none h, Option.getD_none]

/-- The bytes of two sectors, one behind the other. -/
lemma byteOf_append (X Y : List UInt8) (p : ℕ) :
    byteOf (X ++ Y) p = if p < X.length then byteOf X p else byteOf Y (p - X.length) := by
  simp only [byteOf, List.getD_eq_getElem?_getD]
  by_cases h : p < X.length
  · rw [if_pos h, List.getElem?_append_left h]
  · rw [if_neg h, List.getElem?_append_right (not_lt.mp h)]

/-- The bytes of a beginning. -/
lemma byteOf_take {n p : ℕ} (X : List UInt8) (h : p < n) : byteOf (X.take n) p = byteOf X p := by
  simp only [byteOf, List.getD_eq_getElem?_getD, List.getElem?_take_of_lt h]

/-- The bytes behind a beginning. -/
lemma byteOf_drop (X : List UInt8) (n p : ℕ) : byteOf (X.drop n) p = byteOf X (n + p) := by
  simp only [byteOf, List.getD_eq_getElem?_getD, List.getElem?_drop]

/-- Sectors of one size are the same if they have the same bytes. -/
lemma eq_of_byteOf {X Y : List UInt8} (hlen : X.length = Y.length)
    (h : ∀ p < X.length, byteOf X p = byteOf Y p) : X = Y := by
  refine List.ext_getElem hlen fun p hX hY => ?_
  have hp := h p hX
  simpa only [byteOf, List.getD_eq_getElem?_getD, List.getElem?_eq_getElem hX,
    List.getElem?_eq_getElem hY, Option.getD_some] using hp

/-- The sum of the bytes `p` of the sectors of class `j`, when the first sector is of class `idx`. -/
def parity (N : ℕ) : ℕ → List (List UInt8) → ℕ → ℕ → UInt8
  | _, [], _, _ => 0
  | idx, X :: Xs, j, p => (if idx = j then byteOf X p else 0) ^^^ parity N ((idx + 1) % N) Xs j p

variable {N : ℕ}

/-- The class of the sectors that follow. -/
lemma class_succ (idx i : ℕ) : ((idx + 1) % N + i) % N = (idx + (i + 1)) % N := by
  rw [Nat.mod_add_mod, Nat.add_assoc, Nat.add_comm 1 i]

/-- Four bytes that are added in pairs. -/
lemma xor_xor_xor_comm (a b c d : UInt8) : (a ^^^ b) ^^^ (c ^^^ d) = (a ^^^ c) ^^^ (b ^^^ d) := by
  rw [UInt8.xor_assoc, UInt8.xor_assoc, ← UInt8.xor_assoc b, UInt8.xor_comm b c, UInt8.xor_assoc c]

/-- The parities of two lists that agree in the class cancel out. -/
lemma parity_xor_of_eq {Ss Ts : List (List UInt8)} {idx j : ℕ} (p : ℕ) (hidx : idx < N)
    (hlen : Ss.length = Ts.length)
    (h : ∀ i < Ss.length, (idx + i) % N = j → Ss[i]? = Ts[i]?) :
    parity N idx Ss j p ^^^ parity N idx Ts j p = 0 := by
  induction Ss generalizing Ts idx with
  | nil =>
    have hnil : Ts = [] := List.eq_nil_of_length_eq_zero hlen.symm
    rw [hnil, parity, UInt8.xor_self]
  | cons S Ss ih =>
    cases Ts with
    | nil => simp at hlen
    | cons T Ts =>
      have hhead : (if idx = j then byteOf S p else 0) = if idx = j then byteOf T p else 0 := by
        by_cases hj : idx = j
        · have heq := h 0 (by simp) (by rw [Nat.add_zero, Nat.mod_eq_of_lt hidx, hj])
          have hST : S = T := by simpa using heq
          rw [hST]
        · rw [if_neg hj, if_neg hj]
      rw [parity, parity, xor_xor_xor_comm, hhead, UInt8.xor_self, UInt8.zero_xor]
      refine ih (Nat.mod_lt _ (by omega)) (Nat.succ.inj hlen) fun i hi hclass => ?_
      rw [class_succ] at hclass
      exact h (i + 1) (Nat.succ_lt_succ hi) hclass

/-- The parities of two lists that differ in one sector of the class leave the difference. -/
lemma parity_xor_of_differ {Ss Ts : List (List UInt8)} {idx j d : ℕ} (p : ℕ) (hidx : idx < N)
    (hlen : Ss.length = Ts.length) {S T : List UInt8} (hS : Ss[d]? = some S) (hT : Ts[d]? = some T)
    (hd : (idx + d) % N = j)
    (h : ∀ i < Ss.length, i ≠ d → (idx + i) % N = j → Ss[i]? = Ts[i]?) :
    parity N idx Ss j p ^^^ parity N idx Ts j p = byteOf S p ^^^ byteOf T p := by
  induction Ss generalizing Ts idx d with
  | nil => simp at hS
  | cons X Ss ih =>
    cases Ts with
    | nil => simp at hlen
    | cons Y Ts =>
      rw [parity, parity, xor_xor_xor_comm]
      have hnext : (idx + 1) % N < N := Nat.mod_lt _ (by omega)
      cases d with
      | zero =>
        have hX : X = S := by simpa using hS
        have hY : Y = T := by simpa using hT
        have hj : idx = j := by rw [← hd, Nat.add_zero, Nat.mod_eq_of_lt hidx]
        rw [if_pos hj, if_pos hj, hX, hY, parity_xor_of_eq p hnext (Nat.succ.inj hlen), UInt8.xor_zero]
        intro i hi hclass
        rw [class_succ] at hclass
        exact h (i + 1) (Nat.succ_lt_succ hi) (Nat.succ_ne_zero i) hclass
      | succ d =>
        have hhead : (if idx = j then byteOf X p else 0) = if idx = j then byteOf Y p else 0 := by
          by_cases hj : idx = j
          · have heq := h 0 (by simp) (Nat.succ_ne_zero d).symm
              (by rw [Nat.add_zero, Nat.mod_eq_of_lt hidx, hj])
            have hXY : X = Y := by simpa using heq
            rw [hXY]
          · rw [if_neg hj, if_neg hj]
        rw [hhead, UInt8.xor_self, UInt8.zero_xor]
        refine ih hnext (Nat.succ.inj hlen) (by simpa using hS) (by simpa using hT) ?_ fun i hi hne hclass => ?_
        · rw [class_succ]
          exact hd
        · rw [class_succ] at hclass
          exact h (i + 1) (Nat.succ_lt_succ hi) (by omega) hclass

end DArc
