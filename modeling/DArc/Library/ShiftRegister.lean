import Mathlib.Tactic

/-!
# Shift registers with linear feedback

A register of `w` bits is shifted right; when the bit that falls out is set, the feedback `p` is added.
Addition of registers is `^^^`, and the clock is linear for it.

### Main results

* `clock_iterate_xor`: `n` clocks of a sum are the sum of `n` clocks;
* `clock_iterate_of_low`: while the low bits are clear the clock is the plain shift;
* `clock_iterate_split`: the low byte and the rest of a register can be clocked apart;
* `foldl_feed`: the bits of a number, fed one after another, are the number added before all clocks;
* `crcWindow_slide`: the register of a window that moves on.
-/

namespace DArc

variable {w : ℕ}

/-- One clock of the register `c` with the feedback `p`. -/
def clock (p c : BitVec w) : BitVec w :=
  if c.getLsbD 0 then (c >>> 1) ^^^ p else c >>> 1

/-- The clock is linear. -/
lemma clock_xor (p a b : BitVec w) : clock p (a ^^^ b) = clock p a ^^^ clock p b := by
  unfold clock
  rw [BitVec.getLsbD_xor, BitVec.ushiftRight_xor_distrib]
  cases a.getLsbD 0 with
  | false =>
    cases b.getLsbD 0 with
    | false => rfl
    | true => exact BitVec.xor_assoc _ _ _
  | true =>
    cases b.getLsbD 0 with
    | false =>
      change (a >>> 1 ^^^ b >>> 1) ^^^ p = (a >>> 1 ^^^ p) ^^^ b >>> 1
      rw [BitVec.xor_assoc, BitVec.xor_comm (b >>> 1), BitVec.xor_assoc]
    | true =>
      change a >>> 1 ^^^ b >>> 1 = (a >>> 1 ^^^ p) ^^^ (b >>> 1 ^^^ p)
      rw [BitVec.xor_comm (b >>> 1) p, BitVec.xor_assoc, ← BitVec.xor_assoc p, BitVec.xor_self,
        BitVec.zero_xor]

/-- Any number of clocks is linear. -/
lemma clock_iterate_xor (p : BitVec w) (n : ℕ) (a b : BitVec w) :
    (clock p)^[n] (a ^^^ b) = (clock p)^[n] a ^^^ (clock p)^[n] b := by
  induction n generalizing a b with
  | zero => rfl
  | succ n ih =>
    rw [Function.iterate_succ_apply, clock_xor, ih]
    rfl

/-- An empty register stays empty. -/
lemma clock_iterate_zero (p : BitVec w) (n : ℕ) : (clock p)^[n] 0 = 0 := by
  have h := clock_iterate_xor p n 0 0
  rwa [BitVec.xor_self, BitVec.xor_self] at h

/-- While the bits that fall out are clear, the register is only shifted. -/
lemma clock_iterate_of_low (p : BitVec w) {n : ℕ} {y : BitVec w}
    (h : ∀ i < n, y.getLsbD i = false) : (clock p)^[n] y = y >>> n := by
  induction n with
  | zero => simp
  | succ n ih =>
    have hbit : (y >>> n).getLsbD 0 = false := by
      rw [BitVec.getLsbD_ushiftRight]
      exact h n (Nat.lt_succ_self n)
    rw [Function.iterate_succ_apply', ih fun i hi => h i (Nat.lt_succ_of_lt hi), clock, hbit,
      if_neg Bool.false_ne_true, BitVec.shiftRight_add]

/-- What was shifted in from below comes out unchanged. -/
lemma clock_iterate_shiftLeft (p : BitVec w) {n : ℕ} {x : BitVec w}
    (h : ∀ i, w - n ≤ i → x.getLsbD i = false) : (clock p)^[n] (x <<< n) = x := by
  rw [clock_iterate_of_low p fun i hi => by simp [BitVec.getLsbD_shiftLeft, hi]]
  apply BitVec.eq_of_getLsbD_eq
  intro i hi
  rw [BitVec.getLsbD_ushiftRight, BitVec.getLsbD_shiftLeft]
  by_cases hlow : w - n ≤ i
  · rw [h i hlow]
    have hbig : ¬ n + i < w := by omega
    simp [hbig]
  · have hsmall : n + i < w := by omega
    simp [hsmall]

/-- When the feedback sets the highest bit, that bit shows what fell out, and no two registers are clocked
to the same one. -/
lemma clock_injective {p : BitVec w} (hp : p.getLsbD (w - 1) = true) :
    Function.Injective (clock p) := by
  have hout (x : BitVec w) : (clock p x).getLsbD (w - 1) = x.getLsbD 0 := by
    have hshift : (x >>> 1).getLsbD (w - 1) = false := by
      rw [BitVec.getLsbD_ushiftRight]
      exact BitVec.getLsbD_of_ge _ _ (by omega)
    unfold clock
    split
    next hlow => rw [BitVec.getLsbD_xor, hshift, hp, hlow]; rfl
    next hlow => rw [hshift, Bool.eq_false_of_not_eq_true hlow]
  intro x y h
  have hlow : x.getLsbD 0 = y.getLsbD 0 := by rw [← hout, ← hout, h]
  have hshift : x >>> 1 = y >>> 1 := by
    unfold clock at h
    rw [hlow] at h
    split at h
    · exact (BitVec.xor_left_inj p).mp h
    · exact h
  apply BitVec.eq_of_getLsbD_eq
  intro i _
  cases i with
  | zero => exact hlow
  | succ i =>
    have hbit := congrArg (BitVec.getLsbD · i) hshift
    simpa only [BitVec.getLsbD_ushiftRight, Nat.add_comm 1 i] using hbit

/-! ## Bits that enter one after another -/

/-- A bit is added to the lowest one, and the register is clocked. -/
def feed (p c : BitVec w) (bit : Bool) : BitVec w := clock p (c ^^^ (BitVec.ofBool bit).setWidth w)

/-- The bits of a number, the lowest one first. -/
def bitsOf {n : ℕ} (x : BitVec n) : List Bool := (List.range n).map x.getLsbD

/-- The low bits of a number, one bit more. -/
lemma setWidth_succ {n : ℕ} (x : BitVec n) (m : ℕ) (hm : m < w) :
    (x.setWidth (m + 1)).setWidth w =
      (x.setWidth m).setWidth w ^^^ (BitVec.ofBool (x.getLsbD m)).setWidth w <<< m := by
  apply BitVec.eq_of_getLsbD_eq
  intro i hi
  simp only [BitVec.getLsbD_xor, BitVec.getLsbD_setWidth, BitVec.getLsbD_shiftLeft,
    BitVec.getLsbD_ofBool, hi]
  obtain hlt | rfl | hgt := lt_trichotomy i m
  · simp [hlt, Nat.lt_succ_of_lt hlt]
  · have hpos : 0 < w := Nat.zero_lt_of_lt hi
    simp [hpos]
  · have hfar : ¬ i < m + 1 := by omega
    have hne : ¬ i - m = 0 := by omega
    simp [hfar, hne, Nat.not_lt_of_lt hgt]

/-- The bits of a number, fed one after another, are the number added before all clocks. -/
lemma foldl_feed {n : ℕ} (p c : BitVec w) (x : BitVec n) (hn : n ≤ w) :
    (bitsOf x).foldl (feed p) c = (clock p)^[n] (c ^^^ x.setWidth w) := by
  have hprefix (m : ℕ) (hm : m ≤ n) :
      ((List.range m).map x.getLsbD).foldl (feed p) c =
        (clock p)^[m] (c ^^^ (x.setWidth m).setWidth w) := by
    induction m with
    | zero =>
      have hnone : (x.setWidth 0).setWidth w = 0#w := by
        apply BitVec.eq_of_getLsbD_eq
        intro i _
        simp
      rw [hnone, BitVec.xor_zero]
      rfl
    | succ m ih =>
      have hbit : (clock p)^[m] ((BitVec.ofBool (x.getLsbD m)).setWidth w <<< m) =
          (BitVec.ofBool (x.getLsbD m)).setWidth w := by
        apply clock_iterate_shiftLeft
        intro i hi
        have hne : ¬ i = 0 := by omega
        simp [BitVec.getLsbD_ofBool, hne]
      rw [List.range_succ, List.map_append, List.foldl_append, ih (by omega), List.map_singleton,
        List.foldl_cons, List.foldl_nil, feed, Function.iterate_succ_apply',
        setWidth_succ x m (by omega), ← BitVec.xor_assoc, clock_iterate_xor p m (_ ^^^ _), hbit]
  rw [bitsOf, hprefix n le_rfl, BitVec.setWidth_eq]

/-! ## Bytes -/

/-- The byte of a register from the bit `8 * k` on. -/
def byteAt (k : ℕ) (x : BitVec w) : BitVec 8 := (x >>> (8 * k)).setWidth 8

/-- The byte, in a register. -/
lemma getLsbD_byteAt (k i : ℕ) (x : BitVec w) :
    ((byteAt k x).setWidth w).getLsbD i = (decide (i < 8) && x.getLsbD (8 * k + i)) := by
  rw [byteAt, BitVec.getLsbD_setWidth, BitVec.getLsbD_setWidth, BitVec.getLsbD_ushiftRight]
  by_cases hw : i < w
  · simp [hw]
  · have hbig : w ≤ 8 * k + i := by omega
    simp [BitVec.getLsbD_of_ge x _ hbig]

/-- Bytes of a sum. -/
lemma byteAt_xor (k : ℕ) (a b : BitVec w) : byteAt k (a ^^^ b) = byteAt k a ^^^ byteAt k b := by
  rw [byteAt, BitVec.ushiftRight_xor_distrib, BitVec.setWidth_xor]
  rfl

/-- A register is its lowest byte and the bytes above it. -/
lemma eq_byteAt_xor (x : BitVec w) :
    x = (byteAt 0 x).setWidth w ^^^ (x >>> 8) <<< 8 := by
  apply BitVec.eq_of_getLsbD_eq
  intro i hi
  rw [BitVec.getLsbD_xor, getLsbD_byteAt, BitVec.getLsbD_shiftLeft, BitVec.getLsbD_ushiftRight]
  by_cases hlow : i < 8
  · simp [hlow]
  · have hback : 8 + (i - 8) = i := by omega
    simp [hlow, hi, hback]

/-- The lowest byte is clocked alone, and the bytes above it move down. -/
lemma clock_iterate_split (p : BitVec w) (m : ℕ) (x : BitVec w) :
    (clock p)^[m + 8] x = (clock p)^[m + 8] ((byteAt 0 x).setWidth w) ^^^ (clock p)^[m] (x >>> 8) := by
  conv_lhs => rw [eq_byteAt_xor x, clock_iterate_xor]
  congr 1
  rw [Function.iterate_add_apply, clock_iterate_shiftLeft]
  intro i hi
  rw [BitVec.getLsbD_ushiftRight]
  exact BitVec.getLsbD_of_ge _ _ (by omega)

/-- The bytes of a register that was moved down. -/
lemma byteAt_ushiftRight (k : ℕ) (x : BitVec w) : byteAt k (x >>> 8) = byteAt (k + 1) x := by
  rw [byteAt, byteAt, ← BitVec.shiftRight_add, Nat.mul_succ, Nat.add_comm]

/-! ## Windows -/

/-- The register behind `n` items, each of which is added before eight clocks. -/
def crcWindow (p : BitVec w) (f : ℕ → BitVec w) : ℕ → BitVec w
  | 0 => 0
  | n + 1 => (clock p)^[8] (crcWindow p f n ^^^ f n)

/-- The first item of a window, and the others. -/
lemma crcWindow_succ (p : BitVec w) (f : ℕ → BitVec w) (n : ℕ) :
    crcWindow p f (n + 1) = (clock p)^[8 * (n + 1)] (f 0) ^^^ crcWindow p (fun j => f (1 + j)) n := by
  induction n with
  | zero =>
    have h := BitVec.zero_xor (x := f 0)
    exact (congrArg (clock p)^[8] h).trans BitVec.xor_zero.symm
  | succ n ih =>
    have hlast : (clock p)^[8] ((clock p)^[8 * (n + 1)] (f 0)) = (clock p)^[8 * (n + 1 + 1)] (f 0) := by
      rw [← Function.iterate_add_apply, Nat.mul_succ 8 (n + 1), Nat.add_comm]
    rw [crcWindow, ih, BitVec.xor_assoc, clock_iterate_xor, hlast, crcWindow, Nat.add_comm 1 n]

/-- **The window moves on by one item**: the item that enters is taken in, and the one that leaves is taken out with
what the clocks have made of it. -/
lemma crcWindow_slide (p : BitVec w) (f : ℕ → BitVec w) (n : ℕ) :
    crcWindow p (fun j => f (1 + j)) n =
      (clock p)^[8] (crcWindow p f n ^^^ f n) ^^^ (clock p)^[8 * (n + 1)] (f 0) := by
  have h := crcWindow_succ p f n
  rw [crcWindow] at h
  rw [h, BitVec.xor_comm ((clock p)^[8 * (n + 1)] (f 0)), BitVec.xor_assoc, BitVec.xor_self, BitVec.xor_zero]

end DArc
