import DArc.Library.PolynomialHash
import DArc.Library.ShiftRegister
import Mathlib.Data.BitVec
import Mathlib.Data.Int.Init

/-!
# Rolling hashes

The hash of a window of `L` bytes is kept up while the window moves over the data: it is computed afresh at some
place, or moved on by one byte or by several bytes at once.

### Outline

* `PolynomialRollingHash`, with the powers of the base that its updates need;
* `CrcRollingHash`, with the table of what leaves the window;
* `Call`: computing afresh and moving on.

### Main results

* `PolynomialRollingHash.run_spec`: the hash is the polynomial hash of the window;
* `CrcRollingHash.run_spec`: the hash is the CRC of the window.
-/

namespace DArc.SREP

variable {w : ℕ}

/-- The bytes in memory. -/
abbrev Bytes := ℤ → UInt8

/-- A byte of the memory as a number of `w` bits. -/
def Bytes.at (mem : Bytes) (w : ℕ) (p : ℤ) : BitVec w := ((mem p).toNat : BitVec w)

/-- The bytes from `p` on. -/
def Bytes.from (mem : Bytes) (w : ℕ) (p : ℤ) (j : ℕ) : BitVec w := mem.at w (p + j)

/-- The bytes behind the first `m` ones. -/
lemma from_add (mem : Bytes) (p : ℤ) (m : ℕ) : mem.from w (p + m) = fun j => mem.from w p (m + j) := by
  funext j
  rw [Bytes.from, Bytes.from, add_assoc, Nat.cast_add]

/-- The bytes behind the first one. -/
lemma from_add_one (mem : Bytes) (p : ℤ) : mem.from w (p + 1) = fun j => mem.from w p (1 + j) := from_add mem p 1

/-- A byte that is named by its place in a window. -/
lemma at_eq (mem : Bytes) {p q : ℤ} (j : ℕ) (hq : q = p + j) : mem.at w q = mem.from w p j := by
  rw [hq]
  rfl

/-! ## The polynomial hash -/

/-- The loop of `power`. -/
def powerLoop (result base : BitVec w) (n : ℕ) : BitVec w :=
  if n = 0 then result
  else if n % 2 = 1 then powerLoop (result * base) (base * base) ((n - 1) / 2)
  else powerLoop result (base * base) (n / 2)
termination_by n

/-- `power`. -/
def power (base : BitVec w) (n : ℕ) : BitVec w := powerLoop 1 base n

/-- `power` is the power. -/
lemma powerLoop_eq (result base : BitVec w) (n : ℕ) : powerLoop result base n = result * base ^ n := by
  induction n using Nat.strong_induction_on generalizing result base with
  | _ n ih =>
    rw [powerLoop]
    split_ifs with hzero hodd
    · rw [hzero, pow_zero, mul_one]
    · have hn : n = 2 * ((n - 1) / 2) + 1 := by omega
      rw [ih _ (by omega), ← pow_two, ← pow_mul, mul_assoc, ← pow_succ', ← hn]
    · have hn : n = 2 * (n / 2) := by omega
      rw [ih _ (by omega), ← pow_two, ← pow_mul, ← hn]

/-- `PolynomialRollingHash`. -/
structure PolynomialRollingHash (w : ℕ) where
  value : BitVec w
  prime : BitVec w
  prime2 : BitVec w
  prime3 : BitVec w
  prime4 : BitVec w
  prime5 : BitVec w
  prime6 : BitVec w
  prime7 : BitVec w
  prime8 : BitVec w
  primeL : BitVec w
  primeL1 : BitVec w
  primeL2 : BitVec w
  primeL3 : BitVec w
  L : ℤ

namespace PolynomialRollingHash

/-- The constructor without a buffer, which leaves some value there. -/
def new (garbage : BitVec w) (L : ℤ) (seed : BitVec w) : PolynomialRollingHash w :=
  let prime := seed
  let prime2 := seed * prime
  let prime3 := seed * prime2
  let prime4 := seed * prime3
  let prime5 := seed * prime4
  let prime6 := seed * prime5
  let prime7 := seed * prime6
  let primeL := power prime (L % 2 ^ 32).toNat
  let primeL1 := seed * primeL
  let primeL2 := seed * primeL1
  { value := garbage, prime, prime2, prime3, prime4, prime5, prime6, prime7, prime8 := seed * prime7
    primeL, primeL1, primeL2, primeL3 := seed * primeL2, L }

variable (h : PolynomialRollingHash w) (mem : Bytes)

/-- `update` by a byte that leaves the window and one that enters it. -/
def update (sub add : UInt8) : PolynomialRollingHash w :=
  { h with value := h.value * h.prime + (add.toNat : BitVec w) - h.primeL * (sub.toNat : BitVec w) }

/-- The first part of `update<N>`, which moves the hash on by `N % 4` bytes. -/
def updateHead (n : ℕ) (ptr : ℤ) : BitVec w :=
  match n % 4 with
  | 0 => h.value
  | 1 => h.value * h.prime + mem.at w (ptr + h.L) - h.primeL * mem.at w ptr
  | 2 => h.value * h.prime2 + h.prime * mem.at w (ptr + h.L) + mem.at w (ptr + (h.L + 1))
      - h.primeL1 * mem.at w ptr - h.primeL * mem.at w (ptr + 1)
  | _ => h.value * h.prime3 + h.prime2 * mem.at w (ptr + h.L) + h.prime * mem.at w (ptr + (h.L + 1))
      + mem.at w (ptr + (h.L + 2))
      - h.primeL2 * mem.at w ptr - h.primeL1 * mem.at w (ptr + 1) - h.primeL * mem.at w (ptr + 2)

/-- The loop of `update<N>`, with `r` for `N % 4` and the number of turns that are left. -/
def updateFours (r : ℕ) : ℕ → ℤ → BitVec w → BitVec w
  | 0, _, value => value
  | turns + 1, ptr, value =>
    updateFours r turns (ptr + 4)
      (value * h.prime4 + h.prime3 * mem.at w (ptr + (r + h.L)) + h.prime2 * mem.at w (ptr + (r + h.L + 1))
        + h.prime * mem.at w (ptr + (r + h.L + 2)) + mem.at w (ptr + (r + h.L + 3))
        - h.primeL3 * mem.at w (ptr + r) - h.primeL2 * mem.at w (ptr + (r + 1))
        - h.primeL1 * mem.at w (ptr + (r + 2)) - h.primeL * mem.at w (ptr + (r + 3)))

/-- `update<N>`: the hash moves on by `N` bytes. -/
def updateN (n : ℕ) (ptr : ℤ) : PolynomialRollingHash w :=
  { h with value := h.updateFours mem (n % 4) (n / 4) ptr (h.updateHead mem n ptr) }

/-- `STEP`: four bytes from `p` on. -/
def step (p : ℤ) (value : BitVec w) : BitVec w :=
  value * h.prime4 + h.prime3 * mem.at w p + h.prime2 * mem.at w (p + 1) + h.prime * mem.at w (p + 2)
    + mem.at w (p + 3)

/-- The first loop of `moveto`, which takes 16 bytes in a turn, with the number of turns that are left. -/
def movetoSixteens (buf : ℤ) : ℕ → ℤ → BitVec w → BitVec w
  | 0, _, value => value
  | turns + 1, i, value =>
    movetoSixteens buf turns (i + 16)
      (h.step mem (buf + (i + 12)) (h.step mem (buf + (i + 8)) (h.step mem (buf + (i + 4)) (h.step mem (buf + i) value))))

/-- The second loop of `moveto`. -/
def movetoOnes (buf : ℤ) : ℕ → ℤ → BitVec w → BitVec w
  | 0, _, value => value
  | turns + 1, i, value => movetoOnes buf turns (i + 1) (value * h.prime + mem.at w (buf + i))

/-- `moveto`. -/
def moveto (buf : ℤ) : PolynomialRollingHash w :=
  let n := h.L - h.L % 16
  { h with value := h.movetoOnes mem buf (h.L - n).toNat n (h.movetoSixteens mem buf (n / 16).toNat 0 0) }

/-! ### The hash of the window -/

/-- The powers of the base `b` for a window of `n` bytes. -/
structure Powers (b : BitVec w) (n : ℕ) : Prop where
  prime : h.prime = b
  prime2 : h.prime2 = b ^ 2
  prime3 : h.prime3 = b ^ 3
  prime4 : h.prime4 = b ^ 4
  primeL : h.primeL = b ^ n
  primeL1 : h.primeL1 = b ^ (n + 1)
  primeL2 : h.primeL2 = b ^ (n + 2)
  primeL3 : h.primeL3 = b ^ (n + 3)
  length : h.L = n

variable {h mem} {b : BitVec w} {n : ℕ} {p : ℤ}

/-- The constructor computes the powers. -/
lemma powers_new (garbage : BitVec w) (hn : n < 2 ^ 32) (b : BitVec w) : Powers (new garbage n b) b n := by
  have hpower : power b ((n : ℤ) % 2 ^ 32).toNat = b ^ n := by
    have hint : ((n : ℤ) % 2 ^ 32).toNat = n := by omega
    rw [power, powerLoop_eq, one_mul, hint]
  constructor
  case prime => rfl
  case prime2 => exact (pow_two b).symm
  case prime3 => exact (pow_three b).symm
  case prime4 => exact (pow_succ' b 3).symm ▸ congrArg (b * ·) (pow_three b).symm
  case primeL => exact hpower
  case primeL1 => exact (congrArg (b * ·) hpower).trans (pow_succ' b n).symm
  case primeL2 => exact (congrArg (fun x => b * (b * x)) hpower).trans (by ring)
  case primeL3 => exact (congrArg (fun x => b * (b * (b * x))) hpower).trans (by ring)
  case length => rfl

/-- Only the value changes. -/
lemma Powers.of_value (hp : Powers h b n) (value : BitVec w) : Powers { h with value := value } b n :=
  ⟨hp.1, hp.2, hp.3, hp.4, hp.5, hp.6, hp.7, hp.8, hp.9⟩

/-- The hash is that of the `n` bytes from `p` on. -/
def RightAt (h : PolynomialRollingHash w) (mem : Bytes) (b : BitVec w) (n : ℕ) (p : ℤ) : Prop :=
  h.value = polyHash b (mem.from w p) n

/-- A window that moves on by one byte. -/
lemma update_spec (hp : Powers h b n) (hat : RightAt h mem b n p) :
    RightAt (h.update (mem p) (mem (p + n))) mem b n (p + 1) := by
  have hslide := polyHash_slide_one b (mem.from w p) n
  rw [RightAt, update, from_add_one, hslide, hp.prime, hp.primeL, hat]
  have hzero : mem.from w p 0 = ((mem p).toNat : BitVec w) := by rw [Bytes.from, Bytes.at, Nat.cast_zero, add_zero]
  rw [hzero]
  rfl

/-- The first part of an update by several bytes. -/
lemma updateHead_spec (hp : Powers h b n) (hat : RightAt h mem b n p) (m : ℕ) :
    h.updateHead mem m p = polyHash b (mem.from w (p + (m % 4 : ℕ))) n := by
  rw [from_add, polyHash_slide, ← hat, updateHead]
  have hlt : m % 4 < 4 := Nat.mod_lt m (by decide)
  have h0 : mem.at w p = mem.from w p 0 := at_eq mem 0 (by simp)
  have h1 : mem.at w (p + 1) = mem.from w p 1 := at_eq mem 1 (by simp)
  have h2 : mem.at w (p + 2) = mem.from w p 2 := at_eq mem 2 (by simp)
  have hL : mem.at w (p + h.L) = mem.from w p n := at_eq mem n (by rw [hp.length])
  have hL1 : mem.at w (p + (h.L + 1)) = mem.from w p (n + 1) := at_eq mem (n + 1) (by rw [hp.length]; rfl)
  have hL2 : mem.at w (p + (h.L + 2)) = mem.from w p (n + 2) := at_eq mem (n + 2) (by rw [hp.length]; rfl)
  rw [h0, h1, h2, hL, hL1, hL2, hp.prime, hp.prime2, hp.prime3, hp.primeL, hp.primeL1, hp.primeL2]
  match m % 4, hlt with
  | 0, _ => simp only [polyHash]; ring_nf
  | 1, _ => simp only [polyHash]; ring_nf
  | 2, _ => simp only [polyHash]; ring_nf
  | 3, _ => simp only [polyHash]; ring_nf

/-- The loop of an update by several bytes, for a window that begins `r` bytes behind `ptr`. -/
lemma updateFours_spec (hp : Powers h b n) (r turns : ℕ) (ptr : ℤ) {value : BitVec w}
    (hvalue : value = polyHash b (mem.from w (ptr + r)) n) :
    h.updateFours mem r turns ptr value = polyHash b (mem.from w (ptr + r + (4 * turns : ℕ))) n := by
  induction turns generalizing ptr value with
  | zero => rw [updateFours, hvalue, Nat.mul_zero, Nat.cast_zero, add_zero]
  | succ turns ih =>
    have h0 : mem.at w (ptr + r) = mem.from w (ptr + r) 0 := at_eq mem 0 (by simp)
    have h1 : mem.at w (ptr + (r + 1)) = mem.from w (ptr + r) 1 := at_eq mem 1 (by push_cast; ring)
    have h2 : mem.at w (ptr + (r + 2)) = mem.from w (ptr + r) 2 := at_eq mem 2 (by push_cast; ring)
    have h3 : mem.at w (ptr + (r + 3)) = mem.from w (ptr + r) 3 := at_eq mem 3 (by push_cast; ring)
    have hL : mem.at w (ptr + (r + h.L)) = mem.from w (ptr + r) n := at_eq mem n (by rw [hp.length]; ring)
    have hL1 : mem.at w (ptr + (r + h.L + 1)) = mem.from w (ptr + r) (n + 1) :=
      at_eq mem (n + 1) (by rw [hp.length]; push_cast; ring)
    have hL2 : mem.at w (ptr + (r + h.L + 2)) = mem.from w (ptr + r) (n + 2) :=
      at_eq mem (n + 2) (by rw [hp.length]; push_cast; ring)
    have hL3 : mem.at w (ptr + (r + h.L + 3)) = mem.from w (ptr + r) (n + 3) :=
      at_eq mem (n + 3) (by rw [hp.length]; push_cast; ring)
    have hplace : ptr + r + (4 * (turns + 1) : ℕ) = ptr + 4 + r + (4 * turns : ℕ) := by push_cast; ring
    rw [updateFours, hplace]
    apply ih
    have hnext : ptr + 4 + r = ptr + r + (4 : ℕ) := by push_cast; ring
    rw [hnext, from_add, polyHash_slide, ← hvalue, h0, h1, h2, h3, hL, hL1, hL2, hL3, hp.prime, hp.prime2, hp.prime3,
      hp.prime4, hp.primeL, hp.primeL1, hp.primeL2, hp.primeL3]
    simp only [polyHash]
    ring_nf

/-- A window that moves on by several bytes. -/
lemma updateN_spec (hp : Powers h b n) (hat : RightAt h mem b n p) (m : ℕ) :
    RightAt (h.updateN mem m p) mem b n (p + m) := by
  have hplace : p + (m : ℤ) = p + (m % 4 : ℕ) + (4 * (m / 4) : ℕ) := by omega
  rw [RightAt, hplace]
  exact updateFours_spec hp (m % 4) (m / 4) p (updateHead_spec hp hat m)

/-- Four bytes behind a window. -/
lemma step_spec (hp : Powers h b n) (m : ℕ) {q : ℤ} (hq : q = p + m) :
    h.step mem q (polyHash b (mem.from w p) m) = polyHash b (mem.from w p) (m + 4) := by
  have h0 : mem.at w q = mem.from w p m := at_eq mem m hq
  have h1 : mem.at w (q + 1) = mem.from w p (m + 1) := at_eq mem (m + 1) (by rw [hq]; push_cast; ring)
  have h2 : mem.at w (q + 2) = mem.from w p (m + 2) := at_eq mem (m + 2) (by rw [hq]; push_cast; ring)
  have h3 : mem.at w (q + 3) = mem.from w p (m + 3) := at_eq mem (m + 3) (by rw [hq]; push_cast; ring)
  rw [step, h0, h1, h2, h3, hp.prime, hp.prime2, hp.prime3, hp.prime4]
  simp only [polyHash]
  ring

variable (mem p) in
/-- The first loop of `moveto`. -/
lemma movetoSixteens_spec (hp : Powers h b n) (turns m : ℕ) :
    h.movetoSixteens mem p turns m (polyHash b (mem.from w p) m) = polyHash b (mem.from w p) (m + 16 * turns) := by
  induction turns generalizing m with
  | zero => rfl
  | succ turns ih =>
    rw [movetoSixteens, step_spec hp m rfl, step_spec hp (m + 4) (by push_cast; ring),
      step_spec hp (m + 4 + 4) (by push_cast; ring), step_spec hp (m + 4 + 4 + 4) (by push_cast; ring)]
    have h := ih (m + 16)
    rw [Nat.cast_add, Nat.cast_ofNat] at h
    rw [h]
    congr 1
    ring

variable (mem p) in
/-- The second loop of `moveto`. -/
lemma movetoOnes_spec (hprime : h.prime = b) (turns m : ℕ) :
    h.movetoOnes mem p turns m (polyHash b (mem.from w p) m) = polyHash b (mem.from w p) (m + turns) := by
  induction turns generalizing m with
  | zero => rfl
  | succ turns ih =>
    have h := ih (m + 1)
    rw [polyHash, Nat.cast_add, Nat.cast_one] at h
    rw [movetoOnes, hprime, at_eq mem m rfl, h]
    congr 1
    ring

/-- The hash, computed afresh. -/
lemma moveto_spec (hp : Powers h b n) (mem : Bytes) (p : ℤ) : RightAt (h.moveto mem p) mem b n p := by
  have hlength := hp.length
  have hsixteens := movetoSixteens_spec mem p hp (n / 16) 0
  have hones := movetoOnes_spec mem p hp.prime (n % 16) (16 * (n / 16))
  have hround : h.L - h.L % 16 = (16 * (n / 16) : ℕ) := by omega
  have hturns : ((16 * (n / 16) : ℕ) / 16 : ℤ).toNat = n / 16 := by omega
  have hrest : (h.L - (16 * (n / 16) : ℕ)).toNat = n % 16 := by omega
  rw [Nat.cast_zero, polyHash, Nat.zero_add] at hsixteens
  change h.movetoOnes mem p (h.L - (h.L - h.L % 16)).toNat (h.L - h.L % 16)
    (h.movetoSixteens mem p ((h.L - h.L % 16) / 16).toNat 0 0) = _
  rw [hround, hturns, hrest, hsixteens, hones, Nat.div_add_mod]

/-! ### Any calls -/

/-- A call that makes the hash that of another window. -/
inductive Call
  /-- `moveto`. -/
  | moveto (buf : ℤ)
  /-- `update` by one byte. -/
  | update
  /-- `update<N>`. -/
  | updateN (m : ℕ)

/-- The hash and the place of its window behind a call. -/
def Call.run (mem : Bytes) (s : ℤ × PolynomialRollingHash w) : Call → ℤ × PolynomialRollingHash w
  | .moveto buf => (buf, s.2.moveto mem buf)
  | .update => (s.1 + 1, s.2.update (mem s.1) (mem (s.1 + s.2.L)))
  | .updateN m => (s.1 + m, s.2.updateN mem m s.1)

/-- The constructor with a buffer. -/
def newAt (garbage : BitVec w) (mem : Bytes) (buf L : ℤ) (seed : BitVec w) : PolynomialRollingHash w :=
  (new garbage L seed).moveto mem buf

/-- A call keeps the powers, and the hash is that of the window. -/
lemma Call.run_spec {s : ℤ × PolynomialRollingHash w} (hp : Powers s.2 b n) (hat : RightAt s.2 mem b n s.1)
    (call : Call) : Powers (call.run mem s).2 b n ∧ RightAt (call.run mem s).2 mem b n (call.run mem s).1 := by
  cases call with
  | moveto buf => exact ⟨hp.of_value _, moveto_spec hp mem buf⟩
  | update =>
    refine ⟨hp.of_value _, ?_⟩
    rw [Call.run, hp.length]
    exact update_spec hp hat
  | updateN m => exact ⟨hp.of_value _, updateN_spec hp hat m⟩

/-- **The hash is the polynomial hash of the window behind any calls.** -/
lemma run_spec (garbage : BitVec w) (mem : Bytes) (buf : ℤ) (hn : n < 2 ^ 32) (b : BitVec w) (calls : List Call) :
    let s := calls.foldl (Call.run mem) (buf, newAt garbage mem buf n b)
    RightAt s.2 mem b n s.1 := by
  have hnew := powers_new garbage hn b
  have hkeep : ∀ (calls : List Call) (s : ℤ × PolynomialRollingHash w), Powers s.2 b n → RightAt s.2 mem b n s.1 →
      RightAt (calls.foldl (Call.run mem) s).2 mem b n (calls.foldl (Call.run mem) s).1 := by
    intro calls
    induction calls with
    | nil => exact fun s _ hat => hat
    | cons call calls ih =>
      intro s hp hat
      obtain ⟨hp', hat'⟩ := Call.run_spec hp hat call
      exact ih _ hp' hat'
  exact hkeep calls _ (hnew.of_value _) (moveto_spec hnew mem buf)

end PolynomialRollingHash

/-! ## The CRC -/

/-- The feedback of the CRC that the processor computes, `Crc32CastagnoliPolynom`. -/
def crc32CastagnoliPolynom : BitVec 32 := 0x82F63B78#32

/-- `a_mm_crc32_u8`, the instruction of the processor. -/
def mmCrc32u8 (crc : BitVec 32) (value : UInt8) : BitVec 32 :=
  (clock crc32CastagnoliPolynom)^[8] (crc ^^^ (value.toNat : BitVec 32))

/-- How the program was built: with the table, or with the instruction. -/
inductive Build
  | table
  | sse42
  deriving DecidableEq

/-- `update_CRC`. -/
def updateCRC (build : Build) (crcTable : ℕ → BitVec w) (crc : BitVec w) (c : UInt8) : BitVec w :=
  match build with
  | .table => crcTable ((crc ^^^ (c.toNat : BitVec w)).setWidth 8).toNat ^^^ (crc >>> 8)
  | .sse42 => (mmCrc32u8 (crc.setWidth 32) c).setWidth w

/-- The places of the powers of two in a table, from the second highest one down. -/
def halves : List ℕ := [64, 32, 16, 8, 4, 2, 1]

/-- The first loop of `FastTableBuild`. -/
def buildHalves (crcPolynom : BitVec w) (table : ℕ → BitVec w) (crc : BitVec w) : List ℕ → ℕ → BitVec w
  | [] => table
  | i :: is =>
    let crc' := (crc >>> 1) ^^^ (crcPolynom &&& ~~~((crc &&& 1) - 1))
    buildHalves crcPolynom (Function.update table i crc') crc' is

/-- The inner one of the other loops of `FastTableBuild`, up to `m`. -/
def buildSums (i m : ℕ) (table : ℕ → BitVec w) : ℕ → BitVec w :=
  (List.range' 1 m).foldl (fun table j => Function.update table (i + j) (table i ^^^ table j)) table

/-- `FastTableBuild`. -/
def fastTableBuild (table : ℕ → BitVec w) (seed crcPolynom : BitVec w) : ℕ → BitVec w :=
  let table := Function.update (Function.update table 0 0) 128 seed
  [2, 4, 8, 16, 32, 64, 128].foldl (fun table i => buildSums i (i - 1) table)
    (buildHalves crcPolynom table seed halves)

/-- `CrcRollingHash`. -/
structure CrcRollingHash (w : ℕ) where
  value : BitVec w
  crcTab : ℕ → BitVec w
  rollingCrcTab : ℕ → BitVec w
  L : ℕ

namespace CrcRollingHash

variable (build : Build)

/-- `init`. -/
def init (h : CrcRollingHash w) (L : ℕ) (crcPolynom : BitVec w) : CrcRollingHash w :=
  let crcTab := fastTableBuild h.crcTab crcPolynom crcPolynom
  let crc := (List.range L).foldl (fun crc _ => updateCRC build crcTab crc 0) (updateCRC build crcTab 0 128)
  { h with crcTab, rollingCrcTab := fastTableBuild h.rollingCrcTab crc crcPolynom, L }

/-- `update`. -/
def update (h : CrcRollingHash w) (sub add : UInt8) : CrcRollingHash w :=
  { h with value := updateCRC build h.crcTab h.value add ^^^ h.rollingCrcTab sub.toNat }

/-- `moveto`. -/
def moveto (h : CrcRollingHash w) (mem : Bytes) (buf : ℤ) : CrcRollingHash w :=
  (List.range h.L).foldl (fun h (i : ℕ) => h.update build 0 (mem (buf + i))) { h with value := 0 }

/-! ### The tables -/

/-- One step of the first loop is a clock. -/
lemma half_eq_clock (crcPolynom crc : BitVec w) :
    (crc >>> 1) ^^^ (crcPolynom &&& ~~~((crc &&& 1) - 1)) = clock crcPolynom crc := by
  have hbit : crc &&& 1 = (BitVec.ofBool (crc.getLsbD 0)).setWidth w := BitVec.and_one_eq_setWidth_ofBool_getLsbD
  rw [hbit, clock]
  cases crc.getLsbD 0 with
  | false =>
    have hmask : (BitVec.ofBool false).setWidth w - 1 = BitVec.allOnes w := by
      rw [← BitVec.neg_one_eq_allOnes]
      simp
    rw [hmask, BitVec.not_allOnes, BitVec.and_zero, BitVec.xor_zero, if_neg Bool.false_ne_true]
  | true =>
    have hmask : (BitVec.ofBool true).setWidth w - 1 = 0#w := by
      have hone : (BitVec.ofBool true).setWidth w = (1 : BitVec w) :=
        BitVec.eq_of_toNat_eq (BitVec.toNat_setWidth w _)
      rw [hone]
      exact sub_self (1 : BitVec w)
    rw [hmask, BitVec.not_zero, BitVec.and_allOnes, if_pos rfl]

/-- What `FastTableBuild` fills: values at bytes that are sums of the values at the bits. -/
structure Bitwise (crcPolynom : BitVec w) (F : ℕ → BitVec w) : Prop where
  /-- Nothing for no bit. -/
  zero : F 0 = 0
  /-- A bit is the clocked bit above it. -/
  half : ∀ k < 7, F (2 ^ k) = clock crcPolynom (F (2 ^ (k + 1)))
  /-- The highest bit and the bits below it. -/
  add : ∀ k < 8, ∀ j < 2 ^ k, F (2 ^ k + j) = F (2 ^ k) ^^^ F j

variable {crcPolynom : BitVec w} {F table : ℕ → BitVec w}

/-- The bits in the table. -/
lemma buildHalves_spec (hF : Bitwise crcPolynom F) (htable : table 0 = F 0 ∧ table 128 = F 128) :
    buildHalves crcPolynom table (F 128) halves 0 = F 0 ∧
      ∀ k < 8, buildHalves crcPolynom table (F 128) halves (2 ^ k) = F (2 ^ k) := by
  have h6 : clock crcPolynom (F 128) = F 64 := (hF.half 6 (by decide)).symm
  have h5 : clock crcPolynom (F 64) = F 32 := (hF.half 5 (by decide)).symm
  have h4 : clock crcPolynom (F 32) = F 16 := (hF.half 4 (by decide)).symm
  have h3 : clock crcPolynom (F 16) = F 8 := (hF.half 3 (by decide)).symm
  have h2 : clock crcPolynom (F 8) = F 4 := (hF.half 2 (by decide)).symm
  have h1 : clock crcPolynom (F 4) = F 2 := (hF.half 1 (by decide)).symm
  have h0 : clock crcPolynom (F 2) = F 1 := (hF.half 0 (by decide)).symm
  simp only [halves, buildHalves, half_eq_clock, h6, h5, h4, h3, h2, h1, h0]
  refine ⟨by simpa using htable.1, fun k hk => ?_⟩
  interval_cases k <;> simp [htable.2]

/-- The inner loop. -/
lemma buildSums_apply (i m : ℕ) (hm : m < i) (table : ℕ → BitVec w) (x : ℕ) :
    buildSums i m table x = if i < x ∧ x ≤ i + m then table i ^^^ table (x - i) else table x := by
  induction m generalizing x with
  | zero => rw [if_neg (by omega)]; rfl
  | succ m ih =>
    have hlast : buildSums i (m + 1) table =
        Function.update (buildSums i m table) (i + (1 + m))
          (buildSums i m table i ^^^ buildSums i m table (1 + m)) := by
      rw [buildSums, List.range'_1_concat, List.foldl_append]
      rfl
    rw [hlast, Function.update_apply]
    split_ifs with hx hin hin
    · rw [ih (by omega), ih (by omega), if_neg (by omega), if_neg (by omega), hx, Nat.add_sub_cancel_left]
    · omega
    · rw [ih (by omega), if_pos (by omega)]
    · rw [ih (by omega), if_neg (by omega)]

/-- One turn of the outer loop: the bytes up to the next bit. -/
lemma buildSums_spec (hF : Bitwise crcPolynom F) {k : ℕ} (hk : k < 8) (hlow : ∀ x < 2 ^ k, table x = F x)
    (hbits : ∀ k < 8, table (2 ^ k) = F (2 ^ k)) :
    (∀ x < 2 ^ (k + 1), buildSums (2 ^ k) (2 ^ k - 1) table x = F x) ∧
      ∀ k' < 8, buildSums (2 ^ k) (2 ^ k - 1) table (2 ^ k') = F (2 ^ k') := by
  have hpos : 0 < 2 ^ k := Nat.two_pow_pos k
  have hlt : 2 ^ k - 1 < 2 ^ k := by omega
  have hall : ∀ x < 2 ^ (k + 1), buildSums (2 ^ k) (2 ^ k - 1) table x = F x := by
    intro x hx
    rw [pow_succ] at hx
    rw [buildSums_apply _ _ hlt]
    split_ifs with hin
    · have hadd := hF.add k hk (x - 2 ^ k) (by omega)
      rw [Nat.add_sub_cancel' (by omega)] at hadd
      rw [hbits k hk, hlow _ (by omega), hadd]
    · rcases Nat.lt_or_ge x (2 ^ k) with h | h
      · exact hlow x h
      · have heq : x = 2 ^ k := by omega
        rw [heq, hbits k hk]
  refine ⟨hall, fun k' hk' => ?_⟩
  rcases Nat.lt_or_ge k' (k + 1) with h | h
  · exact hall _ (Nat.pow_lt_pow_right (by decide) h)
  · have hge : 2 ^ (k + 1) ≤ 2 ^ k' := Nat.pow_le_pow_right (by decide) h
    rw [pow_succ] at hge
    rw [buildSums_apply _ _ hlt, if_neg (by omega), hbits k' hk']

/-- The outer loop. -/
lemma foldl_buildSums_spec (hF : Bitwise crcPolynom F) (hlow : ∀ x < 2, table x = F x)
    (hbits : ∀ k < 8, table (2 ^ k) = F (2 ^ k)) (n : ℕ) (hn : n ≤ 7) :
    let filled := ((List.range n).map fun k => 2 ^ (k + 1)).foldl (fun table i => buildSums i (i - 1) table) table
    (∀ x < 2 ^ (n + 1), filled x = F x) ∧ ∀ k < 8, filled (2 ^ k) = F (2 ^ k) := by
  induction n with
  | zero => exact ⟨hlow, hbits⟩
  | succ n ih =>
    obtain ⟨hprev, hprevBits⟩ := ih (by omega)
    dsimp only
    rw [List.range_succ, List.map_append, List.foldl_append]
    exact buildSums_spec hF (by omega) hprev hprevBits

/-- **The table holds the values of all bytes.** -/
lemma fastTableBuild_spec (hF : Bitwise crcPolynom F) (old : ℕ → BitVec w) {x : ℕ} (hx : x < 256) :
    fastTableBuild old (F 128) crcPolynom x = F x := by
  have hstart : Function.update (Function.update old 0 0) 128 (F 128) 0 = F 0 ∧
      Function.update (Function.update old 0 0) 128 (F 128) 128 = F 128 := by
    constructor
    · rw [Function.update_of_ne (by decide), Function.update_self, hF.zero]
    · rw [Function.update_self]
  obtain ⟨hzero, hbits⟩ := buildHalves_spec hF hstart
  have hlow : ∀ x < 2, buildHalves crcPolynom (Function.update (Function.update old 0 0) 128 (F 128)) (F 128)
      halves x = F x := by
    intro x hx
    rcases Nat.lt_or_ge x 1 with h | h
    · rw [Nat.lt_one_iff.mp h, hzero]
    · have hone : x = 2 ^ 0 := by omega
      rw [hone, hbits 0 (by decide)]
  have hplaces : [2, 4, 8, 16, 32, 64, 128] = (List.range 7).map fun k => 2 ^ (k + 1) := by decide
  rw [fastTableBuild, hplaces]
  exact (foldl_buildSums_spec hF hlow hbits 7 (le_refl 7)).1 x hx

/-- The bytes behind some clocks are sums of the bits. -/
lemma bitwise_clock (hw : 8 ≤ w) (crcPolynom : BitVec w) (m : ℕ) :
    Bitwise crcPolynom fun x => (clock crcPolynom)^[m] (x : BitVec w) where
  zero := clock_iterate_zero crcPolynom m
  half := by
    intro k hk
    have hclock : clock crcPolynom ((2 ^ (k + 1) : ℕ) : BitVec w) = ((2 ^ k : ℕ) : BitVec w) := by
      have hbit : ((2 ^ (k + 1) : ℕ) : BitVec w).getLsbD 0 = false := by
        rw [BitVec.natCast_eq_ofNat, BitVec.getLsbD_ofNat, Nat.testBit_two_pow_of_ne (by omega), Bool.and_false]
      have hle : 2 ^ (k + 1) ≤ 2 ^ 7 := Nat.pow_le_pow_right (by decide) (by omega)
      have hlt : 2 ^ (k + 1) < 2 ^ w := Nat.pow_lt_pow_right (by decide) (by omega)
      have hlt' : 2 ^ k < 2 ^ w := Nat.pow_lt_pow_right (by decide) (by omega)
      rw [clock, hbit, if_neg Bool.false_ne_true]
      apply BitVec.eq_of_toNat_eq
      rw [BitVec.toNat_ushiftRight, BitVec.natCast_eq_ofNat, BitVec.natCast_eq_ofNat, BitVec.toNat_ofNat,
        BitVec.toNat_ofNat, Nat.mod_eq_of_lt hlt, Nat.mod_eq_of_lt hlt', Nat.shiftRight_eq_div_pow, pow_succ]
      exact Nat.mul_div_cancel _ (by decide)
    have hcomm := Function.iterate_succ_apply' (clock crcPolynom) m ((2 ^ (k + 1) : ℕ) : BitVec w)
    rw [Function.iterate_succ_apply, hclock] at hcomm
    exact hcomm
  add := by
    intro k hk j hj
    have hxor : ∀ k < 8, ∀ j < 2 ^ k, 2 ^ k + j = 2 ^ k ^^^ j := by decide +kernel
    rw [hxor k hk j hj, BitVec.natCast_eq_ofNat, BitVec.ofNat_xor, clock_iterate_xor]
    rfl

/-- The highest bit of a byte, when it has fallen out. -/
lemma clock_iterate_top (hw : 8 ≤ w) (crcPolynom : BitVec w) :
    (clock crcPolynom)^[8] ((128 : ℕ) : BitVec w) = crcPolynom := by
  have hbits := bitwise_clock hw crcPolynom 0
  have hdown : ∀ k < 8, (clock crcPolynom)^[k] ((2 ^ k : ℕ) : BitVec w) = 1 := by
    intro k hk
    induction k with
    | zero => rfl
    | succ k ih =>
      have hhalf : ((2 ^ k : ℕ) : BitVec w) = clock crcPolynom ((2 ^ (k + 1) : ℕ) : BitVec w) :=
        hbits.half k (by omega)
      rw [Function.iterate_succ_apply, ← hhalf]
      exact ih (by omega)
  have hseven : (clock crcPolynom)^[7] ((128 : ℕ) : BitVec w) = 1 := hdown 7 (by decide)
  have hone : (1 : BitVec w) >>> 1 = 0#w := by
    apply BitVec.eq_of_toNat_eq
    rw [BitVec.toNat_ushiftRight, BitVec.toNat_ofNat, Nat.shiftRight_eq_div_pow, Nat.zero_mod]
    have hle : (1 : BitVec w).toNat ≤ 1 := Nat.mod_le 1 (2 ^ w)
    omega
  have hlow : (1 : BitVec w).getLsbD 0 = true := by
    change (1#w).getLsbD 0 = true
    rw [BitVec.getLsbD_one]
    simp
    omega
  rw [Function.iterate_succ_apply', hseven, clock, hlow, if_pos rfl, hone, BitVec.zero_xor]

/-! ### The hash of the window -/

/-- The table is there for registers of at least a byte, the instruction for its own feedback. -/
def Usable (build : Build) (crcPolynom : BitVec w) : Prop :=
  match build with
  | .table => 8 ≤ w
  | .sse42 => ∃ h : 32 = w, crcPolynom = crc32CastagnoliPolynom.cast h

variable {build : Build} {n : ℕ}

/-- The registers have at least a byte. -/
lemma Usable.le (h : Usable build crcPolynom) : 8 ≤ w := by
  cases build with
  | table => exact h
  | sse42 =>
    obtain ⟨rfl, -⟩ := h
    decide

/-- A byte is taken in by eight clocks. -/
lemma updateCRC_eq (h : Usable build crcPolynom) (htable : ∀ x < 256, table x = (clock crcPolynom)^[8] (x : BitVec w))
    (crc : BitVec w) (c : UInt8) :
    updateCRC build table crc c = (clock crcPolynom)^[8] (crc ^^^ (c.toNat : BitVec w)) := by
  cases build with
  | table =>
    have hlt : ((crc ^^^ (c.toNat : BitVec w)).setWidth 8).toNat < 256 := BitVec.isLt _
    have hbyte : ((((crc ^^^ (c.toNat : BitVec w)).setWidth 8).toNat : ℕ) : BitVec w) =
        (byteAt 0 (crc ^^^ (c.toNat : BitVec w))).setWidth w := by
      rw [byteAt, Nat.mul_zero, BitVec.ushiftRight_zero]
      apply BitVec.eq_of_toNat_eq
      rw [BitVec.natCast_eq_ofNat, BitVec.toNat_ofNat]
      exact (BitVec.toNat_setWidth w _).symm
    have hshift : (crc ^^^ (c.toNat : BitVec w)) >>> 8 = crc >>> 8 := by
      have hzero : (c.toNat : BitVec w) >>> 8 = 0#w := by
        apply BitVec.eq_of_toNat_eq
        have hle : (c.toNat : BitVec w).toNat ≤ c.toNat := by
          rw [BitVec.natCast_eq_ofNat, BitVec.toNat_ofNat]
          exact Nat.mod_le _ _
        have hc : c.toNat < 256 := c.toNat_lt
        rw [BitVec.toNat_ushiftRight, BitVec.toNat_ofNat, Nat.zero_mod, Nat.shiftRight_eq_div_pow]
        omega
      rw [BitVec.ushiftRight_xor_distrib, hzero, BitVec.xor_zero]
    have hsplit := clock_iterate_split crcPolynom 0 (crc ^^^ (c.toNat : BitVec w))
    rw [hshift] at hsplit
    change table _ ^^^ (crc >>> 8) = _
    rw [htable _ hlt, hbyte]
    exact hsplit.symm
  | sse42 =>
    obtain ⟨rfl, rfl⟩ := h
    rw [updateCRC, mmCrc32u8, BitVec.setWidth_eq, BitVec.setWidth_eq]
    rfl

/-- The tables for a window of `n` bytes. -/
structure Tables (build : Build) (crcPolynom : BitVec w) (n : ℕ) (h : CrcRollingHash w) : Prop where
  /-- Bytes are taken in. -/
  enter : ∀ crc c, updateCRC build h.crcTab crc c = (clock crcPolynom)^[8] (crc ^^^ (c.toNat : BitVec w))
  /-- Bytes are taken out. -/
  leave : ∀ x < 256, h.rollingCrcTab x = (clock crcPolynom)^[8 * (n + 1)] (x : BitVec w)
  /-- The window. -/
  length : h.L = n

/-- `init` fills the tables. -/
lemma tables_init (h : Usable build crcPolynom) (old : CrcRollingHash w) (n : ℕ) :
    Tables build crcPolynom n (old.init build n crcPolynom) := by
  have hcrcTab : ∀ x < 256, fastTableBuild old.crcTab crcPolynom crcPolynom x =
      (clock crcPolynom)^[8] (x : BitVec w) := by
    intro x hx
    have hfill := fastTableBuild_spec (bitwise_clock h.le crcPolynom 8) old.crcTab hx
    rwa [clock_iterate_top h.le] at hfill
  have henter := updateCRC_eq h hcrcTab
  have hzeros : ∀ m, (List.range m).foldl (fun crc _ => updateCRC build (fastTableBuild old.crcTab crcPolynom crcPolynom)
      crc 0) (updateCRC build (fastTableBuild old.crcTab crcPolynom crcPolynom) 0 128) =
        (clock crcPolynom)^[8 * (m + 1)] ((128 : ℕ) : BitVec w) := by
    intro m
    induction m with
    | zero =>
      have hzero : (0 : BitVec w) ^^^ ((128 : UInt8).toNat : BitVec w) = ((128 : ℕ) : BitVec w) := BitVec.zero_xor
      exact (henter 0 128).trans (congrArg _ hzero)
    | succ m ih =>
      have hzero : ∀ crc : BitVec w, crc ^^^ ((0 : UInt8).toNat : BitVec w) = crc := fun crc => BitVec.xor_zero
      rw [List.range_succ, List.foldl_append, ih, List.foldl_cons, List.foldl_nil, henter, hzero,
        ← Function.iterate_add_apply, Nat.mul_succ 8 (m + 1), Nat.add_comm]
  refine ⟨henter, fun x hx => ?_, rfl⟩
  have hfill := fastTableBuild_spec (bitwise_clock h.le crcPolynom (8 * (n + 1))) old.rollingCrcTab hx
  rw [← hzeros n] at hfill
  exact hfill

/-- The hash is that of the `n` bytes from `p` on. -/
def RightAt (h : CrcRollingHash w) (mem : Bytes) (crcPolynom : BitVec w) (n : ℕ) (p : ℤ) : Prop :=
  h.value = crcWindow crcPolynom (mem.from w p) n

variable {h : CrcRollingHash w} {mem : Bytes} {p : ℤ}

/-- A window that moves on by one byte. -/
lemma update_spec (ht : Tables build crcPolynom n h) (hat : RightAt h mem crcPolynom n p) :
    RightAt (h.update build (mem p) (mem (p + n))) mem crcPolynom n (p + 1) := by
  have hslide := crcWindow_slide crcPolynom (mem.from w p) n
  have hzero : mem.from w p 0 = ((mem p).toNat : BitVec w) := by rw [Bytes.from, Bytes.at, Nat.cast_zero, add_zero]
  rw [RightAt, update, from_add_one, hslide, ht.enter, ht.leave _ (mem p).toNat_lt, hat, hzero]
  rfl

/-- The tables do not change. -/
lemma Tables.of_value (ht : Tables build crcPolynom n h) (value : BitVec w) :
    Tables build crcPolynom n { h with value := value } := ⟨ht.1, ht.2, ht.3⟩

/-- The hash, computed afresh. -/
lemma moveto_spec (ht : Tables build crcPolynom n h) (mem : Bytes) (p : ℤ) :
    Tables build crcPolynom n (h.moveto build mem p) ∧ RightAt (h.moveto build mem p) mem crcPolynom n p := by
  have hnone : ∀ c : BitVec w, c ^^^ h.rollingCrcTab (0 : UInt8).toNat = c := by
    intro c
    have hzero : h.rollingCrcTab 0 = 0 := (ht.leave 0 (by decide)).trans (clock_iterate_zero crcPolynom _)
    exact (congrArg (c ^^^ ·) hzero).trans BitVec.xor_zero
  have hloop : ∀ m, (List.range m).foldl (fun h (i : ℕ) => h.update build 0 (mem (p + i))) { h with value := 0 } =
      { h with value := crcWindow crcPolynom (mem.from w p) m } := by
    intro m
    induction m with
    | zero => rfl
    | succ m ih =>
      rw [List.range_succ, List.foldl_append, ih, List.foldl_cons, List.foldl_nil, update, hnone, ht.enter]
      rfl
  rw [moveto, hloop]
  exact ⟨ht.of_value _, congrArg _ ht.length⟩

/-! ### Any calls -/

/-- A call that makes the hash that of another window. -/
inductive Call
  /-- `moveto`. -/
  | moveto (buf : ℤ)
  /-- `update`. -/
  | update

/-- The hash and the place of its window behind a call. -/
def Call.run (build : Build) (mem : Bytes) (s : ℤ × CrcRollingHash w) : Call → ℤ × CrcRollingHash w
  | .moveto buf => (buf, s.2.moveto build mem buf)
  | .update => (s.1 + 1, s.2.update build (mem s.1) (mem (s.1 + s.2.L)))

/-- The constructor with a buffer. -/
def newAt (build : Build) (garbage : CrcRollingHash w) (mem : Bytes) (buf : ℤ) (L : ℕ) (crcPolynom : BitVec w) :
    CrcRollingHash w :=
  (garbage.init build L crcPolynom).moveto build mem buf

/-- A call keeps the tables, and the hash is that of the window. -/
lemma Call.run_spec {s : ℤ × CrcRollingHash w} (ht : Tables build crcPolynom n s.2)
    (hat : RightAt s.2 mem crcPolynom n s.1) (call : Call) :
    Tables build crcPolynom n (call.run build mem s).2 ∧
      RightAt (call.run build mem s).2 mem crcPolynom n (call.run build mem s).1 := by
  cases call with
  | moveto buf => exact moveto_spec ht mem buf
  | update =>
    refine ⟨ht.of_value _, ?_⟩
    rw [Call.run, ht.length]
    exact update_spec ht hat

/-- **The hash is the CRC of the window behind any calls.** -/
lemma run_spec (h : Usable build crcPolynom) (garbage : CrcRollingHash w) (mem : Bytes) (buf : ℤ) (n : ℕ)
    (calls : List Call) :
    let s := calls.foldl (Call.run build mem) (buf, newAt build garbage mem buf n crcPolynom)
    RightAt s.2 mem crcPolynom n s.1 := by
  obtain ⟨hnew, hat⟩ := moveto_spec (tables_init h garbage n) mem buf
  have hkeep : ∀ (calls : List Call) (s : ℤ × CrcRollingHash w), Tables build crcPolynom n s.2 →
      RightAt s.2 mem crcPolynom n s.1 →
      RightAt (calls.foldl (Call.run build mem) s).2 mem crcPolynom n (calls.foldl (Call.run build mem) s).1 := by
    intro calls
    induction calls with
    | nil => exact fun s _ hat => hat
    | cons call calls ih =>
      intro s ht hat
      obtain ⟨ht', hat'⟩ := Call.run_spec ht hat call
      exact ih _ ht' hat'
  exact hkeep calls _ hnew hat

end CrcRollingHash

end DArc.SREP
