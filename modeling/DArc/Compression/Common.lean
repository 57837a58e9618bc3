import DArc.Library.Words

/-!
# Integer helpers of the compression library

The C code computes with 32-bit integers: `MemSize` and `unsigned` are naturals reduced modulo
`2 ^ 32`, `int` is an integer wrapped into `[-2 ^ 31, 2 ^ 31)` by `int32`.  This file has these
conversions, the error codes that callbacks and methods return, the helpers `roundDown`, `roundUp`,
`lb`, `roundupToPowerOf` and `sqrtb` the methods share, and the tables of 32-bit words in their
streams (`put32`, `tableAt`).
-/

namespace DArc

/-! ## Sizes and error codes -/

/-- One kilobyte. -/
abbrev kb : ℕ := 1024

/-- One megabyte. -/
abbrev mb : ℕ := 1024 * 1024

/-- The codes a compression method or a callback returns instead of a size. -/
inductive ErrCode
  | ok
  | general
  | invalidCompressor
  | onlyDecompress
  | outblockTooSmall
  | notEnoughMemory
  | io
  | badCompressedData
  | notImplemented
  | noMoreDataRequired
  deriving DecidableEq, Repr

/-- The numeric value of a code: zero for success, negative for an error. -/
def ErrCode.toInt : ErrCode → Int
  | ok => 0
  | general => -1
  | invalidCompressor => -2
  | onlyDecompress => -3
  | outblockTooSmall => -4
  | notEnoughMemory => -5
  | io => -6
  | badCompressedData => -7
  | notImplemented => -8
  | noMoreDataRequired => -9

/-- What a method leaves behind: its return code and the bytes it has written. -/
structure Outcome where
  code : ErrCode
  written : List UInt8
  deriving DecidableEq, Repr

/-! ## Machine integers -/

/-- Reduction of a result to `unsigned`. -/
def uint32 (x : Int) : ℕ := (x % 2 ^ 32).toNat

/-- Reduction of a result to `int`. -/
def int32 (x : Int) : Int := Int.bmod x (2 ^ 32)

/-- A result in the range of `int` is kept. -/
lemma int32_of_mem {x : Int} (h₁ : -2 ^ 31 ≤ x) (h₂ : x < 2 ^ 31) : int32 x = x := by
  unfold int32
  rw [Int.bmod_def]
  split <;> omega

/-- A result one turn above the range of `int` becomes negative. -/
lemma int32_of_ge {x : Int} (h₁ : 2 ^ 31 ≤ x) (h₂ : x < 2 ^ 32) : int32 x = x - 2 ^ 32 := by
  unfold int32
  rw [Int.bmod_def]
  split <;> omega

/-- A wrapped result lies in the range of `int`. -/
lemma int32_mem (x : Int) : -2 ^ 31 ≤ int32 x ∧ int32 x < 2 ^ 31 := by
  unfold int32
  rw [Int.bmod_def]
  split <;> omega

/-- A natural below `2 ^ 32` is kept by the conversion to `unsigned`. -/
lemma uint32_of_lt {n : ℕ} (h : n < 2 ^ 32) : uint32 (n : Int) = n := by
  unfold uint32
  omega

/-- Reducing a result twice is reducing it once. -/
lemma int32_int32 (x : Int) : int32 (int32 x) = int32 x := Int.bmod_bmod

/-- Reducing a result on the way changes nothing. -/
lemma int32_add (x y : Int) : int32 (int32 x + y) = int32 (x + y) := Int.bmod_add_bmod

/-- Writing an `int` and reading it back through `unsigned` keeps it. -/
lemma int32_uint32 (x : Int) : int32 (uint32 x) = int32 x := by
  have hnonneg : 0 ≤ x % 2 ^ 32 := Int.emod_nonneg x (by norm_num)
  unfold int32 uint32
  rw [Int.toNat_of_nonneg hnonneg, Int.bmod_def, Int.bmod_def]
  norm_num

/-! ## Rounding -/

/-- Round `a` down to a multiple of `b`. -/
def roundDown (a b : ℕ) : ℕ := if b > 1 then a / b * b else a

/-- Round `a` up to a multiple of `b`. -/
def roundUp (a b : ℕ) : ℕ :=
  if b > 1 then uint32 (roundDown (uint32 (a - 1)) b + b : ℕ) else a

/-- Whole part of the binary logarithm. -/
def lb (n : ℕ) : ℕ := Nat.log2 n

/-- The power of two next to `n` from above; the decrement of zero and the last shift wrap. -/
def roundupToPowerOf (n : ℕ) : ℕ :=
  let n := uint32 ((n : Int) - 1)
  if n = 0 then 1 else (2 <<< lb n) % 2 ^ 32

/-- The largest power of two not above the square root of `n`. -/
def sqrtb (n : ℕ) : ℕ := if n / 4 = 0 then 1 else 2 * sqrtb (n / 4)
termination_by n
decreasing_by omega

/-- `sqrtb` is a power of two whose square is at most its argument. -/
lemma sqrtb_spec (n : ℕ) : ∃ m, sqrtb n = 2 ^ m ∧ (0 < n → 4 ^ m ≤ n) := by
  induction n using sqrtb.induct with
  | case1 n h => exact ⟨0, by rw [sqrtb, if_pos h]; rfl, fun hn => hn⟩
  | case2 n h ih =>
    obtain ⟨m, hm, hle⟩ := ih
    refine ⟨m + 1, by rw [sqrtb, if_neg h, hm, pow_succ'], fun _ => ?_⟩
    have := hle (by omega)
    rw [pow_succ]
    omega

/-- Between one and `2 ^ 30`, rounding up to a power of two gives a power of two between the
argument and twice the argument. -/
lemma roundupToPowerOf_spec {n : ℕ} (h₁ : 1 ≤ n) (h₂ : n ≤ 2 ^ 30) :
    ∃ m ≤ 30, roundupToPowerOf n = 2 ^ m ∧ n ≤ 2 ^ m ∧ 2 ^ m < 2 * n := by
  have hpred : uint32 ((n : Int) - 1) = n - 1 := by unfold uint32; omega
  unfold roundupToPowerOf
  simp only [hpred]
  by_cases hn : n - 1 = 0
  · exact ⟨0, by norm_num, by simp [hn], by omega, by omega⟩
  · have hlow : 2 ^ lb (n - 1) ≤ n - 1 := Nat.log2_self_le hn
    have hhigh : n - 1 < 2 ^ (lb (n - 1) + 1) := Nat.lt_log2_self
    have hexp : lb (n - 1) < 30 := (Nat.pow_lt_pow_iff_right (by norm_num : 1 < 2)).mp (by omega)
    have hbound : 2 ^ (lb (n - 1) + 1) ≤ 2 ^ 30 := Nat.pow_le_pow_right (by norm_num) hexp
    refine ⟨lb (n - 1) + 1, hexp, ?_, by omega, by rw [pow_succ]; omega⟩
    rw [if_neg hn, Nat.shiftLeft_eq, ← pow_succ', Nat.mod_eq_of_lt (by omega)]

/-! ## Words in a stream -/

/-- `Put32`: a 32-bit word, least significant byte first. -/
def put32 (x : ℕ) : List UInt8 := leBytes 4 x

/-- The `i`-th entry of a table of 32-bit words. -/
def tableAt (table : List UInt8) (i : ℕ) : Option Int := do
  let (word, _) ← takeExact 4 (table.drop (4 * i))
  some (int32 (leValue word))

/-- A table of words can be read entry by entry. -/
lemma tableAt_put32 (xs : List ℕ) (rest : List UInt8) (h : ∀ x ∈ xs, x < 2 ^ 31) (j : ℕ)
    (hj : j < xs.length) :
    tableAt ((xs.map put32).flatten ++ rest) j = some (xs[j] : Int) := by
  induction xs generalizing j with
  | nil => simp at hj
  | cons x xs ih =>
    cases j with
    | zero =>
      have hx : x < 2 ^ 31 := h x (by simp)
      have hval : leValue (leBytes 4 x) = x := leValue_leBytes_of_lt (by omega)
      simp [tableAt, put32, hval, int32_of_mem (show -2 ^ 31 ≤ (x : Int) by omega) (by omega)]
    | succ j =>
      have hdrop : ((x :: xs).map put32).flatten ++ rest = put32 x ++ ((xs.map put32).flatten ++ rest) := by
        simp
      have hlen : (put32 x).length = 4 := length_leBytes 4 x
      rw [hdrop, tableAt, Nat.mul_succ, Nat.add_comm, ← List.drop_drop, List.drop_left' hlen]
      exact ih (fun y hy => h y (by simp [hy])) j (by simpa using hj)

/-- The words of a table take four bytes each. -/
lemma length_flatten_put32 (xs : List ℕ) : (xs.map put32).flatten.length = 4 * xs.length := by
  induction xs with
  | nil => rfl
  | cons x xs ih => simp [put32, ih]; omega

end DArc
