import DArc.REP.Matches

/-!
# The search loop finds true matches

What one block of the compressor does to its search state.  `ScanInv` collects what every iteration
keeps: the records form a chain of true matches from the address `p₀` at which the block's output
starts, and every entry of the hash table points below `top`, the end of the data the window holds.
Under the arithmetic conditions `Params.Sound` the loops of the block end (`scanLoop_of_sound`).

Conversely a search that ends has met these conditions: `scanLoop_exit` and its companions say what
is known after any run that ends, whatever the parameters.

### Outline

* arithmetic of the parameters;
* `findMatchStart`, `findMatchEnd` and the truth of a recorded match (`extendMatch_true`);
* the iterations and loops of one block under `Params.Sound`;
* what any search that ends has gone through.
-/

namespace DArc.Rep

/-! ## Arithmetic of the parameters -/

namespace Params

/-- The parameters the archiver accepts: a window of eight bytes to two gigabytes and a hash table
that is not empty. -/
structure Accepted (P : Params) : Prop where
  blockSize_ge : 8 ≤ P.blockSize
  blockSize_lt : P.blockSize < 2 ^ 31
  smallestLen_ge : 2 ≤ P.smallestLen
  smallestLen_lt : P.smallestLen < 2 ^ 31
  minMatchLen_ge : -2 ^ 31 ≤ P.minMatchLen
  minMatchLen_lt : P.minMatchLen < 2 ^ 31
  amplifier_pos : 1 ≤ P.amplifier
  hashSize_pos : 1 ≤ P.hashSize

/-- Parameters that are `int`s, and a window whose addresses are. -/
structure Ints (P : Params) : Prop where
  blockSize_lt : P.blockSize < 2 ^ 31
  smallestLen_ge : -2 ^ 31 ≤ P.smallestLen
  smallestLen_lt : P.smallestLen < 2 ^ 31
  minMatchLen_ge : -2 ^ 31 ≤ P.minMatchLen
  minMatchLen_lt : P.minMatchLen < 2 ^ 31

/-- The conditions under which the search of a block that ends at `hi` has no overflow: matches of
two bytes or more, blocks of at most `2 ^ 29` bytes, a loop condition inside `int`, and a positive
number of positions to try unless the block is too short to be searched. -/
structure Sound (P : Params) (hi : ℕ) : Prop where
  smallest_ge : 2 ≤ P.smallest
  L_le : P.L ≤ 2 ^ 29
  reach : hi + P.L ≤ 2 ^ 31
  test_pos : 0 < P.test ∨ hi ≤ 2 * P.L

variable {P : Params} {hi : ℕ}

/-- Shorter blocks are searched without overflow if longer ones are. -/
lemma Sound.mono {hi' : ℕ} (h : P.Sound hi) (hle : hi' ≤ hi) : P.Sound hi' where
  smallest_ge := h.smallest_ge
  L_le := h.L_le
  reach := by have := h.reach; omega
  test_pos := h.test_pos.imp_right fun h' => by omega

/-- The smallest match is at most as long as the shortest one near by. -/
lemma smallest_le (P : Params) : P.smallest ≤ P.minMatchLen := by
  unfold smallest
  split <;> omega

/-- Accepted parameters are `int`s. -/
lemma Accepted.ints (hacc : P.Accepted) : P.Ints where
  blockSize_lt := hacc.blockSize_lt
  smallestLen_ge := by have := hacc.smallestLen_ge; omega
  smallestLen_lt := hacc.smallestLen_lt
  minMatchLen_ge := hacc.minMatchLen_ge
  minMatchLen_lt := hacc.minMatchLen_lt

/-- The length of the smallest match is an `int`. -/
lemma Ints.smallest_mem (hints : P.Ints) : -2 ^ 31 ≤ P.smallest ∧ P.smallest < 2 ^ 31 := by
  have h₁ := hints.smallestLen_ge
  have h₂ := hints.smallestLen_lt
  have h₃ := hints.minMatchLen_ge
  have h₄ := hints.minMatchLen_lt
  unfold smallest
  split <;> omega

/-- For matches of two bytes or more `L` is a power of two below the match length. -/
lemma L_spec (h₁ : 2 ≤ P.smallest) (h₂ : P.smallest < 2 ^ 31) :
    ∃ m ≤ 30, P.L = 2 ^ m ∧ (P.L : Int) < P.smallest := by
  have hdiv : uint32 (P.smallest.tdiv 2) = (P.smallest.tdiv 2).toNat := by
    have : P.smallest.tdiv 2 = P.smallest / 2 := Int.tdiv_eq_ediv_of_nonneg (by omega)
    unfold uint32
    omega
  have hhalf : P.smallest.tdiv 2 = P.smallest / 2 := Int.tdiv_eq_ediv_of_nonneg (by omega)
  obtain ⟨m, hm, hL, -, hlt⟩ := roundupToPowerOf_spec (n := (P.smallest.tdiv 2).toNat)
    (by omega) (by omega)
  refine ⟨m, hm, by rw [L, hdiv, hL], ?_⟩
  rw [L, hdiv, hL]
  omega

/-- When the search is sound, `L` is a power of two below the match length. -/
lemma Sound.exists_L (h : P.Sound hi) (hacc : P.Accepted) :
    ∃ m ≤ 30, P.L = 2 ^ m ∧ (P.L : Int) < P.smallest :=
  L_spec h.smallest_ge hacc.ints.smallest_mem.2

/-- When the search is sound, `L` is not zero. -/
lemma Sound.L_pos (h : P.Sound hi) (hacc : P.Accepted) : 0 < P.L := by
  obtain ⟨m, -, hm, -⟩ := h.exists_L hacc
  rw [hm]
  positivity

/-- For match lengths below two `L` is zero. -/
lemma L_of_lt (h₁ : -2 ^ 31 ≤ P.smallest) (h₂ : P.smallest < 2) : P.L = 0 := by
  have hrange : -2 ^ 30 ≤ P.smallest.tdiv 2 ∧ P.smallest.tdiv 2 ≤ 0 := by
    rcases le_or_gt 0 P.smallest with h | h
    · rw [Int.tdiv_eq_ediv_of_nonneg h]
      omega
    · have hneg : P.smallest.tdiv 2 = -((-P.smallest).tdiv 2) := by simp
      rw [hneg, Int.tdiv_eq_ediv_of_nonneg (by omega)]
      omega
  set n := uint32 (uint32 (P.smallest.tdiv 2) - 1) with hn
  have hbig : 2 ^ 31 ≤ n ∧ n < 2 ^ 32 := by
    rw [hn]
    unfold uint32
    omega
  have hlog : lb n = 31 := (Nat.log2_eq_iff (by omega)).mpr hbig
  rw [L, roundupToPowerOf]
  simp only [← hn, hlog]
  rw [if_neg (by omega)]
  rfl

/-- `k` is a power of two. -/
lemma k_pos (P : Params) : 0 < P.k := by
  obtain ⟨j, hj, -⟩ := sqrtb_spec (uint32 P.twoL)
  rw [k, hj]
  positivity

/-- Up to `2 ^ 29` doubling `L` does not overflow. -/
lemma twoL_of_le (h : P.L ≤ 2 ^ 29) : P.twoL = 2 * P.L := by
  rw [twoL, int32_of_mem (by omega) (by omega), Int.mul_comm]

/-- `k` divides `L`. -/
lemma k_dvd_L {m : ℕ} (hm : P.L = 2 ^ m) (hL : P.L ≤ 2 ^ 29) : P.k ∣ P.L := by
  have hL' : uint32 P.twoL = 2 * P.L := by
    rw [twoL_of_le hL]
    unfold uint32
    omega
  obtain ⟨j, hj, hsq⟩ := sqrtb_spec (uint32 P.twoL)
  have hpos : 0 < P.L := by rw [hm]; positivity
  have hle : 4 ^ j ≤ 2 ^ (m + 1) := by
    rw [pow_succ', ← hm, ← hL']
    exact hsq (by omega)
  have hexp : 2 * j ≤ m + 1 := by
    rw [show (4 : ℕ) = 2 ^ 2 by norm_num, ← pow_mul] at hle
    exact (Nat.pow_le_pow_iff_right (by norm_num)).mp hle
  rw [k, hj, hm]
  rcases Nat.eq_zero_or_pos m with rfl | hmpos
  · obtain rfl : j = 0 := by omega
    rfl
  · exact Nat.pow_dvd_pow 2 (by omega)

/-- `k` divides the number of positions tried. -/
lemma k_dvd_test {m : ℕ} (hm : P.L = 2 ^ m) (hL : P.L ≤ 2 ^ 29) : (P.k : Int) ∣ P.test := by
  have hkL : P.k ∣ P.L := k_dvd_L hm hL
  rcases min_choice (int32 (P.k * P.amplifier)) (P.L : Int) with h | h
  · rw [test, h]
    -- reduction modulo `2 ^ 32` keeps multiples of a smaller power of two
    have hk32 : (P.k : Int) ∣ ((2 ^ 32 : ℕ) : Int) := by
      have hm29 : m ≤ 29 := (Nat.pow_le_pow_iff_right (by norm_num : 1 < 2)).mp (hm ▸ hL)
      have hdvd : P.k ∣ 2 ^ 32 := hkL.trans (hm ▸ Nat.pow_dvd_pow 2 (by omega))
      exact Int.natCast_dvd_natCast.mpr hdvd
    have hsplit : int32 (P.k * P.amplifier) =
        P.k * P.amplifier - ((2 ^ 32 : ℕ) : Int) * Int.bdiv (P.k * P.amplifier) (2 ^ 32) :=
      Int.bmod_eq_self_sub_mul_bdiv _ _
    rw [hsplit]
    exact Int.dvd_sub (Int.dvd_mul_right _ _) (Dvd.dvd.mul_right hk32 _)
  · rw [test, h]
    exact Int.natCast_dvd_natCast.mpr hkL

/-- No more than `L` positions are tried. -/
lemma test_le_L (P : Params) : P.test ≤ P.L := min_le_right _ _

/-- The check sum fits below `k`. -/
lemma chksum_lt (P : Params) (hash : UInt32) : P.chksum hash < P.k := by
  have hk := k_pos P
  have hle : P.chksum hash ≤ P.k1 := by
    rw [chksum, UInt32.toNat_and, UInt32.toNat_ofNat']
    exact Nat.and_le_right.trans (Nat.mod_le _ _)
  rw [k1] at hle
  omega

/-- A hash table that is not empty has a slot for every hash. -/
lemma slot_eq_some (h : 1 ≤ P.hashSize) (hash : UInt32) : ∃ s, P.slot hash = some s := by
  have hlt : P.hashSize < 2 ^ 31 := by
    rw [hashSize]
    split <;> exact (int32_mem _).2
  refine ⟨(hash &&& P.hashMask).toNat, ?_⟩
  have hmask : P.hashMask.toNat ≤ uint32 (P.hashSize - 1) := by
    rw [hashMask, UInt32.toNat_ofNat']
    exact Nat.mod_le _ _
  have hle : (hash &&& P.hashMask).toNat ≤ P.hashMask.toNat := by
    rw [UInt32.toNat_and]
    exact Nat.and_le_right
  rw [slot, if_pos]
  unfold uint32 at hmask
  omega

end Params

/-! ## The boundaries of a match -/

/-- Going back stops at the bound or at a difference; everything passed is equal. -/
lemma findMatchStart_spec (buf : ℕ → UInt8) (p q start : ℕ) (h : start ≤ q) :
    start ≤ findMatchStart buf p q start ∧ findMatchStart buf p q start ≤ q ∧
      q - findMatchStart buf p q start ≤ p ∧
      ∀ d < q - findMatchStart buf p q start, buf (p - 1 - d) = buf (q - 1 - d) := by
  induction p generalizing q with
  | zero => simp [findMatchStart, h]
  | succ p ih =>
    cases q with
    | zero => simp [findMatchStart, h]
    | succ q =>
      rw [findMatchStart]
      split
      · next hgt =>
        split
        · exact ⟨h, le_rfl, by omega, fun d hd => by omega⟩
        · next heq =>
          obtain ⟨h₁, h₂, h₃, h₄⟩ := ih q (by omega)
          refine ⟨h₁, by omega, by omega, fun d hd => ?_⟩
          rcases Nat.eq_zero_or_pos d with rfl | hd'
          · simpa using heq
          · have hp : p + 1 - 1 - d = p - 1 - (d - 1) := by omega
            have hq : q + 1 - 1 - d = q - 1 - (d - 1) := by omega
            rw [hp, hq]
            exact h₄ (d - 1) (by omega)
      · exact ⟨h, le_rfl, by omega, fun d hd => by omega⟩

/-- Going forward stops at the bound or at a difference; everything passed is equal. -/
lemma findMatchEnd_spec (buf : ℕ → UInt8) (p q stop : ℕ) :
    q ≤ findMatchEnd buf p q stop ∧ findMatchEnd buf p q stop ≤ max q stop ∧
      ∀ d < findMatchEnd buf p q stop - q, buf (p + d) = buf (q + d) := by
  induction p, q using findMatchEnd.induct buf stop with
  | case1 p q h ih =>
    obtain ⟨h₁, h₂, h₃⟩ := ih
    rw [findMatchEnd, if_pos h]
    refine ⟨by omega, by omega, fun d hd => ?_⟩
    rcases Nat.eq_zero_or_pos d with rfl | hd'
    · exact h.2
    · have hp : p + d = p + 1 + (d - 1) := by omega
      have hq : q + d = q + 1 + (d - 1) := by omega
      rw [hp, hq]
      exact h₃ (d - 1) (by omega)
  | case2 p q h =>
    rw [findMatchEnd, if_neg h]
    exact ⟨le_rfl, le_max_left _ _, fun d hd => by omega⟩

/-! ## The invariant of the search -/

variable {P : Params} {buf : ℕ → UInt8} {hi top p₀ : ℕ}

/-- What the compressor records: a true match of at least the smallest length. -/
def Found (P : Params) (buf : ℕ → UInt8) (hi top : ℕ) (r : Record) : Prop :=
  r.True P.blockSize buf hi top ∧ P.smallest ≤ r.len

/-- The invariant of the search in one block. -/
structure ScanInv (P : Params) (buf : ℕ → UInt8) (hi top p₀ : ℕ) (s : Scan) : Prop where
  lastMatch_le : s.lastMatch ≤ hi
  chain : Chain (Found P buf hi top) p₀ s.records s.lastMatch
  table : ∀ x, s.hasharr x < top

/-- The window in which a block is searched: `hi` bytes of the current lap, and the previous lap
from there on unless this is the first one. -/
structure Window (P : Params) (hi top : ℕ) : Prop where
  hi_le : hi ≤ top
  top_le : top ≤ P.blockSize
  top_eq : top = hi ∨ top = P.blockSize
  size_lt : P.blockSize < 2 ^ 31

/-- **A recorded match is true.**  The other copy is either earlier in this lap, or beyond `hi` in
the previous lap; the bounds passed to the comparison keep it there. -/
lemma extendMatch_true {lastMatch i m : ℕ} {r : Record} (hwin : Window P hi top)
    (hsmall : 0 ≤ P.smallest) (hm : m < top) (hstale : ¬(m ≥ i ∧ m < hi)) (hlast : lastMatch ≤ i)
    (hi' : i < hi) (h : extendMatch P buf hi lastMatch i m = some r) :
    r.dataOffset = lastMatch ∧ Found P buf hi top r := by
  have hhi := hwin.hi_le
  have htop := hwin.top_le
  have hsize := hwin.size_lt
  rw [extendMatch] at h
  set low := if m < i then i - m else if m - hi > i then 0 else i - (m - hi) with hlow
  have hlowle : low ≤ i := by rw [hlow]; split_ifs <;> omega
  set start := findMatchStart buf m i (max lastMatch low) with hstart
  set bound := (min (hi : Int) (int32 (P.blockSize - m + i))).toNat with hbound
  set stop := findMatchEnd buf m i bound with hstop
  obtain ⟨hs₁, hs₂, hs₃, hs₄⟩ := findMatchStart_spec buf m i (max lastMatch low) (by omega)
  obtain ⟨he₁, he₂, he₃⟩ := findMatchEnd_spec buf m i bound
  rw [← hstart] at hs₁ hs₂ hs₃ hs₄
  rw [← hstop] at he₁ he₂ he₃
  set need := if (i : Int) - m < P.barrier then P.minMatchLen else P.smallest with hneed
  by_cases hlen : (stop : Int) - start ≥ need
  · rw [if_pos hlen] at h
    have hr := Option.some.inj h
    have hrdata : r.dataOffset = lastMatch := by rw [← hr]
    have hrlen : r.len = stop - start := by rw [← hr]
    have hroff : r.offset = if m ≤ i then i - m else i + P.blockSize - m := by rw [← hr]
    have hrstart : r.start = start := by
      rw [← hr]
      change lastMatch + (start - lastMatch) = start
      omega
    have hrstop : r.stop = stop := by
      have : r.stop = r.start + r.len := rfl
      omega
    have hboundle : bound ≤ hi := by rw [hbound]; omega
    -- the bytes between `start` and `stop` repeat those at the same distance
    have hequal : ∀ x, start ≤ x → x < stop → buf x = buf (x + m - i) := by
      intro x hx₁ hx₂
      by_cases hxi : x < i
      · have h₁ : i - 1 - (i - 1 - x) = x := by omega
        have h₂ : m - 1 - (i - 1 - x) = x + m - i := by omega
        rw [← h₂, hs₄ (i - 1 - x) (by omega), h₁]
      · have h₁ : i + (x - i) = x := by omega
        have h₂ : m + (x - i) = x + m - i := by omega
        rw [← h₂, he₃ (x - i) (by omega), h₁]
    have hlong : P.smallest ≤ r.len := by
      have hminlen := P.smallest_le
      rw [hneed] at hlen
      split at hlen <;> omega
    -- in either lap the other copy is at the same distance from `start` as `m` from `i`
    have hsource : r.source P.blockSize = start + m - i ∧ r.offset ≤ P.blockSize ∧
        (start + m - i < start ∨ hi ≤ start + m - i ∧ stop + m - i ≤ top) := by
      rw [Record.source, hrstart, hroff]
      rcases Nat.lt_or_ge m i with hmi | hmi
      · have hlowval : low = i - m := by rw [hlow, if_pos hmi]
        rw [if_pos hmi.le, if_pos (by omega)]
        omega
      · have hmhi : hi ≤ m := by omega
        have hafter : ¬m ≤ i := by omega
        have hfull : top = P.blockSize := by
          rcases hwin.top_eq with h | h <;> omega
        have hlowge : hi ≤ start + m - i := by
          have hlowle' : low ≤ start := by omega
          rw [hlow, if_neg (by omega)] at hlowle'
          split at hlowle' <;> omega
        have hval : int32 (P.blockSize - m + i) = P.blockSize - m + i :=
          int32_of_mem (by omega) (by omega)
        rw [hval] at hbound
        rw [if_neg hafter, if_neg (by omega)]
        omega
    obtain ⟨hsrc, hoff, hplace⟩ := hsource
    refine ⟨hrdata, ⟨by omega, hoff, ?_, fun j hj => ?_⟩, hlong⟩
    · rw [hsrc, hrstart]
      omega
    · rw [hsrc, hrstart, hequal (start + j) (by omega) (by omega)]
      congr 1
      omega
  · rw [if_neg hlen] at h
    cases h

/-! ## One iteration -/

/-- Looking up a hash keeps the invariant and does not move. -/
lemma tryMatch_spec {s : Scan} (hacc : P.Accepted) (hwin : Window P hi top)
    (hsmall : 0 ≤ P.smallest) (hinv : ScanInv P buf hi top p₀ s) (hi' : s.i < hi) :
    ∃ s', tryMatch P buf hi s = some s' ∧ ScanInv P buf hi top p₀ s' ∧ s'.i = s.i ∧
      s'.hash = s.hash := by
  obtain ⟨x, hx⟩ := Params.slot_eq_some hacc.hashSize_pos s.hash
  set entry := s.hasharr x with hentry
  rw [tryMatch]
  by_cases hlast : s.i ≥ s.lastMatch
  · rw [if_pos hlast]
    simp only [hx, Option.bind_eq_bind, Option.bind_some, ← hentry]
    split
    · split
      · exact ⟨s, rfl, hinv, rfl, rfl⟩
      · next hstale =>
        split
        · next r hr =>
          have hm : entry - (entry &&& P.k1) < top := by
            have := hinv.table x
            omega
          obtain ⟨hdata, hfound⟩ := extendMatch_true hwin hsmall hm hstale hlast hi' hr
          refine ⟨_, rfl, ⟨hfound.1.stop_le, ?_, hinv.table⟩, rfl, rfl⟩
          exact hinv.chain.snoc hdata hfound
        · exact ⟨s, rfl, hinv, rfl, rfl⟩
    · exact ⟨s, rfl, hinv, rfl, rfl⟩
  · rw [if_neg hlast]
    exact ⟨s, rfl, hinv, rfl, rfl⟩

/-- Entering a position near enough to the data read keeps the invariant. -/
lemma insert_spec {s : Scan} (hacc : P.Accepted) (hwin : Window P hi top)
    (hinv : ScanInv P buf hi top p₀ s) (hi' : s.i + P.k ≤ hi) :
    ∃ s', insert P s = some s' ∧ ScanInv P buf hi top p₀ s' ∧ s'.i = s.i := by
  obtain ⟨x, hx⟩ := Params.slot_eq_some hacc.hashSize_pos s.hash
  have hchk := Params.chksum_lt P s.hash
  have hhi := hwin.hi_le
  refine ⟨{ s with hasharr := Function.update s.hasharr x (s.i + P.chksum s.hash) }, ?_,
    ⟨hinv.lastMatch_le, hinv.chain, fun y => ?_⟩, rfl⟩
  · rw [insert, hx]
    rfl
  · simp only [Function.update_apply]
    split
    · omega
    · exact hinv.table y

/-- Inside the window the hash moves on and nothing else changes. -/
lemma roll_spec {s : Scan} (hinv : ScanInv P buf hi top p₀ s) (h : s.i + P.L < P.blockSize) :
    ∃ s', roll P buf s = some s' ∧ ScanInv P buf hi top p₀ s' ∧ s'.i = s.i + 1 := by
  rw [roll, if_pos h]
  exact ⟨_, rfl, ⟨hinv.lastMatch_le, hinv.chain, hinv.table⟩, rfl⟩

/-- Moving on by `n` bytes inside the window. -/
lemma rollBy_spec {n : ℕ} {s : Scan} (hinv : ScanInv P buf hi top p₀ s)
    (h : s.i + n + P.L ≤ P.blockSize) :
    ∃ s', rollBy P buf n s = some s' ∧ ScanInv P buf hi top p₀ s' ∧ s'.i = s.i + n := by
  induction n generalizing s with
  | zero => exact ⟨s, rfl, hinv, rfl⟩
  | succ n ih =>
    obtain ⟨s₁, h₁, hinv₁, hi₁⟩ := roll_spec hinv (by omega)
    obtain ⟨s₂, h₂, hinv₂, hi₂⟩ := ih hinv₁ (by omega)
    exact ⟨s₂, by simp [rollBy, h₁, h₂], hinv₂, by omega⟩

/-- One iteration of the loop over the first `test` positions. -/
lemma testStep_spec {s : Scan} (hacc : P.Accepted) (hwin : Window P hi top)
    (hsmall : 0 ≤ P.smallest) (hinv : ScanInv P buf hi top p₀ s) (hi' : s.i + P.k ≤ hi)
    (hL : s.i + P.L < P.blockSize) :
    ∃ s', testStep P buf hi s = some s' ∧ ScanInv P buf hi top p₀ s' ∧ s'.i = s.i + 1 := by
  have hk := Params.k_pos P
  obtain ⟨s₁, h₁, hinv₁, hi₁, -⟩ := tryMatch_spec hacc hwin hsmall hinv (by omega)
  rw [testStep, h₁]
  by_cases haligned : s₁.i &&& P.k1 = 0
  · obtain ⟨s₂, h₂, hinv₂, hi₂⟩ := insert_spec hacc hwin hinv₁ (by omega)
    obtain ⟨s₃, h₃, hinv₃, hi₃⟩ := roll_spec hinv₂ (by omega)
    exact ⟨s₃, by simp [haligned, h₂, h₃], hinv₃, by omega⟩
  · obtain ⟨s₃, h₃, hinv₃, hi₃⟩ := roll_spec hinv₁ (by omega)
    exact ⟨s₃, by simp [haligned, h₃], hinv₃, by omega⟩

/-! ## The loops of one block -/

/-- The loop over the first positions makes its `n` iterations. -/
lemma testLoop_spec {n : ℕ} {s : Scan} (hacc : P.Accepted) (hwin : Window P hi top)
    (hsmall : 0 ≤ P.smallest) (hinv : ScanInv P buf hi top p₀ s) (hi' : s.i + n + P.k ≤ hi + 1)
    (hL : s.i + n + P.L ≤ P.blockSize) :
    ∃ s', testLoop P buf hi n s = some s' ∧ ScanInv P buf hi top p₀ s' ∧ s'.i = s.i + n := by
  induction n generalizing s with
  | zero => exact ⟨s, rfl, hinv, rfl⟩
  | succ n ih =>
    obtain ⟨s₁, h₁, hinv₁, hi₁⟩ := testStep_spec hacc hwin hsmall hinv (by omega) (by omega)
    obtain ⟨s₂, h₂, hinv₂, hi₂⟩ := ih hinv₁ (by omega) (by omega)
    exact ⟨s₂, by simp [testLoop, h₁, h₂], hinv₂, by omega⟩

/-- From `n` steps of `k` before the next multiple of `L`, the rest of the `L` bytes is indexed. -/
lemma fillLoop_spec {m n fuel : ℕ} {s : Scan} (hacc : P.Accepted) (hwin : Window P hi top)
    (hm : P.L = 2 ^ m) (hinv : ScanInv P buf hi top p₀ s) (hdvd : P.L ∣ s.i + P.k * n)
    (hn : P.k * n < P.L) (hfuel : n < fuel) (hhi : s.i + P.k * n ≤ hi)
    (hL : s.i + P.k * n + P.L ≤ P.blockSize) :
    ∃ s', fillLoop P buf fuel s = some s' ∧ ScanInv P buf hi top p₀ s' ∧
      s'.i = s.i + P.k * n := by
  have hk := Params.k_pos P
  induction n generalizing s fuel with
  | zero =>
    obtain ⟨fuel, rfl⟩ := Nat.exists_eq_succ_of_ne_zero (by omega : fuel ≠ 0)
    have hzero : s.i &&& (P.L - 1) = 0 := by
      rw [hm, Nat.and_two_pow_sub_one_eq_mod, ← hm]
      exact Nat.mod_eq_zero_of_dvd (by simpa using hdvd)
    exact ⟨s, by rw [fillLoop, if_neg (not_not.mpr hzero)], hinv, by simp⟩
  | succ n ih =>
    obtain ⟨fuel, rfl⟩ := Nat.exists_eq_succ_of_ne_zero (by omega : fuel ≠ 0)
    rw [Nat.mul_succ] at hn hhi hL hdvd ⊢
    have hnonzero : s.i &&& (P.L - 1) ≠ 0 := by
      rw [hm, Nat.and_two_pow_sub_one_eq_mod, ← hm]
      intro hzero
      -- two multiples of `L` less than `L` apart
      have hboth := (Nat.dvd_add_right (Nat.dvd_of_mod_eq_zero hzero)).mp hdvd
      exact absurd (Nat.le_of_dvd (by omega) hboth) (by omega)
    obtain ⟨s₁, h₁, hinv₁, hi₁⟩ := insert_spec hacc hwin hinv (by omega)
    obtain ⟨s₂, h₂, hinv₂, hi₂⟩ := rollBy_spec (n := P.k) hinv₁ (by omega)
    obtain ⟨s₃, h₃, hinv₃, hi₃⟩ := ih hinv₂
      (by rw [hi₂, hi₁]; convert hdvd using 1; omega) (by omega) (show n < fuel by omega)
      (by omega) (by omega)
    refine ⟨s₃, ?_, hinv₃, by omega⟩
    rw [fillLoop, if_pos hnonzero]
    exact Option.bind_eq_some_iff.mpr ⟨s₁, h₁, Option.bind_eq_some_iff.mpr ⟨s₂, h₂, h₃⟩⟩

/-- One iteration of the main loop handles `L` bytes. -/
lemma block_spec {s : Scan} {fuel : ℕ} (hacc : P.Accepted) (hwin : Window P hi top)
    (hsound : P.Sound hi) (hinv : ScanInv P buf hi top p₀ s) (hdvd : P.L ∣ s.i)
    (hlook : s.i + 2 * P.L < hi) (hfuel : P.L < fuel) :
    ∃ s', (testLoop P buf hi P.test.toNat s).bind (fillLoop P buf fuel) = some s' ∧
      ScanInv P buf hi top p₀ s' ∧ s'.i = s.i + P.L := by
  have hhi := hwin.hi_le
  have htop := hwin.top_le
  have hsmall := hsound.smallest_ge
  obtain ⟨m, -, hm, -⟩ := hsound.exists_L hacc
  have hLpos := hsound.L_pos hacc
  have hkpos := Params.k_pos P
  have hkL := Params.k_dvd_L hm hsound.L_le
  have hkle : P.k ≤ P.L := Nat.le_of_dvd hLpos hkL
  have htest : 0 < P.test := hsound.test_pos.resolve_right (by omega)
  have htestle := Params.test_le_L P
  obtain ⟨c, hc⟩ := (Params.k_dvd_test hm hsound.L_le)
  -- `test` is a positive multiple of `k`, and so is the distance from there to the end
  have hktest : P.k ∣ P.test.toNat := by
    rw [← Int.natCast_dvd_natCast, Int.toNat_of_nonneg htest.le]
    exact ⟨c, hc⟩
  obtain ⟨n, hn⟩ := Nat.dvd_sub hkL hktest
  obtain ⟨s₁, h₁, hinv₁, hi₁⟩ := testLoop_spec (n := P.test.toNat) hacc hwin (by omega) hinv
    (by omega) (by omega)
  have hnle : n ≤ P.k * n := Nat.le_mul_of_pos_left n hkpos
  have hend : s₁.i + P.k * n = s.i + P.L := by omega
  obtain ⟨s₂, h₂, hinv₂, hi₂⟩ := fillLoop_spec hacc hwin hm hinv₁
    (by rw [hend]; exact Nat.dvd_add hdvd dvd_rfl) (by omega) (show n < fuel by omega)
    (by omega) (by omega)
  exact ⟨s₂, Option.bind_eq_some_iff.mpr ⟨s₁, h₁, h₂⟩, hinv₂, by omega⟩

/-- **The search of a block ends** with the invariant, at a multiple of `L` with less than `2 * L`
bytes to go. -/
theorem scanLoop_of_sound {s : Scan} {fuel : ℕ} (hacc : P.Accepted) (hwin : Window P hi top)
    (hsound : P.Sound hi) (hinv : ScanInv P buf hi top p₀ s) (hdvd : P.L ∣ s.i)
    (hstart : s.i = 0 ∨ s.i + P.L < hi) (hfuel : hi + 2 < fuel + s.i) :
    ∃ s', scanLoop P buf hi fuel s = some s' ∧ ScanInv P buf hi top p₀ s' ∧ P.L ∣ s'.i ∧
      (s'.i = 0 ∨ s'.i + P.L < hi) ∧ hi ≤ s'.i + 2 * P.L := by
  have hL := hsound.L_le
  have hreach := hsound.reach
  have htwoL := Params.twoL_of_le hL
  induction fuel generalizing s with
  | zero =>
    rcases hstart with h | h <;> omega
  | succ fuel ih =>
    have hcond : int32 (s.i + P.twoL) = s.i + 2 * P.L := by
      rw [htwoL, int32_of_mem (by omega) (by omega)]
    rw [scanLoop]
    by_cases hlook : int32 (s.i + P.twoL) < hi
    · rw [hcond] at hlook
      have hLpos := hsound.L_pos hacc
      obtain ⟨s₁, h₁, hinv₁, hi₁⟩ := block_spec hacc hwin hsound hinv hdvd
        (by omega) (show P.L < fuel by omega)
      obtain ⟨s₂, h₂, hrest⟩ := ih hinv₁ (by rw [hi₁]; exact Nat.dvd_add hdvd dvd_rfl)
        (by omega) (by omega)
      refine ⟨s₂, ?_, hrest⟩
      rw [if_pos (by omega)]
      obtain ⟨s₀, h₀, hfill⟩ := Option.bind_eq_some_iff.mp h₁
      exact Option.bind_eq_some_iff.mpr ⟨s₀, h₀, Option.bind_eq_some_iff.mpr ⟨s₁, hfill, h₂⟩⟩
    · rw [if_neg hlook]
      exact ⟨s, rfl, hinv, hdvd, hstart, by omega⟩

/-! ## What a search that ends has gone through -/

/-- A search ends only when its condition fails. -/
lemma scanLoop_exit {s s' : Scan} {fuel : ℕ} (h : scanLoop P buf hi fuel s = some s') :
    ¬int32 (s'.i + P.twoL) < hi := by
  induction fuel generalizing s with
  | zero => cases h
  | succ fuel ih =>
    rw [scanLoop] at h
    split at h
    · obtain ⟨s₁, -, h⟩ := Option.bind_eq_some_iff.mp h
      obtain ⟨s₂, -, h⟩ := Option.bind_eq_some_iff.mp h
      exact ih h
    · next hcond =>
      obtain rfl := Option.some.inj h
      exact hcond

/-- Positions passed by the hash have `L` bytes of the window after them. -/
def Inside (P : Params) (s : Scan) : Prop := s.i = 0 ∨ s.i + P.L ≤ P.blockSize

/-- The hash moves inside the window only. -/
lemma roll_inside {s s' : Scan} (h : roll P buf s = some s') : Inside P s' := by
  rw [roll] at h
  split at h
  · obtain rfl := Option.some.inj h
    exact Or.inr (by simp only; omega)
  · cases h

/-- Moving on by several bytes stays inside the window. -/
lemma rollBy_inside {n : ℕ} {s s' : Scan} (hs : Inside P s) (h : rollBy P buf n s = some s') :
    Inside P s' := by
  induction n generalizing s with
  | zero => exact Option.some.inj h ▸ hs
  | succ n ih =>
    obtain ⟨s₁, h₁, h⟩ := Option.bind_eq_some_iff.mp h
    exact ih (roll_inside h₁) h

/-- The loop over the first positions stays inside the window. -/
lemma testLoop_inside {n : ℕ} {s s' : Scan} (hs : Inside P s)
    (h : testLoop P buf hi n s = some s') : Inside P s' := by
  induction n generalizing s with
  | zero => exact Option.some.inj h ▸ hs
  | succ n ih =>
    obtain ⟨s₁, h₁, h⟩ := Option.bind_eq_some_iff.mp h
    refine ih ?_ h
    rw [testStep] at h₁
    obtain ⟨s₂, -, h₁⟩ := Option.bind_eq_some_iff.mp h₁
    split at h₁
    · obtain ⟨s₃, -, h₁⟩ := Option.bind_eq_some_iff.mp h₁
      exact roll_inside h₁
    · exact roll_inside h₁

/-- The indexing loop stays inside the window and ends at a multiple of `L`. -/
lemma fillLoop_inside {s s' : Scan} {fuel : ℕ} (hs : Inside P s)
    (h : fillLoop P buf fuel s = some s') : Inside P s' ∧ s'.i &&& (P.L - 1) = 0 := by
  induction fuel generalizing s with
  | zero => cases h
  | succ fuel ih =>
    rw [fillLoop] at h
    split at h
    · obtain ⟨s₁, h₁, h⟩ := Option.bind_eq_some_iff.mp h
      obtain ⟨s₂, h₂, h⟩ := Option.bind_eq_some_iff.mp h
      have hs₁ : Inside P s₁ := by
        obtain ⟨x, -, h₁⟩ := Option.bind_eq_some_iff.mp h₁
        obtain rfl := Option.some.inj h₁
        exact hs
      exact ih (rollBy_inside hs₁ h₂) h
    · next hzero =>
      obtain rfl := Option.some.inj h
      exact ⟨hs, not_not.mp hzero⟩

/-- A search that ends stays inside the window and ends at a multiple of `L`. -/
lemma scanLoop_inside {s s' : Scan} {fuel : ℕ} (hs : Inside P s) (hmul : s.i &&& (P.L - 1) = 0)
    (h : scanLoop P buf hi fuel s = some s') : Inside P s' ∧ s'.i &&& (P.L - 1) = 0 := by
  induction fuel generalizing s with
  | zero => cases h
  | succ fuel ih =>
    rw [scanLoop] at h
    split at h
    · obtain ⟨s₁, h₁, h⟩ := Option.bind_eq_some_iff.mp h
      obtain ⟨s₂, h₂, h⟩ := Option.bind_eq_some_iff.mp h
      obtain ⟨hs₂, hmul₂⟩ := fillLoop_inside (testLoop_inside hs h₁) h₂
      exact ih hs₂ hmul₂ h
    · obtain rfl := Option.some.inj h
      exact ⟨hs, hmul⟩

/-- Without positions to try a search that ends has never begun. -/
lemma scanLoop_of_test_nonpos {s s' : Scan} {fuel : ℕ} (htest : P.test ≤ 0)
    (hmul : s.i &&& (P.L - 1) = 0) (h : scanLoop P buf hi fuel s = some s') : s' = s := by
  induction fuel generalizing s with
  | zero => cases h
  | succ fuel ih =>
    rw [scanLoop] at h
    split at h
    · rw [Int.toNat_of_nonpos htest] at h
      obtain ⟨s₁, h₁, hfill⟩ := Option.bind_eq_some_iff.mp h
      obtain rfl := Option.some.inj h₁
      obtain ⟨s₂, h₂, hrest⟩ := Option.bind_eq_some_iff.mp hfill
      have hstay : s₂ = s := by
        cases fuel with
        | zero => cases h₂
        | succ fuel =>
          rw [fillLoop, if_neg (not_not.mpr hmul)] at h₂
          exact (Option.some.inj h₂).symm
      subst hstay
      exact ih hmul hrest
    · exact (Option.some.inj h).symm

/-- Without positions to try a search that ends has stayed where it was. -/
lemma i_of_test_nonpos {s s' : Scan} {fuel : ℕ} (htest : P.test ≤ 0) (hmul : s.i &&& (P.L - 1) = 0)
    (hstart : P.test ≤ 0 → s.i = 0) (h : scanLoop P buf hi fuel s = some s') : s'.i = 0 := by
  rw [scanLoop_of_test_nonpos htest hmul h]
  exact hstart htest

/-- **Searches that end have not overflowed.**  A search that starts at a multiple of `L` inside the
window, and at the beginning unless there are positions to try, ends where there are `3 * L` addresses
more. -/
theorem reach_of_scanLoop {s s' : Scan} {fuel : ℕ} (hints : P.Ints) (hnonempty : 0 < hi)
    (hs : Inside P s) (hmul : s.i &&& (P.L - 1) = 0) (hstart : P.test ≤ 0 → s.i = 0)
    (h : scanLoop P buf hi fuel s = some s') :
    2 ≤ P.smallest ∧ P.L ≤ 2 ^ 29 ∧ hi ≤ s'.i + 2 * P.L ∧ s'.i + 3 * P.L ≤ 2 ^ 31 := by
  have hexit := scanLoop_exit h
  obtain ⟨hinside, hmul'⟩ := scanLoop_inside hs hmul h
  have hsize := hints.blockSize_lt
  have hrange := hints.smallest_mem
  have hsmall : 2 ≤ P.smallest := by
    by_contra hlt
    have hL := Params.L_of_lt hrange.1 (by omega)
    have htest : P.test ≤ 0 := by
      have hle := Params.test_le_L P
      rw [hL] at hle
      exact_mod_cast hle
    have hzero := i_of_test_nonpos htest hmul hstart h
    rw [hzero, Params.twoL_of_le (by omega), hL] at hexit
    exact hexit (by rw [int32_of_mem (by norm_num) (by norm_num)]; omega)
  obtain ⟨m, hm30, hm, -⟩ := Params.L_spec hsmall hrange.2
  have hLpos : 0 < P.L := by rw [hm]; positivity
  have hdvd : P.L ∣ s'.i := by
    rw [hm, Nat.and_two_pow_sub_one_eq_mod, ← hm] at hmul'
    exact Nat.dvd_of_mod_eq_zero hmul'
  have hLle : P.L ≤ 2 ^ 29 := by
    by_contra hgt
    have hL : P.L = 2 ^ 30 := by
      have hm' : m = 30 := by
        by_contra hne
        have : 2 ^ m ≤ 2 ^ 29 := Nat.pow_le_pow_right (by norm_num) (by omega)
        omega
      rw [hm, hm']
    have htwo : P.twoL = -2 ^ 31 := by
      rw [Params.twoL, hL, int32_of_ge (by norm_num) (by norm_num)]
      norm_num
    have hzero : s'.i = 0 := by
      rcases hinside with h₀ | h₀
      · exact h₀
      · rw [hL] at hdvd
        obtain ⟨c, hc⟩ := hdvd
        omega
    rw [hzero, htwo] at hexit
    exact hexit (by rw [int32_of_mem (by norm_num) (by norm_num)]; omega)
  have htwo := Params.twoL_of_le hLle
  rw [htwo] at hexit
  refine ⟨hsmall, hLle, ?_⟩
  have hdvd32 : P.L ∣ 2 ^ 31 := by rw [hm]; exact Nat.pow_dvd_pow 2 (by omega)
  obtain ⟨c, hc⟩ := hdvd
  obtain ⟨e, he⟩ := hdvd32
  have hbound : s'.i + P.L < 2 ^ 31 := by
    rcases hinside with h₀ | h₀ <;> omega
  -- both sides are multiples of `L`
  have hce : c + 1 < e := by
    have : P.L * (c + 1) < P.L * e := by rw [Nat.mul_succ, ← hc, ← he]; exact hbound
    exact Nat.lt_of_mul_lt_mul_left this
  have hle₂ : s'.i + 2 * P.L ≤ 2 ^ 31 := by
    have : P.L * (c + 2) ≤ P.L * e := Nat.mul_le_mul_left _ hce
    rw [Nat.mul_add, ← hc, ← he] at this
    omega
  have hne : s'.i + 2 * P.L ≠ 2 ^ 31 := by
    intro heq
    have hval : int32 (s'.i + 2 * P.L) = -2 ^ 31 := by
      rw [int32_of_ge (by omega) (by omega)]
      omega
    rw [hval] at hexit
    omega
  have hce₂ : c + 2 < e := by
    have : P.L * (c + 2) < P.L * e := by rw [Nat.mul_add, ← hc, ← he]; omega
    exact Nat.lt_of_mul_lt_mul_left this
  have hle₃ : s'.i + 3 * P.L ≤ 2 ^ 31 := by
    have : P.L * (c + 3) ≤ P.L * e := Nat.mul_le_mul_left _ hce₂
    rw [Nat.mul_add, ← hc, ← he] at this
    omega
  rw [int32_of_mem (by omega) (by omega)] at hexit
  omega

/-- **Only sound searches end.** -/
theorem sound_of_scanLoop {s s' : Scan} {fuel : ℕ} (hacc : P.Accepted) (hnonempty : 0 < hi)
    (hs : Inside P s) (hmul : s.i &&& (P.L - 1) = 0) (hstart : P.test ≤ 0 → s.i = 0)
    (h : scanLoop P buf hi fuel s = some s') : P.Sound hi := by
  obtain ⟨hsmall, hLle, hend, hreach⟩ := reach_of_scanLoop hacc.ints hnonempty hs hmul hstart h
  refine ⟨hsmall, hLle, by omega, ?_⟩
  by_cases htest : 0 < P.test
  · exact Or.inl htest
  · have hzero := i_of_test_nonpos (by omega) hmul hstart h
    exact Or.inr (by omega)

end DArc.Rep
