import DArc.Library.Parity
import DArc.Library.Words

/-!
# Memory blocks and chunks

The helpers that the recovery of archives uses: `memxor`, which adds one memory block to another eight
bytes at a time, and `doChunks`, which splits an operation into parts.

### Main results

* `memxor_added`: every byte of the block is added once, and no other is changed;
* `doChunks_read`: an operation that reads its chunks goes over the sectors of the data.
-/

namespace DArc.Recovery

/-! ## Memory blocks -/

/-- Stores `bytes` at the offset `off`. -/
def poke (dest : List UInt8) (off : ℕ) (bytes : List UInt8) : List UInt8 :=
  dest.take off ++ bytes ++ dest.drop (off + bytes.length)

/-- Loads a `Word64` from the offset `off`. -/
def peek64 (mem : List UInt8) (off : ℕ) : ℕ := leValue ((mem.drop off).take 8)

/-- The words of `memxor`, from the word `k` on. -/
def goW64 (src : List UInt8) : ℕ → ℕ → List UInt8 → List UInt8
  | 0, _, dest => dest
  | left + 1, k, dest =>
    let off := k * 8
    goW64 src left (k + 1) (poke dest off (leBytes 8 (peek64 dest off ^^^ peek64 src off)))

/-- The bytes of `memxor` that do not fill a word. -/
def goBytes (src : List UInt8) : ℕ → ℕ → List UInt8 → List UInt8
  | 0, _, dest => dest
  | n + 1, off, dest => goBytes src n (off + 1) (poke dest off [dest.getD off 0 ^^^ src.getD off 0])

/-- `dest[i] ^= src[i]` for the first `size` bytes. -/
def memxor (dest src : List UInt8) (size : ℕ) : List UInt8 :=
  goBytes src (size % 8) (size / 8 * 8) (goW64 src (size / 8) 0 dest)

/-- Storing bytes keeps the size of the memory. -/
lemma length_poke {dest bytes : List UInt8} {off : ℕ} (h : off + bytes.length ≤ dest.length) :
    (poke dest off bytes).length = dest.length := by
  rw [poke, List.length_append, List.length_append, List.length_take, List.length_drop]
  omega

/-- The bytes after a store. -/
lemma byteOf_poke {dest bytes : List UInt8} {off : ℕ} (h : off + bytes.length ≤ dest.length) (i : ℕ) :
    byteOf (poke dest off bytes) i =
      if off ≤ i ∧ i < off + bytes.length then byteOf bytes (i - off) else byteOf dest i := by
  have htake : (dest.take off).length = off := by
    rw [List.length_take]
    omega
  rw [poke, List.append_assoc, byteOf_append, htake]
  by_cases hlow : i < off
  · rw [if_pos hlow, if_neg (by omega), byteOf_take dest hlow]
  · rw [if_neg hlow, byteOf_append]
    by_cases hmid : i < off + bytes.length
    · rw [if_pos (by omega), if_pos ⟨by omega, hmid⟩]
    · rw [if_neg (by omega), if_neg (by omega), byteOf_drop]
      congr 1
      omega

/-- The bytes of a sum of two words. -/
lemma leBytes_xor (k a b : ℕ) :
    leBytes k (a ^^^ b) = List.zipWith (· ^^^ ·) (leBytes k a) (leBytes k b) := by
  induction k generalizing a b with
  | zero => rfl
  | succ k ih =>
    have hdiv : (a ^^^ b) / 256 = (a / 256) ^^^ (b / 256) := by
      have h := Nat.shiftRight_xor_distrib (a := a) (b := b) (i := 8)
      simpa only [Nat.shiftRight_eq_div_pow] using h
    rw [leBytes, leBytes, leBytes, List.zipWith_cons_cons, hdiv, ih, UInt8.ofNat_xor]

/-- Storing the sum of two loaded words adds their bytes. -/
lemma leBytes_peek64 {dest src : List UInt8} (off : ℕ) (hd : off + 8 ≤ dest.length)
    (hs : off + 8 ≤ src.length) :
    leBytes 8 (peek64 dest off ^^^ peek64 src off) =
      List.zipWith (· ^^^ ·) ((dest.drop off).take 8) ((src.drop off).take 8) := by
  have hload : ∀ {mem : List UInt8}, off + 8 ≤ mem.length →
      leBytes 8 (peek64 mem off) = (mem.drop off).take 8 := fun {mem} h => by
    have hlen : ((mem.drop off).take 8).length = 8 := by
      rw [List.length_take, List.length_drop]
      omega
    have hword := leBytes_leValue ((mem.drop off).take 8)
    rwa [hlen] at hword
  rw [leBytes_xor, hload hd, hload hs]

/-- The bytes of the sum of two loaded words. -/
lemma byteOf_zipWith_xor {dest src : List UInt8} {off i : ℕ} (hd : off + 8 ≤ dest.length)
    (hs : off + 8 ≤ src.length) (hlow : off ≤ i) (hhigh : i < off + 8) :
    byteOf (List.zipWith (· ^^^ ·) ((dest.drop off).take 8) ((src.drop off).take 8)) (i - off) =
      byteOf dest i ^^^ byteOf src i := by
  have hi : off + (i - off) = i := by omega
  have hlt : i - off < 8 := by omega
  simp only [byteOf, List.getD_eq_getElem?_getD, List.getElem?_zipWith, List.getElem?_take_of_lt hlt,
    List.getElem?_drop, hi, List.getElem?_eq_getElem (show i < dest.length by omega),
    List.getElem?_eq_getElem (show i < src.length by omega), Option.getD_some]

/-- The block `dest'` is `dest` with the bytes of `src` from `a` to `b` added. -/
def Added (src dest dest' : List UInt8) (a b : ℕ) : Prop :=
  dest'.length = dest.length ∧ ∀ i, byteOf dest' i =
    if a ≤ i ∧ i < b then byteOf dest i ^^^ byteOf src i else byteOf dest i

/-- Bytes are added part after part. -/
lemma Added.trans {src x y z : List UInt8} {a b c : ℕ} (h : Added src x y a b) (h' : Added src y z b c)
    (hab : a ≤ b) (hbc : b ≤ c) : Added src x z a c := by
  refine ⟨h'.1.trans h.1, fun i => ?_⟩
  rw [h'.2 i, h.2 i]
  by_cases h₁ : i < a
  · rw [if_neg (by omega), if_neg (by omega), if_neg (by omega)]
  by_cases h₂ : i < b
  · rw [if_neg (by omega), if_pos (by omega), if_pos (by omega)]
  by_cases h₃ : i < c
  · rw [if_pos (by omega), if_neg (by omega), if_pos (by omega)]
  · rw [if_neg (by omega), if_neg (by omega), if_neg (by omega)]

/-- Nothing is added. -/
lemma Added.refl (src x : List UInt8) (a : ℕ) : Added src x x a a :=
  ⟨rfl, fun i => by rw [if_neg (by omega)]⟩

/-- The words. -/
lemma goW64_added (src : List UInt8) (left k : ℕ) (dest : List UInt8)
    (hd : (k + left) * 8 ≤ dest.length) (hs : (k + left) * 8 ≤ src.length) :
    Added src dest (goW64 src left k dest) (k * 8) ((k + left) * 8) := by
  induction left generalizing k dest with
  | zero => exact Added.refl src dest _
  | succ left ih =>
    have hword := leBytes_peek64 (k * 8) (show k * 8 + 8 ≤ dest.length by omega)
      (show k * 8 + 8 ≤ src.length by omega)
    have hlen : k * 8 + (leBytes 8 (peek64 dest (k * 8) ^^^ peek64 src (k * 8))).length ≤ dest.length := by
      rw [length_leBytes]
      omega
    have hfirst : Added src dest
        (poke dest (k * 8) (leBytes 8 (peek64 dest (k * 8) ^^^ peek64 src (k * 8)))) (k * 8)
        ((k + 1) * 8) := by
      refine ⟨length_poke hlen, fun i => ?_⟩
      rw [byteOf_poke hlen, length_leBytes]
      by_cases hi : k * 8 ≤ i ∧ i < k * 8 + 8
      · rw [if_pos hi, if_pos (by omega), hword, byteOf_zipWith_xor (by omega) (by omega) hi.1 hi.2]
      · rw [if_neg hi, if_neg (by omega)]
    have hrest := ih (k + 1) (poke dest (k * 8)
      (leBytes 8 (peek64 dest (k * 8) ^^^ peek64 src (k * 8)))) (by rw [hfirst.1]; omega) (by omega)
    have hsum : (k + 1 + left) * 8 = (k + (left + 1)) * 8 := by omega
    rw [hsum] at hrest
    exact hfirst.trans hrest (by omega) (by omega)

/-- The bytes at the end. -/
lemma goBytes_added (src : List UInt8) (n off : ℕ) (dest : List UInt8)
    (hd : off + n ≤ dest.length) : Added src dest (goBytes src n off dest) off (off + n) := by
  induction n generalizing off dest with
  | zero => exact Added.refl src dest _
  | succ n ih =>
    have hlen : off + [dest.getD off 0 ^^^ src.getD off 0].length ≤ dest.length := by
      rw [List.length_singleton]
      omega
    have hfirst : Added src dest (poke dest off [dest.getD off 0 ^^^ src.getD off 0]) off (off + 1) := by
      refine ⟨length_poke hlen, fun i => ?_⟩
      rw [byteOf_poke hlen, List.length_singleton]
      by_cases hi : off ≤ i ∧ i < off + 1
      · have heq : i = off := by omega
        subst heq
        rw [if_pos hi, if_pos hi, Nat.sub_self]
        rfl
      · rw [if_neg hi, if_neg hi]
    have hrest := ih (off + 1) (poke dest off [dest.getD off 0 ^^^ src.getD off 0])
      (by rw [hfirst.1]; omega)
    have hsum : off + 1 + n = off + (n + 1) := by omega
    rw [hsum] at hrest
    exact hfirst.trans hrest (by omega) (by omega)

/-- **`memxor` adds the first `size` bytes, and changes no other.** -/
theorem memxor_added {dest src : List UInt8} {size : ℕ} (hd : size ≤ dest.length)
    (hs : size ≤ src.length) : Added src dest (memxor dest src size) 0 size := by
  have hsplit : size / 8 * 8 + size % 8 = size := Nat.div_add_mod' size 8
  have hwords := goW64_added src (size / 8) 0 dest (by omega) (by omega)
  have hbytes := goBytes_added src (size % 8) (size / 8 * 8) (goW64 src (size / 8) 0 dest)
    (by rw [hwords.1]; omega)
  rw [hsplit] at hbytes
  rw [Nat.zero_add, Nat.zero_mul] at hwords
  exact hwords.trans hbytes (Nat.zero_le _) (by omega)

/-! ## Chunks -/

/-- Splits an operation on `size` units into parts of at most `chunk` units.  With empty parts it does not
come to an end, which is `none` here. -/
def doChunks {σ : Type} (size chunk : ℕ) (action : ℕ → σ → Option σ) (st : σ) : Option σ :=
  if size = 0 then some st
  else if chunk = 0 then none
  else
    let n := min size chunk
    (action n st).bind fun st => doChunks (size - n) chunk action st
termination_by size
decreasing_by omega

/-- How many chunks there are. -/
def divRoundUp (x chunk : ℕ) : ℕ := (((x : Int) - 1) / chunk + 1).toNat

/-- Reads the next bytes, and works on them. -/
def reading {σ : Type} (step : List UInt8 → σ → Option σ) (bytes : ℕ) (st : List UInt8 × σ) :
    Option (List UInt8 × σ) :=
  (step (st.1.take bytes) st.2).map fun st' => (st.1.drop bytes, st')

/-- The sector `n` of the data. -/
def sector (ss : ℕ) (data : List UInt8) (n : ℕ) : List UInt8 := (data.drop (n * ss)).take ss

/-- All sectors of the data. -/
def sectors (ss : ℕ) (data : List UInt8) : List (List UInt8) :=
  (List.range (divRoundUp data.length ss)).map (sector ss data)

/-- The number of chunks when the first is taken away. -/
lemma divRoundUp_succ {x chunk : ℕ} (hx : 0 < x) (hchunk : 0 < chunk) :
    divRoundUp x chunk = divRoundUp (x - min x chunk) chunk + 1 := by
  have hpos : (0 : Int) < chunk := by exact_mod_cast hchunk
  unfold divRoundUp
  by_cases h : x ≤ chunk
  · have hzero : ((x : Int) - 1) / chunk = 0 := Int.ediv_eq_zero_of_lt (by omega) (by omega)
    have hneg : (((x - min x chunk : ℕ) : Int) - 1) / chunk = -1 := by
      rw [min_eq_left h, Nat.sub_self]
      exact Int.ediv_eq_neg_one_of_neg_of_le (by omega) (by omega)
    rw [hzero, hneg]
    rfl
  · have hsplit : (x : Int) - 1 = ((x - min x chunk : ℕ) : Int) - 1 + 1 * chunk := by
      rw [min_eq_right (by omega)]
      omega
    have hnonneg : 0 ≤ (((x - min x chunk : ℕ) : Int) - 1) / chunk :=
      Int.ediv_nonneg (by omega) hpos.le
    rw [hsplit, Int.add_mul_ediv_right _ _ hpos.ne']
    omega

/-- The first sector and those behind it. -/
lemma sectors_of_pos {ss : ℕ} {data : List UInt8} (hss : 0 < ss) (h : 0 < data.length) :
    sectors ss data = data.take ss :: sectors ss (data.drop ss) := by
  have hlen : data.length - min data.length ss = (data.drop ss).length := by
    rw [List.length_drop]
    omega
  unfold sectors
  rw [divRoundUp_succ h hss, hlen, List.range_succ_eq_map, List.map_cons, List.map_map]
  congr 1
  · rw [sector, Nat.zero_mul, List.drop_zero]
  · refine List.map_congr_left fun n _ => ?_
    rw [Function.comp_apply, sector, sector, List.drop_drop, Nat.succ_mul, Nat.add_comm]

/-- There are no sectors without data. -/
lemma sectors_nil {ss : ℕ} (hss : 0 < ss) : sectors ss [] = [] := by
  have hneg : (-1 : Int) / ss = -1 := Int.ediv_eq_neg_one_of_neg_of_le (by omega) (by omega)
  have hzero : divRoundUp ([] : List UInt8).length ss = 0 := by
    unfold divRoundUp
    rw [List.length_nil, Nat.cast_zero, zero_sub, hneg]
    rfl
  rw [sectors, hzero]
  rfl

/-- **An operation that reads its chunks goes over the sectors of the data.** -/
theorem doChunks_read {σ : Type} (step : List UInt8 → σ → Option σ) {ss : ℕ} (hss : 0 < ss)
    (data rest : List UInt8) (st : σ) :
    doChunks data.length ss (reading step) (data ++ rest, st) =
      ((sectors ss data).foldlM (fun st buf => step buf st) st).map fun st => (rest, st) := by
  induction h : data.length using Nat.strong_induction_on generalizing data st with
  | _ n ih =>
    subst h
    rw [doChunks]
    by_cases hzero : data.length = 0
    · have hnil := List.eq_nil_of_length_eq_zero hzero
      subst hnil
      rw [if_pos hzero, sectors_nil hss]
      rfl
    · have htake : (data ++ rest).take (min data.length ss) = data.take ss := by
        rw [List.take_append_of_le_length (min_le_left _ _), List.take_eq_take_iff]
        omega
      have hdrop : (data ++ rest).drop (min data.length ss) = data.drop ss ++ rest := by
        rw [List.drop_append_of_le_length (min_le_left _ _)]
        congr 1
        by_cases hle : data.length ≤ ss
        · rw [min_eq_left hle, List.drop_length, List.drop_eq_nil_of_le hle]
        · rw [min_eq_right (by omega)]
      have hlen : data.length - min data.length ss = (data.drop ss).length := by
        rw [List.length_drop]
        omega
      rw [if_neg hzero, if_neg (by omega), sectors_of_pos hss (Nat.pos_of_ne_zero hzero), List.foldlM_cons]
      dsimp only [reading]
      rw [htake, hdrop, hlen]
      cases step (data.take ss) st with
      | none => rfl
      | some st' => exact ih _ (by rw [List.length_drop]; omega) _ _ rfl

end DArc.Recovery
