import DArc.Compression.Common
import DArc.SREP.Hashes

/-!
# The hashes of the compressor

`compress` hashes every chunk of `L` bytes of a block that it enters into its table and every place where it looks
for a match. A second, smaller window finds out in a bit array whether there can be a match at all. Its hash is
moved on by several bytes at once, and the hash of the whole window is made from it.

### Outline

* `Tables`: what the hashes are given to;
* `Uses`: the hashes that are given to it, with the places that they stand for;
* `Compressor.compress`: one block.

### Main results

* `Compressor.compress_right`: all hashes are those of the windows at their places;
* `hashes_right`: the rolling hashes and those of the compressor.
-/

namespace DArc.SREP

/-- `BigHash`. -/
abbrev BigHash := BitVec 64

/-- `PRIME1`. -/
def seedPrime : BigHash := 153191

/-- What is done outside of the hashes, with some state: the bit array and the hash table, the search and the records
of matches. -/
structure Outside (σ : Type*) where
  /-- `mark_match_possibility`. -/
  mark : BigHash → σ → σ
  /-- `check_match_possibility`. -/
  check : BigHash → σ → Bool
  /-- `find_match` and `record_match`, behind the last match: the end of the match that was recorded. -/
  find : ℕ → ℕ → BigHash → σ → Option ℕ × σ
  /-- `add_hash`. -/
  add : ℕ → BigHash → σ → σ
  /-- `DECODE_LZ_MATCH`, from a position: the start and the length of the next input match. -/
  decode : ℕ → σ → (ℕ × ℕ) × σ
  /-- `ENCODE_LZ_MATCH`: a number of literals and the length of the match behind them. -/
  encode : ℕ → ℕ → σ → σ

/-- A hash that leaves the compressor, with the place that it stands for. -/
inductive Use
  /-- The bit array is marked. -/
  | mark (p : ℤ) (hash : BigHash)
  /-- The bit array is looked at. -/
  | check (p : ℤ) (hash : BigHash)
  /-- The table is looked at. -/
  | find (i : ℕ) (hash : BigHash)
  /-- The table is filled. -/
  | add (i : ℕ) (hash : BigHash)

/-- The place and the hash that the table is asked for or filled with. -/
def Use.entry : Use → Option (ℕ × BigHash)
  | .find i hash => some (i, hash)
  | .add i hash => some (i, hash)
  | _ => none

/-- The parameters of `compress`, and the block with the memory around it. -/
structure Compressor (σ : Type*) where
  accelerator : ℕ
  L : ℕ
  baseLen : ℕ
  blockSize : ℕ
  buf : Bytes
  outside : Outside σ

/-- The variables of `compress`, and the hashes that have left it. -/
structure Variables (σ : Type*) where
  i : ℕ
  lastMatchEnd : ℕ
  matchStart : ℕ
  matchLen : ℕ
  hash1 : PolynomialRollingHash 64
  hash2 : PolynomialRollingHash 64
  savedHash1 : BigHash
  state : σ
  uses : List Use

namespace Compressor

variable {σ : Type*} (c : Compressor σ)

/-- `CYCLES`. -/
def cycles : ℕ := if c.accelerator ≠ 0 then c.accelerator else 1

/-- `OFFSET`. -/
def offset : ℕ := c.cycles - 1

/-- `X`. -/
def x : ℕ := max c.cycles 4

/-- `LOOKAHEAD`. -/
def lookahead : ℕ := if c.accelerator ≠ 0 then 256 else 128

/-! ## The first bytes of the block -/

/-- `check_match`: whether a match was recorded. -/
def checkMatch (i : ℕ) (hash : BigHash) (s : Variables σ) : Bool × Variables σ :=
  let (found, state) := c.outside.find s.lastMatchEnd i hash s.state
  let s := { s with state, uses := s.uses ++ [.find i hash] }
  match found with
  | some matchEnd => (true, { s with lastMatchEnd := matchEnd })
  | none => (false, s)

/-- `mark_match_possibility` with the first hash, whose window begins at `p`. -/
def mark (p : ℤ) (s : Variables σ) : Variables σ :=
  if c.accelerator ≠ 0 then
    { s with state := c.outside.mark s.hash1.value s.state, uses := s.uses ++ [.mark p s.hash1.value] }
  else s

/-- `add_hash`. -/
def addHash (i : ℕ) (hash : BigHash) (s : Variables σ) : Variables σ :=
  { s with state := c.outside.add i hash s.state, uses := s.uses ++ [.add i hash] }

/-- The loop over the first bytes, with the number of turns that are left. -/
def firstLoop : ℕ → ℕ → Variables σ → Variables σ
  | 0, j, s => c.mark j s
  | turns + 1, j, s =>
    let s := c.mark j s
    let hash1 := s.hash1.update (c.buf j) (c.buf (c.L - c.offset + j))
    let hash2 := s.hash2.update 0 (c.buf (c.L - c.offset + j))
    firstLoop turns (j + 1) { s with hash1, hash2 }

/-- The first bytes of the block. -/
def firstBytes (s : Variables σ) : Variables σ :=
  let hash1 := s.hash1.moveto c.buf 0
  let s := c.firstLoop c.offset 0 { s with hash1, hash2 := { s.hash2 with value := hash1.value } }
  let s := (c.checkMatch 0 s.hash2.value s).2
  c.addHash 0 s.hash2.value s

/-! ## Some bytes of a chunk -/

/-- The next input match. -/
def nextInput (s : Variables σ) : Variables σ :=
  let (matchStart, matchLen, lastMatchEnd, state) :=
    if uint32 (s.matchStart + s.matchLen - c.baseLen) ≥ s.lastMatchEnd then
      let matchLen := uint32 (s.matchLen - (max s.matchStart s.lastMatchEnd - s.matchStart : ℕ))
      let matchStart := max s.matchStart s.lastMatchEnd
      (matchStart, matchLen, uint32 (matchStart + matchLen),
        c.outside.encode (matchStart - s.lastMatchEnd) matchLen s.state)
    else (s.matchStart, s.matchLen, s.lastMatchEnd, s.state)
  let ((matchStart, matchLen), state) := c.outside.decode (matchStart + matchLen) state
  { s with matchStart, matchLen, lastMatchEnd, state }

/-- The loop that moves the first hash on, with the number of turns that are left. -/
def updateLoop : ℕ → Variables σ → Variables σ
  | 0, s => s
  | turns + 1, s => updateLoop turns { s with i := s.i + c.x, hash1 := s.hash1.updateN c.buf c.x (s.i + c.offset) }

/-- The first hash is moved on to the end of the last match. -/
def skipMatch (nextChunk : ℕ) (s : Variables σ) : Variables σ :=
  let nextI := min ((2 ^ 64 + nextChunk - c.cycles) % 2 ^ 64) (if s.lastMatchEnd > 0 then s.lastMatchEnd - 1 else 0)
  if nextI ≥ s.i + c.L / 2 then
    let i := nextI &&& (2 ^ 64 - c.x)
    { s with i, hash1 := s.hash1.moveto c.buf (i + c.offset) }
  else c.updateLoop ((nextI - s.i) / c.x) s

/-- The loop that moves the first hash over all bytes, with the number of turns that are left: the hash and its
values. -/
def hashLoop : ℕ → ℕ → PolynomialRollingHash 64 → List BigHash → PolynomialRollingHash 64 × List BigHash
  | 0, _, hash1, hashes1 => (hash1, hashes1)
  | turns + 1, i0, hash1, hashes1 =>
    let hash1 := hash1.update (c.buf (i0 + c.offset)) (c.buf (i0 + c.L))
    hashLoop turns (i0 + c.cycles) (hash1.updateN c.buf (c.cycles - 1) (i0 + 1 + c.offset)) (hashes1 ++ [hash1.value])

/-- `PRIME1_powers`, from the last one down. -/
def powersDown : ℕ → BigHash
  | 0 => power seedPrime (uint32 (c.L - c.cycles))
  | k + 1 => powersDown k * seedPrime

/-- `PRIME1_powers`. -/
def primePowers (j : ℕ) : BigHash := c.powersDown (c.cycles - 1 - j)

/-- The hash of the whole window, made from the first hash. -/
def joined (hsh1 : BigHash) (i : ℕ) : BigHash :=
  (List.range (c.cycles - 1)).foldl (fun value (j : ℕ) => value + c.buf.at 64 (i + j) * c.primePowers j) hsh1

/-- `prefetch_and_store_match`. -/
def store (s : Variables σ) (i : ℕ) (hash : BigHash) (hashes2 : List (BigHash × ℕ)) : List (BigHash × ℕ) :=
  if i ≥ s.lastMatchEnd ∧ i < s.matchStart then hashes2 ++ [(hash, i)] else hashes2

/-- The loop that moves a hash over bytes where there can be a match, with the number of turns that are left. -/
def storeLoop (s : Variables σ) :
    ℕ → ℕ → PolynomialRollingHash 64 → List (BigHash × ℕ) → PolynomialRollingHash 64 × List (BigHash × ℕ)
  | 0, _, hash, hashes2 => (hash, hashes2)
  | turns + 1, i, hash, hashes2 =>
    let hash := hash.update (c.buf i) (c.buf (i + c.L))
    storeLoop s turns (i + 1) hash (store s (i + 1) hash.value hashes2)

/-- The loop over the values of the first hash. -/
def checkLoop : List BigHash → Variables σ → List (BigHash × ℕ) → Variables σ × List (BigHash × ℕ)
  | [], s, hashes2 => (s, hashes2)
  | hsh1 :: hashes1, s, hashes2 =>
    let possible := c.outside.check hsh1 s.state
    let s := { s with uses := s.uses ++ [.check (s.i + 1 + c.offset : ℕ) hsh1] }
    if possible then
      let i := s.i + 1
      let hash2 := { s.hash2 with value := c.joined hsh1 i }
      let (hash2, hashes2) := c.storeLoop s (c.cycles - 1) i hash2 (store s i hash2.value hashes2)
      checkLoop hashes1 { s with i := i + (c.cycles - 1), hash2 } hashes2
    else checkLoop hashes1 { s with i := s.i + c.cycles } hashes2

/-- The loop without the accelerator, with the number of turns that are left. -/
def plainLoop : ℕ → Variables σ → List (BigHash × ℕ) → Variables σ × List (BigHash × ℕ)
  | 0, s, hashes2 => (s, hashes2)
  | turns + 1, s, hashes2 =>
    let (hash1, hashes2) := c.storeLoop s c.x s.i s.hash1 hashes2
    plainLoop turns { s with i := s.i + c.x, hash1 } hashes2

/-- The loop over the places where there can be a match. -/
def findLoop : List (BigHash × ℕ) → Variables σ → Variables σ
  | [], s => s
  | (hsh, i) :: hashes2, s =>
    match c.checkMatch i hsh s with
    | (true, s) => s
    | (false, s) => findLoop hashes2 s

/-- One turn of the loop over a chunk, which goes up to `LOOKAHEAD` bytes. -/
def lookaheadStep (nextChunk : ℕ) (s : Variables σ) : Variables σ :=
  let s := if s.i ≥ s.matchStart then c.nextInput s else s
  let s := c.skipMatch nextChunk s
  let lastI := min nextChunk (s.i + c.lookahead)
  let (s, hashes2) :=
    if c.accelerator ≠ 0 then
      let (hash1, hashes1) := c.hashLoop ((lastI - s.i + c.cycles - 1) / c.cycles) s.i s.hash1 []
      c.checkLoop hashes1 { s with hash1, savedHash1 := hashes1.getLastD 0 } []
    else c.plainLoop ((lastI - s.i + c.x - 1) / c.x) s []
  c.findLoop hashes2 s

/-! ## The block -/

/-- The loop over a chunk, and whether it came to its end. -/
def chunkLoop (nextChunk : ℕ) : ℕ → Variables σ → Bool × Variables σ
  | 0, s => (false, s)
  | fuel + 1, s => if s.i < nextChunk then chunkLoop nextChunk fuel (c.lookaheadStep nextChunk s) else (true, s)

/-- The loop over the last bytes of a chunk, with the number of turns that are left. -/
def lastLoop : ℕ → ℕ → Variables σ → Variables σ
  | 0, _, s => s
  | turns + 1, j, s =>
    let s := { s with hash1 := s.hash1.update (c.buf (s.i - c.cycles + j + c.offset)) (c.buf (s.i - c.cycles + j + c.L)) }
    let s := c.mark (s.i + j : ℕ) s
    lastLoop turns (j + 1) { s with hash2 := s.hash2.update 0 (c.buf (s.i - c.cycles + j + c.L)) }

/-- The last bytes of a chunk, and the chunk behind them. -/
def lastBytes (s : Variables σ) : Variables σ :=
  if c.accelerator ≠ 0 then
    let s := { s with
      hash1 := { s.hash1 with value := s.savedHash1 }
      hash2 := { s.hash2 with value := s.savedHash1 } }
    let s := c.lastLoop (c.cycles - 1) 1 (c.mark s.i s)
    c.addHash s.i s.hash2.value s
  else c.addHash s.i s.hash1.value s

/-- The main loop. Without fuel it stops where it is. -/
def mainLoop : ℕ → Variables σ → Variables σ
  | 0, s => s
  | fuel + 1, s =>
    if s.i ≤ c.blockSize - uint32 (2 * c.L) then
      match c.chunkLoop (s.i + c.L) fuel { s with savedHash1 := 0 } with
      | (true, s) => mainLoop fuel (c.lastBytes s)
      | (false, s) => s
    else s

/-- The hashes when they have been made, with something in their values. -/
def start (garbage1 garbage2 : BigHash) (state : σ) : Variables σ where
  i := 0
  lastMatchEnd := 0
  matchStart := (c.outside.decode 0 state).1.1
  matchLen := (c.outside.decode 0 state).1.2
  hash1 := .new garbage1 (int32 (c.L - c.offset)) seedPrime
  hash2 := .new garbage2 (int32 c.L) seedPrime
  savedHash1 := 0
  state := (c.outside.decode 0 state).2
  uses := []

/-- `compress`. -/
def compress (fuel : ℕ) (garbage1 garbage2 : BigHash) (state : σ) : Variables σ :=
  let s := c.start garbage1 garbage2 state
  if uint32 (2 * c.L) ≤ c.blockSize then c.mainLoop fuel (c.firstBytes s) else s

/-! ## The hashes -/

/-- The first hash is that of a window of so many bytes. -/
def window1 : ℕ := c.L - c.offset

/-- The windows are not smaller than what they are moved on by, and their sizes and that of the block are numbers of
type `int`. -/
structure Fits : Prop where
  /-- The accelerator. -/
  cycles_le : c.cycles ≤ c.L
  /-- The window. -/
  L_lt : c.L < 2 ^ 31
  /-- The block. -/
  blockSize_lt : c.blockSize < 2 ^ 31

/-- The hash is that of the `n` bytes from `p` on. -/
def Hashed (n : ℕ) (p : ℤ) (hash : BigHash) : Prop := hash = polyHash seedPrime (c.buf.from 64 p) n

/-- The hash stands for its place. -/
def Right : Use → Prop
  | .mark p hash => c.Hashed c.window1 p hash
  | .check p hash => c.Hashed c.window1 p hash
  | .find i hash => c.Hashed c.L i hash
  | .add i hash => c.Hashed c.L i hash

/-- The hashes have their powers, and all hashes that have left stand for their places. -/
structure Good (s : Variables σ) : Prop where
  /-- The first hash. -/
  powers1 : s.hash1.Powers seedPrime c.window1
  /-- The second hash. -/
  powers2 : s.hash2.Powers seedPrime c.L
  /-- What has left. -/
  right : ∀ u ∈ s.uses, c.Right u

variable {c} {s : Variables σ}

/-- There is a cycle. -/
lemma cycles_pos (c : Compressor σ) : 1 ≤ c.cycles := by
  unfold cycles
  split_ifs with hacc
  · omega
  · exact le_refl 1

/-- The sizes of the windows. -/
lemma Fits.sizes (h : c.Fits) : c.offset + 1 = c.cycles ∧ c.window1 + c.offset = c.L := by
  have hpos := c.cycles_pos
  have hle := h.cycles_le
  unfold window1 offset
  omega

/-- Only what is not a hash changes. -/
lemma Good.of_eq {s' : Variables σ} (hs : c.Good s) (h1 : s'.hash1 = s.hash1) (h2 : s'.hash2 = s.hash2)
    (hu : s'.uses = s.uses) : c.Good s' := by
  refine ⟨?_, ?_, ?_⟩
  · rw [h1]
    exact hs.powers1
  · rw [h2]
    exact hs.powers2
  · rw [hu]
    exact hs.right

/-- One more hash leaves. -/
lemma Good.use {s' : Variables σ} (hs : c.Good s) {u : Use} (hu : c.Right u) (h1 : s'.hash1 = s.hash1)
    (h2 : s'.hash2 = s.hash2) (huses : s'.uses = s.uses ++ [u]) : c.Good s' := by
  refine ⟨?_, ?_, ?_⟩
  · rw [h1]
    exact hs.powers1
  · rw [h2]
    exact hs.powers2
  · rw [huses]
    intro v hv
    rcases List.mem_append.mp hv with hv | hv
    · exact hs.right v hv
    · rwa [List.mem_singleton.mp hv]

/-- `check_match` with the hash of its place. -/
lemma checkMatch_spec (hs : c.Good s) {i : ℕ} {hash : BigHash} (hhash : c.Hashed c.L i hash) :
    c.Good (c.checkMatch i hash s).2 ∧ (c.checkMatch i hash s).2.i = s.i ∧
      (c.checkMatch i hash s).2.hash1 = s.hash1 ∧ (c.checkMatch i hash s).2.hash2 = s.hash2 ∧
      (c.checkMatch i hash s).2.savedHash1 = s.savedHash1 := by
  have huse : c.Right (.find i hash) := hhash
  unfold checkMatch
  dsimp only
  cases (c.outside.find s.lastMatchEnd i hash s.state).1 with
  | none => exact ⟨hs.use huse rfl rfl rfl, rfl, rfl, rfl, rfl⟩
  | some matchEnd => exact ⟨hs.use huse rfl rfl rfl, rfl, rfl, rfl, rfl⟩

/-- The first hash is marked. -/
lemma mark_spec (hs : c.Good s) {p : ℤ} (hhash : c.Hashed c.window1 p s.hash1.value) :
    c.Good (c.mark p s) ∧ (c.mark p s).i = s.i ∧ (c.mark p s).hash1 = s.hash1 ∧ (c.mark p s).hash2 = s.hash2 := by
  have huse : c.Right (.mark p s.hash1.value) := hhash
  unfold mark
  split_ifs with hacc
  · exact ⟨hs.use huse rfl rfl rfl, rfl, rfl, rfl⟩
  · exact ⟨hs, rfl, rfl, rfl⟩

/-- A hash is entered. -/
lemma addHash_spec (hs : c.Good s) {i : ℕ} {hash : BigHash} (hhash : c.Hashed c.L i hash) :
    c.Good (c.addHash i hash s) := hs.use (u := .add i hash) hhash rfl rfl rfl

/-- A byte enters the window, and nothing leaves it. -/
lemma update_zero {h : PolynomialRollingHash 64} (hprime : h.prime = seedPrime) {p q : ℤ} {m : ℕ}
    (hq : q = p + m) (hvalue : c.Hashed m p h.value) : c.Hashed (m + 1) p (h.update 0 (c.buf q)).value := by
  have hzero : ((0 : UInt8).toNat : BigHash) = 0 := rfl
  rw [Hashed, PolynomialRollingHash.update, hvalue, hprime, hzero, mul_zero, sub_zero, hq]
  rfl

/-- The window of the first hash moves on. -/
lemma update_window1 (hs : c.Good s) {p q : ℤ} (hq : q = p + c.window1) (hvalue : c.Hashed c.window1 p s.hash1.value) :
    c.Hashed c.window1 (p + 1) (s.hash1.update (c.buf p) (c.buf q)).value := by
  rw [hq]
  exact PolynomialRollingHash.update_spec hs.powers1 hvalue

/-! ### The first bytes -/

/-- The loop over the first bytes: the bytes that enter the first hash enter the second one. -/
lemma firstLoop_hash2 (turns j : ℕ) {p : ℤ} {m : ℕ} (hplace : (c.L - c.offset + j : ℤ) = p + m)
    (hprime : s.hash2.prime = seedPrime) (h2 : c.Hashed m p s.hash2.value) :
    c.Hashed (m + turns) p (c.firstLoop turns j s).hash2.value := by
  have hmark : ∀ j, (c.mark j s).hash2 = s.hash2 := by
    intro j
    unfold mark
    split_ifs <;> rfl
  induction turns generalizing j m s with
  | zero =>
    rw [firstLoop, hmark]
    exact h2
  | succ turns ih =>
    have hnext := update_zero hprime hplace h2
    rw [← hmark j] at hnext hprime
    have hplace' : (c.L - c.offset + (j + 1 : ℕ) : ℤ) = p + (m + 1 : ℕ) := by omega
    rw [firstLoop, ← Nat.add_assoc, Nat.add_right_comm]
    refine ih (j + 1) hplace' ?_ hnext ?_
    · exact hprime
    · intro j'
      unfold mark
      split_ifs <;> rfl

/-- The loop over the first bytes: the first hash is moved on. -/
lemma firstLoop_spec (hc : c.Fits) (turns j : ℕ) (hs : c.Good s) (h1 : c.Hashed c.window1 j s.hash1.value) :
    c.Good (c.firstLoop turns j s) ∧ (c.firstLoop turns j s).i = s.i ∧
      c.Hashed c.window1 (j + turns : ℕ) (c.firstLoop turns j s).hash1.value := by
  obtain ⟨-, hsizes⟩ := hc.sizes
  induction turns generalizing j s with
  | zero =>
    obtain ⟨hgood, hi, hhash1, -⟩ := mark_spec hs h1
    rw [firstLoop, hi, hhash1]
    exact ⟨hgood, rfl, h1⟩
  | succ turns ih =>
    obtain ⟨hgood, hi, hhash1, -⟩ := mark_spec hs h1
    rw [← hhash1] at h1
    have hplace : (c.L - c.offset + j : ℤ) = j + c.window1 := by omega
    have hnext := ih (j + 1) (s := { c.mark j s with
        hash1 := (c.mark j s).hash1.update (c.buf j) (c.buf (c.L - c.offset + j))
        hash2 := (c.mark j s).hash2.update 0 (c.buf (c.L - c.offset + j)) })
      ⟨hgood.powers1.of_value _, hgood.powers2.of_value _, hgood.right⟩ (update_window1 hgood hplace h1)
    have harith : j + (turns + 1) = j + 1 + turns := by omega
    rw [firstLoop, harith, ← hi]
    exact hnext

/-- The first bytes: the first hash is ready for the loop. -/
lemma firstBytes_spec (hc : c.Fits) (hs : c.Good s) (hi : s.i = 0) :
    c.Good (c.firstBytes s) ∧ (c.firstBytes s).i = 0 ∧
      c.Hashed c.window1 ((c.firstBytes s).i + c.offset : ℕ) (c.firstBytes s).hash1.value := by
  obtain ⟨-, hsizes⟩ := hc.sizes
  have hmoved : c.Hashed c.window1 0 (s.hash1.moveto c.buf 0).value :=
    PolynomialRollingHash.moveto_spec hs.powers1 c.buf 0
  obtain ⟨hgood, hfirst, h1⟩ := firstLoop_spec hc c.offset 0
    (s := { s with hash1 := s.hash1.moveto c.buf 0, hash2 := { s.hash2 with value := (s.hash1.moveto c.buf 0).value } })
    ⟨hs.powers1.of_value _, hs.powers2.of_value _, hs.right⟩ hmoved
  have h2 := firstLoop_hash2 c.offset 0
    (s := { s with hash1 := s.hash1.moveto c.buf 0, hash2 := { s.hash2 with value := (s.hash1.moveto c.buf 0).value } })
    (p := 0) (by omega) hs.powers2.prime hmoved
  rw [Nat.zero_add] at h1
  rw [hsizes] at h2
  have hzero := hfirst.trans hi
  obtain ⟨hgood', hcheck, hhash1, hhash2, -⟩ := checkMatch_spec hgood h2
  rw [← hhash2] at h2
  refine ⟨addHash_spec hgood' h2, hcheck.trans hzero, ?_⟩
  change c.Hashed c.window1 ((c.checkMatch 0 _ _).2.i + c.offset : ℕ) (c.checkMatch 0 _ _).2.hash1.value
  rw [hcheck, hhash1, hzero, Nat.zero_add]
  exact h1

/-! ### The first hash in a chunk -/

/-- The input matches do not change the hashes. -/
lemma nextInput_spec (hs : c.Good s) :
    c.Good (c.nextInput s) ∧ (c.nextInput s).i = s.i ∧ (c.nextInput s).hash1 = s.hash1 := by
  unfold nextInput
  exact ⟨hs.of_eq rfl rfl rfl, rfl, rfl⟩

/-- The first hash is moved on step by step. -/
lemma updateLoop_spec (turns : ℕ) (hs : c.Good s)
    (h1 : c.Hashed c.window1 (s.i + c.offset : ℕ) s.hash1.value) :
    c.Good (c.updateLoop turns s) ∧ (c.updateLoop turns s).i = s.i + turns * c.x ∧
      c.Hashed c.window1 ((c.updateLoop turns s).i + c.offset : ℕ) (c.updateLoop turns s).hash1.value := by
  induction turns generalizing s with
  | zero =>
    rw [updateLoop, Nat.zero_mul, Nat.add_zero]
    exact ⟨hs, rfl, h1⟩
  | succ turns ih =>
    have hmoved := PolynomialRollingHash.updateN_spec hs.powers1 h1 c.x
    have hplace : ((s.i + c.offset : ℕ) : ℤ) + c.x = (s.i + c.x + c.offset : ℕ) := by push_cast; ring
    rw [hplace, Nat.cast_add] at hmoved
    obtain ⟨hgood, hi, hnext⟩ := ih
      (s := { s with i := s.i + c.x, hash1 := s.hash1.updateN c.buf c.x (s.i + c.offset) })
      ⟨hs.powers1.of_value _, hs.powers2, hs.right⟩ hmoved
    rw [updateLoop]
    refine ⟨hgood, hi.trans ?_, hnext⟩
    rw [Nat.succ_mul]
    dsimp only
    omega

/-- The end of the last match is not reached beyond the chunk. -/
lemma skipMatch_spec {nextChunk : ℕ} (hs : c.Good s)
    (h1 : c.Hashed c.window1 (s.i + c.offset : ℕ) s.hash1.value) (hi : s.i < nextChunk)
    (hcycles : c.cycles ≤ nextChunk) (hsize : nextChunk < 2 ^ 64) :
    c.Good (c.skipMatch nextChunk s) ∧ (c.skipMatch nextChunk s).i < nextChunk ∧
      c.Hashed c.window1 ((c.skipMatch nextChunk s).i + c.offset : ℕ) (c.skipMatch nextChunk s).hash1.value := by
  have hpos := c.cycles_pos
  have hwrap : (2 ^ 64 + nextChunk - c.cycles) % 2 ^ 64 = nextChunk - c.cycles := by omega
  unfold skipMatch
  rw [hwrap]
  generalize hnext : min (nextChunk - c.cycles) (if s.lastMatchEnd > 0 then s.lastMatchEnd - 1 else 0) = nextI
  have hle : nextI ≤ nextChunk - c.cycles := hnext ▸ min_le_left _ _
  dsimp only
  split_ifs with hfar
  · have hand : nextI &&& (2 ^ 64 - c.x) ≤ nextI := Nat.and_le_left
    refine ⟨⟨hs.powers1.of_value _, hs.powers2, hs.right⟩, by change nextI &&& _ < nextChunk; omega, ?_⟩
    have hmoved := PolynomialRollingHash.moveto_spec hs.powers1 c.buf ((nextI &&& (2 ^ 64 - c.x) : ℕ) + c.offset)
    rw [Nat.cast_add]
    exact hmoved
  · obtain ⟨hgood, hplace, hmoved⟩ := updateLoop_spec ((nextI - s.i) / c.x) hs h1
    refine ⟨hgood, ?_, hmoved⟩
    have hturns : (nextI - s.i) / c.x * c.x ≤ nextI - s.i := Nat.div_mul_le_self _ _
    omega

/-- The values of the first hash at every cycle from `i` on. -/
def Steps (c : Compressor σ) : ℕ → List BigHash → Prop
  | _, [] => True
  | i, hsh1 :: hashes1 => c.Hashed c.window1 (i + 1 + c.offset : ℕ) hsh1 ∧ Steps c (i + c.cycles) hashes1

/-- One more value. -/
lemma Steps.concat {i : ℕ} {hashes1 : List BigHash} (h : c.Steps i hashes1) {hsh1 : BigHash}
    (hhash : c.Hashed c.window1 (i + hashes1.length * c.cycles + 1 + c.offset : ℕ) hsh1) :
    c.Steps i (hashes1 ++ [hsh1]) := by
  induction hashes1 generalizing i with
  | nil =>
    rw [List.length_nil, Nat.zero_mul, Nat.add_zero] at hhash
    exact ⟨hhash, trivial⟩
  | cons first hashes1 ih =>
    have harith : i + (hashes1.length + 1) * c.cycles = i + c.cycles + hashes1.length * c.cycles := by ring
    rw [List.length_cons, harith] at hhash
    exact ⟨h.1, ih h.2 hhash⟩

/-- The last value. -/
lemma Steps.getLastD {i : ℕ} {hashes1 : List BigHash} (h : c.Steps i hashes1) (hne : hashes1 ≠ []) :
    c.Hashed c.window1 (i + hashes1.length * c.cycles : ℕ) (hashes1.getLastD 0) := by
  have hpos := c.cycles_pos
  have hcycles : c.offset + 1 = c.cycles := by
    unfold offset
    omega
  induction hashes1 generalizing i with
  | nil => exact absurd rfl hne
  | cons first hashes1 ih =>
    cases hashes1 with
    | nil =>
      have harith : i + (0 + 1) * c.cycles = i + 1 + c.offset := by omega
      rw [List.length_cons, List.length_nil, harith]
      exact h.1
    | cons second hashes1 =>
      have hlast := ih h.2 (List.cons_ne_nil second hashes1)
      have harith : i + c.cycles + (second :: hashes1).length * c.cycles =
          i + (first :: second :: hashes1).length * c.cycles := by
        have hlen : (first :: second :: hashes1).length = (second :: hashes1).length + 1 := rfl
        rw [hlen]
        ring
      rw [harith] at hlast
      exact hlast

/-- The first hash is moved over some cycles. -/
lemma hashLoop_spec (hc : c.Fits) (turns i i0 : ℕ) {hash1 : PolynomialRollingHash 64}
    (hp : hash1.Powers seedPrime c.window1) {hashes1 : List BigHash} (hsteps : c.Steps i hashes1)
    (hi0 : i0 = i + hashes1.length * c.cycles) (hvalue : c.Hashed c.window1 (i0 + c.offset : ℕ) hash1.value) :
    let moved := c.hashLoop turns i0 hash1 hashes1
    moved.1.Powers seedPrime c.window1 ∧ moved.2.length = hashes1.length + turns ∧ c.Steps i moved.2 ∧
      c.Hashed c.window1 (i0 + turns * c.cycles + c.offset : ℕ) moved.1.value := by
  obtain ⟨hcycles, hsizes⟩ := hc.sizes
  induction turns generalizing hash1 hashes1 i0 with
  | zero =>
    rw [Nat.zero_mul, Nat.add_zero]
    exact ⟨hp, rfl, hsteps, hvalue⟩
  | succ turns ih =>
    have hplace : ((i0 + c.L : ℕ) : ℤ) = (i0 + c.offset : ℕ) + c.window1 := by omega
    have hone := PolynomialRollingHash.update_spec hp hvalue
    rw [← hplace] at hone
    have hafter : ((i0 + c.offset : ℕ) : ℤ) + 1 = (i0 + 1 + c.offset : ℕ) := by push_cast; ring
    rw [hafter] at hone
    have hmoved := PolynomialRollingHash.updateN_spec (hp.of_value _) hone (c.cycles - 1)
    have hbehind : ((i0 + 1 + c.offset : ℕ) : ℤ) + (c.cycles - 1 : ℕ) = (i0 + c.cycles + c.offset : ℕ) := by omega
    rw [hbehind] at hmoved
    have hconcat : c.Steps i (hashes1 ++
        [(hash1.update (c.buf (i0 + c.offset : ℕ)) (c.buf (i0 + c.L : ℕ))).value]) :=
      hsteps.concat (hi0 ▸ hone)
    have hi0' : i0 + c.cycles = i + (hashes1 ++
        [(hash1.update (c.buf (i0 + c.offset : ℕ)) (c.buf (i0 + c.L : ℕ))).value]).length * c.cycles := by
      rw [List.length_append, List.length_singleton, Nat.add_mul, hi0]
      omega
    obtain ⟨hp', hlength, hsteps', hvalue'⟩ := ih (i0 + c.cycles) ((hp.of_value _).of_value _) hconcat hi0' hmoved
    refine ⟨hp', ?_, hsteps', ?_⟩
    · rw [List.length_append, List.length_singleton] at hlength
      exact hlength.trans (by omega)
    · have harith : i0 + (turns + 1) * c.cycles + c.offset = i0 + c.cycles + turns * c.cycles + c.offset := by ring
      rw [harith]
      exact hvalue'

/-! ### The hash of the whole window -/

/-- The powers that the missing bytes need. -/
lemma primePowers_eq (hc : c.Fits) {j : ℕ} (hj : j < c.cycles) :
    c.primePowers j = seedPrime ^ (c.L - 1 - j) := by
  have hdown : ∀ k, c.powersDown k = seedPrime ^ (c.L - c.cycles + k) := by
    intro k
    induction k with
    | zero =>
      have hexp : uint32 (c.L - c.cycles) = c.L - c.cycles := by
        have hle := hc.cycles_le
        have hlt := hc.L_lt
        unfold uint32
        omega
      rw [powersDown, power, powerLoop_eq, one_mul, hexp, Nat.add_zero]
    | succ k ih => rw [powersDown, ih, ← pow_succ, Nat.add_assoc]
  have hle := hc.cycles_le
  rw [primePowers, hdown]
  congr 1
  omega

/-- The missing bytes are added. -/
lemma joined_spec (hc : c.Fits) {i : ℕ} {hsh1 : BigHash} (h : c.Hashed c.window1 (i + c.offset : ℕ) hsh1) :
    c.Hashed c.L i (c.joined hsh1 i) := by
  obtain ⟨hcycles, hsizes⟩ := hc.sizes
  have hsum : ∀ n, (List.range n).foldl (fun value (j : ℕ) => value + c.buf.at 64 (i + j) * c.primePowers j) hsh1 =
      hsh1 + ∑ j ∈ Finset.range n, c.buf.from 64 i j * c.primePowers j := by
    intro n
    induction n with
    | zero => exact (add_zero hsh1).symm
    | succ n ih =>
      rw [List.range_succ, List.foldl_append, ih, Finset.sum_range_succ, ← add_assoc]
      rfl
  have hsplit := polyHash_add seedPrime (c.buf.from 64 i) c.offset c.window1
  rw [Nat.add_comm c.offset, hsizes, ← from_add, ← Nat.cast_add, ← h, polyHash_eq_sum seedPrime _ c.offset,
    Finset.sum_mul] at hsplit
  have hoffset : c.cycles - 1 = c.offset := rfl
  rw [Hashed, joined, hsum, hsplit, add_comm, hoffset]
  congr 1
  refine Finset.sum_congr rfl fun j hj => ?_
  have hlt : j < c.offset := Finset.mem_range.mp hj
  rw [primePowers_eq hc (by omega), mul_assoc, ← pow_add]
  congr 2
  omega

/-- Places with the hashes of their windows. -/
def Stored (c : Compressor σ) (hashes2 : List (BigHash × ℕ)) : Prop := ∀ e ∈ hashes2, c.Hashed c.L e.2 e.1

/-- A place is stored. -/
lemma store_spec {hashes2 : List (BigHash × ℕ)} (hstored : c.Stored hashes2) {i : ℕ} {hash : BigHash}
    (h : c.Hashed c.L i hash) : c.Stored (store s i hash hashes2) := by
  unfold store
  split_ifs with hin
  · intro e he
    rcases List.mem_append.mp he with he | he
    · exact hstored e he
    · rwa [List.mem_singleton.mp he]
  · exact hstored

/-- A hash of the whole window is moved on. -/
lemma storeLoop_spec (turns i : ℕ) {hash : PolynomialRollingHash 64} (hp : hash.Powers seedPrime c.L)
    (hvalue : c.Hashed c.L i hash.value) {hashes2 : List (BigHash × ℕ)} (hstored : c.Stored hashes2) :
    (c.storeLoop s turns i hash hashes2).1.Powers seedPrime c.L ∧
      c.Hashed c.L (i + turns : ℕ) (c.storeLoop s turns i hash hashes2).1.value ∧
      c.Stored (c.storeLoop s turns i hash hashes2).2 := by
  induction turns generalizing i hash hashes2 with
  | zero => exact ⟨hp, hvalue, hstored⟩
  | succ turns ih =>
    have hone : c.Hashed c.L (i + 1 : ℕ) (hash.update (c.buf i) (c.buf (i + c.L))).value :=
      PolynomialRollingHash.update_spec hp hvalue
    obtain ⟨hp', hvalue', hstored'⟩ := ih (i + 1) (hp.of_value _) hone (store_spec hstored hone)
    have harith : i + (turns + 1) = i + 1 + turns := by omega
    rw [storeLoop, harith]
    exact ⟨hp', hvalue', hstored'⟩

/-- The loop over the values of the first hash. -/
lemma checkLoop_spec (hc : c.Fits) {hashes1 : List BigHash} (hs : c.Good s) (hsteps : c.Steps s.i hashes1)
    {hashes2 : List (BigHash × ℕ)} (hstored : c.Stored hashes2) :
    c.Good (c.checkLoop hashes1 s hashes2).1 ∧ c.Stored (c.checkLoop hashes1 s hashes2).2 ∧
      (c.checkLoop hashes1 s hashes2).1.i = s.i + hashes1.length * c.cycles ∧
      (c.checkLoop hashes1 s hashes2).1.hash1 = s.hash1 ∧
      (c.checkLoop hashes1 s hashes2).1.savedHash1 = s.savedHash1 := by
  obtain ⟨hcycles, hsizes⟩ := hc.sizes
  induction hashes1 generalizing s hashes2 with
  | nil =>
    rw [checkLoop, List.length_nil, Nat.zero_mul]
    exact ⟨hs, hstored, rfl, rfl, rfl⟩
  | cons hsh1 hashes1 ih =>
    have hused : c.Good { s with uses := s.uses ++ [.check (s.i + 1 + c.offset : ℕ) hsh1] } :=
      hs.use (u := .check (s.i + 1 + c.offset : ℕ) hsh1) hsteps.1 rfl rfl rfl
    have harith : s.i + (hsh1 :: hashes1).length * c.cycles = s.i + c.cycles + hashes1.length * c.cycles := by
      rw [List.length_cons]
      ring
    rw [checkLoop, harith]
    dsimp only
    split_ifs with hpossible
    · have hbefore : s.i + 1 + c.offset = s.i + 1 + (c.cycles - 1) := rfl
      have hjoined : c.Hashed c.L (s.i + 1 : ℕ) (c.joined hsh1 (s.i + 1)) := joined_spec hc hsteps.1
      have hstart := store_spec (s := { s with uses := s.uses ++ [.check (s.i + 1 + c.offset : ℕ) hsh1] })
        hstored hjoined
      obtain ⟨hp, -, hstored'⟩ := storeLoop_spec
        (s := { s with uses := s.uses ++ [.check (s.i + 1 + c.offset : ℕ) hsh1] }) (c.cycles - 1) (s.i + 1)
        (hs.powers2.of_value _) hjoined hstart
      have hi : s.i + 1 + (c.cycles - 1) = s.i + c.cycles := by omega
      rw [hi]
      exact ih (s := { s with
          uses := s.uses ++ [.check (s.i + 1 + c.offset : ℕ) hsh1]
          i := s.i + c.cycles
          hash2 := (c.storeLoop _ (c.cycles - 1) (s.i + 1) _ _).1 })
        ⟨hs.powers1, hp, hused.right⟩ hsteps.2 hstored'
    · exact ih (s := { s with uses := s.uses ++ [.check (s.i + 1 + c.offset : ℕ) hsh1], i := s.i + c.cycles })
        (hused.of_eq rfl rfl rfl) hsteps.2 hstored

/-- The loop without the accelerator. -/
lemma plainLoop_spec (hwindow : c.window1 = c.L) (turns : ℕ) (hs : c.Good s)
    (h1 : c.Hashed c.L s.i s.hash1.value) {hashes2 : List (BigHash × ℕ)} (hstored : c.Stored hashes2) :
    c.Good (c.plainLoop turns s hashes2).1 ∧ c.Stored (c.plainLoop turns s hashes2).2 ∧
      c.Hashed c.L (c.plainLoop turns s hashes2).1.i (c.plainLoop turns s hashes2).1.hash1.value := by
  induction turns generalizing s hashes2 with
  | zero => exact ⟨hs, hstored, h1⟩
  | succ turns ih =>
    obtain ⟨hp, hvalue, hstored'⟩ := storeLoop_spec (s := s) c.x s.i (hwindow ▸ hs.powers1) h1 hstored
    rw [plainLoop]
    exact ih (s := { s with i := s.i + c.x, hash1 := (c.storeLoop s c.x s.i s.hash1 hashes2).1 })
      ⟨hwindow.symm ▸ hp, hs.powers2, hs.right⟩ hvalue hstored'

/-- The loop over the places where there can be a match. -/
lemma findLoop_spec {hashes2 : List (BigHash × ℕ)} (hs : c.Good s) (hstored : c.Stored hashes2) :
    c.Good (c.findLoop hashes2 s) ∧ (c.findLoop hashes2 s).i = s.i ∧ (c.findLoop hashes2 s).hash1 = s.hash1 ∧
      (c.findLoop hashes2 s).savedHash1 = s.savedHash1 := by
  induction hashes2 generalizing s with
  | nil => exact ⟨hs, rfl, rfl, rfl⟩
  | cons e hashes2 ih =>
    obtain ⟨hgood, hi, hhash1, -, hsaved⟩ := checkMatch_spec hs (hstored e List.mem_cons_self)
    have hrest : c.Stored hashes2 := fun e he => hstored e (List.mem_cons_of_mem _ he)
    rw [findLoop]
    generalize c.checkMatch e.2 e.1 s = found at hgood hi hhash1 hsaved
    obtain ⟨_ | _, s'⟩ := found
    · obtain ⟨hgood', hi', hhash1', hsaved'⟩ := ih hgood hrest
      exact ⟨hgood', hi'.trans hi, hhash1'.trans hhash1, hsaved'.trans hsaved⟩
    · exact ⟨hgood, hi, hhash1, hsaved⟩

/-! ### The block -/

/-- The first hash is that behind the cycle at `i`, and with the accelerator the one before it is saved. -/
structure Ready (c : Compressor σ) (nextChunk : ℕ) (s : Variables σ) : Prop extends c.Good s where
  /-- The first hash. -/
  first : c.Hashed c.window1 (s.i + c.offset : ℕ) s.hash1.value
  /-- The saved hash, unless the chunk has not begun. -/
  saved : c.accelerator ≠ 0 → s.i < nextChunk ∨ c.Hashed c.window1 s.i s.savedHash1

/-- One turn of the loop over a chunk. -/
lemma lookaheadStep_spec (hc : c.Fits) {nextChunk : ℕ} (hs : c.Good s)
    (h1 : c.Hashed c.window1 (s.i + c.offset : ℕ) s.hash1.value) (hi : s.i < nextChunk)
    (hcycles : c.cycles ≤ nextChunk) (hsize : nextChunk < 2 ^ 64) :
    c.Ready nextChunk (c.lookaheadStep nextChunk s) := by
  have hpos := c.cycles_pos
  have hempty : c.Stored [] := fun e he => absurd he List.not_mem_nil
  obtain ⟨hinput, hinputI, hinput1⟩ : c.Good (if s.i ≥ s.matchStart then c.nextInput s else s) ∧
      (if s.i ≥ s.matchStart then c.nextInput s else s).i = s.i ∧
      (if s.i ≥ s.matchStart then c.nextInput s else s).hash1 = s.hash1 := by
    split_ifs
    · exact nextInput_spec hs
    · exact ⟨hs, rfl, rfl⟩
  unfold lookaheadStep
  generalize (if s.i ≥ s.matchStart then c.nextInput s else s) = t at hinput hinputI hinput1
  rw [← hinputI, ← hinput1] at h1
  rw [← hinputI] at hi
  obtain ⟨hskip, hskipI, hskip1⟩ := skipMatch_spec hinput h1 hi hcycles hsize
  dsimp only
  generalize c.skipMatch nextChunk t = u at hskip hskipI hskip1
  by_cases hacc : c.accelerator ≠ 0
  case pos =>
    rw [if_pos hacc]
    have hlook : c.lookahead = 256 := if_pos hacc
    generalize hturns : (min nextChunk (u.i + c.lookahead) - u.i + c.cycles - 1) / c.cycles = turns
    have hturn : 1 ≤ turns := by
      rw [← hturns, Nat.one_le_div_iff hpos]
      omega
    have hnone : c.Steps u.i [] := trivial
    obtain ⟨hp, hlength, hsteps, hvalue⟩ := hashLoop_spec hc turns u.i u.i hskip.powers1 hnone
      (by rw [List.length_nil, Nat.zero_mul, Nat.add_zero]) hskip1
    generalize c.hashLoop turns u.i u.hash1 [] = moved at hp hlength hsteps hvalue
    rw [List.length_nil, Nat.zero_add] at hlength
    have hne : moved.2 ≠ [] := by
      intro hnil
      rw [hnil, List.length_nil] at hlength
      omega
    have hlast := hsteps.getLastD hne
    obtain ⟨hgood, hstored, hplace, hhash1, hsaved⟩ := checkLoop_spec hc
      (s := { u with hash1 := moved.1, savedHash1 := moved.2.getLastD 0 }) ⟨hp, hskip.powers2, hskip.right⟩ hsteps
      hempty
    obtain ⟨hgood', hplace', hhash1', hsaved'⟩ := findLoop_spec hgood hstored
    refine ⟨hgood', ?_, fun _ => .inr ?_⟩
    · rw [hplace', hplace, hhash1', hhash1, hlength]
      exact hvalue
    · rw [hplace', hplace, hsaved', hsaved]
      exact hlast
  case neg =>
    rw [if_neg hacc]
    have hcycles' : c.cycles = 1 := if_neg hacc
    have hwindow : c.window1 = c.L := by
      unfold window1 offset
      omega
    have hoffset : c.offset = 0 := by
      unfold offset
      omega
    rw [hwindow, hoffset, Nat.add_zero] at hskip1
    obtain ⟨hgood, hstored, hvalue⟩ := plainLoop_spec hwindow
      ((min nextChunk (u.i + c.lookahead) - u.i + c.x - 1) / c.x) hskip hskip1 hempty
    obtain ⟨hgood', hplace', hhash1', -⟩ := findLoop_spec hgood hstored
    refine ⟨hgood', ?_, fun h => absurd h hacc⟩
    rw [hplace', hhash1', hwindow, hoffset, Nat.add_zero]
    exact hvalue

/-- The loop over a chunk. -/
lemma chunkLoop_spec (hc : c.Fits) {nextChunk : ℕ} (hcycles : c.cycles ≤ nextChunk) (hsize : nextChunk < 2 ^ 64)
    (fuel : ℕ) (hs : c.Ready nextChunk s) :
    c.Ready nextChunk (c.chunkLoop nextChunk fuel s).2 ∧
      ((c.chunkLoop nextChunk fuel s).1 = true → nextChunk ≤ (c.chunkLoop nextChunk fuel s).2.i) := by
  induction fuel generalizing s with
  | zero => exact ⟨hs, fun h => Bool.noConfusion h⟩
  | succ fuel ih =>
    rw [chunkLoop]
    split_ifs with hi
    · exact ih (lookaheadStep_spec hc hs.toGood hs.first hi hcycles hsize)
    · exact ⟨hs, fun _ => not_lt.mp hi⟩

/-- The loop over the last bytes of a chunk. -/
lemma lastLoop_spec (hc : c.Fits) (turns j : ℕ) (hs : c.Good s)
    (h1 : c.Hashed c.window1 (s.i + j : ℕ) s.hash1.value) (h2 : c.Hashed (c.window1 + j) s.i s.hash2.value) :
    c.Good (c.lastLoop turns (j + 1) s) ∧ (c.lastLoop turns (j + 1) s).i = s.i ∧
      c.Hashed c.window1 (s.i + (j + turns) : ℕ) (c.lastLoop turns (j + 1) s).hash1.value ∧
      c.Hashed (c.window1 + (j + turns)) s.i (c.lastLoop turns (j + 1) s).hash2.value := by
  obtain ⟨hcycles, hsizes⟩ := hc.sizes
  induction turns generalizing j s with
  | zero => exact ⟨hs, rfl, h1, h2⟩
  | succ turns ih =>
    have hleave : (s.i - c.cycles + (j + 1 : ℕ) + c.offset : ℤ) = (s.i + j : ℕ) := by omega
    have henter : (s.i - c.cycles + (j + 1 : ℕ) + c.L : ℤ) = (s.i + j : ℕ) + c.window1 := by omega
    have henter' : (s.i - c.cycles + (j + 1 : ℕ) + c.L : ℤ) = s.i + (c.window1 + j : ℕ) := by omega
    have hone := update_window1 hs henter h1
    rw [← hleave] at hone
    have hafter : (s.i - c.cycles + (j + 1 : ℕ) + c.offset : ℤ) + 1 = (s.i + (j + 1) : ℕ) := by omega
    rw [hafter] at hone
    have hmoved : c.Good { s with
        hash1 := s.hash1.update (c.buf (s.i - c.cycles + (j + 1 : ℕ) + c.offset))
          (c.buf (s.i - c.cycles + (j + 1 : ℕ) + c.L)) } := ⟨hs.powers1.of_value _, hs.powers2, hs.right⟩
    obtain ⟨hgood, hi, hhash1, hhash2⟩ := mark_spec hmoved hone
    have htwo := update_zero hs.powers2.prime henter' h2
    rw [lastLoop]
    generalize hmark : c.mark _ _ = t at hgood hi hhash1 hhash2
    dsimp only at hi hhash1 hhash2
    have hplace' : (t.i : ℤ) = s.i := by rw [hi]
    rw [hplace', hhash2]
    obtain ⟨hgood', hi', hvalue1, hvalue2⟩ := ih (j + 1)
      (s := { t with hash2 := s.hash2.update 0 (c.buf (s.i - c.cycles + (j + 1 : ℕ) + c.L)) })
      ⟨hgood.powers1, hs.powers2.of_value _, hgood.right⟩
      (by change c.Hashed c.window1 (t.i + (j + 1) : ℕ) t.hash1.value; rw [hi, hhash1]; exact hone)
      (by change c.Hashed _ t.i _; rw [hi]; exact htwo)
    have harith : j + (turns + 1) = j + 1 + turns := by omega
    have hplace : t.i + (j + 1 + turns) = s.i + (j + 1 + turns) := by rw [hi]
    dsimp only at hvalue1 hvalue2
    rw [hplace] at hvalue1
    rw [hplace'] at hvalue2
    rw [harith]
    exact ⟨hgood', hi'.trans hi, hvalue1, hvalue2⟩

/-- The last bytes of a chunk: the chunk behind them is entered. -/
lemma lastBytes_spec (hc : c.Fits) {nextChunk : ℕ} (hs : c.Ready nextChunk s) (hi : nextChunk ≤ s.i) :
    c.Good (c.lastBytes s) ∧ c.Hashed c.window1 ((c.lastBytes s).i + c.offset : ℕ) (c.lastBytes s).hash1.value := by
  obtain ⟨hcycles, hsizes⟩ := hc.sizes
  unfold lastBytes
  by_cases hacc : c.accelerator ≠ 0
  case pos =>
    rw [if_pos hacc]
    have hsaved : c.Hashed c.window1 s.i s.savedHash1 := (hs.saved hacc).resolve_left (by omega)
    have hback : c.Good { s with
        hash1 := { s.hash1 with value := s.savedHash1 }
        hash2 := { s.hash2 with value := s.savedHash1 } } :=
      ⟨hs.powers1.of_value _, hs.powers2.of_value _, hs.right⟩
    obtain ⟨hgood, hmark, hhash1, hhash2⟩ := mark_spec hback hsaved
    dsimp only
    generalize c.mark s.i _ = t at hgood hmark hhash1 hhash2
    dsimp only at hmark hhash1 hhash2
    obtain ⟨hgood', hplace, hvalue1, hvalue2⟩ := lastLoop_spec hc (c.cycles - 1) 0 hgood
      (by rw [hmark, hhash1]; exact hsaved) (by rw [hmark, hhash2]; exact hsaved)
    rw [Nat.zero_add] at hvalue1 hvalue2 hgood' hplace
    have hall : c.window1 + (c.cycles - 1) = c.L := hsizes
    rw [hall, ← hplace] at hvalue2
    rw [← hplace] at hvalue1
    exact ⟨addHash_spec hgood' hvalue2, hvalue1⟩
  case neg =>
    rw [if_neg hacc]
    have hcycles' : c.cycles = 1 := if_neg hacc
    have hwindow : c.window1 = c.L := by omega
    have hoffset : c.offset = 0 := by omega
    have hfirst := hs.first
    refine ⟨addHash_spec hs.toGood ?_, hfirst⟩
    rwa [hwindow, hoffset, Nat.add_zero] at hfirst

/-- The main loop. -/
lemma mainLoop_spec (hc : c.Fits) (fuel : ℕ) (hs : c.Good s)
    (h1 : c.Hashed c.window1 (s.i + c.offset : ℕ) s.hash1.value) : c.Good (c.mainLoop fuel s) := by
  induction fuel generalizing s with
  | zero => exact hs
  | succ fuel ih =>
    rw [mainLoop]
    split_ifs with hi
    · have hle := hc.cycles_le
      have hpos := c.cycles_pos
      have hL := hc.L_lt
      have hsize := hc.blockSize_lt
      have hready : c.Ready (s.i + c.L) { s with savedHash1 := 0 } :=
        { hs.of_eq rfl rfl rfl with
          first := h1
          saved := fun _ => .inl (by dsimp only; omega) }
      obtain ⟨hchunk, hend⟩ := chunkLoop_spec hc (by omega) (by omega) fuel hready
      generalize c.chunkLoop (s.i + c.L) fuel { s with savedHash1 := 0 } = behind at hchunk hend
      obtain ⟨_ | _, t⟩ := behind
      · exact hchunk.toGood
      · obtain ⟨hgood, hfirst⟩ := lastBytes_spec hc hchunk (hend rfl)
        exact ih hgood hfirst
    · exact hs

/-- **All hashes that leave the compressor are those of the windows at their places.** -/
theorem compress_right (hc : c.Fits) (fuel : ℕ) (garbage1 garbage2 : BigHash) (state : σ) :
    ∀ u ∈ (c.compress fuel garbage1 garbage2 state).uses, c.Right u := by
  obtain ⟨hcycles, hsizes⟩ := hc.sizes
  have hL := hc.L_lt
  have hlen1 : int32 (c.L - c.offset) = c.window1 := by
    rw [int32_of_mem (by omega) (by omega)]
    omega
  have hlen2 : int32 c.L = c.L := int32_of_mem (by omega) (by omega)
  have hstart : c.Good (c.start garbage1 garbage2 state) := by
    refine ⟨?_, ?_, fun u hu => absurd hu List.not_mem_nil⟩
    · change (PolynomialRollingHash.new garbage1 (int32 (c.L - c.offset)) seedPrime).Powers seedPrime c.window1
      rw [hlen1]
      exact PolynomialRollingHash.powers_new garbage1 (by omega) seedPrime
    · change (PolynomialRollingHash.new garbage2 (int32 c.L) seedPrime).Powers seedPrime c.L
      rw [hlen2]
      exact PolynomialRollingHash.powers_new garbage2 (by omega) seedPrime
  rw [compress]
  split_ifs
  · obtain ⟨hgood, -, hfirst⟩ := firstBytes_spec hc hstart rfl
    exact (mainLoop_spec hc fuel hgood hfirst).right
  · exact hstart.right

/-- What the table is asked for or filled with is the hash of the window. -/
lemma hashed_of_entry {u : Use} (hu : c.Right u) {i : ℕ} {hash : BigHash} (hentry : u.entry = some (i, hash)) :
    c.Hashed c.L i hash := by
  cases u with
  | mark p hash => cases hentry
  | check p hash => cases hentry
  | find i hash =>
    cases hentry
    exact hu
  | add i hash =>
    cases hentry
    exact hu

end Compressor

/-- The hash, as the sum of the bytes by their weights. -/
lemma PolynomialRollingHash.toNat_of_rightAt {w n : ℕ} {h : PolynomialRollingHash w} {mem : Bytes} {b : BitVec w}
    {p : ℤ} (hat : h.RightAt mem b n p) :
    h.value.toNat = (∑ j ∈ Finset.range n, (mem (p + j)).toNat * b.toNat ^ (n - 1 - j)) % 2 ^ w := by
  rw [hat]
  exact toNat_polyHash b (fun j => (mem (p + j)).toNat) n

/-- **Rolling hashes are the hashes of their windows.** Behind any calls the polynomial hash is the sum of the bytes
of the window by the powers of the base, the CRC is what the shift register makes of these bytes, and all hashes of
compressors whose windows are not smaller than what they are moved on by are those of the windows at their places,
so that the hashes of equal strings are equal. -/
theorem hashes_right {σ τ : Type*} :
    (∀ (w : ℕ) (garbage : BitVec w) (mem : Bytes) (buf : ℤ) (L : ℕ) (seed : BitVec w)
        (calls : List PolynomialRollingHash.Call), L < 2 ^ 31 →
      let s := calls.foldl (PolynomialRollingHash.Call.run mem) (buf, .newAt garbage mem buf L seed)
      s.2.value.toNat = (∑ j ∈ Finset.range L, (mem (s.1 + j)).toNat * seed.toNat ^ (L - 1 - j)) % 2 ^ w) ∧
    (∀ (w : ℕ) (build : Build) (garbage : CrcRollingHash w) (mem : Bytes) (buf : ℤ) (L : ℕ) (crcPolynom : BitVec w)
        (calls : List CrcRollingHash.Call), CrcRollingHash.Usable build crcPolynom →
      let s := calls.foldl (CrcRollingHash.Call.run build mem) (buf, .newAt build garbage mem buf L crcPolynom)
      s.2.value = crcWindow crcPolynom (mem.from w s.1) L) ∧
    ∀ (c : Compressor σ) (fuel : ℕ) (garbage1 garbage2 : BigHash) (state : σ), c.Fits →
      (∀ u ∈ (c.compress fuel garbage1 garbage2 state).uses, c.Right u) ∧
      ∀ (c' : Compressor τ) (fuel' : ℕ) (garbage1' garbage2' : BigHash) (state' : τ), c'.Fits → c'.L = c.L →
        ∀ u ∈ (c.compress fuel garbage1 garbage2 state).uses,
        ∀ u' ∈ (c'.compress fuel' garbage1' garbage2' state').uses,
        ∀ i hash i' hash', u.entry = some (i, hash) → u'.entry = some (i', hash') →
          (∀ j < c.L, c.buf (i + j) = c'.buf (i' + j)) → hash = hash' := by
  refine ⟨fun w garbage mem buf L seed calls hL => ?_, fun w build garbage mem buf L crcPolynom calls husable => ?_,
    fun c fuel garbage1 garbage2 state hc => ⟨c.compress_right hc fuel garbage1 garbage2 state, ?_⟩⟩
  · have hlt : L < 2 ^ 32 := by omega
    exact PolynomialRollingHash.toNat_of_rightAt (PolynomialRollingHash.run_spec garbage mem buf hlt seed calls)
  · exact CrcRollingHash.run_spec husable garbage mem buf L calls
  · intro c' fuel' garbage1' garbage2' state' hc' hL u hu u' hu' i hash i' hash' hentry hentry' hequal
    have h := Compressor.hashed_of_entry (c.compress_right hc fuel garbage1 garbage2 state u hu) hentry
    have h' := Compressor.hashed_of_entry (c'.compress_right hc' fuel' garbage1' garbage2' state' u' hu') hentry'
    rw [h, h', hL]
    refine polyHash_congr fun j hj => ?_
    rw [Bytes.from, Bytes.from, Bytes.at, Bytes.at, hequal j hj]

/-- Nothing is found. -/
def Outside.idle : Outside Unit where
  mark := fun _ s => s
  check := fun _ _ => true
  find := fun _ _ _ s => (none, s)
  add := fun _ _ s => s
  decode := fun _ s => ((16, 0), s)
  encode := fun _ _ s => s

/-- Two chunks of 8 bytes, with an accelerator of `accelerator`, and a byte in front of them. -/
def Compressor.twoChunks (accelerator : ℕ) : Compressor Unit where
  accelerator := accelerator
  L := 8
  baseLen := 8
  blockSize := 16
  buf p := if p = -1 then 1 else 0
  outside := .idle

/-- An accelerator that fits, and the hashes of windows that have moved on. -/
theorem hashes_right_four :
    (let s := [PolynomialRollingHash.Call.update, .updateN 4].foldl (PolynomialRollingHash.Call.run fun p => .ofInt p)
        (0, .newAt 0 (fun p => .ofInt p) 0 5 seedPrime)
     s.2.value.toNat =
        (∑ j ∈ Finset.range 5, (UInt8.ofInt (s.1 + j)).toNat * seedPrime.toNat ^ (5 - 1 - j)) % 2 ^ 64) ∧
    (∀ garbage : CrcRollingHash 32,
      let s := [CrcRollingHash.Call.update].foldl (CrcRollingHash.Call.run .table fun p => .ofInt p)
        (0, .newAt .table garbage (fun p => .ofInt p) 0 5 crc32CastagnoliPolynom)
      s.2.value = crcWindow crc32CastagnoliPolynom (Bytes.from (fun p => .ofInt p) 32 s.1) 5) ∧
    ∀ u ∈ ((Compressor.twoChunks 4).compress 3 0 0 ()).uses, (Compressor.twoChunks 4).Right u :=
  have h := hashes_right (σ := Unit) (τ := Unit)
  ⟨h.1 64 0 (fun p => .ofInt p) 0 5 seedPrime [.update, .updateN 4] (by decide),
    fun garbage => h.2.1 32 .table garbage (fun p => .ofInt p) 0 5 crc32CastagnoliPolynom [.update]
      (by change 8 ≤ 32; decide),
    (h.2.2 (.twoChunks 4) 3 0 0 () ⟨by decide, by decide, by decide⟩).1⟩

/-- A window that is smaller than what it is moved on by: the byte in front of the block is hashed. -/
theorem not_right_sixteen :
    ∃ u ∈ ((Compressor.twoChunks 16).compress 0 0 0 ()).uses, ¬ (Compressor.twoChunks 16).Right u := by
  generalize hs : (Compressor.twoChunks 16).start 0 0 () = s
  have hprime1 : s.hash1.prime = seedPrime := by rw [← hs]; rfl
  have hprime2 : s.hash2.prime = seedPrime := by rw [← hs]; rfl
  have hlength : s.hash1.L = -7 := by rw [← hs]; rfl
  -- the first hash has the 9 bytes from -16 on, and 15 bytes more enter the second one
  have hmoved : (Compressor.twoChunks 16).Hashed 9 (-16) (s.hash1.moveto (Compressor.twoChunks 16).buf 0).value := by
    have hturns : (s.hash1.L - s.hash1.L % 16 : ℤ) = -16 := by rw [hlength]; decide
    have hrest : (s.hash1.L - -16).toNat = 9 := by rw [hlength]; decide
    rw [Compressor.Hashed, PolynomialRollingHash.moveto]
    dsimp only
    have hsixteens : ((-16 : ℤ) / 16).toNat = 0 := by decide
    rw [hturns, hrest, hsixteens, PolynomialRollingHash.movetoSixteens]
    simp only [PolynomialRollingHash.movetoOnes, hprime1, polyHash, Bytes.from]
    norm_num
  have hjoined := Compressor.firstLoop_hash2 (c := Compressor.twoChunks 16) (Compressor.twoChunks 16).offset 0
    (s := { s with
      hash1 := s.hash1.moveto (Compressor.twoChunks 16).buf 0
      hash2 := { s.hash2 with value := (s.hash1.moveto (Compressor.twoChunks 16).buf 0).value } })
    (p := -16) (by decide) hprime2 hmoved
  have hfits : uint32 (2 * (Compressor.twoChunks 16).L) ≤ (Compressor.twoChunks 16).blockSize := by decide
  rw [Compressor.compress, hs, if_pos hfits, Compressor.mainLoop]
  refine ⟨.find 0 _, List.mem_append_left _ (List.mem_append_right _ List.mem_cons_self), fun hright => ?_⟩
  have hwrong : polyHash seedPrime ((Compressor.twoChunks 16).buf.from 64 (-16)) 24 ≠
      polyHash seedPrime ((Compressor.twoChunks 16).buf.from 64 0) 8 := by decide +kernel
  exact hwrong (hjoined.symm.trans hright)

end DArc.SREP
