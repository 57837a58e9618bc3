import DArc.Library.SharedReads
import DArc.SREP.Matches

/-!
# The in-memory compressor

The dictionary is a circular buffer that a thread in the background fills with the blocks of the file.  Of every
block the compressor takes some positions, looks up in a table where in the dictionary the same hash was met before,
and compares the bytes there.  The table is never cleaned, so a place may hold other data by then; the distance decides
whether it does.

### Outline

* `DictionaryCompressor`: the settings, and the size of the dictionary;
* `DictionaryCompressor.prepareBuffer`: the positions of a block;
* `findMatchStart`, `findMatchEnd`, `DictionaryCompressor.compress`: the search for matches;
* `DictionaryCompressor.Window`: the places that hold the last bytes of the file;
* `DictionaryCompressor.TrueFound`: what is true of every match.

### Main results

* `DictionaryCompressor.safe_tryMatch`: a match that is found is true, and only the window is read;
* `DictionaryCompressor.safe_compress`: so is every match of a block.
-/

namespace DArc.SREP

/-- The settings of `DictionaryCompressor` and of the thread that fills its dictionary; the constructor divides
by `L`. -/
structure DictionaryCompressor where
  inmemDictsize : UInt64
  hashsize : ℕ
  bufsize : UInt32
  L : ℕ
  minMatch : ℕ
  dictMinMatch : ℕ
  L_pos : 0 < L

/-- `roundUp`, as this program has it. -/
def roundUpSize (a b : ℕ) : ℕ := if a ≠ 0 ∧ b > 1 then roundDown (a - 1) b + b else a

/-- `min_hash_size`. -/
def minHashSize (n : ℕ) : ℕ := (n / 4 + 1) * 5

/-- `roundup_to_power_of` for powers of 2. -/
def roundupToPowerOfTwo (n : ℕ) : ℕ := if n = 0 then 0 else if n - 1 = 0 then 1 else 2 * 2 ^ (n - 1).log2

/-- `INMEM_PREFETCH`. -/
def inmemPrefetch : ℕ := 100

/-- `PRIME1`. -/
def prime1 : UInt64 := 153191

/-- A match that is found: its place in the dictionary, the literals in front of it, its distance and its length. -/
structure Found where
  start : ℕ
  litLen : ℕ
  distance : ℕ
  len : ℕ
  deriving DecidableEq

/-- A search in the dictionary. -/
abbrev Search (α : Type) := SharedReads Found ℕ UInt8 α

/-- `find_match_start`. -/
def findMatchStart (p q start : ℕ) : Search ℕ :=
  match q with
  | 0 => .done 0
  | q + 1 =>
    if q + 1 > start then
      .read (p - 1) fun x => .read q fun y => if x ≠ y then .done (q + 1) else findMatchStart (p - 1) q start
    else .done (q + 1)

/-- The loop of `find_match_end`, with the number of bytes up to its end. -/
def matchForward : ℕ → ℕ → ℕ → Search ℕ
  | 0, _, q => .done q
  | n + 1, p, q => .read p fun x => .read q fun y => if x = y then matchForward n (p + 1) (q + 1) else .done q

/-- `find_match_end`. -/
def findMatchEnd (p q stop : ℕ) : Search ℕ := matchForward (stop - q) p q

namespace DictionaryCompressor

variable (c : DictionaryCompressor)

/-- `MAX_DIST`. -/
def maxDist : ℕ := c.inmemDictsize.toNat

/-- `BASE_LEN`. -/
def baseLen : ℕ := min c.minMatch c.dictMinMatch

/-- `dictsize`: there is room for two more blocks, one of which may be read while another one is compressed. -/
def dictsize : ℕ := roundUpSize c.maxDist c.bufsize.toNat + (2 * c.bufsize).toNat

/-- `hashmask`. -/
def hashmask : UInt64 :=
  let hashsize := roundupToPowerOfTwo (if c.hashsize ≠ 0 then c.hashsize else minHashSize (8 * (c.maxDist / c.L)))
  UInt64.ofNat (hashsize / 8) - 1

/-! ## The positions of a block -/

/-- `moveto`. -/
def moveto (buf : ℕ → UInt8) : UInt64 :=
  (List.range c.L).foldl (fun value k => value * prime1 + (buf k).toUInt64) 0

/-- `update`. -/
def update (value : UInt64) (sub add : UInt8) : UInt64 :=
  value * prime1 + add.toUInt64 - prime1 ^ c.L * sub.toUInt64

/-- The inner loop of `prepare_buffer`, with the number of turns that are left: the hash behind the part, and the
largest one with its position. -/
def scanPart (buf : ℕ → UInt8) : ℕ → ℕ → ℕ → UInt64 → UInt64 → ℕ → UInt64 × UInt64 × ℕ
  | 0, _, _, hash, maxhash, maxi => (hash, maxhash, maxi)
  | turns + 1, i, ptr, hash, maxhash, maxi =>
    let hash' := c.update hash (buf ptr) (buf (ptr + c.L))
    if hash > maxhash then scanPart buf turns (i + 1) (ptr + 1) hash' hash i
    else scanPart buf turns (i + 1) (ptr + 1) hash' maxhash maxi

/-- The outer loop of `prepare_buffer`, with the number of turns that are left. -/
def scanParts (buf : ℕ → UInt8) : ℕ → ℕ → UInt64 → List (ℕ × ℕ)
  | 0, _, _ => List.replicate inmemPrefetch (0, 0)
  | turns + 1, ptr, hash =>
    let (hash', maxhash, maxi) := c.scanPart buf c.L 0 ptr hash hash 0
    ((maxhash &&& c.hashmask).toNat, maxi) :: scanParts buf turns (ptr + c.L) hash'

/-- `prepare_buffer`, with what the list holds before. -/
def prepareBuffer (hashptr : List (ℕ × ℕ)) (buf : ℕ → UInt8) (bufsize : ℕ) : List (ℕ × ℕ) :=
  if c.maxDist = 0 then hashptr
  else
    let numBlocks := bufsize / c.L
    if numBlocks > 1 then c.scanParts buf (numBlocks - 1) 0 (c.moveto buf) else hashptr

/-! ## The search -/

/-- What `compress` does where the table has a place: the end of the last match is returned. -/
def tryMatch (dataStart bufend lastMatchEnd i match_ : ℕ) : Search ℕ :=
  let matchDistance := if match_ < i then i - match_ else c.dictsize - match_ + i
  if matchDistance > c.maxDist then .done lastMatchEnd
  else
    let lowBound :=
      if match_ ≥ dataStart then if match_ - dataStart > i then 0 else i - (match_ - dataStart) else i - match_
    let highBound := if match_ < i then c.dictsize else c.dictsize - match_ + i
    (findMatchStart match_ i (max lastMatchEnd lowBound)).bind fun start =>
      (findMatchEnd match_ i (min bufend highBound)).bind fun stop =>
        let matchLen := stop - start
        if matchLen ≥ c.dictMinMatch then
          .report ⟨start, start - lastMatchEnd, matchDistance, matchLen⟩ (.done stop)
        else .done lastMatchEnd

/-- The loop of `compress`: the list has a hash and a position for every turn. -/
def compressLoop (dataStart bufend : ℕ) : List (ℕ × ℕ) → ℕ → ℕ → (ℕ → ℕ) → Search (ℕ → ℕ)
  | [], _, _, hasharr => .done hasharr
  | (hash, maxi) :: hashptr, lastI, lastMatchEnd, hasharr =>
    if lastI + 2 * c.L ≤ bufend then
      let i := lastI + maxi
      let search : Search ℕ :=
        if i ≥ lastMatchEnd ∧ hasharr hash ≠ 0 then c.tryMatch dataStart bufend lastMatchEnd i (hasharr hash)
        else .done lastMatchEnd
      search.bind fun lastMatchEnd =>
        compressLoop dataStart bufend hashptr (lastI + c.L) lastMatchEnd (Function.update hasharr hash i)
    else .done hasharr

/-- `compress`. -/
def compress (bufstart bufsize : ℕ) (hashptr : List (ℕ × ℕ)) (hasharr : ℕ → ℕ) : Search (ℕ → ℕ) :=
  if c.maxDist = 0 then .done hasharr
  else
    let dataStart := (bufstart + c.dictsize - c.maxDist) % c.dictsize
    c.compressLoop dataStart (bufstart + bufsize) hashptr bufstart bufstart hasharr

end DictionaryCompressor

/-! ## Comparing bytes -/

section Compare

variable {m : ℕ → UInt8} {S : Set ℕ} {P : Found → Prop}

/-- The bytes are compared backwards as far as they are equal. -/
lemma safe_findMatchStart {p q start : ℕ} (hp : q - start ≤ p)
    (hread : ∀ k, 1 ≤ k → k ≤ q - start → p - k ∈ S ∧ q - k ∈ S) :
    (findMatchStart p q start).Safe m S P fun r =>
      r ≤ q ∧ (start ≤ r ∨ r = q) ∧ ∀ k, 1 ≤ k → k ≤ q - r → m (p - k) = m (q - k) := by
  induction q generalizing p with
  | zero => exact ⟨le_rfl, .inr rfl, fun k hk hle => absurd (hk.trans hle) (Nat.not_succ_le_zero 0)⟩
  | succ q ih =>
    rw [findMatchStart]
    split_ifs with hstart
    · obtain ⟨hfirst, hsecond⟩ := hread 1 le_rfl (by omega)
      refine ⟨hfirst, hsecond, ?_⟩
      dsimp only
      split_ifs with hne
      · exact ⟨le_rfl, .inr rfl, fun k hk hle => absurd (hk.trans hle) (by omega)⟩
      · have hrest := ih (p := p - 1) (by omega) fun k hk hle => by
          have hnext := hread (k + 1) (by omega) (by omega)
          rwa [Nat.add_comm k 1, ← Nat.sub_sub, Nat.add_comm q 1, Nat.add_sub_add_left] at hnext
        refine hrest.imp fun r hr => ?_
        obtain ⟨hle, hor, heq⟩ := hr
        refine ⟨by omega, .inl (by omega), fun k hk hkr => ?_⟩
        obtain rfl | hk' := Nat.eq_or_lt_of_le hk
        · exact not_not.mp hne
        · have hback := heq (k - 1) (by omega) (by omega)
          have hp' : p - 1 - (k - 1) = p - k := by omega
          have hq' : q - (k - 1) = q + 1 - k := by omega
          rwa [hp', hq'] at hback
    · exact ⟨le_rfl, .inr rfl, fun k hk hle => absurd (hk.trans hle) (by omega)⟩

/-- The bytes are compared forwards as far as they are equal. -/
lemma safe_findMatchEnd {p q stop : ℕ} (hread : ∀ k, q + k < stop → p + k ∈ S ∧ q + k ∈ S) :
    (findMatchEnd p q stop).Safe m S P fun r =>
      q ≤ r ∧ (r ≤ stop ∨ r = q) ∧ ∀ k, q + k < r → m (p + k) = m (q + k) := by
  unfold findMatchEnd
  induction hn : stop - q generalizing p q with
  | zero => exact ⟨le_rfl, .inr rfl, fun k hk => absurd hk (by omega)⟩
  | succ n ih =>
    obtain ⟨hfirst, hsecond⟩ := hread 0 (by omega)
    refine ⟨hfirst, hsecond, ?_⟩
    dsimp only
    split_ifs with heq
    · have hrest := ih (p := p + 1) (q := q + 1) (fun k hk => by
        have hnext := hread (k + 1) (by omega)
        rwa [Nat.add_comm k 1, ← Nat.add_assoc, ← Nat.add_assoc] at hnext) (by omega)
      refine hrest.imp fun r hr => ?_
      obtain ⟨hle, hor, hequal⟩ := hr
      refine ⟨by omega, .inl (by omega), fun k hk => ?_⟩
      cases k with
      | zero => exact heq
      | succ k =>
        have hnext := hequal k (by omega)
        rwa [Nat.add_assoc, Nat.add_assoc, Nat.add_comm 1 k] at hnext
    · exact ⟨le_rfl, .inr rfl, fun k hk => absurd hk (by omega)⟩

end Compare

/-! ## What is found -/

namespace DictionaryCompressor

variable {c : DictionaryCompressor} {data : List UInt8} {m : ℕ → UInt8} {first len : ℕ}

/-- The places of the dictionary with the bytes of the file up to `stop`, as far back from the block at `first` as a
match may be. -/
def window (c : DictionaryCompressor) (first stop : ℕ) : Set ℕ :=
  {x | ∃ p, first ≤ p + c.maxDist ∧ p < stop ∧ p % c.dictsize = x}

/-- The window holds the bytes of the file. -/
def Holds (c : DictionaryCompressor) (data : List UInt8) (m : ℕ → UInt8) (first stop : ℕ) : Prop :=
  ∀ p, first ≤ p + c.maxDist → p < stop → data[p]? = some (m (p % c.dictsize))

/-- Where in the file the destination of a match is, whose block begins at `first`. -/
def dest (c : DictionaryCompressor) (first : ℕ) (f : Found) : ℕ := first + (f.start - first % c.dictsize)

/-- Where in the file the source of a match is. -/
def src (c : DictionaryCompressor) (first : ℕ) (f : Found) : ℕ := c.dest first f - f.distance

/-- A match of the block from `first` to `stop`: its distance is that in the file, its source is in the window, in one
piece, and the file has the same bytes at both. -/
structure TrueFound (c : DictionaryCompressor) (data : List UInt8) (first stop : ℕ) (f : Found) : Prop where
  block_le : first % c.dictsize ≤ f.start
  dest_le : c.dest first f + f.len ≤ stop
  distance_pos : 0 < f.distance
  distance_le : f.distance ≤ c.maxDist
  distance_le_dest : f.distance ≤ c.dest first f
  le_src : first ≤ c.src first f + c.maxDist
  piece : c.src first f % c.dictsize + f.len ≤ c.dictsize
  repeats : Repeats data (c.src first f) (c.dest first f) f.len
  lit_le : first + f.litLen ≤ c.dest first f
  min_le : c.dictMinMatch ≤ f.len

/-- The block from `first` on has its bytes in one piece, and is shorter than what a match may not reach. -/
structure Fits (c : DictionaryCompressor) (first len : ℕ) : Prop where
  piece : first % c.dictsize + len ≤ c.dictsize
  room : c.maxDist < c.dictsize

/-- A place in the table: some byte of the file that was met before was there. -/
def Met (c : DictionaryCompressor) (bound x : ℕ) : Prop := ∃ p < bound, p % c.dictsize = x

/-- Where a place of a lap is. -/
lemma mod_lap {D w x : ℕ} (h : x < D) : (D * w + x) % D = x := by
  rw [Nat.mul_add_mod, Nat.mod_eq_of_lt h]

/-- The byte at a place that was met before is in the same lap as position `i`, or one lap before. -/
lemma exists_lap {D w i x : ℕ} (hmet : ∃ p < D * w + i, p % D = x) (hD : 0 < D) :
    ∃ w', D * w' + x + (if x < i then i - x else D - x + i) = D * w + i ∧
      (x < i → D * w' = D * w) ∧ (¬x < i → D * w' + D = D * w) := by
  obtain ⟨p, hp, rfl⟩ := hmet
  have hlt : p % D < D := Nat.mod_lt p hD
  split_ifs with hi
  · exact ⟨w, by omega, fun _ => rfl, fun h => absurd hi h⟩
  · have hdiv := Nat.div_add_mod p D
    have hlap : D * (p / D) < D * w := by omega
    obtain ⟨w', rfl⟩ : ∃ w', w = w' + 1 := Nat.exists_eq_succ_of_ne_zero fun hzero => by
      rw [hzero, Nat.mul_zero] at hlap
      exact absurd hlap (Nat.not_lt_zero _)
    have hmul : D * (w' + 1) = D * w' + D := Nat.mul_succ D w'
    exact ⟨w', by omega, fun h => absurd h hi, fun _ => hmul.symm⟩

/-- **A match that is found is true**, and only the window is read. -/
lemma safe_tryMatch (hfits : c.Fits first len) (hholds : c.Holds data m first (first + len)) {lastMatchEnd i x : ℕ}
    (hlast : first % c.dictsize ≤ lastMatchEnd) (hi : lastMatchEnd ≤ i) (hend : i < first % c.dictsize + len)
    (hmet : c.Met (first + (i - first % c.dictsize)) x) :
    (c.tryMatch ((first % c.dictsize + c.dictsize - c.maxDist) % c.dictsize) (first % c.dictsize + len) lastMatchEnd i
      x).Safe m (c.window first (first + len)) (c.TrueFound data first (first + len))
      fun r => lastMatchEnd ≤ r ∧ r ≤ first % c.dictsize + len := by
  obtain ⟨hpiece, hroom⟩ := hfits
  have hdiv := Nat.div_add_mod first c.dictsize
  set D := c.dictsize with hD
  set M := c.maxDist with hM
  set a := first % D with ha
  set w := first / D with hw
  have haD : a < D := Nat.mod_lt _ (by omega)
  have hxD : x < D := by
    obtain ⟨p, -, rfl⟩ := hmet
    exact Nat.mod_lt _ (by omega)
  have hpos : first + (i - a) = D * w + i := by omega
  unfold Met at hmet
  rw [← hD, hpos] at hmet
  obtain ⟨w', hsum, hsame, hother⟩ := exists_lap hmet (by omega)
  unfold tryMatch
  dsimp only
  rw [← hD, ← hM]
  set d := if x < i then i - x else D - x + i with hd
  by_cases hfar : d > M
  · rw [if_pos hfar]
    exact ⟨le_rfl, by omega⟩
  rw [if_neg hfar]
  -- The oldest byte of the window, and how far a match may go back and on.
  have hstart : (a + D - M) % D = if M ≤ a then a - M else a + D - M := by
    split_ifs with hMa
    · have hsplit : a + D - M = a - M + D := by omega
      rw [hsplit, Nat.add_mod_right, Nat.mod_eq_of_lt (by omega)]
    · exact Nat.mod_eq_of_lt (by omega)
  set A := (a + D - M) % D with hA
  set low := if x ≥ A then if x - A > i then 0 else i - (x - A) else i - x with hlow
  set high := if x < i then D else D - x + i with hhigh
  have hback : ∀ k, k ≤ i - low → k ≤ x ∧ first ≤ D * w' + (x - k) + M := by
    intro k hk
    by_cases hxi : x < i
    · have hlap := hsame hxi
      split_ifs at hd hlow hstart <;> omega
    · have hlap := hother hxi
      split_ifs at hd hlow hstart <;> omega
  have hon : ∀ k, i + k < min (a + len) high → x + k < D := by
    intro k hk
    have hk' : i + k < a + len ∧ i + k < high := lt_min_iff.mp hk
    split_ifs at hhigh <;> omega
  -- Places of the dictionary as positions in the file.
  have hin : ∀ u y, y < D → first ≤ D * u + y + M → D * u + y < first + len → y ∈ c.window first (first + len) :=
    fun u y hy hle hlt => ⟨D * u + y, hle, hlt, mod_lap hy⟩
  have hbyte : ∀ u y, y < D → first ≤ D * u + y + M → D * u + y < first + len →
      data[D * u + y]? = some (m y) := fun u y hy hle hlt => by
    have hplace := hholds (D * u + y) hle hlt
    rwa [← hD, mod_lap hy] at hplace
  refine SharedReads.Safe.bind (safe_findMatchStart ?_ ?_) fun start hs => ?_
  · have hx := (hback (i - max lastMatchEnd low) (by omega)).1
    exact hx
  · intro k hk hle
    obtain ⟨hkx, hkw⟩ := hback k (by omega)
    exact ⟨hin w' (x - k) (by omega) hkw (by omega), hin w (i - k) (by omega) (by omega) (by omega)⟩
  obtain ⟨hsi, hor, heqBack⟩ := hs
  have hstartLe : lastMatchEnd ≤ start ∧ i - start ≤ i - low := by
    obtain h | h := hor
    · exact ⟨(le_max_left _ _).trans h, Nat.sub_le_sub_left ((le_max_right _ _).trans h) i⟩
    · omega
  refine SharedReads.Safe.bind (safe_findMatchEnd ?_) fun stop he => ?_
  · intro k hk
    have hkD := hon k hk
    have hk' : i + k < a + len := (lt_min_iff.mp hk).1
    exact ⟨hin w' (x + k) hkD (by omega) (by omega), hin w (i + k) (by omega) (by omega) (by omega)⟩
  obtain ⟨hie, hor', heqOn⟩ := he
  have hstopLe : ∀ k, i + k < stop → i + k < min (a + len) high := by
    intro k hk
    obtain h | h := hor'
    · exact hk.trans_le h
    · omega
  have hstopEnd : stop ≤ a + len := by
    obtain h | h := hor'
    · exact h.trans (min_le_left _ _)
    · omega
  split_ifs with hlong
  swap
  · exact ⟨le_rfl, by omega⟩
  refine ⟨?_, by omega, hstopEnd⟩
  obtain ⟨hkx, hwindow⟩ := hback (i - start) hstartLe.2
  have hdest : c.dest first ⟨start, start - lastMatchEnd, d, stop - start⟩ = D * w + start := by
    change first + (start - a) = _
    omega
  have hsrc : c.src first ⟨start, start - lastMatchEnd, d, stop - start⟩ = D * w' + (x - (i - start)) := by
    unfold src
    rw [hdest]
    dsimp only
    omega
  have hlast : x + (stop - i) ≤ D := by
    obtain hstop | hstop := Nat.eq_or_lt_of_le hie
    · omega
    · have hbefore := hon (stop - 1 - i) (hstopLe _ (by omega))
      omega
  have hrepeats : Repeats data (D * w' + (x - (i - start))) (D * w + start) (stop - start) := by
    intro j hj
    obtain hbefore | hbehind := Nat.lt_or_ge (start + j) i
    · obtain ⟨k, hk⟩ : ∃ k, i = start + j + k := ⟨i - (start + j), by omega⟩
      have hplace : D * w' + (x - (i - start)) + j = D * w' + (x - k) := by omega
      have hplace' : D * w + start + j = D * w + (i - k) := by omega
      obtain ⟨hkx', hkw⟩ := hback k (by omega)
      rw [hplace, hplace', hbyte w' (x - k) (by omega) hkw (by omega),
        hbyte w (i - k) (by omega) (by omega) (by omega), heqBack k (by omega) (by omega)]
    · obtain ⟨k, hk⟩ : ∃ k, start + j = i + k := ⟨start + j - i, by omega⟩
      have hplace : D * w' + (x - (i - start)) + j = D * w' + (x + k) := by omega
      have hplace' : D * w + start + j = D * w + (i + k) := by omega
      have hkD := hon k (hstopLe k (by omega))
      rw [hplace, hplace', hbyte w' (x + k) hkD (by omega) (by omega),
        hbyte w (i + k) (by omega) (by omega) (by omega), heqOn k (by omega)]
  exact {
    block_le := by
      change a ≤ start
      omega
    dest_le := by
      rw [hdest]
      change D * w + start + (stop - start) ≤ _
      omega
    distance_pos := by
      change 0 < d
      split_ifs at hd <;> omega
    distance_le := not_lt.mp hfar
    distance_le_dest := by
      rw [hdest]
      change d ≤ _
      omega
    le_src := by
      rw [hsrc]
      exact hwindow
    piece := by
      rw [hsrc, mod_lap (by omega)]
      change x - (i - start) + (stop - start) ≤ D
      omega
    repeats := by
      rw [hsrc, hdest]
      exact hrepeats
    lit_le := by
      rw [hdest]
      change first + (start - lastMatchEnd) ≤ _
      omega
    min_le := hlong }

/-- A place that was met before stays so. -/
lemma Met.mono {bound bound' x : ℕ} (h : c.Met bound x) (hle : bound ≤ bound') : c.Met bound' x := by
  obtain ⟨p, hp, hx⟩ := h
  exact ⟨p, hp.trans_le hle, hx⟩

/-- The table has places that were met before; 0 stands for none. -/
def TableOk (c : DictionaryCompressor) (bound : ℕ) (hasharr : ℕ → ℕ) : Prop :=
  ∀ hash, hasharr hash = 0 ∨ c.Met bound (hasharr hash)

/-- The loop finds true matches only. -/
lemma safe_compressLoop (hfits : c.Fits first len) (hholds : c.Holds data m first (first + len))
    {hashptr : List (ℕ × ℕ)} (hpos : ∀ part ∈ hashptr, part.2 < c.L) {lastI lastMatchEnd : ℕ} {hasharr : ℕ → ℕ}
    (hstart : first % c.dictsize ≤ lastI) (hI : lastI ≤ first % c.dictsize + len)
    (hlast : first % c.dictsize ≤ lastMatchEnd) (hend : lastMatchEnd ≤ first % c.dictsize + len)
    (htable : c.TableOk (first + (lastI - first % c.dictsize)) hasharr) :
    (c.compressLoop ((first % c.dictsize + c.dictsize - c.maxDist) % c.dictsize) (first % c.dictsize + len) hashptr
      lastI lastMatchEnd hasharr).Safe m (c.window first (first + len)) (c.TrueFound data first (first + len))
      (c.TableOk (first + len)) := by
  induction hashptr generalizing lastI lastMatchEnd hasharr with
  | nil => exact fun hash => (htable hash).imp_right fun h => h.mono (by omega)
  | cons part hashptr ih =>
    obtain ⟨hash, maxi⟩ := part
    have hmaxi : maxi < c.L := hpos _ (List.mem_cons_self ..)
    rw [compressLoop]
    split_ifs with hturn
    swap
    · exact fun hash => (htable hash).imp_right fun h => h.mono (by omega)
    dsimp only
    have hsearch : SharedReads.Safe m (c.window first (first + len)) (c.TrueFound data first (first + len))
        (fun r => lastMatchEnd ≤ r ∧ r ≤ first % c.dictsize + len)
        (if lastI + maxi ≥ lastMatchEnd ∧ hasharr hash ≠ 0 then
          c.tryMatch ((first % c.dictsize + c.dictsize - c.maxDist) % c.dictsize) (first % c.dictsize + len)
            lastMatchEnd (lastI + maxi) (hasharr hash)
        else .done lastMatchEnd) := by
      split_ifs with hfound
      · obtain ⟨hi, hne⟩ := hfound
        have hmet : c.Met (first + (lastI + maxi - first % c.dictsize)) (hasharr hash) :=
          ((htable hash).resolve_left hne).mono (by omega)
        exact safe_tryMatch hfits hholds hlast hi (by omega) hmet
      · exact ⟨le_rfl, hend⟩
    refine hsearch.bind fun r hr => ?_
    refine ih (fun part hmem => hpos part (List.mem_cons_of_mem _ hmem)) (by omega) (by omega) (hlast.trans hr.1) hr.2 ?_
    intro hash'
    by_cases hsame : hash' = hash
    · subst hsame
      rw [Function.update_self]
      have hD : first % c.dictsize + len ≤ c.dictsize := hfits.piece
      have hdiv := Nat.div_add_mod first c.dictsize
      have hplace : (first + (lastI + maxi - first % c.dictsize)) % c.dictsize = lastI + maxi := by
        have hsum : first + (lastI + maxi - first % c.dictsize) =
          c.dictsize * (first / c.dictsize) + (lastI + maxi) := by omega
        rw [hsum, mod_lap (by omega)]
      exact .inr ⟨_, by omega, hplace⟩
    · rw [Function.update_of_ne hsame]
      exact (htable hash').imp_right fun h => h.mono (by omega)

/-- **Every match of a block is true**, and only the window is read. -/
theorem safe_compress (hfits : c.maxDist ≠ 0 → c.Fits first len) (hholds : c.Holds data m first (first + len))
    {hashptr : List (ℕ × ℕ)} (hpos : c.maxDist ≠ 0 → ∀ part ∈ hashptr, part.2 < c.L) {hasharr : ℕ → ℕ}
    (htable : c.TableOk first hasharr) :
    (c.compress (first % c.dictsize) len hashptr hasharr).Safe m (c.window first (first + len))
      (c.TrueFound data first (first + len)) (c.TableOk (first + len)) := by
  unfold compress
  split_ifs with hzero
  · exact fun hash => (htable hash).imp_right fun h => h.mono (Nat.le_add_right _ _)
  · exact safe_compressLoop (hfits hzero) hholds (hpos hzero) le_rfl (Nat.le_add_right _ _) le_rfl
      (Nat.le_add_right _ _) (by rwa [Nat.sub_self, Nat.add_zero])

/-! ## The positions of a block -/

/-- The position of a part is within it. -/
lemma scanPart_lt (buf : ℕ → UInt8) (turns i ptr : ℕ) (hash maxhash : UInt64) (maxi : ℕ) (hmaxi : maxi < i + turns) :
    (c.scanPart buf turns i ptr hash maxhash maxi).2.2 < i + turns := by
  induction turns generalizing i ptr hash maxhash maxi with
  | zero => exact hmaxi
  | succ turns ih =>
    rw [scanPart]
    have hsum : i + (turns + 1) = i + 1 + turns := by omega
    rw [hsum] at hmaxi ⊢
    split_ifs
    · exact ih _ _ _ _ _ (by omega)
    · exact ih _ _ _ _ _ hmaxi

/-- All positions are within their parts. -/
lemma scanParts_lt (buf : ℕ → UInt8) (turns ptr : ℕ) (hash : UInt64) :
    ∀ part ∈ c.scanParts buf turns ptr hash, part.2 < c.L := by
  induction turns generalizing ptr hash with
  | zero =>
    intro part hmem
    rw [List.eq_of_mem_replicate hmem]
    exact c.L_pos
  | succ turns ih =>
    intro part hmem
    rw [scanParts] at hmem
    obtain rfl | hmem := List.mem_cons.mp hmem
    · have hlt := c.scanPart_lt buf c.L 0 ptr hash hash 0 (by rw [Nat.zero_add]; exact c.L_pos)
      rwa [Nat.zero_add] at hlt
    · exact ih _ _ part hmem

/-- **The positions** that are noted for a block are within their parts. -/
lemma prepareBuffer_lt {hashptr : List (ℕ × ℕ)} (h : ∀ part ∈ hashptr, part.2 < c.L) (buf : ℕ → UInt8) (n : ℕ) :
    ∀ part ∈ c.prepareBuffer hashptr buf n, part.2 < c.L := by
  unfold prepareBuffer
  dsimp only
  split_ifs
  · exact h
  · exact c.scanParts_lt buf _ _ _
  · exact h

end DictionaryCompressor

end DArc.SREP
