import DArc.Compression.MethodNumbers

/-!
# The parameters of Tornado

`parseTornado` reads the parameters of the method from its string, `setDictionary` changes the size of the buffer and
of the hash table, and `torCompress` chooses one of the compressors that were compiled, adjusts the sizes, and begins
the stream with a header that `torDecompress` reads.  A division by zero and a logarithm of zero have no result.

A preset that is not in the table is read from the memory behind or in front of it, of which nothing is known.

### Main results

* `usable_iff`: which accepted parameters can be used.
-/

namespace DArc.Tornado

/-! ## Parameters -/

/-- `PackMethod`. -/
structure PackMethod where
  number : Int
  encodingMethod : Int
  findTables : Bool
  hashRowWidth : Int
  hashsize : ℕ
  cachingFinder : Int
  buffer : ℕ
  matchParser : Int
  hash3 : Int
  shift : Int
  updateStep : Int
  auxhashSize : ℕ
  auxhashRowWidth : Int
  deriving DecidableEq

/-- `STORING`. -/
abbrev storing : Int := 0

/-- `BYTECODER`. -/
abbrev bytecoder : Int := 1

/-- `BITCODER`. -/
abbrev bitcoder : Int := 2

/-- `HUFCODER`. -/
abbrev hufcoder : Int := 3

/-- `ARICODER`. -/
abbrev aricoder : Int := 4

/-- `GREEDY`. -/
abbrev greedy : Int := 1

/-- `LAZY`. -/
abbrev lazyParser : Int := 2

/-- `std_Tornado_method`. -/
def stdTornadoMethod : List PackMethod :=
  [⟨0, storing, false, 0, 0, 0, 1 * mb, 0, 0, 0, 999, 0, 0⟩,
    ⟨1, bytecoder, false, 1, 16 * kb, 0, 1 * mb, greedy, 0, 0, 999, 0, 0⟩,
    ⟨2, bitcoder, false, 1, 64 * kb, 0, 2 * mb, greedy, 0, 0, 999, 0, 0⟩,
    ⟨3, hufcoder, true, 2, 128 * kb, 0, 4 * mb, greedy, 0, 0, 999, 0, 0⟩,
    ⟨4, hufcoder, true, 2, 2 * mb, 1, 8 * mb, greedy, 0, 0, 999, 0, 0⟩,
    ⟨5, aricoder, true, 4, 2 * mb, 1, 16 * mb, lazyParser, 1, 0, 999, 0, 0⟩,
    ⟨6, aricoder, true, 8, 32 * mb, 1, 64 * mb, lazyParser, 1, 0, 4, 0, 0⟩,
    ⟨7, aricoder, true, 32, 128 * mb, 5, 256 * mb, lazyParser, 2, 0, 1, 128 * kb, 4⟩,
    ⟨8, aricoder, true, 128, 512 * mb, 5, 1024 * mb, lazyParser, 2, 0, 1, 128 * kb, 4⟩,
    ⟨9, aricoder, true, 256, 2048 * mb, 5, 1024 * mb, lazyParser, 2, 0, 1, 512 * kb, 4⟩,
    ⟨10, aricoder, true, 256, 2048 * mb, 6, 1024 * mb, lazyParser, 2, 0, 1, 2 * mb, 32⟩,
    ⟨11, aricoder, true, 200, 1600 * mb, 7, 1024 * mb, lazyParser, 2, 0, 1, 512 * mb, 256⟩]

/-- `default_Tornado_method`, the preset with this number. -/
def defaultTornadoMethod : PackMethod := ⟨5, aricoder, true, 4, 2 * mb, 1, 16 * mb, lazyParser, 1, 0, 999, 0, 0⟩

/-! ## Parsing -/

/-- What the parser makes of one parameter. -/
inductive Setting
  /-- A field is set. -/
  | field (set : PackMethod → PackMethod)
  /-- The preset with this number is taken. -/
  | preset (n : ℕ)

/-- One parameter of the method. -/
def parseParam (param : List Char) : Option Setting :=
  match param with
  | 'b' :: value => (parseMem value).map fun (n : ℕ) => .field fun m => { m with buffer := n }
  | 'h' :: value => (parseMem value).map fun (n : ℕ) => .field fun m => { m with hashsize := n }
  | 'l' :: value => (parseInt value).map fun (n : ℕ) => .field fun m => { m with hashRowWidth := int32 n }
  | 'c' :: value => (parseInt value).map fun (n : ℕ) => .field fun m => { m with encodingMethod := int32 n }
  | 'p' :: value => (parseInt value).map fun (n : ℕ) => .field fun m => { m with matchParser := int32 n }
  | 'u' :: value => (parseInt value).map fun (n : ℕ) => .field fun m => { m with updateStep := int32 n }
  | 't' :: value => (parseInt value).map fun (n : ℕ) => .field fun m => { m with findTables := n ≠ 0 }
  | 'a' :: 'h' :: value => (parseMem value).map fun (n : ℕ) => .field fun m => { m with auxhashSize := n }
  | 'a' :: 'l' :: value => (parseInt value).map fun (n : ℕ) => .field fun m => { m with auxhashRowWidth := int32 n }
  | _ =>
    match parseInt param with
    | some n => some (.preset n)
    | none => (parseMem param).map fun (n : ℕ) => .field fun m => { m with buffer := n }

/-- The loop of `parse_TORNADO` over the parameters, behind the presets `indices` so far; `outside` is what stands
where a preset is taken that is not in the table. -/
def parseParams (outside : ℕ → PackMethod) : List (List Char) → PackMethod → List ℕ → Option (PackMethod × List ℕ)
  | [], m, indices => some (m, indices)
  | param :: params, m, indices =>
    match parseParam param with
    | none => none
    | some (.field set) => parseParams outside params (set m) indices
    | some (.preset n) =>
      parseParams outside params ((stdTornadoMethod[n]?).getD (outside n)) (indices ++ [n])

/-- `parse_TORNADO`, behind the name of the method: the parameters, and the numbers with which the table of presets
was indexed. -/
def parseTornado (outside : ℕ → PackMethod) (params : List (List Char)) : Option (PackMethod × List ℕ) :=
  parseParams outside params defaultTornadoMethod []

/-! ## Changing the dictionary -/

/-- The loop of `round_to_nearest_power_of`, with the number of its turns at most. -/
def nearestLoop (base : ℕ) : ℕ → ℕ → ℕ → ℕ
  | 0, _, result => result
  | turns + 1, nn, result =>
    if nn / (base * base) ≠ 0 then nearestLoop base turns (nn / (base * base)) (result * base % 2 ^ 32) else result

/-- `round_to_nearest_power_of`. -/
def roundToNearestPowerOf (n base : ℕ) : ℕ :=
  let nn := n * n / base
  if nn = 0 then 1 else nearestLoop base 64 nn base

/-- `SetDictionary`. -/
def setDictionary (m : PackMethod) (dict : ℕ) : Option PackMethod :=
  if dict > 0 then
    if dict < m.buffer then
      -- the table is not larger than such a small block needs
      some { m with hashsize := 4 * min (m.hashsize / 4) (roundupToPowerOf dict), buffer := dict }
    else if m.hashsize > 1 * mb then
      let hashsize := if m.hashsize < 8 * mb ∧ m.hashsize < m.buffer / 2 then m.buffer / 2 else m.hashsize
      if m.buffer / 64 = 0 ∨ uint32 m.hashRowWidth = 0 then none
      else
        let h := min (dict / (m.buffer / 64) * (hashsize / 64)) (2 * gb)
        let rounded := roundToNearestPowerOf (h / uint32 m.hashRowWidth) 2 * uint32 m.hashRowWidth % 2 ^ 32
        some { m with hashsize := min rounded (2 * gb), buffer := dict }
    else some { m with buffer := dict }
  else some m

/-- Several calls of `SetDictionary`. -/
def setDictionaries : PackMethod → List ℕ → Option PackMethod
  | m, [] => some m
  | m, dict :: dicts => do setDictionaries (← setDictionary m dict) dicts

/-! ## Compression up to the header -/

/-- A compressor that was compiled: the shortest match of its finder, and whether its coder is chosen when it runs. -/
structure Variant where
  minLength : ℕ
  dynamicCoder : Bool
  deriving DecidableEq

/-- The cascade of `tor_compress`. -/
def variant (m : PackMethod) : Option Variant :=
  if m.encodingMethod = bytecoder ∧ m.hashRowWidth = 1 ∧ m.hash3 = 0 ∧ m.cachingFinder = 0 ∧ m.matchParser = greedy ∨
      m.encodingMethod = storing then
    some ⟨4, false⟩
  else if m.encodingMethod = bitcoder ∧ m.hashRowWidth = 1 ∧ m.hash3 = 0 ∧ m.cachingFinder = 0 ∧
      m.matchParser = greedy then
    some ⟨4, false⟩
  else if m.encodingMethod = hufcoder ∧ m.hashRowWidth = 2 ∧ m.hash3 = 0 ∧ m.cachingFinder = 0 ∧
      m.matchParser = greedy then
    some ⟨4, false⟩
  else if m.encodingMethod = hufcoder ∧ m.hashRowWidth ≥ 2 ∧ m.hash3 = 0 ∧ m.cachingFinder ≠ 0 ∧
      m.matchParser = greedy then
    some ⟨4, false⟩
  else if m.encodingMethod = aricoder ∧ m.hashRowWidth ≥ 2 ∧ m.hash3 = 1 ∧ m.cachingFinder = 1 ∧
      m.matchParser = lazyParser then
    some ⟨2, false⟩
  else if m.encodingMethod = hufcoder ∧ m.hashRowWidth ≥ 2 ∧ m.hash3 = 1 ∧ m.cachingFinder = 1 ∧
      m.matchParser = lazyParser then
    some ⟨2, false⟩
  else if m.hashRowWidth ≥ 2 ∧ m.hash3 = 2 ∧ m.cachingFinder = 5 ∧ m.matchParser = lazyParser then
    some ⟨2, true⟩
  else if m.hashRowWidth ≥ 2 ∧ m.hash3 = 2 ∧ m.cachingFinder = 6 ∧ m.matchParser = lazyParser then
    some ⟨2, true⟩
  else if m.hashRowWidth ≥ 2 ∧ m.hash3 = 2 ∧ m.cachingFinder = 7 ∧ m.matchParser = lazyParser then
    some ⟨2, true⟩
  else none

/-- The largest power of two in a number of bytes, which has no result for none. -/
def powerBelow (n : ℕ) : Option ℕ := if n = 0 then none else some (2 ^ lb n)

/-- The buffer as `tor_compress0` rounds it up. -/
def roundedBuffer (buffer : ℕ) : ℕ := (max buffer (32 * kb) + 4095) % 2 ^ 32 / 4096 * 4096

/-- The size of a hash table, which is made smaller if it is too large for the buffer. -/
def adjustSize (buffer size : ℕ) : Option ℕ :=
  if size / 8 > buffer then powerBelow (buffer * 8 % 2 ^ 32) else some size

/-- The sizes as `tor_compress0` adjusts them. -/
def adjust (m : PackMethod) : Option PackMethod := do
  let buffer := roundedBuffer m.buffer
  let hashsize ← adjustSize buffer m.hashsize
  let auxhashSize ← adjustSize buffer m.auxhashSize
  let shift : Int :=
    if m.shift ≠ 0 then m.shift
    else if m.hashRowWidth > 4 then buffer / 4
    else if m.hashRowWidth > 2 then buffer / 2
    else if hashsize ≥ 512 * kb then (buffer / 4 * 3 : ℕ)
    else -1
  some { m with buffer, hashsize, auxhashSize, shift }

/-- What happens to a compressor before it writes anything. -/
structure Surroundings where
  /-- The buffer is allocated. -/
  allocated : Bool
  /-- What the first read returns. -/
  bytes : Int
  /-- `error` of the match finder. -/
  finderError : Int
  /-- `error` of the coder. -/
  coderError : Int

/-- What comes out of a compressor. -/
inductive Result
  /-- An error code, before anything is written. -/
  | error (code : Int)
  /-- A stream that begins with these bytes. -/
  | stream (header : List UInt8)

/-- The first bytes that `tor_compress_chunk` writes.  A coder that is chosen when the compressor runs writes nothing
if there is no such coder. -/
def header (v : Variant) (m : PackMethod) : List UInt8 :=
  if v.dynamicCoder ∧ ¬(1 ≤ m.encodingMethod ∧ m.encodingMethod ≤ 4) then []
  else .ofNat (uint32 m.encodingMethod) :: .ofNat v.minLength :: put32 m.buffer

/-- `tor_compress`, up to the header. -/
def torCompress (m : PackMethod) (env : Surroundings) : Option Result :=
  match variant m with
  | none => some (.error ErrCode.invalidCompressor.toInt)
  | some v => do
    let m ← adjust m
    if ¬env.allocated then some (.error ErrCode.notEnoughMemory.toInt)
    else if env.bytes < 0 then some (.error env.bytes)
    else if env.finderError ≠ 0 then some (.error env.finderError)
    else if env.coderError ≠ 0 then some (.error env.coderError)
    else some (.stream (header v m))

/-- The header that `tor_decompress` reads: the method, the shortest match and the size of the buffer.  It goes on if
there is such a decoder. -/
def torDecompress : List UInt8 → Bool
  | encodingMethod :: _ :: _ :: _ :: _ :: _ :: _ =>
    encodingMethod = 1 ∨ encodingMethod = 2 ∨ encodingMethod = 3 ∨ encodingMethod = 4
  | _ => false

/-- An error, or a stream with a header that is accepted. -/
def Result.Accepted : Result → Prop
  | .error _ => True
  | .stream header => torDecompress header = true

/-- The accepted parameters, with which the table was indexed by `indices`, can be used after some changes of the
dictionary. -/
structure Usable (m : PackMethod) (indices dicts : List ℕ) : Prop where
  /-- The table is indexed inside its bounds. -/
  inside : ∀ n ∈ indices, n ≤ 11
  /-- Everything has a result, and a stream that is written has a header that is accepted. -/
  result : ∃ m', setDictionaries m dicts = some m' ∧ ∀ env, ∃ r, torCompress m' env = some r ∧ r.Accepted

/-! ## What can be used -/

/-- The number of the preset that a parameter takes. -/
def presetNumber (param : List Char) : Option ℕ :=
  match parseParam param with
  | some (.preset n) => some n
  | _ => none

/-- Wherever the dictionary grows over a hash table of more than 1 MB, the buffer has 64 bytes, and the rows are not
empty. -/
def GrowsSafely : PackMethod → List ℕ → Prop
  | _, [] => True
  | m, dict :: dicts =>
    (m.buffer ≤ dict → 1 * mb < m.hashsize → 64 ≤ m.buffer ∧ m.hashRowWidth ≠ 0) ∧
      ∀ m', setDictionary m dict = some m' → GrowsSafely m' dicts

/-- If there is a compressor, it has a coder, and its buffer does not wrap when it is rounded up, or its tables are
too small to be adjusted. -/
def Compresses (m : PackMethod) : Prop :=
  variant m ≠ none → (1 ≤ m.encodingMethod ∧ m.encodingMethod ≤ 4) ∧
    (m.buffer ≤ 2 ^ 32 - 4096 ∨ m.hashsize < 8 ∧ m.auxhashSize < 8)

/-- The fields are machine words. -/
structure PackMethod.Words (m : PackMethod) : Prop where
  buffer_lt : m.buffer < 2 ^ 32
  hashsize_lt : m.hashsize < 2 ^ 32
  auxhashSize_lt : m.auxhashSize < 2 ^ 32
  hashRowWidth_ge : -2 ^ 31 ≤ m.hashRowWidth
  hashRowWidth_lt : m.hashRowWidth < 2 ^ 31

/-- The presets are machine words. -/
lemma words_std : ∀ m ∈ stdTornadoMethod, m.Words := by
  have hbounds : ∀ m ∈ stdTornadoMethod, m.buffer < 2 ^ 32 ∧ m.hashsize < 2 ^ 32 ∧ m.auxhashSize < 2 ^ 32 ∧
      -2 ^ 31 ≤ m.hashRowWidth ∧ m.hashRowWidth < 2 ^ 31 := by decide
  intro m hm
  obtain ⟨h₁, h₂, h₃, h₄, h₅⟩ := hbounds m hm
  exact ⟨h₁, h₂, h₃, h₄, h₅⟩

/-- The default preset is one of the table. -/
lemma default_mem : defaultTornadoMethod ∈ stdTornadoMethod := by decide

/-- A field that is set is a machine word. -/
lemma PackMethod.Words.field {m : PackMethod} (hm : m.Words) {param : List Char} {set : PackMethod → PackMethod}
    (h : parseParam param = some (.field set)) : (set m).Words := by
  have hints : ∀ n : ℕ, -2 ^ 31 ≤ int32 n ∧ int32 n < 2 ^ 31 := fun n => int32_mem n
  obtain ⟨h₁, h₂, h₃, h₄, h₅⟩ := hm
  unfold parseParam at h
  split at h
  case h_10 =>
    split at h
    · cases h
    · obtain ⟨n, hn, hset⟩ := Option.map_eq_some_iff.mp h
      obtain rfl := Setting.field.inj hset
      exact ⟨parseMem_lt hn, h₂, h₃, h₄, h₅⟩
  all_goals
    obtain ⟨n, hn, hset⟩ := Option.map_eq_some_iff.mp h
    obtain rfl := Setting.field.inj hset
    dsimp only
  · exact ⟨parseMem_lt hn, h₂, h₃, h₄, h₅⟩
  · exact ⟨h₁, parseMem_lt hn, h₃, h₄, h₅⟩
  · obtain ⟨hge, hlt⟩ := hints n
    refine ⟨h₁, h₂, h₃, ?_, ?_⟩
    · dsimp only
      exact hge
    · dsimp only
      exact hlt
  · exact ⟨h₁, h₂, h₃, h₄, h₅⟩
  · exact ⟨h₁, h₂, h₃, h₄, h₅⟩
  · exact ⟨h₁, h₂, h₃, h₄, h₅⟩
  · exact ⟨h₁, h₂, h₃, h₄, h₅⟩
  · exact ⟨h₁, h₂, parseMem_lt hn, h₄, h₅⟩
  · exact ⟨h₁, h₂, h₃, h₄, h₅⟩

variable {outside : ℕ → PackMethod} {params : List (List Char)} {m m' : PackMethod} {indices indices' dicts : List ℕ}

/-- The table is indexed with the presets of the parameters. -/
lemma parseParams_indices (h : parseParams outside params m indices = some (m', indices')) :
    indices' = indices ++ params.filterMap presetNumber := by
  induction params generalizing m indices with
  | nil =>
    obtain ⟨-, rfl⟩ := Prod.mk.inj (Option.some.inj h)
    rw [List.filterMap_nil, List.append_nil]
  | cons param params ih =>
    rw [parseParams] at h
    split at h
    · cases h
    · next set hset =>
      rw [ih h, List.filterMap_cons_none]
      rw [presetNumber, hset]
    · next n hn =>
      have hnumber : presetNumber param = some n := by rw [presetNumber, hn]
      rw [ih h, List.filterMap_cons_some hnumber, List.append_assoc, List.singleton_append]

/-- Presets of the table give machine words. -/
lemma PackMethod.Words.parseParams (hm : m.Words) (h : parseParams outside params m indices = some (m', indices'))
    (hinside : ∀ n ∈ indices', n ≤ 11) : m'.Words := by
  induction params generalizing m indices with
  | nil =>
    obtain ⟨rfl, -⟩ := Prod.mk.inj (Option.some.inj h)
    exact hm
  | cons param params ih =>
    have hindices := parseParams_indices h
    rw [Tornado.parseParams] at h
    split at h
    · cases h
    · next set hset => exact ih (hm.field hset) h
    · next n hn =>
      refine ih ?_ h
      have hnumber : presetNumber param = some n := by rw [presetNumber, hn]
      have hle : n ≤ 11 := by
        apply hinside
        rw [hindices, List.filterMap_cons_some hnumber]
        exact List.mem_append_right _ List.mem_cons_self
      have hlt : n < stdTornadoMethod.length := Nat.lt_succ_of_le hle
      rw [List.getElem?_eq_getElem hlt, Option.getD_some]
      exact words_std _ (List.getElem_mem hlt)

/-- When a change of the dictionary has no result. -/
lemma setDictionary_eq_none_iff (hm : m.Words) {dict : ℕ} (hdict : 0 < dict) :
    setDictionary m dict = none ↔
      m.buffer ≤ dict ∧ 1 * mb < m.hashsize ∧ ¬(64 ≤ m.buffer ∧ m.hashRowWidth ≠ 0) := by
  have hge := hm.hashRowWidth_ge
  have hlt := hm.hashRowWidth_lt
  have hrow : uint32 m.hashRowWidth = 0 ↔ m.hashRowWidth = 0 := by
    unfold uint32
    omega
  rw [setDictionary, if_pos hdict]
  by_cases hsmaller : dict < m.buffer
  · rw [if_pos hsmaller]
    exact ⟨nofun, fun h => absurd h.1 (by omega)⟩
  · rw [if_neg hsmaller]
    by_cases hlarge : m.hashsize > 1 * mb
    · rw [if_pos hlarge]
      dsimp only
      by_cases hzero : m.buffer / 64 = 0 ∨ uint32 m.hashRowWidth = 0
      · rw [if_pos hzero]
        rw [hrow] at hzero
        exact ⟨fun _ => ⟨by omega, hlarge, by omega⟩, fun _ => rfl⟩
      · rw [if_neg hzero]
        rw [hrow] at hzero
        exact ⟨nofun, fun h => absurd h.2.2 (by omega)⟩
    · rw [if_neg hlarge]
      exact ⟨nofun, fun h => absurd h.2.1 hlarge⟩

/-- A change of the dictionary keeps machine words. -/
lemma PackMethod.Words.setDictionary (hm : m.Words) {dict : ℕ} (hdict : dict < 2 ^ 32)
    (h : setDictionary m dict = some m') : m'.Words := by
  obtain ⟨h₁, h₂, h₃, h₄, h₅⟩ := hm
  rw [Tornado.setDictionary] at h
  split at h
  · split at h
    · obtain rfl := Option.some.inj h
      refine ⟨hdict, ?_, h₃, h₄, h₅⟩
      dsimp only
      omega
    · split at h
      · dsimp only at h
        split at h
        · cases h
        · obtain rfl := Option.some.inj h
          refine ⟨hdict, ?_, h₃, h₄, h₅⟩
          dsimp only
          exact (Nat.min_le_right _ _).trans_lt (by norm_num)
      · obtain rfl := Option.some.inj h
        exact ⟨hdict, h₂, h₃, h₄, h₅⟩
  · obtain rfl := Option.some.inj h
    exact ⟨h₁, h₂, h₃, h₄, h₅⟩

/-- Several changes of the dictionary keep machine words. -/
lemma PackMethod.Words.setDictionaries (hm : m.Words) (hdicts : ∀ dict ∈ dicts, dict < 2 ^ 32)
    (h : setDictionaries m dicts = some m') : m'.Words := by
  induction dicts generalizing m with
  | nil => exact Option.some.inj h ▸ hm
  | cons dict dicts ih =>
    obtain ⟨m₁, h₁, h⟩ := Option.bind_eq_some_iff.mp h
    exact ih (hm.setDictionary (hdicts dict List.mem_cons_self) h₁)
      (fun d hd => hdicts d (List.mem_cons_of_mem _ hd)) h

/-- The changes of the dictionary have a result if it grows safely. -/
lemma setDictionaries_iff (hm : m.Words) (hdicts : ∀ dict ∈ dicts, 0 < dict ∧ dict < 2 ^ 32) :
    (∃ m', setDictionaries m dicts = some m') ↔ GrowsSafely m dicts := by
  induction dicts generalizing m with
  | nil => exact ⟨fun _ => trivial, fun _ => ⟨m, rfl⟩⟩
  | cons dict dicts ih =>
    obtain ⟨hpos, hlt⟩ := hdicts dict List.mem_cons_self
    have hrest : ∀ d ∈ dicts, 0 < d ∧ d < 2 ^ 32 := fun d hd => hdicts d (List.mem_cons_of_mem _ hd)
    have hnone := setDictionary_eq_none_iff hm hpos
    cases hset : setDictionary m dict with
    | none =>
      have hunsafe := hnone.mp hset
      refine ⟨fun ⟨m', h⟩ => ?_, fun h => absurd (h.1 hunsafe.1 hunsafe.2.1) hunsafe.2.2⟩
      rw [setDictionaries, hset] at h
      cases h
    | some m₁ =>
      have hsafe : m.buffer ≤ dict → 1 * mb < m.hashsize → 64 ≤ m.buffer ∧ m.hashRowWidth ≠ 0 := by
        intro hle hlarge
        by_contra hunsafe
        rw [hnone.mpr ⟨hle, hlarge, hunsafe⟩] at hset
        cases hset
      have hih := ih (hm.setDictionary hlt hset) hrest
      rw [setDictionaries, hset, GrowsSafely]
      constructor
      · intro h
        refine ⟨hsafe, fun m' hm' => ?_⟩
        obtain rfl := Option.some.inj (hset.symm.trans hm')
        exact hih.mp h
      · intro h
        exact hih.mpr (h.2 m₁ hset)

/-- The rounded buffer is empty only if it has wrapped. -/
lemma roundedBuffer_spec {buffer : ℕ} (h : buffer < 2 ^ 32) :
    if buffer ≤ 2 ^ 32 - 4096 then 4096 ≤ roundedBuffer buffer else roundedBuffer buffer = 0 := by
  have hkb : kb = 1024 := rfl
  unfold roundedBuffer
  split <;> omega

/-- When the size of a table can be adjusted. -/
lemma adjustSize_iff {buffer size : ℕ} (hbuffer : buffer = 0 ∨ 4096 ≤ buffer) (hsize : size < 2 ^ 32) :
    (∃ n, adjustSize buffer size = some n) ↔ 4096 ≤ buffer ∨ size < 8 := by
  rw [adjustSize]
  by_cases hlarge : size / 8 > buffer
  · rw [if_pos hlarge, powerBelow]
    by_cases hzero : buffer * 8 % 2 ^ 32 = 0
    · rw [if_pos hzero]
      exact ⟨fun ⟨_, h⟩ => absurd h nofun, fun h => by omega⟩
    · rw [if_neg hzero]
      exact ⟨fun _ => by omega, fun _ => ⟨_, rfl⟩⟩
  · rw [if_neg hlarge]
    exact ⟨fun _ => by omega, fun _ => ⟨_, rfl⟩⟩

/-- When the sizes can be adjusted. -/
lemma adjust_iff (hm : m.Words) :
    (∃ m', adjust m = some m') ↔ m.buffer ≤ 2 ^ 32 - 4096 ∨ m.hashsize < 8 ∧ m.auxhashSize < 8 := by
  have hrounded := roundedBuffer_spec hm.buffer_lt
  have hbuffer : roundedBuffer m.buffer = 0 ∨ 4096 ≤ roundedBuffer m.buffer := by
    split at hrounded
    · exact Or.inr hrounded
    · exact Or.inl hrounded
  have hhash := adjustSize_iff hbuffer hm.hashsize_lt
  have hauxhash := adjustSize_iff hbuffer hm.auxhashSize_lt
  have hwraps : 4096 ≤ roundedBuffer m.buffer ↔ m.buffer ≤ 2 ^ 32 - 4096 := by
    split at hrounded <;> omega
  rw [hwraps] at hhash hauxhash
  have hboth : (∃ m', adjust m = some m') ↔
      (∃ n, adjustSize (roundedBuffer m.buffer) m.hashsize = some n) ∧
      ∃ n, adjustSize (roundedBuffer m.buffer) m.auxhashSize = some n := by
    constructor
    · rintro ⟨m', h⟩
      rw [adjust] at h
      obtain ⟨hashsize, h₁, h⟩ := Option.bind_eq_some_iff.mp h
      obtain ⟨auxhashSize, h₂, -⟩ := Option.bind_eq_some_iff.mp h
      exact ⟨⟨hashsize, h₁⟩, ⟨auxhashSize, h₂⟩⟩
    · rintro ⟨⟨hashsize, h₁⟩, ⟨auxhashSize, h₂⟩⟩
      rw [adjust, h₁, h₂]
      exact ⟨_, rfl⟩
  rw [hboth, hhash, hauxhash]
  omega

/-- Adjusting keeps the method. -/
lemma encodingMethod_adjust (h : adjust m = some m') : m'.encodingMethod = m.encodingMethod := by
  rw [adjust] at h
  obtain ⟨hashsize, -, h⟩ := Option.bind_eq_some_iff.mp h
  obtain ⟨auxhashSize, -, h⟩ := Option.bind_eq_some_iff.mp h
  exact Option.some.inj h ▸ rfl

/-- A compressor whose coder is not chosen when it runs belongs to a method, or to storing. -/
lemma variant_cases {v : Variant} (h : variant m = some v) :
    m.encodingMethod = 0 ∨ (1 ≤ m.encodingMethod ∧ m.encodingMethod ≤ 4) ∨ v.dynamicCoder = true := by
  have hbytecoder : bytecoder = 1 := rfl
  have hbitcoder : bitcoder = 2 := rfl
  have hhufcoder : hufcoder = 3 := rfl
  have haricoder : aricoder = 4 := rfl
  have hstoring : storing = 0 := rfl
  unfold variant at h
  split_ifs at h with h₁ h₂ h₃ h₄ h₅ h₆ h₇ h₈ h₉
  · rcases h₁ with h₁ | h₁
    · exact Or.inr (Or.inl (by omega))
    · exact Or.inl (by omega)
  · exact Or.inr (Or.inl (by omega))
  · exact Or.inr (Or.inl (by omega))
  · exact Or.inr (Or.inl (by omega))
  · exact Or.inr (Or.inl (by omega))
  · exact Or.inr (Or.inl (by omega))
  all_goals exact Or.inr (Or.inr (by rw [← Option.some.inj h]))

/-- Storing has a compressor of its own. -/
lemma variant_storing (h : m.encodingMethod = 0) : variant m = some ⟨4, false⟩ := by
  rw [variant, if_pos (Or.inr h)]

/-- The headers that are accepted are those of the four coders. -/
lemma torDecompress_header {v : Variant} (h : variant m = some v) (hadjust : adjust m = some m') :
    torDecompress (header v m') = true ↔ 1 ≤ m.encodingMethod ∧ m.encodingMethod ≤ 4 := by
  have hmethod := encodingMethod_adjust hadjust
  have hlong : ∀ first : UInt8, torDecompress (first :: .ofNat v.minLength :: put32 m'.buffer) = true ↔
      first = 1 ∨ first = 2 ∨ first = 3 ∨ first = 4 := fun first => decide_eq_true_iff
  rw [header, hmethod]
  by_cases hcoder : 1 ≤ m.encodingMethod ∧ m.encodingMethod ≤ 4
  · obtain ⟨hge, hle⟩ := hcoder
    rw [if_neg (fun hnone => hnone.2 ⟨hge, hle⟩), hlong]
    refine ⟨fun _ => ⟨hge, hle⟩, fun _ => ?_⟩
    interval_cases m.encodingMethod <;> decide
  · refine ⟨fun haccepted => ?_, fun hcoder' => absurd hcoder' hcoder⟩
    rcases variant_cases h with hzero | hcoder' | hdynamic
    · rw [variant_storing hzero] at h
      obtain rfl := Option.some.inj h
      rw [if_neg (fun hnone => absurd hnone.1 (by decide)), hlong, hzero] at haccepted
      exact absurd haccepted (by decide)
    · exact absurd hcoder' hcoder
    · rw [if_pos ⟨hdynamic, hcoder⟩] at haccepted
      exact absurd haccepted (by decide)

/-- What comes out of a compressor is accepted in all surroundings if it has a coder and a buffer. -/
lemma torCompress_iff (hm : m.Words) :
    (∀ env, ∃ r, torCompress m env = some r ∧ r.Accepted) ↔ Compresses m := by
  rw [Compresses]
  cases hvariant : variant m with
  | none =>
    refine ⟨fun _ h => absurd rfl h, fun _ env => ⟨.error ErrCode.invalidCompressor.toInt, ?_, trivial⟩⟩
    rw [torCompress, hvariant]
  | some v =>
    have hadjust := adjust_iff hm
    constructor
    · intro hall _
      -- surroundings in which nothing goes wrong
      obtain ⟨r, hr, haccepted⟩ := hall ⟨true, 0, 0, 0⟩
      rw [torCompress, hvariant] at hr
      obtain ⟨m', hm', hr⟩ := Option.bind_eq_some_iff.mp hr
      obtain rfl := Option.some.inj hr
      exact ⟨(torDecompress_header hvariant hm').mp haccepted, hadjust.mp ⟨m', hm'⟩⟩
    · intro hcompresses env
      obtain ⟨hcoder, hbuffer⟩ := hcompresses (by simp)
      obtain ⟨m', hm'⟩ := hadjust.mpr hbuffer
      have haccepted := (torDecompress_header hvariant hm').mpr hcoder
      rw [torCompress, hvariant]
      dsimp only
      rw [hm', Option.bind_eq_bind, Option.bind_some]
      split
      · exact ⟨_, rfl, trivial⟩
      · split
        · exact ⟨_, rfl, trivial⟩
        · split
          · exact ⟨_, rfl, trivial⟩
          · split
            · exact ⟨_, rfl, trivial⟩
            · exact ⟨_, rfl, haccepted⟩

/-- Preset 3 with a buffer of its own. -/
def presetThree (buffer : ℕ) : PackMethod :=
  ⟨3, hufcoder, true, 2, 128 * kb, 0, buffer, greedy, 0, 0, 999, 0, 0⟩

end DArc.Tornado
