import DArc.Library.Runs
import DArc.SREP.InMemory
import Mathlib.Data.List.GetD

/-!
# The thread that fills the dictionary

A thread in the background reads the blocks of the file into the dictionary, one block ahead of the compressor.  Two
events keep them in step: `ReadDone` tells the compressor that a block can be used, `WriteReady` tells the thread that
the block before is compressed.  Between two events both go on in any order, byte by byte.

### Outline

* `Machine`, `Machine.stepThread`, `Machine.stepMain`: the two parties;
* `Machine.Live`: the bytes of the file that the dictionary still holds;
* `Machine.WindowOk`: what is true of the matches of the block that is compressed;
* `Machine.Inv`, `Machine.Sync`: the invariant, and how far the parties may be apart.

### Main results

* `Machine.Inv.step`: both parties keep the invariant;
* `windowOk_of_reachable`: in every order of steps all matches are true.
-/

namespace DArc.SREP

/-! ## The machine -/

/-- Where the thread is: it reads a block of which it has some bytes, has prepared it and waits for the block before to
be compressed, is about to signal it, writes the block before to the file, or has ended. -/
inductive ThreadAt
  | reading (got : ℕ)
  | prepared
  | signalling
  | saving
  | stopped

/-- Where the compressor is: it waits for a block, searches it, or has ended. -/
inductive MainAt
  | waiting
  | working (search : Search (ℕ → ℕ))
  | stopped

/-- Both parties, with the memory and the events that they share. -/
structure Machine where
  dict : ℕ → UInt8
  bufptr : ℕ → ℕ
  len : ℕ → ℕ
  hashtable : ℕ → List (ℕ × ℕ)
  readDone : Bool
  writeReady : Bool
  errcode : Bool
  pos : ℕ
  bufOffset : ℕ
  i : ℕ
  firstBlock : Bool
  thread : ThreadAt
  k : ℕ
  origsize : ℕ
  hasharr : ℕ → ℕ
  found : List Found
  stat : List ℕ
  main : MainAt

/-- Who goes on; the thread may also fail to write the block before. -/
inductive Turn
  | thread
  | threadFails
  | main
  deriving DecidableEq

/-- An `unsigned` that is passed as an `int` and then as a `size_t`. -/
def sizeOfInt (n : ℕ) : ℕ := if n < 2 ^ 31 then n else n + (2 ^ 64 - 2 ^ 32)

/-- A small number is passed unchanged. -/
lemma sizeOfInt_of_lt {n : ℕ} (h : n < 2 ^ 31) : sizeOfInt n = n := if_pos h

namespace Machine

/-- The machine at first; anything may be in the dictionary. -/
def start (dict : ℕ → UInt8) : Machine where
  dict := dict
  bufptr := fun _ => 0
  len := fun _ => 0
  hashtable := fun _ => []
  readDone := false
  writeReady := false
  errcode := false
  pos := 0
  bufOffset := 0
  i := 1
  firstBlock := true
  thread := .reading 0
  k := 0
  origsize := 0
  hasharr := fun _ => 0
  found := []
  stat := []
  main := .waiting

variable (c : DictionaryCompressor) (data : List UInt8) (filesize : ℕ)

/-- What `run` does when a block has been read: `n` is the result of reading. -/
def finishRead (s : Machine) (n : ℕ) : Machine :=
  let s := { s with
    bufptr := Function.update s.bufptr s.i s.bufOffset
    len := Function.update s.len s.i n }
  if filesize - s.pos < n then { s with errcode := true, readDone := true, thread := .stopped }
  else
    { s with
      hashtable := Function.update s.hashtable s.i
        (c.prepareBuffer (s.hashtable s.i) (fun k => s.dict (s.bufOffset + k)) n)
      thread := if s.firstBlock then .signalling else .prepared }

/-- `run`.  The number of bytes to read is passed as an `int`, and so is the number of those that were read. -/
def stepThread (s : Machine) : Option Machine :=
  match s.thread with
  | .reading got =>
    if got < min (sizeOfInt c.bufsize.toNat) (data.length - s.pos) then
      some { s with
        dict := Function.update s.dict (s.bufOffset + got) (data.getD (s.pos + got) 0)
        thread := .reading (got + 1) }
    else some (s.finishRead c filesize (got % 2 ^ 32))
  | .prepared => if s.writeReady then some { s with writeReady := false, thread := .signalling } else none
  | .signalling => some { s with readDone := true, thread := .saving }
  | .saving =>
    if s.len s.i = 0 then some { s with thread := .stopped }
    else
      some { s with
        pos := s.pos + s.len s.i
        bufOffset := (s.bufOffset + c.bufsize.toNat) % c.dictsize
        i := (s.i + 1) % 2
        firstBlock := false
        thread := .reading 0 }
  | .stopped => none

/-- The thread ends where `save_data` fails. -/
def stepFails (s : Machine) : Option Machine :=
  match s.thread with
  | .saving => if s.firstBlock then none else some { s with thread := .stopped }
  | _ => none

/-- `read`, whose result is an `int`, and what the compressor does with a block. -/
def stepWake (s : Machine) : Option Machine :=
  if s.readDone then
    let k := (s.k + 1) % 2
    let s := { s with readDone := false, k := k }
    if s.errcode ∨ s.len k = 0 then some { s with main := .stopped }
    else
      some { s with
        found := []
        stat := []
        main := .working (c.compress (s.bufptr k) (sizeOfInt (s.len k)) (s.hashtable k) s.hasharr) }
  else none

/-- The loop of the compressor, one byte after another. -/
def stepMain (s : Machine) : Option Machine :=
  match s.main with
  | .waiting => s.stepWake c
  | .working (.done hasharr) =>
    let s := { s with hasharr := hasharr, writeReady := true }
    if s.errcode then some { s with main := .stopped }
    else some { s with origsize := s.origsize + sizeOfInt (s.len s.k), main := .waiting }
  | .working (.read i next) => some { s with main := .working (next (s.dict i)) }
  | .working (.report f next) =>
    match encodeLZMatch false c.baseLen f.litLen f.distance f.len with
    | none => some { s with main := .stopped }
    | some words => some { s with found := s.found ++ [f], stat := s.stat ++ words, main := .working next }
  | .stopped => none

/-- One step of one party. -/
def step (s : Machine) : Turn → Option Machine
  | .thread => s.stepThread c data filesize
  | .threadFails => s.stepFails
  | .main => s.stepMain c

/-! ## What is true of the matches -/

/-- The number of bytes of its block that the thread has. -/
def filled (s : Machine) : ℕ :=
  match s.thread with
  | .reading got => got
  | _ => s.len s.i

/-- A byte of the file was read, and is not where the thread reads the present block to. -/
def Live (s : Machine) (p : ℕ) : Prop := p < s.pos + s.filled ∧ s.pos + c.bufsize.toNat ≤ p + c.dictsize

/-- The dictionary has a byte of the file in its place. -/
def Has (s : Machine) (p : ℕ) : Prop := s.Live c p ∧ data[p]? = some (s.dict (p % c.dictsize))

/-- While a block is compressed, every match that was found is a true one, the dictionary still has all of its source
and of its destination, its distance is what was written, and the byte that is compared next is one that the dictionary
has. -/
structure WindowOk (s : Machine) (search : Search (ℕ → ℕ)) : Prop where
  found_true : ∀ f ∈ s.found, c.TrueFound data s.origsize (s.origsize + s.len s.k) f
  source_has : ∀ f ∈ s.found, ∀ j < f.len, s.Has c data (c.src s.origsize f + j)
  dest_has : ∀ f ∈ s.found, ∀ j < f.len, s.Has c data (c.dest s.origsize f + j)
  written : statRecords false s.stat = s.found.map fun f => ⟨f.litLen, f.distance, f.len - c.baseLen⟩
  reads : ∀ i next, search = .read i next → ∃ p, s.Has c data p ∧ p % c.dictsize = i

end Machine

/-! ## Blocks and their places -/

namespace DictionaryCompressor

variable (c : DictionaryCompressor) (data : List UInt8)

/-- Where a block begins. -/
def blockPos (b : ℕ) : ℕ := min (b * c.bufsize.toNat) data.length

/-- How long a block is. -/
def blockLen (b : ℕ) : ℕ := min c.bufsize.toNat (data.length - c.blockPos data b)

variable {c data} {b : ℕ}

/-- A block ends where the next one begins. -/
lemma blockPos_succ (b : ℕ) : c.blockPos data (b + 1) = c.blockPos data b + c.blockLen data b := by
  have hmul : (b + 1) * c.bufsize.toNat = b * c.bufsize.toNat + c.bufsize.toNat := Nat.succ_mul ..
  unfold blockLen blockPos
  omega

/-- All blocks in front of one that has bytes are full. -/
lemma blockPos_eq (h : 0 < c.blockLen data b) : c.blockPos data b = b * c.bufsize.toNat := by
  unfold blockLen blockPos at h
  unfold blockPos
  omega

/-- A block begins no later than where its place would be. -/
lemma blockPos_le (b : ℕ) : c.blockPos data b ≤ b * c.bufsize.toNat := min_le_left _ _

/-- The dictionary has room for whole blocks, two more than a match may reach back. -/
lemma dictsize_spec (hpos : 0 < c.bufsize.toNat) (hlt : c.bufsize.toNat < 2 ^ 31) :
    c.bufsize.toNat ∣ c.dictsize ∧ c.maxDist + 2 * c.bufsize.toNat ≤ c.dictsize := by
  have hdouble : (2 * c.bufsize).toNat = 2 * c.bufsize.toNat := by
    rw [UInt32.toNat_mul, Nat.mod_eq_of_lt]
    · rfl
    · change 2 * c.bufsize.toNat < 2 ^ 32
      omega
  unfold dictsize
  rw [hdouble]
  set B := c.bufsize.toNat with hB
  have hround : B ∣ roundUpSize c.maxDist B ∧ c.maxDist ≤ roundUpSize c.maxDist B := by
    unfold roundUpSize roundDown
    split_ifs with hcase hone
    · have hdiv := Nat.div_add_mod (c.maxDist - 1) B
      have hmod := Nat.mod_lt (c.maxDist - 1) hpos
      rw [Nat.mul_comm] at hdiv
      exact ⟨Dvd.dvd.add (Dvd.intro_left _ rfl) dvd_rfl, by omega⟩
    · exact absurd hcase.2 hone
    · obtain hzero | hone : c.maxDist = 0 ∨ B = 1 := by
        rw [not_and_or, not_not] at hcase
        exact hcase.imp_right fun h => by omega
      · rw [hzero]
        exact ⟨dvd_zero B, le_rfl⟩
      · rw [hone]
        exact ⟨one_dvd _, le_rfl⟩
  exact ⟨Dvd.dvd.add hround.1 (Dvd.intro_left 2 rfl), by omega⟩

/-- Blocks are in one piece. -/
lemma slot_le {D B : ℕ} (hdvd : B ∣ D) (hD : 0 < D) (b : ℕ) : b * B % D + B ≤ D := by
  obtain ⟨q, rfl⟩ := hdvd
  have hq : 0 < q := Nat.pos_of_ne_zero fun h => by simp [h] at hD
  have hmod : b % q < q := Nat.mod_lt b hq
  rw [Nat.mul_comm b B, Nat.mul_mod_mul_left, ← Nat.mul_succ]
  exact Nat.mul_le_mul_left B hmod

/-- The dictionary has the bytes of the file from `lo`, less one lap, to `hi`. -/
def Kept (c : DictionaryCompressor) (data : List UInt8) (dict : ℕ → UInt8) (lo hi : ℕ) : Prop :=
  ∀ p, lo ≤ p + c.dictsize → p < hi → data[p]? = some (dict (p % c.dictsize))

/-- Two bytes of the file with the same place are a lap apart. -/
lemma lap_le {D p q : ℕ} (h : p % D = q % D) (hlt : p < q) : p + D ≤ q := by
  have hmod : D ∣ q - p := (Nat.modEq_iff_dvd' hlt.le).mp h
  have hle := Nat.le_of_dvd (Nat.sub_pos_of_lt hlt) hmod
  omega

/-- **The next byte** of a block is read: it takes the place of one that need not be kept. -/
lemma Kept.write {dict : ℕ → UInt8} {got : ℕ} (hdvd : c.bufsize.toNat ∣ c.dictsize) (hD : 0 < c.dictsize)
    (h : c.Kept data dict ((b + 1) * c.bufsize.toNat) (c.blockPos data b + got)) (hgot : got < c.blockLen data b) :
    c.Kept data (Function.update dict (b * c.bufsize.toNat % c.dictsize + got)
      (data.getD (c.blockPos data b + got) 0)) ((b + 1) * c.bufsize.toNat) (c.blockPos data b + (got + 1)) := by
  have hpos := blockPos_eq (Nat.zero_lt_of_lt hgot)
  have hslot := slot_le hdvd hD b
  have hgotB : got < c.bufsize.toNat := hgot.trans_le (min_le_left _ _)
  have hgotData : c.blockPos data b + got < data.length := by
    have hle : c.blockLen data b ≤ data.length - c.blockPos data b := min_le_right _ _
    omega
  have hmul : (b + 1) * c.bufsize.toNat = b * c.bufsize.toNat + c.bufsize.toNat := Nat.succ_mul ..
  have hplace : (c.blockPos data b + got) % c.dictsize = b * c.bufsize.toNat % c.dictsize + got := by
    rw [hpos, ← Nat.mod_add_mod, Nat.mod_eq_of_lt (by omega)]
  intro p hlo hhi
  obtain hp | rfl := Nat.lt_or_eq_of_le (Nat.le_of_lt_succ (by omega : p < c.blockPos data b + got + 1))
  · have hne : p % c.dictsize ≠ b * c.bufsize.toNat % c.dictsize + got := fun heq => by
      have hlap := lap_le (heq.trans hplace.symm) hp
      omega
    rw [Function.update_of_ne hne]
    exact h p hlo hp
  · rw [hplace, Function.update_self, List.getElem?_eq_getElem hgotData, List.getD_eq_getElem _ _ hgotData]

/-- What is kept while the next block is read has the window of a block. -/
lemma Kept.window {dict : ℕ → UInt8} {j hi p : ℕ} (hsize : c.maxDist + 2 * c.bufsize.toNat ≤ c.dictsize)
    (h : c.Kept data dict ((b + 1) * c.bufsize.toNat) hi) (hb : b ≤ j + 1) (hj : 0 < c.blockLen data j)
    (hle : c.blockPos data j ≤ p + c.maxDist) (hp : p < hi) :
    data[p]? = some (dict (p % c.dictsize)) ∧ (b + 1) * c.bufsize.toNat ≤ p + c.dictsize := by
  have hpos := blockPos_eq hj
  have hmono : (b + 1) * c.bufsize.toNat ≤ (j + 2) * c.bufsize.toNat := Nat.mul_le_mul_right _ (by omega)
  have hmul : (j + 2) * c.bufsize.toNat = j * c.bufsize.toNat + 2 * c.bufsize.toNat := Nat.add_mul ..
  have hlo : (b + 1) * c.bufsize.toNat ≤ p + c.dictsize := by omega
  exact ⟨h p hlo hp, hlo⟩

end DictionaryCompressor

/-! ## The invariant -/

namespace ThreadAt

/-- The thread has not seen that the block before is compressed. -/
def Ahead : ThreadAt → Prop
  | .reading _ | .prepared => True
  | _ => False

/-- The thread has signalled its block. -/
def Behind : ThreadAt → Prop
  | .saving | .stopped => True
  | _ => False

end ThreadAt

namespace Machine

variable (c : DictionaryCompressor) (data : List UInt8)

/-- The place and the length of a block are noted. -/
def Slot (s : Machine) (b : ℕ) : Prop :=
  s.bufptr ((b + 1) % 2) = b * c.bufsize.toNat % c.dictsize ∧ s.len ((b + 1) % 2) = c.blockLen data b

/-- The thread is at block `b`. -/
structure ThreadOk (s : Machine) (b : ℕ) : Prop where
  pos_eq : s.pos = c.blockPos data b
  off_eq : s.bufOffset = b * c.bufsize.toNat % c.dictsize
  i_eq : s.i = (b + 1) % 2
  first_iff : s.firstBlock = true ↔ b = 0
  filled_le : s.filled ≤ c.blockLen data b
  kept : c.Kept data s.dict ((b + 1) * c.bufsize.toNat) (s.pos + s.filled)
  slot : (∀ got, s.thread ≠ .reading got) → s.Slot c data b
  before : ∀ b', b = b' + 1 → s.Slot c data b'
  positive : ∀ b' < b, 0 < c.blockLen data b'
  tables : ∀ x, ∀ part ∈ s.hashtable x, part.2 < c.L

/-- The compressor searches block `j`. -/
structure Working (s : Machine) (j : ℕ) (search : Search (ℕ → ℕ)) : Prop where
  positive : 0 < c.blockLen data j
  len_eq : s.len s.k = c.blockLen data j
  safe : search.Safe s.dict (c.window (c.blockPos data j) (c.blockPos data j + c.blockLen data j))
    (c.TrueFound data (c.blockPos data j) (c.blockPos data j + c.blockLen data j))
    (c.TableOk (c.blockPos data j + c.blockLen data j))
  found_true : ∀ f ∈ s.found, c.TrueFound data (c.blockPos data j) (c.blockPos data j + c.blockLen data j) f
  stat_eq : s.stat = s.found.flatMap fun f => wordsOf false c.baseLen f.litLen f.distance f.len

/-- The compressor waits for block `j`, or searches it. -/
def MainOk (s : Machine) (j : ℕ) : Prop :=
  match s.main with
  | .waiting => s.k = j % 2 ∧ s.origsize = c.blockPos data j ∧ c.TableOk (c.blockPos data j) s.hasharr
  | .working search => s.k = (j + 1) % 2 ∧ s.origsize = c.blockPos data j ∧ s.Working c data j search
  | .stopped => True

/-- How far the thread at block `b` and the compressor at block `j` may be apart, and what the events tell. -/
inductive Sync (s : Machine) : ℕ → ℕ → Prop
  | begins (th : ∃ got, s.thread = .reading got) (main : s.main = .waiting)
    (flags : s.readDone = false ∧ s.writeReady = false ∧ s.errcode = false) : Sync s 0 0
  | posted {j : ℕ} (th : s.thread.Ahead) (main : s.main = .waiting)
    (flags : s.readDone = true ∧ s.writeReady = false ∧ s.errcode = false) : Sync s (j + 1) j
  | busy {j : ℕ} {search : Search (ℕ → ℕ)} (th : s.thread.Ahead) (main : s.main = .working search)
    (flags : s.readDone = false ∧ s.writeReady = false ∧ s.errcode = false) : Sync s (j + 1) j
  | ready {b : ℕ} (th : s.thread.Ahead) (main : s.main = .waiting)
    (flags : s.readDone = false ∧ s.writeReady = true ∧ s.errcode = false) : Sync s (b + 1) (b + 1)
  | waited {b : ℕ} (th : s.thread = .signalling) (main : s.main = .waiting)
    (flags : s.readDone = false ∧ s.writeReady = false ∧ s.errcode = false) : Sync s b b
  | signalled {b : ℕ} (th : s.thread.Behind) (main : s.main = .waiting)
    (flags : s.readDone = true ∧ s.writeReady = false ∧ s.errcode = false) : Sync s b b
  | follows {b : ℕ} {search : Search (ℕ → ℕ)} (th : s.thread.Behind) (main : s.main = .working search)
    (flags : s.readDone = false ∧ s.writeReady = false ∧ s.errcode = false) : Sync s b b
  | overtakes {b : ℕ} (th : s.thread.Behind) (main : s.main = .waiting)
    (flags : s.readDone = false ∧ s.writeReady = true ∧ s.errcode = false) : Sync s b (b + 1)
  | failed {b j : ℕ} (th : s.thread = .stopped) (err : s.errcode = true) (hle : j ≤ b) (hnear : b ≤ j + 1) : Sync s b j
  | ended {b j : ℕ} (main : s.main = .stopped) : Sync s b j

/-- The invariant. -/
structure Inv (s : Machine) (b j : ℕ) : Prop where
  thread_ok : s.ThreadOk c data b
  main_ok : s.MainOk c data j
  sync : s.Sync b j

variable {c data} {filesize b j : ℕ} {s s' : Machine}

/-- The machine starts with the invariant. -/
lemma inv_start (dict : ℕ → UInt8) : (start dict).Inv c data 0 0 where
  thread_ok := {
    pos_eq := by
      unfold start DictionaryCompressor.blockPos
      rw [Nat.zero_mul, Nat.zero_min]
    off_eq := by
      unfold start
      rw [Nat.zero_mul, Nat.zero_mod]
    i_eq := rfl
    first_iff := ⟨fun _ => rfl, fun _ => rfl⟩
    filled_le := Nat.zero_le _
    kept := fun p _ hp => absurd hp (Nat.not_lt_zero p)
    slot := fun h => absurd rfl (h 0)
    before := fun b' h => nomatch h
    positive := fun b' h => absurd h (Nat.not_lt_zero b')
    tables := fun x part hmem => absurd hmem List.not_mem_nil }
  main_ok := by
    refine ⟨rfl, ?_, fun hash => .inl rfl⟩
    unfold start DictionaryCompressor.blockPos
    rw [Nat.zero_mul, Nat.zero_min]
  sync := .begins ⟨0, rfl⟩ rfl ⟨rfl, rfl, rfl⟩

/-- What the thread does to the memory that the compressor does not use does not matter to it. -/
lemma MainOk.of_thread (h : s.MainOk c data j) (hmain : s'.main = s.main) (hk : s'.k = s.k)
    (horig : s'.origsize = s.origsize) (hhash : s'.hasharr = s.hasharr) (hfound : s'.found = s.found)
    (hstat : s'.stat = s.stat)
    (hwork : ∀ search, s.main = .working search → s'.len s.k = s.len s.k ∧
      ∀ x ∈ c.window (c.blockPos data j) (c.blockPos data j + c.blockLen data j), s'.dict x = s.dict x) :
    s'.MainOk c data j := by
  unfold MainOk at h ⊢
  rw [hmain]
  split
  · rename_i hwait
    rw [hwait] at h
    rw [hk, horig, hhash]
    exact h
  · rename_i search hsearch
    rw [hsearch] at h
    obtain ⟨hlen, hdict⟩ := hwork search hsearch
    obtain ⟨hk', horig', hw⟩ := h
    refine ⟨by rw [hk]; exact hk', by rw [horig]; exact horig', ?_⟩
    exact {
      positive := hw.positive
      len_eq := by rw [hk, hlen]; exact hw.len_eq
      safe := hw.safe.congr hdict
      found_true := by rw [hfound]; exact hw.found_true
      stat_eq := by rw [hstat, hfound]; exact hw.stat_eq }
  · trivial

/-- Where both parties are at work, the thread is at most one block ahead. -/
lemma Sync.near (h : s.Sync b j) {search : Search (ℕ → ℕ)} (hmain : s.main = .working search) :
    j ≤ b ∧ b ≤ j + 1 := by
  cases h with
  | begins th main flags => rw [main] at hmain; cases hmain
  | posted th main flags => rw [main] at hmain; cases hmain
  | busy th main flags => omega
  | ready th main flags => omega
  | waited th main flags => omega
  | signalled th main flags => omega
  | follows th main flags => omega
  | overtakes th main flags => rw [main] at hmain; cases hmain
  | failed th err hle hnear => exact ⟨hle, hnear⟩
  | ended main => rw [main] at hmain; cases hmain

/-- A thread that reads while the compressor is at work reads the next block. -/
lemma Sync.next_of_reading (h : s.Sync b j) {got : ℕ} (hth : s.thread = .reading got) {search : Search (ℕ → ℕ)}
    (hmain : s.main = .working search) : b = j + 1 := by
  cases h with
  | begins th main flags => rw [main] at hmain; cases hmain
  | posted th main flags => rfl
  | busy th main flags => rfl
  | ready th main flags => rw [main] at hmain; cases hmain
  | waited th main flags => rw [th] at hth; cases hth
  | signalled th main flags => rw [hth] at th; exact th.elim
  | follows th main flags => rw [hth] at th; exact th.elim
  | overtakes th main flags => rw [hth] at th; exact th.elim
  | failed th err hle hnear => rw [th] at hth; cases hth
  | ended main => rw [main] at hmain; cases hmain

/-! ## Steps of the thread -/

/-- The next byte of a block is read. -/
lemma Inv.read_byte (h : s.Inv c data b j) (hB : c.bufsize.toNat < 2 ^ 31) {got : ℕ} (hth : s.thread = .reading got)
    (hgot : got < min c.bufsize.toNat (data.length - s.pos)) :
    Inv c data { s with
      dict := Function.update s.dict (s.bufOffset + got) (data.getD (s.pos + got) 0)
      thread := .reading (got + 1) } b j := by
  obtain ⟨hT, hM, hS⟩ := h
  have hfilled : s.filled = got := by
    unfold filled
    rw [hth]
  have hlen : got < c.blockLen data b := by rwa [hT.pos_eq] at hgot
  have hBpos : 0 < c.bufsize.toNat := (Nat.zero_lt_of_lt hgot).trans_le (min_le_left _ _)
  obtain ⟨hdvd, hsize⟩ := DictionaryCompressor.dictsize_spec hBpos hB
  have hD : 0 < c.dictsize := by omega
  have hkept := hT.kept
  rw [hfilled, hT.pos_eq] at hkept
  refine ⟨?_, ?_, ?_⟩
  · exact {
      pos_eq := hT.pos_eq
      off_eq := hT.off_eq
      i_eq := hT.i_eq
      first_iff := hT.first_iff
      filled_le := hlen
      kept := by
        change c.Kept data (Function.update s.dict (s.bufOffset + got) (data.getD (s.pos + got) 0)) _ (s.pos + (got + 1))
        rw [hT.pos_eq, hT.off_eq]
        exact hkept.write hdvd hD hlen
      slot := fun hne => absurd rfl (hne (got + 1))
      before := hT.before
      positive := hT.positive
      tables := hT.tables }
  · refine hM.of_thread rfl rfl rfl rfl rfl rfl fun search hmain => ⟨rfl, ?_⟩
    -- The byte takes the place of one that is not in the window.
    obtain rfl := hS.next_of_reading hth hmain
    rintro x ⟨p, hle, hlt, rfl⟩
    have hj := hT.positive j (Nat.lt_succ_self j)
    rw [← DictionaryCompressor.blockPos_succ] at hlt
    obtain ⟨-, hlo⟩ := hkept.window hsize le_rfl hj hle (p := p) (by omega)
    have hpos := DictionaryCompressor.blockPos_eq (Nat.zero_lt_of_lt hlen)
    have hslot := DictionaryCompressor.slot_le hdvd hD (j + 1)
    have hgotB : got < c.bufsize.toNat := hlen.trans_le (min_le_left _ _)
    have hmul : (j + 1 + 1) * c.bufsize.toNat = (j + 1) * c.bufsize.toNat + c.bufsize.toNat := Nat.succ_mul ..
    have hplace : (c.blockPos data (j + 1) + got) % c.dictsize =
        (j + 1) * c.bufsize.toNat % c.dictsize + got := by
      rw [hpos, ← Nat.mod_add_mod, Nat.mod_eq_of_lt (by omega)]
    refine Function.update_of_ne (fun heq => ?_) _ _
    rw [hT.off_eq] at heq
    have hlap := DictionaryCompressor.lap_le (heq.trans hplace.symm) (by omega)
    omega
  · cases hS with
    | begins th main flags => exact .begins ⟨got + 1, rfl⟩ main flags
    | posted th main flags => exact .posted trivial main flags
    | busy th main flags => exact .busy trivial main flags
    | ready th main flags => exact .ready trivial main flags
    | waited th main flags => rw [th] at hth; cases hth
    | signalled th main flags => rw [hth] at th; exact th.elim
    | follows th main flags => rw [hth] at th; exact th.elim
    | overtakes th main flags => rw [hth] at th; exact th.elim
    | failed th err hle hnear => rw [th] at hth; cases hth
    | ended main => exact .ended main

/-- The facts about the thread's place where its block is complete. -/
lemma ThreadOk.finish (hT : s.ThreadOk c data b) {got : ℕ} (hth : s.thread = .reading got)
    (hgot : ¬got < min c.bufsize.toNat (data.length - s.pos)) {th' : ThreadAt} (hth' : ∀ got', th' ≠ .reading got')
    {tables : ℕ → List (ℕ × ℕ)} (htables : ∀ x, ∀ part ∈ tables x, part.2 < c.L) (rd err : Bool) :
    ThreadOk c data { s with
      bufptr := Function.update s.bufptr s.i s.bufOffset
      len := Function.update s.len s.i got
      hashtable := tables
      readDone := rd
      errcode := err
      thread := th' } b := by
  have hfilled : s.filled = got := by
    unfold filled
    rw [hth]
  have hle := hT.filled_le
  have hkept := hT.kept
  rw [hfilled] at hle hkept
  have hlen : got = c.blockLen data b := by
    rw [hT.pos_eq] at hgot
    exact le_antisymm hle (not_lt.mp hgot)
  have hfilled' : filled { s with
      bufptr := Function.update s.bufptr s.i s.bufOffset
      len := Function.update s.len s.i got
      hashtable := tables
      readDone := rd
      errcode := err
      thread := th' } = got := by
    unfold filled
    cases th' with
    | reading got' => exact absurd rfl (hth' got')
    | prepared => exact Function.update_self ..
    | signalling => exact Function.update_self ..
    | saving => exact Function.update_self ..
    | stopped => exact Function.update_self ..
  exact {
    pos_eq := hT.pos_eq
    off_eq := hT.off_eq
    i_eq := hT.i_eq
    first_iff := hT.first_iff
    filled_le := hfilled'.trans_le hle
    kept := by
      rw [hfilled']
      exact hkept
    slot := fun _ => by
      unfold Slot
      dsimp only
      rw [← hT.i_eq, Function.update_self, Function.update_self]
      exact ⟨hT.off_eq, hlen⟩
    before := fun b' hb' => by
      have hne : (b' + 1) % 2 ≠ s.i := by
        rw [hT.i_eq]
        omega
      unfold Slot
      dsimp only
      rw [Function.update_of_ne hne, Function.update_of_ne hne]
      exact hT.before b' hb'
    positive := hT.positive
    tables := htables }

/-- A block is complete. -/
lemma Inv.finishRead (h : s.Inv c data b j) {got : ℕ} (hth : s.thread = .reading got)
    (hgot : ¬got < min c.bufsize.toNat (data.length - s.pos)) : (s.finishRead c filesize got).Inv c data b j := by
  obtain ⟨hT, hM, hS⟩ := h
  have hother : ∀ search, s.main = .working search →
      Function.update s.len s.i got s.k = s.len s.k := fun search hmain => by
    obtain rfl := hS.next_of_reading hth hmain
    unfold MainOk at hM
    rw [hmain] at hM
    refine Function.update_of_ne (fun heq => ?_) _ _
    rw [hM.1, hT.i_eq] at heq
    omega
  unfold Machine.finishRead
  dsimp only
  split_ifs with hlarge hfirst
  · refine ⟨hT.finish hth hgot (by rintro got' ⟨⟩) hT.tables true true, ?_, ?_⟩
    · exact hM.of_thread rfl rfl rfl rfl rfl rfl fun search hmain => ⟨hother search hmain, fun _ _ => rfl⟩
    · cases hS with
      | begins th main flags => exact .failed rfl rfl le_rfl (Nat.zero_le _)
      | posted th main flags => exact .failed rfl rfl (Nat.le_succ _) le_rfl
      | busy th main flags => exact .failed rfl rfl (Nat.le_succ _) le_rfl
      | ready th main flags => exact .failed rfl rfl le_rfl (Nat.le_succ _)
      | waited th main flags => exact .failed rfl rfl le_rfl (Nat.le_succ _)
      | signalled th main flags => exact .failed rfl rfl le_rfl (Nat.le_succ _)
      | follows th main flags => exact .failed rfl rfl le_rfl (Nat.le_succ _)
      | overtakes th main flags => rw [hth] at th; exact th.elim
      | failed th err hle hnear => exact .failed rfl rfl hle hnear
      | ended main => exact .ended main
  all_goals
    have htables : ∀ x, ∀ part ∈ Function.update s.hashtable s.i
        (c.prepareBuffer (s.hashtable s.i) (fun k => s.dict (s.bufOffset + k)) got) x, part.2 < c.L := by
      intro x
      obtain rfl | hne := eq_or_ne x s.i
      · rw [Function.update_self]
        exact DictionaryCompressor.prepareBuffer_lt (hT.tables _) _ _
      · rw [Function.update_of_ne hne]
        exact hT.tables x
  · have hb : b = 0 := hT.first_iff.mp hfirst
    refine ⟨hT.finish hth hgot (by rintro got' ⟨⟩) htables s.readDone s.errcode, ?_, ?_⟩
    · exact hM.of_thread rfl rfl rfl rfl rfl rfl fun search hmain => ⟨hother search hmain, fun _ _ => rfl⟩
    · cases hS with
      | begins th main flags => exact .waited rfl main flags
      | posted th main flags => exact absurd hb (Nat.succ_ne_zero _)
      | busy th main flags => exact absurd hb (Nat.succ_ne_zero _)
      | ready th main flags => exact absurd hb (Nat.succ_ne_zero _)
      | waited th main flags => rw [th] at hth; cases hth
      | signalled th main flags => rw [hth] at th; exact th.elim
      | follows th main flags => rw [hth] at th; exact th.elim
      | overtakes th main flags => rw [hth] at th; exact th.elim
      | failed th err hle hnear => rw [th] at hth; cases hth
      | ended main => exact .ended main
  · have hb : b ≠ 0 := fun h => hfirst (hT.first_iff.mpr h)
    refine ⟨hT.finish hth hgot (by rintro got' ⟨⟩) htables s.readDone s.errcode, ?_, ?_⟩
    · exact hM.of_thread rfl rfl rfl rfl rfl rfl fun search hmain => ⟨hother search hmain, fun _ _ => rfl⟩
    · cases hS with
      | begins th main flags => exact absurd rfl hb
      | posted th main flags => exact .posted trivial main flags
      | busy th main flags => exact .busy trivial main flags
      | ready th main flags => exact .ready trivial main flags
      | waited th main flags => rw [th] at hth; cases hth
      | signalled th main flags => rw [hth] at th; exact th.elim
      | follows th main flags => rw [hth] at th; exact th.elim
      | overtakes th main flags => rw [hth] at th; exact th.elim
      | failed th err hle hnear => rw [th] at hth; cases hth
      | ended main => exact .ended main

/-- The thread goes on without reading, at the same block. -/
lemma ThreadOk.go (hT : s.ThreadOk c data b) (hth : ∀ got, s.thread ≠ .reading got) {th' : ThreadAt}
    (hth' : ∀ got, th' ≠ .reading got) (rd wr : Bool) :
    ThreadOk c data { s with readDone := rd, writeReady := wr, thread := th' } b := by
  have hfilled : s.filled = s.len s.i := by
    unfold filled
    split
    · rename_i got hgot
      exact absurd hgot (hth got)
    · rfl
  have hfilled' : filled { s with readDone := rd, writeReady := wr, thread := th' } = s.len s.i := by
    unfold filled
    cases th' with
    | reading got => exact absurd rfl (hth' got)
    | prepared => rfl
    | signalling => rfl
    | saving => rfl
    | stopped => rfl
  rw [← hfilled] at hfilled'
  exact {
    pos_eq := hT.pos_eq
    off_eq := hT.off_eq
    i_eq := hT.i_eq
    first_iff := hT.first_iff
    filled_le := hfilled'.trans_le hT.filled_le
    kept := by
      rw [hfilled']
      exact hT.kept
    slot := fun _ => hT.slot hth
    before := hT.before
    positive := hT.positive
    tables := hT.tables }

/-- The thread sees that the block before is compressed. -/
lemma Inv.wait (h : s.Inv c data b j) (hth : s.thread = .prepared) (hready : s.writeReady = true) :
    Inv c data { s with writeReady := false, thread := .signalling } b j := by
  obtain ⟨hT, hM, hS⟩ := h
  refine ⟨hT.go (by rw [hth]; rintro got ⟨⟩) (by rintro got ⟨⟩) s.readDone false, ?_, ?_⟩
  · exact hM.of_thread rfl rfl rfl rfl rfl rfl fun search hmain => ⟨rfl, fun _ _ => rfl⟩
  · cases hS with
    | begins th main flags => rw [hready] at flags; cases flags.2.1
    | posted th main flags => rw [hready] at flags; cases flags.2.1
    | busy th main flags => rw [hready] at flags; cases flags.2.1
    | ready th main flags => exact .waited rfl main ⟨flags.1, rfl, flags.2.2⟩
    | waited th main flags => rw [th] at hth; cases hth
    | signalled th main flags => rw [hth] at th; exact th.elim
    | follows th main flags => rw [hth] at th; exact th.elim
    | overtakes th main flags => rw [hth] at th; exact th.elim
    | failed th err hle hnear => rw [th] at hth; cases hth
    | ended main => exact .ended main

/-- The thread signals its block. -/
lemma Inv.signal (h : s.Inv c data b j) (hth : s.thread = .signalling) :
    Inv c data { s with readDone := true, thread := .saving } b j := by
  obtain ⟨hT, hM, hS⟩ := h
  refine ⟨hT.go (by rw [hth]; rintro got ⟨⟩) (by rintro got ⟨⟩) true s.writeReady, ?_, ?_⟩
  · exact hM.of_thread rfl rfl rfl rfl rfl rfl fun search hmain => ⟨rfl, fun _ _ => rfl⟩
  · cases hS with
    | begins th main flags => obtain ⟨got, th⟩ := th; rw [th] at hth; cases hth
    | posted th main flags => rw [hth] at th; exact th.elim
    | busy th main flags => rw [hth] at th; exact th.elim
    | ready th main flags => rw [hth] at th; exact th.elim
    | waited th main flags => exact .signalled trivial main ⟨rfl, flags.2⟩
    | signalled th main flags => rw [hth] at th; exact th.elim
    | follows th main flags => rw [hth] at th; exact th.elim
    | overtakes th main flags => rw [hth] at th; exact th.elim
    | failed th err hle hnear => rw [th] at hth; cases hth
    | ended main => exact .ended main

/-- The thread ends after it has signalled its block. -/
lemma Inv.stop (h : s.Inv c data b j) (hth : s.thread = .saving) : Inv c data { s with thread := .stopped } b j := by
  obtain ⟨hT, hM, hS⟩ := h
  refine ⟨hT.go (by rw [hth]; rintro got ⟨⟩) (by rintro got ⟨⟩) s.readDone s.writeReady, ?_, ?_⟩
  · exact hM.of_thread rfl rfl rfl rfl rfl rfl fun search hmain => ⟨rfl, fun _ _ => rfl⟩
  · cases hS with
    | begins th main flags => obtain ⟨got, th⟩ := th; rw [th] at hth; cases hth
    | posted th main flags => rw [hth] at th; exact th.elim
    | busy th main flags => rw [hth] at th; exact th.elim
    | ready th main flags => rw [hth] at th; exact th.elim
    | waited th main flags => rw [th] at hth; cases hth
    | signalled th main flags => exact .signalled trivial main flags
    | follows th main flags => exact .follows trivial main flags
    | overtakes th main flags => exact .overtakes trivial main flags
    | failed th err hle hnear => exact .failed rfl err hle hnear
    | ended main => exact .ended main

/-- The thread goes on to the next block. -/
lemma Inv.next_block (h : s.Inv c data b j) (hth : s.thread = .saving) (hlen : s.len s.i ≠ 0) :
    Inv c data { s with
      pos := s.pos + s.len s.i
      bufOffset := (s.bufOffset + c.bufsize.toNat) % c.dictsize
      i := (s.i + 1) % 2
      firstBlock := false
      thread := .reading 0 } (b + 1) j := by
  obtain ⟨hT, hM, hS⟩ := h
  have hslot := hT.slot (by rw [hth]; rintro got ⟨⟩)
  have hlenEq : s.len s.i = c.blockLen data b := by
    rw [hT.i_eq]
    exact hslot.2
  have hfilled : s.filled = s.len s.i := by
    unfold filled
    rw [hth]
  have hmul : (b + 1) * c.bufsize.toNat = b * c.bufsize.toNat + c.bufsize.toNat := Nat.succ_mul ..
  have hmul' : (b + 1 + 1) * c.bufsize.toNat = (b + 1) * c.bufsize.toNat + c.bufsize.toNat := Nat.succ_mul ..
  refine ⟨?_, ?_, ?_⟩
  · exact {
      pos_eq := by
        change s.pos + s.len s.i = _
        rw [DictionaryCompressor.blockPos_succ, hT.pos_eq, hlenEq]
      off_eq := by
        change (s.bufOffset + c.bufsize.toNat) % c.dictsize = _
        rw [hT.off_eq, Nat.mod_add_mod, hmul]
      i_eq := by
        change (s.i + 1) % 2 = _
        rw [hT.i_eq, Nat.mod_add_mod]
      first_iff := ⟨Bool.noConfusion, fun h => absurd h (Nat.succ_ne_zero b)⟩
      filled_le := Nat.zero_le _
      kept := fun p hlo hp => by
        refine hT.kept p (by omega) ?_
        rw [hfilled]
        exact hp
      slot := fun hne => absurd rfl (hne 0)
      before := fun b' hb' => by
        obtain rfl := Nat.succ.inj hb'
        exact hslot
      positive := fun b' hb' => by
        obtain hlt | rfl := Nat.lt_or_eq_of_le (Nat.le_of_lt_succ hb')
        · exact hT.positive b' hlt
        · rw [← hlenEq]
          exact Nat.pos_of_ne_zero hlen
      tables := hT.tables }
  · exact hM.of_thread rfl rfl rfl rfl rfl rfl fun search hmain => ⟨rfl, fun _ _ => rfl⟩
  · cases hS with
    | begins th main flags => obtain ⟨got, th⟩ := th; rw [th] at hth; cases hth
    | posted th main flags => rw [hth] at th; exact th.elim
    | busy th main flags => rw [hth] at th; exact th.elim
    | ready th main flags => rw [hth] at th; exact th.elim
    | waited th main flags => rw [th] at hth; cases hth
    | signalled th main flags => exact .posted trivial main flags
    | follows th main flags => exact .busy trivial main flags
    | overtakes th main flags => exact .ready trivial main flags
    | failed th err hle hnear => rw [th] at hth; cases hth
    | ended main => exact .ended main

/-- The thread keeps the invariant. -/
lemma Inv.step_thread (h : s.Inv c data b j) (hB : c.bufsize.toNat < 2 ^ 31)
    (hstep : s.stepThread c data filesize = some s') : ∃ b', s'.Inv c data b' j := by
  unfold stepThread at hstep
  split at hstep
  · rename_i got hth
    rw [sizeOfInt_of_lt hB] at hstep
    split_ifs at hstep with hgot
    · obtain rfl := Option.some.inj hstep
      exact ⟨b, h.read_byte hB hth hgot⟩
    · have hle : got ≤ c.blockLen data b := by
        have hfilled := h.thread_ok.filled_le
        unfold filled at hfilled
        rwa [hth] at hfilled
      have hshort : c.blockLen data b ≤ c.bufsize.toNat := min_le_left _ _
      have hmod : got % 2 ^ 32 = got := Nat.mod_eq_of_lt (by omega)
      rw [hmod] at hstep
      obtain rfl := Option.some.inj hstep
      exact ⟨b, h.finishRead hth hgot⟩
  · rename_i hth
    split_ifs at hstep with hready
    obtain rfl := Option.some.inj hstep
    exact ⟨b, h.wait hth hready⟩
  · rename_i hth
    obtain rfl := Option.some.inj hstep
    exact ⟨b, h.signal hth⟩
  · rename_i hth
    split_ifs at hstep with hlen
    · obtain rfl := Option.some.inj hstep
      exact ⟨b, h.stop hth⟩
    · obtain rfl := Option.some.inj hstep
      exact ⟨b + 1, h.next_block hth hlen⟩
  · cases hstep

/-- The thread keeps the invariant where it fails. -/
lemma Inv.step_fails (h : s.Inv c data b j) (hstep : s.stepFails = some s') : s'.Inv c data b j := by
  unfold stepFails at hstep
  split at hstep
  · rename_i hth
    split_ifs at hstep with hfirst
    obtain rfl := Option.some.inj hstep
    exact h.stop hth
  · cases hstep

/-! ## Steps of the compressor -/

/-- The thread's facts do not depend on the compressor. -/
lemma ThreadOk.of_main (hT : s.ThreadOk c data b) (hdict : s'.dict = s.dict) (hbufptr : s'.bufptr = s.bufptr)
    (hlen : s'.len = s.len) (htable : s'.hashtable = s.hashtable) (hpos : s'.pos = s.pos)
    (hoff : s'.bufOffset = s.bufOffset) (hi : s'.i = s.i) (hfirst : s'.firstBlock = s.firstBlock)
    (hth : s'.thread = s.thread) : s'.ThreadOk c data b := by
  have hfilled : s'.filled = s.filled := by
    unfold filled
    rw [hth, hlen, hi]
  have hslot : ∀ b', s'.Slot c data b' ↔ s.Slot c data b' := fun b' => by
    unfold Slot
    rw [hbufptr, hlen]
  exact {
    pos_eq := hpos.trans hT.pos_eq
    off_eq := hoff.trans hT.off_eq
    i_eq := hi.trans hT.i_eq
    first_iff := by
      rw [hfirst]
      exact hT.first_iff
    filled_le := hfilled.trans_le hT.filled_le
    kept := by
      rw [hdict, hpos, hfilled]
      exact hT.kept
    slot := fun hne => (hslot b).mpr (hT.slot (by rwa [hth] at hne))
    before := fun b' hb' => (hslot b').mpr (hT.before b' hb')
    positive := hT.positive
    tables := by
      rw [htable]
      exact hT.tables }

/-- The block that the compressor works at is one that the thread has read. -/
lemma ThreadOk.block_le (hT : s.ThreadOk c data b) (hle : j ≤ b)
    (hread : b = j → s.filled = c.blockLen data j) :
    c.blockPos data j + c.blockLen data j ≤ s.pos + s.filled := by
  rw [hT.pos_eq]
  obtain hlt | rfl := Nat.lt_or_eq_of_le hle
  · have hnext : c.blockPos data (j + 1) ≤ c.blockPos data b := by
      unfold DictionaryCompressor.blockPos
      have hmono : (j + 1) * c.bufsize.toNat ≤ b * c.bufsize.toNat := Nat.mul_le_mul_right _ hlt
      omega
    rw [DictionaryCompressor.blockPos_succ] at hnext
    omega
  · rw [hread rfl]

/-- The compressor starts with a block. -/
lemma ThreadOk.start_block (hT : s.ThreadOk c data b) (hB : c.bufsize.toNat < 2 ^ 31) (hle : j ≤ b)
    (hnear : b ≤ j + 1) (hslot : s.Slot c data j) (hlen : s.len ((j + 1) % 2) ≠ 0)
    (hread : b = j → s.filled = c.blockLen data j) (htable : c.TableOk (c.blockPos data j) s.hasharr) :
    0 < c.blockLen data j ∧
      (c.compress (s.bufptr ((j + 1) % 2)) (sizeOfInt (s.len ((j + 1) % 2))) (s.hashtable ((j + 1) % 2))
          s.hasharr).Safe s.dict
        (c.window (c.blockPos data j) (c.blockPos data j + c.blockLen data j))
        (c.TrueFound data (c.blockPos data j) (c.blockPos data j + c.blockLen data j))
        (c.TableOk (c.blockPos data j + c.blockLen data j)) := by
  obtain ⟨hptr, hlenEq⟩ := hslot
  rw [hlenEq] at hlen
  have hj : 0 < c.blockLen data j := Nat.pos_of_ne_zero hlen
  have hBpos : 0 < c.bufsize.toNat := hj.trans_le (min_le_left _ _)
  obtain ⟨hdvd, hsize⟩ := DictionaryCompressor.dictsize_spec hBpos hB
  have hD : 0 < c.dictsize := by omega
  have hplace : s.bufptr ((j + 1) % 2) = c.blockPos data j % c.dictsize := by
    rw [hptr, DictionaryCompressor.blockPos_eq hj]
  have hpiece := DictionaryCompressor.slot_le hdvd hD j
  have hshort : c.blockLen data j ≤ c.bufsize.toNat := min_le_left _ _
  have hend := hT.block_le hle hread
  refine ⟨hj, ?_⟩
  rw [hplace, hlenEq, sizeOfInt_of_lt (hshort.trans_lt hB)]
  refine DictionaryCompressor.safe_compress (fun _ => ⟨?_, by omega⟩) (fun p hfrom hto => ?_)
    (fun _ => hT.tables _) htable
  · rw [DictionaryCompressor.blockPos_eq hj]
    omega
  · exact (hT.kept.window hsize hnear hj hfrom (hto.trans_le hend)).1

/-- The compressor wakes up. -/
lemma Inv.step_wake (h : s.Inv c data b j) (hB : c.bufsize.toNat < 2 ^ 31) (hmain : s.main = .waiting)
    (hstep : s.stepWake c = some s') : s'.Inv c data b j := by
  obtain ⟨hT, hM, hS⟩ := h
  unfold MainOk at hM
  rw [hmain] at hM
  obtain ⟨hk, horig, htable⟩ := hM
  have hk' : (s.k + 1) % 2 = (j + 1) % 2 := by rw [hk, Nat.mod_add_mod]
  unfold stepWake at hstep
  dsimp only at hstep
  rw [hk'] at hstep
  split_ifs at hstep with hdone hstop
  · obtain rfl := Option.some.inj hstep
    exact ⟨hT.of_main rfl rfl rfl rfl rfl rfl rfl rfl rfl, trivial, .ended rfl⟩
  · obtain rfl := Option.some.inj hstep
    obtain ⟨herr, hlen⟩ := not_or.mp hstop
    have hwork : ∀ hle : j ≤ b, ∀ hnear : b ≤ j + 1, s.Slot c data j →
        (b = j → s.filled = c.blockLen data j) →
        MainOk c data { s with
          readDone := false
          k := (j + 1) % 2
          found := []
          stat := []
          main := .working (c.compress (s.bufptr ((j + 1) % 2)) (sizeOfInt (s.len ((j + 1) % 2)))
            (s.hashtable ((j + 1) % 2)) s.hasharr) } j := fun hle hnear hslot hread => by
      obtain ⟨hj, hsafe⟩ := hT.start_block hB hle hnear hslot hlen hread htable
      exact ⟨rfl, horig, {
        positive := hj
        len_eq := hslot.2
        safe := hsafe
        found_true := fun f hf => absurd hf List.not_mem_nil
        stat_eq := rfl }⟩
    have hthread : ThreadOk c data { s with
          readDone := false
          k := (j + 1) % 2
          found := []
          stat := []
          main := .working (c.compress (s.bufptr ((j + 1) % 2)) (sizeOfInt (s.len ((j + 1) % 2)))
            (s.hashtable ((j + 1) % 2)) s.hasharr) } b := hT.of_main rfl rfl rfl rfl rfl rfl rfl rfl rfl
    cases hS with
    | begins th main flags => rw [hdone] at flags; cases flags.1
    | posted th main flags =>
      exact ⟨hthread, hwork (Nat.le_succ j) le_rfl (hT.before j rfl) (fun hb => by omega), .busy th rfl ⟨rfl, flags.2⟩⟩
    | busy th main flags => rw [main] at hmain; cases hmain
    | ready th main flags => rw [hdone] at flags; cases flags.1
    | waited th main flags => rw [hdone] at flags; cases flags.1
    | signalled th main flags =>
      have hne : ∀ got, s.thread ≠ .reading got := fun got heq => by
        rw [heq] at th
        exact th
      have hslot := hT.slot hne
      have hfilled : s.filled = c.blockLen data b := by
        unfold filled
        split
        · rename_i got hgot
          exact absurd hgot (hne got)
        · rw [hT.i_eq]
          exact hslot.2
      exact ⟨hthread, hwork le_rfl (Nat.le_succ b) hslot (fun _ => hfilled), .follows th rfl ⟨rfl, flags.2⟩⟩
    | follows th main flags => rw [main] at hmain; cases hmain
    | overtakes th main flags => rw [hdone] at flags; cases flags.1
    | failed th err hle hnear => exact absurd err herr
    | ended main => rw [main] at hmain; cases hmain

/-- The compressor is done with a block. -/
lemma Inv.step_done (h : s.Inv c data b j) (hB : c.bufsize.toNat < 2 ^ 31) {hasharr : ℕ → ℕ}
    (hmain : s.main = .working (.done hasharr)) (herr : s.errcode ≠ true) :
    Inv c data { s with
      hasharr := hasharr
      writeReady := true
      origsize := s.origsize + sizeOfInt (s.len s.k)
      main := .waiting } b (j + 1) := by
  obtain ⟨hT, hM, hS⟩ := h
  unfold MainOk at hM
  rw [hmain] at hM
  obtain ⟨hk, horig, hw⟩ := hM
  refine ⟨hT.of_main rfl rfl rfl rfl rfl rfl rfl rfl rfl, ⟨hk, ?_, ?_⟩, ?_⟩
  · have hshort : c.blockLen data j ≤ c.bufsize.toNat := min_le_left _ _
    change s.origsize + sizeOfInt (s.len s.k) = _
    rw [horig, hw.len_eq, sizeOfInt_of_lt (hshort.trans_lt hB), DictionaryCompressor.blockPos_succ]
  · rw [DictionaryCompressor.blockPos_succ]
    exact hw.safe
  · cases hS with
    | begins th main flags => rw [main] at hmain; cases hmain
    | posted th main flags => rw [main] at hmain; cases hmain
    | busy th main flags => exact .ready th rfl ⟨flags.1, rfl, flags.2.2⟩
    | ready th main flags => rw [main] at hmain; cases hmain
    | waited th main flags => rw [main] at hmain; cases hmain
    | signalled th main flags => rw [main] at hmain; cases hmain
    | follows th main flags => exact .overtakes th rfl ⟨flags.1, rfl, flags.2.2⟩
    | overtakes th main flags => rw [main] at hmain; cases hmain
    | failed th err hle hnear => exact absurd err herr
    | ended main => rw [main] at hmain; cases hmain

/-- The compressor goes on with its block. -/
lemma Inv.go_on (h : s.Inv c data b j) {search search' : Search (ℕ → ℕ)} (hmain : s.main = .working search)
    (found : List Found) (stat : List ℕ)
    (hwork : s.Working c data j search → Working c data { s with
      found := found, stat := stat, main := .working search' } j search') :
    Inv c data { s with found := found, stat := stat, main := .working search' } b j := by
  obtain ⟨hT, hM, hS⟩ := h
  unfold MainOk at hM
  rw [hmain] at hM
  obtain ⟨hk, horig, hw⟩ := hM
  refine ⟨hT.of_main rfl rfl rfl rfl rfl rfl rfl rfl rfl, ⟨hk, horig, hwork hw⟩, ?_⟩
  cases hS with
  | begins th main flags => rw [main] at hmain; cases hmain
  | posted th main flags => rw [main] at hmain; cases hmain
  | busy th main flags => exact .busy th rfl flags
  | ready th main flags => rw [main] at hmain; cases hmain
  | waited th main flags => rw [main] at hmain; cases hmain
  | signalled th main flags => rw [main] at hmain; cases hmain
  | follows th main flags => exact .follows th rfl flags
  | overtakes th main flags => rw [main] at hmain; cases hmain
  | failed th err hle hnear => exact .failed th err hle hnear
  | ended main => rw [main] at hmain; cases hmain

/-- The compressor ends. -/
lemma Inv.end_main (h : s.Inv c data b j) (hasharr : ℕ → ℕ) (wr : Bool) :
    Inv c data { s with hasharr := hasharr, writeReady := wr, main := .stopped } b j :=
  ⟨h.thread_ok.of_main rfl rfl rfl rfl rfl rfl rfl rfl rfl, trivial, .ended rfl⟩

/-- The compressor keeps the invariant. -/
lemma Inv.step_main (h : s.Inv c data b j) (hB : c.bufsize.toNat < 2 ^ 31) (hstep : s.stepMain c = some s') :
    ∃ j', s'.Inv c data b j' := by
  unfold stepMain at hstep
  split at hstep
  · rename_i hmain
    exact ⟨j, h.step_wake hB hmain hstep⟩
  · rename_i hasharr hmain
    dsimp only at hstep
    split_ifs at hstep with herr
    · obtain rfl := Option.some.inj hstep
      exact ⟨j, h.end_main hasharr true⟩
    · obtain rfl := Option.some.inj hstep
      exact ⟨j + 1, h.step_done hB hmain herr⟩
  · rename_i i next hmain
    obtain rfl := Option.some.inj hstep
    refine ⟨j, h.go_on hmain s.found s.stat fun hw => ?_⟩
    exact ⟨hw.positive, hw.len_eq, hw.safe.2, hw.found_true, hw.stat_eq⟩
  · rename_i f next hmain
    split at hstep
    · obtain rfl := Option.some.inj hstep
      exact ⟨j, h.end_main s.hasharr s.writeReady⟩
    · rename_i words hwords
      obtain rfl := Option.some.inj hstep
      refine ⟨j, h.go_on hmain (s.found ++ [f]) (s.stat ++ words) fun hw => ?_⟩
      refine ⟨hw.positive, hw.len_eq, hw.safe.2, fun f' hf' => ?_, ?_⟩
      · obtain hf' | hf' := List.mem_append.mp hf'
        · exact hw.found_true f' hf'
        · rw [List.mem_singleton.mp hf']
          exact hw.safe.1
      · have hle : c.baseLen ≤ f.len := (min_le_right _ _).trans hw.safe.1.min_le
        rw [encodeLZMatch_of_le hle] at hwords
        change s.stat ++ words = (s.found ++ [f]).flatMap _
        rw [List.flatMap_append, List.flatMap_singleton, hw.stat_eq, Option.some.inj hwords]
  · cases hstep

/-- **Both parties keep the invariant.** -/
lemma Inv.step (h : s.Inv c data b j) (hB : c.bufsize.toNat < 2 ^ 31) {turn : Turn}
    (hstep : s.step c data filesize turn = some s') : ∃ b' j', s'.Inv c data b' j' := by
  cases turn with
  | thread =>
    obtain ⟨b', hinv⟩ := h.step_thread hB hstep
    exact ⟨b', j, hinv⟩
  | threadFails => exact ⟨b, j, h.step_fails hstep⟩
  | main =>
    obtain ⟨j', hinv⟩ := h.step_main hB hstep
    exact ⟨b, j', hinv⟩

/-! ## What holds in every order of steps -/

/-- What is written for some matches is read back with their distances. -/
lemma statRecords_found {found : List Found}
    (h : ∀ f ∈ found, Encodable false c.baseLen f.litLen f.distance f.len) :
    statRecords false (found.flatMap fun f => wordsOf false c.baseLen f.litLen f.distance f.len) =
      found.map fun f => ⟨f.litLen, f.distance, f.len - c.baseLen⟩ := by
  induction found with
  | nil => rfl
  | cons f found ih =>
    rw [List.flatMap_cons, statRecords_encode (h f (List.mem_cons_self ..)),
      ih fun f' hf' => h f' (List.mem_cons_of_mem f hf'), List.map_cons]
    unfold recordOf
    rw [unit_false, Nat.div_one, Nat.div_one]

/-- **The matches of the present block** are true, and the dictionary still has what they need. -/
lemma Inv.windowOk (h : s.Inv c data b j) (hB : c.bufsize.toNat < 2 ^ 31) {search : Search (ℕ → ℕ)}
    (hmain : s.main = .working search) : s.WindowOk c data search := by
  obtain ⟨hT, hM, hS⟩ := h
  obtain ⟨hle, hnear⟩ := hS.near hmain
  unfold MainOk at hM
  rw [hmain] at hM
  obtain ⟨hk, horig, hw⟩ := hM
  have hj := hw.positive
  have hshort : c.blockLen data j ≤ c.bufsize.toNat := min_le_left _ _
  obtain ⟨hdvd, hsize⟩ := DictionaryCompressor.dictsize_spec (hj.trans_le hshort) hB
  -- The thread has read the block that is compressed.
  have hend : c.blockPos data j + c.blockLen data j ≤ s.pos + s.filled := by
    refine hT.block_le hle fun hbj => ?_
    subst hbj
    have hne : ∀ got, s.thread ≠ .reading got := fun got hth => by
      have hnext := hS.next_of_reading hth hmain
      omega
    have hfilled : s.filled = s.len s.i := by
      unfold filled
      split
      · rename_i got hgot
        exact absurd hgot (hne got)
      · rfl
    rw [hfilled, hT.i_eq]
    exact (hT.slot hne).2
  have hhas : ∀ p, c.blockPos data j ≤ p + c.maxDist → p < c.blockPos data j + c.blockLen data j →
      s.Has c data p := fun p hfrom hto => by
    obtain ⟨hbyte, hlo⟩ := hT.kept.window hsize hnear hj hfrom (hto.trans_le hend)
    refine ⟨⟨hto.trans_le hend, ?_⟩, hbyte⟩
    have hpos : c.blockPos data b ≤ b * c.bufsize.toNat := DictionaryCompressor.blockPos_le b
    have hmul : (b + 1) * c.bufsize.toNat = b * c.bufsize.toNat + c.bufsize.toNat := Nat.succ_mul ..
    rw [hT.pos_eq]
    omega
  have hfound := hw.found_true
  rw [← horig, ← hw.len_eq] at hfound
  rw [← horig, ← hw.len_eq] at hhas
  rw [← hw.len_eq] at hshort
  refine ⟨hfound, fun f hf l hl => ?_, fun f hf l hl => ?_, ?_, fun i next hsearch => ?_⟩
  · have htrue := hfound f hf
    have hsrc := htrue.le_src
    have hdest := htrue.dest_le
    have hdist := htrue.distance_pos
    have hback : c.src s.origsize f ≤ c.dest s.origsize f := Nat.sub_le _ _
    exact hhas _ (by omega) (by omega)
  · have htrue := hfound f hf
    have hdest := htrue.dest_le
    have hfirst : s.origsize ≤ c.dest s.origsize f := Nat.le_add_right _ _
    exact hhas _ (by omega) (by omega)
  · rw [hw.stat_eq]
    refine statRecords_found fun f hf => ?_
    have htrue := hfound f hf
    have hlit := htrue.lit_le
    have hdest := htrue.dest_le
    have hdist := htrue.distance_le
    have hmax : c.maxDist < 2 ^ 64 := c.inmemDictsize.toNat_lt
    exact {
      base_le := (min_le_right _ _).trans htrue.min_le
      len_lt := by omega
      litLen_lt := by omega
      offset_lt := by omega
      rounded := fun h => nomatch h }
  · have hsafe := hw.safe
    rw [hsearch] at hsafe
    obtain ⟨p, hfrom, hto, hp⟩ := hsafe.1
    rw [← horig, ← hw.len_eq] at hto
    rw [← horig] at hfrom
    exact ⟨p, hhas p hfrom hto, hp⟩

end Machine

/-- A dictionary of eight bytes, with blocks of four. -/
def Machine.small : DictionaryCompressor where
  inmemDictsize := 8
  hashsize := 0
  bufsize := 4
  L := 1
  minMatch := 1
  dictMinMatch := 1
  L_pos := Nat.one_pos

namespace Machine

variable (c : DictionaryCompressor) (data : List UInt8) (filesize : ℕ)

/-- The compressor reads a byte. -/
lemma reach_read {α : Type} (i : ℕ) (next : UInt8 → Search α) (f : α → Search (ℕ → ℕ)) (s : Machine) :
    Reachable (step c data filesize) { s with main := .working (SharedReads.bind (.read i next) f) }
      { s with main := .working ((next (s.dict i)).bind f) } :=
  .next .main .start trivial rfl

/-- Equal bytes are compared backwards up to the start. -/
lemma reach_findMatchStart (f : ℕ → Search (ℕ → ℕ)) (p : ℕ) {q start : ℕ} (hle : start ≤ q) {s : Machine}
    (hdict : ∀ x y, s.dict x = s.dict y) :
    Reachable (step c data filesize) { s with main := .working ((findMatchStart p q start).bind f) }
      { s with main := .working (f start) } := by
  induction q generalizing p with
  | zero =>
    obtain rfl := Nat.le_zero.mp hle
    exact .start
  | succ q ih =>
    rw [findMatchStart]
    split_ifs with hmore
    · have hfirst := reach_read c data filesize (p - 1)
        (fun x => .read q fun y => if x ≠ y then .done (q + 1) else findMatchStart (p - 1) q start) f s
      have hsecond := reach_read c data filesize q
        (fun y => if s.dict (p - 1) ≠ y then .done (q + 1) else findMatchStart (p - 1) q start) f s
      rw [if_neg (not_not.mpr (hdict (p - 1) q))] at hsecond
      exact (hfirst.trans hsecond).trans (ih _ (Nat.le_of_lt_succ hmore))
    · obtain rfl : start = q + 1 := le_antisymm hle (not_lt.mp hmore)
      exact .start

/-- Equal bytes are compared forwards up to the end. -/
lemma reach_matchForward (f : ℕ → Search (ℕ → ℕ)) (n p q : ℕ) {s : Machine} (hdict : ∀ x y, s.dict x = s.dict y) :
    Reachable (step c data filesize) { s with main := .working ((matchForward n p q).bind f) }
      { s with main := .working (f (q + n)) } := by
  induction n generalizing p q with
  | zero => exact .start
  | succ n ih =>
    have hfirst := reach_read c data filesize p
      (fun x => .read q fun y => if x = y then matchForward n (p + 1) (q + 1) else .done q) f s
    have hsecond := reach_read c data filesize q
      (fun y => if s.dict p = y then matchForward n (p + 1) (q + 1) else .done q) f s
    rw [if_pos (hdict p q)] at hsecond
    have hrest := ih (p + 1) (q + 1)
    rw [Nat.add_assoc, Nat.add_comm 1 n] at hrest
    exact (hfirst.trans hsecond).trans hrest

/-- A dictionary of 4 GiB and blocks of 2 GiB. -/
def large : DictionaryCompressor where
  inmemDictsize := 0x100000000
  hashsize := 0
  bufsize := 0x80000000
  L := 2 ^ 29
  minMatch := 512
  dictMinMatch := 512
  L_pos := by norm_num

/-- 2 GiB of zeros. -/
def zeros : List UInt8 := List.replicate (2 ^ 31) 0

/-- The file has 2 GiB. -/
lemma length_zeros : zeros.length = 2 ^ 31 := List.length_replicate

/-- The dictionary has no room for blocks that are read ahead. -/
lemma dictsize_large : large.dictsize = 2 ^ 32 := by decide

/-- The machine while it reads zeros. -/
def readingZeros (got : ℕ) : Machine := { start (fun _ => 0) with thread := .reading got }

/-- All the zeros are read. -/
lemma reach_readingZeros {got : ℕ} (h : got ≤ 2 ^ 31) :
    Reachable (step large zeros (2 ^ 31)) (start fun _ => 0) (readingZeros got) := by
  induction got with
  | zero => exact .start
  | succ got ih =>
    refine .next .thread (ih (Nat.le_of_succ_le h)) trivial ?_
    have hsize : sizeOfInt large.bufsize.toNat = 2 ^ 31 + (2 ^ 64 - 2 ^ 32) := by decide
    have hbyte : Function.update (fun _ => 0) (0 + got) (zeros.getD (0 + got) 0) = fun _ : ℕ => (0 : UInt8) := by
      have hzero : zeros.getD (0 + got) 0 = 0 := by
        rw [List.getD_eq_getElem?_getD]
        unfold zeros
        rw [List.getElem?_replicate]
        split_ifs <;> rfl
      rw [hzero]
      exact Function.update_eq_self _ _
    unfold step stepThread readingZeros start
    dsimp only
    rw [hsize, length_zeros, if_pos (by omega), hbyte]

/-- The hash of zeros is 0. -/
lemma scanPart_zeros (turns i ptr : ℕ) : large.scanPart (fun _ => 0) turns i ptr 0 0 0 = (0, 0, 0) := by
  induction turns generalizing i ptr with
  | zero => rfl
  | succ turns ih =>
    have hupdate : large.update 0 0 0 = 0 := by
      unfold DictionaryCompressor.update
      have hzero : (0 : UInt8).toUInt64 = 0 := rfl
      rw [hzero, UInt64.zero_mul, UInt64.mul_zero, UInt64.add_zero, UInt64.sub_zero]
    rw [DictionaryCompressor.scanPart, if_neg (by decide), hupdate]
    exact ih _ _

/-- The positions of a block of zeros are the first ones of its parts. -/
lemma scanParts_zeros (turns ptr : ℕ) :
    large.scanParts (fun _ => 0) turns ptr 0 = List.replicate (turns + inmemPrefetch) (0, 0) := by
  induction turns generalizing ptr with
  | zero => rw [DictionaryCompressor.scanParts, Nat.zero_add]
  | succ turns ih =>
    have hmask : ((0 : UInt64) &&& large.hashmask).toNat = 0 := by
      rw [UInt64.toNat_and]
      exact Nat.zero_and _
    rw [DictionaryCompressor.scanParts, scanPart_zeros]
    dsimp only
    rw [hmask, ih, Nat.succ_add, List.replicate_succ]

/-- The hash of a block of zeros is 0. -/
lemma moveto_zeros : large.moveto (fun _ => 0) = 0 := by
  unfold DictionaryCompressor.moveto
  generalize List.range large.L = ks
  induction ks with
  | nil => rfl
  | cons k ks ih =>
    have hzero : (0 : UInt64) * prime1 + (0 : UInt8).toUInt64 = 0 := by
      have hbyte : (0 : UInt8).toUInt64 = 0 := rfl
      rw [hbyte, UInt64.zero_mul, UInt64.add_zero]
    rw [List.foldl_cons, hzero]
    exact ih

/-- The positions of the file. -/
lemma prepareBuffer_zeros :
    large.prepareBuffer [] (fun _ => 0) (2 ^ 31) = List.replicate (3 + inmemPrefetch) (0, 0) := by
  have hparts : 2 ^ 31 / large.L = 4 := by decide
  unfold DictionaryCompressor.prepareBuffer
  dsimp only
  rw [if_neg (by decide), hparts, if_pos (by decide), moveto_zeros]
  exact scanParts_zeros 3 0

/-- The machine that has signalled its block of zeros. -/
def signalledZeros : Machine :=
  { start (fun _ => 0) with
    bufptr := Function.update (fun _ => 0) 1 0
    len := Function.update (fun _ => 0) 1 (2 ^ 31)
    hashtable := Function.update (fun _ => []) 1 (List.replicate (3 + inmemPrefetch) (0, 0))
    readDone := true
    thread := .saving }

/-- The reading of zeros ends. -/
lemma step_readingZeros {got : ℕ} (h : got = 2 ^ 31) :
    step large zeros (2 ^ 31) (readingZeros got) .thread =
      some ((readingZeros got).finishRead large (2 ^ 31) (got % 2 ^ 32)) := by
  have hsize : sizeOfInt large.bufsize.toNat = 2 ^ 31 + (2 ^ 64 - 2 ^ 32) := by decide
  unfold step stepThread readingZeros start
  dsimp only
  rw [hsize, length_zeros, if_neg (by omega)]

/-- The block of zeros is signalled. -/
lemma reach_signalledZeros : Reachable (step large zeros (2 ^ 31)) (start fun _ => 0) signalledZeros := by
  have hfinish : (readingZeros (2 ^ 31)).finishRead large (2 ^ 31) (2 ^ 31) =
      { signalledZeros with readDone := false, thread := .signalling } := by
    unfold finishRead readingZeros signalledZeros start
    dsimp only
    rw [if_neg (by norm_num), if_pos rfl, prepareBuffer_zeros]
  have hread := step_readingZeros rfl
  rw [Nat.mod_eq_of_lt (by norm_num), hfinish] at hread
  exact .next .thread (.next .thread (reach_readingZeros le_rfl) trivial hread) trivial rfl

/-- A part whose hash was not met before is only noted. -/
lemma compressLoop_new {c : DictionaryCompressor} {dataStart bufend hash maxi lastI lastMatchEnd : ℕ} {hashptr : List (ℕ × ℕ)}
    {hasharr : ℕ → ℕ} (hnew : hasharr hash = 0) (hturn : lastI + 2 * c.L ≤ bufend) :
    c.compressLoop dataStart bufend ((hash, maxi) :: hashptr) lastI lastMatchEnd hasharr =
      c.compressLoop dataStart bufend hashptr (lastI + c.L) lastMatchEnd
        (Function.update hasharr hash (lastI + maxi)) := by
  rw [DictionaryCompressor.compressLoop, if_pos hturn]
  dsimp only
  rw [if_neg fun h => h.2 hnew]
  rfl

/-- The search in a block of zeros finds its match at its third part. -/
lemma compress_zeros : ∃ rest : ℕ → Search (ℕ → ℕ),
    large.compress 0 (sizeOfInt (2 ^ 31)) (List.replicate (3 + inmemPrefetch) (0, 0)) (fun _ => 0) =
      (findMatchStart (2 ^ 29) (2 ^ 30) (2 ^ 29)).bind fun start =>
        (matchForward (2 ^ 32 - 2 ^ 30) (2 ^ 29) (2 ^ 30)).bind fun stop =>
          if stop - start ≥ 512 then .report ⟨start, start, 2 ^ 29, stop - start⟩ (rest stop) else rest 0 := by
  have hparts : List.replicate (3 + inmemPrefetch) ((0, 0) : ℕ × ℕ) =
      (0, 0) :: (0, 0) :: (0, 0) :: List.replicate inmemPrefetch (0, 0) := rfl
  have hmax : large.maxDist = 2 ^ 32 := by decide
  have hL : large.L = 2 ^ 29 := rfl
  have hmin : large.dictMinMatch = 512 := rfl
  have hsize : sizeOfInt (2 ^ 31) = 2 ^ 31 + (2 ^ 64 - 2 ^ 32) := by decide
  have htry : large.tryMatch 0 (2 ^ 31 + (2 ^ 64 - 2 ^ 32)) 0 (2 ^ 30) (2 ^ 29) =
      (findMatchStart (2 ^ 29) (2 ^ 30) (2 ^ 29)).bind fun start =>
        (matchForward (2 ^ 32 - 2 ^ 30) (2 ^ 29) (2 ^ 30)).bind fun stop =>
          if stop - start ≥ 512 then .report ⟨start, start - 0, 2 ^ 29, stop - start⟩ (.done stop) else .done 0 := by
    unfold DictionaryCompressor.tryMatch findMatchEnd
    rw [dictsize_large, hmax, hmin]
    norm_num
  refine ⟨fun lastMatchEnd => large.compressLoop 0 (2 ^ 31 + (2 ^ 64 - 2 ^ 32))
    (List.replicate inmemPrefetch (0, 0)) (2 ^ 30 + 2 ^ 29) lastMatchEnd
    (Function.update (Function.update (Function.update (fun _ => 0) 0 0) 0 (2 ^ 29)) 0 (2 ^ 30)), ?_⟩
  unfold DictionaryCompressor.compress
  dsimp only
  rw [if_neg (by rw [hmax]; norm_num), dictsize_large, hmax, hsize, hparts]
  have hstart : (0 + 2 ^ 32 - 2 ^ 32) % 2 ^ 32 = 0 := by norm_num
  have hsum : 2 ^ 29 + 2 ^ 29 = 2 ^ 30 := by norm_num
  rw [hstart, Nat.zero_add, compressLoop_new rfl (by rw [hL]; norm_num), hL, Nat.zero_add,
    compressLoop_new (Function.update_self ..) (by rw [hL]; norm_num), hL, Nat.add_zero, hsum,
    DictionaryCompressor.compressLoop, if_pos (by rw [hL]; norm_num)]
  dsimp only
  rw [Function.update_self, if_pos ⟨Nat.zero_le _, by norm_num⟩, Nat.add_zero, htry, SharedReads.bind_assoc]
  refine congrArg _ (funext fun start => ?_)
  rw [SharedReads.bind_assoc]
  refine congrArg _ (funext fun stop => ?_)
  rw [Nat.sub_zero]
  split_ifs <;> rfl

/-- The machine that searches its block of zeros. -/
def workingZeros (found : List Found) (stat : List ℕ) (search : Search (ℕ → ℕ)) : Machine :=
  { signalledZeros with readDone := false, k := 1, found := found, stat := stat, main := .working search }

/-- A match is found in the zeros that goes on behind the end of the file. -/
lemma reach_workingZeros : ∃ (stat : List ℕ) (search : Search (ℕ → ℕ)),
    Reachable (step large zeros (2 ^ 31)) (start fun _ => 0)
      (workingZeros [⟨2 ^ 29, 2 ^ 29, 2 ^ 29, 2 ^ 32 - 2 ^ 29⟩] stat search) := by
  obtain ⟨rest, hsearch⟩ := compress_zeros
  have hwake : step large zeros (2 ^ 31) signalledZeros .main =
      some (workingZeros [] [] (large.compress 0 (sizeOfInt (2 ^ 31)) (List.replicate (3 + inmemPrefetch) (0, 0))
        fun _ => 0)) := rfl
  rw [hsearch] at hwake
  have hdict : ∀ x y, signalledZeros.dict x = signalledZeros.dict y := fun _ _ => rfl
  have hstart := reach_findMatchStart large zeros (2 ^ 31)
    (fun start => (matchForward (2 ^ 32 - 2 ^ 30) (2 ^ 29) (2 ^ 30)).bind fun stop =>
      if stop - start ≥ 512 then .report ⟨start, start, 2 ^ 29, stop - start⟩ (rest stop) else rest 0)
    (2 ^ 29) (by norm_num : 2 ^ 29 ≤ 2 ^ 30)
    (s := { signalledZeros with readDone := false, k := 1 }) hdict
  have hstop := reach_matchForward large zeros (2 ^ 31)
    (fun stop => if stop - 2 ^ 29 ≥ 512 then .report ⟨2 ^ 29, 2 ^ 29, 2 ^ 29, stop - 2 ^ 29⟩ (rest stop) else rest 0)
    (2 ^ 32 - 2 ^ 30) (2 ^ 29) (2 ^ 30) (s := { signalledZeros with readDone := false, k := 1 }) hdict
  have hend : 2 ^ 30 + (2 ^ 32 - 2 ^ 30) = 2 ^ 32 := by norm_num
  rw [hend, if_pos (by norm_num)] at hstop
  have hrun := ((RunFrom.next .main reach_signalledZeros trivial hwake).trans hstart).trans hstop
  have hreport : step large zeros (2 ^ 31)
      (workingZeros [] [] (.report ⟨2 ^ 29, 2 ^ 29, 2 ^ 29, 2 ^ 32 - 2 ^ 29⟩ (rest (2 ^ 32)))) .main =
      some (workingZeros [⟨2 ^ 29, 2 ^ 29, 2 ^ 29, 2 ^ 32 - 2 ^ 29⟩]
        (wordsOf false 512 (2 ^ 29) (2 ^ 29) (2 ^ 32 - 2 ^ 29)) (rest (2 ^ 32))) := by
    have hbase : large.baseLen = 512 := by decide
    unfold step stepMain workingZeros
    dsimp only
    rw [hbase, encodeLZMatch_of_le (by norm_num)]
    rfl
  exact ⟨_, _, .next .main hrun trivial hreport⟩

end Machine

end DArc.SREP
