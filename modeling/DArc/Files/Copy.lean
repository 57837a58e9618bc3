import DArc.Compression.Common
import DArc.Recovery.Memory

/-!
# Copying between files

`fileCopyBytes` copies the requested number of bytes through a buffer of eight megabytes: a chunk is read, and as
many bytes as were read are written.  `archiveCopyData` puts the source at a position first and restores its
position afterwards.

The operating system is a parameter: how many bytes each read would deliver, and whether a call fails.

### Main results

* `copyBytes_spec`: a copy fails with its calls, and writes what was read;
* `copies_iff`: the copy is complete when a call fails or no read is short.
-/

namespace DArc.Files

open DArc.Recovery (doChunks)

/-- `aHUGE_BUFFER_SIZE`. -/
def aHUGE_BUFFER_SIZE : ℕ := 8 * mb

/-- The source file, and how the calls behave: the `i`-th read delivers up to `read i` bytes or fails, and the
`i`-th write takes all bytes or fails. -/
structure World where
  /-- The contents of the source file. -/
  contents : List UInt8
  /-- How many bytes a read delivers at most; `none` is an exception or an error code. -/
  read : ℕ → Option ℕ
  /-- Whether a write succeeds. -/
  write : ℕ → Bool

/-- The state of a copy. -/
structure Copying where
  /-- The position in the source file. -/
  srcPos : ℕ
  /-- What the destination file received. -/
  dst : List UInt8
  /-- The buffer. -/
  buf : List UInt8
  /-- How many chunks were copied. -/
  turn : ℕ

variable (w : World)

/-- `fileReadBuf`: the number of bytes that were read to the buffer. -/
def fileReadBuf (bytes : ℕ) (s : Copying) : Option (ℕ × Copying) := do
  let offered ← w.read s.turn
  let data := (w.contents.drop s.srcPos).take (min offered bytes)
  return (data.length,
    { s with srcPos := s.srcPos + data.length, buf := data ++ s.buf.drop data.length })

/-- `fileWriteBuf`. -/
def fileWriteBuf (bytes : ℕ) (s : Copying) : Option Copying :=
  if w.write s.turn then some { s with dst := s.dst ++ s.buf.take bytes, turn := s.turn + 1 }
  else none

/-- One chunk of `fileCopyBytes`. -/
def copyChunk (bytes : ℕ) (s : Copying) : Option Copying := do
  let (bytes, s) ← fileReadBuf w bytes s
  fileWriteBuf w bytes s

/-- `fileCopyBytes`. -/
def fileCopyBytes (size : ℕ) (s : Copying) : Option Copying :=
  doChunks size aHUGE_BUFFER_SIZE (copyChunk w) s

/-- `archiveCopyData`; `none` is an exception. -/
def archiveCopyData (pos size : ℕ) (s : Copying) : Option Copying := do
  let restorePos := s.srcPos
  let s ← fileCopyBytes w size { s with srcPos := pos }
  return { s with srcPos := restorePos }

/-- The copy is complete or fails: when it does not fail, the destination received exactly `size` bytes, and they
are the bytes of the source from `pos` on. -/
def AllOrError (pos size : ℕ) (s : Copying) : Prop :=
  ∀ s', archiveCopyData w pos size s = some s' →
    ∃ data : List UInt8, s'.dst = s.dst ++ data ∧ data.length = size ∧
      data = (w.contents.drop pos).take size

/-- A call fails that is made for one of the chunks. -/
def CallFails (chunk size turn : ℕ) : Prop :=
  ∃ i, i * chunk < size ∧ (w.read (turn + i) = none ∨ w.write (turn + i) = false)

/-- A read of `n` bytes is not short: the source has the bytes, and as many are offered. -/
def ReadFull (pos turn n : ℕ) : Prop :=
  n ≤ w.contents.length - pos ∧ ∃ offered, w.read turn = some offered ∧ n ≤ offered

/-- No read is short: the source has the bytes, and for each chunk as many are offered as are asked for. -/
def ReadsFull (chunk pos size turn : ℕ) : Prop :=
  size ≤ w.contents.length - pos ∧
    ∀ i, i * chunk < size → ∃ n, w.read (turn + i) = some n ∧ min chunk (size - i * chunk) ≤ n

variable {w} {chunk pos size turn : ℕ}

/-! ## One chunk -/

/-- The chunks behind the first one. -/
lemma succ_mul_lt_iff (i : ℕ) :
    (i + 1) * chunk < size ↔ i * chunk < size - min size chunk := by
  rw [Nat.succ_mul]
  omega

/-- A call fails at the first chunk or behind it. -/
lemma callFails_iff (hsize : 0 < size) :
    CallFails w chunk size turn ↔
      (w.read turn = none ∨ w.write turn = false) ∨
        CallFails w chunk (size - min size chunk) (turn + 1) := by
  constructor
  · rintro ⟨i, hi, hfail⟩
    cases i with
    | zero => exact .inl hfail
    | succ i =>
      refine .inr ⟨i, (succ_mul_lt_iff i).mp hi, ?_⟩
      rwa [Nat.add_assoc, Nat.add_comm 1 i]
  · rintro (hfail | ⟨i, hi, hfail⟩)
    · exact ⟨0, by rwa [Nat.zero_mul], hfail⟩
    · refine ⟨i + 1, (succ_mul_lt_iff i).mpr hi, ?_⟩
      rwa [Nat.add_assoc, Nat.add_comm 1 i] at hfail

/-- The reads are full at the first chunk and behind it. -/
lemma readsFull_iff (hsize : 0 < size) :
    ReadsFull w chunk pos size turn ↔
      ReadFull w pos turn (min size chunk) ∧
        ReadsFull w chunk (pos + min size chunk) (size - min size chunk) (turn + 1) := by
  have hnext (i : ℕ) : min chunk (size - (i + 1) * chunk) =
      min chunk (size - min size chunk - i * chunk) := by
    rw [Nat.succ_mul]
    omega
  constructor
  · rintro ⟨hlength, hreads⟩
    obtain ⟨n, hn, hle⟩ := hreads 0 (by rwa [Nat.zero_mul])
    rw [Nat.zero_mul, Nat.sub_zero, Nat.min_comm] at hle
    refine ⟨⟨by omega, n, hn, hle⟩, by omega, fun i hi => ?_⟩
    obtain ⟨m, hm, hle'⟩ := hreads (i + 1) ((succ_mul_lt_iff i).mpr hi)
    rw [hnext] at hle'
    exact ⟨m, by rwa [Nat.add_assoc, Nat.add_comm 1 i], hle'⟩
  · rintro ⟨⟨hfirst, n, hn, hle⟩, hlength, hreads⟩
    refine ⟨by omega, fun i hi => ?_⟩
    cases i with
    | zero =>
      rw [Nat.zero_mul, Nat.sub_zero, Nat.min_comm]
      exact ⟨n, hn, hle⟩
    | succ i =>
      obtain ⟨m, hm, hle'⟩ := hreads i ((succ_mul_lt_iff i).mp hi)
      rw [hnext]
      exact ⟨m, by rwa [Nat.add_assoc, Nat.add_comm 1 i] at hm, hle'⟩

/-- A chunk fails with its calls; otherwise what was read is written, and it is what was asked for when the read
is not short. -/
lemma copyChunk_spec (n : ℕ) (s : Copying) :
    match copyChunk w n s with
    | none => w.read s.turn = none ∨ w.write s.turn = false
    | some s' => ¬ (w.read s.turn = none ∨ w.write s.turn = false) ∧ s'.turn = s.turn + 1 ∧
        ∃ m, m ≤ n ∧ m ≤ w.contents.length - s.srcPos ∧ s'.srcPos = s.srcPos + m ∧
          s'.dst = s.dst ++ (w.contents.drop s.srcPos).take m ∧
          (m = n ↔ ReadFull w s.srcPos s.turn n) := by
  unfold copyChunk fileReadBuf
  cases hread : w.read s.turn with
  | none => exact .inl rfl
  | some k =>
    dsimp only [bind, Option.bind, pure]
    generalize hdata : (w.contents.drop s.srcPos).take (min k n) = data
    have hlength : data.length = min (min k n) (w.contents.length - s.srcPos) := by
      rw [← hdata, List.length_take, List.length_drop]
    have htake : (data ++ s.buf.drop data.length).take data.length = data := List.take_left
    have hprefix : (w.contents.drop s.srcPos).take data.length = data := by
      rw [hlength, ← hdata, List.take_eq_take_iff, List.length_drop]
      omega
    unfold fileWriteBuf
    dsimp only
    cases hwrite : w.write s.turn with
    | false => exact .inr rfl
    | true =>
      refine ⟨by simp, rfl, data.length, by omega, by omega, rfl, ?_, ?_⟩
      · dsimp only
        rw [htake, hprefix]
      · constructor
        · exact fun heq => ⟨by omega, k, hread, by omega⟩
        · rintro ⟨hle, k', hk', hle'⟩
          obtain rfl := Option.some.inj (hread.symm.trans hk')
          omega

/-! ## All chunks -/

/-- **What a copy does**: it fails when a call fails; otherwise the destination received the bytes of the source
from its position on, all that were asked for when no read is short. -/
lemma copyBytes_spec (hchunk : 0 < chunk) (size : ℕ) (s : Copying) :
    match doChunks size chunk (copyChunk w) s with
    | none => CallFails w chunk size s.turn
    | some s' => ¬ CallFails w chunk size s.turn ∧
        ∃ m ≤ size, m ≤ w.contents.length - s.srcPos ∧
          s'.dst = s.dst ++ (w.contents.drop s.srcPos).take m ∧
          (m = size ↔ ReadsFull w chunk s.srcPos size s.turn) := by
  induction size using Nat.strong_induction_on generalizing s with
  | _ size ih =>
    rw [doChunks]
    by_cases hzero : size = 0
    · subst hzero
      rw [if_pos rfl]
      refine ⟨?_, 0, le_rfl, Nat.zero_le _, ?_, ?_⟩
      · rintro ⟨i, hi, -⟩
        exact absurd hi (Nat.not_lt_zero _)
      · rw [List.take_zero, List.append_nil]
      · exact iff_of_true rfl ⟨Nat.zero_le _, fun i hi => absurd hi (Nat.not_lt_zero _)⟩
    · have hpos := Nat.pos_of_ne_zero hzero
      rw [if_neg hzero, if_neg hchunk.ne']
      rw [callFails_iff hpos, readsFull_iff hpos]
      dsimp only
      have hfirst := copyChunk_spec (w := w) (min size chunk) s
      cases hcopy : copyChunk w (min size chunk) s with
      | none =>
        rw [hcopy] at hfirst
        exact .inl hfirst
      | some s₁ =>
        rw [hcopy] at hfirst
        obtain ⟨hcalls, hturn, m, hm, hlength, hsrc, hdst, hfull⟩ := hfirst
        have hrest := ih (size - min size chunk) (by omega) s₁
        dsimp only [Option.bind]
        cases hloop : doChunks (size - min size chunk) chunk (copyChunk w) s₁ with
        | none =>
          rw [hloop, hturn] at hrest
          exact .inr hrest
        | some s₂ =>
          rw [hloop, hturn, hsrc] at hrest
          obtain ⟨hcalls', m', hm', hlength', hdst', hfull'⟩ := hrest
          refine ⟨not_or.mpr ⟨hcalls, hcalls'⟩, m + m', by omega, by omega, ?_, ?_⟩
          · rw [hdst', hdst, List.append_assoc, ← List.drop_drop, ← List.take_add]
          · rw [← hfull]
            constructor
            · intro hsum
              obtain rfl : m = min size chunk := by omega
              exact ⟨rfl, hfull'.mp (by omega)⟩
            · rintro ⟨rfl, hreads⟩
              have hlast := hfull'.mpr hreads
              omega

/-- **When a copy is complete or fails**: when a call fails, or when no read is short. -/
theorem copies_iff (w : World) (pos size : ℕ) (s : Copying) :
    AllOrError w pos size s ↔
      CallFails w aHUGE_BUFFER_SIZE size s.turn ∨ ReadsFull w aHUGE_BUFFER_SIZE pos size s.turn := by
  have hspec := copyBytes_spec (w := w) (show 0 < aHUGE_BUFFER_SIZE by decide) size { s with srcPos := pos }
  unfold AllOrError archiveCopyData fileCopyBytes
  dsimp only
  cases hcopy : doChunks size aHUGE_BUFFER_SIZE (copyChunk w) { s with srcPos := pos } with
  | none =>
    rw [hcopy] at hspec
    refine iff_of_true (fun s' hs' => ?_) (.inl hspec)
    cases hs'
  | some s₁ =>
    rw [hcopy] at hspec
    obtain ⟨hcalls, m, hm, hlength, hdst, hfull⟩ := hspec
    dsimp only at hcalls hlength hdst hfull
    rw [← hfull, or_iff_right hcalls]
    constructor
    · intro hall
      obtain ⟨data, hdata, hsize, -⟩ := hall _ rfl
      have heq := List.append_cancel_left (hdst.symm.trans hdata)
      rw [← hsize, ← heq, List.length_take, List.length_drop]
      omega
    · rintro rfl s' hs'
      obtain rfl := Option.some.inj hs'
      refine ⟨_, hdst, ?_, rfl⟩
      rw [List.length_take, List.length_drop]
      omega

/-- **A copy from an empty file succeeds** and writes nothing. -/
theorem not_allOrError : ¬ ∀ w pos size s, AllOrError w pos size s := by
  intro h
  have hcopy : archiveCopyData ⟨[], fun _ => some 1, fun _ => true⟩ 0 1 ⟨0, [], [], 0⟩ =
      some ⟨0, [], [], 1⟩ := by
    have hmin : min 1 aHUGE_BUFFER_SIZE = 1 := by decide
    rw [archiveCopyData, fileCopyBytes, doChunks, if_neg (by decide), if_neg (by decide), hmin]
    change ((doChunks 0 aHUGE_BUFFER_SIZE (copyChunk _) ⟨0, [], [], 1⟩).bind _) = _
    rw [doChunks, if_pos rfl]
    rfl
  obtain ⟨data, hdst, hsize, hdata⟩ := h ⟨[], fun _ => some 1, fun _ => true⟩ 0 1 ⟨0, [], [], 0⟩
    ⟨0, [], [], 1⟩ hcopy
  rw [hdata] at hsize
  cases hsize

end DArc.Files
