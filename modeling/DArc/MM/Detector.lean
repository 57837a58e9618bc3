import DArc.Compression.Common
import DArc.Library.Fuel

/-!
# Detection of multimedia data

`select` models how `mm_compress` chooses the layout of the samples: the parameters of the method,
else the header of a WAV file (`autodetectWavHeader`), else the entropy analyzer
(`autodetectByEntropy`), else no layout at all.  Positions in the buffer, sizes of subchunks and
their sums are 32-bit numbers, as in the 32-bit program: a subchunk that claims to be almost 2^32
bytes long moves the search backwards, and the search may never end.

The estimates of the entropy analyzer are floating-point sums of logarithms; which of its candidates
wins is left to a parameter `pick`, the candidates are those of the source.

### Outline

* `Params`, `Layout`: the parameters of the method and the layout selected from them;
* `dataChunk`, `autodetectWavHeader`: the WAV header, with fuel for the search;
* `autodetectByEntropy`, `select`, and `select_steady`.
-/

namespace DArc.MM

/-- The parameters of the method, all of them of type `int`; `reorder` is 0. -/
structure Params where
  /-- Detection speed mode. -/
  mode : Int
  /-- Skip file header detection. -/
  skipHeader : Int
  isFloat : Int
  numChan : Int
  /-- Size of each encoded value, in bits. -/
  wordSize : Int
  /-- Where the samples start. -/
  offset : Int

/-- The constructor `MM_METHOD::MM_METHOD`. -/
def Params.default : Params := ⟨9, 0, 0, 0, 0, 0⟩

/-- The layout of the samples of a file. -/
structure Layout where
  isFloat : Int
  numChan : Int
  wordSize : Int
  offset : Int
  deriving DecidableEq, Repr

/-- Bytes per word. -/
def Layout.byteSize (L : Layout) : Int := Int.tdiv (int32 (L.wordSize + 7)) 8

/-- Bytes per sample. -/
def Layout.sampleSize (L : Layout) : Int := int32 (L.numChan * L.byteSize)

/-! ## The header of a WAV file -/

/-- The word of `k` bytes at a position. -/
def word (k : ℕ) (buf : List UInt8) (pos : ℕ) : ℕ := leValue ((buf.drop pos).take k)

/-- `sizeof(wave_hdr_t)`. -/
abbrev waveHdrSize : ℕ := 36

/-- `sizeof(subchunk_hdr)`. -/
abbrev subchunkHdrSize : ℕ := 8

/-- `RIFF_SIGN`. -/
abbrev riffSign : ℕ := 0x46464952

/-- `WAVE_SIGN`. -/
abbrev waveSign : ℕ := 0x45564157

/-- `fmt_SIGN`. -/
abbrev fmtSign : ℕ := 0x20746D66

/-- `data_SIGN`. -/
abbrev dataSign : ℕ := 0x61746164

/-- `MAX_BPS`. -/
abbrev maxBps : ℕ := 32

/-- Skip the subchunks up to the data and return where the samples start; the inner `none` means that
detection fails, the outer one that the search has run out of fuel or has left the buffer at its
beginning. -/
def dataChunk (buf : List UInt8) : ℕ → ℕ → Option (Option ℕ)
  | 0, _ => none
  | fuel + 1, p =>
    if word 4 buf p = dataSign then some (some (p + subchunkHdrSize))
    else
      let skipBytes := uint32 (subchunkHdrSize + word 4 buf (p + 4) : ℕ)
      if buf.length - p ≤ uint32 (skipBytes + subchunkHdrSize : ℕ) then some none
      else
        -- the pointer wraps: a large `skip_bytes` moves it backwards
        let next := (p : Int) + int32 skipBytes
        if next < 0 then none else dataChunk buf fuel next.toNat

/-- The checks of the fixed part of the header: the format of the samples, or `none`. -/
def waveFormat (buf : List UInt8) : Option Int :=
  if buf.length < waveHdrSize ∨ word 4 buf 0 ≠ riffSign ∨ word 4 buf 8 ≠ waveSign ∨
      word 4 buf 12 ≠ fmtSign ∨ word 4 buf 4 < word 4 buf 16 ∨ word 2 buf 22 = 0 ∨
      maxBps < word 2 buf 34 then none
  else
    match word 2 buf 20 with
    | 3 => some 1
    | 1 => some 0
    | 0xFFFE => some 0
    | _ => none

/-- `autodetect_wav_header`. -/
def autodetectWavHeader (fuel : ℕ) (buf : List UInt8) : Option (Option Layout) :=
  match waveFormat buf with
  | none => some none
  | some isFloat =>
    let subchunk1Size := word 4 buf 16
    if 16 < subchunk1Size ∧ buf.length - waveHdrSize ≤ subchunk1Size - 16 then some none
    else
      let p := waveHdrSize + (subchunk1Size - 16)
      if buf.length - p ≤ subchunkHdrSize then some none
      else
        (dataChunk buf fuel p).map fun found => found.map fun start =>
          ⟨isFloat, word 2 buf 22, word 2 buf 34, start⟩

/-- More fuel does not change what the search finds. -/
lemma dataChunk_succ {buf : List UInt8} {fuel p : ℕ} {r : Option ℕ}
    (h : dataChunk buf fuel p = some r) : dataChunk buf (fuel + 1) p = some r := by
  induction fuel generalizing p with
  | zero => simp [dataChunk] at h
  | succ fuel ih =>
    unfold dataChunk at h ⊢
    split at h
    · next hsign => rw [if_pos hsign]; exact h
    · next hsign =>
      rw [if_neg hsign]
      dsimp only at h ⊢
      split at h
      · next hfar => rw [if_pos hfar]; exact h
      · next hfar =>
        rw [if_neg hfar]
        split at h
        · cases h
        · next hnext => rw [if_neg hnext]; exact ih h

/-- More fuel does not change the result of the header detection. -/
lemma autodetectWavHeader_succ {buf : List UInt8} {fuel : ℕ} {r : Option Layout}
    (h : autodetectWavHeader fuel buf = some r) : autodetectWavHeader (fuel + 1) buf = some r := by
  unfold autodetectWavHeader at h ⊢
  split at h
  · next hf => exact h
  · next isFloat hf =>
    dsimp only at h ⊢
    split at h
    · next h16 => rw [if_pos h16]; exact h
    · next h16 =>
      rw [if_neg h16]
      split at h
      · next h8 => rw [if_pos h8]; exact h
      · next h8 =>
        rw [if_neg h8]
        obtain ⟨found, hfound, rfl⟩ := Option.map_eq_some_iff.mp h
        rw [dataChunk_succ hfound]
        rfl

/-! ## The entropy analyzer -/

/-- A model of the analyzer: number of channels, bits of a word, offset in bytes. -/
structure Model where
  channels : ℕ
  bitwidth : ℕ
  offset : ℕ
  deriving DecidableEq, Repr

/-- The index of the best of the candidates, or `none` if none beats the order-0 model. -/
abbrev Pick := List UInt8 → List Model → Option ℕ

/-- The models that are tried, in the order of the loops. -/
def candidates (channels bitvalues : List ℕ) : List Model :=
  channels.flatMap fun n => bitvalues.flatMap fun bits =>
    ((List.range bits).filter fun offset => offset * 8 < bits).map fun offset => ⟨n, bits, offset⟩

/-- `channels`. -/
def channels : List ℕ := [1, 2, 3, 4]

/-- `bitvalues`. -/
def bitvalues : List ℕ := [8, 16, 24, 32]

/-- `fast_channels`. -/
def fastChannels : List ℕ := [1, 3]

/-- `fast_bitvalues`. -/
def fastBitvalues : List ℕ := [8, 16]

/-- `autodetect_by_entropy`. -/
def autodetectByEntropy (pick : Pick) (buf : List UInt8) (channels bitvalues : List ℕ) :
    Option Layout :=
  if buf.length < 500 then none
  else
    (pick buf (candidates channels bitvalues)).bind fun i =>
      (candidates channels bitvalues)[i]?.map fun m => ⟨0, m.channels, m.bitwidth, m.offset⟩

/-! ## Selection -/

/-- Choose the parameters of the filter for a file that begins with `buf`. -/
def select (fuel : ℕ) (P : Params) (pick : Pick) (buf : List UInt8) : Option Layout :=
  let checkBytes := min (if P.mode ≤ 2 then 64 * kb else max (64 * kb) (buf.length / 2)) buf.length
  let useChannels := if P.mode ≤ 2 then fastChannels else channels
  let useBitvalues := if P.mode ≤ 2 then fastBitvalues else bitvalues
  if P.isFloat ≠ 0 ∨ P.numChan ≠ 0 ∨ P.wordSize ≠ 0 then
    some ⟨P.isFloat, if P.numChan = 0 then 1 else P.numChan,
      if P.wordSize = 0 then (if P.isFloat ≠ 0 then 32 else 8) else P.wordSize, P.offset⟩
  else
    let byEntropy :=
      (autodetectByEntropy pick ((buf.drop ((buf.length - checkBytes) / 2)).take checkBytes)
        useChannels useBitvalues).getD ⟨0, 0, 0, 0⟩
    if P.skipHeader ≠ 0 then some byEntropy
    else (autodetectWavHeader fuel buf).map fun found => found.getD byEntropy

/-- More fuel does not change the selection. -/
lemma select_steady (P : Params) (pick : Pick) (buf : List UInt8) :
    Steady fun fuel => select fuel P pick buf := by
  intro fuel L h
  unfold select at h ⊢
  dsimp only at h ⊢
  split at h
  · next huser => rw [if_pos huser]; exact h
  · next huser =>
    rw [if_neg huser]
    split at h
    · next hskip => rw [if_pos hskip]; exact h
    · next hskip =>
      rw [if_neg hskip]
      obtain ⟨found, hfound, rfl⟩ := Option.map_eq_some_iff.mp h
      rw [autodetectWavHeader_succ hfound]
      rfl

end DArc.MM
