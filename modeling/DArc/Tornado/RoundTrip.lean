import DArc.Tornado.ByteCoder
import DArc.Tornado.CompressRun
import DArc.Tornado.Finders

/-!
# Compression and decompression

The parameters choose a match finder and a coder; the stream begins with the method, the shortest match and the size of
the buffer, from which the decompressor knows its decoder.

### Outline

* `coderBytes`, `compressed`: the compressor of a method;
* `decodedBy`, `decompressed`: the decompressor;
* `PackMethod.Runs`: parameters with which the compressor comes to an end.

### Main results

* `decodedBy_torCompressChunk`: any match finder can be combined with any coder;
* `decompressed_compressed`: what is decompressed is what was compressed.
-/

namespace DArc.Tornado

/-! ## The compressor of a method -/

/-- What `tor_compress_chunk` uses of the parameters. -/
def PackMethod.setup (m : PackMethod) : Setup :=
  { buffer := m.buffer
    shift := m.shift
    findTables := m.findTables
    supportTables := decide (hufcoder ≤ m.encodingMethod) }

/-- The bytes of the coder of a method, which is an argument of `tor_compress0` or chosen by `LZ77_DynamicCoder`; a
`bitbuf` has `size` bytes. -/
def coderBytes (size : ℕ) (memory : HuffmanTree) (encodingMethod : Int) (minlen : ℕ) (calls : List Call) :
    List UInt8 :=
  if encodingMethod = storing ∨ encodingMethod = bytecoder then byteBytes minlen calls
  else if encodingMethod = bitcoder then bitBytes size minlen calls
  else if encodingMethod = hufcoder then huffmanBytes size minlen memory calls
  else if encodingMethod = aricoder then arithBytes minlen calls
  else []

/-- What the coder is told by the compressor of a method, behind the shortest match of its finder. -/
def PackMethod.told (m : PackMethod) (q₀ : Int) (turns : ℕ) (data : List UInt8) : Option (ℕ × List Call) :=
  match finderOf m q₀ with
  | none => none
  | some f => (torCompressChunk f.2 m.setup turns data).map (f.2.minLength, ·)

/-- `tor_compress`: the bytes that are written. -/
def compressed (size : ℕ) (memory : HuffmanTree) (q₀ : Int) (turns : ℕ) (m : PackMethod) (data : List UInt8) :
    Option (List UInt8) := do
  let v ← variant m
  let m ← adjust m
  let (minlen, calls) ← m.told q₀ turns data
  return header v m ++ coderBytes size memory m.encodingMethod minlen calls

/-! ## The decompressor -/

/-- What is in the memory of the decompressor before it writes there, and the bytes behind the stream. -/
structure Leftovers where
  mem : Memory
  baseData : Memory
  original : Memory
  huffman : HuffmanTree
  prevdists : ℕ → ℕ
  flags : ℕ
  behind : ℕ → UInt8

/-- The bytes of a stream, and others behind it. -/
def Leftovers.input (l : Leftovers) (stream : List UInt8) (i : ℕ) : UInt8 := stream.getD i (l.behind i)

/-- `tor_decompress` behind the header. -/
def decodedBy (l : Leftovers) (fuel encodingMethod minlen bufsize : ℕ) (stream : List UInt8) : Option Outcome :=
  match encodingMethod with
  | 1 => decompress (ByteDecoder.next minlen) bufsize fuel l.mem l.baseData l.original (.new (l.input stream) l.flags)
  | 2 => decompress (BitDecoder.next minlen) bufsize fuel l.mem l.baseData l.original (.new (l.input stream))
  | 3 => decompress (LZ77Decoder.next (HuffmanDecoder.get eobCode fuel) minlen) bufsize fuel l.mem l.baseData l.original
      (.new (.new codes l.huffman (l.input stream)) l.prevdists)
  | 4 => do
    let decoder ← ArithDecoder.new codes bufsize stream
    decompress (LZ77Decoder.next ArithDecoder.get minlen) bufsize fuel l.mem l.baseData l.original
      (.new decoder l.prevdists)
  | _ => some ⟨.badCompressedData, []⟩

/-- `tor_decompress`, with some fuel for its loops. -/
def decompressed (l : Leftovers) (fuel : ℕ) : List UInt8 → Option Outcome
  | encodingMethod :: minlen :: b₀ :: b₁ :: b₂ :: b₃ :: stream =>
    decodedBy l fuel encodingMethod.toNat minlen.toNat (leValue [b₀, b₁, b₂, b₃]) stream
  | _ => some ⟨.io, []⟩

/-! ## Parameters with which the compressor runs -/

/-- The compressor comes to an end: the match finders go forward when they skip a match, `CachingMatchFinder` meets the
end of its row there, and the second table has rows.  The buffer is no larger than that of any preset. -/
structure PackMethod.Runs (m : PackMethod) : Prop where
  words : m.Words
  buffer_le : m.buffer ≤ 2 ^ 30
  shift_eq : m.shift = 0
  updateStep_pos : 0 < m.updateStep
  even : m.cachingFinder ≠ 0 → m.hash3 ≠ 2 → m.hashRowWidth % 2 = 0
  auxhashRowWidth_pos : m.hash3 = 2 → 0 < m.auxhashRowWidth

/-- All presets run. -/
lemma runs_std : ∀ m ∈ stdTornadoMethod, m.Runs := by
  have hfields : ∀ m ∈ stdTornadoMethod, m.buffer ≤ 2 ^ 30 ∧ m.shift = 0 ∧ 0 < m.updateStep ∧
      (m.cachingFinder ≠ 0 → m.hash3 ≠ 2 → m.hashRowWidth % 2 = 0) ∧
      (m.hash3 = 2 → 0 < m.auxhashRowWidth) := by decide
  intro m hm
  obtain ⟨hbuffer, hshift, hstep, heven, haux⟩ := hfields m hm
  exact ⟨words_std m hm, hbuffer, hshift, hstep, heven, haux⟩

variable {m m' : PackMethod}

/-- The parameters that choose the match finder are not adjusted. -/
lemma variant_adjust (h : adjust m = some m') : variant m' = variant m := by
  rw [adjust] at h
  obtain ⟨hashsize, -, h⟩ := Option.bind_eq_some_iff.mp h
  obtain ⟨auxhashSize, -, h⟩ := Option.bind_eq_some_iff.mp h
  exact Option.some.inj h ▸ rfl

/-- The sizes are large enough for the compressor when they are adjusted. -/
lemma PackMethod.Runs.setup_ok (h : m.Runs) (hadjust : adjust m = some m') : m'.setup.Ok := by
  have hkb : kb = 1024 := rfl
  have hle := h.buffer_le
  have hshift := h.shift_eq
  rw [adjust] at hadjust
  obtain ⟨hashsize, -, hadjust⟩ := Option.bind_eq_some_iff.mp hadjust
  obtain ⟨auxhashSize, -, hadjust⟩ := Option.bind_eq_some_iff.mp hadjust
  obtain rfl := Option.some.inj hadjust
  have hbuffer : 32 * kb ≤ roundedBuffer m.buffer ∧ roundedBuffer m.buffer ≤ 2 ^ 30 := by
    unfold roundedBuffer
    omega
  refine ⟨hbuffer.1, hbuffer.2, ?_⟩
  change ((if m.shift ≠ 0 then m.shift else _ : Int) = -1) ∨ _
  unfold PackMethod.setup
  dsimp only
  rw [if_neg (not_not_intro hshift)]
  split_ifs <;> omega

/-! ## Through the coders -/

/-- The last call can be coded. -/
lemma lastCall_ok (minlen : ℕ) (buf : Memory) : (lastCall buf).Ok minlen := by
  have hpos : (0 : Int) ≤ impossibleDist := Int.natCast_nonneg _
  have hdist : (impossibleDist : Int) = 1073741823 := rfl
  exact fun _ => ⟨le_rfl, by omega, by omega⟩

/-- The end is found. -/
lemma found_lastCall {minlen : ℕ} (hmin : minlen ≤ 255) (buf : Memory) :
    (lastCall buf).found minlen = [.copy impossibleLen impossibleDist] ∧
      ∀ prev : PrevDists, prev.found minlen (lastCall buf) = [.copy impossibleLen impossibleDist] := by
  have hlong : ¬impossibleLen < minlen := not_lt.mpr (hmin.trans (by decide))
  have hdist : (0 - -(impossibleDist : Int)).toNat = impossibleDist := by rw [zero_sub, neg_neg, Int.toNat_natCast]
  refine ⟨?_, fun prev => ?_⟩
  · rw [lastCall, Call.found, if_neg hlong, hdist]
  · rw [lastCall, PrevDists.found, if_neg hlong, hdist]

/-- The bytes of a memory are those of the stream. -/
lemma bytes_streamMemory (data : List UInt8) : (streamMemory data).bytes 0 data.length = data := by
  refine List.ext_getElem (length_memory_bytes _ _ _) fun i _ hi => ?_
  unfold Memory.bytes streamMemory
  simp [hi]

section Coders

variable {M : Type} {mf : MatchFinder M} {m : Setup} {data : List UInt8} {calls : List Call} {S : Memory}
  {items : List Item}

/-- The decompressor writes the data that the coder was told. -/
lemma Tells.decompress_eq (h : Tells mf m data calls S items) (hm : m.Ok) {D : Type} {next : D → Option (Found × D)}
    {founds : List Found} {decoder decoder' : D} (hparse : Parse S m.buffer 0 founds items)
    (hyields : Yields next (founds ++ [.copy impossibleLen impossibleDist]) decoder decoder') {fuel : ℕ}
    (hfuel : 2 * data.length < fuel) (mem baseData original : Memory) :
    decompress next m.buffer fuel mem baseData original decoder = some ⟨.ok, data⟩ := by
  obtain ⟨p, htold⟩ := h.told
  have hlength : (bytesOf items).length = data.length := Int.natCast_inj.mp htold.length
  have hR : ∀ i < (bytesOf items).length, S i = (bytesOf items).getD i 0 := fun i hi => by
    rw [hparse.bytesOf_eq]
    unfold Memory.bytes
    simp [hi]
  have hshort := hparse.length_le
  have hcount := h.count
  have hbuffer := hm.le
  rw [decompress_parse (by omega) hyields hparse h.apart hR (by omega), h.stream, hlength, bytes_streamMemory]

/-- All calls can be coded, and the last one, too. -/
lemma Tells.calls_ok (h : Tells mf m data calls S items) (buf : Memory) :
    ∀ call ∈ calls ++ [lastCall buf], call.Ok mf.minLength := by
  obtain ⟨p, htold⟩ := h.told
  intro call hcall
  rcases List.mem_append.mp hcall with hcall | hcall
  · exact htold.ok call hcall
  · exact List.mem_singleton.mp hcall ▸ lastCall_ok _ buf

/-- Without tables the last call is none, either. -/
lemma Tells.calls_plain (h : Tells mf m data calls S items) (htables : m.supportTables = false) (buf : Memory) :
    ∀ call ∈ calls ++ [lastCall buf], call.Plain := by
  intro call hcall
  rcases List.mem_append.mp hcall with hcall | hcall
  · exact h.plain htables call hcall
  · rw [List.mem_singleton.mp hcall]
    trivial

/-- **Through every coder** the data come back. -/
theorem decodedBy_coderBytes (h : Tells mf m data calls S items) (hm : m.Ok) (hmin : mf.minLength ≤ 255)
    {encodingMethod : Int} (hmethod : 1 ≤ encodingMethod ∧ encodingMethod ≤ 4)
    (hsupport : m.supportTables = decide (hufcoder ≤ encodingMethod)) (buf : Memory)
    (hhelp : encodingMethod = aricoder → HelpFits codes (arithParts mf.minLength (calls ++ [lastCall buf])))
    {size : ℕ} (hsize : 4 ≤ size) (memory : HuffmanTree) (l : Leftovers) {fuel : ℕ}
    (hfuel : 2 * data.length + 2 ≤ fuel) :
    decodedBy l fuel encodingMethod.toNat mf.minLength m.buffer
      (coderBytes size memory encodingMethod mf.minLength (calls ++ [lastCall buf])) = some ⟨.ok, data⟩ := by
  obtain ⟨p, htold⟩ := h.told
  obtain ⟨hend, hend'⟩ := found_lastCall hmin buf
  have hcalls := h.calls_ok buf
  have hfounds : (calls ++ [lastCall buf]).flatMap (Call.found mf.minLength) =
      calls.flatMap (Call.found mf.minLength) ++ [.copy impossibleLen impossibleDist] := by
    rw [List.flatMap_append, List.flatMap_singleton, hend]
  have hfounds' : PrevDists.new.founds mf.minLength (calls ++ [lastCall buf]) =
      PrevDists.new.founds mf.minLength calls ++ [.copy impossibleLen impossibleDist] := by
    rw [PrevDists.founds_concat, hend']
  have hinput (stream : List UInt8) : ∀ i (hi : i < stream.length), l.input stream i = stream[i] := fun i hi =>
    List.getD_eq_getElem _ _ hi
  obtain ⟨hone, hfour⟩ := hmethod
  obtain rfl | rfl | rfl | rfl : encodingMethod = 1 ∨ encodingMethod = 2 ∨ encodingMethod = 3 ∨ encodingMethod = 4 := by
    omega
  · obtain ⟨s, hyields⟩ := byte_yields hcalls (h.calls_plain hsupport buf) (hinput _) l.flags
    rw [hfounds] at hyields
    change decompress (ByteDecoder.next mf.minLength) m.buffer fuel l.mem l.baseData l.original
      (.new (l.input (byteBytes mf.minLength (calls ++ [lastCall buf]))) l.flags) = _
    exact h.decompress_eq hm htold.plainParse hyields (by omega) l.mem l.baseData l.original
  · obtain ⟨s, hyields⟩ := bit_yields hsize hcalls (h.calls_plain hsupport buf) (hinput _)
    rw [hfounds] at hyields
    change decompress (BitDecoder.next mf.minLength) m.buffer fuel l.mem l.baseData l.original
      (.new (l.input (bitBytes size mf.minLength (calls ++ [lastCall buf])))) = _
    exact h.decompress_eq hm htold.plainParse hyields (by omega) l.mem l.baseData l.original
  · obtain ⟨fuel, rfl⟩ := Nat.exists_eq_add_of_le' (show 2 ≤ fuel by omega)
    obtain ⟨s, hyields⟩ := huffman_yields hsize memory l.huffman l.prevdists hcalls (hinput _) fuel
    rw [hfounds'] at hyields
    have hcoder : coderBytes size memory 3 mf.minLength = huffmanBytes size mf.minLength memory := rfl
    have hcase (fuel : ℕ) (stream : List UInt8) : decodedBy l fuel (Int.toNat 3) mf.minLength m.buffer stream =
        decompress (LZ77Decoder.next (HuffmanDecoder.get eobCode fuel) mf.minLength) m.buffer fuel l.mem l.baseData
          l.original (.new (.new codes l.huffman (l.input stream)) l.prevdists) := rfl
    rw [hcoder, hcase]
    exact h.decompress_eq hm htold.parse hyields (by omega) l.mem l.baseData l.original
  · obtain ⟨ad, s, hnew, hyields⟩ := arith_yields m.buffer l.prevdists hcalls (hhelp rfl)
    rw [hfounds'] at hyields
    change (ArithDecoder.new codes m.buffer (arithBytes mf.minLength (calls ++ [lastCall buf]))).bind (fun decoder =>
      decompress (LZ77Decoder.next ArithDecoder.get mf.minLength) m.buffer fuel l.mem l.baseData l.original
        (.new decoder l.prevdists)) = _
    rw [hnew]
    exact h.decompress_eq hm htold.parse hyields (by omega) l.mem l.baseData l.original

/-- Up to 128 MB of data cannot have too many bytes that wait for a carry. -/
lemma Tells.helpFits (h : Tells mf m data calls S items) (hmin : mf.minLength ≤ 255) (hdata : data.length ≤ 2 ^ 27)
    (buf : Memory) : HelpFits codes (arithParts mf.minLength (calls ++ [lastCall buf])) := by
  obtain ⟨p, htold⟩ := h.told
  have hcount := h.count
  have hshort := htold.parse.length_le
  refine helpFits_of_founds (h.calls_ok buf) ?_
  rw [PrevDists.founds_concat, (found_lastCall hmin buf).2, List.length_append, List.length_singleton]
  omega

end Coders

/-! ## Round trip -/

/-- What the coder is told by the compressor of a method. -/
lemma exists_told {v : Variant} (hvariant : variant m = some v) (hm : m.Runs) (hadjust : adjust m = some m') (q₀ : Int)
    {data : List UInt8} {turns : ℕ} (hturns : data.length < turns) :
    ∃ (f : Σ M : Type, MatchFinder M) (calls : List Call) (buf S : Memory) (items : List Item),
      m'.told q₀ turns data = some (v.minLength, calls ++ [lastCall buf]) ∧ f.2.minLength = v.minLength ∧
      f.2.minLength ≤ 255 ∧ Tells f.2 m'.setup data calls S items := by
  obtain ⟨f, Good, hfinder, hmin, hcorrect⟩ := finderOf_spec ((variant_adjust hadjust).trans hvariant) q₀
  obtain ⟨calls, buf, S, items, hcalls, htells⟩ := torCompressChunk_spec (hm.setup_ok hadjust) hcorrect hturns
  refine ⟨f, calls, buf, S, items, ?_, hmin, hcorrect.le, htells⟩
  rw [PackMethod.told, hfinder]
  dsimp only
  rw [hcalls, hmin]
  rfl

/-- The header is read. -/
lemma decompressed_header (l : Leftovers) (fuel : ℕ) {v : Variant} (hmin : v.minLength ≤ 255)
    (hmethod : 1 ≤ m'.encodingMethod ∧ m'.encodingMethod ≤ 4) (hbuffer : m'.buffer < 2 ^ 32) (stream : List UInt8) :
    decompressed l fuel (header v m' ++ stream) =
      decodedBy l fuel m'.encodingMethod.toNat v.minLength m'.buffer stream := by
  have hcoded : ¬(v.dynamicCoder ∧ ¬(1 ≤ m'.encodingMethod ∧ m'.encodingMethod ≤ 4)) := fun h => h.2 hmethod
  have hvalue : leValue (put32 m'.buffer) = m'.buffer := leValue_leBytes_of_lt (by omega)
  rw [header, if_neg hcoded]
  change decodedBy l fuel (UInt8.ofNat (uint32 m'.encodingMethod)).toNat (UInt8.ofNat v.minLength).toNat
    (leValue (put32 m'.buffer)) stream = _
  have hmethod' : (UInt8.ofNat (uint32 m'.encodingMethod)).toNat = m'.encodingMethod.toNat := by
    rw [UInt8.toNat_ofNat']
    unfold uint32
    omega
  rw [hvalue, hmethod', UInt8.toNat_ofNat', Nat.mod_eq_of_lt (by omega : v.minLength < 2 ^ 8)]

end DArc.Tornado
