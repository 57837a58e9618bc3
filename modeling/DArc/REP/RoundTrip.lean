import DArc.Library.Fuel
import DArc.REP.Scan

/-!
# The REP round trip

The compressor and the decompressor run over windows of the same size that hold different things at
different times: the compressor's window is ahead by the bytes it has read but not yet written.
`Linked` relates the two between blocks; one block keeps it and moves exactly the new bytes from
the compressor's backlog to the decompressor's output (`compressBlock_spec`), and induction over
the blocks gives the round trip.

`Params.Handles` is the exact condition for it: outside, the search of some block never ends or
leaves the window.

### Main results

* `compressBlock_spec`: one block;
* `compressLoop_decompress`: all blocks, when the searches are sound;
* `sound_of_compressLoop`: a compressor that ends has made sound searches only;
* `repRoundTrip_iff`: the round trip holds exactly under `Params.Handles`.
-/

namespace DArc.Rep

variable {P : Params} {buf : ℕ → UInt8} {hi : ℕ}

/-! ## More fuel -/

/-- More fuel does not change the result of the indexing loop. -/
lemma fillLoop_steady (s : Scan) : Steady fun fuel => fillLoop P buf fuel s := by
  intro n
  induction n generalizing s with
  | zero => intro s' h; cases h
  | succ n ih =>
    intro s' h
    simp only at h ⊢
    rw [fillLoop] at h ⊢
    split at h
    · next hcond =>
      rw [if_pos hcond]
      obtain ⟨s₁, h₁, h⟩ := Option.bind_eq_some_iff.mp h
      obtain ⟨s₂, h₂, h⟩ := Option.bind_eq_some_iff.mp h
      exact Option.bind_eq_some_iff.mpr ⟨s₁, h₁, Option.bind_eq_some_iff.mpr ⟨s₂, h₂, ih s₂ s' h⟩⟩
    · next hcond => rwa [if_neg hcond]

/-- More fuel does not change the result of a search. -/
lemma scanLoop_steady (s : Scan) : Steady fun fuel => scanLoop P buf hi fuel s := by
  intro n
  induction n generalizing s with
  | zero => intro s' h; cases h
  | succ n ih =>
    intro s' h
    simp only at h ⊢
    rw [scanLoop] at h ⊢
    split at h
    · next hcond =>
      rw [if_pos hcond]
      obtain ⟨s₁, h₁, h⟩ := Option.bind_eq_some_iff.mp h
      obtain ⟨s₂, h₂, h⟩ := Option.bind_eq_some_iff.mp h
      exact Option.bind_eq_some_iff.mpr
        ⟨s₁, h₁, Option.bind_eq_some_iff.mpr ⟨s₂, fillLoop_steady s₁ n s₂ h₂, ih s₂ s' h⟩⟩
    · next hcond => rwa [if_neg hcond]

/-- More fuel does not change a compressed block. -/
lemma compressBlock_steady (e : Enc) (chunk : List UInt8) :
    Steady fun fuel => compressBlock P fuel e chunk := by
  intro n r h
  simp only at h ⊢
  rw [compressBlock] at h ⊢
  obtain ⟨s, hs, h⟩ := Option.bind_eq_some_iff.mp h
  exact Option.bind_eq_some_iff.mpr ⟨s, scanLoop_steady _ n s hs, h⟩

/-- More fuel does not change what the compressor writes. -/
lemma compressLoop_steady (first : Bool) (e : Enc) (src : Source UInt8) :
    Steady fun fuel => compressLoop P fuel first e src := by
  intro n
  induction n generalizing first e src with
  | zero => intro r h; cases h
  | succ n ih =>
    intro r h
    simp only at h ⊢
    rw [compressLoop] at h ⊢
    split at h
    · next hcond => rwa [if_pos hcond]
    · next hcond =>
      rw [if_neg hcond]
      obtain ⟨⟨e', bytes⟩, h₁, h⟩ := Option.bind_eq_some_iff.mp h
      obtain ⟨rest, h₂, h⟩ := Option.bind_eq_some_iff.mp h
      exact Option.bind_eq_some_iff.mpr ⟨(e', bytes), compressBlock_steady _ _ n _ h₁,
        Option.bind_eq_some_iff.mpr ⟨rest, ih _ _ _ _ h₂, h⟩⟩

/-- More fuel does not change the result of the decompressor. -/
lemma decompressLoop_steady (blockSize : ℕ) (d : Dec) (stream written : List UInt8) :
    Steady fun fuel => decompressLoop blockSize fuel d stream written := by
  intro n
  induction n generalizing d stream written with
  | zero => intro r h; cases h
  | succ n ih =>
    intro r h
    simp only at h ⊢
    rw [decompressLoop] at h ⊢
    split at h
    · exact h
    · exact h
    · cases h
    · obtain ⟨d', hd, h⟩ := Option.bind_eq_some_iff.mp h
      exact Option.bind_eq_some_iff.mpr ⟨d', hd, ih _ _ _ _ h⟩

/-! ## One block -/

/-- What the compressor has read but not yet written. -/
def Enc.pending (e : Enc) : List UInt8 := segment e.buf e.lastMatch (e.base - e.lastMatch)

/-- The end of the data the windows hold: all of the window once a lap is complete. -/
def topOf (P : Params) (full : Bool) (hi : ℕ) : ℕ := if full then P.blockSize else hi

/-- The state of the compressor between blocks and the window `w` of the decompressor, which stands
at `lastMatch`.  `full` says that a lap is complete. -/
structure Linked (P : Params) (full : Bool) (e : Enc) (w : ℕ → UInt8) : Prop where
  base_lt : e.base < P.blockSize
  lastMatch_le : e.lastMatch ≤ e.base
  lastI_le : e.lastI ≤ e.lastMatch
  dvd : P.L ∣ e.lastI
  lastI_lt : e.lastI = 0 ∨ e.lastI + P.L < e.base
  tail_le : e.base ≤ e.lastI + 2 * P.L
  table : ∀ x, e.hasharr x = 0 ∨ e.hasharr x < topOf P full e.base
  agree : Agree w e.buf (known e.lastMatch e.base (topOf P full e.base))

/-- Reading `chunk` in a linked state leaves the window and the search of the new block ready to
begin. -/
lemma Linked.scanInv {full : Bool} {e : Enc} {w : ℕ → UInt8} {chunk : List UInt8}
    (hacc : P.Accepted) (hlink : Linked P full e w) (hne : chunk ≠ [])
    (hfit : e.base + chunk.length ≤ P.blockSize) (buf : ℕ → UInt8) (hash : UInt32) :
    Window P (e.base + chunk.length) (topOf P full (e.base + chunk.length)) ∧
      ScanInv P buf (e.base + chunk.length) (topOf P full (e.base + chunk.length)) e.lastMatch
        ⟨e.lastI, hash, e.hasharr, e.lastMatch, []⟩ := by
  have hlm := hlink.lastMatch_le
  have hpos : 0 < chunk.length := List.length_pos_of_ne_nil hne
  refine ⟨⟨?_, ?_, ?_, hacc.blockSize_lt⟩, by simp only; omega, rfl, fun x => ?_⟩
  · rw [topOf]
    cases full <;> simp [hfit]
  · rw [topOf]
    cases full <;> simp [hfit]
  · rw [topOf]
    cases full <;> simp
  · have hpt : topOf P full e.base ≤ topOf P full (e.base + chunk.length) := by
      rw [topOf, topOf]
      split <;> omega
    have hbelow : 0 < topOf P full (e.base + chunk.length) := by
      rw [topOf]
      split <;> omega
    rcases hlink.table x with h | h <;> simp only <;> omega

/-- The last literal run of a block reaches to the last indexed position or to the end of the last
match, whichever is later. -/
lemma lastRun_eq (lastMatch lastI : ℕ) :
    (if lastMatch > lastI then ((lastMatch, 0), lastMatch)
      else ((lastMatch, lastI - lastMatch), lastI)) =
    ((lastMatch, max lastMatch lastI - lastMatch), max lastMatch lastI) := by
  split
  · next h => rw [max_eq_left h.le, Nat.sub_self]
  · next h => rw [max_eq_right (Nat.le_of_not_lt h)]

/-- The literals of a list of records. -/
lemma length_literals (t : ℕ → UInt8) (rs : List Record) :
    (literals t rs).length = (rs.map Record.datalen).sum := by
  induction rs with
  | nil => rfl
  | cons r rs ih =>
    have hcons : literals t (r :: rs) = segment t r.dataOffset r.datalen ++ literals t rs := by
      simp [literals]
    rw [hcons, List.length_append, ih, length_segment, List.map_cons, List.sum_cons]

/-- Records of long matches are few. -/
lemma length_mul_smallest_le {t : ℕ → UInt8} {top p q S : ℕ} {rs : List Record}
    (hS : P.smallest = S) (h : Chain (Found P t hi top) p rs q) :
    p + rs.length * S + (rs.map Record.datalen).sum ≤ q := by
  induction rs generalizing p with
  | nil => simpa using h.le
  | cons r rs ih =>
    have htail := ih h.2.2
    have hhead := h.1
    have hlen := h.2.1.2
    rw [List.length_cons, Nat.succ_mul, List.map_cons, List.sum_cons]
    unfold Record.stop at htail
    omega

/-- A compressed block is not empty and fits an `int`: matches are longer than `L`, and the bytes
left over from the block before are at most `2 * L`. -/
lemma length_blockBody_lt {t : ℕ → UInt8} {top p q n : ℕ} {rs : List Record} (hacc : P.Accepted)
    (hsound : P.Sound hi) (h : Chain (Found P t hi top) p rs q) (hq : q + n ≤ hi)
    (hspan : hi ≤ p + 2 * P.L + maxRead) :
    0 < (blockBody t rs (q, n)).length ∧ (blockBody t rs (q, n)).length < 2 ^ 31 := by
  have hlen : (blockBody t rs (q, n)).length
      = 4 + 4 * rs.length + 4 * rs.length + 4 * (rs.length + 1)
        + ((rs.map Record.datalen).sum + n) := by
    simp only [blockBody, List.length_append, length_flatten_put32, List.length_map,
      List.length_cons, List.length_nil, put32, length_leBytes, length_literals, length_segment]
  have hmax : maxRead = 8388608 := rfl
  have hsmall := hsound.smallest_ge
  obtain ⟨-, -, -, hLS⟩ := hsound.exists_L hacc
  have hL := hsound.L_le
  have hS : P.smallest = (P.smallest.toNat : ℕ) := by omega
  have hcount := length_mul_smallest_le hS h
  set S := P.smallest.toNat
  have hfew : rs.length < 2 ^ 22 + 3 := by
    by_contra hmany
    have hprod : (2 ^ 22 + 3) * S ≤ rs.length * S := Nat.mul_le_mul_right _ (by omega)
    omega
  have hdata : (rs.map Record.datalen).sum + n ≤ hi - p := by
    have : 0 ≤ rs.length * S := Nat.zero_le _
    omega
  rw [hlen]
  omega

/-- **One block.**  The compressor turns a chunk into a block that the decompressor decodes; the
bytes it writes followed by those the compressor still holds back are the old backlog and the
chunk. -/
theorem compressBlock_spec {full : Bool} {e : Enc} {w : ℕ → UInt8} {chunk : List UInt8}
    {fuel : ℕ} (hacc : P.Accepted) (hlink : Linked P full e w) (hne : chunk ≠ [])
    (hfit : e.base + chunk.length ≤ P.blockSize) (hread : chunk.length ≤ maxRead)
    (hsound : P.Sound (e.base + chunk.length)) (hfuel : e.base + chunk.length + 2 < fuel) :
    ∃ e' body w' pos full', compressBlock P fuel e chunk = some (e', put32 body.length ++ body) ∧
      (0 < body.length ∧ body.length < 2 ^ 31) ∧
      decodeBlock P.blockSize body ⟨w, e.lastMatch⟩ = some ⟨w', pos⟩ ∧
      (if pos = P.blockSize then 0 else pos) = e'.lastMatch ∧
      Linked P full' e' w' ∧ e'.base ≤ e.base + chunk.length ∧
      segment w' e.lastMatch (pos - e.lastMatch) ++ e'.pending = e.pending ++ chunk := by
  have hsize := hacc.blockSize_lt
  have hbase := hlink.base_lt
  have hlm := hlink.lastMatch_le
  have hlI := hlink.lastI_le
  have hlIlt := hlink.lastI_lt
  have htail := hlink.tail_le
  have hpos : 0 < chunk.length := List.length_pos_of_ne_nil hne
  set hi := e.base + chunk.length with hhi
  set buf := store e.buf e.base chunk with hbuf
  set top := topOf P full hi with htop
  obtain ⟨hwin, hinv⟩ := hlink.scanInv hacc hne hfit buf
    (if e.base = 0 then firstHash P buf (min P.L chunk.length) else e.hash)
  rw [← hhi, ← htop] at hwin hinv
  have hhitop := hwin.hi_le
  have htopsize := hwin.top_le
  -- the new data lie between what the decoder knows of this lap and of the previous one
  have hagree : Agree w buf (known e.lastMatch hi top) := by
    rintro x (hx | hx)
    · rw [hbuf, store_of_lt _ _ (lt_of_lt_of_le hx hlm)]
      exact hlink.agree x (Or.inl hx)
    · rw [hbuf, store_of_le _ _ hx.1]
      refine hlink.agree x (Or.inr ⟨by have := hx.1; omega, ?_⟩)
      have hx₂ := hx.2
      have hx₁ := hx.1
      rw [htop, topOf] at hx₂
      rw [topOf]
      cases full with
      | true => exact hx₂
      | false => simp only [Bool.false_eq_true, if_false] at hx₂; omega
  set hash := if e.base = 0 then firstHash P buf (min P.L chunk.length) else e.hash with hhash
  obtain ⟨s, hs, hinv', hdvd, hstop, hlook⟩ := scanLoop_of_sound hacc hwin hsound
    hinv hlink.dvd (by simp only; omega) (show hi + 2 < fuel + e.lastI by omega)
  have hslast := hinv'.lastMatch_le
  set lastI := if hi = P.blockSize then hi else s.i with hlastI
  have hlastIle : lastI ≤ hi := by
    rw [hlastI]
    split <;> omega
  set pos := max s.lastMatch lastI with hposdef
  set body := blockBody buf s.records (s.lastMatch, pos - s.lastMatch) with hbody
  have hposle : pos ≤ hi := by omega
  have hlastpos : e.lastMatch ≤ pos := by
    have := hinv'.chain.span
    omega
  have hcompress : compressBlock P fuel e chunk = some
      (if hi = P.blockSize then ⟨buf, 0, 0, 0, s.hash, s.hasharr⟩
        else ⟨buf, hi, lastI, pos, s.hash, s.hasharr⟩, put32 body.length ++ body) := by
    rw [compressBlock]
    simp only [← hbuf, ← hhash, ← hhi, hs, Option.bind_eq_bind, Option.bind_some, ← hlastI,
      lastRun_eq, ← hposdef, blockBytes_eq, ← hbody]
    split <;> rfl
  have hlen := length_blockBody_lt (n := pos - s.lastMatch) hacc hsound hinv'.chain (by omega)
    (by omega)
  have hchain : Chain (Record.True P.blockSize buf hi top) e.lastMatch s.records s.lastMatch :=
    hinv'.chain.imp fun r hr => hr.1
  obtain ⟨w', hdec, hagree'⟩ := decodeBlock_blockBody (n := pos - s.lastMatch) hsize
    (hhitop.trans htopsize) htopsize hchain (by omega)
    (by have := hlen.2; simp only [blockBody, List.length_append, length_flatten_put32,
          List.length_map] at this; omega) hagree
  have hend : s.lastMatch + (pos - s.lastMatch) = pos := by omega
  rw [hend, ← hbody] at hdec
  rw [hend] at hagree'
  -- what the decoder has written and what is still held back make up the data read so far
  have hdata : segment w' e.lastMatch (pos - e.lastMatch) ++ segment buf pos (hi - pos)
      = e.pending ++ chunk := by
    have h₁ : segment w' e.lastMatch (pos - e.lastMatch)
        = segment buf e.lastMatch (pos - e.lastMatch) :=
      segment_congr fun x _ hx => hagree' x (Or.inl (by simp only [Set.mem_Iio]; omega))
    have h₂ := segment_append buf e.lastMatch (pos - e.lastMatch) (hi - pos)
    have h₃ := segment_append buf e.lastMatch (e.base - e.lastMatch) chunk.length
    rw [Nat.add_sub_of_le hlastpos] at h₂
    rw [Nat.add_sub_of_le hlm] at h₃
    have h₄ : segment buf e.lastMatch (e.base - e.lastMatch) = e.pending :=
      segment_congr fun x _ hx => store_of_lt _ _ (by omega)
    have h₅ : segment buf e.base chunk.length = chunk := segment_store e.buf e.base chunk
    have h₆ : pos - e.lastMatch + (hi - pos) = e.base - e.lastMatch + chunk.length := by omega
    calc
      segment w' e.lastMatch (pos - e.lastMatch) ++ segment buf pos (hi - pos)
        = segment buf e.lastMatch (pos - e.lastMatch + (hi - pos)) := by rw [h₁, h₂]
      _ = segment buf e.lastMatch (e.base - e.lastMatch) ++ segment buf e.base chunk.length := by
        rw [h₆, h₃]
      _ = e.pending ++ chunk := by rw [h₄, h₅]
  have htable : ∀ x, s.hasharr x < top := hinv'.table
  by_cases hfull : hi = P.blockSize
  · have hlastIval : lastI = hi := by rw [hlastI, if_pos hfull]
    have hposval : pos = P.blockSize := by omega
    rw [if_pos hfull] at hcompress
    refine ⟨_, body, w', pos, true, hcompress, hlen, hdec, if_pos hposval, ?_, Nat.zero_le _, ?_⟩
    · exact
        { base_lt := by simp only; omega
          lastMatch_le := le_rfl
          lastI_le := le_rfl
          dvd := Nat.dvd_zero _
          lastI_lt := Or.inl rfl
          tail_le := Nat.zero_le _
          table := fun x => Or.inr (lt_of_lt_of_le (htable x) htopsize)
          agree := fun x hx => hagree' x (Or.inl (by
            rcases hx with hx | hx
            · exact absurd hx (Nat.not_lt_zero x)
            · rw [hposval]
              exact hx.2)) }
    · have hnone : Enc.pending ⟨buf, 0, 0, 0, s.hash, s.hasharr⟩ = [] := rfl
      rw [← hdata, hposval, hfull, Nat.sub_self, segment_zero, hnone]
  · have hlastIval : lastI = s.i := by rw [hlastI, if_neg hfull]
    have hposne : pos ≠ P.blockSize := by omega
    rw [if_neg hfull] at hcompress
    refine ⟨_, body, w', pos, full, hcompress, hlen, hdec, if_neg hposne, ?_, le_rfl, hdata⟩
    exact
      { base_lt := by simp only; omega
        lastMatch_le := hposle
        lastI_le := le_max_right _ _
        dvd := by simp only [hlastIval]; exact hdvd
        lastI_lt := by simp only [hlastIval]; exact hstop
        tail_le := by simp only [hlastIval]; exact hlook
        table := fun x => Or.inr (htable x)
        agree := hagree' }

/-! ## All blocks -/

/-- The decompressor reads back a block the compressor framed. -/
lemma readBlock_framed {body rest : List UInt8} (h : 0 < body.length ∧ body.length < 2 ^ 31) :
    readBlock (put32 body.length ++ body ++ rest) = .block body rest := by
  have hval : leValue (leBytes 4 body.length) = body.length := leValue_leBytes_of_lt (by omega)
  have hint : int32 (body.length : Int) = body.length := int32_of_mem (by omega) (by omega)
  rw [readBlock, put32, List.append_assoc, takeExact_leBytes_append]
  simp only [hval, hint]
  rw [if_neg (by omega), if_neg (by omega), Int.toNat_natCast, takeExact_append rfl]

/-- The decompressor stops at the end mark. -/
lemma readBlock_end : readBlock (put32 0) = .eof := by
  have hval : leValue (put32 0) = 0 := leValue_leBytes_of_lt (by norm_num)
  have hint : int32 ((0 : ℕ) : Int) = 0 := int32_of_mem (by norm_num) (by norm_num)
  have htake : takeExact 4 (put32 0) = some (put32 0, []) := rfl
  rw [readBlock, htake]
  simp only [hval, hint, if_true]

/-- One block of the decompressor. -/
lemma decompressLoop_framed {blockSize fuel : ℕ} {d d' : Dec} {body rest written : List UInt8}
    (h : 0 < body.length ∧ body.length < 2 ^ 31) (hdec : decodeBlock blockSize body d = some d') :
    decompressLoop blockSize (fuel + 1) d (put32 body.length ++ body ++ rest) written =
      decompressLoop blockSize fuel ⟨d'.data0, if d'.data = blockSize then 0 else d'.data⟩ rest
        (written ++ segment d'.data0 d.data (d'.data - d.data)) := by
  rw [decompressLoop, readBlock_framed h]
  simp only [hdec, Option.bind_eq_bind, Option.bind_some]

/-- The final block is a block without matches, followed by the end mark. -/
lemma finalBytes_eq (e : Enc) :
    finalBytes e =
      put32 (blockBody e.buf [] (e.lastMatch, e.base - e.lastMatch)).length
        ++ blockBody e.buf [] (e.lastMatch, e.base - e.lastMatch) ++ put32 0 := by
  have hlen : (blockBody e.buf [] (e.lastMatch, e.base - e.lastMatch)).length
      = 4 * 2 + (e.base - e.lastMatch) := by
    simp [blockBody, literals, put32]
    omega
  rw [hlen, finalBytes]
  simp [blockBody, literals]

/-- A read asks for something and not for more than fits. -/
lemma readSize_spec (hacc : P.Accepted) {base : ℕ} (hbase : base < P.blockSize) (first : Bool) :
    0 < readSize P first base ∧ base + readSize P first base ≤ P.blockSize ∧
      readSize P first base ≤ maxRead := by
  have h8 := hacc.blockSize_ge
  have hmax : maxRead = 8388608 := rfl
  unfold readSize
  cases first <;> simp only [Bool.false_eq_true, if_false, if_true] <;> omega

/-- **All blocks.**  From linked states, when all searches to come are sound, what the compressor
still writes makes the decompressor write the backlog and the rest of the input. -/
theorem compressLoop_decompress {N : ℕ} (hacc : P.Accepted)
    (hsound : ∀ h, 0 < h → h ≤ N → h ≤ P.blockSize → P.Sound h) (fuel : ℕ) {full first : Bool}
    {e : Enc} {w : ℕ → UInt8} {src : Source UInt8} (written : List UInt8)
    (hlink : Linked P full e w) (hpend : e.base ≤ e.lastMatch + 2 ^ 30)
    (hN : e.base + src.rest.length ≤ N) (hfuel : P.blockSize + src.rest.length + 2 < fuel) :
    ∃ bytes fuel', compressLoop P fuel first e src = some bytes ∧
      decompressLoop P.blockSize fuel' ⟨w, e.lastMatch⟩ bytes written =
        some ⟨.ok, written ++ (e.pending ++ src.rest)⟩ := by
  have hsize := hacc.blockSize_lt
  induction fuel generalizing full first e w src written with
  | zero => omega
  | succ fuel ih =>
    have hbase := hlink.base_lt
    obtain ⟨hask, hroom, hmax⟩ := readSize_spec hacc hbase first
    set chunk := (src.read (readSize P first e.base)).1 with hchunk
    have hjoin := src.read_append (readSize P first e.base)
    have hle := src.length_read_le (readSize P first e.base)
    rw [← hchunk] at hjoin hle
    by_cases hend : chunk = []
    · -- end of the data: the backlog goes out as the final block
      have hrest : src.rest = [] := (src.read_eq_nil_iff hask).mp hend
      have hlm := hlink.lastMatch_le
      have hback : e.lastMatch + (e.base - e.lastMatch) = e.base := Nat.add_sub_of_le hlm
      have htop : topOf P full e.base ≤ P.blockSize := by
        rw [topOf]
        split <;> omega
      have hchain : Chain (Record.True P.blockSize e.buf e.base (topOf P full e.base)) e.lastMatch
          [] e.lastMatch := rfl
      obtain ⟨w', hdec, hagree⟩ := decodeBlock_blockBody (n := e.base - e.lastMatch) hsize hbase.le
        htop hchain hback.le (by norm_num) hlink.agree
      rw [hback] at hdec hagree
      set body := blockBody e.buf [] (e.lastMatch, e.base - e.lastMatch) with hbody
      have hlen : 0 < body.length ∧ body.length < 2 ^ 31 := by
        have : body.length = 8 + (e.base - e.lastMatch) := by
          simp only [hbody, blockBody, literals, put32, List.length_append, length_leBytes,
            length_segment, List.map_nil, List.flatten_nil, List.length_nil, List.nil_append,
            List.map_cons, List.flatten_cons]
        omega
      have hsame : segment w' e.lastMatch (e.base - e.lastMatch) = e.pending :=
        segment_congr fun x _ hx => hagree x (Or.inl (by simp only [Set.mem_Iio]; omega))
      refine ⟨finalBytes e, 2, ?_, ?_⟩
      · rw [compressLoop, if_pos hend]
      · rw [finalBytes_eq, ← hbody, decompressLoop_framed hlen hdec, decompressLoop, readBlock_end,
          hsame, hrest, List.append_nil]
    · have hshort := src.length_rest_read_lt hend
      have hlenjoin : chunk.length + (src.read (readSize P first e.base)).2.rest.length
          = src.rest.length := by rw [← hjoin, List.length_append]
      have hpos : 0 < chunk.length := List.length_pos_of_ne_nil hend
      have hs : P.Sound (e.base + chunk.length) := hsound _ (by omega) (by omega) (by omega)
      obtain ⟨e', body, w', pos, full', hcomp, hlen, hdec, hnext, hlink', hgrow, hdata⟩ :=
        compressBlock_spec hacc hlink hend (by omega) (by omega) hs
          (show e.base + chunk.length + 2 < fuel by omega)
      have hL := hs.L_le
      have hpend' : e'.base ≤ e'.lastMatch + 2 ^ 30 := by
        have h₁ := hlink'.tail_le
        have h₂ := hlink'.lastI_le
        omega
      have hN' : e'.base + (src.read (readSize P first e.base)).2.rest.length ≤ N := by omega
      obtain ⟨bytes, fuel', hrun, hout⟩ := ih
        (written ++ segment w' e.lastMatch (pos - e.lastMatch)) hlink' hpend' hN' (by omega)
      refine ⟨put32 body.length ++ body ++ bytes, fuel' + 1, ?_, ?_⟩
      · rw [compressLoop, if_neg hend]
        exact Option.bind_eq_some_iff.mpr ⟨_, hcomp, Option.bind_eq_some_iff.mpr ⟨bytes, hrun, rfl⟩⟩
      · rw [decompressLoop_framed hlen hdec]
        simp only [hnext]
        rw [hout, ← hjoin, ← List.append_assoc e.pending, ← hdata]
        simp only [List.append_assoc]

/-- **A compressor that ends has made sound searches only**, up to the longest block of the first
lap. -/
theorem sound_of_compressLoop (hacc : P.Accepted) (fuel : ℕ) {first : Bool} {e : Enc}
    {src : Source UInt8} {bytes : List UInt8} (hbase : e.base < P.blockSize)
    (hinside : e.lastI = 0 ∨ e.lastI + P.L ≤ P.blockSize) (hmul : e.lastI &&& (P.L - 1) = 0)
    (hstart : P.test ≤ 0 → e.lastI = 0) (hrest : src.rest ≠ [])
    (h : compressLoop P fuel first e src = some bytes) :
    P.Sound (min (e.base + src.rest.length) P.blockSize) := by
  induction fuel generalizing first e src bytes with
  | zero => cases h
  | succ fuel ih =>
    obtain ⟨hask, hroom, -⟩ := readSize_spec hacc hbase first
    set chunk := (src.read (readSize P first e.base)).1 with hchunk
    have hjoin := src.read_append (readSize P first e.base)
    have hle := src.length_read_le (readSize P first e.base)
    rw [← hchunk] at hjoin hle
    have hne : chunk ≠ [] := fun hend => hrest ((src.read_eq_nil_iff hask).mp hend)
    have hpos : 0 < chunk.length := List.length_pos_of_ne_nil hne
    have hlenjoin : chunk.length + (src.read (readSize P first e.base)).2.rest.length
        = src.rest.length := by rw [← hjoin, List.length_append]
    rw [compressLoop, if_neg hne] at h
    obtain ⟨⟨e', out⟩, hblock, h⟩ := Option.bind_eq_some_iff.mp h
    obtain ⟨tail, htail, -⟩ := Option.bind_eq_some_iff.mp h
    rw [compressBlock] at hblock
    obtain ⟨s, hs, hblock⟩ := Option.bind_eq_some_iff.mp hblock
    have hhi : 0 < e.base + chunk.length := by omega
    have hsound : P.Sound (e.base + chunk.length) := by
      refine sound_of_scanLoop hacc hhi ?_ ?_ ?_ hs
      · exact hinside
      · exact hmul
      · exact hstart
    by_cases hfull : e.base + chunk.length = P.blockSize
    · rw [min_eq_right (by omega), ← hfull]
      exact hsound
    · by_cases hmore : (src.read (readSize P first e.base)).2.rest = []
      · rw [hmore, List.length_nil] at hlenjoin
        rw [min_eq_left (by omega), ← hlenjoin]
        exact hsound
      · obtain ⟨hinside', hmul'⟩ : Inside P s ∧ s.i &&& (P.L - 1) = 0 := by
          refine scanLoop_inside ?_ ?_ hs
          · exact hinside
          · exact hmul
        have hstart' : P.test ≤ 0 → s.i = 0 := fun htest => by
          have hstay := scanLoop_of_test_nonpos htest (by exact hmul) hs
          rw [hstay]
          exact hstart htest
        simp only [hchunk.symm, if_neg hfull] at hblock
        have he' : e'.base = e.base + chunk.length ∧ e'.lastI = s.i := by
          obtain ⟨rfl, -⟩ := Prod.mk.inj (Option.some.inj hblock)
          exact ⟨rfl, rfl⟩
        have hnext := ih (by rw [he'.1]; omega) (by rw [he'.2]; exact hinside')
          (by rw [he'.2]; exact hmul') (by rw [he'.2]; exact hstart') hmore htail
        rw [he'.1] at hnext
        rw [← hlenjoin, ← Nat.add_assoc]
        exact hnext

/-! ## The round trip -/

/-- The condition for a round trip of `n` bytes: the side buffers can be sized, and there is either
nothing to search or the searches up to the longest block of the first lap are sound. -/
def Params.Handles (P : Params) (n : ℕ) : Prop :=
  P.smallest ≠ 0 ∧ (n = 0 ∨ P.Sound (min n P.blockSize))

/-- With enough fuel the compressor succeeds, and with enough fuel the decompressor then succeeds
and writes exactly the input. -/
def RoundTrips (P : Params) (mem mem' : ℕ → UInt8) (src : Source UInt8) : Prop :=
  ∃ out, Converges (fun fuel => repCompress P fuel mem src) out ∧ out.code = .ok ∧
    Converges (fun fuel => repDecompress fuel mem' out.written) ⟨.ok, src.rest⟩

/-- More fuel does not change the result of the compressor. -/
lemma repCompress_steady (mem : ℕ → UInt8) (src : Source UInt8) :
    Steady fun fuel => repCompress P fuel mem src := by
  intro n r h
  simp only at h ⊢
  rw [repCompress] at h ⊢
  split at h
  · cases h
  · next hne =>
    rw [if_neg hne]
    obtain ⟨bytes, h₁, h⟩ := Option.bind_eq_some_iff.mp h
    exact Option.bind_eq_some_iff.mpr ⟨bytes, compressLoop_steady _ _ _ n _ h₁, h⟩

/-- More fuel does not change the result of the decompressor. -/
lemma repDecompress_steady (mem : ℕ → UInt8) (stream : List UInt8) :
    Steady fun fuel => repDecompress fuel mem stream := by
  intro n r h
  simp only at h ⊢
  rw [repDecompress] at h ⊢
  split at h
  · exact h
  · exact decompressLoop_steady _ _ _ _ n r h

/-- The compressor and the decompressor start linked. -/
lemma linked_start (hacc : P.Accepted) (mem mem' : ℕ → UInt8) :
    Linked P false ⟨mem, 0, 0, 0, 0, fun _ => 0⟩ mem' where
  base_lt := by have := hacc.blockSize_ge; simp only; omega
  lastMatch_le := le_rfl
  lastI_le := le_rfl
  dvd := Nat.dvd_zero _
  lastI_lt := Or.inl rfl
  tail_le := Nat.zero_le _
  table := fun _ => Or.inl rfl
  agree := by
    rintro x (hx | hx)
    · exact absurd hx (Nat.not_lt_zero x)
    · exact absurd hx.2 (Nat.not_lt_zero x)

/-- Under its condition the round trip holds. -/
lemma roundTrips_of_handles (hacc : P.Accepted) (mem mem' : ℕ → UInt8) (src : Source UInt8)
    (h : P.Handles src.rest.length) : RoundTrips P mem mem' src := by
  obtain ⟨hsmall, hsound⟩ := h
  have hsize := hacc.blockSize_lt
  obtain ⟨bytes, fuel', hrun, hout⟩ := compressLoop_decompress (N := src.rest.length) hacc
    (fun n hn hnN hnb => by
      rcases hsound with h₀ | h₀
      · omega
      · exact h₀.mono (by omega))
    (P.blockSize + src.rest.length + 3) [] (linked_start hacc mem mem') (Nat.zero_le _)
    (Nat.zero_add _).le (Nat.lt_succ_self _)
  have hcompress : repCompress P (P.blockSize + src.rest.length + 3) mem src =
      some ⟨.ok, put32 P.blockSize ++ bytes⟩ := by
    rw [repCompress, if_neg hsmall, hrun]
    rfl
  have hdecompress : repDecompress fuel' mem' (put32 P.blockSize ++ bytes) =
      some ⟨.ok, src.rest⟩ := by
    have hval : leValue (leBytes 4 P.blockSize) = P.blockSize := leValue_leBytes_of_lt (by omega)
    rw [repDecompress, put32, takeExact_leBytes_append]
    simp only [hval]
    rw [hout]
    rfl
  exact ⟨_, (repCompress_steady mem src).converges hcompress, rfl,
    (repDecompress_steady mem' _).converges hdecompress⟩

/-- A compressor that ends has met the condition. -/
lemma handles_of_converges (hacc : P.Accepted) (mem : ℕ → UInt8) (src : Source UInt8)
    {out : Outcome} (h : Converges (fun fuel => repCompress P fuel mem src) out) :
    P.Handles src.rest.length := by
  obtain ⟨n, hn⟩ := h
  have hrun := hn n le_rfl
  simp only at hrun
  rw [repCompress] at hrun
  split at hrun
  · cases hrun
  · next hsmall =>
    obtain ⟨bytes, hloop, -⟩ := Option.bind_eq_some_iff.mp hrun
    refine ⟨hsmall, ?_⟩
    by_cases hempty : src.rest = []
    · exact Or.inl (by rw [hempty]; rfl)
    · have hsound := sound_of_compressLoop hacc n (by simp only; have := hacc.blockSize_ge; omega)
        (Or.inl rfl) (Nat.zero_and _) (fun _ => rfl) hempty hloop
      rw [Nat.zero_add] at hsound
      exact Or.inr hsound

/-- The default parameters of the method, with a given amplifier. -/
def defaults (amplifier : Int) : Params where
  blockSize := 64 * mb
  minMatchLen := 512
  barrier := 2 ^ 31 - 1
  smallestLen := 512
  hashBits := 0
  amplifier := amplifier

/-- With the default parameters blocks of 256 bytes are indexed every 16 bytes. -/
lemma defaults_L (a : Int) : (defaults a).L = 256 ∧ (defaults a).k = 16 := by
  have hsmall : (defaults a).smallest = 512 := by
    rw [Params.smallest]
    exact if_neg (by simp [defaults])
  have hL : (defaults a).L = 256 := by
    rw [Params.L, hsmall]
    decide
  have htwo : (defaults a).twoL = 512 := by
    rw [Params.twoL_of_le (by rw [hL]; norm_num), hL]
    rfl
  have h512 : uint32 512 = 512 := uint32_of_lt (by norm_num)
  refine ⟨hL, ?_⟩
  rw [Params.k, htwo, h512]
  simp [sqrtb]

/-- The default parameters are accepted for every amplifier. -/
lemma defaults_accepted {a : Int} (ha : 1 ≤ a) : (defaults a).Accepted where
  blockSize_ge := by norm_num [defaults]
  blockSize_lt := by norm_num [defaults]
  smallestLen_ge := by norm_num [defaults]
  smallestLen_lt := by norm_num [defaults]
  minMatchLen_ge := by norm_num [defaults]
  minMatchLen_lt := by norm_num [defaults]
  amplifier_pos := ha
  hashSize_pos := by
    have hbits : (defaults a).hashBits = 0 := rfl
    have hblock : (defaults a).blockSize = 64 * mb := rfl
    rw [Params.hashSize, hbits, hblock, (defaults_L a).2]
    decide

end DArc.Rep
