import DArc.REP.RoundTrip

/-!
# The side buffers of the REP compressor

`rep_compress` collects the records of a block in four buffers, `lens`, `offsets`, `datalens` and
`dataOffsets`, allocated once with room for one number per `SmallestLen` bytes of a read, and one
more.  The buffers do not check for overflow, "because the algorithm guarantees that there is none".
`blockPuts` counts what a block puts into them, and `Comes` says between which blocks the compressor
can stand.

The guarantee rests on matches that do not overlap and are at least `SmallestLen` long, but a block
is searched over up to `2 * L` bytes more than were read for it.  `Params.mostMatches` is the
number of matches that fit into one block, from the three bounds there are: the matches lie between
the end of what was written and the end of the data; the window may be smaller than a read; and the
last match starts among the last positions that are tried.

### Outline

* the sizes and counts of the four buffers;
* what a search records (`Recorded`), lifted from one position to the whole search;
* the number of matches in one block (`length_records_le`).

### Main results

* `sideBuffersFit_of_mostMatches`: no overflow in any block of any run when the matches that fit
  into one block have room.
-/

namespace DArc.Rep

/-! ## Sizes and counts -/

namespace Params

variable (P : Params)

/-- `bsize`, the bytes each of the side buffers is allocated with. -/
def sideSize : ℕ := (min P.blockSize maxRead / uint32 P.smallest + 1) * 4

/-- The length of the shortest match that can be recorded.  No distance inside the window reaches a
barrier of the window's size. -/
def shortest : ℕ :=
  (if (P.blockSize : Int) ≤ P.barrier then P.minMatchLen else P.smallest).toNat

/-- What every read but the first asks for at most. -/
def laterRead : ℕ := min (P.blockSize / 8) maxRead

/-- The number of matches that fit into one block. -/
def mostMatches : ℕ :=
  if P.blockSize ≤ maxRead then P.blockSize / P.shortest
  else
    max (maxRead / P.shortest)
      (min ((P.laterRead + 2 * P.L) / P.shortest)
        ((((P.laterRead + P.L - 1) / P.L * P.L : ℕ) - P.L + P.test - 1).toNat / P.shortest + 1))

end Params

/-- How many numbers one block puts into each of the side buffers. -/
structure Puts where
  lens : ℕ
  offsets : ℕ
  datalens : ℕ
  dataOffsets : ℕ
  deriving DecidableEq, Repr

/-- All numbers, of four bytes each, lie inside buffers of `size` bytes. -/
structure Puts.Fit (u : Puts) (size : ℕ) : Prop where
  lens : 4 * u.lens ≤ size
  offsets : 4 * u.offsets ≤ size
  datalens : 4 * u.datalens ≤ size
  dataOffsets : 4 * u.dataOffsets ≤ size

variable (P : Params)

/-- What the block `chunk` puts into the side buffers: a number each for every match, and the final
literal run, which has an address only when it may have bytes. -/
def blockPuts (fuel : ℕ) (e : Enc) (chunk : List UInt8) : Option Puts := do
  let buf := store e.buf e.base chunk
  let hash := if e.base = 0 then firstHash P buf (min P.L chunk.length) else e.hash
  let hi := e.base + chunk.length
  let s ← scanLoop P buf hi fuel ⟨e.lastI, hash, e.hasharr, e.lastMatch, []⟩
  let lastI := if hi = P.blockSize then hi else s.i
  let n := s.records.length
  if s.lastMatch > lastI then some ⟨n, n, n + 1, n⟩ else some ⟨n, n, n + 1, n + 1⟩

/-- The chunk the compressor reads in state `e`. -/
def nextChunk (first : Bool) (e : Enc) (rest : Source UInt8) : List UInt8 :=
  (rest.read (readSize P first e.base)).1

/-- On the input `src` the compressor comes to the head of its loop over the blocks with the state
`e` and the input `rest` still to be read. -/
inductive Comes (mem : ℕ → UInt8) (src : Source UInt8) : Bool → Enc → Source UInt8 → Prop
  | start : Comes mem src true ⟨mem, 0, 0, 0, 0, fun _ => 0⟩ src
  | next {first : Bool} {e e' : Enc} {rest : Source UInt8} {fuel : ℕ} {bytes : List UInt8}
      (here : Comes mem src first e rest) (more : nextChunk P first e rest ≠ [])
      (block : compressBlock P fuel e (nextChunk P first e rest) = some (e', bytes)) :
      Comes mem src false e' (rest.read (readSize P first e.base)).2

/-- In every run over the input, no block puts more into the side buffers than they were allocated
with. -/
def SideBuffersFit (mem : ℕ → UInt8) (src : Source UInt8) : Prop :=
  ∀ first e rest, Comes P mem src first e rest → nextChunk P first e rest ≠ [] →
    ∀ fuel u, blockPuts P fuel e (nextChunk P first e rest) = some u → u.Fit P.sideSize

variable {P : Params} {buf : ℕ → UInt8} {hi top p₀ : ℕ}

/-! ## What a search records -/

/-- A record made at one of the positions before `stop`. -/
structure Recorded (P : Params) (stop : ℕ) (r : Record) : Prop where
  dataOffset_lt : r.dataOffset < stop
  shortest_le : P.shortest ≤ r.len

/-- Later positions are still before a later stop. -/
lemma Recorded.mono {stop stop' : ℕ} {r : Record} (h : Recorded P stop r) (hle : stop ≤ stop') :
    Recorded P stop' r :=
  ⟨h.dataOffset_lt.trans_le hle, h.shortest_le⟩

/-- Every extended match is as long as the shortest one. -/
lemma extendMatch_recorded {lastMatch i m : ℕ} {r : Record} (hlast : lastMatch ≤ i)
    (hi' : i < P.blockSize) (h : extendMatch P buf hi lastMatch i m = some r) :
    Recorded P (i + 1) r := by
  rw [extendMatch] at h
  obtain ⟨hlen, hr⟩ := Option.ite_none_right_eq_some.mp h
  obtain rfl := Option.some.inj hr
  refine ⟨Nat.lt_succ_of_le hlast, ?_⟩
  have hmin := P.smallest_le
  -- a distance is less than the size of the window
  have hneed : (P.shortest : Int) ≤ max 0
      (if (i : Int) - m < P.barrier then P.minMatchLen else P.smallest) := by
    unfold Params.shortest
    split_ifs <;> omega
  dsimp only
  omega

/-- Looking up a hash changes nothing, or adds a match around the current position. -/
lemma tryMatch_cases {s s' : Scan} (h : tryMatch P buf hi s = some s') :
    s' = s ∨ ∃ m r, s.lastMatch ≤ s.i ∧ extendMatch P buf hi s.lastMatch s.i m = some r ∧
      s' = { s with lastMatch := r.stop, records := s.records ++ [r] } := by
  rw [tryMatch] at h
  split at h
  · next hlast =>
    obtain ⟨x, -, h⟩ := Option.bind_eq_some_iff.mp h
    simp only at h
    split at h
    · split at h
      · exact Or.inl (Option.some.inj h).symm
      · split at h
        · next r hr => exact Or.inr ⟨_, r, hlast, hr, (Option.some.inj h).symm⟩
        · exact Or.inl (Option.some.inj h).symm
    · exact Or.inl (Option.some.inj h).symm
  · exact Or.inl (Option.some.inj h).symm

/-- One iteration looks up the hash, enters aligned positions, and moves on. -/
lemma testStep_cases {s s' : Scan} (h : testStep P buf hi s = some s') :
    ∃ s₁ s₂, tryMatch P buf hi s = some s₁ ∧
      (if s₁.i &&& P.k1 = 0 then insert P s₁ else some s₁) = some s₂ ∧ roll P buf s₂ = some s' := by
  rw [testStep] at h
  obtain ⟨s₁, h₁, h⟩ := Option.bind_eq_some_iff.mp h
  refine ⟨s₁, ?_⟩
  dsimp only at h
  split at h
  · next haligned =>
    obtain ⟨s₂, h₂, h₃⟩ := Option.bind_eq_some_iff.mp h
    exact ⟨s₂, h₁, by rw [if_pos haligned, h₂], h₃⟩
  · next haligned => exact ⟨s₁, h₁, by rw [if_neg haligned], h⟩

/-- Entering a position records nothing. -/
lemma insert_records {s s' : Scan} (h : insert P s = some s') :
    s'.i = s.i ∧ s'.records = s.records := by
  obtain ⟨x, -, h⟩ := Option.bind_eq_some_iff.mp h
  obtain rfl := Option.some.inj h
  exact ⟨rfl, rfl⟩

/-- Moving the hash on records nothing. -/
lemma roll_records {s s' : Scan} (h : roll P buf s = some s') :
    s.i < P.blockSize ∧ s'.i = s.i + 1 ∧ s'.records = s.records := by
  rw [roll] at h
  split at h
  · obtain rfl := Option.some.inj h
    exact ⟨by omega, rfl, rfl⟩
  · cases h

/-- Moving the hash on by several bytes records nothing. -/
lemma rollBy_records {n : ℕ} {s s' : Scan} (h : rollBy P buf n s = some s') :
    s'.i = s.i + n ∧ s'.records = s.records := by
  induction n generalizing s with
  | zero => exact Option.some.inj h ▸ ⟨rfl, rfl⟩
  | succ n ih =>
    obtain ⟨s₁, h₁, h⟩ := Option.bind_eq_some_iff.mp h
    obtain ⟨-, hi₁, hrec₁⟩ := roll_records h₁
    obtain ⟨hi₂, hrec₂⟩ := ih h
    exact ⟨by omega, by rw [hrec₂, hrec₁]⟩

/-- One iteration moves on by one and records at the current position only. -/
lemma testStep_records {s s' : Scan} (h : testStep P buf hi s = some s') :
    s'.i = s.i + 1 ∧ ∀ r ∈ s'.records, r ∈ s.records ∨ Recorded P (s.i + 1) r := by
  obtain ⟨s₁, s₂, h₁, h₂, h₃⟩ := testStep_cases h
  obtain ⟨hlt, hi₃, hrec₃⟩ := roll_records h₃
  have hstep₂ : s₂.i = s₁.i ∧ s₂.records = s₁.records := by
    split at h₂
    · exact insert_records h₂
    · exact Option.some.inj h₂ ▸ ⟨rfl, rfl⟩
  rcases tryMatch_cases h₁ with rfl | ⟨m, r, hlast, hr, rfl⟩
  · exact ⟨by omega, fun r hr => Or.inl (by rwa [← hstep₂.2, ← hrec₃])⟩
  · refine ⟨hi₃.trans (by rw [hstep₂.1]), fun r' hr' => ?_⟩
    rw [hrec₃, hstep₂.2] at hr'
    rcases List.mem_append.mp hr' with hold | hnew
    · exact Or.inl hold
    · obtain rfl := List.mem_singleton.mp hnew
      refine Or.inr (extendMatch_recorded hlast ?_ hr)
      exact hstep₂.1 ▸ hlt

/-- The loop over the first positions records at these positions only. -/
lemma testLoop_records {n : ℕ} {s s' : Scan} (h : testLoop P buf hi n s = some s') :
    s'.i = s.i + n ∧ ∀ r ∈ s'.records, r ∈ s.records ∨ Recorded P (s.i + n) r := by
  induction n generalizing s with
  | zero => exact Option.some.inj h ▸ ⟨rfl, fun r hr => Or.inl hr⟩
  | succ n ih =>
    obtain ⟨s₁, h₁, h⟩ := Option.bind_eq_some_iff.mp h
    obtain ⟨hi₁, hrec₁⟩ := testStep_records h₁
    obtain ⟨hi₂, hrec₂⟩ := ih h
    refine ⟨by omega, fun r hr => ?_⟩
    rcases hrec₂ r hr with hold | hnew
    · exact (hrec₁ r hold).imp_right fun h => h.mono (by omega)
    · exact Or.inr (hnew.mono (by omega))

/-- The indexing loop records nothing, does not go back, and ends at a multiple of `L`. -/
lemma fillLoop_records {fuel : ℕ} {s s' : Scan} (h : fillLoop P buf fuel s = some s') :
    s'.records = s.records ∧ s.i ≤ s'.i ∧ s'.i &&& (P.L - 1) = 0 := by
  induction fuel generalizing s with
  | zero => cases h
  | succ fuel ih =>
    rw [fillLoop] at h
    split at h
    · obtain ⟨s₁, h₁, h⟩ := Option.bind_eq_some_iff.mp h
      obtain ⟨s₂, h₂, h⟩ := Option.bind_eq_some_iff.mp h
      obtain ⟨hi₁, hrec₁⟩ := insert_records h₁
      obtain ⟨hi₂, hrec₂⟩ := rollBy_records h₂
      obtain ⟨hrec, hle, hzero⟩ := ih h
      exact ⟨by rw [hrec, hrec₂, hrec₁], by omega, hzero⟩
    · next hzero =>
      obtain rfl := Option.some.inj h
      exact ⟨rfl, le_rfl, not_not.mp hzero⟩

/-- **A search records only among the positions it tries**: the last iteration began at least `L`
bytes before the end of the search and tried `test` positions. -/
lemma scanLoop_records {m fuel : ℕ} {s s' : Scan} (hm : P.L = 2 ^ m) (hdvd : P.L ∣ s.i)
    (htest : 0 < P.test) (h : scanLoop P buf hi fuel s = some s') :
    s.i ≤ s'.i ∧ ∀ r ∈ s'.records, r ∈ s.records ∨
      ∃ stop, Recorded P stop r ∧ stop + P.L ≤ s'.i + P.test.toNat := by
  induction fuel generalizing s with
  | zero => cases h
  | succ fuel ih =>
    rw [scanLoop] at h
    split at h
    · obtain ⟨s₁, h₁, h⟩ := Option.bind_eq_some_iff.mp h
      obtain ⟨s₂, h₂, h⟩ := Option.bind_eq_some_iff.mp h
      obtain ⟨hi₁, hrec₁⟩ := testLoop_records h₁
      obtain ⟨hrec₂, hle₂, hzero⟩ := fillLoop_records h₂
      have hdvd₂ : P.L ∣ s₂.i := by
        rw [hm, Nat.and_two_pow_sub_one_eq_mod, ← hm] at hzero
        exact Nat.dvd_of_mod_eq_zero hzero
      -- the next multiple of `L` after some positions were tried
      have hstep : s.i + P.L ≤ s₂.i := by
        obtain ⟨a, ha⟩ := hdvd
        obtain ⟨b, hb⟩ := hdvd₂
        have hlt : a < b := Nat.lt_of_mul_lt_mul_left (a := P.L) (by omega)
        calc s.i + P.L = P.L * (a + 1) := by rw [ha, Nat.mul_succ]
          _ ≤ P.L * b := Nat.mul_le_mul_left _ hlt
          _ = s₂.i := hb.symm
      obtain ⟨hle, hrec⟩ := ih hdvd₂ h
      refine ⟨by omega, fun r hr => ?_⟩
      rcases hrec r hr with hold | hnew
      · rw [hrec₂] at hold
        rcases hrec₁ r hold with hold | hnew
        · exact Or.inl hold
        · exact Or.inr ⟨_, hnew, by omega⟩
      · exact Or.inr hnew
    · exact Option.some.inj h ▸ ⟨le_rfl, fun r hr => Or.inl hr⟩

/-! ## The number of matches in a block -/

/-- Records of at least `M` bytes need `M` bytes each. -/
lemma Chain.length_mul_le {V : Record → Prop} {M p q : ℕ} {rs : List Record} (h : Chain V p rs q)
    (hlen : ∀ r ∈ rs, M ≤ r.len) : p + rs.length * M ≤ q := by
  induction rs generalizing p with
  | nil => simpa using h.le
  | cons r rs ih =>
    have htail := ih h.2.2 fun r' hr' => hlen r' (List.mem_cons_of_mem _ hr')
    have hhead := h.1
    have hr := hlen r List.mem_cons_self
    rw [List.length_cons, Nat.succ_mul]
    unfold Record.stop at htail
    omega

/-- The last of several records comes after all the others. -/
lemma Chain.exists_last {V : Record → Prop} {M p q : ℕ} {rs : List Record} (h : Chain V p rs q)
    (hlen : ∀ r ∈ rs, M ≤ r.len) (hne : rs ≠ []) :
    ∃ r ∈ rs, p + (rs.length - 1) * M ≤ r.dataOffset := by
  induction rs generalizing p with
  | nil => exact absurd rfl hne
  | cons r rs ih =>
    have hhead := h.1
    have hr := hlen r List.mem_cons_self
    by_cases hrs : rs = []
    · subst hrs
      exact ⟨r, List.mem_cons_self, by simpa using hhead.ge⟩
    · obtain ⟨r', hr', hle⟩ := ih h.2.2 (fun r' hr' => hlen r' (List.mem_cons_of_mem _ hr')) hrs
      refine ⟨r', List.mem_cons_of_mem _ hr', ?_⟩
      obtain ⟨n, hn⟩ := Nat.exists_eq_succ_of_ne_zero (List.length_pos_of_ne_nil hrs).ne'
      rw [hn, Nat.succ_sub_one] at hle
      rw [List.length_cons, hn, Nat.succ_sub_one, Nat.succ_mul]
      unfold Record.stop at hle
      omega

/-- The shortest match has at least two bytes when the search is sound. -/
lemma two_le_shortest (hsound : P.Sound hi) : 2 ≤ P.shortest := by
  have hsmall := hsound.smallest_ge
  have hmin := P.smallest_le
  unfold Params.shortest
  split <;> omega

/-- Between multiples of `L` less than `n + L` apart there are at most `n` bytes, rounded up to a
multiple of `L`. -/
lemma le_add_ceil {L a b n : ℕ} (hL : 0 < L) (ha : L ∣ a) (hb : L ∣ b) (h : b < a + L + n) :
    b ≤ a + (n + L - 1) / L * L := by
  obtain ⟨x, rfl⟩ := ha
  obtain ⟨y, rfl⟩ := hb
  have hcount : y - x ≤ (n + L - 1) / L := by
    rw [Nat.le_div_iff_mul_le hL, Nat.sub_mul, Nat.mul_comm y, Nat.mul_comm x]
    omega
  calc L * y ≤ L * (x + (n + L - 1) / L) := Nat.mul_le_mul_left _ (by omega)
    _ = L * x + (n + L - 1) / L * L := by rw [Nat.mul_add, Nat.mul_comm L ((n + L - 1) / L)]

/-- **No block has more matches than fit into it.** -/
theorem length_records_le {full first : Bool} {e : Enc} {w : ℕ → UInt8} {chunk : List UInt8}
    {fuel : ℕ} {hash : UInt32} {s : Scan} (hacc : P.Accepted) (hlink : Linked P full e w)
    (hfirst : first = true → e.base = 0) (hne : chunk ≠ [])
    (hread : chunk.length ≤ readSize P first e.base) (hsound : P.Sound (e.base + chunk.length))
    (hs : scanLoop P (store e.buf e.base chunk) (e.base + chunk.length) fuel
      ⟨e.lastI, hash, e.hasharr, e.lastMatch, []⟩ = some s) :
    s.records.length ≤ P.mostMatches := by
  obtain ⟨-, hroom, -⟩ := readSize_spec hacc hlink.base_lt first
  set hi := e.base + chunk.length with hhi
  set buf := store e.buf e.base chunk with hbuf
  obtain ⟨hwin, hinv⟩ := hlink.scanInv hacc hne (by omega) buf hash
  have hlI := hlink.lastI_le
  have hlIlt := hlink.lastI_lt
  have htail := hlink.tail_le
  have hM := two_le_shortest hsound
  obtain ⟨m, -, hm, -⟩ := hsound.exists_L hacc
  have hLpos := hsound.L_pos hacc
  -- the search ends with the invariant
  obtain ⟨s', hs', hinv', hdvd', hstop, -⟩ := scanLoop_of_sound hacc hwin hsound hinv
    hlink.dvd (by simp only; omega) (show hi + 2 < hi + 3 + e.lastI by omega)
  obtain rfl : s = s' :=
    ((scanLoop_steady _).converges hs).unique ((scanLoop_steady _).converges hs')
  have hlast := hinv'.lastMatch_le
  by_cases hnone : s.records = []
  · rw [hnone]
    exact Nat.zero_le _
  · have htest : 0 < P.test := by
      by_contra hle
      have hmul : e.lastI &&& (P.L - 1) = 0 := by
        rw [hm, Nat.and_two_pow_sub_one_eq_mod, ← hm]
        exact Nat.mod_eq_zero_of_dvd hlink.dvd
      exact hnone (by rw [scanLoop_of_test_nonpos (by omega) hmul hs])
    obtain ⟨-, hrec⟩ := scanLoop_records hm hlink.dvd htest hs
    have hlen : ∀ r ∈ s.records, P.shortest ≤ r.len := fun r hr => by
      rcases hrec r hr with h | ⟨stop, h, -⟩
      · cases h
      · exact h.shortest_le
    -- all matches lie between the written data and the end
    have hall := hinv'.chain.length_mul_le hlen
    -- the last one starts among the last positions tried
    obtain ⟨r, hr, hfrom⟩ := hinv'.chain.exists_last hlen hnone
    have hlastStart : (s.records.length - 1) * P.shortest + P.L + 1 + e.lastI ≤ s.i + P.test.toNat := by
      rcases hrec r hr with h | ⟨stop, h, hstop'⟩
      · cases h
      · have := h.dataOffset_lt
        omega
    rw [Params.mostMatches]
    by_cases hsmall : P.blockSize ≤ maxRead
    · rw [if_pos hsmall, Nat.le_div_iff_mul_le (by omega)]
      omega
    · rw [if_neg hsmall]
      cases first with
      | true =>
        have hbase := hfirst rfl
        have hmax : chunk.length ≤ maxRead := by
          unfold readSize at hread
          simp only [if_true] at hread
          omega
        refine le_max_of_le_left ?_
        rw [Nat.le_div_iff_mul_le (by omega)]
        omega
      | false =>
        have hlater : chunk.length ≤ P.laterRead := by
          unfold readSize at hread
          unfold Params.laterRead
          simp only [Bool.false_eq_true, if_false] at hread
          omega
        refine le_max_of_le_right (le_min ?_ ?_)
        · rw [Nat.le_div_iff_mul_le (by omega)]
          omega
        · have hceil : s.i ≤ e.lastI + (P.laterRead + P.L - 1) / P.L * P.L :=
            le_add_ceil hLpos hlink.dvd hdvd' (by omega)
          have hcount : s.records.length - 1 ≤
              (((P.laterRead + P.L - 1) / P.L * P.L : ℕ) - P.L + P.test - 1).toNat / P.shortest := by
            rw [Nat.le_div_iff_mul_le (by omega)]
            omega
          omega

/-! ## All blocks -/

/-- A block that is compressed has been searched to its end. -/
lemma search_of_compressBlock {fuel : ℕ} {e e' : Enc} {chunk bytes : List UInt8}
    (h : compressBlock P fuel e chunk = some (e', bytes)) :
    ∃ hash s, scanLoop P (store e.buf e.base chunk) (e.base + chunk.length) fuel
        ⟨e.lastI, hash, e.hasharr, e.lastMatch, []⟩ = some s ∧
      (e'.lastI = 0 ∨ e'.lastI = s.i) := by
  rw [compressBlock] at h
  obtain ⟨s, hs, h⟩ := Option.bind_eq_some_iff.mp h
  refine ⟨_, s, hs, ?_⟩
  simp only at h
  split at h
  · obtain ⟨rfl, -⟩ := Prod.mk.inj (Option.some.inj h)
    exact Or.inl rfl
  · obtain ⟨rfl, -⟩ := Prod.mk.inj (Option.some.inj h)
    exact Or.inr rfl

/-- Where the search of the next block begins: at a multiple of `L`, and at the beginning of the
window unless there are positions to try. -/
structure Begins (P : Params) (e : Enc) : Prop where
  aligned : e.lastI &&& (P.L - 1) = 0
  still : P.test ≤ 0 → e.lastI = 0

/-- The search of a block in a linked state stays inside the window. -/
lemma Linked.inside {full : Bool} {e : Enc} {w : ℕ → UInt8} {hash : UInt32}
    (hlink : Linked P full e w) : Inside P ⟨e.lastI, hash, e.hasharr, e.lastMatch, []⟩ := by
  have hbase := hlink.base_lt
  rcases hlink.lastI_lt with h | h
  · exact Or.inl h
  · exact Or.inr (by simp only; omega)

/-- A search from a linked state that ends is sound. -/
lemma Linked.sound {full : Bool} {e : Enc} {w : ℕ → UInt8} {chunk : List UInt8} {fuel : ℕ}
    {hash : UInt32} {s : Scan} (hacc : P.Accepted) (hlink : Linked P full e w) (hne : chunk ≠ [])
    (hbegins : Begins P e)
    (hs : scanLoop P (store e.buf e.base chunk) (e.base + chunk.length) fuel
      ⟨e.lastI, hash, e.hasharr, e.lastMatch, []⟩ = some s) :
    P.Sound (e.base + chunk.length) := by
  have hpos : 0 < chunk.length := List.length_pos_of_ne_nil hne
  exact sound_of_scanLoop hacc (by omega) hlink.inside hbegins.aligned hbegins.still hs

/-- Wherever the compressor comes in its loop, it stands in a linked state, at the beginning of the
window before the first read. -/
lemma Comes.linked {mem : ℕ → UInt8} {src : Source UInt8} {first : Bool} {e : Enc}
    {rest : Source UInt8} (hacc : P.Accepted) (h : Comes P mem src first e rest) :
    (∃ full w, Linked P full e w) ∧ Begins P e ∧ (first = true → e.base = 0) := by
  induction h with
  | start => exact ⟨⟨_, _, linked_start hacc mem mem⟩, ⟨Nat.zero_and _, fun _ => rfl⟩, fun _ => rfl⟩
  | @next first e e' rest fuel bytes here more block ih =>
    obtain ⟨⟨full, w, hlink⟩, hbegins, -⟩ := ih
    obtain ⟨hash, s, hs, hlastI⟩ := search_of_compressBlock block
    have hsound := hlink.sound hacc more hbegins hs
    obtain ⟨-, hroom, hmax⟩ := readSize_spec hacc hlink.base_lt first
    have hread : (nextChunk P first e rest).length ≤ readSize P first e.base :=
      rest.length_read_le _
    obtain ⟨e'', body, w', pos, full', hcomp, -, -, -, hlink', -, -⟩ := compressBlock_spec hacc hlink
      more (by omega) (by omega) hsound (Nat.lt_succ_self _)
    obtain ⟨rfl, -⟩ := Prod.mk.inj (((compressBlock_steady _ _).converges block).unique
      ((compressBlock_steady _ _).converges hcomp))
    refine ⟨⟨full', w', hlink'⟩, ⟨?_, fun htest => ?_⟩, fun h => by cases h⟩
    · rcases hlastI with h | h
      · rw [h, Nat.zero_and]
      · rw [h]
        exact (scanLoop_inside hlink.inside hbegins.aligned hs).2
    · rcases hlastI with h | h
      · exact h
      · rw [h, scanLoop_of_test_nonpos htest hbegins.aligned hs]
        exact hbegins.still htest

/-- **The side buffers do not overflow** in any run over any input when the matches that fit into
one block have room in them. -/
theorem sideBuffersFit_of_mostMatches (P : Params) (hacc : P.Accepted)
    (hfew : P.mostMatches ≤ min P.blockSize maxRead / uint32 P.smallest) (mem : ℕ → UInt8)
    (src : Source UInt8) : SideBuffersFit P mem src := by
  intro first e rest hcomes hmore fuel u hu
  obtain ⟨⟨full, w, hlink⟩, hbegins, hfirst⟩ := hcomes.linked hacc
  rw [blockPuts] at hu
  obtain ⟨s, hs, hu⟩ := Option.bind_eq_some_iff.mp hu
  have hsound := hlink.sound hacc hmore hbegins hs
  have hcount := length_records_le hacc hlink hfirst hmore (rest.length_read_le _) hsound hs
  have hroom : 4 * (s.records.length + 1) ≤ P.sideSize := by
    unfold Params.sideSize
    omega
  simp only at hu
  generalize (if e.base + _ = P.blockSize then _ else s.i) = lastI at hu
  split at hu <;> obtain rfl := Option.some.inj hu <;> constructor <;> simp only <;> omega

/-- With the default parameters blocks of 8 MB have at most 16384 matches, and there is room for
them. -/
theorem sideBuffersFit_of_mostMatches_defaults :
    SideBuffersFit (defaults 1) (fun _ => 0) ⟨[1, 2, 3], [1]⟩ := by
  refine sideBuffersFit_of_mostMatches (defaults 1) (defaults_accepted le_rfl) ?_ _ _
  obtain ⟨hL, hk⟩ := defaults_L 1
  have htest : (defaults 1).test = 16 := by
    rw [Params.test, hk, hL]
    decide
  have hsmall : (defaults 1).smallest = 512 := by decide
  have hshort : (defaults 1).shortest = 512 := by decide
  have hblock : (defaults 1).blockSize = 67108864 := rfl
  have hlater : (defaults 1).laterRead = 8388608 := by decide
  rw [Params.mostMatches, hshort, hlater, hL, htest, hblock, hsmall]
  decide

end DArc.Rep
