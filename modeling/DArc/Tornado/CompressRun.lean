import Mathlib.Data.List.GetD
import DArc.Tornado.CompressStream

/-!
# The compressor describes the data

At any time the buffer holds a part of a stream, which is the data with the tables that were found replaced by their
differences, and the coder has been told this stream up to the current position.  The differences of the next table
change the stream behind this position only.

### Outline

* `Setup.Ok`: what is asked of the parameters;
* `Going`: the invariant of the main cycle;
* `Going.readNextChunk`, `Going.checkTables`, `Going.encodeFound`: the parts of a turn.

### Main results

* `mainCycle_spec`: the main cycle ends with all data told;
* `torCompressChunk_spec`: so does the compressor.
-/

namespace DArc.Tornado

open Compressor

/-- The buffer is of a size that `tor_compress0` makes and the coders can handle, and a shift leaves place in the buffer
and two bytes in front of the current one. -/
structure Setup.Ok (m : Setup) : Prop where
  large : 32 * kb ≤ m.buffer
  le : m.buffer ≤ 2 ^ 30
  shift : m.shift = -1 ∨ (4 ≤ m.shift ∧ m.shift + 513 ≤ m.buffer) ∨ (258 ≤ -m.shift ∧ -m.shift + 256 ≤ m.buffer)

/-- What is read at once is not empty, and there is place for it. -/
lemma Setup.Ok.chunk_bounds {m : Setup} (h : m.Ok) : 4 ≤ m.chunk ∧ m.chunk ≤ m.buffer := by
  have hlarge := h.large
  have hkb : kb = 1024 := rfl
  unfold Setup.chunk largeBufferSize
  rcases h.shift with hshift | ⟨hshift, hle⟩ | ⟨hshift, hle⟩ <;> split <;> omega

/-- A part of a list as a memory. -/
lemma streamMemory_drop (data : List UInt8) (k : ℕ) {x : Int} (hx : 0 ≤ x) :
    streamMemory (data.drop k) x = streamMemory data (k + x) := by
  unfold streamMemory
  rw [List.getD_eq_getElem?_getD, List.getElem?_drop, ← List.getD_eq_getElem?_getD]
  congr 1
  omega

/-- The invariant of the main cycle, for the position of the buffer in the stream, the stream and its items; `more` items
are put before something is read. -/
structure Going {M : Type} (mf : MatchFinder M) (m : Setup) (Good : M → Memory → Int → Int → Prop) (data : List UInt8)
    (more : ℕ) (s : Compressor M) (o : Int) (S : Memory) (items : List Item) : Prop where
  two_le : 2 ≤ s.p
  le : s.p ≤ s.bufend
  bufend_le : s.bufend ≤ m.buffer
  offset : 0 ≤ o
  rest : s.rest = data.drop (o + s.bufend).toNat
  read_le : o + s.bufend ≤ data.length
  buf : ∀ x, 0 ≤ x → x < s.bufend → s.buf x = S (o + x)
  stream : undiffed (tablesOf 0 items) S = streamMemory data
  apart : Apart (tablesOf 0 items)
  tables : ∀ t ∈ tablesOf 0 items, t.stop ≤ o + s.tableEnd ∧ t.stop ≤ o + s.bufend
  count : (items.length : Int) ≤ 2 * (o + s.p) + more
  good : Good s.mf s.buf s.p s.bufend
  told : Told S m.buffer mf.minLength s.calls items (o + s.p) s.p
  plain : m.supportTables = false → ∀ call ∈ s.calls, call.Plain
  point : s.bufend - lookahead ≤ s.readPoint
  point_le : s.readPoint ≤ s.bufend
  ended : s.bytes = 0 → s.rest = [] ∧ s.readPoint = s.bufend

namespace Going

variable {M : Type} {mf : MatchFinder M} {m : Setup} {Good : M → Memory → Int → Int → Prop} {data : List UInt8}
  {more : ℕ} {s : Compressor M} {o : Int} {S : Memory} {items : List Item}

/-! ## Reading -/

/-- Behind the data that were read, the stream is that of the data. -/
lemma stream_of_ge (h : Going mf m Good data more s o S items) {x : Int} (hx : s.bufend ≤ x) :
    S (o + x) = streamMemory data (o + x) := by
  rw [← h.stream, undiffed_of_outside]
  intro t ht
  have hstop := (h.tables t ht).2
  exact .inr (by omega)

/-- **More data** are read. -/
theorem read (hmf : mf.Correct Good) (h : Going mf m Good data more s o S items) {asked : ℕ} (hpos : 0 < asked)
    (hasked : s.bufend + asked ≤ m.buffer) {readPoint : Int}
    (hpoint : readPoint = if (s.read asked).bytes = 0 then (s.read asked).bufend else (s.read asked).bufend - lookahead) :
    Going mf m Good data more { s.read asked with readPoint } o S items := by
  have hn : min asked s.rest.length ≤ s.rest.length := min_le_right _ _
  have hle := h.le
  have htwo := h.two_le
  have hoffset := h.offset
  have hread := h.read_le
  have hlook : (lookahead : Int) = 256 := rfl
  have hlength : (s.rest.length : Int) = data.length - (o + s.bufend) := by
    rw [h.rest, List.length_drop]
    omega
  have hbufend : (s.read asked).bufend = s.bufend + (min asked s.rest.length : ℕ) := rfl
  have hbytes : (s.read asked).bytes = min asked s.rest.length := rfl
  have hbefore : ∀ x < s.bufend, (s.read asked).buf x = s.buf x := fun x hx => Memory.copy_of_outside (.inl hx)
  rw [hbytes, hbufend] at hpoint
  constructor
  case two_le => exact htwo
  case le => exact hle.trans (by rw [hbufend]; omega)
  case bufend_le => change (s.read asked).bufend ≤ _; rw [hbufend]; omega
  case offset => exact hoffset
  case rest =>
    change s.rest.drop (min asked s.rest.length) = data.drop (o + (s.read asked).bufend).toNat
    rw [hbufend]
    nth_rewrite 2 [h.rest]
    rw [List.drop_drop]
    congr 1
    omega
  case read_le => change o + (s.read asked).bufend ≤ _; rw [hbufend]; omega
  case buf =>
    intro x hx hlt
    change x < (s.read asked).bufend at hlt
    rw [hbufend] at hlt
    change (s.read asked).buf x = _
    by_cases hold : x < s.bufend
    · rw [hbefore x hold, h.buf x hx hold]
    · rw [h.stream_of_ge (not_lt.mp hold)]
      change s.buf.copy s.bufend (streamMemory s.rest) 0 (min asked s.rest.length) x = _
      rw [Memory.copy_of_mem (not_lt.mp hold) hlt, h.rest, streamMemory_drop _ _ (by omega)]
      congr 1
      omega
  case stream => exact h.stream
  case apart => exact h.apart
  case tables =>
    intro t ht
    obtain ⟨hstop, hstop'⟩ := h.tables t ht
    exact ⟨hstop, by change _ ≤ o + (s.read asked).bufend; rw [hbufend]; omega⟩
  case count => exact h.count
  case good => exact hmf.grow h.good (by rw [hbufend]; omega) hbefore
  case told => exact h.told
  case plain => exact h.plain
  case point =>
    change (s.read asked).bufend - lookahead ≤ readPoint
    rw [hpoint, hbufend]
    split <;> omega
  case point_le =>
    change readPoint ≤ (s.read asked).bufend
    rw [hpoint, hbufend]
    split <;> omega
  case ended =>
    intro hzero
    change min asked s.rest.length = 0 at hzero
    have hnil : s.rest.length = 0 := by omega
    refine ⟨?_, ?_⟩
    · change s.rest.drop _ = []
      rw [List.length_eq_zero_iff.mp hnil, List.drop_nil]
    · change readPoint = (s.read asked).bufend
      rw [hpoint, if_pos hzero, hbufend]

/-- The current position does not come closer than two bytes to the beginning, and there is place behind the data. -/
lemma distance_bounds (hm : m.Ok) (h : Going mf m Good data more s o S items) (hpoint : s.readPoint ≤ s.p)
    (hfull : (m.buffer : Int) - lookahead < s.bufend) :
    0 ≤ s.distance m ∧ 2 ≤ s.p - s.distance m ∧ s.bufend - s.distance m < m.buffer := by
  have hlarge := hm.large
  have hkb : kb = 1024 := rfl
  have hlook : (lookahead : Int) = 256 := rfl
  have hle := h.le
  have htwo := h.two_le
  have hbufend := h.bufend_le
  have hpoint' := h.point
  unfold distance
  rcases hm.shift with hshift | ⟨hshift, hle'⟩ | ⟨hshift, hle'⟩ <;> split_ifs <;> omega

/-- **The data are shifted**, if there are not many bytes behind the current position and the buffer is full. -/
theorem shiftData (hm : m.Ok) (hmf : mf.Correct Good) (h : Going mf m Good data more s o S items)
    (hpoint : s.readPoint ≤ s.p) (hfull : (m.buffer : Int) - lookahead < s.bufend) (hbytes : s.bytes ≠ 0) :
    Going mf m Good data more { s.shiftData mf m with readPoint := s.bufend - s.distance m } (o + s.distance m) S
      items ∧ (s.shiftData mf m).p = s.p - s.distance m ∧ (s.shiftData mf m).bufend = s.bufend - s.distance m ∧
      (s.shiftData mf m).bufend < m.buffer := by
  have hsmall := hm.le
  have hlook : (lookahead : Int) = 256 := rfl
  have hle := h.le
  have htwo := h.two_le
  have hbufend := h.bufend_le
  obtain ⟨hsh, hnear, hless⟩ := h.distance_bounds hm hpoint hfull
  generalize hdist : s.distance m = sh at hsh hnear hless
  refine ⟨?_, by change s.p - s.distance m = _; rw [hdist], by change s.bufend - s.distance m = _; rw [hdist],
    by change s.bufend - s.distance m < _; rw [hdist]; exact hless⟩
  constructor
  case two_le => change 2 ≤ s.p - s.distance m; rwa [hdist]
  case le => change s.p - s.distance m ≤ s.bufend - s.distance m; omega
  case bufend_le => change s.bufend - s.distance m ≤ _; omega
  case offset => have hoffset := h.offset; omega
  case rest =>
    change s.rest = data.drop (o + sh + (s.bufend - s.distance m)).toNat
    rw [hdist, h.rest]
    congr 2
    omega
  case read_le =>
    have hread := h.read_le
    change o + sh + (s.bufend - s.distance m) ≤ _
    omega
  case buf =>
    intro x hx hlt
    change x < s.bufend - s.distance m at hlt
    rw [hdist] at hlt
    change s.buf.copy 0 s.buf (s.distance m) (s.bufend - s.distance m).toNat x = _
    rw [hdist, Memory.copy_of_mem hx (by omega), sub_zero, h.buf _ (by omega) (by omega)]
    congr 1
    omega
  case stream => exact h.stream
  case apart => exact h.apart
  case tables =>
    intro t ht
    obtain ⟨hstop, hstop'⟩ := h.tables t ht
    change t.stop ≤ o + sh + (if m.supportTables ∧ m.findTables then
      if s.tableEnd > s.distance m then s.tableEnd - s.distance m else 0 else s.tableEnd) ∧
      t.stop ≤ o + sh + (s.bufend - s.distance m)
    rw [hdist]
    refine ⟨?_, by omega⟩
    split_ifs <;> omega
  case count =>
    have hcount := h.count
    change _ ≤ 2 * (o + sh + (s.p - s.distance m)) + _
    omega
  case good =>
    change Good (mf.invalidateMatch (if m.shift = -1 then mf.clearHash _ s.mf else mf.shift (s.distance m) s.mf)) _
      (s.p - s.distance m) _
    split_ifs with hclear
    · have hp : s.p - s.distance m = 2 := by
        unfold distance
        rw [if_pos hclear]
        omega
      rw [hp]
      exact hmf.clear _ _ _ _
    · rw [hdist]
      exact hmf.shift h.good hsh hnear (by omega) _ _
  case told =>
    change Told S m.buffer mf.minLength (s.calls ++ [.shiftOccurs]) items (o + sh + (s.p - s.distance m))
      (s.p - s.distance m)
    have htold := h.told.shift (by omega : 0 ≤ s.p - s.distance m)
    rwa [show o + sh + (s.p - s.distance m) = o + s.p by omega]
  case plain =>
    intro htables call hcall
    rcases List.mem_append.mp hcall with hcall | hcall
    · exact h.plain htables call hcall
    · rw [List.mem_singleton.mp hcall]
      trivial
  case point =>
    change s.bufend - s.distance m - lookahead ≤ s.bufend - sh
    omega
  case point_le =>
    change s.bufend - sh ≤ s.bufend - s.distance m
    omega
  case ended => exact fun hzero => absurd hzero hbytes

/-- **The next chunk** is read, or the data have ended. -/
theorem readNextChunk (hm : m.Ok) (hmf : mf.Correct Good) (h : Going mf m Good data more s o S items)
    (hpoint : s.readPoint ≤ s.p) :
    ∃ o', Going mf m Good data more (s.readNextChunk mf m).2 o' S items ∧
      o' + (s.readNextChunk mf m).2.p = o + s.p ∧
      if (s.readNextChunk mf m).1 then (s.readNextChunk mf m).2.p < (s.readNextChunk mf m).2.bufend
      else (s.readNextChunk mf m).2.p = (s.readNextChunk mf m).2.bufend ∧ (s.readNextChunk mf m).2.rest = [] := by
  have hle := h.le
  have hlook : (lookahead : Int) = 256 := rfl
  obtain ⟨hfour, -⟩ := hm.chunk_bounds
  unfold Compressor.readNextChunk
  by_cases hbytes : s.bytes = 0
  · rw [if_pos hbytes]
    obtain ⟨hrest, hend⟩ := h.ended hbytes
    exact ⟨o, h, rfl, by rw [hend] at hpoint; exact ⟨le_antisymm hle hpoint, hrest⟩⟩
  rw [if_neg hbytes]
  -- there is place in the buffer
  obtain ⟨t, o', ht, hgoing, hpos, hplace⟩ : ∃ t o', t = (if s.bufend > m.buffer - (lookahead : Int) then
      s.shiftData mf m else s) ∧ Going mf m Good data more { t with readPoint := t.bufend } o' S items ∧
      o' + t.p = o + s.p ∧ t.bufend < m.buffer := by
    by_cases hfull : s.bufend > m.buffer - (lookahead : Int)
    · rw [if_pos hfull]
      obtain ⟨hgoing, hp, -, hplace⟩ := h.shiftData hm hmf hpoint hfull hbytes
      exact ⟨_, _, rfl, hgoing, by rw [hp]; ring, hplace⟩
    · rw [if_neg hfull]
      refine ⟨_, o, rfl, { h with
        point := by dsimp only; omega, point_le := le_rfl, ended := fun hzero => absurd hzero hbytes }, rfl, by omega⟩
  rw [← ht]
  dsimp only
  have hbufend := hgoing.bufend_le
  have hasked : 0 < min m.chunk (m.buffer - t.bufend).toNat := by omega
  have hread := hgoing.read hmf hasked (by dsimp only at hbufend ⊢; omega) rfl
  refine ⟨o', hread, hpos, ?_⟩
  simp only [decide_eq_true_eq]
  by_cases hmore : (t.read (min m.chunk (m.buffer - t.bufend).toNat)).p <
      (t.read (min m.chunk (m.buffer - t.bufend).toNat)).bufend
  · rwa [if_pos hmore]
  · rw [if_neg hmore]
    have hend : (t.read (min m.chunk (m.buffer - t.bufend).toNat)).p =
        (t.read (min m.chunk (m.buffer - t.bufend).toNat)).bufend := le_antisymm hread.le (not_lt.mp hmore)
    refine ⟨hend, (hread.ended ?_).1⟩
    have hle' : t.p ≤ t.bufend := hgoing.le
    change t.p = t.bufend + (min (min m.chunk (m.buffer - t.bufend).toNat) t.rest.length : ℕ) at hend
    change min (min m.chunk (m.buffer - t.bufend).toNat) t.rest.length = 0
    omega

/-! ## Tables -/

/-- A table of rows at the current position: the stream behind it becomes that of their differences. -/
lemma addTable (hm : m.Ok) (hmf : mf.Correct Good) (h : Going mf m Good data 0 s o S items) (hend : s.tableEnd < s.p)
    (htables : m.supportTables = true) {N rows : ℕ} (hN : N = 2 ∨ N = 4) (hrows : 1 ≤ rows)
    (hle : s.p + N * rows ≤ s.bufend) (lastChecked : ℕ → ℕ → Int) :
    Going mf m Good data 1 { s with
      lastChecked
      buf := diffTable N s.p rows s.buf
      tableEnd := s.p + N * rows
      calls := s.calls ++ [.encodeTable N rows]
      mf := mf.invalidateMatch s.mf } o (diffTable N (o + s.p) rows S) (items ++ [.table N hN rows]) := by
  have htwo := h.two_le
  have hbufend := h.bufend_le
  have hsmall := hm.le
  have himpossible' : impossibleDist = 1073741823 := rfl
  have hrowsBytes : (rows : Int) ≤ N * rows := le_mul_of_one_le_left (Int.natCast_nonneg _) (by omega)
  have hpos : 0 + ((bytesOf items).length : Int) = o + s.p := by rw [zero_add, h.told.length]
  have hT : tablesOf 0 (items ++ [.table N hN rows]) = tablesOf 0 items ++ [⟨N, hN, o + s.p, rows⟩] := by
    rw [tablesOf_append, hpos]
    rfl
  have hbefore : ∀ t ∈ tablesOf 0 items, t.stop ≤ o + s.p := fun t ht => (h.tables t ht).1.trans (by omega)
  constructor
  case two_le => exact htwo
  case le => exact h.le
  case bufend_le => exact hbufend
  case offset => exact h.offset
  case rest => exact h.rest
  case read_le => exact h.read_le
  case buf =>
    intro x hx hlt
    dsimp only at hlt ⊢
    by_cases hin : s.p ≤ x ∧ x < s.p + N * rows
    · exact diffTable_congr (fun y h₁ h₂ => h.buf y (by omega) (by omega)) hin.1 hin.2
    · rw [diffTable_of_outside (by omega), diffTable_of_outside (by omega), h.buf x hx hlt]
  case stream =>
    rw [hT]
    exact (undiffed_diffTable (t := ⟨N, hN, o + s.p, rows⟩) hbefore).trans h.stream
  case apart =>
    rw [hT]
    exact List.pairwise_append.mpr ⟨h.apart, List.pairwise_singleton _ _, fun t ht t' ht' => by
      rw [List.mem_singleton.mp ht']
      exact hbefore t ht⟩
  case tables =>
    rw [hT]
    intro t ht
    rcases List.mem_append.mp ht with ht | ht
    · exact ⟨(hbefore t ht).trans (by dsimp only; omega), (h.tables t ht).2⟩
    · rw [List.mem_singleton.mp ht]
      change o + s.p + N * rows ≤ o + (s.p + N * rows) ∧ o + s.p + N * rows ≤ o + s.bufend
      omega
  case count =>
    have hcount := h.count
    rw [List.length_append, List.length_singleton]
    push_cast at hcount ⊢
    omega
  case good => exact hmf.invalidate h.good _ _
  case told =>
    refine (h.told.congr fun x hx => diffTable_of_outside (.inl hx)).table hN hrows ?_ (by omega) (by omega)
    have hbytes : ((rows * N : ℕ) : Int) = N * rows := by push_cast; ring
    omega
  case plain => exact fun hfalse => absurd (htables.symm.trans hfalse) Bool.true_eq_false.mp
  case point => exact h.point
  case point_le => exact h.point_le
  case ended => exact h.ended

/-- What a search for a table results in: a table changes the stream behind the current position. -/
structure Searched (mf : MatchFinder M) (m : Setup) (Good : M → Memory → Int → Int → Prop) (data : List UInt8)
    (s : Compressor M) (o : Int) (S : Memory) (items : List Item) (r : Bool × Compressor M) : Prop where
  p_eq : r.2.p = s.p
  bufend_eq : r.2.bufend = s.bufend
  found : r.1 = true → ∃ S' items', Going mf m Good data 1 r.2 o S' items'
  missed : r.1 = false → Going mf m Good data 0 r.2 o S items ∧ r.2.tableEnd = s.tableEnd

/-- **A search for a table** finds none, or one that changes the stream behind the current position. -/
theorem checkForDataTable (hm : m.Ok) (hmf : mf.Correct Good) (htables : m.supportTables = true)
    (h : Going mf m Good data 0 s o S items) (hend : s.tableEnd < s.p) {N : ℕ} (hN : N = 2 ∨ N = 4) :
    Searched mf m Good data s o S items (s.checkForDataTable mf N) := by
  generalize hr : s.checkForDataTable mf N = r
  unfold Compressor.checkForDataTable at hr
  split at hr
  · dsimp only at hr
    split at hr
    · next hfound =>
      subst hr
      exact ⟨rfl, rfl, fun htrue => Bool.noConfusion htrue, fun _ => ⟨{ h with }, rfl⟩⟩
    · next rows hfound =>
      subst hr
      obtain ⟨hrows, hle⟩ := findTable_spec (by omega) (by omega) hfound
      exact ⟨rfl, rfl, fun _ => ⟨_, _, h.addTable hm hmf hend htables hN hrows (by omega) _⟩,
        fun hfalse => Bool.noConfusion hfalse⟩
  · subst hr
    exact ⟨rfl, rfl, fun htrue => Bool.noConfusion htrue, fun _ => ⟨h, rfl⟩⟩

/-- **The tables** are checked. -/
theorem checkTables (hm : m.Ok) (hmf : mf.Correct Good) (h : Going mf m Good data 0 s o S items) :
    ∃ S' items', Going mf m Good data 1 (s.checkTables mf m) o S' items' ∧ (s.checkTables mf m).p = s.p ∧
      (s.checkTables mf m).bufend = s.bufend := by
  have hmore {t : Compressor M} (ht : Going mf m Good data 0 t o S items) : Going mf m Good data 1 t o S items :=
    { ht with count := ht.count.trans (by push_cast; omega) }
  unfold Compressor.checkTables
  by_cases hcheck : m.supportTables = true ∧ s.p > s.tableEnd
  · rw [if_pos hcheck]
    obtain ⟨htables, hend⟩ := hcheck
    have hfirst : Searched mf m Good data s o S items
        (if mf.minLength < 4 then s.checkForDataTable mf 2 else (false, s)) := by
      split_ifs
      · exact h.checkForDataTable hm hmf htables hend (.inl rfl)
      · exact ⟨rfl, rfl, fun htrue => Bool.noConfusion htrue, fun _ => ⟨h, rfl⟩⟩
    generalize (if mf.minLength < 4 then s.checkForDataTable mf 2 else (false, s)) = first at hfirst ⊢
    obtain ⟨found, t⟩ := first
    have hsecond : Searched mf m Good data s o S items (if found then (true, t) else t.checkForDataTable mf 4) := by
      cases found with
      | true => exact ⟨hfirst.p_eq, hfirst.bufend_eq, hfirst.found, fun hfalse => Bool.noConfusion hfalse⟩
      | false =>
        obtain ⟨hgoing, hsame⟩ := hfirst.missed rfl
        have hp : t.p = s.p := hfirst.p_eq
        have hbufend : t.bufend = s.bufend := hfirst.bufend_eq
        dsimp only at hgoing hsame
        obtain ⟨hp', hbufend', hfound, hmissed⟩ := hgoing.checkForDataTable hm hmf htables (by omega) (.inr rfl)
        exact ⟨hp'.trans hp, hbufend'.trans hbufend, hfound, fun hfalse => ⟨(hmissed hfalse).1,
          (hmissed hfalse).2.trans hsame⟩⟩
    dsimp only
    generalize (if found then (true, t) else t.checkForDataTable mf 4) = second at hsecond ⊢
    obtain ⟨found', u⟩ := second
    obtain ⟨hp, hbufend, hfound, hmissed⟩ := hsecond
    dsimp only at hp hbufend hfound hmissed ⊢
    cases found' with
    | true =>
      obtain ⟨S', items', hgoing⟩ := hfound rfl
      exact ⟨S', items', { hgoing with }, hp, hbufend⟩
    | false =>
      obtain ⟨hgoing, hsame⟩ := hmissed rfl
      rw [if_neg Bool.false_ne_true]
      split_ifs
      · refine ⟨S, items, { hmore hgoing with tables := fun t ht => ?_ }, hp, hbufend⟩
        obtain ⟨hstop, hstop'⟩ := hgoing.tables t ht
        exact ⟨hstop.trans (by dsimp only; omega), hstop'⟩
      · exact ⟨S, items, hmore hgoing, hp, hbufend⟩
  · rw [if_neg hcheck]
    exact ⟨S, items, hmore h, rfl, rfl⟩

/-! ## Matches -/

/-- Some bytes are told. -/
lemma advance (h : Going mf m Good data 1 s o S items) {len : ℕ} (hpos : 0 < len) (hle : s.p + len ≤ s.bufend)
    (bytes : List UInt8) (hlength : bytes.length = len) {inner : M} (hgood : Good inner s.buf (s.p + len) s.bufend)
    {call : Call} (hcall : call.Plain)
    (htold : Told S m.buffer mf.minLength (s.calls ++ [call]) (items ++ bytes.map Item.byte) (o + s.p + len)
      (s.p + len)) :
    Going mf m Good data 0 { s with mf := inner, calls := s.calls ++ [call], p := s.p + len } o S
      (items ++ bytes.map Item.byte) := by
  have htwo := h.two_le
  have htables : tablesOf 0 (items ++ bytes.map Item.byte) = tablesOf 0 items := by
    rw [tablesOf_append, tablesOf_map_byte, List.append_nil]
  constructor
  case two_le => dsimp only; omega
  case le => exact hle
  case bufend_le => exact h.bufend_le
  case offset => exact h.offset
  case rest => exact h.rest
  case read_le => exact h.read_le
  case buf => exact h.buf
  case stream => rw [htables]; exact h.stream
  case apart => rw [htables]; exact h.apart
  case tables => rw [htables]; exact h.tables
  case count =>
    have hcount := h.count
    rw [List.length_append, List.length_map, hlength]
    push_cast at hcount ⊢
    omega
  case good => exact hgood
  case told =>
    dsimp only
    rwa [← add_assoc]
  case plain =>
    intro htables c hc
    rcases List.mem_append.mp hc with hc | hc
    · exact h.plain htables c hc
    · rwa [List.mem_singleton.mp hc]
  case point => exact h.point
  case point_le => exact h.point_le
  case ended => exact h.ended

/-- **What is found** is encoded. -/
theorem encodeFound (hm : m.Ok) (hmf : mf.Correct Good) (h : Going mf m Good data 1 s o S items)
    (hlt : s.p < s.bufend) :
    ∃ items', Going mf m Good data 0 (s.encodeFound mf) o S items' ∧ s.p < (s.encodeFound mf).p := by
  have hsmall := hm.le
  have hbufend := h.bufend_le
  have htwo := h.two_le
  have hoffset := h.offset
  have hlarge := hm.large
  have hkb : kb = 1024 := rfl
  have hsize : m.buffer ≤ outSize m.buffer := le_max_left _ _
  have himpossible : impossibleLen = 1073741823 := rfl
  have himpossible' : impossibleDist = 1073741823 := rfl
  obtain ⟨hfinds, hgood⟩ := hmf.find h.good hlt (by omega)
  have hmin := hmf.two_le
  have hbuf : ∀ x, 0 ≤ x → x < s.bufend → s.buf x = S (o + s.p - s.p + x) := fun x h₁ h₂ => by
    rw [h.buf x h₁ h₂, add_sub_cancel_right]
  unfold Compressor.encodeFound
  dsimp only
  generalize mf.findMatchlen s.buf s.p (matchend s.bufend) s.mf = found at hfinds hgood ⊢
  by_cases hlen : found.1.1 < mf.minLength
  · rw [if_pos hlen]
    have htold : Told S m.buffer mf.minLength (s.calls ++ [.encode s.buf found.1.1 s.p found.1.2])
        (items ++ [.byte (S (o + s.p))]) (o + s.p + 1) (s.p + 1) :=
      h.told.literal (by omega) (by omega) (by omega) hlen (fun x h₁ h₂ => hbuf x h₁ (by omega)) (by omega)
    exact ⟨_, h.advance Nat.one_pos (by push_cast; omega) [S (o + s.p)] rfl hgood trivial htold,
      by dsimp only; omega⟩
  · rw [if_neg hlen]
    obtain ⟨hq, hmatch⟩ := hfinds (not_lt.mp hlen)
    have hle := hmatch.le
    have htold := h.told.copy (by omega) (by omega) (by omega) (not_lt.mp hlen) (by omega) (by omega) (by omega) hbuf hq
      hmatch
    exact ⟨_, h.advance (by omega) hle _ (length_memory_bytes _ _ _)
      (hmf.update hgood (not_lt.mp hlen) hle (by omega)) trivial htold, by dsimp only; omega⟩

/-! ## The main cycle -/

/-- **A turn** goes on. -/
theorem turn (hm : m.Ok) (hmf : mf.Correct Good) (h : Going mf m Good data 0 s o S items) (hlt : s.p < s.bufend) :
    ∃ S' items', Going mf m Good data 0 (s.turn mf m) o S' items' ∧ s.p < (s.turn mf m).p := by
  obtain ⟨S', items', hgoing, hp, hbufend⟩ := h.checkTables hm hmf
  obtain ⟨items'', hnext, hless⟩ := hgoing.encodeFound hm hmf (by omega)
  exact ⟨S', items'', hnext, by rwa [hp] at hless⟩

/-- **The main cycle** ends when all data are told, in fewer turns than there are bytes left. -/
theorem mainCycle_spec (hm : m.Ok) (hmf : mf.Correct Good) {turns : ℕ} (h : Going mf m Good data 0 s o S items)
    (hturns : data.length - (o + s.p) < turns) :
    ∃ s' o' S' items', s.mainCycle mf m turns = some s' ∧ Going mf m Good data 0 s' o' S' items' ∧
      o' + s'.p = data.length := by
  induction turns generalizing s o S items with
  | zero =>
    have hle := h.le
    have hread := h.read_le
    exact absurd hturns (by push_cast; omega)
  | succ turns ih =>
    have hgo {t : Compressor M} {o' : Int} (ht : Going mf m Good data 0 t o' S items) (hpos : o' + t.p = o + s.p)
        (hlt : t.p < t.bufend) :
        ∃ s' o' S' items', (t.turn mf m).mainCycle mf m turns = some s' ∧ Going mf m Good data 0 s' o' S' items' ∧
          o' + s'.p = data.length := by
      obtain ⟨S', items', hgoing, hless⟩ := ht.turn hm hmf hlt
      exact ih hgoing (by push_cast at hturns; omega)
    rw [mainCycle]
    by_cases hpoint : s.p ≥ s.readPoint
    · rw [if_pos hpoint]
      obtain ⟨o', hgoing, hpos, hres⟩ := h.readNextChunk hm hmf hpoint
      generalize s.readNextChunk mf m = r at hgoing hpos hres
      obtain ⟨res, t⟩ := r
      dsimp only at hgoing hpos hres ⊢
      cases res with
      | true =>
        rw [if_pos rfl] at hres ⊢
        exact hgo hgoing hpos hres
      | false =>
        rw [if_neg Bool.false_ne_true] at hres ⊢
        obtain ⟨hend, hrest⟩ := hres
        refine ⟨t, o', S, items, rfl, hgoing, ?_⟩
        have hread := hgoing.read_le
        have hnil := hgoing.rest
        rw [hrest] at hnil
        have hlength := List.drop_eq_nil_iff.mp hnil.symm
        have hoffset := hgoing.offset
        have htwo := hgoing.two_le
        omega
    · rw [if_neg hpoint]
      have hle := h.point_le
      exact hgo h rfl (by omega)

end Going

/-! ## The compressor -/

variable {M : Type} {mf : MatchFinder M} {m : Setup} {Good : M → Memory → Int → Int → Prop} {data : List UInt8}

/-- The first bytes are told directly. -/
lemma told_firstCalls (hm : m.Ok) (hmin : 0 < mf.minLength) {buf : Memory} {n k : ℕ} (hk : k ≤ n) (hn : n ≤ m.buffer)
    (hbuf : ∀ x : Int, 0 ≤ x → x < n → buf x = streamMemory data x) :
    Told (streamMemory data) m.buffer mf.minLength ((List.range k).map fun i : ℕ => .encode buf 0 i 0)
      (((streamMemory data).bytes 0 k).map Item.byte) k k := by
  have hlarge := hm.large
  have hkb : kb = 1024 := rfl
  have hsize : m.buffer ≤ outSize m.buffer := le_max_left _ _
  induction k with
  | zero => exact .nil _ _ _
  | succ k ih =>
    have htold : Told (streamMemory data) m.buffer mf.minLength (_ ++ [.encode buf 0 k 0])
        (_ ++ [.byte (streamMemory data k)]) (k + 1) (k + 1) :=
      (ih (by omega)).literal le_rfl (by omega) (by omega) hmin
        (fun x h₁ h₂ => by rw [sub_self, zero_add]; exact hbuf x h₁ (by omega)) (Int.natCast_nonneg _)
    rw [List.range_succ, List.map_append, Memory.bytes_add, List.map_append, zero_add, Nat.cast_succ, bytes_succ]
    exact htold

/-- The buffer starts with the data. -/
lemma start_buf (mf : MatchFinder M) (m : Setup) (data : List UInt8) {x : Int} (hx : 0 ≤ x)
    (hlt : x < (min m.chunk data.length : ℕ)) : (Compressor.start mf m data).buf x = streamMemory data x := by
  change Memory.copy (fun _ => 0) 0 (streamMemory data) 0 (min m.chunk data.length) x = _
  rw [Memory.copy_of_mem hx (by omega), sub_zero, zero_add]

/-- Bytes are no tables. -/
lemma tablesOf_bytes (data : List UInt8) (k : ℕ) : tablesOf 0 (((streamMemory data).bytes 0 k).map Item.byte) = [] :=
  tablesOf_map_byte _ _

/-- The first calls are no tables. -/
lemma plain_firstCalls (buf : Memory) (k : ℕ) :
    ∀ call ∈ (List.range k).map fun i : ℕ => Call.encode buf 0 i 0, call.Plain := by
  intro call hcall
  obtain ⟨i, -, rfl⟩ := List.mem_map.mp hcall
  trivial

/-- **The main cycle starts** behind the first four bytes. -/
lemma going_start (hm : m.Ok) (hmf : mf.Correct Good) (hfour : 4 ≤ min m.chunk data.length) :
    Going mf m Good data 0 (Compressor.start mf m data) 0 (streamMemory data)
      (((streamMemory data).bytes 0 4).map Item.byte) := by
  have hchunk := hm.chunk_bounds.2
  have hmin := hmf.two_le
  have hlook : (lookahead : Int) = 256 := rfl
  have hbuf := fun x h₁ h₂ => start_buf mf m data (x := x) h₁ h₂
  have htold := told_firstCalls hm (by omega : 0 < mf.minLength) (min_le_left _ 4) (by omega) hbuf
  rw [show min (min m.chunk data.length) 4 = 4 by omega] at htold
  set n := min m.chunk data.length with hn
  constructor
  case two_le => exact (by decide : (2 : Int) ≤ 4)
  case le => change (4 : Int) ≤ n; omega
  case bufend_le => change (n : Int) ≤ _; omega
  case offset => exact le_rfl
  case rest =>
    change data.drop n = data.drop (0 + (n : Int)).toNat
    rw [zero_add, Int.toNat_natCast]
  case read_le => change 0 + (n : Int) ≤ _; omega
  case buf => exact fun x h₁ h₂ => by rw [hbuf x h₁ h₂, zero_add]
  case stream => rw [tablesOf_bytes]; rfl
  case apart => rw [tablesOf_bytes]; exact List.Pairwise.nil
  case tables => rw [tablesOf_bytes]; exact fun t ht => absurd ht List.not_mem_nil
  case count => exact (by decide : (4 : Int) ≤ 2 * (0 + 4) + 0)
  case good => exact hmf.new _ _
  case told =>
    change Told (streamMemory data) m.buffer mf.minLength
      ((List.range (min n 4)).map fun i : ℕ => .encode (Compressor.start mf m data).buf 0 i 0)
      (((streamMemory data).bytes 0 4).map Item.byte) (0 + 4) 4
    rw [show min n 4 = 4 by omega, zero_add]
    exact htold
  case plain => exact fun _ => plain_firstCalls _ _
  case point => change (n : Int) - lookahead ≤ n - (min lookahead n : ℕ); omega
  case point_le => change (n : Int) - (min lookahead n : ℕ) ≤ n; omega
  case ended => exact fun hzero => absurd hzero (by change n ≠ 0; omega)

/-- What the compressor tells the coder: the calls describe a stream from which the data come back. -/
structure Tells (mf : MatchFinder M) (m : Setup) (data : List UInt8) (calls : List Call) (S : Memory)
    (items : List Item) : Prop where
  told : ∃ p, Told S m.buffer mf.minLength calls items data.length p
  stream : undiffed (tablesOf 0 items) S = streamMemory data
  apart : Apart (tablesOf 0 items)
  count : items.length ≤ 2 * data.length
  plain : m.supportTables = false → ∀ call ∈ calls, call.Plain

/-- **The compressor** tells the coder all data, and then that they have ended. -/
theorem torCompressChunk_spec (hm : m.Ok) (hmf : mf.Correct Good) {turns : ℕ} (hturns : data.length < turns) :
    ∃ calls buf S items, torCompressChunk mf m turns data = some (calls ++ [lastCall buf]) ∧
      Tells mf m data calls S items := by
  have hmin := hmf.two_le
  obtain ⟨hfour, hchunk⟩ := hm.chunk_bounds
  set n := min m.chunk data.length with hn
  unfold torCompressChunk
  dsimp only
  by_cases hshort : (Compressor.start mf m data).bufend < 4
  · rw [if_pos hshort]
    change (n : Int) < 4 at hshort
    have hall : data.length = min n 4 := by
      omega
    have htold := told_firstCalls hm (by omega : 0 < mf.minLength) (min_le_left n 4) (by omega)
      (fun x h₁ h₂ => start_buf mf m data (x := x) h₁ h₂)
    refine ⟨_, _, streamMemory data, _, rfl, ⟨⟨_, by rw [hall]; exact htold⟩, ?_, ?_, ?_, ?_⟩⟩
    · rw [tablesOf_bytes]; rfl
    · rw [tablesOf_bytes]; exact List.Pairwise.nil
    · rw [List.length_map, length_memory_bytes]; omega
    · exact fun _ => plain_firstCalls _ _
  · rw [if_neg hshort]
    change ¬(n : Int) < 4 at hshort
    have hgoing := going_start hm hmf (by omega : 4 ≤ min m.chunk data.length)
    obtain ⟨s', o', S', items', hcycle, hgoing', hend⟩ := hgoing.mainCycle_spec hm hmf
      (by change (data.length : Int) - (0 + 4) < turns; omega : (data.length : Int) - (0 + _) < turns)
    rw [hcycle]
    refine ⟨_, _, S', items', rfl, ⟨⟨s'.p, by rw [← hend]; exact hgoing'.told⟩, hgoing'.stream, hgoing'.apart, ?_,
      hgoing'.plain⟩⟩
    have hcount := hgoing'.count
    push_cast at hcount
    omega

end DArc.Tornado
