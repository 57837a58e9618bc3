import DArc.Delta.Tables

/-!
# The table detector of the Delta filter

`searchForTableBoundary` walks over the rows of a supposed table, forwards or backwards, until the
runs of monotone values get too short, and remembers the end of the last good run.
`slowCheckForDataTable` uses it twice to find both ends of a table and decides whether the table is
worth filtering; `firstTable` tries it on the widths and places of one line of 32 bytes at which
similar bytes repeat.

Whatever these heuristics decide, a table they report lies between the end of the table before it
and the end of the block, and consists of whole rows (`slowCheck_spec`).

### Outline

* the walk over the rows, its termination and its bounds;
* the check of one candidate;
* the candidates of one line.
-/

namespace DArc.Delta

/-! ## Walking over the rows -/

/-- The byte of the block at address `i`. -/
def byteAt (buf : List UInt8) (i : ℕ) : UInt8 := buf.getD i 0

/-- The 16-bit value at address `t`, lowest byte first and signed. -/
def int16At (buf : List UInt8) (t : Int) : Int :=
  let v : ℕ := (byteAt buf t.toNat).toNat + 256 * (byteAt buf (t.toNat + 1)).toNat
  if v < 2 ^ 15 then v else v - 2 ^ 16

/-- The change from the row before `t` to the one at `t`. -/
def diffAt (buf : List UInt8) (N t : Int) : Int := int16At buf t - int16At buf (t - N)

/-- The direction of the change from the row at `t` to the next one. -/
def dirAt (buf : List UInt8) (N t : Int) : Int :=
  if int16At buf (t + N) - int16At buf t < 0 then -1 else 1

/-- The variables of `search_for_table_boundary`; `found` is the result `_useless`. -/
structure Search where
  t : Int
  dir : Int
  len : ℕ
  omitted : ℕ
  useless : ℕ
  bad : ℕ
  lastpoint : Int
  found : ℕ
  firstTime : Bool

/-- The change to the row at `t` takes fewer bits than the value there. -/
def improves (buf : List UInt8) (N t : Int) : Bool :=
  let itemlb := lb (1 + (int16At buf t).natAbs)
  let difflb := lb (1 + (diffAt buf N t).natAbs)
  let itemlb := if itemlb > 10 then itemlb - 1 else itemlb
  difflb < itemlb

/-- Begin a new run, at this row if the values turn back and at the next one otherwise. -/
def turn (buf : List UInt8) (N : Int) (s : Search) : Search :=
  let dir := dirAt buf N s.t
  { s with
    dir := dir, len := 0, omitted := 0
    t := if dir * diffAt buf N s.t > 0 then s.t - N else s.t }

/-- The body of the walk; `none` leaves the loop.  In the source a comma ends the conditional
expression that counts good and useless rows, so the last `omit++` is reached either way. -/
def searchStep (buf : List UInt8) (N : Int) (s : Search) : Option Search :=
  let diff := diffAt buf N s.t
  if (s.dir < 0 ∧ diff < 0) ∨ (s.dir > 0 ∧ diff > 0) then
    if improves buf N s.t then some { s with len := s.len + 1, omitted := 0 + 1 }
    else some { s with useless := s.useless + 1, omitted := s.omitted + 1 }
  else if diff = 0 then some { s with useless := s.useless + 1 }
  else if s.len ≥ 4 ∨ s.firstTime then
    some (turn buf N { s with
      bad := 0, lastpoint := s.t - N * s.omitted, found := s.useless, firstTime := false })
  else if s.bad + 1 ≥ 2 then none
  else some (turn buf N { s with bad := s.bad + 1 })

/-- What one iteration can do: go on with the run, or begin a new one. -/
lemma searchStep_cases {buf : List UInt8} {N : Int} {s s' : Search}
    (h : searchStep buf N s = some s') :
    (s'.t = s.t ∧ s'.lastpoint = s.lastpoint ∧ s'.omitted ≤ s.omitted + 1) ∨
      (¬s.dir * diffAt buf N s.t > 0 ∧ s'.omitted = 0 ∧
        (s'.lastpoint = s.lastpoint ∨ s'.lastpoint = s.t - N * s.omitted) ∧
        (s'.t = s.t ∨ s'.t = s.t - N ∧ s'.dir * diffAt buf N s.t > 0)) := by
  have hturn : ∀ s₀ : Search, s₀.t = s.t → (turn buf N s₀).t = s.t ∨
      (turn buf N s₀).t = s.t - N ∧ (turn buf N s₀).dir * diffAt buf N s.t > 0 := by
    intro s₀ h₀
    unfold turn
    rw [h₀]
    by_cases hv : dirAt buf N s.t * diffAt buf N s.t > 0
    · exact Or.inr ⟨if_pos hv, hv⟩
    · exact Or.inl (if_neg hv)
  unfold searchStep at h
  simp only at h
  split at h
  · split at h <;> obtain rfl := Option.some.inj h
    · exact Or.inl ⟨rfl, rfl, by simp only; omega⟩
    · exact Or.inl ⟨rfl, rfl, le_rfl⟩
  · next hrun =>
    have hflat : ¬s.dir * diffAt buf N s.t > 0 := by
      intro hpos
      rcases mul_pos_iff.mp hpos with h' | h'
      · exact hrun (Or.inr h')
      · exact hrun (Or.inl h')
    split at h
    · obtain rfl := Option.some.inj h
      exact Or.inl ⟨rfl, rfl, Nat.le_succ _⟩
    · split at h
      · obtain rfl := Option.some.inj h
        exact Or.inr ⟨hflat, rfl, Or.inr rfl, hturn _ rfl⟩
      · split at h
        · cases h
        · obtain rfl := Option.some.inj h
          exact Or.inr ⟨hflat, rfl, Or.inl rfl, hturn _ rfl⟩

/-- How far the walk still is from its bound, doubled, and less one when the row at `t` continues
the run. -/
def distance (buf : List UInt8) (N bufstart bufend : Int) (s : Search) : ℕ :=
  2 * (if N > 0 then bufend - s.t else s.t - bufstart).toNat +
    if s.dir * diffAt buf N s.t > 0 then 0 else 1

/-- Every iteration of the walk comes closer to its end. -/
lemma distance_lt {buf : List UInt8} {N bufstart bufend : Int} {s s' : Search} (hN : N ≠ 0)
    (hbound : bufstart ≤ s.t + N ∧ s.t + N + 2 ≤ bufend) (h : searchStep buf N s = some s') :
    distance buf N bufstart bufend { s' with t := s'.t + N } < distance buf N bufstart bufend s := by
  unfold distance
  simp only
  rcases searchStep_cases h with ⟨ht, -⟩ | ⟨hflat, -, -, ht | ⟨ht, hdir⟩⟩
  · rw [ht]
    split_ifs <;> omega
  · rw [ht, if_neg hflat]
    split_ifs <;> omega
  · rw [ht, Int.sub_add_cancel, if_pos hdir, if_neg hflat]
    omega

/-- The loop of `search_for_table_boundary`. -/
def searchLoop (buf : List UInt8) (N : Int) (hN : N ≠ 0) (bufstart bufend : Int) (s : Search) :
    Search :=
  if _hbound : bufstart ≤ s.t + N ∧ s.t + N + 2 ≤ bufend then
    match _h : searchStep buf N s with
    | some s' => searchLoop buf N hN bufstart bufend { s' with t := s'.t + N }
    | none => s
  else s
termination_by distance buf N bufstart bufend s
decreasing_by exact distance_lt hN _hbound _h

/-- The state in which a walk from `t` enters its loop. -/
def startSearch (buf : List UInt8) (N t : Int) : Search where
  t := t + N
  dir := dirAt buf N t
  len := 0
  omitted := 0
  useless := 0
  bad := 0
  lastpoint := t
  found := 0
  firstTime := true

/-- `search_for_table_boundary`: walk from `t` in steps of `N` inside `[bufstart, bufend)`. -/
def searchForTableBoundary (buf : List UInt8) (N : Int) (hN : N ≠ 0) (t bufstart bufend : Int) :
    Search :=
  searchLoop buf N hN bufstart bufend (startSearch buf N t)

/-- The walk from `start` is a whole number of rows away from it, and more rows than it has omitted;
so is the last good end, which lies inside the bounds. -/
structure OnRows (N start bufstart bufend : Int) (s : Search) : Prop where
  t_eq : ∃ a : ℕ, s.t = start + N * a ∧ s.omitted + 1 ≤ a
  lastpoint_eq : ∃ b : ℕ, s.lastpoint = start + N * b
  ge : N < 0 → bufstart ≤ s.lastpoint
  le : 0 < N → s.lastpoint ≤ bufend

/-- One iteration keeps the walk on the rows. -/
lemma OnRows.step {buf : List UInt8} {N start bufstart bufend : Int} {s s' : Search}
    (hs : OnRows N start bufstart bufend s)
    (hbound : bufstart ≤ s.t + N ∧ s.t + N + 2 ≤ bufend) (h : searchStep buf N s = some s') :
    OnRows N start bufstart bufend { s' with t := s'.t + N } := by
  obtain ⟨⟨a, ha, homit⟩, ⟨b, hb⟩, hge, hle⟩ := hs
  -- a new end: the rows omitted do not reach back to the start
  have hnew : s.t - N * s.omitted = start + N * (a - s.omitted : ℕ) := by
    rw [ha, Nat.cast_sub (by omega)]
    ring
  have hlast : (∃ b : ℕ, s'.lastpoint = start + N * b) ∧ (N < 0 → bufstart ≤ s'.lastpoint) ∧
      (0 < N → s'.lastpoint ≤ bufend) := by
    have hold : s'.lastpoint = s.lastpoint ∨ s'.lastpoint = s.t - N * s.omitted := by
      rcases searchStep_cases h with ⟨-, h', -⟩ | ⟨-, -, h', -⟩
      · exact Or.inl h'
      · exact h'
    rcases hold with h' | h'
    · rw [h']
      exact ⟨⟨b, hb⟩, hge, hle⟩
    · refine ⟨⟨a - s.omitted, h'.trans hnew⟩, fun hneg => ?_, fun hpos => ?_⟩
      · have : N * s.omitted ≤ 0 := mul_nonpos_of_nonpos_of_nonneg hneg.le (Nat.cast_nonneg _)
        omega
      · have : 0 ≤ N * s.omitted := mul_nonneg hpos.le (Nat.cast_nonneg _)
        omega
  refine ⟨?_, hlast.1, hlast.2.1, hlast.2.2⟩
  rcases searchStep_cases h with ⟨ht, -, hom⟩ | ⟨-, hom, -, ht | ⟨ht, -⟩⟩
  · exact ⟨a + 1, by rw [ht, ha]; push_cast; ring, by simp only; omega⟩
  · exact ⟨a + 1, by rw [ht, ha]; push_cast; ring, by simp only; omega⟩
  · exact ⟨a, by rw [ht, ha]; ring, by simp only; omega⟩

/-- The walk stays on the rows to its end. -/
lemma OnRows.loop (buf : List UInt8) {N start bufstart bufend : Int} (hN : N ≠ 0) {s : Search}
    (hs : OnRows N start bufstart bufend s) :
    OnRows N start bufstart bufend (searchLoop buf N hN bufstart bufend s) := by
  induction s using searchLoop.induct buf N hN bufstart bufend with
  | case1 s hbound s' h ih =>
    rw [searchLoop, dif_pos hbound]
    split
    · next s'' h' =>
      obtain rfl := Option.some.inj (h.symm.trans h')
      exact ih (hs.step hbound h)
    · exact hs
  | case2 s hbound h =>
    rw [searchLoop, dif_pos hbound]
    split
    · next s'' h' => rw [h] at h'; cases h'
    · exact hs
  | case3 s hbound =>
    rw [searchLoop, dif_neg hbound]
    exact hs

/-- **The boundary found is a whole number of rows away**, on the right side of its bound. -/
lemma searchForTableBoundary_spec (buf : List UInt8) {N : Int} (hN : N ≠ 0)
    {t bufstart bufend : Int} (hge : N < 0 → bufstart ≤ t) (hle : 0 < N → t ≤ bufend) :
    (∃ b : ℕ, (searchForTableBoundary buf N hN t bufstart bufend).lastpoint = t + N * b) ∧
      (N < 0 → bufstart ≤ (searchForTableBoundary buf N hN t bufstart bufend).lastpoint) ∧
      (0 < N → (searchForTableBoundary buf N hN t bufstart bufend).lastpoint ≤ bufend) := by
  have hstart : OnRows N t bufstart bufend (startSearch buf N t) :=
    ⟨⟨1, by simp [startSearch], le_rfl⟩, ⟨0, by simp [startSearch]⟩, hge, hle⟩
  have hrows := OnRows.loop buf hN hstart
  exact ⟨hrows.lastpoint_eq, hrows.ge, hrows.le⟩

/-! ## Checking one candidate -/

/-- How often column `k` changes from one row to the next. -/
def changes (k : ℕ) : List (List UInt8) → ℕ
  | p :: r :: rs => (if r.getD k 0 ≠ p.getD k 0 then 1 else 0) + changes k (r :: rs)
  | _ => 0

/-- `analyze_table`: a column is immutable when it changes in less than a quarter of the rows, and
the width is none of the usual sizes of numbers. -/
def analyzeTable (N : ℕ) (rows : List (List UInt8)) : List Bool :=
  (List.range N).map fun k => changes k rows * 4 < rows.length ∧ N ≠ 2 ∧ N ≠ 4 ∧ N ≠ 8

/-- A table found in a block: where it starts, its number of rows, its immutable columns. -/
structure Found where
  start : ℕ
  rows : ℕ
  immutable : List Bool

/-- The number of bytes of a table. -/
def Found.size (f : Found) : ℕ := f.immutable.length * f.rows

/-- The end of a table. -/
def Found.stop (f : Found) : ℕ := f.start + f.size

/-- `useful * sqrt(N) > 30 + 4 * skipBits`.  The square root is irrational or exact, so comparing
squares decides as the `double` comparison does. -/
def worthwhile (useful : Int) (N skipBits : ℕ) : Bool :=
  0 < useful ∧ useful ^ 2 * N > (30 + 4 * (skipBits : Int)) ^ 2

/-- `slow_check_for_data_table` for rows of `n + 1` bytes around `p`; `bufstart` is the end of the
table before. -/
def slowCheckForDataTable (buf : List UInt8) (n p bufstart : ℕ) : Option Found :=
  let back := searchForTableBoundary buf (-(n + 1 : ℕ)) (by omega) p bufstart buf.length
  let tableStart := back.lastpoint
  let forth := searchForTableBoundary buf (n + 1 : ℕ) (by omega) tableStart bufstart buf.length
  let rows := (forth.lastpoint - tableStart) / (n + 1 : ℕ)
  let useful := rows - forth.found
  let skipBits := lb (max (tableStart - bufstart) 1).toNat
  if worthwhile useful (n + 1) skipBits then
    let table := (buf.drop tableStart.toNat).take ((n + 1) * rows.toNat)
    some
      { start := tableStart.toNat
        rows := rows.toNat
        immutable := analyzeTable (n + 1) (toRows (n + 1) rows.toNat table) }
  else none

/-- The block with a table filtered in place. -/
def filterBlock (buf : List UInt8) (f : Found) : List UInt8 :=
  buf.take f.start ++ filterTable f.immutable f.rows ((buf.drop f.start).take f.size)
    ++ buf.drop f.stop

/-- A table that can be described in the stream: it follows the end `last` of the table before it,
ends inside the block, has at most 30 columns, and is not too small. -/
structure Found.Fits (f : Found) (last size : ℕ) : Prop where
  start_ge : last ≤ f.start
  stop_le : f.stop ≤ size
  width_le : f.immutable.length ≤ maxElementSize
  size_ge : 4 ≤ f.size

/-- A worthwhile table has at least four rows. -/
lemma four_le_of_worthwhile {rows found N skipBits : ℕ} (hN : N ≤ maxElementSize)
    (h : worthwhile (rows - found) N skipBits = true) : 4 ≤ rows := by
  simp only [worthwhile, decide_eq_true_eq] at h
  obtain ⟨hpos, hbig⟩ := h
  by_contra hfew
  have huseful : (rows : Int) - found ≤ 3 := by omega
  have hsquare : ((rows : Int) - found) ^ 2 * N ≤ 9 * 30 :=
    mul_le_mul (by nlinarith) (by exact_mod_cast hN) (by positivity) (by norm_num)
  have hskip : (0 : Int) ≤ skipBits := Nat.cast_nonneg _
  have hbits : (900 : Int) ≤ (30 + 4 * (skipBits : Int)) ^ 2 := by nlinarith
  omega

/-- **A table that passes the check fits**: it lies between the table before it and the end of the
block, and consists of whole rows. -/
lemma slowCheck_spec {buf : List UInt8} {n p last : ℕ} {f : Found} (hn : n < maxElementSize)
    (hp : last ≤ p) (hpe : p ≤ buf.length) (h : slowCheckForDataTable buf n p last = some f) :
    f.Fits last buf.length := by
  unfold slowCheckForDataTable at h
  simp only at h
  have hneg : -((n + 1 : ℕ) : Int) ≠ 0 := by omega
  have hpos : ((n + 1 : ℕ) : Int) ≠ 0 := by omega
  obtain ⟨⟨b₁, hb₁⟩, hge, -⟩ := searchForTableBoundary_spec buf hneg
    (fun _ => (by omega : (last : Int) ≤ p)) (fun _ => (by omega : (p : Int) ≤ buf.length))
  set back := searchForTableBoundary buf (-((n + 1 : ℕ) : Int)) hneg p last buf.length
  have hstart := hge (by omega)
  have hback : 0 ≤ ((n + 1 : ℕ) : Int) * b₁ := by positivity
  have hstartle : back.lastpoint ≤ buf.length := by
    rw [hb₁, neg_mul]
    omega
  obtain ⟨⟨b₂, hb₂⟩, -, hle⟩ := searchForTableBoundary_spec buf hpos
    (t := back.lastpoint) (fun _ => hstart) (fun _ => hstartle)
  set forth := searchForTableBoundary buf ((n + 1 : ℕ) : Int) hpos back.lastpoint last buf.length
  have hstop := hle (by omega)
  have hrows : (forth.lastpoint - back.lastpoint) / ((n + 1 : ℕ) : Int) = b₂ := by
    rw [hb₂, add_sub_cancel_left]
    exact Int.mul_ediv_cancel_left _ hpos
  rw [hrows] at h
  split at h
  · next hworth =>
    obtain rfl := Option.some.inj h
    have hfour := four_le_of_worthwhile (by omega) hworth
    have hwidth : (analyzeTable (n + 1) (toRows (n + 1) (b₂ : Int).toNat
        ((buf.drop back.lastpoint.toNat).take ((n + 1) * (b₂ : Int).toNat)))).length = n + 1 := by
      simp [analyzeTable]
    have hsize : 4 ≤ (n + 1) * b₂ := by nlinarith
    have hend : back.lastpoint + ((n + 1) * b₂ : ℕ) ≤ buf.length := by
      push_cast at hb₂ ⊢
      omega
    refine ⟨by simp only; omega, ?_, by rw [hwidth]; omega, ?_⟩
    · rw [Found.stop, Found.size, hwidth]
      simp only [Int.toNat_natCast]
      omega
    · rw [Found.size, hwidth]
      exact hsize
  · cases h

/-! ## The candidates of one line -/

/-- `LINE`: the number of bytes whose repetitions are counted together. -/
abbrev lineSize : ℕ := 32

/-- The addresses at which the values of the high four bits were last seen; one before the block at
first. -/
abbrev HashTable : Type := ℕ → Int

/-- Count at which distances similar bytes repeat in the line at `ptr`.  Entry `i` counts distance
`i + 1`. -/
def countDistances (buf : List UInt8) (ptr : ℕ) (hash : HashTable) : HashTable × (ℕ → ℕ) :=
  (List.range lineSize).foldl
    (fun (hash, count) i =>
      let p := ptr + i
      let slot := (byteAt buf p).toNat / 16
      let n := (p : Int) - hash slot
      (Function.update hash slot p,
        if n ≤ maxElementSize then Function.update count (n - 1).toNat (count (n - 1).toNat + 1)
        else count))
    (hash, fun _ => 0)

/-- Two bytes that differ by at most `DELTA`. -/
def near (a b : UInt8) : Bool :=
  let d := (a.toNat : Int) - b.toNat + 8
  0 ≤ d ∧ d ≤ 2 * 8

/-- The condition of `FAST_CHECK_FOR_DATA_TABLE` for rows of `N` bytes at `p`. -/
def fastCheck (buf : List UInt8) (N p : ℕ) : Bool :=
  near (byteAt buf (p + 1)) (byteAt buf (p + N + 1)) &&
  near (byteAt buf (p + N + 1)) (byteAt buf (p + 2 * N + 1)) &&
  near (byteAt buf (p + 2 * N + 1)) (byteAt buf (p + 3 * N + 1)) &&
  int16At buf p + int16At buf (p + N) ≠ int16At buf (p + 2 * N) + int16At buf (p + 3 * N)

/-- The candidates of a line: for every width that repeats more than five times, every place at
which a row may begin.  The width is given less one. -/
def candidates (count : ℕ → ℕ) (ptr : ℕ) : List (ℕ × ℕ) :=
  ((List.range maxElementSize).filter fun i => count i > 5).flatMap fun i =>
    (List.range (i + 1)).map fun j => (i, ptr + j)

/-- The first candidate that is a table. -/
def firstTable (buf : List UInt8) (last : ℕ) : List (ℕ × ℕ) → Option Found
  | [] => none
  | (i, p) :: rest =>
    if fastCheck buf (i + 1) p then
      match slowCheckForDataTable buf i p last with
      | some f => some f
      | none => firstTable buf last rest
    else firstTable buf last rest

/-- The first table found fits. -/
lemma firstTable_spec {buf : List UInt8} {last : ℕ} {cs : List (ℕ × ℕ)} {f : Found}
    (hcs : ∀ c ∈ cs, c.1 < maxElementSize ∧ last ≤ c.2 ∧ c.2 ≤ buf.length)
    (h : firstTable buf last cs = some f) : f.Fits last buf.length := by
  induction cs with
  | nil => cases h
  | cons c rest ih =>
    have hrest := fun c' hc' => hcs c' (List.mem_cons_of_mem c hc')
    obtain ⟨hi, hp, hpe⟩ := hcs c List.mem_cons_self
    rw [firstTable] at h
    split at h
    · split at h
      · next hslow =>
        obtain rfl := Option.some.inj h
        exact slowCheck_spec hi hp hpe hslow
      · exact ih hrest h
    · exact ih hrest h

/-- The candidates of a line begin in it. -/
lemma candidates_spec {count : ℕ → ℕ} {ptr : ℕ} :
    ∀ c ∈ candidates count ptr, c.1 < maxElementSize ∧ ptr ≤ c.2 ∧ c.2 ≤ ptr + c.1 := by
  intro c hc
  obtain ⟨i, hi, hc⟩ := List.mem_flatMap.mp hc
  obtain ⟨j, hj, rfl⟩ := List.mem_map.mp hc
  have hirange := List.mem_range.mp (List.mem_filter.mp hi).1
  have hjrange := List.mem_range.mp hj
  exact ⟨hirange, Nat.le_add_right _ _, by simp only; omega⟩

end DArc.Delta
