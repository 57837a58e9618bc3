import DArc.Compression.Common

/-!
# Data tables of the Delta filter

A data table is a run of rows of equal width.  The filter replaces each row by its difference to
the row above, bytewise with carries (`diffTable`), leaves out the columns that hardly ever change,
and moves these *immutable* columns in front of the others (`reorderTable`).  The width and the set
of immutable columns are packed into one word (`encodeType`).

### Main results

* `undiffTable_diffTable`, `unreorderTable_reorderTable`, `decodeType_encodeType`: each step is
  undone by its counterpart;
* `restoreTable_filterTable`: so is the whole treatment of a table, whatever columns are immutable.
-/

namespace DArc.Delta

/-! ## The type word -/

/-- `MAX_ELEMENT_SIZE`. -/
abbrev maxElementSize : ℕ := 30

/-- The flags of the columns, first column lowest. -/
def flagBits : List Bool → ℕ
  | [] => 0
  | b :: bs => b.toNat + 2 * flagBits bs

/-- `encode_type`: the width as the highest bit, the immutable columns below. -/
def encodeType (immutable : List Bool) : ℕ := 2 ^ immutable.length + flagBits immutable

/-- `decode_type`: the immutable columns; their number is the width, and the other columns are
diffed. -/
def decodeType (type : ℕ) : List Bool :=
  if type > 1 then (type % 2 = 1) :: decodeType (type / 2) else []
termination_by type

/-- The flags of `n` columns are below `2 ^ n`. -/
lemma flagBits_lt (immutable : List Bool) : flagBits immutable < 2 ^ immutable.length := by
  induction immutable with
  | nil => simp [flagBits]
  | cons b bs ih =>
    have hb : b.toNat ≤ 1 := Bool.toNat_le b
    rw [flagBits, List.length_cons, pow_succ]
    omega

/-- The type word of at most 30 columns is a positive `int`. -/
lemma encodeType_lt {immutable : List Bool} (h : immutable.length ≤ maxElementSize) :
    encodeType immutable < 2 ^ 31 := by
  have hflags := flagBits_lt immutable
  have hpow : 2 ^ immutable.length ≤ 2 ^ 30 := Nat.pow_le_pow_right (by norm_num) h
  unfold encodeType
  omega

/-- The type word gives the columns back. -/
lemma decodeType_encodeType (immutable : List Bool) :
    decodeType (encodeType immutable) = immutable := by
  induction immutable with
  | nil => rw [encodeType, decodeType]; rfl
  | cons b bs ih =>
    have hcons : encodeType (b :: bs) = b.toNat + 2 * encodeType bs := by
      simp only [encodeType, flagBits, List.length_cons, pow_succ]
      omega
    have hpos : 0 < encodeType bs := by
      unfold encodeType
      positivity
    have hb : b.toNat ≤ 1 := Bool.toNat_le b
    have hhigh : (b.toNat + 2 * encodeType bs) / 2 = encodeType bs := by omega
    have hlow : decide ((b.toNat + 2 * encodeType bs) % 2 = 1) = b := by
      cases b <;> simp
    rw [hcons, decodeType, if_pos (by omega), hhigh, hlow, ih]

/-! ## Differences -/

/-- Subtract from a row the one above it, lowest address first.  A carry passes between adjacent
diffed columns only. -/
def diffRow : List Bool → List UInt8 → List UInt8 → ℕ → List UInt8
  | true :: ds, p :: ps, r :: rs, carry =>
    let newcarry := if r.toNat < p.toNat + carry then 1 else 0
    (r - UInt8.ofNat (p.toNat + carry)) :: diffRow ds ps rs newcarry
  | false :: ds, _ :: ps, r :: rs, _ => r :: diffRow ds ps rs 0
  | _, _, rs, _ => rs

/-- Add to a row the one above it. -/
def undiffRow : List Bool → List UInt8 → List UInt8 → ℕ → List UInt8
  | true :: ds, p :: ps, r :: rs, carry =>
    let sum := r.toNat + p.toNat + carry
    UInt8.ofNat sum :: undiffRow ds ps rs (sum / 256)
  | false :: ds, _ :: ps, r :: rs, _ => r :: undiffRow ds ps rs 0
  | _, _, rs, _ => rs

/-- The rows below `prev` with the original row above subtracted from each: the source goes from the
last row up. -/
def diffFrom (doDiff : List Bool) : List UInt8 → List (List UInt8) → List (List UInt8)
  | _, [] => []
  | prev, r :: rs => diffRow doDiff prev r 0 :: diffFrom doDiff r rs

/-- The rows below `prev` with the restored row above added to each. -/
def undiffFrom (doDiff : List Bool) : List UInt8 → List (List UInt8) → List (List UInt8)
  | _, [] => []
  | prev, r :: rs =>
    let r := undiffRow doDiff prev r 0
    r :: undiffFrom doDiff r rs

/-- `diff_table`: the first row stays as it is. -/
def diffTable (doDiff : List Bool) : List (List UInt8) → List (List UInt8)
  | [] => []
  | r :: rs => r :: diffFrom doDiff r rs

/-- `undiff_table`. -/
def undiffTable (doDiff : List Bool) : List (List UInt8) → List (List UInt8)
  | [] => []
  | r :: rs => r :: undiffFrom doDiff r rs

/-- One column with carry: the sum restores the byte and the carry. -/
lemma sub_add_carry (r p : UInt8) {carry : ℕ} (hc : carry ≤ 1) :
    UInt8.ofNat ((r - UInt8.ofNat (p.toNat + carry)).toNat + p.toNat + carry) = r ∧
      ((r - UInt8.ofNat (p.toNat + carry)).toNat + p.toNat + carry) / 256 =
        if r.toNat < p.toNat + carry then 1 else 0 := by
  have hp : p.toNat < 256 := p.toNat_lt
  have hr : r.toNat < 256 := r.toNat_lt
  have hval : (r - UInt8.ofNat (p.toNat + carry)).toNat =
      (256 - (p.toNat + carry) % 256 + r.toNat) % 256 := by
    rw [UInt8.toNat_sub, UInt8.toNat_ofNat']
  constructor
  · apply UInt8.toNat_inj.mp
    rw [UInt8.toNat_ofNat', hval]
    omega
  · rw [hval]
    split <;> omega

/-- Adding back the row above restores a row. -/
lemma undiffRow_diffRow (doDiff : List Bool) (prev row : List UInt8) {carry : ℕ} (hc : carry ≤ 1) :
    undiffRow doDiff prev (diffRow doDiff prev row carry) carry = row := by
  induction doDiff generalizing prev row carry with
  | nil => simp [diffRow, undiffRow]
  | cons d ds ih =>
    cases prev with
    | nil => cases d <;> simp [diffRow, undiffRow]
    | cons p ps =>
      cases row with
      | nil => cases d <;> simp [diffRow, undiffRow]
      | cons r rs =>
        cases d with
        | false => simp [diffRow, undiffRow, ih ps rs (Nat.zero_le 1)]
        | true =>
          obtain ⟨hbyte, hcarry⟩ := sub_add_carry r p hc
          simp only [diffRow, undiffRow, hbyte, hcarry]
          rw [ih ps rs (by split <;> omega)]

/-- Adding the rows back from the top restores a table. -/
lemma undiffTable_diffTable (doDiff : List Bool) (rows : List (List UInt8)) :
    undiffTable doDiff (diffTable doDiff rows) = rows := by
  have hfrom : ∀ (rs : List (List UInt8)) prev,
      undiffFrom doDiff prev (diffFrom doDiff prev rs) = rs := by
    intro rs
    induction rs with
    | nil => intro prev; rfl
    | cons r rs ih =>
      intro prev
      simp only [diffFrom, undiffFrom, undiffRow_diffRow doDiff prev r (Nat.zero_le 1), ih]
  cases rows with
  | nil => rfl
  | cons r rs => simp only [diffTable, undiffTable, hfrom]

/-- A difference has the width of its row. -/
lemma length_diffRow (doDiff : List Bool) (prev row : List UInt8) (carry : ℕ) :
    (diffRow doDiff prev row carry).length = row.length := by
  induction doDiff generalizing prev row carry with
  | nil => simp [diffRow]
  | cons d ds ih =>
    cases prev with
    | nil => cases d <;> simp [diffRow]
    | cons p ps =>
      cases row with
      | nil => cases d <;> simp [diffRow]
      | cons r rs => cases d <;> simp [diffRow, ih]

/-- The differences of a table of a given width are one. -/
lemma width_diffTable {n : ℕ} (doDiff : List Bool) {rows : List (List UInt8)}
    (h : ∀ r ∈ rows, r.length = n) : ∀ r ∈ diffTable doDiff rows, r.length = n := by
  have hfrom : ∀ (rs : List (List UInt8)) prev, (∀ r ∈ rs, r.length = n) →
      ∀ r ∈ diffFrom doDiff prev rs, r.length = n := by
    intro rs
    induction rs with
    | nil => intro prev _ r hr; cases hr
    | cons r' rs ih =>
      intro prev hrs r hr
      rcases List.mem_cons.mp hr with rfl | hr
      · rw [length_diffRow]
        exact hrs r' (by simp)
      · exact ih r' (fun x hx => hrs x (by simp [hx])) r hr
  cases rows with
  | nil => intro r hr; cases hr
  | cons r' rs =>
    intro r hr
    rcases List.mem_cons.mp hr with rfl | hr
    · exact h r (by simp)
    · exact hfrom rs r' (fun x hx => h x (by simp [hx])) r hr

/-- Taking differences keeps the number of rows. -/
lemma length_diffTable (doDiff : List Bool) (rows : List (List UInt8)) :
    (diffTable doDiff rows).length = rows.length := by
  have hfrom : ∀ (rs : List (List UInt8)) prev, (diffFrom doDiff prev rs).length = rs.length := by
    intro rs
    induction rs with
    | nil => intro prev; rfl
    | cons r rs ih => intro prev; simp [diffFrom, ih]
  cases rows with
  | nil => rfl
  | cons r rs => simp [diffTable, hfrom]

/-! ## The order of the columns -/

/-- The bytes of a row in the marked columns. -/
def select : List Bool → List UInt8 → List UInt8
  | true :: ms, b :: bs => b :: select ms bs
  | false :: ms, _ :: bs => select ms bs
  | _, _ => []

/-- `reorder_table`: the immutable columns of all rows, then the other columns of all rows. -/
def reorderTable (immutable : List Bool) (rows : List (List UInt8)) : List UInt8 :=
  (rows.map (select immutable)).flatten ++ (rows.map (select (immutable.map not))).flatten

/-- One row from the two places its bytes were moved to; the rest of both places is returned. -/
def mergeRow : List Bool → List UInt8 → List UInt8 → List UInt8 × List UInt8 × List UInt8
  | [], q, q₁ => ([], q, q₁)
  | true :: ms, q, q₁ =>
    let (row, q', q₁') := mergeRow ms q.tail q₁
    (q.headD 0 :: row, q', q₁')
  | false :: ms, q, q₁ =>
    let (row, q', q₁') := mergeRow ms q q₁.tail
    (q₁.headD 0 :: row, q', q₁')

/-- `n` rows from the two places their bytes were moved to. -/
def mergeRows (immutable : List Bool) : ℕ → List UInt8 → List UInt8 → List UInt8
  | 0, _, _ => []
  | n + 1, q, q₁ =>
    let (row, q', q₁') := mergeRow immutable q q₁
    row ++ mergeRows immutable n q' q₁'

/-- `unreorder_table`: nothing to do when all columns or none are immutable. -/
def unreorderTable (immutable : List Bool) (n : ℕ) (data : List UInt8) : List UInt8 :=
  let immColumns := immutable.count true
  if immColumns = 0 ∨ immColumns = immutable.length then data
  else mergeRows immutable n (data.take (immColumns * n)) (data.drop (immColumns * n))

/-- A row is merged back from its parts. -/
lemma mergeRow_select {immutable : List Bool} {row : List UInt8} (q q₁ : List UInt8)
    (h : row.length = immutable.length) :
    mergeRow immutable (select immutable row ++ q) (select (immutable.map not) row ++ q₁) =
      (row, q, q₁) := by
  induction immutable generalizing row with
  | nil =>
    obtain rfl := List.length_eq_zero_iff.mp h
    rfl
  | cons m ms ih =>
    obtain ⟨b, bs, rfl⟩ := List.exists_cons_of_length_eq_add_one h
    have htail := ih (by simpa using h)
    cases m <;> simp [select, mergeRow, htail]

/-- All rows are merged back from their parts. -/
lemma mergeRows_select {immutable : List Bool} {rows : List (List UInt8)}
    (h : ∀ r ∈ rows, r.length = immutable.length) :
    mergeRows immutable rows.length (rows.map (select immutable)).flatten
      (rows.map (select (immutable.map not))).flatten = rows.flatten := by
  induction rows with
  | nil => rfl
  | cons r rs ih =>
    have hrow := mergeRow_select (rs.map (select immutable)).flatten
      (rs.map (select (immutable.map not))).flatten (h r (by simp))
    rw [List.length_cons, mergeRows, List.map_cons, List.flatten_cons, List.map_cons,
      List.flatten_cons, hrow, List.flatten_cons, ← ih fun x hx => h x (by simp [hx])]

/-- A row has one byte for every marked column. -/
lemma length_select {marked : List Bool} {row : List UInt8} (h : row.length = marked.length) :
    (select marked row).length = marked.count true := by
  induction marked generalizing row with
  | nil => simp [select]
  | cons m ms ih =>
    obtain ⟨b, bs, rfl⟩ := List.exists_cons_of_length_eq_add_one h
    have htail := ih (by simpa using h)
    cases m <;> simp [select, htail]

/-- Marking no column selects nothing, marking all selects the row. -/
lemma select_of_count {marked : List Bool} {row : List UInt8} (h : row.length = marked.length) :
    (marked.count true = 0 → select marked row = []) ∧
      (marked.count true = marked.length → select marked row = row) := by
  constructor
  · intro hzero
    exact List.length_eq_zero_iff.mp (by rw [length_select h, hzero])
  · intro hall
    induction marked generalizing row with
    | nil =>
      obtain rfl := List.length_eq_zero_iff.mp h
      rfl
    | cons m ms ih =>
      obtain ⟨b, bs, rfl⟩ := List.exists_cons_of_length_eq_add_one h
      have hle : ms.count true ≤ ms.length := List.count_le_length
      cases m with
      | false => simp at hall; omega
      | true => simp [select, ih (by simpa using h) (by simpa using hall)]

/-- The columns not marked are as many as the marked ones leave. -/
lemma count_map_not (marked : List Bool) :
    (marked.map not).count true + marked.count true = marked.length := by
  induction marked with
  | nil => rfl
  | cons m ms ih => cases m <;> simp <;> omega

/-- Putting the columns back in their order restores the rows. -/
lemma unreorderTable_reorderTable {immutable : List Bool} {rows : List (List UInt8)}
    (h : ∀ r ∈ rows, r.length = immutable.length) :
    unreorderTable immutable rows.length (reorderTable immutable rows) = rows.flatten := by
  have hcount := count_map_not immutable
  have hnone : ∀ marked : List Bool, marked.length = immutable.length → marked.count true = 0 →
      (rows.map (select marked)).flatten = [] := by
    intro marked hlen hzero
    rw [List.flatten_eq_nil_iff]
    intro l hl
    obtain ⟨r, hr, rfl⟩ := List.mem_map.mp hl
    exact (select_of_count ((h r hr).trans hlen.symm)).1 hzero
  have hall : ∀ marked : List Bool, marked.length = immutable.length →
      marked.count true = marked.length → (rows.map (select marked)).flatten = rows.flatten := by
    intro marked hlen hfull
    congr 1
    conv_rhs => rw [← List.map_id rows]
    exact List.map_congr_left fun r hr => (select_of_count ((h r hr).trans hlen.symm)).2 hfull
  have hlennot : (immutable.map not).length = immutable.length := List.length_map _
  unfold unreorderTable reorderTable
  simp only
  split
  · next hcond =>
    rcases hcond with hzero | hfull
    · rw [hnone immutable rfl hzero, hall (immutable.map not) hlennot (by omega), List.nil_append]
    · rw [hall immutable rfl hfull, hnone (immutable.map not) hlennot (by omega), List.append_nil]
  · have hlen : ((rows.map (select immutable)).flatten).length = immutable.count true * rows.length := by
      rw [List.length_flatten, List.map_map, Nat.mul_comm]
      have hconst : rows.map (List.length ∘ select immutable)
          = List.replicate rows.length (immutable.count true) := by
        rw [List.eq_replicate_iff]
        refine ⟨List.length_map _, fun x hx => ?_⟩
        obtain ⟨r, hr, rfl⟩ := List.mem_map.mp hx
        exact length_select (h r hr)
      rw [hconst, List.sum_replicate, smul_eq_mul]
    rw [List.take_left' hlen, List.drop_left' hlen]
    exact mergeRows_select h

/-! ## A whole table -/

/-- The first `n` rows of width `width`. -/
def toRows (width : ℕ) : ℕ → List UInt8 → List (List UInt8)
  | 0, _ => []
  | n + 1, data => data.take width :: toRows width n (data.drop width)

@[simp] lemma length_toRows (width n : ℕ) (data : List UInt8) :
    (toRows width n data).length = n := by
  induction n generalizing data with
  | zero => rfl
  | succ n ih => simp [toRows, ih]

/-- A run of whole rows is cut into rows of the given width and can be put together again. -/
lemma toRows_spec {width n : ℕ} {data : List UInt8} (h : data.length = width * n) :
    (∀ r ∈ toRows width n data, r.length = width) ∧ (toRows width n data).flatten = data := by
  induction n generalizing data with
  | zero =>
    obtain rfl := List.length_eq_zero_iff.mp (by simpa using h)
    exact ⟨fun r hr => (by cases hr), rfl⟩
  | succ n ih =>
    rw [Nat.mul_succ] at h
    have hdrop : (data.drop width).length = width * n := by
      rw [List.length_drop]
      omega
    obtain ⟨hwidth, hflat⟩ := ih hdrop
    refine ⟨fun r hr => ?_, ?_⟩
    · rcases List.mem_cons.mp hr with rfl | hr
      · rw [List.length_take]
        omega
      · exact hwidth r hr
    · rw [toRows, List.flatten_cons, hflat, List.take_append_drop]

/-- Rows of the given width are found again in their concatenation. -/
lemma toRows_flatten {width : ℕ} {rows : List (List UInt8)} (h : ∀ r ∈ rows, r.length = width) :
    toRows width rows.length rows.flatten = rows := by
  induction rows with
  | nil => rfl
  | cons r rs ih =>
    have hr : r.length = width := h r (by simp)
    rw [List.length_cons, toRows, List.flatten_cons, List.take_left' hr, List.drop_left' hr,
      ih fun x hx => h x (by simp [hx])]

/-- What the compressor does with a table whose immutable columns are known. -/
def filterTable (immutable : List Bool) (n : ℕ) (data : List UInt8) : List UInt8 :=
  reorderTable immutable (diffTable (immutable.map not) (toRows immutable.length n data))

/-- What the decompressor does with a table. -/
def restoreTable (immutable : List Bool) (n : ℕ) (data : List UInt8) : List UInt8 :=
  (undiffTable (immutable.map not)
    (toRows immutable.length n (unreorderTable immutable n data))).flatten

/-- A filtered table is as long as the table. -/
lemma length_filterTable {immutable : List Bool} {n : ℕ} {data : List UInt8}
    (h : data.length = immutable.length * n) : (filterTable immutable n data).length = data.length := by
  obtain ⟨hwidth, -⟩ := toRows_spec h
  have hdiff := width_diffTable (immutable.map not) hwidth
  have hlenT := length_diffTable (immutable.map not) (toRows immutable.length n data)
  rw [length_toRows] at hlenT
  have hsum : ∀ (rows : List (List UInt8)), (∀ r ∈ rows, r.length = immutable.length) →
      (reorderTable immutable rows).length = immutable.length * rows.length := by
    intro rows
    have hcount := count_map_not immutable
    induction rows with
    | nil => intro _; rfl
    | cons r rs ih =>
      intro hrs
      have htail := ih fun x hx => hrs x (by simp [hx])
      have hr : r.length = immutable.length := hrs r (by simp)
      have h₁ := length_select hr
      have hnot : r.length = (immutable.map not).length := by rw [hr, List.length_map]
      have h₂ := length_select hnot
      simp only [reorderTable, List.length_append] at htail
      simp only [reorderTable, List.map_cons, List.flatten_cons, List.length_append,
        List.length_cons, Nat.mul_succ]
      omega
  rw [filterTable, hsum _ hdiff, hlenT, h]

/-- **A filtered table is restored**, whatever its width, its rows and its immutable columns. -/
theorem restoreTable_filterTable {immutable : List Bool} {n : ℕ} {data : List UInt8}
    (h : data.length = immutable.length * n) :
    restoreTable immutable n (filterTable immutable n data) = data := by
  obtain ⟨hwidth, hflat⟩ := toRows_spec h
  have hdiff := width_diffTable (immutable.map not) hwidth
  have hlenT := length_diffTable (immutable.map not) (toRows immutable.length n data)
  rw [length_toRows] at hlenT
  have hback := unreorderTable_reorderTable hdiff
  have hrows := toRows_flatten hdiff
  rw [hlenT] at hback hrows
  rw [restoreTable, filterTable, hback, hrows, undiffTable_diffTable, hflat]

end DArc.Delta
