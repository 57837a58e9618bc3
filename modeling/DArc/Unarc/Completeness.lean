import DArc.Unarc.Extraction

/-!
# Which files of a block unarc extracts

The second pass follows the stream byte by byte, whatever the sizes of the writes are.  Where the stream
ends in front of a file that was accepted, and nothing else goes wrong, no error is reported: the CRC is
only compared for the file the stream ends in, and only when that file is accepted.

### Outline

* `Block.slice`: the part of the stream that belongs to a file;
* `Complete`: every accepted file was extracted, and nothing else was;
* `Reaches`, `Fault`: how far the stream goes, and what is reported as an error;
* `Tracks`: the state of the second pass when the decompressor has written `s`.

### Main results

* `multiDecompress_outcome`: the second pass follows the stream in any chunking;
* `extractFiles_eq_ok_iff`: there is an error if and only if there is a fault;
* `extractsCompletely_iff`: no file is missed silently if and only if the stream reaches the end of every
  accepted file, or there is a fault.
-/

namespace DArc.Unarc

open DArc.Environment

/-! ## The files of the block -/

/-- Where the bytes of the file `i` begin in the stream. -/
def Block.offset (b : Block) (i : ℕ) : ℕ := ∑ j ∈ Finset.Ico b.blockStart i, (b.dir j).size

/-- The bytes of the file `i`, as far as the stream has them. -/
def Block.slice (b : Block) (stream : List UInt8) (i : ℕ) : List UInt8 :=
  (stream.drop (b.offset i)).take (b.dir i).size

/-- The file is accepted, and not refused because it exists already. -/
def taken (b : Block) (command : Command) (i : ℕ) : Bool :=
  command.acceptFile i &&
    (decide (command.cmd = .t) || (b.dir i).isdir || decide (command.overwrite i = .write))

/-- The user ends the program when the file is to be opened. -/
def quits (b : Block) (command : Command) (i : ℕ) : Bool :=
  command.acceptFile i && !decide (command.cmd = .t) && !(b.dir i).isdir &&
    decide (command.overwrite i = .quit)

/-- What the command makes on disk of the file `i` with the contents `bytes`. -/
def output (b : Block) (command : Command) (i : ℕ) (bytes : List UInt8) : Option Output :=
  if command.cmd = .t then none
  else if (b.dir i).isdir then (if command.cmd = .e then none else some .directory)
  else some (.file bytes)

/-- The bytes of the next file begin behind those of the file. -/
lemma Block.offset_succ (b : Block) {i : ℕ} (h : b.blockStart ≤ i) :
    b.offset (i + 1) = b.offset i + (b.dir i).size :=
  Finset.sum_Ico_succ_top h _

/-- The files are in order. -/
lemma Block.offset_mono (b : Block) {i j : ℕ} (h : i ≤ j) : b.offset i ≤ b.offset j :=
  Finset.sum_le_sum_of_subset (Finset.Ico_subset_Ico_right h)

/-- The first file begins with the stream. -/
@[simp] lemma Block.offset_blockStart (b : Block) : b.offset b.blockStart = 0 := by
  rw [Block.offset, Finset.Ico_self, Finset.sum_empty]

/-- A file without bytes has an empty slice. -/
lemma Block.slice_of_empty (b : Block) (s : List UInt8) {i : ℕ} (h : (b.dir i).size = 0) :
    b.slice s i = [] := by
  rw [Block.slice, h, List.take_zero]

/-- What follows does not change a slice that is complete. -/
lemma Block.slice_append (b : Block) {s : List UInt8} (r : List UInt8) {i : ℕ}
    (h : b.offset i + (b.dir i).size ≤ s.length) : b.slice (s ++ r) i = b.slice s i := by
  rw [Block.slice, Block.slice, List.drop_append_of_le_length (by omega),
    List.take_append_of_le_length (by rw [List.length_drop]; omega)]

/-- The slice of the file in which the stream ends. -/
lemma Block.slice_of_le (b : Block) {s : List UInt8} {i : ℕ}
    (h : s.length ≤ b.offset i + (b.dir i).size) : b.slice s i = s.drop (b.offset i) := by
  rw [Block.slice, List.take_of_length_le (by rw [List.length_drop]; omega)]

/-- The slice of a file the stream goes beyond. -/
lemma Block.length_slice (b : Block) (s : List UInt8) (i : ℕ) :
    (b.slice s i).length = min (b.dir i).size (s.length - b.offset i) := by
  rw [Block.slice, List.length_take, List.length_drop]

/-! ## What is expected, and what is reported -/

/-- Every file that is taken is made of its slice of the stream, which has the size and the CRC the
directory has for it, and nothing is made for other files. -/
structure Complete (b : Block) (command : Command) (stream : List UInt8)
    (disk : ℕ → Option Output) : Prop where
  size : ∀ i, b.blockStart ≤ i → i < b.blockEnd → taken b command i = true →
    (b.slice stream i).length = (b.dir i).size
  crc : ∀ i, b.blockStart ≤ i → i < b.blockEnd → taken b command i = true →
    calcCRC (b.slice stream i) = (b.dir i).crc
  written : ∀ i, b.blockStart ≤ i → i < b.blockEnd → taken b command i = true →
    disk i = output b command i (b.slice stream i)
  untouched : ∀ i, ¬ (b.blockStart ≤ i ∧ i < b.blockEnd ∧ taken b command i = true) → disk i = none

/-- When the extraction of the block ends without an error, it is complete. -/
def ExtractsCompletely (b : Block) (command : Command) (d : Decompressor) : Prop :=
  ∀ out, extractFiles b command d = .ok out → Complete b command d.writes.flatten out.disk

/-- The stream goes to the end of every file that is taken. -/
def Reaches (b : Block) (command : Command) (stream : List UInt8) : Prop :=
  ∀ i, b.blockStart ≤ i → i < b.blockEnd → taken b command i = true → 0 < (b.dir i).size →
    b.offset i + (b.dir i).size ≤ stream.length

/-- The stream comes to the file: a byte of it is there, or the file in front of it is complete with the
last byte. -/
def Opened (b : Block) (stream : List UInt8) (i : ℕ) : Prop :=
  b.offset i < stream.length ∨
    b.offset i = stream.length ∧ (i = b.blockStart ∨ 0 < (b.dir (i - 1)).size)

/-- The file ends the extraction when it is opened: the user ends the program for it, it is a directory
and gets data, or what the stream has of it does not have its CRC. -/
def FileFault (b : Block) (command : Command) (stream : List UInt8) (i : ℕ) : Prop :=
  quits b command i = true ∨
    taken b command i = true ∧
      (command.cmd ≠ .t ∧ (b.dir i).isdir = true ∧ b.slice stream i ≠ [] ∨
        calcCRC (b.slice stream i) ≠ (b.dir i).crc)

/-- What is reported as an error: a fault of a file that is empty or that the stream comes to, or a failure
of the decompressor. -/
inductive Fault (b : Block) (command : Command) (d : Decompressor) : Prop
  | file (i : ℕ) (hstart : b.blockStart ≤ i) (hend : i < b.blockEnd)
      (hopened : (b.dir i).size = 0 ∨ Opened b d.writes.flatten i)
      (hfault : FileFault b command d.writes.flatten i)
  | result (i : ℕ) (hstart : b.blockStart ≤ i) (hend : i < b.blockEnd) (hsize : 0 < (b.dir i).size)
      (haccept : command.acceptFile i = true)
      (hresult : ¬ (0 ≤ d.result ∨ d.result = ErrCode.noMoreDataRequired.toInt))

/-- What is on disk when the decompressor has written `s` and the files in front of `c` were opened. -/
def onDisk (b : Block) (command : Command) (s : List UInt8) (c i : ℕ) : Option Output :=
  if b.blockStart ≤ i ∧ i < b.blockEnd ∧ taken b command i = true ∧ ((b.dir i).size = 0 ∨ i < c) then
    output b command i (b.slice s i)
  else none

section

variable {b : Block} {command : Command}

/-! ## One operation on the output file -/

/-- Opening a file. -/
lemma outfileOpen_eq {pass : Pass} {c : ℕ} {out : Outfile}
    (hpass : ¬ (pass = .second ∧ (b.dir c).size = 0)) (hdisk : out.disk c = none) :
    outfileOpen b.dir command pass c out =
      if quits b command c = true then .error .userQuit
      else .ok
        { included := taken b command c
          bytesToWrite := (b.dir c).size
          crc := initCRC
          disk := Function.update out.disk c
            (if taken b command c = true then output b command c [] else none) } := by
  have hsame : Function.update out.disk c none = out.disk := by
    rw [← hdisk, Function.update_eq_self]
  unfold outfileOpen
  dsimp only
  rw [if_neg hpass]
  cases haccept : command.acceptFile c with
  | false => simp [quits, taken, haccept, hsame]
  | true =>
    by_cases ht : command.cmd = .t
    · simp [quits, taken, output, haccept, ht, hsame]
    · rw [if_pos ⟨rfl, ht⟩]
      cases hdir : (b.dir c).isdir with
      | true =>
        by_cases he : command.cmd = .e
        · simp [quits, taken, output, haccept, he, hdir, hsame]
        · simp [quits, taken, output, haccept, ht, he, hdir, Outfile.put]
      | false =>
        cases hover : command.overwrite c with
        | write => simp [quits, taken, output, haccept, ht, hdir, hover, Outfile.put]
        | skip => simp [quits, taken, haccept, ht, hdir, hover, hsame]
        | quit => simp [quits, haccept, ht, hdir, hover]

/-- Writing to a file. -/
lemma outfileWrite_eq {c : ℕ} {out : Outfile} {bytes : List UInt8} (buf : List UInt8)
    (hdisk : out.included = true → out.disk c = output b command c bytes) :
    outfileWrite command c buf out =
      if out.included = true ∧ command.cmd ≠ .t ∧ (b.dir c).isdir = true ∧ buf ≠ [] then
        .error .fileWrite
      else .ok
        { out with
          crc := updateCRC buf out.crc
          disk := Function.update out.disk c
            (if out.included = true then output b command c (bytes ++ buf) else out.disk c) } := by
  unfold outfileWrite
  dsimp only
  cases hincluded : out.included with
  | false => simp
  | true =>
    have hc := hdisk hincluded
    by_cases ht : command.cmd = .t
    · have hnone : out.disk c = none := by rw [hc, output, if_pos ht]
      simp [output, ht, ← hnone]
    · by_cases hbuf : buf = []
      · simp [hbuf, ← hc]
      · cases hdir : (b.dir c).isdir with
        | true =>
          by_cases he : command.cmd = .e
          · simp [hc, output, he, hbuf, hdir]
          · simp [hc, output, ht, he, hbuf, hdir]
        | false => simp [hc, output, ht, hbuf, hdir, Outfile.put]

/-- Closing a file: the CRC is compared for a file that is included. -/
lemma outfileClose_eq {c : ℕ} {out : Outfile} (bytes : List UInt8)
    (hcrc : out.included = true → out.crc ^^^ initCRC = calcCRC bytes) :
    outfileClose b.dir c out =
      if out.included = true ∧ calcCRC bytes ≠ (b.dir c).crc then .error (.failedCRC c)
      else .ok { out with included := false } := by
  unfold outfileClose
  cases hincluded : out.included with
  | false => simp
  | true => rw [hcrc hincluded]

/-! ## The first pass -/

/-- The faults of an empty file do not depend on the stream. -/
lemma fileFault_of_empty (s : List UInt8) {i : ℕ} (h : (b.dir i).size = 0) :
    FileFault b command s i ↔
      quits b command i = true ∨ taken b command i = true ∧ calcCRC [] ≠ (b.dir i).crc := by
  simp [FileFault, b.slice_of_empty s h]

/-- The first pass has gone over the files in front of `m`. -/
structure First (b : Block) (command : Command) (m : ℕ) (out : Outfile) (extractUntil : Option ℕ) :
    Prop where
  included : out.included = false
  sound : ∀ i, b.blockStart ≤ i → i < m → (b.dir i).size = 0 → ∀ s, ¬ FileFault b command s i
  disk : ∀ i, out.disk i =
    if b.blockStart ≤ i ∧ i < m ∧ taken b command i = true ∧ (b.dir i).size = 0 then
      output b command i [] else none
  needed : ∀ i, b.blockStart ≤ i → i < m → command.acceptFile i = true → 0 < (b.dir i).size →
    ∃ u, extractUntil = some u ∧ i ≤ u
  last : ∀ u, extractUntil = some u →
    b.blockStart ≤ u ∧ u < m ∧ command.acceptFile u = true ∧ 0 < (b.dir u).size

/-- A file that the first pass does not open. -/
lemma First.skip {m : ℕ} {out : Outfile} {extractUntil : Option ℕ}
    (h : First b command m out extractUntil) (hskip : command.acceptFile m = true → 0 < (b.dir m).size)
    {extractUntil' : Option ℕ}
    (hneeded : ∀ i, b.blockStart ≤ i → i < m + 1 → command.acceptFile i = true → 0 < (b.dir i).size →
      ∃ u, extractUntil' = some u ∧ i ≤ u)
    (hlast : ∀ u, extractUntil' = some u →
      b.blockStart ≤ u ∧ u < m + 1 ∧ command.acceptFile u = true ∧ 0 < (b.dir u).size) :
    First b command (m + 1) out extractUntil' := by
  have hnot : ∀ i, i < m + 1 → (b.dir i).size = 0 → command.acceptFile i = true → i < m := by
    intro i hi hsize haccept
    refine lt_of_le_of_ne (Nat.lt_succ_iff.mp hi) ?_
    rintro rfl
    have := hskip haccept
    omega
  refine ⟨h.included, ?_, ?_, hneeded, hlast⟩
  · intro i hstart hi hsize s hfault
    cases haccept : command.acceptFile i with
    | true => exact h.sound i hstart (hnot i hi hsize haccept) hsize s hfault
    | false => simp [FileFault, quits, taken, haccept] at hfault
  · intro i
    rw [h.disk i]
    congr 1
    apply propext
    constructor
    · rintro ⟨hstart, hi, htaken, hsize⟩
      exact ⟨hstart, Nat.lt_succ_of_lt hi, htaken, hsize⟩
    · rintro ⟨hstart, hi, htaken, hsize⟩
      have haccept : command.acceptFile i = true := by
        rw [taken, Bool.and_eq_true] at htaken
        exact htaken.1
      exact ⟨hstart, hnot i hi hsize haccept, htaken, hsize⟩

/-- What the first pass ends with. -/
def FirstOutcome (b : Block) (command : Command) : Except Failure (Outfile × Option ℕ) → Prop
  | .error _ => ∃ i, b.blockStart ≤ i ∧ i < b.blockEnd ∧ (b.dir i).size = 0 ∧
      ∀ s, FileFault b command s i
  | .ok (out, extractUntil) => First b command b.blockEnd out extractUntil

/-- The first pass makes the empty files, and finds the last file that needs the stream. -/
lemma firstPass_outcome (k : ℕ) {m : ℕ} {out : Outfile} {extractUntil : Option ℕ}
    (h : First b command m out extractUntil) (hstart : b.blockStart ≤ m) (hend : m + k = b.blockEnd) :
    FirstOutcome b command (firstPass b.dir command (List.range' m k) out extractUntil) := by
  induction k generalizing m out extractUntil with
  | zero =>
    have hm : m = b.blockEnd := hend
    subst hm
    exact h
  | succ k ih =>
    have hend' : m + 1 + k = b.blockEnd := by omega
    rw [List.range'_succ, firstPass]
    cases haccept : command.acceptFile m with
    | false =>
      rw [if_neg Bool.false_ne_true]
      refine ih (h.skip (fun hcon => by simp [haccept] at hcon) ?_ ?_) (Nat.le_succ_of_le hstart) hend'
      · intro i hi hlt hi' hsize
        have hne : i ≠ m := by
          rintro rfl
          simp [haccept] at hi'
        exact h.needed i hi (by omega) hi' hsize
      · intro u hu
        obtain ⟨hu₁, hu₂, hu₃⟩ := h.last u hu
        exact ⟨hu₁, Nat.lt_succ_of_lt hu₂, hu₃⟩
    | true =>
      rw [if_pos rfl]
      by_cases hsize : (b.dir m).size = 0
      · rw [if_pos hsize, outfileOpen_eq (by simp) (by rw [h.disk m, if_neg (by simp)])]
        by_cases hquits : quits b command m = true
        · rw [if_pos hquits]
          exact ⟨m, hstart, by omega, hsize, fun s => .inl hquits⟩
        rw [if_neg hquits]
        dsimp only [Bind.bind, Except.bind]
        rw [outfileClose_eq [] fun _ => rfl]
        by_cases hcrc : taken b command m = true ∧ calcCRC [] ≠ (b.dir m).crc
        · rw [if_pos hcrc]
          exact ⟨m, hstart, by omega, hsize, fun s => (fileFault_of_empty s hsize).mpr (.inr hcrc)⟩
        rw [if_neg hcrc]
        refine ih ⟨rfl, ?_, ?_, ?_, ?_⟩ (Nat.le_succ_of_le hstart) hend'
        · intro i hi hlt hi0 s hfault
          rcases Nat.lt_succ_iff_lt_or_eq.mp hlt with hlt | rfl
          · exact h.sound i hi hlt hi0 s hfault
          · rcases (fileFault_of_empty s hi0).mp hfault with hq | hc
            · exact hquits hq
            · exact hcrc hc
        · intro i
          dsimp only
          by_cases hi : i = m
          · subst hi
            rw [Function.update_self]
            simp [hstart, hsize]
          · rw [Function.update_of_ne hi, h.disk i]
            congr 1
            apply propext
            constructor
            · rintro ⟨h₁, h₂, h₃⟩
              exact ⟨h₁, Nat.lt_succ_of_lt h₂, h₃⟩
            · rintro ⟨h₁, h₂, h₃⟩
              exact ⟨h₁, by omega, h₃⟩
        · intro i hi hlt hi' hpos
          have hne : i ≠ m := by
            rintro rfl
            omega
          exact h.needed i hi (by omega) hi' hpos
        · intro u hu
          obtain ⟨hu₁, hu₂, hu₃⟩ := h.last u hu
          exact ⟨hu₁, Nat.lt_succ_of_lt hu₂, hu₃⟩
      · rw [if_neg hsize]
        refine ih (h.skip (fun _ => Nat.pos_of_ne_zero hsize) ?_ ?_) (Nat.le_succ_of_le hstart) hend'
        · intro i _ hlt _ _
          exact ⟨m, rfl, Nat.lt_succ_iff.mp hlt⟩
        · rintro _ ⟨⟩
          exact ⟨hstart, Nat.lt_succ_self m, haccept, Nat.pos_of_ne_zero hsize⟩

/-! ## The second pass -/

/-- The stream went to the end of the file, and the file gave no error. -/
def Passed (b : Block) (command : Command) (s : List UInt8) (i : ℕ) : Prop :=
  b.offset i + (b.dir i).size ≤ s.length ∧ ¬ FileFault b command s i

/-- A file with bytes that ends the extraction, whatever follows in the stream. -/
def Stops (b : Block) (command : Command) (s : List UInt8) : Prop :=
  ∃ i, b.blockStart ≤ i ∧ i < b.blockEnd ∧
    ∀ r, Opened b (s ++ r) i ∧ FileFault b command (s ++ r) i

/-- The decompressor has written `s`, and the file `c` is open. -/
structure Inside (b : Block) (command : Command) (s : List UInt8) (c : ℕ) (out : Outfile) : Prop where
  start : b.blockStart ≤ c
  stop : c < b.blockEnd
  begun : b.offset c ≤ s.length
  bytesToWrite : s.length + out.bytesToWrite = b.offset c + (b.dir c).size
  crc : out.crc = updateCRC (b.slice s c) initCRC
  included : out.included = (taken b command c && decide (0 < (b.dir c).size))
  disk : ∀ i, out.disk i = onDisk b command s (c + 1) i
  asked : 0 < (b.dir c).size → quits b command c = false
  directory : taken b command c = true → command.cmd ≠ .t → (b.dir c).isdir = true → b.slice s c = []
  passed : ∀ i, b.blockStart ≤ i → i < c → 0 < (b.dir i).size → Passed b command s i

/-- The state of the second pass when the decompressor has written `s`. -/
inductive Tracks (b : Block) (command : Command) (extractUntil : ℕ) (s : List UInt8) : Extraction → Prop
  | inside {c : ℕ} {out : Outfile} (h : Inside b command s c out) (hle : c ≤ extractUntil)
      (hleft : 0 < (b.dir c).size → 0 < out.bytesToWrite ∧ Opened b s c) :
      Tracks b command extractUntil s ⟨c, out⟩
  | finished {out : Outfile} (hincluded : out.included = false)
      (hdisk : ∀ i, out.disk i = onDisk b command s (extractUntil + 1) i)
      (hpassed : ∀ i, b.blockStart ≤ i → i ≤ extractUntil → 0 < (b.dir i).size → Passed b command s i) :
      Tracks b command extractUntil s ⟨extractUntil + 1, out⟩

/-- What a write comes to when the decompressor has written `s` with it. -/
def Outcome (b : Block) (command : Command) (extractUntil : ℕ) (s : List UInt8) :
    Except Failure (Extraction × Int) → Prop
  | .error _ => Stops b command s
  | .ok (st, _) => Tracks b command extractUntil s st

/-- A fault of a file that is complete does not depend on what follows. -/
lemma fileFault_append {s : List UInt8} (r : List UInt8) {i : ℕ}
    (h : b.offset i + (b.dir i).size ≤ s.length) :
    FileFault b command (s ++ r) i ↔ FileFault b command s i := by
  rw [FileFault, FileFault, b.slice_append r h]

/-- A file that was passed has been passed for good. -/
lemma Passed.append {s : List UInt8} (r : List UInt8) {i : ℕ} (h : Passed b command s i) :
    Passed b command (s ++ r) i := by
  refine ⟨?_, fun hcon => h.2 ((fileFault_append r h.1).mp hcon)⟩
  rw [List.length_append]
  exact Nat.le_add_right_of_le h.1

/-- The stream came to the file, and goes on. -/
lemma Opened.append {s : List UInt8} (r : List UInt8) {i : ℕ} (h : Opened b s i) :
    Opened b (s ++ r) i := by
  unfold Opened at *
  rw [List.length_append]
  cases r with
  | nil => simpa using h
  | cons x r =>
    left
    rw [List.length_cons]
    omega

/-- What stops the extraction stops it whatever follows. -/
lemma Stops.append {s : List UInt8} (r : List UInt8) (h : Stops b command s) :
    Stops b command (s ++ r) := by
  obtain ⟨i, hstart, hend, hstop⟩ := h
  refine ⟨i, hstart, hend, fun r' => ?_⟩
  rw [List.append_assoc]
  exact hstop (r ++ r')

/-- What is on disk of the files in front of `c` does not depend on what follows them. -/
lemma onDisk_append {s : List UInt8} (r : List UInt8) {c i : ℕ}
    (h : b.blockStart ≤ i → i < c → 0 < (b.dir i).size → Passed b command s i) :
    onDisk b command (s ++ r) c i = onDisk b command s c i := by
  unfold onDisk
  by_cases hsize : (b.dir i).size = 0
  · rw [b.slice_of_empty _ hsize, b.slice_of_empty _ hsize]
  by_cases hi : b.blockStart ≤ i ∧ i < c
  · rw [b.slice_append r (h hi.1 hi.2 (Nat.pos_of_ne_zero hsize)).1]
  · rw [if_neg, if_neg]
    · rintro ⟨hstart, -, -, hzero | hlt⟩
      · exact hsize hzero
      · exact hi ⟨hstart, hlt⟩
    · rintro ⟨hstart, -, -, hzero | hlt⟩
      · exact hsize hzero
      · exact hi ⟨hstart, hlt⟩

/-- The current file is included if it is taken in this pass. -/
lemma Inside.included_iff {s : List UInt8} {c : ℕ} {out : Outfile} (h : Inside b command s c out) :
    out.included = true ↔ taken b command c = true ∧ 0 < (b.dir c).size := by
  rw [h.included, Bool.and_eq_true, decide_eq_true_eq]

/-- Some bytes of the file `c` are written. -/
lemma Inside.write {s : List UInt8} {c : ℕ} {out : Outfile} (h : Inside b command s c out)
    {buf : List UInt8} (hbuf : buf.length ≤ out.bytesToWrite)
    (hopened : 0 < (b.dir c).size → Opened b (s ++ buf) c) :
    (∃ f, outfileWrite command c buf out = .error f ∧ Stops b command (s ++ buf)) ∨
      ∃ out', outfileWrite command c buf out = .ok out' ∧
        Inside b command (s ++ buf) c { out' with bytesToWrite := out.bytesToWrite - buf.length } := by
  have hlen := h.bytesToWrite
  have hbegun := h.begun
  have hdrop : b.slice s c = s.drop (b.offset c) := b.slice_of_le (by omega)
  have hslice : b.slice (s ++ buf) c = b.slice s c ++ buf := by
    rw [b.slice_of_le (by rw [List.length_append]; omega), hdrop,
      List.drop_append_of_le_length hbegun]
  have hincluded := h.included_iff.mp
  have hdisk : out.included = true → out.disk c = output b command c (b.slice s c) := fun hin => by
    rw [h.disk c, onDisk, if_pos ⟨h.start, h.stop, (hincluded hin).1, .inr (Nat.lt_succ_self c)⟩]
  rw [outfileWrite_eq (b := b) buf hdisk]
  by_cases herr : out.included = true ∧ command.cmd ≠ .t ∧ (b.dir c).isdir = true ∧ buf ≠ []
  · refine .inl ⟨_, if_pos herr, c, h.start, h.stop, fun r => ?_⟩
    obtain ⟨hin, hcmd, hdir, hne⟩ := herr
    refine ⟨(hopened (hincluded hin).2).append r, .inr ⟨(hincluded hin).1, .inl ⟨hcmd, hdir, ?_⟩⟩⟩
    intro hcon
    have hzero := congrArg List.length hcon
    rw [b.length_slice, List.length_nil, List.length_append, List.length_append] at hzero
    have hpos := List.length_pos_of_ne_nil hne
    have := (hincluded hin).2
    omega
  · refine .inr ⟨_, if_neg herr, h.start, h.stop, ?_, ?_, ?_, h.included, ?_, h.asked, ?_, ?_⟩
    · rw [List.length_append]
      omega
    · rw [List.length_append]
      dsimp only
      omega
    · dsimp only
      rw [hslice, updateCRC_append, h.crc]
    · intro i
      dsimp only
      by_cases hi : i = c
      · subst hi
        rw [Function.update_self, h.disk i, onDisk, onDisk, hslice, h.included]
        by_cases hsize : (b.dir i).size = 0
        · have hnil : buf = [] := List.eq_nil_of_length_eq_zero (by omega)
          simp [hsize, hnil]
        · have hpos := Nat.pos_of_ne_zero hsize
          cases taken b command i <;> simp [h.start, h.stop, hpos]
      · rw [Function.update_of_ne hi, h.disk i]
        have hbefore : onDisk b command s (c + 1) i = onDisk b command s c i := by
          simp only [onDisk, Nat.lt_succ_iff_lt_or_eq, hi, or_false]
        have hafter : onDisk b command (s ++ buf) (c + 1) i = onDisk b command (s ++ buf) c i := by
          simp only [onDisk, Nat.lt_succ_iff_lt_or_eq, hi, or_false]
        rw [hbefore, hafter, onDisk_append buf (h.passed i)]
    · intro htaken hcmd hdir
      rw [hslice, h.directory htaken hcmd hdir, List.nil_append]
      by_contra hne
      have hpos : 0 < (b.dir c).size := by
        have := List.length_pos_of_ne_nil hne
        omega
      exact herr ⟨h.included_iff.mpr ⟨htaken, hpos⟩, hcmd, hdir, hne⟩
    · exact fun i hstart hi hpos => (h.passed i hstart hi hpos).append buf

/-- The file `c` is complete and closed. -/
structure Closed (b : Block) (command : Command) (s : List UInt8) (c : ℕ) (out : Outfile) : Prop where
  included : out.included = false
  disk : ∀ i, out.disk i = onDisk b command s c i
  passed : ∀ i, b.blockStart ≤ i → i < c → 0 < (b.dir i).size → Passed b command s i

/-- The file `c` is closed. -/
lemma Inside.close {s : List UInt8} {c : ℕ} {out : Outfile} (h : Inside b command s c out) :
    (∃ f, outfileClose b.dir c out = .error f ∧ 0 < (b.dir c).size ∧ FileFault b command s c) ∨
      outfileClose b.dir c out = .ok { out with included := false } ∧
        (0 < (b.dir c).size → ¬ FileFault b command s c) := by
  have hcrc : out.included = true → out.crc ^^^ initCRC = calcCRC (b.slice s c) := fun _ => by
    rw [h.crc, calcCRC]
  rw [outfileClose_eq _ hcrc]
  by_cases herr : out.included = true ∧ calcCRC (b.slice s c) ≠ (b.dir c).crc
  · obtain ⟨htaken, hpos⟩ := h.included_iff.mp herr.1
    exact .inl ⟨_, if_pos herr, hpos, .inr ⟨htaken, .inr herr.2⟩⟩
  · refine .inr ⟨if_neg herr, fun hpos => ?_⟩
    rintro (hq | ⟨htaken, ⟨hcmd, hdir, hne⟩ | hne⟩)
    · rw [h.asked hpos] at hq
      exact Bool.false_ne_true hq
    · exact hne (h.directory htaken hcmd hdir)
    · exact herr ⟨h.included_iff.mpr ⟨htaken, hpos⟩, hne⟩

/-- A file that is complete was passed when it is closed. -/
lemma Inside.closed {s : List UInt8} {c : ℕ} {out : Outfile} (h : Inside b command s c out)
    (hleft : out.bytesToWrite = 0) (hsound : 0 < (b.dir c).size → ¬ FileFault b command s c) :
    Closed b command s (c + 1) { out with included := false } := by
  refine ⟨rfl, h.disk, fun i hstart hi hpos => ?_⟩
  rcases Nat.lt_succ_iff_lt_or_eq.mp hi with hlt | rfl
  · exact h.passed i hstart hlt hpos
  · have hlen := h.bytesToWrite
    exact ⟨by omega, hsound hpos⟩

/-- The next file is opened. -/
lemma Closed.open {s : List UInt8} {c : ℕ} {out : Outfile} (h : Closed b command s c out)
    (hstart : b.blockStart ≤ c) (hend : c < b.blockEnd) (hs : s.length = b.offset c) :
    (∃ f, outfileOpen b.dir command .second c out = .error f ∧
        0 < (b.dir c).size ∧ quits b command c = true) ∨
      ∃ out', outfileOpen b.dir command .second c out = .ok out' ∧ Inside b command s c out' := by
  have hnil : b.slice s c = [] := by
    rw [b.slice_of_le (by omega), List.drop_eq_nil_of_le (by omega)]
  by_cases hsize : (b.dir c).size = 0
  · refine .inr ⟨{ out with crc := initCRC, bytesToWrite := (b.dir c).size }, ?_, hstart, hend, hs.ge,
      ?_, ?_, ?_, ?_, fun hcon => by omega, fun _ _ _ => hnil, h.passed⟩
    · unfold outfileOpen
      dsimp only
      rw [if_pos ⟨rfl, hsize⟩]
    · dsimp only
      omega
    · rw [hnil, updateCRC_nil]
    · dsimp only
      rw [h.included, hsize]
      simp
    · intro i
      dsimp only
      rw [h.disk i]
      by_cases hi : i = c
      · subst hi
        simp [onDisk, hsize]
      · simp only [onDisk, Nat.lt_succ_iff_lt_or_eq, hi, or_false]
  · have hpos := Nat.pos_of_ne_zero hsize
    have hdisk : out.disk c = none := by
      rw [h.disk c, onDisk, if_neg]
      rintro ⟨-, -, -, hzero | hlt⟩
      · exact hsize hzero
      · exact lt_irrefl c hlt
    rw [outfileOpen_eq (by simp [hsize]) hdisk]
    by_cases hquits : quits b command c = true
    · exact .inl ⟨_, if_pos hquits, hpos, hquits⟩
    · refine .inr ⟨_, if_neg hquits, hstart, hend, hs.ge, ?_, ?_, ?_, ?_, ?_, fun _ _ _ => hnil,
        h.passed⟩
      · dsimp only
        omega
      · rw [hnil, updateCRC_nil]
      · simp [hpos]
      · intro i
        dsimp only
        by_cases hi : i = c
        · subst hi
          rw [Function.update_self, onDisk, hnil]
          simp [hstart, hend]
        · rw [Function.update_of_ne hi, h.disk i]
          simp only [onDisk, Nat.lt_succ_iff_lt_or_eq, hi, or_false]
      · intro _
        simpa using hquits

/-- The loop ends with the buffer. -/
lemma writeLoop_nil (dir : ℕ → Entry) (extractUntil origsize c : ℕ) (out : Outfile) :
    writeLoop dir command extractUntil origsize c out [] = .ok (⟨c, out⟩, origsize) := by
  rw [writeLoop, if_pos rfl]

/-- One turn of the loop: the extraction is stopped, or the buffer is used up, or the current file is
complete and closed. -/
lemma writeLoop_turn {extractUntil : ℕ} (origsize : ℕ) {s : List UInt8} {c : ℕ} {out : Outfile}
    {buf : List UInt8} (h : Inside b command s c out) (hle : c ≤ extractUntil)
    (hleft : 0 < (b.dir c).size → 0 < out.bytesToWrite) (hbuf : buf ≠ []) :
    (∃ f, writeLoop b.dir command extractUntil origsize c out buf = .error f ∧
        Stops b command (s ++ buf)) ∨
      (∃ out', writeLoop b.dir command extractUntil origsize c out buf = .ok (⟨c, out'⟩, origsize) ∧
        Tracks b command extractUntil (s ++ buf) ⟨c, out'⟩) ∨
      ∃ n out', (s ++ buf.take n).length = b.offset (c + 1) ∧ (n < buf.length ∨ 0 < (b.dir c).size) ∧
        Closed b command (s ++ buf.take n) (c + 1) out' ∧
        writeLoop b.dir command extractUntil origsize c out buf =
          if extractUntil < c + 1 then .ok (⟨c + 1, out'⟩, ErrCode.noMoreDataRequired.toInt)
          else (outfileOpen b.dir command .second (c + 1) out').bind fun out =>
            writeLoop b.dir command extractUntil origsize (c + 1) out (buf.drop n) := by
  have hlen := h.bytesToWrite
  have hbegun := h.begun
  have hpos := List.length_pos_of_ne_nil hbuf
  have hsplit : s ++ buf.take (min out.bytesToWrite buf.length) ++
      buf.drop (min out.bytesToWrite buf.length) = s ++ buf := by
    rw [List.append_assoc, List.take_append_drop]
  have htake : (buf.take (min out.bytesToWrite buf.length)).length = min out.bytesToWrite buf.length := by
    rw [List.length_take]
    omega
  have hopened : 0 < (b.dir c).size →
      Opened b (s ++ buf.take (min out.bytesToWrite buf.length)) c := fun hsize => by
    have := hleft hsize
    left
    rw [List.length_append, htake]
    omega
  rw [writeLoop, if_neg hbuf]
  dsimp only [Bind.bind, Pure.pure, Except.pure]
  rcases h.write (by omega) hopened with ⟨f, hf, hstops⟩ | ⟨out₁, hout, hin⟩
  · rw [hf]
    refine .inl ⟨f, rfl, ?_⟩
    rw [← hsplit]
    exact hstops.append _
  rw [htake] at hin
  rw [hout]
  dsimp only [Except.bind]
  by_cases hfull : out.bytesToWrite - min out.bytesToWrite buf.length = 0
  · rw [if_pos hfull]
    rcases hin.close with ⟨f, hf, hsize, hfault⟩ | ⟨hclosed, hsound⟩
    · rw [hf]
      refine .inl ⟨f, rfl, c, h.start, h.stop, fun r => ?_⟩
      have hend : b.offset c + (b.dir c).size ≤
          (s ++ buf.take (min out.bytesToWrite buf.length)).length := by
        rw [List.length_append, htake]
        omega
      rw [← hsplit, List.append_assoc _ _ r]
      exact ⟨(hopened hsize).append _, (fileFault_append _ hend).mpr hfault⟩
    · rw [hclosed]
      refine .inr (.inr ⟨_, _, ?_, ?_, hin.closed hfull hsound, rfl⟩)
      · rw [List.length_append, htake, b.offset_succ h.start]
        omega
      · omega
  · rw [if_neg hfull]
    have hdrop : buf.drop (min out.bytesToWrite buf.length) = [] := List.drop_eq_nil_of_le (by omega)
    have hwhole : buf.take (min out.bytesToWrite buf.length) = buf := List.take_of_length_le (by omega)
    rw [hdrop, writeLoop_nil]
    rw [hwhole] at hin hopened
    exact .inr (.inl ⟨_, rfl, .inside hin hle fun hsize => ⟨Nat.pos_of_ne_zero hfull, hopened hsize⟩⟩)

/-- The loop of the callback follows the stream. -/
lemma writeLoop_outcome {extractUntil : ℕ} (hU : extractUntil < b.blockEnd) (origsize k : ℕ)
    {s : List UInt8} {c : ℕ} {out : Outfile} {buf : List UInt8} (h : Inside b command s c out)
    (hk : c + k = extractUntil)
    (hleft : 0 < (b.dir c).size → 0 < out.bytesToWrite ∧ Opened b (s ++ buf) c) :
    Outcome b command extractUntil (s ++ buf)
      (writeLoop b.dir command extractUntil origsize c out buf) := by
  have hle : c ≤ extractUntil := by omega
  induction k generalizing s c out buf with
  | zero =>
    by_cases hbuf : buf = []
    · subst hbuf
      rw [writeLoop_nil, List.append_nil] at *
      exact .inside h (by omega) hleft
    rcases writeLoop_turn origsize h hle (fun hsize => (hleft hsize).1) hbuf with
      ⟨f, hf, hstops⟩ | ⟨out', hout, htracks⟩ | ⟨n, out', hlen, -, hclosed, hloop⟩
    · rw [hf]
      exact hstops
    · rw [hout]
      exact htracks
    · have hc : c = extractUntil := hk
      subst hc
      rw [hloop, if_pos (Nat.lt_succ_self c)]
      have hsplit : s ++ buf = s ++ buf.take n ++ buf.drop n := by
        rw [List.append_assoc, List.take_append_drop]
      rw [hsplit]
      refine .finished hclosed.included (fun i => ?_) fun i hstart hi hpos => ?_
      · rw [hclosed.disk i, onDisk_append _ (hclosed.passed i)]
      · exact (hclosed.passed i hstart (Nat.lt_succ_of_le hi) hpos).append _
  | succ k ih =>
    by_cases hbuf : buf = []
    · subst hbuf
      rw [writeLoop_nil, List.append_nil] at *
      exact .inside h (by omega) hleft
    rcases writeLoop_turn origsize h hle (fun hsize => (hleft hsize).1) hbuf with
      ⟨f, hf, hstops⟩ | ⟨out', hout, htracks⟩ | ⟨n, out', hlen, hmore, hclosed, hloop⟩
    · rw [hf]
      exact hstops
    · rw [hout]
      exact htracks
    · rw [hloop, if_neg (by omega)]
      have hsplit : s ++ buf = s ++ buf.take n ++ buf.drop n := by
        rw [List.append_assoc, List.take_append_drop]
      have hopened : Opened b (s ++ buf.take n ++ buf.drop n) (c + 1) := by
        have := List.length_drop (i := n) (l := buf)
        unfold Opened
        rw [List.length_append, hlen]
        by_cases hn : n < buf.length
        · left
          omega
        · right
          refine ⟨by omega, .inr ?_⟩
          rcases hmore with hlt | hsize
          · exact absurd hlt hn
          · exact hsize
      rw [hsplit]
      rcases hclosed.open (Nat.le_succ_of_le h.start) (by omega) hlen with
        ⟨f, hf, hsize, hquits⟩ | ⟨out₂, hout, hin⟩
      · rw [hf]
        exact ⟨c + 1, Nat.le_succ_of_le h.start, by omega, fun r => ⟨hopened.append r, .inl hquits⟩⟩
      · rw [hout]
        refine ih hin (by omega) (fun hsize => ⟨?_, hopened⟩) (by omega)
        have := hin.bytesToWrite
        omega

/-- One write of the decompressor. -/
lemma callbackFunc_outcome {extractUntil : ℕ} (hU : extractUntil < b.blockEnd) {s : List UInt8}
    {st : Extraction} (h : Tracks b command extractUntil s st) (buf : List UInt8) :
    Outcome b command extractUntil (s ++ buf) (callbackFunc b.dir command extractUntil buf st) := by
  cases h with
  | @inside c out h hle hleft =>
    rw [callbackFunc, if_neg (not_lt.mpr hle)]
    exact writeLoop_outcome hU _ (extractUntil - c) h (Nat.add_sub_of_le hle) fun hsize =>
      ⟨(hleft hsize).1, (hleft hsize).2.append buf⟩
  | finished hincluded hdisk hpassed =>
    rw [callbackFunc, if_pos (Nat.lt_succ_self _)]
    refine .finished hincluded (fun i => ?_) fun i hstart hi hpos => (hpassed i hstart hi hpos).append _
    rw [hdisk i, onDisk_append]
    exact fun hstart hi hpos => hpassed i hstart (Nat.lt_succ_iff.mp hi) hpos

/-! ## The block as a whole -/

/-- What the writes of the decompressor come to when it has written `s` with them. -/
def RunOutcome (b : Block) (command : Command) (extractUntil : ℕ) (s : List UInt8) :
    Except Failure Extraction → Prop
  | .error _ => Stops b command s
  | .ok st => Tracks b command extractUntil s st

/-- **The second pass follows the stream, whatever the sizes of the writes are.** -/
theorem multiDecompress_outcome {extractUntil : ℕ} (hU : extractUntil < b.blockEnd)
    (writes : List (List UInt8)) {s : List UInt8} {st : Extraction}
    (h : Tracks b command extractUntil s st) :
    RunOutcome b command extractUntil (s ++ writes.flatten)
      (multiDecompress b.dir command extractUntil writes st) := by
  induction writes generalizing s st with
  | nil =>
    rw [List.flatten_nil, List.append_nil]
    exact h
  | cons buf writes ih =>
    have hcall := callbackFunc_outcome hU h buf
    rw [multiDecompress, List.flatten_cons, ← List.append_assoc]
    dsimp only [Bind.bind]
    generalize callbackFunc b.dir command extractUntil buf st = r at hcall
    cases r with
    | error f =>
      exact Stops.append writes.flatten hcall
    | ok r =>
      obtain ⟨st', code⟩ := r
      exact ih hcall

/-- The extraction has ended without an error. -/
structure Extracted (b : Block) (command : Command) (stream : List UInt8) (out : Outfile) : Prop where
  sound : ∀ i, b.blockStart ≤ i → i < b.blockEnd → (b.dir i).size = 0 ∨ Opened b stream i →
    ¬ FileFault b command stream i
  disk : ∃ m, (∀ i, out.disk i = onDisk b command stream m i) ∧
    ∀ i, b.blockStart ≤ i → i < b.blockEnd → taken b command i = true → 0 < (b.dir i).size →
      b.offset i + (b.dir i).size ≤ stream.length → i < m

/-- A file that is not accepted has no fault. -/
lemma not_fileFault {s : List UInt8} {i : ℕ} (h : command.acceptFile i = false) :
    ¬ FileFault b command s i := by
  simp [FileFault, quits, taken, h]

/-- A file that is taken is accepted. -/
lemma acceptFile_of_taken {i : ℕ} (h : taken b command i = true) : command.acceptFile i = true := by
  rw [taken, Bool.and_eq_true] at h
  exact h.1

/-- The stream does not come to the files behind the one it ends in. -/
lemma Inside.not_opened {s : List UInt8} {c : ℕ} {out : Outfile} (h : Inside b command s c out)
    (hleft : 0 < (b.dir c).size → 0 < out.bytesToWrite) {i : ℕ} (hi : c < i) : ¬ Opened b s i := by
  have hlen := h.bytesToWrite
  have hbegun := h.begun
  have hnext := b.offset_succ h.start
  have hmono : b.offset (c + 1) ≤ b.offset i := b.offset_mono hi
  rintro (hlt | ⟨heq, rfl | hbefore⟩)
  · omega
  · exact absurd h.start (not_le.mpr hi)
  · have hcases : c = i - 1 ∨ c < i - 1 := by omega
    rcases hcases with hc | hc
    · have hsize : 0 < (b.dir c).size := hc ▸ hbefore
      have := hleft hsize
      omega
    · have hstart : b.blockStart ≤ i - 1 := h.start.trans hc.le
      have hi' : i - 1 + 1 = i := by omega
      have hlast := b.offset_succ hstart
      have hmono' : b.offset (c + 1) ≤ b.offset (i - 1) := b.offset_mono hc
      rw [hi'] at hlast
      omega

/-- The second pass has ended without an error. -/
lemma Tracks.close {extractUntil : ℕ} {first : Outfile} {stream : List UInt8} {st : Extraction}
    (hfirst : First b command b.blockEnd first (some extractUntil))
    (h : Tracks b command extractUntil stream st) :
    (∃ f, outfileClose b.dir st.curfile st.out = .error f ∧ ∃ i, b.blockStart ≤ i ∧ i < b.blockEnd ∧
        Opened b stream i ∧ FileFault b command stream i) ∨
      ∃ out, outfileClose b.dir st.curfile st.out = .ok out ∧ Extracted b command stream out := by
  have hneeded : ∀ i, b.blockStart ≤ i → i < b.blockEnd → command.acceptFile i = true →
      0 < (b.dir i).size → i ≤ extractUntil := fun i hstart hend haccept hpos => by
    obtain ⟨u, hu, hle⟩ := hfirst.needed i hstart hend haccept hpos
    rwa [Option.some.inj hu]
  cases h with
  | @inside c out h hle hleft =>
    rcases h.close with ⟨f, hf, hpos, hfault⟩ | ⟨hclosed, hsound⟩
    · exact .inl ⟨f, hf, c, h.start, h.stop, (hleft hpos).2, hfault⟩
    · refine .inr ⟨_, hclosed, ?_, c + 1, h.disk, ?_⟩
      · intro i hstart hend hopened
        by_cases hsize : (b.dir i).size = 0
        · exact hfirst.sound i hstart hend hsize stream
        have hpos := Nat.pos_of_ne_zero hsize
        rcases lt_trichotomy i c with hlt | rfl | hgt
        · exact (h.passed i hstart hlt hpos).2
        · exact hsound hpos
        · exact absurd (hopened.resolve_left hsize) (h.not_opened (fun hc => (hleft hc).1) hgt)
      · intro i hstart hend htaken hpos hreach
        by_contra hcon
        refine h.not_opened (fun hc => (hleft hc).1) (not_lt.mp hcon) (.inl ?_)
        omega
  | @finished out hincluded hdisk hpassed =>
    refine .inr ⟨{ out with included := false }, ?_, ?_, extractUntil + 1, hdisk, ?_⟩
    · rw [outfileClose, if_neg (by simp [hincluded])]
    · intro i hstart hend _
      by_cases hsize : (b.dir i).size = 0
      · exact hfirst.sound i hstart hend hsize stream
      cases haccept : command.acceptFile i with
      | false => exact not_fileFault haccept
      | true =>
        have hpos := Nat.pos_of_ne_zero hsize
        exact (hpassed i hstart (hneeded i hstart hend haccept hpos) hpos).2
    · intro i hstart hend htaken hpos _
      exact Nat.lt_succ_of_le (hneeded i hstart hend (acceptFile_of_taken htaken) hpos)

/-- Before the first pass. -/
lemma first_start : First b command b.blockStart .start none where
  included := rfl
  sound := fun i hstart hlt => absurd hstart (not_le.mpr hlt)
  disk := fun i => by
    rw [if_neg]
    · rfl
    · rintro ⟨hstart, hlt, -⟩
      exact absurd hstart (not_le.mpr hlt)
  needed := fun i hstart hlt => absurd hstart (not_le.mpr hlt)
  last := fun u hu => by cases hu

/-- The first pass has only made empty files. -/
lemma First.disk_eq {out : Outfile} {extractUntil : Option ℕ}
    (h : First b command b.blockEnd out extractUntil) (s : List UInt8) (i : ℕ) :
    out.disk i = onDisk b command s b.blockStart i := by
  rw [h.disk i, onDisk]
  by_cases hi : b.blockStart ≤ i ∧ i < b.blockEnd ∧ taken b command i = true ∧ (b.dir i).size = 0
  · rw [if_pos hi, if_pos ⟨hi.1, hi.2.1, hi.2.2.1, .inl hi.2.2.2⟩, b.slice_of_empty _ hi.2.2.2]
  · rw [if_neg hi, if_neg]
    rintro ⟨hstart, hend, htaken, hsize | hlt⟩
    · exact hi ⟨hstart, hend, htaken, hsize⟩
    · exact absurd hstart (not_le.mpr hlt)

/-- The output when the second pass begins. -/
lemma First.closed {out : Outfile} {extractUntil : Option ℕ}
    (h : First b command b.blockEnd out extractUntil) : Closed b command [] b.blockStart out where
  included := h.included
  disk := h.disk_eq []
  passed := fun _ hstart hlt => absurd hstart (not_le.mpr hlt)

/-- Where no file needs the stream, all is done in the first pass. -/
lemma First.extracted {out : Outfile} (h : First b command b.blockEnd out none) (d : Decompressor) :
    ¬ Fault b command d ∧ Extracted b command d.writes.flatten out := by
  have hrejected : ∀ i, b.blockStart ≤ i → i < b.blockEnd → 0 < (b.dir i).size →
      command.acceptFile i = false := fun i hstart hend hpos => by
    by_contra hcon
    obtain ⟨u, hu, -⟩ := h.needed i hstart hend (Bool.not_eq_false _ ▸ hcon) hpos
    cases hu
  have hsound : ∀ i, b.blockStart ≤ i → i < b.blockEnd → ∀ s, ¬ FileFault b command s i :=
    fun i hstart hend s => by
      rcases Nat.eq_zero_or_pos (b.dir i).size with hsize | hpos
      · exact h.sound i hstart hend hsize s
      · exact not_fileFault (hrejected i hstart hend hpos)
  refine ⟨?_, fun i hstart hend _ => hsound i hstart hend _, b.blockStart, h.disk_eq _, ?_⟩
  · rintro (⟨i, hstart, hend, -, hfault⟩ | ⟨i, hstart, hend, hpos, haccept, -⟩)
    · exact hsound i hstart hend _ hfault
    · rw [hrejected i hstart hend hpos] at haccept
      exact Bool.false_ne_true haccept
  · intro i hstart hend htaken hpos _
    have haccept := acceptFile_of_taken htaken
    rw [hrejected i hstart hend hpos] at haccept
    exact absurd haccept Bool.false_ne_true

/-- The code of a decompressor that has failed. -/
lemma checkResult_eq (result : Int) :
    (∃ f, checkResult result = .error f ∧ ¬ (0 ≤ result ∨ result = ErrCode.noMoreDataRequired.toInt)) ∨
      checkResult result = .ok () ∧ (0 ≤ result ∨ result = ErrCode.noMoreDataRequired.toInt) := by
  unfold checkResult
  by_cases hinvalid : result = ErrCode.invalidCompressor.toInt
  · subst hinvalid
    exact .inl ⟨_, if_pos rfl, by decide⟩
  · rw [if_neg hinvalid]
    by_cases hok : 0 ≤ result ∨ result = ErrCode.noMoreDataRequired.toInt
    · exact .inr ⟨if_pos hok, hok⟩
    · exact .inl ⟨_, if_neg hok, hok⟩

variable (b command) in
/-- The extraction of a block ends with an error that is due to a fault, or without one. -/
lemma extractFiles_outcome (d : Decompressor) :
    (∃ f, extractFiles b command d = .error f ∧ Fault b command d) ∨
      ∃ out, extractFiles b command d = .ok out ∧ ¬ Fault b command d ∧
        Extracted b command d.writes.flatten out := by
  have hsum := Nat.add_sub_of_le b.ordered
  have hstart : First b command b.blockStart .start none := first_start
  have houtcome := firstPass_outcome (b.blockEnd - b.blockStart) hstart (le_refl _) hsum
  unfold extractFiles
  generalize firstPass b.dir command (List.range' b.blockStart (b.blockEnd - b.blockStart)) .start none
    = r at houtcome
  dsimp only [Bind.bind, Pure.pure, Except.pure]
  cases r with
  | error f =>
    obtain ⟨i, hstart, hend, hsize, hfault⟩ := houtcome
    exact .inl ⟨f, rfl, .file i hstart hend (.inl hsize) (hfault _)⟩
  | ok r =>
    obtain ⟨out, extractUntil⟩ := r
    have hfirst : First b command b.blockEnd out extractUntil := houtcome
    dsimp only [Except.bind]
    cases extractUntil with
    | none =>
      obtain ⟨hfault, hextracted⟩ := hfirst.extracted d
      exact .inr ⟨out, rfl, hfault, hextracted⟩
    | some extractUntil =>
      obtain ⟨hstart, hU, haccept, hpos⟩ := hfirst.last extractUntil rfl
      dsimp only
      have hopened : ∀ r, 0 < (b.dir b.blockStart).size → Opened b ([] ++ r) b.blockStart := fun r _ => by
        unfold Opened
        rw [b.offset_blockStart]
        rcases Nat.eq_zero_or_pos ([] ++ r).length with hzero | hr
        · exact .inr ⟨hzero.symm, .inl rfl⟩
        · exact .inl hr
      rcases hfirst.closed.open (le_refl _) (by omega) (by rw [b.offset_blockStart]; rfl) with
        ⟨f, hf, hsize, hquits⟩ | ⟨out₁, hout, hin⟩
      · rw [hf]
        exact .inl ⟨f, rfl, .file _ (le_refl _) (by omega) (.inr (hopened _ hsize)) (.inl hquits)⟩
      rw [hout]
      dsimp only [Except.bind]
      have hrun := multiDecompress_outcome hU d.writes (.inside hin hstart fun hsize => by
        have hlen := hin.bytesToWrite
        rw [b.offset_blockStart] at hlen
        refine ⟨by simp at hlen; omega, hopened [] hsize⟩)
      generalize multiDecompress b.dir command extractUntil d.writes ⟨b.blockStart, out₁⟩ = q at hrun
      cases q with
      | error f =>
        obtain ⟨i, hi, hi', hstop⟩ := hrun
        have hfault := hstop []
        rw [List.append_nil, List.nil_append] at hfault
        exact .inl ⟨f, rfl, .file i hi hi' (.inr hfault.1) hfault.2⟩
      | ok st =>
        have htracks : Tracks b command extractUntil d.writes.flatten st := hrun
        dsimp only
        rcases checkResult_eq d.result with ⟨f, hf, hresult⟩ | ⟨hok, hresult⟩
        · rw [hf]
          exact .inl ⟨f, rfl, .result _ hstart hU hpos haccept hresult⟩
        rw [hok]
        dsimp only
        rcases htracks.close hfirst with ⟨f, hf, i, hi, hi', hopened', hfault⟩ | ⟨out₂, hout₂, hextracted⟩
        · exact .inl ⟨f, hf, .file i hi hi' (.inr hopened') hfault⟩
        · refine .inr ⟨out₂, hout₂, ?_, hextracted⟩
          rintro (⟨i, hi, hi', hcomes, hfault⟩ | ⟨-, -, -, -, -, hcon⟩)
          · exact hextracted.sound i hi hi' hcomes hfault
          · exact hcon hresult

/-- **There is an error if and only if there is a fault.** -/
theorem extractFiles_eq_ok_iff (d : Decompressor) :
    (∃ out, extractFiles b command d = .ok out) ↔ ¬ Fault b command d := by
  rcases extractFiles_outcome b command d with
    ⟨f, hf, hfault⟩ | ⟨out, hout, hfault, -⟩
  · rw [hf]
    exact ⟨fun ⟨_, h⟩ => (by cases h), fun h => absurd hfault h⟩
  · exact ⟨fun _ => hfault, fun _ => ⟨out, hout⟩⟩

/-- A stream that reaches all files that are taken extracts them. -/
lemma Extracted.complete {stream : List UInt8} {out : Outfile} (h : Extracted b command stream out)
    (hreaches : Reaches b command stream) : Complete b command stream out.disk := by
  obtain ⟨m, hdisk, hm⟩ := h.disk
  refine ⟨?_, ?_, ?_, ?_⟩
  · intro i hstart hend htaken
    rw [b.length_slice]
    rcases Nat.eq_zero_or_pos (b.dir i).size with hsize | hpos
    · omega
    · have := hreaches i hstart hend htaken hpos
      omega
  · intro i hstart hend htaken
    by_contra hcrc
    refine h.sound i hstart hend ?_ (.inr ⟨htaken, .inr hcrc⟩)
    rcases Nat.eq_zero_or_pos (b.dir i).size with hsize | hpos
    · exact .inl hsize
    · have := hreaches i hstart hend htaken hpos
      exact .inr (.inl (by omega))
  · intro i hstart hend htaken
    have hmade : (b.dir i).size = 0 ∨ i < m := by
      rcases Nat.eq_zero_or_pos (b.dir i).size with hsize | hpos
      · exact .inl hsize
      · exact .inr (hm i hstart hend htaken hpos (hreaches i hstart hend htaken hpos))
    rw [hdisk i, onDisk, if_pos ⟨hstart, hend, htaken, hmade⟩]
  · intro i hi
    rw [hdisk i, onDisk, if_neg]
    exact fun hcon => hi ⟨hcon.1, hcon.2.1, hcon.2.2.1⟩

/-- An extraction that is complete has reached all files that are taken. -/
lemma Complete.reaches {stream : List UInt8} {disk : ℕ → Option Output}
    (h : Complete b command stream disk) : Reaches b command stream := by
  intro i hstart hend htaken hpos
  have hlen := h.size i hstart hend htaken
  rw [b.length_slice] at hlen
  omega

end

/-- **An extraction that ends without an error is complete if and only if the stream reaches the end of
every file that is taken, or there is a fault, and so an error.** -/
theorem extractsCompletely_iff (b : Block) (command : Command) (d : Decompressor) :
    ExtractsCompletely b command d ↔ Reaches b command d.writes.flatten ∨ Fault b command d := by
  rcases extractFiles_outcome b command d with
    ⟨f, hf, hfault⟩ | ⟨out, hout, hfault, hextracted⟩
  · refine ⟨fun _ => .inr hfault, fun _ out hout => ?_⟩
    rw [hf] at hout
    cases hout
  · constructor
    · intro h
      exact .inl (h out hout).reaches
    · rintro (hreaches | hcon) out' hout'
      · rw [hout] at hout'
        cases hout'
        exact hextracted.complete hreaches
      · exact absurd hcon hfault

/-- A block of two files with two bytes each. -/
def twoFiles : Block where
  dir := fun _ => { size := 2, isdir := false, crc := 0x41D912FF#32 }
  blockStart := 0
  blockEnd := 2
  ordered := by decide

/-- Extraction of the second file. -/
def extractSecond : Command where
  cmd := .x
  acceptFile := fun i => i == 1
  overwrite := fun _ => .write

/-- A stream that ends within the first file. -/
def oneByte : Decompressor where
  writes := [[0]]
  result := 0

/-- **The second file is missing, and there is no error.** -/
theorem not_extractsCompletely : ¬ ExtractsCompletely twoFiles extractSecond oneByte := by
  intro h
  have hreaches : ¬ Reaches twoFiles extractSecond oneByte.writes.flatten := fun hcon =>
    absurd (hcon 1 (by decide) (by decide) (by decide) (by decide)) (by decide)
  have hfault : ¬ Fault twoFiles extractSecond oneByte := by
    rintro (⟨i, -, hend, hopened, hfault⟩ | ⟨-, -, -, -, -, hresult⟩)
    · have hcases : i = 0 ∨ i = 1 := by
        have hlt : i < 2 := hend
        omega
      rcases hcases with rfl | rfl
      · exact not_fileFault rfl hfault
      · rcases hopened with hsize | hlt | ⟨heq, -⟩
        · exact absurd hsize (by decide)
        · exact absurd hlt (by decide)
        · exact absurd heq (by decide)
    · exact hresult (.inl (le_refl _))
  obtain ⟨out, hout⟩ := (extractFiles_eq_ok_iff oneByte).mpr hfault
  exact hreaches (h out hout).reaches

end DArc.Unarc
