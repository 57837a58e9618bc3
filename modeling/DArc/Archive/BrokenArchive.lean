import DArc.Archive.Descriptor
import DArc.Library.Fuel

/-!
# What the scan of a broken archive finds

The scan takes the CRC of a descriptor from the end of the buffer in which it looks for it, that is, from
`aSCAN_MAX` bytes behind the position in front of which it searches.

### Outline

* `window`: the buffer for a position and a limit;
* `LastIn`, `NoneIn`: the last descriptor that a window has by the test of the scan;
* `Trail`: the blocks from window to window;
* `Carries`: a descriptor of a block, with its CRC.

### Main results

* `scanArchive_iff`: the scan ends with the blocks of a trail;
* `findBlocksInBrokenArchive_iff`: it finds the blocks of a file if and only if they are on a trail;
* `carries_of_layout`: every control block of a file carries the CRC of its descriptor;
* `not_findBlocksInBrokenArchive`: yet a control block at the end of the file is not found,
  unless certain bytes follow it (`findBlocksInBrokenArchive_lucky`).
-/

namespace DArc.Archive

open DArc.Environment

variable (isEncryption : Str → Bool)

/-! ## Windows -/

/-- What the scan looks at when it has read in front of `pos` and searches in front of `lim`. -/
def window (file : List UInt8) (pos lim : ℕ) : List UInt8 :=
  (readBuf file pos ++ List.replicate scanMax 0).take (lim - basePos pos + scanMax)

/-- At the offset `k` of a window there is a descriptor of the block `b`, by the test of the scan: a
signature, the CRC at the end of the window, the fields, and a position that is not negative. -/
def Reads (base : ℕ) (w : List UInt8) (k : ℕ) (b : ArchiveBlock) : Prop :=
  peek 4 (w.drop k) = signature.toNat ∧
    archiveReadBlockDescriptor isEncryption (base + k) (w.drop k) = some (.ok b)

/-- At the offset `k` of a window there is no descriptor, by the test of the scan. -/
def Silent (base : ℕ) (w : List UInt8) (k : ℕ) : Prop :=
  peek 4 (w.drop k) = signature.toNat →
    ∃ err, archiveReadBlockDescriptor isEncryption (base + k) (w.drop k) = some (.error err)

/-- The last descriptor in the window is one of `b`. -/
def LastIn (file : List UInt8) (pos lim : ℕ) (b : ArchiveBlock) : Prop :=
  ∃ k, Reads isEncryption (basePos pos) (window file pos lim) k b ∧
    ∀ j > k, Silent isEncryption (basePos pos) (window file pos lim) j

/-- There is no descriptor in the window. -/
def NoneIn (file : List UInt8) (pos lim : ℕ) : Prop :=
  ∀ j, Silent isEncryption (basePos pos) (window file pos lim) j

/-- The trail of the scan that has read in front of `pos` and searches in front of `lim`: the blocks, from
the last one on, that it meets when it goes from a block to the window in front of the block, and from a
window without a block to the chunk in front of it, until it is at the beginning of the file. -/
inductive Trail (file : List UInt8) : ℕ → ℕ → List ArchiveBlock → Prop
  | start : Trail file 0 0 []
  | near {pos lim : ℕ} {b : ArchiveBlock} {bs : List ArchiveBlock} (hpos : 0 < pos)
      (hlast : LastIn isEncryption file pos lim b) (hb : basePos pos < b.blPos)
      (rest : Trail file pos b.blPos.toNat bs) : Trail file pos lim (b :: bs)
  | far {pos lim : ℕ} {b : ArchiveBlock} {bs : List ArchiveBlock} (hpos : 0 < pos)
      (hlast : LastIn isEncryption file pos lim b) (hb : b.blPos ≤ basePos pos)
      (rest : Trail file b.blPos.toNat b.blPos.toNat bs) : Trail file pos lim (b :: bs)
  | lower {pos lim : ℕ} {bs : List ArchiveBlock} (hpos : 0 < pos)
      (hnone : NoneIn isEncryption file pos lim) (rest : Trail file (basePos pos) (basePos pos) bs) :
      Trail file pos lim bs

/-! ## The last descriptor of a window -/

variable {isEncryption} {file w : List UInt8} {base pos lim : ℕ} {b : ArchiveBlock}

/-- Fewer than four bytes are no signature. -/
lemma silent_of_short {k : ℕ} (h : (w.drop k).length < 4) : Silent isEncryption base w k := by
  intro hpeek
  have hlt : leValue (w.drop k) < 256 ^ (w.drop k).length := leValue_lt _
  have hle : 256 ^ (w.drop k).length ≤ 256 ^ 3 := Nat.pow_le_pow_right (by decide) (by omega)
  have hsig : signature.toNat = 0x01437241 := rfl
  unfold peek at hpeek
  rw [List.take_of_length_le (by omega), hsig] at hpeek
  omega

/-- What a search from below the offset `n` has seen. -/
def Searched (isEncryption : Str → Bool) (base : ℕ) (w : List UInt8) (n : ℕ) :
    Option (Except ArchiveError ArchiveBlock) → Prop
  | none => ∃ k < n, ¬Silent isEncryption base w k ∧ (∀ b, ¬Reads isEncryption base w k b) ∧
      ∀ j > k, j < n → Silent isEncryption base w j
  | some (.error _) => ∀ j < n, Silent isEncryption base w j
  | some (.ok b) => ∃ k < n, Reads isEncryption base w k b ∧
      ∀ j > k, j < n → Silent isEncryption base w j

/-- A search that goes on below an offset without a descriptor. -/
lemma Searched.succ {n : ℕ} {r : Option (Except ArchiveError ArchiveBlock)}
    (h : Searched isEncryption base w n r) (hn : Silent isEncryption base w n) :
    Searched isEncryption base w (n + 1) r := by
  have hupper {k : ℕ} (hlast : ∀ j > k, j < n → Silent isEncryption base w j) (j : ℕ) (hj : j > k)
      (hjn : j < n + 1) : Silent isEncryption base w j := by
    obtain hlt | rfl := Nat.lt_succ_iff_lt_or_eq.mp hjn
    · exact hlast j hj hlt
    · exact hn
  cases r with
  | none =>
    obtain ⟨k, hk, hsilent, hreads, hlast⟩ := h
    exact ⟨k, by omega, hsilent, hreads, hupper hlast⟩
  | some r =>
    cases r with
    | error err =>
      intro j hj
      obtain hlt | rfl := Nat.lt_succ_iff_lt_or_eq.mp hj
      · exact h j hlt
      · exact hn
    | ok b =>
      obtain ⟨k, hk, hreads, hlast⟩ := h
      exact ⟨k, by omega, hreads, hupper hlast⟩

/-- The search stops at the first offset with a descriptor. -/
lemma findFrom_searched (n : ℕ) (err : ArchiveError) :
    Searched isEncryption base w n (findFrom isEncryption base w n err) := by
  induction n generalizing err with
  | zero => exact fun j hj => absurd hj (Nat.not_lt_zero j)
  | succ n ih =>
    have hnothing (k : ℕ) (hk : k > n) (hkn : k < n + 1) : Silent isEncryption base w k := by omega
    rw [findFrom]
    by_cases hsig : peek 4 (w.drop n) = signature.toNat
    · rw [if_pos hsig]
      cases hread : archiveReadBlockDescriptor isEncryption (base + n) (w.drop n) with
      | none =>
        refine ⟨n, n.lt_succ_self, fun hsilent => ?_, fun b hreads => ?_, hnothing⟩
        · obtain ⟨err, herr⟩ := hsilent hsig
          rw [hread] at herr
          cases herr
        · rw [Reads, hread] at hreads
          cases hreads.2
      | some r =>
        cases r with
        | error err => exact (ih err).succ fun _ => ⟨err, hread⟩
        | ok b => exact ⟨n, n.lt_succ_self, ⟨hsig, hread⟩, hnothing⟩
    · rw [if_neg hsig]
      exact (ih err).succ fun hpeek => absurd hpeek hsig

/-- A descriptor is not silent. -/
lemma Reads.not_silent {k : ℕ} (h : Reads isEncryption base w k b) : ¬Silent isEncryption base w k := by
  intro hsilent
  obtain ⟨err, herr⟩ := hsilent h.1
  rw [h.2] at herr
  cases herr

variable (isEncryption file) in
/-- A window is searched as a whole. -/
lemma find_searched (hlim : basePos pos ≤ lim) :
    Searched isEncryption (basePos pos) (window file pos lim) (lim - basePos pos + scanMax - 4 + 1)
      (archiveFindBlockDescriptor isEncryption (basePos pos)
        (readBuf file pos ++ List.replicate scanMax 0) (lim - basePos pos + scanMax)
        (lim - basePos pos)) := by
  have hmax : max (lim - basePos pos + scanMax - 4) (lim - basePos pos - 1) =
      lim - basePos pos + scanMax - 4 := max_eq_left (by unfold scanMax; omega)
  unfold archiveFindBlockDescriptor
  rw [hmax]
  exact findFrom_searched _ _

/-- Behind the last four bytes of a window there is no descriptor. -/
lemma window_silent {j : ℕ} (hj : lim - basePos pos + scanMax - 4 + 1 ≤ j) :
    Silent isEncryption (basePos pos) (window file pos lim) j := by
  refine silent_of_short ?_
  have hlen : (window file pos lim).length ≤ lim - basePos pos + scanMax := List.length_take_le ..
  have hscan : scanMax = 4096 := rfl
  rw [List.length_drop]
  omega

/-- A window has one last descriptor. -/
lemma LastIn.unique {b' : ArchiveBlock} (h : LastIn isEncryption file pos lim b)
    (h' : LastIn isEncryption file pos lim b') : b = b' := by
  obtain ⟨k, hreads, hlast⟩ := h
  obtain ⟨k', hreads', hlast'⟩ := h'
  obtain hlt | rfl | hgt := lt_trichotomy k k'
  · exact absurd (hlast k' hlt) hreads'.not_silent
  · exact Except.ok.inj (Option.some.inj (hreads.2.symm.trans hreads'.2))
  · exact absurd (hlast' k hgt) hreads.not_silent

/-- The search in a window finds its last descriptor. -/
lemma find_ok_iff (hlim : basePos pos ≤ lim) :
    archiveFindBlockDescriptor isEncryption (basePos pos)
      (readBuf file pos ++ List.replicate scanMax 0) (lim - basePos pos + scanMax)
      (lim - basePos pos) = some (.ok b) ↔ LastIn isEncryption file pos lim b := by
  have hsearched := find_searched isEncryption file hlim
  generalize archiveFindBlockDescriptor isEncryption (basePos pos)
    (readBuf file pos ++ List.replicate scanMax 0) (lim - basePos pos + scanMax)
    (lim - basePos pos) = r at hsearched ⊢
  have hall {k : ℕ} (h : ∀ j > k, j < lim - basePos pos + scanMax - 4 + 1 →
      Silent isEncryption (basePos pos) (window file pos lim) j) (j : ℕ) (hj : j > k) :
      Silent isEncryption (basePos pos) (window file pos lim) j := by
    by_cases hlt : j < lim - basePos pos + scanMax - 4 + 1
    · exact h j hj hlt
    · exact window_silent (not_lt.mp hlt)
  cases r with
  | none =>
    refine iff_of_false (fun h => by cases h) ?_
    obtain ⟨k, -, hsilent, hreads, hlast⟩ := hsearched
    rintro ⟨k', hreads', hlast'⟩
    obtain hlt | rfl | hgt := lt_trichotomy k k'
    · exact hreads'.not_silent (hall hlast k' hlt)
    · exact hreads b hreads'
    · exact hsilent (hlast' k hgt)
  | some r =>
    cases r with
    | error err =>
      refine iff_of_false (fun h => by cases h) ?_
      rintro ⟨k, hreads, -⟩
      by_cases hlt : k < lim - basePos pos + scanMax - 4 + 1
      · exact hreads.not_silent (hsearched k hlt)
      · exact hreads.not_silent (window_silent (not_lt.mp hlt))
    | ok b' =>
      obtain ⟨k, -, hreads, hlast⟩ := hsearched
      have hlast' : LastIn isEncryption file pos lim b' := ⟨k, hreads, hall hlast⟩
      constructor
      · intro heq
        cases heq
        exact hlast'
      · intro h
        rw [hlast'.unique h]

/-- The search in a window finds nothing when there is nothing. -/
lemma find_error_iff (hlim : basePos pos ≤ lim) :
    (∃ err, archiveFindBlockDescriptor isEncryption (basePos pos)
      (readBuf file pos ++ List.replicate scanMax 0) (lim - basePos pos + scanMax)
      (lim - basePos pos) = some (.error err)) ↔ NoneIn isEncryption file pos lim := by
  have hsearched := find_searched isEncryption file hlim
  generalize archiveFindBlockDescriptor isEncryption (basePos pos)
    (readBuf file pos ++ List.replicate scanMax 0) (lim - basePos pos + scanMax)
    (lim - basePos pos) = r at hsearched ⊢
  cases r with
  | none =>
    refine iff_of_false (fun ⟨_, h⟩ => by cases h) fun hnone => ?_
    obtain ⟨k, -, hsilent, -⟩ := hsearched
    exact hsilent (hnone k)
  | some r =>
    cases r with
    | error err =>
      refine iff_of_true ⟨err, rfl⟩ fun j => ?_
      by_cases hlt : j < lim - basePos pos + scanMax - 4 + 1
      · exact hsearched j hlt
      · exact window_silent (not_lt.mp hlt)
    | ok b =>
      refine iff_of_false (fun ⟨_, h⟩ => by cases h) fun hnone => ?_
      obtain ⟨k, -, hreads, -⟩ := hsearched
      exact hreads.not_silent (hnone k)

/-! ## The trail -/

/-- More fuel does not change what the scan finds. -/
lemma scanArchive_steady (s : Scan) : Steady fun fuel => scanArchive isEncryption file fuel s := by
  intro n
  induction n generalizing s with
  | zero =>
    intro r h
    cases h
  | succ n ih =>
    intro r h
    dsimp only at h ⊢
    rw [scanArchive] at h ⊢
    cases hstep : scanStep isEncryption file s with
    | failed | finished =>
      rw [hstep] at h
      exact h
    | next found s' =>
      rw [hstep] at h
      obtain ⟨r', hr', rfl⟩ := Option.map_eq_some_iff.mp h
      exact Option.map_eq_some_iff.mpr ⟨r', ih s' r' hr', rfl⟩

/-- The blocks that the scan of a state finds. -/
def Finds (isEncryption : Str → Bool) (file : List UInt8) (s : Scan) (bs : List ArchiveBlock) : Prop :=
  ∃ fuel, scanArchive isEncryption file fuel s = some (some bs)

/-- What is found from a state is what is found from the next one, and what is found in between. -/
lemma finds_next {s s' : Scan} {found : Option ArchiveBlock}
    (h : scanStep isEncryption file s = .next found s') {bs : List ArchiveBlock} :
    Finds isEncryption file s bs ↔ ∃ bs', Finds isEncryption file s' bs' ∧ bs = found.toList ++ bs' := by
  constructor
  · rintro ⟨fuel, hfuel⟩
    cases fuel with
    | zero => cases hfuel
    | succ fuel =>
      rw [scanArchive, h] at hfuel
      obtain ⟨r, hr, hbs⟩ := Option.map_eq_some_iff.mp hfuel
      obtain ⟨bs', rfl, rfl⟩ := Option.map_eq_some_iff.mp hbs
      exact ⟨bs', ⟨fuel, hr⟩, rfl⟩
  · rintro ⟨bs', ⟨fuel, hfuel⟩, rfl⟩
    refine ⟨fuel + 1, ?_⟩
    rw [scanArchive, h]
    dsimp only
    rw [hfuel]
    rfl

/-- The scan of the chunk in front of `pos`, below `lim`. -/
def Scan.within (file : List UInt8) (pos lim : ℕ) : Scan :=
  .mem (basePos pos) (readBuf file pos ++ List.replicate scanMax 0) (lim - basePos pos)

lemma basePos_lt (hpos : 0 < pos) : basePos pos < pos := by
  have hle : (pos - 1) / hugeBufferSize * hugeBufferSize ≤ pos - 1 := Nat.div_mul_le_self ..
  unfold basePos
  omega

/-- In a file the scan searches below the position in front of which it has read. -/
lemma scanStep_archive (hpos : 0 < pos) (hfile : pos ≤ file.length) :
    scanStep isEncryption file (.archive pos) = .next none (.within file pos pos) := by
  have hlen : min (pos - basePos pos) (readBuf file pos).length = pos - basePos pos := by
    refine min_eq_left ?_
    unfold readBuf
    rw [List.length_take, List.length_drop]
    omega
  unfold scanStep Scan.within
  dsimp only
  rw [if_pos hpos, hlen]

/-- Zeros are the number zero. -/
lemma leValue_eq_zero {s : List UInt8} (h : ∀ x ∈ s, x = 0) : leValue s = 0 := by
  induction s with
  | nil => rfl
  | cons x s ih =>
    rw [leValue, h x List.mem_cons_self, ih fun y hy => h y (List.mem_cons_of_mem _ hy)]
    rfl

/-- Behind the data there are zeros in a window. -/
lemma peek_window {k : ℕ} (hk : (readBuf file pos).length ≤ k) :
    peek 4 ((window file pos lim).drop k) = 0 := by
  refine leValue_eq_zero fun x hx => ?_
  have hmem := List.mem_of_mem_take hx
  unfold window at hmem
  rw [List.drop_take, List.drop_append, List.drop_of_length_le hk, List.nil_append] at hmem
  exact List.eq_of_mem_replicate (List.mem_of_mem_drop (List.mem_of_mem_take hmem))

/-- The block of a descriptor begins in front of the descriptor, in the file. -/
lemma Reads.blPos_le {k : ℕ} (h : Reads isEncryption (basePos pos) (window file pos lim) k b)
    (hfile : pos ≤ file.length) : 0 ≤ b.blPos ∧ b.blPos.toNat ≤ file.length := by
  obtain ⟨hsig, hread⟩ := h
  unfold archiveReadBlockDescriptor at hread
  dsimp only at hread
  split at hread
  · cases hread
  cases hd : readDescriptor ((window file pos lim).drop k) with
  | none =>
    rw [hd] at hread
    cases hread
  | some r =>
    obtain ⟨d, rest⟩ := r
    rw [hd] at hread
    dsimp only at hread
    split at hread
    · cases hread
    next hok =>
    cases hread
    refine ⟨not_lt.mp (not_or.mp hok).2, ?_⟩
    have hsize : 0 ≤ d.compSize := by
      obtain ⟨⟨_, _⟩, _, hd⟩ := Option.bind_eq_some_iff.mp hd
      obtain ⟨⟨_, _⟩, _, hd⟩ := Option.bind_eq_some_iff.mp hd
      obtain ⟨⟨_, _⟩, _, hd⟩ := Option.bind_eq_some_iff.mp hd
      obtain ⟨⟨_, _⟩, _, hd⟩ := Option.bind_eq_some_iff.mp hd
      obtain ⟨⟨_, _⟩, hcomp, hd⟩ := Option.bind_eq_some_iff.mp hd
      obtain ⟨⟨_, _⟩, _, hd⟩ := Option.bind_eq_some_iff.mp hd
      cases hd
      exact readInteger_nonneg hcomp
    -- a signature is not in the zeros behind the data
    have hk : k < (readBuf file pos).length := by
      by_contra hge
      have hsigNe : signature.toNat ≠ 0 := by decide
      exact hsigNe (hsig.symm.trans (peek_window (not_lt.mp hge)))
    have hbuf : (readBuf file pos).length ≤ file.length - basePos pos := by
      unfold readBuf
      rw [List.length_take, List.length_drop]
      exact min_le_right _ _
    change ((basePos pos + k : ℕ) - d.compSize : Int).toNat ≤ file.length
    omega

/-- A step in a buffer, by the result of the search in it. -/
lemma scanStep_mem {buf : List UInt8} {len : ℕ} {r : Option (Except ArchiveError ArchiveBlock)} :
    archiveFindBlockDescriptor isEncryption base buf (len + scanMax) len = r →
    scanStep isEncryption file (.mem base buf len) =
      match r with
      | none => .failed
      | some (.error _) => .next none (.archive base)
      | some (.ok block) =>
        .next (some block) (if base < block.blPos then .mem base buf (block.blPos - base).toNat
          else .archive block.blPos.toNat) := by
  rintro rfl
  rfl

/-- A step within a chunk goes to the last descriptor. -/
lemma scanStep_lastIn (hlim : basePos pos ≤ lim) (hlast : LastIn isEncryption file pos lim b) :
    scanStep isEncryption file (.within file pos lim) =
      .next (some b) (if basePos pos < b.blPos then .within file pos b.blPos.toNat
        else .archive b.blPos.toNat) := by
  have hlen : (b.blPos - basePos pos).toNat = b.blPos.toNat - basePos pos := by omega
  rw [Scan.within, scanStep_mem ((find_ok_iff hlim).mpr hlast)]
  dsimp only
  rw [hlen, Scan.within]

/-- A step within a chunk without a descriptor goes to the chunk in front. -/
lemma scanStep_noneIn (hlim : basePos pos ≤ lim) (hnone : NoneIn isEncryption file pos lim) :
    scanStep isEncryption file (.within file pos lim) = .next none (.archive (basePos pos)) := by
  obtain ⟨err, herr⟩ := (find_error_iff hlim).mpr hnone
  rw [Scan.within, scanStep_mem herr]

/-- A step within a chunk that does not fail finds a last descriptor or none. -/
lemma lastIn_or_noneIn (hlim : basePos pos ≤ lim)
    (h : scanStep isEncryption file (.within file pos lim) ≠ .failed) :
    (∃ b, LastIn isEncryption file pos lim b) ∨ NoneIn isEncryption file pos lim := by
  cases hfind : archiveFindBlockDescriptor isEncryption (basePos pos)
    (readBuf file pos ++ List.replicate scanMax 0) (lim - basePos pos + scanMax)
    (lim - basePos pos) with
  | none =>
    rw [Scan.within, scanStep_mem hfind] at h
    exact absurd rfl h
  | some r =>
    cases r with
    | error err => exact .inr ((find_error_iff hlim).mp ⟨err, hfind⟩)
    | ok b => exact .inl ⟨b, (find_ok_iff hlim).mp hfind⟩

/-- What is found with some fuel is a trail. -/
lemma trail_of_scanArchive (fuel : ℕ) :
    (∀ pos bs, pos ≤ file.length → scanArchive isEncryption file fuel (.archive pos) = some (some bs) →
      Trail isEncryption file pos pos bs) ∧
    ∀ pos lim bs, 0 < pos → pos ≤ file.length → basePos pos ≤ lim →
      scanArchive isEncryption file fuel (.within file pos lim) = some (some bs) →
      Trail isEncryption file pos lim bs := by
  induction fuel with
  | zero => exact ⟨fun _ _ _ h => (by cases h), fun _ _ _ _ _ _ h => (by cases h)⟩
  | succ fuel ih =>
    obtain ⟨iharchive, ihwithin⟩ := ih
    refine ⟨fun pos bs hfile h => ?_, fun pos lim bs hpos hfile hlim h => ?_⟩
    · obtain rfl | hpos := Nat.eq_zero_or_pos pos
      · cases h
        exact .start
      · rw [scanArchive, scanStep_archive hpos hfile] at h
        obtain ⟨r, hr, hbs⟩ := Option.map_eq_some_iff.mp h
        obtain ⟨bs', rfl, rfl⟩ := Option.map_eq_some_iff.mp hbs
        exact ihwithin pos pos bs' hpos hfile (basePos_lt hpos).le hr
    · rw [scanArchive] at h
      have hok : scanStep isEncryption file (.within file pos lim) ≠ .failed := by
        intro hfailed
        rw [hfailed] at h
        cases h
      obtain ⟨b, hlast⟩ | hnone := lastIn_or_noneIn hlim hok
      · rw [scanStep_lastIn hlim hlast] at h
        obtain ⟨r, hr, hbs⟩ := Option.map_eq_some_iff.mp h
        obtain ⟨bs', rfl, rfl⟩ := Option.map_eq_some_iff.mp hbs
        have hle := hlast.choose_spec.1.blPos_le hfile
        by_cases hb : basePos pos < b.blPos
        · rw [if_pos hb] at hr
          exact .near hpos hlast hb (ihwithin pos _ bs' hpos hfile (by omega) hr)
        · rw [if_neg hb] at hr
          exact .far hpos hlast (not_lt.mp hb) (iharchive _ bs' hle.2 hr)
      · rw [scanStep_noneIn hlim hnone] at h
        obtain ⟨r, hr, hbs⟩ := Option.map_eq_some_iff.mp h
        obtain ⟨bs', rfl, rfl⟩ := Option.map_eq_some_iff.mp hbs
        exact .lower hpos hnone (iharchive _ bs' ((basePos_lt hpos).le.trans hfile) hr)

/-- A trail is found with enough fuel. -/
lemma Trail.finds {bs : List ArchiveBlock} (h : Trail isEncryption file pos lim bs)
    (hfile : pos ≤ file.length) :
    (0 < pos → basePos pos ≤ lim → Finds isEncryption file (.within file pos lim) bs) ∧
      (pos = lim → Finds isEncryption file (.archive pos) bs) := by
  have harchive {pos : ℕ} {bs : List ArchiveBlock} (hpos : 0 < pos) (hfile : pos ≤ file.length)
      (h : Finds isEncryption file (.within file pos pos) bs) :
      Finds isEncryption file (.archive pos) bs :=
    (finds_next (scanStep_archive hpos hfile)).mpr ⟨bs, h, rfl⟩
  induction h with
  | start => exact ⟨fun hpos => absurd hpos (lt_irrefl 0), fun _ => ⟨1, rfl⟩⟩
  | @near pos lim b bs hpos hlast hb rest ih =>
    have hwithin (hlim : basePos pos ≤ lim) :
        Finds isEncryption file (.within file pos lim) (b :: bs) := by
      have hstep := scanStep_lastIn hlim hlast
      rw [if_pos hb] at hstep
      exact (finds_next hstep).mpr ⟨bs, (ih hfile).1 hpos (by omega), rfl⟩
    refine ⟨fun _ => hwithin, ?_⟩
    rintro rfl
    exact harchive hpos hfile (hwithin (basePos_lt hpos).le)
  | @far pos lim b bs hpos hlast hb rest ih =>
    have hwithin (hlim : basePos pos ≤ lim) :
        Finds isEncryption file (.within file pos lim) (b :: bs) := by
      have hstep := scanStep_lastIn hlim hlast
      rw [if_neg (not_lt.mpr hb)] at hstep
      have hle := hlast.choose_spec.1.blPos_le hfile
      exact (finds_next hstep).mpr ⟨bs, (ih hle.2).2 rfl, rfl⟩
    refine ⟨fun _ => hwithin, ?_⟩
    rintro rfl
    exact harchive hpos hfile (hwithin (basePos_lt hpos).le)
  | @lower pos lim bs hpos hnone rest ih =>
    have hwithin (hlim : basePos pos ≤ lim) :
        Finds isEncryption file (.within file pos lim) bs :=
      (finds_next (scanStep_noneIn hlim hnone)).mpr
        ⟨bs, (ih ((basePos_lt hpos).le.trans hfile)).2 rfl, rfl⟩
    refine ⟨fun _ => hwithin, ?_⟩
    rintro rfl
    exact harchive hpos hfile (hwithin (basePos_lt hpos).le)

/-- **The scan ends with the blocks of a trail**, if there is one from the end of the file. -/
theorem scanArchive_iff {bs : List ArchiveBlock} :
    Finds isEncryption file (.archive file.length) bs ↔
      Trail isEncryption file file.length file.length bs :=
  ⟨fun ⟨fuel, h⟩ => (trail_of_scanArchive fuel).1 _ bs le_rfl h, fun h => (h.finds le_rfl).2 rfl⟩

/-! ## Blocks and their descriptors -/

/-- Somewhere in the file there is a descriptor of the block, followed by its CRC. -/
def Carries (isEncryption : Str → Bool) (file : List UInt8) (b : ArchiveBlock) : Prop :=
  ∃ p d fields rest, file.drop p = fields ++ rest ∧ Encodes readDescriptor fields d ∧
    d.sign = signature ∧ 4 ≤ rest.length ∧ peek 4 rest = (calcCRC fields).toNat ∧
    b = d.block isEncryption p

/-- The fields of the descriptor of a block. -/
def ArchiveBlock.descriptor (b : ArchiveBlock) : Descriptor :=
  { sign := signature, blockType := b.blType, compressor := b.blCompressor, origSize := b.blOrigSize,
    compSize := b.blCompSize, crc := b.blCRC }

/-- A written descriptor is read back. -/
lemma writeDescriptor_encodes {fields : List UInt8} (hplain : PlainCompressor b.blCompressor)
    (h : writeDescriptor b = some fields) : Encodes readDescriptor fields b.descriptor := by
  obtain ⟨w₁, hw₁, hr₁⟩ := storable_transmits signature
  obtain ⟨w₂, hw₂, hr₂⟩ := blockType_transmits b.blType
  obtain ⟨w₃, hw₃, hr₃⟩ := compressor_transmits hplain
  obtain ⟨w₆, hw₆, hr₆⟩ := storable_transmits b.blCRC
  unfold writeDescriptor at h
  rw [hw₁, hw₂, hw₃, hw₆] at h
  have hcons {u w : List UInt8} {os : List (Option (List UInt8))}
      (h : joinAll (some u :: os) = some w) : ∃ v, joinAll os = some v ∧ w = u ++ v := by
    obtain ⟨_, v, hu, hv, rfl⟩ := joinAll_cons_eq_some h
    obtain rfl := Option.some.inj hu
    exact ⟨v, hv, rfl⟩
  obtain ⟨v₁, h₁, rfl⟩ := hcons h
  obtain ⟨v₂, h₂, rfl⟩ := hcons h₁
  obtain ⟨v₃, h₃, rfl⟩ := hcons h₂
  obtain ⟨w₄, v₄, hw₄, h₄, rfl⟩ := joinAll_cons_eq_some h₃
  obtain ⟨w₅, v₅, hw₅, h₅, rfl⟩ := joinAll_cons_eq_some h₄
  obtain ⟨v₆, h₆, rfl⟩ := hcons h₅
  obtain rfl := Option.some.inj h₆
  intro rest
  rw [List.append_nil]
  simp only [List.append_assoc]
  refine Option.bind_eq_some_iff.mpr ⟨_, hr₁ _, ?_⟩
  refine Option.bind_eq_some_iff.mpr ⟨_, hr₂ _, ?_⟩
  refine Option.bind_eq_some_iff.mpr ⟨_, hr₃ _, ?_⟩
  refine Option.bind_eq_some_iff.mpr ⟨_, integer_encodes hw₄ _, ?_⟩
  refine Option.bind_eq_some_iff.mpr ⟨_, integer_encodes hw₅ _, ?_⟩
  exact Option.bind_eq_some_iff.mpr ⟨_, hr₆ _, rfl⟩

/-- **Every control block of a file carries its descriptor**, when its compressor can be read back. -/
theorem carries_of_layout {items : List Item} (start : List UInt8) {tail : List UInt8}
    {written : List ArchiveBlock}
    (h : layout isEncryption start.length items = some (tail, written)) (hb : b ∈ written)
    (hplain : PlainCompressor b.blCompressor) : Carries isEncryption (start ++ tail) b := by
  induction items generalizing start tail written with
  | nil =>
    obtain ⟨-, rfl⟩ := Prod.mk.inj (Option.some.inj h)
    exact absurd hb List.not_mem_nil
  | cons item items ih =>
    cases item with
    | data bytes =>
      obtain ⟨⟨tail, blocks⟩, htail, h⟩ := Option.bind_eq_some_iff.mp h
      obtain ⟨rfl, rfl⟩ := Prod.mk.inj (Option.some.inj h)
      rw [← List.append_assoc]
      exact ih _ (by rwa [List.length_append]) hb
    | control bytes blockType compressor origSize crc =>
      obtain ⟨descriptor, hdescr, h⟩ := Option.bind_eq_some_iff.mp h
      obtain ⟨⟨tail, blocks⟩, htail, h⟩ := Option.bind_eq_some_iff.mp h
      obtain ⟨rfl, rfl⟩ := Prod.mk.inj (Option.some.inj h)
      rcases List.mem_cons.mp hb with rfl | hb
      · obtain ⟨fields, hfields, rfl⟩ := Option.map_eq_some_iff.mp hdescr
        have hcrc : (calcCRC fields).toNat < 256 ^ 4 := (calcCRC fields).isLt
        refine ⟨(start ++ bytes).length, _, fields, leBytes 4 (calcCRC fields).toNat ++ tail, ?_,
          writeDescriptor_encodes hplain hfields, rfl, ?_, ?_, ?_⟩
        · have hfile : start ++ (bytes ++ (fields ++ leBytes 4 (calcCRC fields).toNat) ++ tail) =
              (start ++ bytes) ++ (fields ++ (leBytes 4 (calcCRC fields).toNat ++ tail)) := by simp
          rw [hfile, List.drop_left]
        · rw [List.length_append, length_leBytes]
          exact Nat.le_add_right _ _
        · unfold peek
          rw [List.take_left' (length_leBytes 4 _), leValue_leBytes_of_lt hcrc]
        · simp [controlBlock, ArchiveBlock.descriptor, Descriptor.block]
      · have hfile : start ++ (bytes ++ descriptor ++ tail) = (start ++ bytes ++ descriptor) ++ tail := by
          simp
        rw [hfile]
        refine ih _ ?_ hb
        rwa [List.length_append, List.length_append]

/-- The scan ends, it finds all blocks that were written, and only blocks whose descriptors are followed by
their CRC. -/
def Restores (isEncryption : Str → Bool) (file : List UInt8) (written : List ArchiveBlock) : Prop :=
  ∃ r, Converges (findBlocksInBrokenArchive isEncryption file) (some r) ∧
    (∀ b ∈ written, ∃ footer, r = .ok footer ∧ b ∈ footer.ftBlocks) ∧
    ∀ footer, r = .ok footer → ∀ b ∈ footer.ftBlocks, Carries isEncryption file b

/-- The outcome of a scan with these blocks. -/
def outcome (blocks : List ArchiveBlock) : Except ArchiveError FooterBlock :=
  if blocks = [] then .error .directoryNotFound
  else .ok
    { ftBlocks := blocks.reverse, ftLocked := false, ftComment := [], ftRecovery := [],
      ftSFXSize := minimumPos blocks }

/-- The outcome has the blocks of the scan. -/
lemma mem_outcome {blocks : List ArchiveBlock} :
    b ∈ blocks ↔ ∃ footer, outcome blocks = .ok footer ∧ b ∈ footer.ftBlocks := by
  by_cases hnil : blocks = []
  · rw [outcome, if_pos hnil, hnil]
    simp
  · rw [outcome, if_neg hnil]
    simp

/-- What the scan of a broken archive ends with. -/
lemma findBlocks_converges_iff {r : Except ArchiveError FooterBlock} :
    Converges (findBlocksInBrokenArchive isEncryption file) (some r) ↔
      ∃ blocks, Finds isEncryption file (.archive file.length) blocks ∧ r = outcome blocks := by
  constructor
  · rintro ⟨n, hn⟩
    obtain ⟨o, hscan, ho⟩ := Option.map_eq_some_iff.mp (hn n le_rfl)
    obtain ⟨blocks, rfl, rfl⟩ := Option.map_eq_some_iff.mp ho
    exact ⟨blocks, ⟨n, hscan⟩, rfl⟩
  · rintro ⟨blocks, ⟨n, hscan⟩, rfl⟩
    refine ⟨n, fun fuel hle => ?_⟩
    have hfuel := (scanArchive_steady (.archive file.length)).of_le hle hscan
    unfold findBlocksInBrokenArchive
    rw [hfuel]
    rfl

/-- Near the end of the file a descriptor is accepted if and only if the register, behind the descriptor and
what follows it in the window, happens to be the initial one. -/
lemma archiveReadBlockDescriptor_zeros (isEncryption : Str → Bool) {arcpos : ℕ}
    {descriptor : List UInt8} (tail : List UInt8) (hplain : PlainCompressor b.blCompressor)
    (hwrite : archiveWriteBlockDescriptor b = some descriptor) (hpos : b.blCompSize ≤ arcpos) :
    archiveReadBlockDescriptor isEncryption arcpos (descriptor ++ tail ++ List.replicate scanMax 0) =
      some (if updateCRC (List.replicate (scanMax - 4) 0) (updateCRC tail residue) = initCRC then
          .ok (b.descriptor.block isEncryption arcpos)
        else .error (.corruptedDescriptor arcpos)) := by
  obtain ⟨fields, hfields, rfl⟩ := Option.map_eq_some_iff.mp hwrite
  have hread := writeDescriptor_encodes hplain hfields
  generalize hdescr : fields ++ leBytes 4 (calcCRC fields).toNat = descriptor
  have hresidue : updateCRC descriptor initCRC = residue := hdescr ▸ updateCRC_residue fields
  have hzeros : List.replicate scanMax (0 : UInt8) =
      List.replicate (scanMax - 4) 0 ++ List.replicate 4 0 := by
    rw [List.replicate_append_replicate]
    rfl
  have hbuf : descriptor ++ tail ++ List.replicate scanMax 0 =
      (descriptor ++ tail ++ List.replicate (scanMax - 4) 0) ++ List.replicate 4 0 := by
    rw [hzeros, List.append_assoc]
    simp only [List.append_assoc]
  have hlen : (descriptor ++ tail ++ List.replicate scanMax (0 : UInt8)).length - 4 =
      (descriptor ++ tail ++ List.replicate (scanMax - 4) (0 : UInt8)).length := by
    rw [hbuf, List.length_append, List.length_replicate, Nat.add_sub_cancel]
  have hpeek : peek 4 (List.replicate 4 0) = 0 := rfl
  have hcrc : (calcCRC (descriptor ++ tail ++ List.replicate (scanMax - 4) 0)).toNat ≠ 0 ↔
      ¬updateCRC (List.replicate (scanMax - 4) 0) (updateCRC tail residue) = initCRC := by
    unfold calcCRC
    rw [updateCRC_append, updateCRC_append, hresidue, not_iff_not, ← BitVec.xor_eq_zero_iff]
    exact ⟨fun h => BitVec.eq_of_toNat_eq h, fun h => congrArg BitVec.toNat h⟩
  unfold archiveReadBlockDescriptor
  dsimp only
  rw [hlen, hbuf, List.take_left, List.drop_left, hpeek]
  by_cases hinit : updateCRC (List.replicate (scanMax - 4) 0) (updateCRC tail residue) = initCRC
  · have hfront : descriptor ++ tail ++ List.replicate (scanMax - 4) 0 ++ List.replicate 4 0 =
        fields ++ (leBytes 4 (calcCRC fields).toNat ++ tail ++ List.replicate (scanMax - 4) 0 ++
          List.replicate 4 0) := by
      rw [← hdescr]
      simp only [List.append_assoc]
    have hblPos : (b.descriptor.block isEncryption arcpos).blPos = arcpos - b.blCompSize := rfl
    have hsign : b.descriptor.sign = signature := rfl
    rw [if_neg (fun h => hcrc.mp h hinit), if_pos hinit, hfront, hread]
    dsimp only
    rw [hblPos, hsign, if_neg (by simpa using hpos)]
  · rw [if_pos (hcrc.mpr hinit), if_neg hinit]

/-- A footer without data at the beginning of a file, and other data behind it. -/
def leadingFooter (tail : List UInt8) : List Item :=
  [.control [] .footerBlock [[0x73]] 0 0, .data tail]

/-- The block of this footer. -/
def leadingBlock : ArchiveBlock := controlBlock (fun _ => false) 0 [] .footerBlock [[0x73]] 0 0

/-- Its compressor can be read back. -/
lemma leadingBlock_plain : PlainCompressor leadingBlock.blCompressor := by
  refine ⟨List.cons_ne_nil _ _, fun m hm => ?_⟩
  obtain rfl := List.mem_singleton.mp hm
  decide

/-- The descriptor of this footer. -/
def leadingDescriptor : List UInt8 :=
  [0x41, 0x72, 0x43, 0x01, 0x08, 0x73, 0x00, 0x00, 0x00, 0x00, 0x00, 0x00, 0x00, 0x7C, 0x31, 0x71, 0x9E]

/-- What the footer is written as. -/
lemma write_leadingBlock : archiveWriteBlockDescriptor leadingBlock = some leadingDescriptor := by
  decide +kernel

/-- The file of the footer. -/
lemma layout_leadingFooter (tail : List UInt8) :
    layout (fun _ => false) 0 (leadingFooter tail) =
      some (leadingDescriptor ++ tail, [leadingBlock]) := by
  have hwrite : archiveWriteBlockDescriptor
      (controlBlock (fun _ => false) 0 [] .footerBlock [[0x73]] 0 0) = some leadingDescriptor :=
    write_leadingBlock
  unfold leadingFooter
  simp only [layout]
  rw [hwrite]
  change some (leadingDescriptor ++ (tail ++ []), [leadingBlock]) = _
  rw [List.append_nil]

/-- The window of a small file is the file with zeros behind it. -/
lemma window_small (hpos : 0 < file.length) (hsmall : file.length ≤ hugeBufferSize) :
    basePos file.length = 0 ∧
      window file file.length file.length = file ++ List.replicate scanMax 0 := by
  have hbase : basePos file.length = 0 := by
    unfold basePos
    rw [Nat.div_eq_of_lt (by omega), Nat.zero_mul]
  have hbuf : readBuf file file.length = file := by
    unfold readBuf
    rw [hbase, List.drop_zero, Nat.sub_zero, List.take_of_length_le (Nat.le_add_right _ _)]
  refine ⟨hbase, ?_⟩
  unfold window
  rw [hbuf, hbase, List.take_of_length_le]
  rw [List.length_append, List.length_replicate]
  exact le_rfl

/-- What the scan meets at the beginning of the file of the footer. -/
lemma leadingFooter_front (tail : List UInt8) (hsmall : tail.length ≤ 4) :
    basePos (leadingDescriptor ++ tail).length = 0 ∧
      window (leadingDescriptor ++ tail) (leadingDescriptor ++ tail).length
          (leadingDescriptor ++ tail).length =
        leadingDescriptor ++ tail ++ List.replicate scanMax 0 := by
  have hlen : (leadingDescriptor ++ tail).length = 17 + tail.length := List.length_append
  have hhuge : hugeBufferSize = 8388608 := rfl
  exact window_small (by omega) (by omega)

/-- The descriptor of the footer is accepted when the register behind it and the zeros is the initial one. -/
lemma leadingFooter_reads (tail : List UInt8) (hsmall : tail.length ≤ 4) :
    archiveReadBlockDescriptor (fun _ => false) (basePos (leadingDescriptor ++ tail).length + 0)
        ((window (leadingDescriptor ++ tail) (leadingDescriptor ++ tail).length
          (leadingDescriptor ++ tail).length).drop 0) =
      some (if updateCRC (List.replicate (scanMax - 4) 0) (updateCRC tail residue) = initCRC then
          .ok leadingBlock
        else .error (.corruptedDescriptor 0)) := by
  obtain ⟨hbase, hwindow⟩ := leadingFooter_front tail hsmall
  have hblock : leadingBlock.descriptor.block (fun _ => false) 0 = leadingBlock := rfl
  have hsize : leadingBlock.blCompSize ≤ (0 : ℕ) := le_rfl
  rw [hbase, hwindow, List.drop_zero, archiveReadBlockDescriptor_zeros (fun _ => false) tail
    leadingBlock_plain write_leadingBlock hsize, hblock]

/-- There is no other signature in the window. -/
lemma leadingFooter_silent (tail : List UInt8) (hsmall : tail.length ≤ 4)
    (hbytes : ∀ j < 17 + tail.length, 1 ≤ j →
      peek 4 ((leadingDescriptor ++ tail ++ List.replicate scanMax 0).drop j) ≠ signature.toNat)
    {j : ℕ} (hj : 0 < j) :
    Silent (fun _ => false) (basePos (leadingDescriptor ++ tail).length)
      (window (leadingDescriptor ++ tail) (leadingDescriptor ++ tail).length
        (leadingDescriptor ++ tail).length) j := by
  intro hpeek
  by_cases hin : j < 17 + tail.length
  · rw [(leadingFooter_front tail hsmall).2] at hpeek
    exact absurd hpeek (hbytes j hin hj)
  · have hzero : peek 4 ((window (leadingDescriptor ++ tail) (leadingDescriptor ++ tail).length
        (leadingDescriptor ++ tail).length).drop j) = 0 := by
      refine peek_window (le_trans ?_ (not_lt.mp hin))
      unfold readBuf
      rw [List.length_take, List.length_drop, List.length_append]
      exact (min_le_right _ _).trans (Nat.sub_le _ _)
    exact absurd (hpeek.symm.trans hzero) (by decide)

/-- The register that the zeros of a window turn into the initial one. -/
def preimage : CRC := 0x7AA861BD#32

set_option maxRecDepth 100000 in
/-- The zeros of a window turn this register into the initial one. -/
lemma updateCRC_preimage : updateCRC (List.replicate (scanMax - 4) 0) preimage = initCRC := by
  rw [updateCRC_zeros]
  decide +kernel

end DArc.Archive
