import DArc.FileList.Files
import DArc.Library.Chop
import DArc.Library.Fuel

/-!
# Solid blocks by criteria

A list of files is split into solid blocks by criteria: extensions, sizes, numbers of files.  Where a whole
solid block of an old archive begins in the list, and old blocks are not repacked, it is kept.

### Outline

* `isWholeSolidBlock`, `solidBlockLen`, `findSolidBlock`: old blocks in a list;
* `splitLen`, `splitLenMin`, `splitLenMax`: the lengths for a criterion;
* `splitByLen`, `splitBy`: the loop, with fuel.

### Main results

* `splitBy_spec`: the loop ends with blocks that are not empty and make the list;
* `splitBy_keeps`: old blocks are kept.
-/

namespace DArc.FileList

open DArc.Archive (Str FileInfo PackedFilePath scanl1)

variable {w : ℕ} {α : Type}

/-! ## Old solid blocks -/

/-- `isAll`. -/
def isAll (f : α → α → Bool) : List α → Bool
  | [] => true
  | [_] => true
  | x :: y :: ys => f x y && isAll f (y :: ys)

/-- `cfPos`; disk files have none. -/
def FileToCompress.cfPos : FileToCompress w → Int
  | diskFile _ => 0
  | compressedFile _ file => file.cfPos

/-- `isWholeSolidBlock`. -/
def isWholeSolidBlock (files : List (FileToCompress w)) : Bool :=
  match files with
  | .compressedFile _ file :: _ =>
    file.cfPos = 0 && file.cfArcBlock.blFiles = files.length &&
      files.all FileToCompress.isCompressedFile &&
      isAll (fun x y => x.blockKey = y.blockKey) files && isAll (fun x y => x.cfPos ≤ y.cfPos) files
  | _ => false

/-- `solidBlockLen`. -/
def solidBlockLen (files : List (FileToCompress w)) : Option ℕ :=
  match files with
  | .compressedFile _ file :: _ =>
    let n := file.cfArcBlock.blFiles
    if isWholeSolidBlock (files.take n) then some n else none
  | _ => none

/-- `findSolidBlock`. -/
def findSolidBlock (min max : ℕ) (files : List (FileToCompress w)) : Option ℕ :=
  (((files.drop min).tails.take (max - min)).findIdx? fun fs => (solidBlockLen fs).isSome).map (min + ·)

/-! ## Criteria -/

/-- `Grouping`. -/
inductive Grouping
  | groupNone
  | groupByExt
  | groupBySize (size : Int)
  | groupByBlockSize (size : ℕ)
  | groupByNumber (n : Int)
  | groupAll
  deriving DecidableEq

/-- `special`. -/
def special (size : Int) : Int := if 8 * 2 ^ 20 < size then size else 4 * size

/-- `groupLen (fiSize . cfFileInfo) (+)`. -/
def groupLen (tester : Int → Bool) (files : List (FileToCompress w)) : ℕ :=
  ((scanl1 (files.map fun f => f.cfFileInfo.fiSize)).takeWhile tester).length

/-- `maxBound` for `Int`. -/
def maxBound : ℕ := 2 ^ 63 - 1

section

variable (lcExtension : PackedFilePath → Str)

/-- `splitLen`, where `lcExtension` is `fpLCExtension`. -/
def splitLen : Grouping → List (FileToCompress w) → ℕ
  | .groupNone, _ => 1
  | .groupByExt, files =>
    ((groupOn (fun f => lcExtension f.cfFileInfo.fiFilteredName) files).head?.getD []).length
  | .groupBySize size, files => 1 + groupLen (· < size) files
  | .groupByBlockSize size, files => max 1 (groupLen (· < special size) files)
  | .groupByNumber n, _ => (max 1 n).toNat
  | .groupAll, _ => maxBound

/-- `splitLenMin`. -/
def splitLenMin : Grouping → List (FileToCompress w) → ℕ
  | .groupBySize size => splitLen lcExtension (.groupBySize (size / 2))
  | .groupByBlockSize size => splitLen lcExtension (.groupByBlockSize (size / 3))
  | .groupByNumber n => splitLen lcExtension (.groupByNumber (n / 2))
  | x => splitLen lcExtension x

/-- `splitLenMax`. -/
def splitLenMax : Grouping → List (FileToCompress w) → ℕ
  | .groupBySize size => splitLen lcExtension (.groupBySize (size + size / 2))
  | .groupByBlockSize size => splitLen lcExtension (.groupByBlockSize size)
  | .groupByNumber n => splitLen lcExtension (.groupByNumber (n + n / 2))
  | x => splitLen lcExtension x

/-- `minimum`, which is not defined for the empty list. -/
def minimum : List ℕ → ℕ
  | [] => 0
  | [n] => n
  | n :: ns => min n (minimum ns)

/-- `computeLen`. -/
def computeLen (crits : List Grouping) (recompress : Bool) (files : List (FileToCompress w)) : ℕ :=
  let newLen := minimum (crits.map fun c => splitLen lcExtension c files)
  let minLen := minimum (crits.map fun c => splitLenMin lcExtension c files)
  let maxLen := minimum (crits.map fun c => splitLenMax lcExtension c files)
  if recompress then newLen
  else
    match solidBlockLen files with
    | some n => n
    | none =>
      match findSolidBlock minLen maxLen files with
      | some n => if n ≤ newLen then n else minLen
      | none => newLen

/-- `splitByLen`, with fuel. -/
def splitByLen (lenF : List α → ℕ) : ℕ → List α → Option (List (List α))
  | 0, _ => none
  | fuel + 1, list =>
    if list = [] then some []
    else (splitByLen lenF fuel (list.drop (lenF list))).map fun rest => list.take (lenF list) :: rest

/-- `splitBy`. -/
def splitBy (crits : List Grouping) (recompress : Bool) (fuel : ℕ) (files : List (FileToCompress w)) :
    Option (List (List (FileToCompress w))) :=
  if crits = [] then some [files] else splitByLen (computeLen lcExtension crits recompress) fuel files

end

/-! ## Lengths are positive -/

/-- The minimum is one of the items. -/
lemma minimum_mem {ns : List ℕ} (h : ns ≠ []) : minimum ns ∈ ns := by
  fun_induction minimum ns with
  | case1 => exact absurd rfl h
  | case2 n => exact List.mem_singleton_self n
  | case3 n ns hne ih =>
    rcases min_choice n (minimum ns) with hmin | hmin
    · rw [hmin]
      exact List.mem_cons_self
    · rw [hmin]
      exact List.mem_cons_of_mem _ (ih hne)

/-- An old solid block has files. -/
lemma isWholeSolidBlock_ne_nil {files : List (FileToCompress w)} (h : isWholeSolidBlock files = true) :
    files ≠ [] := by
  rintro rfl
  exact absurd h Bool.false_ne_true

/-- Items that are equal to the next ones are equal. -/
lemma eq_of_isAll {β : Type} [DecidableEq β] {f : α → β} {xs : List α}
    (h : isAll (fun x y => f x = f y) xs = true) : ∀ x ∈ xs, ∀ y ∈ xs, f x = f y := by
  have hchain : ∀ x ∈ xs, ∀ first ∈ xs.head?, f x = f first := by
    induction xs with
    | nil => exact fun x hx => absurd hx List.not_mem_nil
    | cons x xs ih =>
      intro y hy first hfirst
      cases hfirst
      rcases List.mem_cons.mp hy with rfl | hy
      · rfl
      · cases xs with
        | nil => exact absurd hy List.not_mem_nil
        | cons z zs =>
          obtain ⟨hxz, hrest⟩ := Bool.and_eq_true_iff.mp h
          exact (ih hrest y hy z rfl).trans (of_decide_eq_true hxz).symm
  intro x hx y hy
  obtain ⟨first, rest, rfl⟩ := List.exists_cons_of_ne_nil (List.ne_nil_of_mem hx)
  exact (hchain x hx first rfl).trans (hchain y hy first rfl).symm

/-- Items that are not greater than the next ones are sorted. -/
lemma pairwise_of_isAll {β : Type} {f : β → Int} {xs : List β}
    (h : isAll (fun x y => decide (f x ≤ f y)) xs = true) : xs.Pairwise fun x y => f x ≤ f y := by
  induction xs with
  | nil => exact List.Pairwise.nil
  | cons x xs ih =>
    cases xs with
    | nil => exact List.pairwise_singleton _ x
    | cons z zs =>
      obtain ⟨hxz, hrest⟩ := Bool.and_eq_true_iff.mp h
      have hzs := ih hrest
      have hle := of_decide_eq_true hxz
      refine List.Pairwise.cons (fun y hy => ?_) hzs
      rcases List.mem_cons.mp hy with rfl | hy
      · exact hle
      · exact hle.trans (List.rel_of_pairwise_cons hzs hy)

/-- The files of an old solid block are from one block. -/
lemma isWholeSolidBlock_blockKey {files : List (FileToCompress w)} (h : isWholeSolidBlock files = true) :
    ∀ x ∈ files, ∀ y ∈ files, x.blockKey = y.blockKey := by
  unfold isWholeSolidBlock at h
  split at h
  · simp only [Bool.and_eq_true] at h
    exact eq_of_isAll h.1.2
  · exact absurd h Bool.false_ne_true

/-- The length that is found is that of an old block at the start. -/
lemma solidBlockLen_eq_some {files : List (FileToCompress w)} {n : ℕ} (h : solidBlockLen files = some n) :
    isWholeSolidBlock (files.take n) = true := by
  unfold solidBlockLen at h
  split at h
  · dsimp only at h
    split at h
    case isTrue hwhole => exact Option.some.inj h ▸ hwhole
    case isFalse => exact absurd h.symm (Option.some_ne_none _)
  · exact absurd h.symm (Option.some_ne_none _)

/-- An old block at the start is not empty. -/
lemma solidBlockLen_pos {files : List (FileToCompress w)} {n : ℕ} (h : solidBlockLen files = some n) :
    0 < n := by
  have hne := isWholeSolidBlock_ne_nil (solidBlockLen_eq_some h)
  exact Nat.pos_of_ne_zero fun hn => hne (hn ▸ List.take_zero)

/-- An old block is searched for from the least length on. -/
lemma le_findSolidBlock {min max n : ℕ} {files : List (FileToCompress w)}
    (h : findSolidBlock min max files = some n) : min ≤ n := by
  obtain ⟨i, -, rfl⟩ := Option.map_eq_some_iff.mp h
  exact Nat.le_add_right min i

section

variable (lcExtension : PackedFilePath → Str)

/-- `splitLen` takes at least one file. -/
lemma splitLen_pos (crit : Grouping) {files : List (FileToCompress w)} (hne : files ≠ []) :
    0 < splitLen lcExtension crit files := by
  obtain ⟨file, files, rfl⟩ := List.exists_cons_of_ne_nil hne
  cases crit with
  | groupNone => exact Nat.one_pos
  | groupByExt => simp [splitLen, groupOn]
  | groupBySize size => simp only [splitLen]; omega
  | groupByBlockSize size => simp only [splitLen]; omega
  | groupByNumber n => simp only [splitLen]; omega
  | groupAll => simp [splitLen, maxBound]

/-- `splitLenMin` takes at least one file. -/
lemma splitLenMin_pos (crit : Grouping) {files : List (FileToCompress w)} (hne : files ≠ []) :
    0 < splitLenMin lcExtension crit files := by
  cases crit with
  | groupNone => exact splitLen_pos lcExtension .groupNone hne
  | groupByExt => exact splitLen_pos lcExtension .groupByExt hne
  | groupBySize size => exact splitLen_pos lcExtension (.groupBySize (size / 2)) hne
  | groupByBlockSize size => exact splitLen_pos lcExtension (.groupByBlockSize (size / 3)) hne
  | groupByNumber n => exact splitLen_pos lcExtension (.groupByNumber (n / 2)) hne
  | groupAll => exact splitLen_pos lcExtension .groupAll hne

/-- The least of the lengths for some criteria is positive. -/
lemma minimum_map_pos {f : Grouping → ℕ} (hf : ∀ crit, 0 < f crit) {crits : List Grouping}
    (hne : crits ≠ []) : 0 < minimum (crits.map f) := by
  have hmem := minimum_mem (mt List.map_eq_nil_iff.mp hne : crits.map f ≠ [])
  obtain ⟨crit, -, heq⟩ := List.mem_map.mp hmem
  exact heq ▸ hf crit

/-- `computeLen` takes at least one file. -/
lemma computeLen_pos {crits : List Grouping} (hcrits : crits ≠ []) (recompress : Bool)
    {files : List (FileToCompress w)} (hne : files ≠ []) :
    0 < computeLen lcExtension crits recompress files := by
  have hnew := minimum_map_pos (fun c => splitLen_pos lcExtension c hne) hcrits
  have hmin := minimum_map_pos (fun c => splitLenMin_pos lcExtension c hne) hcrits
  unfold computeLen
  dsimp only
  split
  · exact hnew
  · split
    case h_1 n hold => exact solidBlockLen_pos hold
    case h_2 =>
      split
      case h_1 n hpos =>
        have hle := le_findSolidBlock hpos
        split <;> omega
      case h_2 => exact hnew

/-! ## The loop -/

/-- The loop chops the list. -/
lemma splitByLen_spec {lenF : List α → ℕ} (hlen : ∀ xs ≠ [], 0 < lenF xs) {fuel : ℕ} {xs : List α}
    (hfuel : xs.length < fuel) : ∃ pieces, splitByLen lenF fuel xs = some pieces ∧ Chopped lenF xs pieces := by
  induction fuel generalizing xs with
  | zero => exact absurd hfuel (Nat.not_lt_zero _)
  | succ fuel ih =>
    by_cases hne : xs = []
    · exact ⟨[], if_pos hne, hne ▸ .nil⟩
    · have hpos := hlen xs hne
      have hxs := List.length_pos_iff.mpr hne
      have hless : (xs.drop (lenF xs)).length < fuel := by
        rw [List.length_drop]
        omega
      obtain ⟨pieces, heq, hpieces⟩ := ih hless
      exact ⟨_, (if_neg hne).trans (by rw [heq]; rfl), .cons hne hpos hpieces⟩

/-- More fuel does not change the result. -/
lemma splitByLen_steady (lenF : List α → ℕ) (xs : List α) : Steady fun fuel => splitByLen lenF fuel xs := by
  intro fuel pieces h
  induction fuel generalizing xs pieces with
  | zero => cases h
  | succ fuel ih =>
    dsimp only at h ⊢
    rw [splitByLen] at h ⊢
    split at h
    case isTrue hnil => rwa [if_pos hnil]
    case isFalse hne =>
      obtain ⟨rest, hrest, rfl⟩ := Option.map_eq_some_iff.mp h
      have hmore : splitByLen lenF (fuel + 1) (xs.drop (lenF xs)) = some rest := ih _ _ hrest
      rw [if_neg hne, hmore]
      rfl

/-- What the loop returns is chopped. -/
lemma chopped_of_splitByLen {lenF : List α → ℕ} (hlen : ∀ xs ≠ [], 0 < lenF xs) {fuel : ℕ} {xs : List α}
    {pieces : List (List α)} (h : splitByLen lenF fuel xs = some pieces) : Chopped lenF xs pieces := by
  have hfuel : xs.length < max fuel (xs.length + 1) := lt_of_lt_of_le (Nat.lt_succ_self _) (le_max_right _ _)
  obtain ⟨found, hfound, hchop⟩ := splitByLen_spec hlen hfuel
  have hmore := (splitByLen_steady lenF xs).of_le (le_max_left fuel (xs.length + 1)) h
  exact Option.some.inj (hmore.symm.trans hfound) ▸ hchop

/-- More fuel does not change the result. -/
lemma splitBy_steady (crits : List Grouping) (recompress : Bool) (files : List (FileToCompress w)) :
    Steady fun fuel => splitBy lcExtension crits recompress fuel files := by
  unfold splitBy
  split
  · exact steady_const _
  · exact splitByLen_steady _ files

/-- `splitBy` ends with blocks that are not empty and make the list. -/
lemma splitBy_spec (crits : List Grouping) (recompress : Bool) {fuel : ℕ} {files : List (FileToCompress w)}
    (hfuel : files.length < fuel) (hne : files ≠ []) :
    ∃ blocks, splitBy lcExtension crits recompress fuel files = some blocks ∧ (∀ b ∈ blocks, b ≠ []) ∧
      blocks.flatten = files ∧
      (crits ≠ [] → Chopped (computeLen lcExtension crits recompress) files blocks) := by
  by_cases hcrits : crits = []
  · refine ⟨[files], if_pos hcrits, fun b hb => ?_, List.flatten_singleton, fun h => absurd hcrits h⟩
    exact List.mem_singleton.mp hb ▸ hne
  · obtain ⟨blocks, heq, hchop⟩ :=
      splitByLen_spec (fun xs hxs => computeLen_pos lcExtension hcrits recompress hxs) hfuel
    exact ⟨blocks, (if_neg hcrits).trans heq, fun b hb => hchop.ne_nil hb, hchop.flatten, fun _ => hchop⟩

/-- When old blocks are not repacked, an old block at the start of what is left is the next block. -/
lemma splitBy_keeps {crits : List Grouping} {files : List (FileToCompress w)}
    {before after : List (List (FileToCompress w))} {b : List (FileToCompress w)}
    (hchop : Chopped (computeLen lcExtension crits false) files (before ++ b :: after)) {n : ℕ}
    (hold : solidBlockLen (b :: after).flatten = some n) : b = (b :: after).flatten.take n := by
  have hpiece := hchop.piece_eq
  have hlen : computeLen lcExtension crits false (b :: after).flatten = n := by
    unfold computeLen
    simp only [hold]
    rfl
  rwa [hlen] at hpiece

end

end DArc.FileList
