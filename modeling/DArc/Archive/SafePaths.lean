import DArc.Archive.Paths

/-!
# Safe paths

A path is safe when it has no drive and no component `..`: joined to a directory, it stays below the
directory.

### Outline

* `SafeRelative`: safe paths, `Headless`, `pieces`;
* `glue`: what `combineAlways` puts between its parts;
* `SafePath`: paths none of whose components is `..` or has a drive letter.

### Main results

* `safeRelative_combine`: a joined path is safe if and only if both parts are;
* `combine_assoc`: below a directory, joining is associative;
* `safePath_dropDrive_combine`: a drive in front of a path of safe components is dropped again.
-/

namespace DArc.Archive

/-! ## Safe paths -/

/-- The components between separators. -/
def pieces (win : Bool) (x : Str) : List Str := x.splitOnP (isPathSeparator win)

/-- The path has a component `..`. -/
def HasParent (win : Bool) (x : Str) : Prop := parentDir ∈ pieces win x

/-- A relative path that stays below the directory it is relative to. -/
def SafeRelative (win : Bool) (x : Str) : Prop := hasDrive win x = false ∧ ¬ HasParent win x

/-- The path does not begin with a separator. -/
def Headless (win : Bool) (x : Str) : Prop := ∀ c ∈ x.head?, isPathSeparator win c = false

/-- A letter is not a separator. -/
lemma isPathSeparator_letter {win : Bool} {c : Chr} (h : isLetter c = true) :
    isPathSeparator win c = false := by
  refine notSeparator ?_ ?_
  · rintro rfl
    exact absurd h (by decide)
  · rintro rfl
    exact absurd h (by decide)

/-- A colon is not a separator. -/
lemma isPathSeparator_colon (win : Bool) : isPathSeparator win colon = false := by
  cases win <;> decide

/-- A question mark is not a separator. -/
lemma isPathSeparator_question (win : Bool) : isPathSeparator win question = false := by
  cases win <;> decide

/-- A path that begins with a separator has a drive. -/
lemma hasDrive_of_separator {win : Bool} {c : Chr} {x : Str} (h : isPathSeparator win c = true) :
    hasDrive win (c :: x) = true := by
  unfold hasDrive takeDrive
  cases win with
  | false =>
    have hc : c = slash := by simpa [isPathSeparator, pathSeparators] using h
    unfold splitDrive
    rw [if_pos (by decide)]
    dsimp only
    rw [List.takeWhile_cons_of_pos (by simpa using hc)]
    rfl
  | true =>
    have hletter : readDriveLetter true (c :: x) = none := by
      cases x with
      | nil => rfl
      | cons d x =>
        unfold readDriveLetter
        dsimp only
        rw [if_neg]
        rintro ⟨-, hc⟩
        rw [isPathSeparator_letter hc] at h
        cases h
    unfold splitDrive
    rw [if_neg (by decide), hletter]
    dsimp only
    split
    · next y hy =>
      unfold readDriveUNC at hy
      split at hy
      · split at hy
        · split at hy
          · obtain rfl := Option.some.inj hy
            rfl
          · split at hy
            · obtain rfl := Option.some.inj hy
              rfl
            · cases hy
        · cases hy
      · cases hy
    · split
      · next y hy =>
        unfold readDriveShare at hy
        split at hy
        · split at hy
          · obtain rfl := Option.some.inj hy
            rfl
          · cases hy
        · cases hy
      · rw [if_pos h]
        rfl

/-- On Windows a path that begins with a drive letter has a drive. -/
lemma hasDrive_of_letter {x : Str} (h : BeginsWithDrive x) : hasDrive true x = true := by
  match x, h with
  | y :: c :: x, h =>
    have hletter : ∃ z, readDriveLetter true (y :: c :: x) = some z ∧ z.1 ≠ [] := by
      unfold readDriveLetter
      dsimp only
      rw [if_pos ⟨h.2, h.1⟩]
      cases x with
      | nil => exact ⟨_, rfl, List.cons_ne_nil _ _⟩
      | cons z zs =>
        dsimp only
        split
        · exact ⟨_, rfl, List.cons_ne_nil _ _⟩
        · exact ⟨_, rfl, List.cons_ne_nil _ _⟩
    obtain ⟨z, hz, hne⟩ := hletter
    unfold hasDrive takeDrive splitDrive
    rw [if_neg (by decide), hz]
    simpa using hne

/-- A path has no drive if and only if it begins neither with a separator nor, on Windows, with a
drive letter. -/
lemma hasDrive_eq_false_iff {win : Bool} {x : Str} :
    hasDrive win x = false ↔ Headless win x ∧ (win = true → ¬ BeginsWithDrive x) := by
  constructor
  · intro h
    refine ⟨fun c hc => ?_, ?_⟩
    · obtain ⟨y, rfl⟩ := List.head?_eq_some_iff.mp (Option.mem_def.mp hc)
      by_contra hsep
      rw [hasDrive_of_separator (by simpa using hsep)] at h
      cases h
    · rintro rfl hdrive
      rw [hasDrive_of_letter hdrive] at h
      cases h
  · rintro ⟨hsep, hdrive⟩
    exact hasDrive_eq_false hsep hdrive

/-- The components on both sides of a separator. -/
lemma pieces_append_cons {win : Bool} {s : Chr} (hs : isPathSeparator win s = true) (x y : Str) :
    pieces win (x ++ s :: y) = pieces win x ++ pieces win y :=
  List.splitOnP_append_cons x y hs

/-- A path without separators is its only component. -/
lemma pieces_eq_singleton {win : Bool} {x : Str} (h : ∀ c ∈ x, isPathSeparator win c = false) :
    pieces win x = [x] :=
  List.splitOnP_eq_singleton h

/-- A path on both sides of a separator has a `..` on one of them. -/
lemma hasParent_append_cons {win : Bool} {s : Chr} (hs : isPathSeparator win s = true) (x y : Str) :
    HasParent win (x ++ s :: y) ↔ HasParent win x ∨ HasParent win y := by
  unfold HasParent
  rw [pieces_append_cons hs, List.mem_append]

/-- `..` is a path with a component `..`. -/
lemma hasParent_parentDir (win : Bool) : HasParent win parentDir := by
  have hdot : isPathSeparator win dot = false := by cases win <;> decide
  have hpieces : pieces win parentDir = [parentDir] :=
    pieces_eq_singleton (List.forall_mem_cons.mpr ⟨hdot, List.forall_mem_singleton.mpr hdot⟩)
  unfold HasParent
  rw [hpieces]
  exact List.mem_singleton_self parentDir

/-- The empty path has no `..`. -/
lemma not_hasParent_nil (win : Bool) : ¬ HasParent win [] := by
  unfold HasParent pieces
  rw [List.splitOnP_nil]
  decide

/-- A path that begins with a drive letter has a component that does. -/
lemma beginsWithDrive_piece (win : Bool) {x : Str} (h : BeginsWithDrive x) :
    ∃ q ∈ pieces win x, BeginsWithDrive q := by
  match x, h with
  | y :: c :: x, h =>
    obtain ⟨q, qs, hq⟩ := List.exists_cons_of_ne_nil (List.splitOnP_ne_nil (isPathSeparator win) x)
    have hy : ¬ isPathSeparator win y = true := by simp [isPathSeparator_letter h.1]
    have hc : ¬ isPathSeparator win c = true := by simp [h.2, isPathSeparator_colon]
    refine ⟨y :: c :: q, ?_, h⟩
    unfold pieces
    rw [List.splitOnP_cons_eq_if_modifyHead, if_neg hy, List.splitOnP_cons_eq_if_modifyHead, if_neg hc,
      hq]
    exact List.mem_cons_self

/-! ## Joined paths -/

/-- The path is a drive letter and a colon. -/
def isDriveLetter : Str → Bool
  | [x, c] => c = colon && isLetter x
  | _ => false

/-- What `combineAlways` puts behind its first path. -/
def glue (win : Bool) (a : Str) : Str :=
  if a.getLast?.any (isPathSeparator win) || win && isDriveLetter a then [] else [slash]

/-- A drive letter and a colon are a drive. -/
lemma isDrive_of_isDriveLetter {a : Str} (h : isDriveLetter a = true) : isDrive true a = true := by
  match a, h with
  | [x, c], h =>
    have hc : c = colon ∧ isLetter x = true := by simpa [isDriveLetter] using h
    have hletter : readDriveLetter true [x, c] = some ([x, c], []) := by
      unfold readDriveLetter
      dsimp only
      rw [if_pos hc]
    unfold isDrive dropDrive splitDrive
    rw [if_neg (by decide), hletter]
    rfl

/-- On Posix a drive ends in a separator. -/
lemma getLast_of_isDrive {a : Str} (h : isDrive false a = true) (hne : a ≠ []) :
    a.getLast?.any (isPathSeparator false) = true := by
  have hall : ∀ c ∈ a, decide (c = slash) = true := by
    have hdrop : a.dropWhile (· = slash) = [] := by simpa [isDrive, dropDrive, splitDrive] using h
    exact List.dropWhile_eq_nil_iff.mp hdrop
  rw [List.getLast?_eq_some_getLast hne, Option.any_some, of_decide_eq_true
    (hall _ (List.getLast_mem hne))]
  decide

/-- `combineAlways` on paths that are not empty. -/
lemma combineAlways_eq {win : Bool} {a b : Str} (ha : a ≠ []) (hb : b ≠ []) :
    combineAlways win a b = a ++ glue win a ++ b := by
  unfold combineAlways glue
  rw [if_neg ha, if_neg hb]
  cases hlast : a.getLast?.any (isPathSeparator win) with
  | true => rw [if_pos rfl, if_pos (by simp), List.append_nil]
  | false =>
    rw [if_neg (by decide), Bool.false_or]
    cases win with
    | false =>
      have hdrive : ¬ isDrive false a = true := fun h => by
        rw [getLast_of_isDrive h ha] at hlast
        cases hlast
      rw [if_neg hdrive, if_neg (by simp)]
      rfl
    | true =>
      cases hletter : isDriveLetter a with
      | true =>
        rw [if_pos (isDrive_of_isDriveLetter hletter), if_pos (by decide)]
        match a, hletter with
        | [x, c], hletter =>
          have hc : c = colon ∧ isLetter x = true := by simpa [isDriveLetter] using hletter
          unfold joinDrive
          rw [if_neg (by decide), if_neg ha, if_neg hb, hlast, if_neg (by decide)]
          dsimp only
          rw [if_pos hc, List.append_nil]
      | false =>
        have hjoin : joinDrive true a b = a ++ [pathSeparator] ++ b := by
          unfold joinDrive
          rw [if_neg (by decide), if_neg ha, if_neg hb, hlast, if_neg (by decide)]
          split
          · next x c =>
            have hc : ¬ (c = colon ∧ isLetter x = true) := by
              simpa [isDriveLetter] using hletter
            rw [if_neg hc]
          · rfl
        rw [hjoin, ite_self]
        rfl

/-- The last character decides what is put behind a path that is not just a drive letter. -/
lemma glue_of_not_isDriveLetter (win : Bool) {a : Str} (h : isDriveLetter a = false) :
    glue win a = if a.getLast?.any (isPathSeparator win) then [] else [slash] := by
  unfold glue
  rw [h, Bool.and_false, Bool.or_false]

/-- The last character decides what is put behind a path that is no drive. -/
lemma glue_eq {win : Bool} {a : Str} (h : win = true → ¬ BeginsWithDrive a) :
    glue win a = if a.getLast?.any (isPathSeparator win) then [] else [slash] := by
  cases hletter : isDriveLetter a with
  | false => exact glue_of_not_isDriveLetter win hletter
  | true =>
    match a, hletter with
    | [x, c], hletter =>
      have hc : c = colon ∧ isLetter x = true := by simpa [isDriveLetter] using hletter
      cases win with
      | true => exact absurd ⟨hc.2, hc.1⟩ (h rfl)
      | false => simp [glue]

/-- A path and what is put behind it end in a separator, unless the path is a drive letter. -/
lemma append_glue (win : Bool) {a : Str} (hne : a ≠ []) :
    (∃ b s, a ++ glue win a = b ++ [s] ∧ isPathSeparator win s = true ∧
      (HasParent win b ↔ HasParent win a)) ∨ win = true ∧ isDriveLetter a = true ∧ glue win a = [] := by
  unfold glue
  cases hlast : a.getLast?.any (isPathSeparator win) with
  | true =>
    obtain ⟨b, s, rfl⟩ := List.eq_nil_or_concat'  a |>.resolve_left hne
    have hs : isPathSeparator win s = true := by simpa using hlast
    refine Or.inl ⟨b, s, by simp, hs, ?_⟩
    rw [hasParent_append_cons hs, or_iff_left (not_hasParent_nil win)]
  | false =>
    cases hletter : win && isDriveLetter a with
    | true =>
      obtain ⟨hwin, hletter⟩ := Bool.and_eq_true_iff.mp hletter
      exact Or.inr ⟨hwin, hletter, by simp⟩
    | false => exact Or.inl ⟨a, slash, by simp, (isPathSeparator_slash win).1, Iff.rfl⟩

/-- A path in front of another one decides whether the joined path has a drive. -/
lemma hasDrive_combineAlways {win : Bool} {a b : Str} (ha : a ≠ []) :
    hasDrive win (combineAlways win a b) = hasDrive win a := by
  by_cases hb : b = []
  · subst hb
    unfold combineAlways
    rw [if_neg ha, if_pos rfl]
  · rw [combineAlways_eq ha hb, Bool.eq_iff_iff, ← Bool.not_eq_false, ← Bool.not_eq_false, not_iff_not,
      hasDrive_eq_false_iff, hasDrive_eq_false_iff]
    obtain ⟨x, a, rfl⟩ := List.exists_cons_of_ne_nil ha
    have hhead : ∀ y : Str, Headless win (x :: y) ↔ isPathSeparator win x = false := fun y =>
      ⟨fun h => h x rfl, fun h c hc => by obtain rfl := Option.some.inj hc; exact h⟩
    have hdrive : isPathSeparator win x = false → win = true →
        (BeginsWithDrive (x :: a ++ glue win (x :: a) ++ b) ↔ BeginsWithDrive (x :: a)) := by
      rintro hx rfl
      cases a with
      | nil =>
        have hglue : glue true [x] = [slash] := by simp [glue, hx, isDriveLetter]
        rw [hglue]
        exact iff_of_false (fun h => absurd h.2 (by decide)) id
      | cons y a => exact Iff.rfl
    rw [List.cons_append, List.cons_append, hhead, hhead]
    constructor
    · rintro ⟨hx, h⟩
      exact ⟨hx, fun hwin hd => h hwin ((hdrive hx hwin).mpr hd)⟩
    · rintro ⟨hx, h⟩
      exact ⟨hx, fun hwin hd => h hwin ((hdrive hx hwin).mp hd)⟩

/-- A joined path has the components of both parts. -/
lemma hasParent_combineAlways {win : Bool} {a b : Str} (hdrive : hasDrive win a = false) :
    HasParent win (combineAlways win a b) ↔ HasParent win a ∨ HasParent win b := by
  by_cases ha : a = []
  · subst ha
    unfold combineAlways
    rw [if_pos rfl, or_iff_right (not_hasParent_nil win)]
  · by_cases hb : b = []
    · subst hb
      unfold combineAlways
      rw [if_neg ha, if_pos rfl, or_iff_left (not_hasParent_nil win)]
    · rw [combineAlways_eq ha hb]
      rcases append_glue win ha with ⟨c, s, hc, hs, hparent⟩ | ⟨rfl, hletter, -⟩
      · rw [hc, List.append_assoc, List.singleton_append, hasParent_append_cons hs, hparent]
      · obtain ⟨-, hnot⟩ := hasDrive_eq_false_iff.mp hdrive
        match a, hletter with
        | [x, c], hletter =>
          have hc : c = colon ∧ isLetter x = true := by simpa [isDriveLetter] using hletter
          exact absurd ⟨hc.2, hc.1⟩ (hnot rfl)

/-- The empty path is safe. -/
lemma safeRelative_nil (win : Bool) : SafeRelative win [] :=
  ⟨by cases win <;> rfl, not_hasParent_nil win⟩

/-- **Joined paths**: a joined path is safe if and only if both parts are. -/
theorem safeRelative_combine {win : Bool} {a b : Str} :
    SafeRelative win (combine win a b) ↔ SafeRelative win a ∧ SafeRelative win b := by
  unfold combine
  cases hb : hasDrive win b with
  | true =>
    rw [if_pos rfl]
    have hunsafe : ¬ SafeRelative win b := fun h => by
      rw [h.1] at hb
      cases hb
    exact iff_of_false hunsafe fun h => hunsafe h.2
  | false =>
    rw [if_neg (by decide)]
    by_cases ha : a = []
    · subst ha
      have hnil : combineAlways win [] b = b := if_pos rfl
      rw [hnil, and_iff_right (safeRelative_nil win)]
    · unfold SafeRelative
      rw [hasDrive_combineAlways ha, hb]
      constructor
      · rintro ⟨hdrive, hparent⟩
        rw [hasParent_combineAlways hdrive, not_or] at hparent
        exact ⟨⟨hdrive, hparent.1⟩, rfl, hparent.2⟩
      · rintro ⟨⟨hdrive, ha⟩, -, hb⟩
        rw [hasParent_combineAlways hdrive, not_or]
        exact ⟨hdrive, ha, hb⟩

/-- Below a directory, joining is associative. -/
lemma combine_assoc {win : Bool} {dest a b : Str} (ha : hasDrive win a = false)
    (hb : hasDrive win b = false) :
    combine win (combine win dest a) b = combine win dest (combine win a b) := by
  have hab : hasDrive win (combineAlways win a b) = false := by
    by_cases hnil : a = []
    · subst hnil
      exact hb
    · rw [hasDrive_combineAlways hnil, ha]
  have hnil : ∀ x : Str, combineAlways win [] x = x := fun x => if_pos rfl
  have hnil' : ∀ x : Str, combineAlways win x [] = x := fun x => by
    unfold combineAlways
    split
    · next h => exact h.symm
    · exact if_pos rfl
  unfold combine
  simp only [ha, hb, hab, Bool.false_eq_true, if_false]
  by_cases hane : a = []
  · rw [hane, hnil', hnil]
  by_cases hbne : b = []
  · rw [hbne, hnil', hnil']
  by_cases hdne : dest = []
  · rw [hdne, hnil, hnil]
  have hdrive := (hasDrive_eq_false_iff.mp ha).2
  have hne : dest ++ glue win dest ++ a ≠ [] := List.append_ne_nil_of_right_ne_nil _ hane
  have hne' : a ++ glue win a ++ b ≠ [] := List.append_ne_nil_of_right_ne_nil _ hbne
  -- What is put between the parts depends on the last character of the part in front of it.
  have hglue : glue win (dest ++ glue win dest ++ a) = glue win a := by
    have hletter : isDriveLetter (dest ++ glue win dest ++ a) = false := by
      obtain ⟨x, d, rfl⟩ := List.exists_cons_of_ne_nil hdne
      obtain ⟨y, e, rfl⟩ := List.exists_cons_of_ne_nil hane
      cases d with
      | cons z d => simp [isDriveLetter]
      | nil =>
        cases hx : isLetter x with
        | true =>
          have hglue : glue win [x] = [slash] := by
            simp [glue, isPathSeparator_letter hx, isDriveLetter]
          simp [hglue, isDriveLetter]
        | false =>
          unfold isDriveLetter
          split
          · next heq =>
            obtain ⟨rfl, -⟩ := List.cons.inj heq
            simp [hx]
          · rfl
    have hlast : (dest ++ glue win dest ++ a).getLast? = a.getLast? := by
      rw [List.getLast?_append, Option.or_of_isSome (by simpa using hane)]
    rw [glue_eq hdrive, ← hlast, glue_of_not_isDriveLetter win hletter]
  rw [combineAlways_eq hdne hane, combineAlways_eq hne hbne, hglue, combineAlways_eq hane hbne,
    combineAlways_eq hdne hne']
  simp only [List.append_assoc]

/-! ## Drives in front of safe components -/

/-- A path whose components are not `..` and, on Windows, have no drive letters. -/
structure SafePath (win : Bool) (x : Str) : Prop where
  /-- The path does not begin with a separator. -/
  headless : Headless win x
  /-- No component is `..`. -/
  noParent : ¬ HasParent win x
  /-- On Windows no component has a drive letter. -/
  noDrive : win = true → ∀ q ∈ pieces win x, ¬ BeginsWithDrive q

/-- Such a path does not begin with a drive letter. -/
lemma SafePath.not_beginsWithDrive {win : Bool} {x : Str} (h : SafePath win x) (hwin : win = true) :
    ¬ BeginsWithDrive x := fun hdrive => by
  obtain ⟨q, hq, hletter⟩ := beginsWithDrive_piece win hdrive
  exact h.noDrive hwin q hq hletter

/-- Such a path is safe. -/
lemma SafePath.safeRelative {win : Bool} {x : Str} (h : SafePath win x) : SafeRelative win x :=
  ⟨hasDrive_eq_false_iff.mpr ⟨h.headless, h.not_beginsWithDrive⟩, h.noParent⟩

/-- The empty path is such a path. -/
lemma safePath_nil (win : Bool) : SafePath win [] where
  headless c hc := by cases hc
  noParent := not_hasParent_nil win
  noDrive _ q hq := by
    obtain rfl := List.mem_singleton.mp hq
    exact id

/-- What is behind a separator is such a path, unless it begins with a separator. -/
lemma SafePath.behind {win : Bool} {x y : Str} {s : Chr} (h : SafePath win (x ++ s :: y))
    (hs : isPathSeparator win s = true) (hy : Headless win y) : SafePath win y where
  headless := hy
  noParent hparent := h.noParent ((hasParent_append_cons hs x y).mpr (Or.inr hparent))
  noDrive hwin q hq := h.noDrive hwin q (by
    rw [pieces_append_cons hs]
    exact List.mem_append_right _ hq)

/-- Safe components make such a path. -/
lemma safePath_joinWith {win : Bool} {ps : List Str} (h : ∀ p ∈ ps, SafeComponent win p) :
    SafePath win (joinWith [slash] ps) := by
  have hpieces : ∀ q ∈ pieces win (joinWith [slash] ps), q = [] ∨ SafeComponent win q := by
    induction ps with
    | nil => exact fun q hq => Or.inl (List.mem_singleton.mp hq)
    | cons p ps ih =>
      have hp := h p List.mem_cons_self
      intro q hq
      by_cases hps : ps = []
      · subst hps
        rw [joinWith, pieces_eq_singleton hp.notSeparator] at hq
        exact Or.inr ((List.mem_singleton.mp hq) ▸ hp)
      · rw [joinWith_cons _ _ hps, List.append_assoc, List.singleton_append,
          pieces_append_cons (isPathSeparator_slash win).1, pieces_eq_singleton hp.notSeparator] at hq
        rcases List.mem_cons.mp hq with rfl | hq
        · exact Or.inr hp
        · exact ih (fun q hq => h q (List.mem_cons_of_mem _ hq)) q hq
  refine ⟨?_, fun hparent => ?_, fun hwin q hq => ?_⟩
  · cases ps with
    | nil => exact (safePath_nil win).headless
    | cons p ps =>
      exact (beginning_joinWith (isPathSeparator_slash win).2 (h p List.mem_cons_self) ps).1
  · rcases hpieces _ hparent with hnil | hsafe
    · exact absurd hnil (by decide)
    · exact hsafe.ne_parentDir rfl
  · rcases hpieces q hq with rfl | hsafe
    · exact id
    · exact hsafe.noDrive hwin

section

variable {win : Bool} {seps x : Str}

/-- Separators in front of a path that does not begin with one. -/
lemma takeWhile_separators (hseps : ∀ c ∈ seps, isPathSeparator win c = true) (hx : Headless win x) :
    (seps ++ x).takeWhile (isPathSeparator win) = seps ∧
      (seps ++ x).dropWhile (isPathSeparator win) = x := by
  rw [List.takeWhile_append_of_pos hseps, List.dropWhile_append_of_pos hseps]
  cases x with
  | nil => exact ⟨List.append_nil _, rfl⟩
  | cons c x =>
    have hc : ¬ isPathSeparator win c = true := by simp [hx c rfl]
    rw [List.takeWhile_cons_of_neg hc, List.dropWhile_cons_of_neg hc]
    exact ⟨List.append_nil _, rfl⟩

/-- A drive letter and separators in front of a path. -/
lemma readDriveLetter_append {y : Chr} (hy : isLetter y = true)
    (hseps : ∀ c ∈ seps, isPathSeparator win c = true) (hx : Headless win x) :
    readDriveLetter win (y :: colon :: (seps ++ x)) = some (y :: colon :: seps, x) := by
  unfold readDriveLetter
  dsimp only
  rw [if_pos ⟨rfl, hy⟩]
  cases seps with
  | nil =>
    cases x with
    | nil => rfl
    | cons c x =>
      have hc : isPathSeparator win c = false := hx c rfl
      rw [List.nil_append]
      dsimp only
      rw [hc, if_neg (by decide)]
  | cons c seps =>
    obtain ⟨htake, hdrop⟩ := takeWhile_separators hseps hx
    rw [List.cons_append] at htake hdrop ⊢
    dsimp only
    rw [if_pos (hseps c List.mem_cons_self)]
    unfold addSlash
    rw [htake, hdrop]
    rfl

/-- A drive that is a letter is followed by a colon and separators. -/
lemma readDriveLetter_eq_some {path d rest : Str} (h : readDriveLetter win path = some (d, rest)) :
    ∃ y seps, isLetter y = true ∧ d = y :: colon :: seps ∧
      (∀ c ∈ seps, isPathSeparator win c = true) ∧ path = d ++ rest ∧ Headless win rest := by
  unfold readDriveLetter at h
  split at h
  · next y c xs =>
    split at h
    · next hc =>
      obtain ⟨rfl, hy⟩ := hc
      split at h
      · next z zs =>
        split at h
        · obtain ⟨rfl, rfl⟩ := Prod.mk.inj (Option.some.inj h)
          refine ⟨y, (z :: zs).takeWhile (isPathSeparator win), hy, rfl,
            fun c hc => List.mem_takeWhile_imp hc, ?_, fun c hc => ?_⟩
          · simp [List.takeWhile_append_dropWhile]
          · have hnot := List.head?_dropWhile_not (isPathSeparator win) (z :: zs)
            rw [Option.mem_def.mp hc] at hnot
            simpa using hnot
        · next hz =>
          obtain ⟨rfl, rfl⟩ := Prod.mk.inj (Option.some.inj h)
          refine ⟨y, [], hy, rfl, by simp, rfl, fun c hc => ?_⟩
          obtain rfl := Option.some.inj hc
          simpa using hz
      · obtain ⟨rfl, rfl⟩ := Prod.mk.inj (Option.some.inj h)
        exact ⟨y, [], hy, rfl, by simp, rfl, fun c hc => by cases hc⟩
    · cases h
  · cases h

/-- A name and separators in front of a path. -/
lemma readDriveShareName_append {name : Str} (hname : ∀ c ∈ name, isPathSeparator win c = false)
    (hseps : ∀ c ∈ seps, isPathSeparator win c = true) (hx : Headless win x)
    (hnil : seps = [] → x = []) :
    readDriveShareName win (name ++ (seps ++ x)) = (name ++ seps, x) := by
  have hall : ∀ c ∈ name, (!isPathSeparator win c) = true := fun c hc => by simp [hname c hc]
  have htake : (seps ++ x).takeWhile (fun c => !isPathSeparator win c) = [] ∧
      (seps ++ x).dropWhile (fun c => !isPathSeparator win c) = seps ++ x := by
    cases seps with
    | nil =>
      rw [hnil rfl]
      exact ⟨rfl, rfl⟩
    | cons c seps =>
      have hc : ¬ (!isPathSeparator win c) = true := by simp [hseps c List.mem_cons_self]
      exact ⟨List.takeWhile_cons_of_neg hc, List.dropWhile_cons_of_neg hc⟩
  obtain ⟨htake', hdrop'⟩ := takeWhile_separators hseps hx
  unfold readDriveShareName addSlash
  rw [List.takeWhile_append_of_pos hall, List.dropWhile_append_of_pos hall, htake.1, htake.2, htake',
    hdrop', List.append_nil]

/-- A path is a name, separators and the rest, and there is no rest without separators. -/
lemma readDriveShareName_eq {path d rest : Str} (h : readDriveShareName win path = (d, rest)) :
    ∃ name seps, d = name ++ seps ∧ path = name ++ (seps ++ rest) ∧
      (∀ c ∈ name, isPathSeparator win c = false) ∧ (∀ c ∈ seps, isPathSeparator win c = true) ∧
      Headless win rest ∧ (seps = [] → rest = []) := by
  unfold readDriveShareName addSlash at h
  obtain ⟨rfl, rfl⟩ := Prod.mk.inj h
  refine ⟨_, _, rfl, ?_, fun c hc => ?_, fun c hc => List.mem_takeWhile_imp hc, fun c hc => ?_,
    fun hnil => ?_⟩
  · rw [List.takeWhile_append_dropWhile, List.takeWhile_append_dropWhile]
  · simpa using List.mem_takeWhile_imp hc
  · have hnot := List.head?_dropWhile_not (isPathSeparator win)
      (path.dropWhile fun c => !isPathSeparator win c)
    rw [Option.mem_def.mp hc] at hnot
    simpa using hnot
  · cases hdrop : path.dropWhile fun c => !isPathSeparator win c with
    | nil => rfl
    | cons c rest =>
      have hnot := List.head?_dropWhile_not (fun c => !isPathSeparator win c) path
      rw [hdrop] at hnot hnil
      have hc : isPathSeparator win c = true := by simpa using hnot
      rw [List.takeWhile_cons_of_pos hc] at hnil
      cases hnil

end

/-- What is behind a name does not begin with a separator. -/
lemma headless_readDriveShareName (win : Bool) (path : Str) :
    Headless win (readDriveShareName win path).2 := by
  obtain ⟨d, rest, hd⟩ : ∃ d rest, readDriveShareName win path = (d, rest) := ⟨_, _, rfl⟩
  obtain ⟨-, -, -, -, -, -, hhead, -⟩ := readDriveShareName_eq hd
  rw [hd]
  exact hhead

/-- No drive letter is read at a separator. -/
lemma readDriveLetter_separator {win : Bool} {c : Chr} (hc : isPathSeparator win c = true) (x : Str) :
    readDriveLetter win (c :: x) = none := by
  cases x with
  | nil => rfl
  | cons d x =>
    unfold readDriveLetter
    dsimp only
    rw [if_neg]
    rintro ⟨-, hletter⟩
    rw [isPathSeparator_letter hletter] at hc
    cases hc

/-- The first characters of `UNC` with a separator behind it. -/
lemma startsWithUNC_eq_true {win : Bool} {x : Str} (h : startsWithUNC win x = true) :
    ∃ u n c s rest, x = u :: n :: c :: s :: rest ∧ isPathSeparator win s = true ∧
      isLetter u = true ∧ n ≠ colon := by
  unfold startsWithUNC at h
  split at h
  · next u n c s rest =>
    simp only [Bool.and_eq_true, Bool.or_eq_true, decide_eq_true_eq] at h
    obtain ⟨⟨⟨hu, hn⟩, -⟩, hs⟩ := h
    refine ⟨u, n, c, s, rest, rfl, hs, ?_, ?_⟩
    · unfold isLetter
      rcases hu with hu | hu <;> simp [hu]
    · rintro rfl
      exact absurd hn (by decide)
  · cases h

/-- What follows a name and its separators in a safe path is safe. -/
lemma safePath_readDriveShareName {win : Bool} {x y : Str} {s : Chr}
    (h : SafePath win (x ++ s :: y)) : SafePath win (readDriveShareName win y).2 := by
  obtain ⟨d, rest, hd⟩ : ∃ d rest, readDriveShareName win y = (d, rest) := ⟨_, _, rfl⟩
  obtain ⟨name, seps, -, hy, -, hseps, hrest, hnil⟩ := readDriveShareName_eq hd
  rw [hd]
  rcases List.eq_nil_or_concat' seps with rfl | ⟨init, t, rfl⟩
  · rw [show rest = [] from hnil rfl]
    exact safePath_nil win
  · have hwhole : x ++ s :: y = (x ++ s :: (name ++ init)) ++ t :: rest := by simp [hy]
    rw [hwhole] at h
    exact h.behind (hseps t (by simp)) hrest

/-- What is left of a safe path behind two separators and a name is safe. -/
lemma safePath_dropDrive_share {s₁ s₂ : Chr} (h₁ : isPathSeparator true s₁ = true)
    (h₂ : isPathSeparator true s₂ = true) {name seps x : Str}
    (hname : ∀ c ∈ name, isPathSeparator true c = false)
    (hseps : ∀ c ∈ seps, isPathSeparator true c = true) (hnil : seps = [] → x = [])
    (hx : SafePath true x) : SafePath true (dropDrive true (s₁ :: s₂ :: (name ++ (seps ++ x)))) := by
  have hshare : readDriveShare true (s₁ :: s₂ :: (name ++ (seps ++ x))) =
      some ([s₁, s₂] ++ (name ++ seps), x) := by
    unfold readDriveShare
    dsimp only
    rw [if_pos ⟨h₁, h₂⟩, readDriveShareName_append hname hseps hx.headless hnil]
  have hunc : ∀ y ∈ readDriveUNC true (s₁ :: s₂ :: (name ++ (seps ++ x))), SafePath true y.2 := by
    intro y hy
    unfold readDriveUNC at hy
    split at hy
    · next t₁ t₂ q s₃ xs heq =>
      split at hy
      · next hq =>
        obtain ⟨rfl, -, -, hs₃⟩ := hq
        obtain ⟨-, htail⟩ := List.cons.inj heq
        obtain ⟨-, heq⟩ := List.cons.inj htail
        -- The name is `?`, and the separators begin with `s₃`.
        have hq : isPathSeparator true question = false := isPathSeparator_question true
        obtain ⟨seps', rfl, rfl, rfl⟩ :
            ∃ seps', name = [question] ∧ seps = s₃ :: seps' ∧ xs = seps' ++ x := by
          match name with
          | [] =>
            cases seps with
            | nil =>
              rw [hnil rfl] at heq
              cases heq
            | cons c seps =>
              obtain ⟨rfl, -⟩ := List.cons.inj heq
              rw [hseps question List.mem_cons_self] at hq
              cases hq
          | [c] =>
            obtain ⟨rfl, hseps'⟩ := List.cons.inj heq
            cases seps with
            | nil =>
              rw [hnil rfl] at hseps'
              cases hseps'
            | cons c seps =>
              obtain ⟨rfl, rfl⟩ := List.cons.inj hseps'
              exact ⟨seps, rfl, rfl, rfl⟩
          | c :: d :: name =>
            obtain ⟨-, hrest⟩ := List.cons.inj heq
            obtain ⟨rfl, -⟩ := List.cons.inj hrest
            rw [hname d (by simp)] at hs₃
            cases hs₃
        -- A letter cannot be one of the separators.
        have hletter : ∀ {c : Chr} {rest : Str}, seps' ++ x = c :: rest → isLetter c = true →
            seps' = [] := by
          intro c rest hcons hc
          cases seps' with
          | nil => rfl
          | cons d seps' =>
            obtain ⟨rfl, -⟩ := List.cons.inj hcons
            have hd := hseps d (by simp)
            rw [isPathSeparator_letter hc] at hd
            cases hd
        split at hy
        · next hstart =>
          obtain ⟨u, n, c, s, rest, hrest, -, hu, -⟩ := startsWithUNC_eq_true hstart
          obtain rfl := hletter hrest hu
          rw [List.nil_append] at hrest hy
          obtain rfl := Option.some.inj hy
          subst hrest
          exact safePath_readDriveShareName (x := [u, n, c]) hx
        · split at hy
          · next a b hab =>
            obtain ⟨z, zs, hz, rfl, -, hpath, -⟩ := readDriveLetter_eq_some hab
            obtain rfl := hletter hpath hz
            rw [List.nil_append] at hpath
            refine absurd ?_ (hx.not_beginsWithDrive rfl)
            rw [hpath]
            exact ⟨hz, rfl⟩
          · cases hy
      · cases hy
    · cases hy
  unfold dropDrive splitDrive
  rw [if_neg (by decide), readDriveLetter_separator h₁, hshare]
  dsimp only
  split
  · next y hy => exact hunc y hy
  · exact hx

/-- What is put between a drive and a path that is behind it. -/
lemma combine_of_hasDrive_eq_false {win : Bool} {a x : Str} (ha : a ≠ [])
    (hx : hasDrive win x = false) :
    combine win a x = a ++ ((if x = [] then [] else glue win a) ++ x) := by
  unfold combine
  rw [hx, if_neg (by decide)]
  by_cases hnil : x = []
  · subst hnil
    unfold combineAlways
    rw [if_neg ha, if_pos rfl, if_pos rfl, List.append_nil, List.append_nil]
  · rw [combineAlways_eq ha hnil, if_neg hnil, List.append_assoc]

/-- Nothing is put behind a separator. -/
lemma glue_of_separator {win : Bool} {a : Str} {s : Chr} (hs : isPathSeparator win s = true) :
    glue win (a ++ [s]) = [] := by
  unfold glue
  rw [List.getLast?_concat, Option.any_some, hs, Bool.true_or, if_pos rfl]

/-- Only separators are put behind a drive. -/
lemma glue_separators (win : Bool) (a : Str) : ∀ c ∈ glue win a, isPathSeparator win c = true := by
  unfold glue
  split
  · exact fun c hc => absurd hc List.not_mem_nil
  · exact fun c hc => (List.mem_singleton.mp hc) ▸ (isPathSeparator_slash win).1

/-- A safe path behind a drive letter is what is left without it. -/
lemma dropDrive_letter {y : Chr} (hy : isLetter y = true) {seps x : Str}
    (hseps : ∀ c ∈ seps, isPathSeparator true c = true) (hx : Headless true x) :
    dropDrive true (y :: colon :: (seps ++ x)) = x := by
  unfold dropDrive splitDrive
  rw [if_neg (by decide), readDriveLetter_append hy hseps hx]

/-- `\\?\UNC` and a name in front of a path. -/
lemma dropDrive_unc {s₁ s₂ s₃ : Chr} (h₁ : isPathSeparator true s₁ = true)
    (h₂ : isPathSeparator true s₂ = true) (h₃ : isPathSeparator true s₃ = true) {w name seps x : Str}
    (hw : startsWithUNC true w = true) (hname : ∀ c ∈ name, isPathSeparator true c = false)
    (hseps : ∀ c ∈ seps, isPathSeparator true c = true) (hnil : seps = [] → x = [])
    (hx : Headless true x) :
    dropDrive true (s₁ :: s₂ :: question :: s₃ :: (w.take 4 ++ (name ++ (seps ++ x)))) = x := by
  obtain ⟨u, n, c, s, rest, rfl, -⟩ := startsWithUNC_eq_true hw
  have hstart : startsWithUNC true ([u, n, c, s] ++ (name ++ (seps ++ x))) = true := hw
  have hdrop : ([u, n, c, s] ++ (name ++ (seps ++ x))).drop 4 = name ++ (seps ++ x) := rfl
  have hunc : readDriveUNC true (s₁ :: s₂ :: question :: s₃ ::
      ([u, n, c, s] ++ (name ++ (seps ++ x)))) =
      some ([s₁, s₂, question, s₃] ++ [u, n, c, s] ++ (name ++ seps), x) := by
    unfold readDriveUNC
    dsimp only
    rw [if_pos ⟨rfl, h₁, h₂, h₃⟩, if_pos hstart, hdrop, readDriveShareName_append hname hseps hx hnil]
    rfl
  have htake : (u :: n :: c :: s :: rest).take 4 = [u, n, c, s] := rfl
  unfold dropDrive splitDrive
  rw [if_neg (by decide), readDriveLetter_separator h₁, htake, hunc]

/-- `\\?\` and a drive letter in front of a path. -/
lemma dropDrive_uncLetter {s₁ s₂ s₃ y : Chr} (h₁ : isPathSeparator true s₁ = true)
    (h₂ : isPathSeparator true s₂ = true) (h₃ : isPathSeparator true s₃ = true)
    (hy : isLetter y = true) {seps x : Str} (hseps : ∀ c ∈ seps, isPathSeparator true c = true)
    (hx : Headless true x) :
    dropDrive true (s₁ :: s₂ :: question :: s₃ :: y :: colon :: (seps ++ x)) = x := by
  have hstart : ¬ startsWithUNC true (y :: colon :: (seps ++ x)) = true := fun h => by
    obtain ⟨u, n, c, s, rest, heq, -, -, hn⟩ := startsWithUNC_eq_true h
    obtain ⟨-, heq⟩ := List.cons.inj heq
    exact hn (List.cons.inj heq).1.symm
  have hunc : readDriveUNC true (s₁ :: s₂ :: question :: s₃ :: y :: colon :: (seps ++ x)) =
      some ([s₁, s₂, question, s₃] ++ y :: colon :: seps, x) := by
    unfold readDriveUNC
    dsimp only
    rw [if_pos ⟨rfl, h₁, h₂, h₃⟩, if_neg hstart, readDriveLetter_append hy hseps hx]
  unfold dropDrive splitDrive
  rw [if_neg (by decide), readDriveLetter_separator h₁, hunc]

/-- A single separator in front of a path. -/
lemma dropDrive_separator {c : Chr} (hc : isPathSeparator true c = true) {x : Str}
    (hx : Headless true x) : dropDrive true (c :: x) = x := by
  have hunc : readDriveUNC true (c :: x) = none := by
    unfold readDriveUNC
    split
    · next heq =>
      obtain ⟨-, rfl⟩ := List.cons.inj heq
      rw [if_neg]
      rintro ⟨-, -, hsep, -⟩
      rw [hx _ rfl] at hsep
      cases hsep
    · rfl
  have hshare : readDriveShare true (c :: x) = none := by
    unfold readDriveShare
    split
    · next heq =>
      obtain ⟨-, rfl⟩ := List.cons.inj heq
      rw [if_neg]
      rintro ⟨-, hsep⟩
      rw [hx _ rfl] at hsep
      cases hsep
    · rfl
  unfold dropDrive splitDrive
  rw [if_neg (by decide), readDriveLetter_separator hc, hunc, hshare]
  dsimp only
  rw [if_pos hc]
  exact (takeWhile_separators (List.forall_mem_nil _) hx).2

/-- On Windows a drive, what is put behind it and a safe path are safe without the drive. -/
lemma safePath_dropDrive_windows {path drive rest g x : Str}
    (h : splitDrive true path = (drive, rest)) (hdrive : drive ≠ []) (hx : SafePath true x)
    (hnil : rest = [] → x = []) (hgsep : ∀ c ∈ g, isPathSeparator true c = true)
    (hg : g = if x = [] then [] else glue true drive) :
    SafePath true (dropDrive true (drive ++ (g ++ x))) := by
  have happend : ∀ {seps : Str}, (∀ c ∈ seps, isPathSeparator true c = true) →
      ∀ c ∈ seps ++ g, isPathSeparator true c = true := fun hseps c hc =>
    (List.mem_append.mp hc).elim (hseps c) (hgsep c)
  unfold splitDrive at h
  rw [if_neg (by decide)] at h
  split at h
  · next y hletter =>
    obtain ⟨z, seps, hz, rfl, hseps, -, -⟩ := readDriveLetter_eq_some (hletter.trans (congrArg some h))
    rw [List.cons_append, List.cons_append, ← List.append_assoc,
      dropDrive_letter hz (happend hseps) hx.headless]
    exact hx
  · split at h
    · next y hunc =>
      subst h
      unfold readDriveUNC at hunc
      split at hunc
      · split at hunc
        · next hq =>
          obtain ⟨rfl, h₁, h₂, h₃⟩ := hq
          split at hunc
          · next xs _ hstart =>
            obtain ⟨a, b, hshare⟩ : ∃ a b, readDriveShareName true (xs.drop 4) = (a, b) := ⟨_, _, rfl⟩
            rw [hshare] at hunc
            obtain ⟨rfl, rfl⟩ := Prod.mk.inj (Option.some.inj hunc)
            obtain ⟨name, seps, rfl, -, hname, hseps, -, hend⟩ := readDriveShareName_eq hshare
            have hend' : seps ++ g = [] → x = [] := fun h =>
              hnil (hend (List.append_eq_nil_iff.mp h).1)
            have heq := dropDrive_unc h₁ h₂ h₃ hstart hname (happend hseps) hend' hx.headless
            simp only [List.append_assoc] at heq ⊢
            rw [← heq] at hx
            exact hx
          · split at hunc
            · next a b hletter =>
              obtain ⟨rfl, rfl⟩ := Prod.mk.inj (Option.some.inj hunc)
              obtain ⟨z, seps, hz, rfl, hseps, -, -⟩ := readDriveLetter_eq_some hletter
              have heq := dropDrive_uncLetter h₁ h₂ h₃ hz (happend hseps) hx.headless
              simp only [List.append_assoc] at heq ⊢
              rw [← heq] at hx
              exact hx
            · cases hunc
        · cases hunc
      · cases hunc
    · split at h
      · next y hshare =>
        subst h
        unfold readDriveShare at hshare
        split at hshare
        · next xs _ _ =>
          split at hshare
          · next hs =>
            obtain ⟨a, b, hname⟩ : ∃ a b, readDriveShareName true xs = (a, b) := ⟨_, _, rfl⟩
            rw [hname] at hshare
            obtain ⟨rfl, rfl⟩ := Prod.mk.inj (Option.some.inj hshare)
            obtain ⟨name, seps, rfl, -, hname, hseps, -, hend⟩ := readDriveShareName_eq hname
            have hend' : seps ++ g = [] → x = [] := fun h =>
              hnil (hend (List.append_eq_nil_iff.mp h).1)
            have hsafe := safePath_dropDrive_share hs.1 hs.2 hname (happend hseps) hend' hx
            simp only [List.append_assoc] at hsafe ⊢
            exact hsafe
          · cases hshare
        · cases hshare
      · next hshare =>
        split at h
        · next c xs _ _ =>
          split at h
          · next hc =>
            -- A second separator would have been the beginning of a share name.
            have hxs : Headless true xs := fun d hd => by
              obtain ⟨ys, rfl⟩ := List.head?_eq_some_iff.mp (Option.mem_def.mp hd)
              by_contra hsep
              unfold readDriveShare at hshare
              dsimp only at hshare
              rw [if_pos ⟨hc, by simpa using hsep⟩] at hshare
              cases hshare
            have htake := (takeWhile_separators (List.forall_mem_nil _) hxs).1
            rw [List.nil_append] at htake
            unfold addSlash at h
            rw [htake] at h
            obtain ⟨rfl, -⟩ := Prod.mk.inj h
            have hgnil : g = [] := by
              have hglue : glue true ([c] ++ []) = [] := glue_of_separator (a := []) hc
              rw [hg]
              split
              · rfl
              · exact hglue
            rw [hgnil]
            have heq := dropDrive_separator hc hx.headless
            rw [← heq] at hx
            exact hx
          · obtain ⟨rfl, -⟩ := Prod.mk.inj h
            exact absurd rfl hdrive
        · obtain ⟨rfl, -⟩ := Prod.mk.inj h
          exact absurd rfl hdrive

/-- **A drive in front of a safe path**: without the drive the path is safe. -/
theorem safePath_dropDrive_combine {win : Bool} {path x : Str} (hdrive : takeDrive win path ≠ [])
    (hx : SafePath win x) (hnil : dropDrive win path = [] → x = []) :
    SafePath win (dropDrive win (combine win (takeDrive win path) x)) := by
  rw [combine_of_hasDrive_eq_false hdrive hx.safeRelative.1]
  generalize hg : (if x = [] then [] else glue win (takeDrive win path)) = g
  have hgsep : ∀ c ∈ g, isPathSeparator win c = true := by
    rw [← hg]
    split
    · exact fun c hc => absurd hc List.not_mem_nil
    · exact glue_separators win _
  have hgnil : x = [] → g = [] := fun h => by rw [← hg, if_pos h]
  cases win with
  | false =>
    have htake : takeDrive false path = path.takeWhile (· = slash) := rfl
    have hall : ∀ c ∈ path.takeWhile (· = slash) ++ g, isPathSeparator false c = true := by
      intro c hc
      rcases List.mem_append.mp hc with hc | hc
      · have hslash : c = slash := of_decide_eq_true (List.mem_takeWhile_imp (p := (· = slash)) hc)
        rw [hslash]
        decide
      · exact hgsep c hc
    have hsep : (fun c => decide (c = slash)) = isPathSeparator false := by
      funext c
      simp [isPathSeparator, pathSeparators]
    unfold dropDrive splitDrive
    rw [if_pos (by decide), htake, ← List.append_assoc]
    dsimp only
    rw [hsep] at hall ⊢
    rw [(takeWhile_separators hall hx.headless).2]
    exact hx
  | true => exact safePath_dropDrive_windows rfl hdrive hx hnil hgsep hg.symm

end DArc.Archive
