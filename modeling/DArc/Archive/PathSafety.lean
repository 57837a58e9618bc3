import DArc.Archive.RoundTrip
import DArc.Archive.SafePaths

/-!
# Path traversal

An archive is extracted safely when every file is written to a safe path below the destination.
`removeUnsafeDirs` cleans the table of directories, but the names of the files are in a column of their
own, and they are joined to the directories as they are.

### Outline

* `keptComponents`: the components that `removeUnsafeDirs` joins;
* `DrivesSafe`: what may be behind their last drive letter;
* `ExtractsBelow`: every file is extracted below every destination;
* `TraversalFree`: the columns of a directory block that is extracted so.

### Main results

* `safeRelative_dropDrive_removeUnsafeDirs`: when a cleaned directory is safe without its drive;
* `extractsBelow_iff`: a directory block is extracted below every destination if and only if its
  columns are free of path traversal.
-/

namespace DArc.Archive

/-! ## Cleaned directories -/

/-- The components that `removeUnsafeDirs` joins. -/
def keptComponents (win : Bool) (path : Str) : List Str :=
  (dropParents ((splitDirectories win path).reverse.filter (· ≠ here))).reverse

/-- `removeUnsafeDirs` joins the components that it keeps. -/
lemma removeUnsafeDirs_eq_joinPath (win : Bool) (path : Str) :
    removeUnsafeDirs win path = joinPath win (keptComponents win path) := rfl

/-- No `..` is kept. -/
lemma parentDir_notMem_dropParents (xs : List Str) : parentDir ∉ dropParents xs := by
  fun_induction dropParents xs with
  | case1 => exact List.not_mem_nil
  | case2 => exact List.not_mem_nil
  | case3 x hne => exact fun h => hne (List.mem_singleton.mp h).symm
  | case4 y xs ih => exact ih
  | case5 x y xs hne ih =>
    intro h
    rcases List.mem_cons.mp h with h | h
    · exact hne h.symm
    · exact ih h

/-- What is kept was there. -/
lemma dropParents_sublist (xs : List Str) : (dropParents xs).Sublist xs := by
  fun_induction dropParents xs with
  | case1 => exact List.Sublist.refl _
  | case2 => exact List.nil_sublist _
  | case3 x hne => exact List.Sublist.refl _
  | case4 y xs ih => exact (ih.cons _).cons _
  | case5 x y xs hne ih => exact ih.cons_cons _

/-- A name between separators that is neither `.` nor `..`; on Windows it may have a drive letter. -/
structure Component (win : Bool) (p : Str) : Prop where
  /-- The component is not empty. -/
  ne_nil : p ≠ []
  /-- The component is not `.`. -/
  ne_here : p ≠ here
  /-- The component is not `..`. -/
  ne_parentDir : p ≠ parentDir
  /-- The component has no slash. -/
  noSlash : slash ∉ p
  /-- The component has no backslash. -/
  noBackslash : backslash ∉ p

/-- A component without a drive letter is safe. -/
lemma Component.safe {win : Bool} {p : Str} (h : Component win p)
    (hdrive : win = true → ¬ BeginsWithDrive p) : SafeComponent win p :=
  { h with noDrive := hdrive }

/-- The components of a path that does not begin with a separator are not empty and have no
separators. -/
lemma splitComponents_notSeparator {win : Bool} {x : Str} (h : Headless win x) :
    ∀ p ∈ (splitComponents win x).map (dropSeparators win),
      p ≠ [] ∧ (∀ c ∈ p, isPathSeparator win c = false) ∧ ∀ c ∈ p, c ∈ x := by
  fun_induction splitComponents win x with
  | case1 => exact fun p hp => absurd hp List.not_mem_nil
  | case2 x y a b ih =>
    have hx : isPathSeparator win x = false := h x rfl
    have hhead : Headless win (b.dropWhile (isPathSeparator win)) := fun c hc => by
      have hnot := List.head?_dropWhile_not (isPathSeparator win) b
      rw [Option.mem_def.mp hc] at hnot
      simpa using hnot
    have ha : a ≠ [] := by
      have hcons : a = x :: y.takeWhile fun c => !isPathSeparator win c :=
        List.takeWhile_cons_of_pos (by simp [hx])
      rw [hcons]
      exact List.cons_ne_nil _ _
    have hsep : ∀ c ∈ a, isPathSeparator win c = false := fun c hc => by
      simpa using List.mem_takeWhile_imp hc
    have hdrop : dropSeparators win (a ++ b.takeWhile (isPathSeparator win)) = a :=
      dropSeparators_append hsep ha _ fun c hc =>
        List.mem_takeWhile_imp (List.mem_of_mem_head? hc)
    intro p hp
    rw [List.map_cons, hdrop] at hp
    rcases List.mem_cons.mp hp with rfl | hp
    · exact ⟨ha, hsep, fun c hc => (List.takeWhile_sublist _).subset hc⟩
    · obtain ⟨hne, hsep, hmem⟩ := ih hhead p hp
      exact ⟨hne, hsep, fun c hc => (List.dropWhile_sublist _).subset
        ((List.dropWhile_sublist _).subset (hmem c hc))⟩

/-! ## Cleaned directories without their drives -/

/-- Whether a component begins with a drive letter can be decided. -/
instance : DecidablePred BeginsWithDrive := fun p =>
  match p with
  | [] => isFalse id
  | [_] => isFalse id
  | x :: c :: _ => inferInstanceAs (Decidable (isLetter x = true ∧ c = colon))

/-- The last component with a drive letter: `joinPath` begins there. -/
def lastDrive (ps : List Str) : Option Str := ps.reverse.find? fun p => decide (BeginsWithDrive p)

/-- Behind the last drive letter there is neither `..` nor another drive letter. -/
def DrivesSafe (ps : List Str) : Prop :=
  ∀ p ∈ lastDrive ps, p.drop 2 ≠ parentDir ∧ ¬ BeginsWithDrive (p.drop 2)

/-- What is behind a drive does not begin with a separator. -/
lemma headless_dropDrive (win : Bool) (path : Str) : Headless win (dropDrive win path) := by
  have hdrop : ∀ (x : Str), Headless win (x.dropWhile (isPathSeparator win)) := fun x c hc => by
    have hnot := List.head?_dropWhile_not (isPathSeparator win) x
    rw [Option.mem_def.mp hc] at hnot
    simpa using hnot
  cases win with
  | false =>
    have hsep : (fun c => decide (c = slash)) = isPathSeparator false := by
      funext c
      simp [isPathSeparator, pathSeparators]
    unfold dropDrive splitDrive
    rw [if_pos (by decide)]
    dsimp only
    rw [hsep]
    exact hdrop path
  | true =>
    unfold dropDrive splitDrive
    rw [if_neg (by decide)]
    split
    · next y hletter =>
      obtain ⟨drive, rest⟩ := y
      obtain ⟨-, -, -, -, -, -, hhead⟩ := readDriveLetter_eq_some hletter
      exact hhead
    · split
      · next y hunc =>
        unfold readDriveUNC at hunc
        split at hunc
        · split at hunc
          · split at hunc
            · obtain rfl := Option.some.inj hunc
              exact headless_readDriveShareName true _
            · split at hunc
              · next a b hletter =>
                obtain rfl := Option.some.inj hunc
                obtain ⟨-, -, -, -, -, -, hhead⟩ := readDriveLetter_eq_some hletter
                exact hhead
              · cases hunc
          · cases hunc
        · cases hunc
      · split
        · next y hshare =>
          unfold readDriveShare at hshare
          split at hshare
          · split at hshare
            · obtain rfl := Option.some.inj hshare
              exact headless_readDriveShareName true _
            · cases hshare
          · cases hshare
        · split
          · split
            · exact hdrop _
            · next hc =>
              intro d hd
              obtain rfl := Option.some.inj hd
              simpa using hc
          · exact fun c hc => by cases hc

/-- A drive that begins with a letter goes on with a colon and separators. -/
lemma takeDrive_letter {path : Str} (h : BeginsWithDrive (takeDrive true path)) :
    ∀ c ∈ (takeDrive true path).drop 2, isPathSeparator true c = true := by
  have hnot : ∀ {s : Chr} {x : Str}, isPathSeparator true s = true → ¬ BeginsWithDrive (s :: x) := by
    intro s x hs hdrive
    cases x with
    | nil => exact hdrive
    | cons c x =>
      rw [isPathSeparator_letter hdrive.1] at hs
      cases hs
  revert h
  unfold takeDrive splitDrive
  rw [if_neg (by decide)]
  split
  · next y hletter =>
    obtain ⟨drive, rest⟩ := y
    obtain ⟨z, seps, -, rfl, hseps, -, -⟩ := readDriveLetter_eq_some hletter
    exact fun _ => hseps
  · split
    · next y hunc =>
      unfold readDriveUNC at hunc
      split at hunc
      · split at hunc
        · next hq =>
          split at hunc
          · obtain rfl := Option.some.inj hunc
            exact fun h => absurd h (hnot hq.2.1)
          · split at hunc
            · obtain rfl := Option.some.inj hunc
              exact fun h => absurd h (hnot hq.2.1)
            · cases hunc
        · cases hunc
      · cases hunc
    · split
      · next y hshare =>
        unfold readDriveShare at hshare
        split at hshare
        · split at hshare
          · next hs =>
            obtain rfl := Option.some.inj hshare
            exact fun h => absurd h (hnot hs.1)
          · cases hshare
        · cases hshare
      · split
        · split
          · next hc => exact fun h => absurd h (hnot hc)
          · exact fun h => absurd h id
        · exact fun h => absurd h id

/-- The components of a path: its drive, and names between separators. -/
lemma splitDirectories_components (win : Bool) (path : Str) :
    splitDirectories win path = (if takeDrive win path ≠ [] then [takeDrive win path] else []) ++
      (splitComponents win (dropDrive win path)).map (dropSeparators win) := by
  have hdrive : hasDrive win path = decide (takeDrive win path ≠ []) := by
    unfold hasDrive
    cases takeDrive win path <;> rfl
  have hsplit : splitPath win path = (if takeDrive win path ≠ [] then [takeDrive win path] else []) ++
      splitComponents win (dropDrive win path) := rfl
  unfold splitDirectories
  rw [hdrive, hsplit]
  by_cases h : takeDrive win path ≠ []
  · rw [decide_eq_true h, if_pos rfl, if_pos h]
    rfl
  · rw [decide_eq_false h, if_neg (by decide), if_neg h]
    rfl

/-- The native spelling on Posix has no backslashes. -/
def Native (win : Bool) (path : Str) : Prop := win = false → backslash ∉ path

/-- What is kept of a path: perhaps its drive, and names between separators. -/
lemma keptComponents_eq {win : Bool} {path : Str} (hnative : Native win path) :
    ∃ ks, (∀ p ∈ ks, Component win p) ∧ (dropDrive win path = [] → ks = []) ∧
      (keptComponents win path = ks ∨
        takeDrive win path ≠ [] ∧ keptComponents win path = takeDrive win path :: ks) := by
  have hsub : (keptComponents win path).Sublist (splitDirectories win path) := by
    have h := (dropParents_sublist _).trans
      (List.filter_sublist (p := (· ≠ here)) (l := (splitDirectories win path).reverse))
    exact List.reverse_sublist.mp (by unfold keptComponents; rwa [List.reverse_reverse])
  have hkept : ∀ p ∈ keptComponents win path, p ≠ here ∧ p ≠ parentDir := by
    intro p hp
    have hmem := List.mem_reverse.mp hp
    refine ⟨?_, ?_⟩
    · have hfilter := (dropParents_sublist _).subset hmem
      simpa using (List.mem_filter.mp hfilter).2
    · rintro rfl
      exact parentDir_notMem_dropParents _ hmem
  have hcomponent : ∀ p ∈ (splitComponents win (dropDrive win path)).map (dropSeparators win),
      p ∈ keptComponents win path → Component win p := by
    intro p hp hk
    obtain ⟨hne, hsep, hmem⟩ := splitComponents_notSeparator (headless_dropDrive win path) p hp
    refine ⟨hne, (hkept p hk).1, (hkept p hk).2, fun h => ?_, fun h => ?_⟩
    · have hslash := hsep slash h
      rw [(isPathSeparator_slash win).1] at hslash
      cases hslash
    · cases win with
      | true => exact absurd (hsep backslash h) (by decide)
      | false => exact hnative rfl ((List.dropWhile_sublist _).subset (hmem backslash h))
  have hempty : dropDrive win path = [] → ∀ ks : List Str, ks.Sublist
      ((splitComponents win (dropDrive win path)).map (dropSeparators win)) → ks = [] := by
    intro hnil ks hks
    rw [hnil, splitComponents, List.map_nil] at hks
    exact List.sublist_nil.mp hks
  rw [splitDirectories_components] at hsub
  by_cases hdrive : takeDrive win path ≠ []
  · rw [if_pos hdrive, List.singleton_append] at hsub
    rcases List.sublist_cons_iff.mp hsub with hks | ⟨ks, hk, hks⟩
    · exact ⟨_, fun p hp => hcomponent p (hks.subset hp) hp, fun h => hempty h _ hks, Or.inl rfl⟩
    · exact ⟨ks, fun p hp => hcomponent p (hks.subset hp) (by rw [hk]; exact List.mem_cons_of_mem _ hp),
        fun h => hempty h _ hks, Or.inr ⟨hdrive, hk⟩⟩
  · rw [if_neg hdrive, List.nil_append] at hsub
    exact ⟨_, fun p hp => hcomponent p (hsub.subset hp) hp, fun h => hempty h _ hsub, Or.inl rfl⟩

/-- The last drive letter is that of one of the components. -/
lemma lastDrive_mem {ps : List Str} {p : Str} (h : p ∈ lastDrive ps) : p ∈ ps ∧ BeginsWithDrive p := by
  have hfind : ps.reverse.find? (fun q => decide (BeginsWithDrive q)) = some p := h
  have hdrive := List.find?_some hfind
  exact ⟨List.mem_reverse.mp (List.mem_of_find?_eq_some hfind), by simpa using hdrive⟩

/-- The last drive letter of components that end without one. -/
lemma lastDrive_append {pre post : List Str} {p : Str} (hp : BeginsWithDrive p)
    (hpost : ∀ q ∈ post, ¬ BeginsWithDrive q) : lastDrive (pre ++ p :: post) = some p := by
  have hnone : post.reverse.find? (fun q => decide (BeginsWithDrive q)) = none := by
    rw [List.find?_eq_none]
    intro q hq
    simpa using hpost q (List.mem_reverse.mp hq)
  unfold lastDrive
  rw [List.reverse_append, List.reverse_cons, List.find?_append, List.find?_append, hnone,
    List.find?_cons_of_pos (by simpa using hp)]
  rfl

/-- Components either have no drive letter, or there is a last one. -/
lemma exists_lastDrive (ps : List Str) : (∀ p ∈ ps, ¬ BeginsWithDrive p) ∨
    ∃ pre p post, ps = pre ++ p :: post ∧ BeginsWithDrive p ∧ ∀ q ∈ post, ¬ BeginsWithDrive q := by
  induction ps with
  | nil => exact Or.inl fun p hp => absurd hp List.not_mem_nil
  | cons q ps ih =>
    rcases ih with hnone | ⟨pre, p, post, rfl, hp, hpost⟩
    · by_cases hq : BeginsWithDrive q
      · exact Or.inr ⟨[], q, ps, rfl, hq, hnone⟩
      · refine Or.inl fun p hp => ?_
        rcases List.mem_cons.mp hp with rfl | hp
        · exact hq
        · exact hnone p hp
    · exact Or.inr ⟨q :: pre, p, post, rfl, hp, hpost⟩

/-- A component with a drive hides the components in front of it. -/
lemma joinPath_append {win : Bool} {x : Str} {pre rest : List Str} (h : joinPath win rest = x)
    (hdrive : hasDrive win x = true) : joinPath win (pre ++ rest) = x := by
  induction pre with
  | nil => exact h
  | cons p pre ih =>
    have hfold : joinPath win (p :: (pre ++ rest)) = combine win p (joinPath win (pre ++ rest)) := rfl
    rw [List.cons_append, hfold, ih]
    unfold combine
    rw [if_pos hdrive]

/-- What is left of a component with a drive letter, in front of a safe path, without the letter. -/
lemma safeRelative_dropDrive_letter {p x : Str} (hp : Component true p) (hdrive : BeginsWithDrive p)
    (hx : SafePath true x) : SafeRelative true (dropDrive true (combine true p x)) ↔
      p.drop 2 ≠ parentDir ∧ ¬ BeginsWithDrive (p.drop 2) := by
  rw [combine_of_hasDrive_eq_false hp.ne_nil hx.safeRelative.1]
  match p, hdrive with
  | y :: c :: rest, hdrive =>
    obtain ⟨hy, rfl⟩ := hdrive
    have hsep : ∀ c ∈ rest, isPathSeparator true c = false := fun c hc => notSeparator
      (fun h => hp.noSlash (by simp [← h, hc])) fun h => hp.noBackslash (by simp [← h, hc])
    have hdrop : (y :: colon :: rest).drop 2 = rest := rfl
    rw [hdrop]
    generalize hg : (if x = [] then [] else glue true (y :: colon :: rest)) = g
    rcases List.eq_nil_or_concat' rest with rfl | ⟨init, last, hrest⟩
    · -- The component is just the letter, and the rest of the path is safe.
      have hgsep : ∀ c ∈ g, isPathSeparator true c = true := by
        rw [← hg]
        split
        · exact fun c hc => absurd hc List.not_mem_nil
        · exact glue_separators true _
      have heq := dropDrive_letter hy hgsep hx.headless
      rw [List.cons_append, List.cons_append, List.nil_append, heq]
      exact iff_of_true hx.safeRelative ⟨by decide, id⟩
    · have hlast : last ∈ rest := by simp [hrest]
      have hne : rest ≠ [] := List.ne_nil_of_mem hlast
      have hhead : Headless true (rest ++ (g ++ x)) := fun c hc => by
        rw [List.head?_append_of_ne_nil _ hne] at hc
        exact hsep c (List.mem_of_mem_head? hc)
      have heq := dropDrive_letter hy (List.forall_mem_nil _) hhead
      rw [List.cons_append, List.cons_append, ← List.nil_append (rest ++ (g ++ x)), heq]
      by_cases hnil : x = []
      · rw [if_pos hnil] at hg
        rw [hnil, ← hg, List.append_nil, List.append_nil] at hhead ⊢
        unfold SafeRelative HasParent
        rw [hasDrive_eq_false_iff, pieces_eq_singleton hsep, List.mem_singleton]
        constructor
        · rintro ⟨⟨-, hdrive⟩, hparent⟩
          exact ⟨fun h => hparent h.symm, hdrive rfl⟩
        · rintro ⟨hparent, hdrive⟩
          exact ⟨⟨hhead, fun _ => hdrive⟩, fun h => hparent h.symm⟩
      · have hgslash : g = [slash] := by
          have hletter : isDriveLetter (y :: colon :: rest) = false := by
            obtain ⟨z, zs, rfl⟩ := List.exists_cons_of_ne_nil hne
            rfl
          have hlast' : (y :: colon :: rest).getLast? = some last := by
            rw [hrest, ← List.cons_append, ← List.cons_append, List.getLast?_concat]
          rw [← hg, if_neg hnil, glue_of_not_isDriveLetter true hletter, hlast', Option.any_some,
            hsep last hlast]
          rfl
        have hbegins : BeginsWithDrive (rest ++ slash :: x) ↔ BeginsWithDrive rest := by
          match rest, hne with
          | [z], _ => exact iff_of_false (fun h => absurd h.2 (by decide)) id
          | z :: c :: rest, _ => exact Iff.rfl
        rw [hgslash, List.singleton_append] at hhead ⊢
        unfold SafeRelative
        rw [hasDrive_eq_false_iff, hasParent_append_cons (isPathSeparator_slash true).1, hbegins,
          or_iff_left hx.noParent]
        unfold HasParent
        rw [pieces_eq_singleton hsep, List.mem_singleton]
        constructor
        · rintro ⟨⟨-, hdrive⟩, hparent⟩
          exact ⟨fun h => hparent h.symm, hdrive rfl⟩
        · rintro ⟨hparent, hdrive⟩
          exact ⟨⟨hhead, fun _ => hdrive⟩, fun h => hparent h.symm⟩

/-- **Cleaned directories**: without its drive a cleaned directory is safe, unless on Windows there is
`..` or a drive letter behind the last drive letter that is kept. -/
theorem safeRelative_dropDrive_removeUnsafeDirs {win : Bool} {path : Str}
    (hnative : Native win path) :
    SafeRelative win (dropDrive win (removeUnsafeDirs win path)) ↔
      (win = true → DrivesSafe (keptComponents win path)) := by
  obtain ⟨ks, hks, hempty, hkept⟩ := keptComponents_eq hnative
  rw [removeUnsafeDirs_eq_joinPath]
  by_cases hdrives : win = true → ∀ p ∈ ks, ¬ BeginsWithDrive p
  · -- No name has a drive letter.
    have hsafe : ∀ p ∈ ks, SafeComponent win p := fun p hp =>
      (hks p hp).safe fun hwin => hdrives hwin p hp
    have hx := safePath_joinWith hsafe
    have hjoin := joinPath_eq hsafe
    refine iff_of_true ?_ fun hwin => ?_
    · rcases hkept with hkept | ⟨hdrive, hkept⟩
      · have hsplit := splitDrive_eq hx.headless hx.not_beginsWithDrive
        rw [hkept, hjoin]
        unfold dropDrive
        rw [hsplit]
        exact hx.safeRelative
      · have hfold : joinPath win (takeDrive win path :: ks) =
            combine win (takeDrive win path) (joinPath win ks) := rfl
        rw [hkept, hfold, hjoin]
        refine (safePath_dropDrive_combine hdrive hx fun hnil => ?_).safeRelative
        rw [hempty hnil]
        rfl
    · subst hwin
      intro p hp
      obtain ⟨hmem, hfound⟩ := lastDrive_mem hp
      rcases hkept with hkept | ⟨-, hkept⟩
      · rw [hkept] at hmem
        exact absurd hfound (hdrives rfl p hmem)
      · rw [hkept] at hmem
        rcases List.mem_cons.mp hmem with rfl | hmem
        · have hseps := takeDrive_letter hfound
          constructor
          · intro h
            have hdot := hseps dot (by rw [h]; exact List.mem_cons_self)
            exact absurd hdot (by decide)
          · intro h
            match hd : (takeDrive true path).drop 2, h with
            | z :: c :: rest, h =>
              have hz := hseps z (by rw [hd]; exact List.mem_cons_self)
              rw [isPathSeparator_letter h.1] at hz
              cases hz
        · exact absurd hfound (hdrives rfl p hmem)
  · -- The last name with a drive letter hides everything in front of it.
    push Not at hdrives
    obtain ⟨rfl, q, hq, hletter⟩ := hdrives
    rcases exists_lastDrive ks with hnone | ⟨pre, p, post, rfl, hp, hpost⟩
    · exact absurd hletter (hnone q hq)
    · have hsafe : ∀ q ∈ post, SafeComponent true q := fun q hq =>
        (hks q (by simp [hq])).safe fun _ => hpost q hq
      have hx := safePath_joinWith hsafe
      have hcomp : Component true p := hks p (by simp)
      have hjoin : joinPath true (p :: post) = combine true p (joinWith [slash] post) := by
        rw [← joinPath_eq hsafe]
        rfl
      have hdrive : hasDrive true (combine true p (joinWith [slash] post)) = true := by
        rw [combine_of_hasDrive_eq_false hcomp.ne_nil hx.safeRelative.1]
        match p, hp with
        | y :: c :: rest, hp => exact hasDrive_of_letter hp
      have hlast : ∃ pre', keptComponents true path = pre' ++ p :: post := by
        rcases hkept with hkept | ⟨-, hkept⟩
        · exact ⟨pre, hkept⟩
        · exact ⟨takeDrive true path :: pre, hkept⟩
      obtain ⟨pre', hlast⟩ := hlast
      unfold DrivesSafe
      rw [hlast, joinPath_append hjoin hdrive, safeRelative_dropDrive_letter hcomp hp hx,
        lastDrive_append hp hpost]
      simp

/-! ## Directory blocks -/

section

variable {w : ℕ} {win : Bool} {isEncryption : Str → Bool}

/-- The options with which files are extracted by default. -/
def extractOptions (dest : Str) (filterF : FileInfo w → Bool) : ReadOptions w :=
  { arcBasedir := [], diskBasedir := dest, ep := 9, filterF := filterF }

/-- The path is that of something below the directory `dest`. -/
def Below (win : Bool) (dest path : Str) : Prop :=
  ∃ rel, path = combine win dest rel ∧ SafeRelative win rel

/-- The files of a directory block are extracted below every destination. -/
def ExtractsBelow (w : ℕ) (win : Bool) (isEncryption : Str → Bool) (arcpos : Int) (s : List UInt8) :
    Prop :=
  ∀ (dest : Str) (filterF : FileInfo w → Bool) (blocks : List ArchiveBlock)
    (files : List (CompressedFile w)),
    archiveReadDir win isEncryption (extractOptions dest filterF) arcpos s = some (blocks, files) →
    ∀ f ∈ files, ∃ path, f.cfFileInfo.fiDiskName.fpFullname win = some path ∧ Below win dest path

/-- Every name of a file is safe, and on Windows nothing unsafe is behind the last drive letter of its
directory. -/
def TraversalFree (win : Bool) (c : Columns w) : Prop :=
  (∀ n ∈ c.dirNumbers, n < c.dirnames.length) → ∀ r ∈ c.dirNumbers.zip c.names,
    ∀ d ∈ c.dirnames[r.1]?, SafeRelative win r.2 ∧
      (win = true → DrivesSafe (keptComponents win (makeOSNativePath win d)))

/-- The columns that are read have an item for each block or file. -/
lemma length_of_readColumns {s : List UInt8} {c : Columns w} (h : readColumns w s = some c) :
    (c.blCompressors.length = c.numOfFiles.length ∧ c.blOffsets.length = c.numOfFiles.length ∧
      c.blCompSizes.length = c.numOfFiles.length) ∧
    c.names.length = c.numOfFiles.sum ∧ c.dirNumbers.length = c.numOfFiles.sum ∧
      c.sizes.length = c.numOfFiles.sum ∧ c.times.length = c.numOfFiles.sum ∧
      c.dirFlags.length = c.numOfFiles.sum ∧ c.crcs.length = c.numOfFiles.sum := by
  obtain ⟨⟨n, s₁⟩, -, h⟩ := Option.bind_eq_some_iff.mp h
  obtain ⟨⟨numOfFiles, s₂⟩, h₂, h⟩ := Option.bind_eq_some_iff.mp h
  obtain ⟨⟨blCompressors, s₃⟩, h₃, h⟩ := Option.bind_eq_some_iff.mp h
  obtain ⟨⟨blOffsets, s₄⟩, h₄, h⟩ := Option.bind_eq_some_iff.mp h
  obtain ⟨⟨blCompSizes, s₅⟩, h₅, h⟩ := Option.bind_eq_some_iff.mp h
  obtain ⟨⟨totalDirs, s₆⟩, -, h⟩ := Option.bind_eq_some_iff.mp h
  obtain ⟨⟨dirnames, s₇⟩, -, h⟩ := Option.bind_eq_some_iff.mp h
  obtain ⟨⟨names, s₈⟩, h₈, h⟩ := Option.bind_eq_some_iff.mp h
  obtain ⟨⟨dirNumbers, s₉⟩, h₉, h⟩ := Option.bind_eq_some_iff.mp h
  obtain ⟨⟨sizes, s₁₀⟩, h₁₀, h⟩ := Option.bind_eq_some_iff.mp h
  obtain ⟨⟨times, s₁₁⟩, h₁₁, h⟩ := Option.bind_eq_some_iff.mp h
  obtain ⟨⟨dirFlags, s₁₂⟩, h₁₂, h⟩ := Option.bind_eq_some_iff.mp h
  obtain ⟨⟨crcs, s₁₃⟩, h₁₃, h⟩ := Option.bind_eq_some_iff.mp h
  obtain rfl := Option.some.inj h
  dsimp only at *
  rw [length_of_decodeMany h₂, length_of_decodeMany h₃, length_of_decodeMany h₄,
    length_of_decodeMany h₅, length_of_decodeMany h₈, length_of_decodeMany h₉,
    length_of_decodeMany h₁₀, length_of_decodeMany h₁₁, length_of_decodeMany h₁₂,
    length_of_decodeMany h₁₃]
  exact ⟨⟨rfl, rfl, rfl⟩, rfl, rfl, rfl, rfl, rfl, rfl⟩

/-- The disk path of a file with the given directory and name. -/
lemma makeFi_diskName (win : Bool) (dest : Str) (filterF : FileInfo w → Bool) (dir name : Str)
    (size : Int) (time : BitVec (8 * w)) (dirFlag : Bool) :
    ∃ fi, makeFi win (extractOptions dest filterF) dir name size time dirFlag =
        some (if filterF fi then some fi else none) ∧
      fi.fiDiskName.fpFullname win =
        some (combine win (combine win dest (dropDrive win dir)) name) := by
  have hname : ∀ d, nameIn win d name =
      some (.packed d name (filenameHash (filenameHash 0 (d.filter fun c => !isPathSeparator win c))
        name) (packParentDirPath win d)) := fun d => rfl
  unfold makeFi extractOptions
  simp only [hname, Option.bind_eq_bind, Option.bind_some]
  refine ⟨_, rfl, ?_⟩
  dsimp only
  rw [if_pos (Or.inr (by decide))]
  rfl

/-- Lists of the given lengths can be split off, and they are the whole list. -/
lemma splitByLens_of_length {α : Type*} {lens : List ℕ} {xs : List α} (h : xs.length = lens.sum) :
    ∃ xss, splitByLens lens xs = some xss ∧ xss.flatten = xs ∧ xss.length = lens.length := by
  induction lens generalizing xs with
  | nil =>
    obtain rfl := List.length_eq_zero_iff.mp h
    exact ⟨[], rfl, rfl, rfl⟩
  | cons len lens ih =>
    rw [List.sum_cons] at h
    have hdrop : (xs.drop len).length = lens.sum := by
      rw [List.length_drop]
      omega
    obtain ⟨xss, hxss, hflat, hlen⟩ := ih hdrop
    refine ⟨xs.take len :: xss, Option.bind_eq_some_iff.mpr ⟨xss, hxss, rfl⟩, ?_, ?_⟩
    · rw [List.flatten_cons, hflat, List.take_append_drop]
    · rw [List.length_cons, List.length_cons, hlen]

/-- There is a position for each file. -/
lemma length_positions (xss : List (List Int)) :
    (xss.map scanningSum).flatten.length = xss.flatten.length := by
  induction xss with
  | nil => rfl
  | cons xs xss ih =>
    rw [List.map_cons, List.flatten_cons, List.flatten_cons, List.length_append, List.length_append, ih,
      scanningSum_eq, length_sumsFrom]

/-- There is a block for each file. -/
lemma length_arcblocks {α : Type*} {lens : List ℕ} {blocks : List α}
    (h : blocks.length = lens.length) :
    ((lens.zip blocks).map fun (n, block) => List.replicate n block).flatten.length = lens.sum := by
  induction lens generalizing blocks with
  | nil => rfl
  | cons n lens ih =>
    cases blocks with
    | nil => cases h
    | cons b blocks =>
      rw [List.zip_cons_cons, List.map_cons, List.flatten_cons, List.length_append,
        List.length_replicate, ih (Nat.succ.inj h), List.sum_cons]

/-- The files that are kept are those that are there. -/
lemma keptFiles_map {infos : List (Option (FileInfo w))} {blocks : List ArchiveBlock}
    {positions : List Int} {crcs : List (BitVec (8 * 4))} (hblocks : infos.length = blocks.length)
    (hpositions : infos.length = positions.length) (hcrcs : infos.length = crcs.length) :
    (keptFiles infos blocks positions crcs).map CompressedFile.cfFileInfo = infos.filterMap id := by
  induction infos generalizing blocks positions crcs with
  | nil => rfl
  | cons info infos ih =>
    match blocks, positions, crcs, hblocks, hpositions, hcrcs with
    | b :: blocks, p :: positions, c :: crcs, hblocks, hpositions, hcrcs =>
      have hrest := ih (Nat.succ.inj hblocks) (Nat.succ.inj hpositions) (Nat.succ.inj hcrcs)
      unfold keptFiles at hrest ⊢
      rw [List.zip_cons_cons, List.zip_cons_cons, List.zip_cons_cons]
      cases info with
      | none => exact hrest
      | some fi => exact congrArg (fi :: ·) hrest

/-- The row of a file: the number of its directory, its name, its size, its time and its flag. -/
def Columns.rows (c : Columns w) : List (ℕ × Str × Int × BitVec (8 * w) × Bool) :=
  c.dirNumbers.zip (c.names.zip (c.sizes.zip (c.times.zip c.dirFlags)))

/-- The file that is made of a row. -/
def makeRow (win : Bool) (o : ReadOptions w) (c : Columns w)
    (r : ℕ × Str × Int × BitVec (8 * w) × Bool) : Option (Option (FileInfo w)) := do
  makeFi win o (← (c.dirnames.map fun d => removeUnsafeDirs win (makeOSNativePath win d))[r.1]?)
    r.2.1 r.2.2.1 r.2.2.2.1 r.2.2.2.2

/-- The files of the columns are those that are made of the rows. -/
lemma fromColumns_files (isEncryption : Str → Bool) (arcpos : Int) {s : List UInt8} {c : Columns w}
    (h : readColumns w s = some c) {o : ReadOptions w} {infos : List (Option (FileInfo w))}
    (hinfos : c.rows.mapM (makeRow win o c) = some infos) :
    ∃ blocks files, fromColumns win isEncryption o arcpos c = some (blocks, files) ∧
      files.map CompressedFile.cfFileInfo = infos.filterMap id := by
  obtain ⟨⟨hcompressors, hoffsets, hcompSizes⟩, hnames, hdirNumbers, hsizes, htimes, hdirFlags, hcrcs⟩ :=
    length_of_readColumns h
  obtain ⟨filesizes, hsplit, hflat, hlen⟩ := splitByLens_of_length hsizes
  have hcount : infos.length = c.numOfFiles.sum := by
    have hrows := (mapM_eq_some_iff.mp hinfos).length_eq
    rw [← hrows, Columns.rows]
    simp only [List.length_zip, hnames, hdirNumbers, hsizes, htimes, hdirFlags, min_self]
  refine ⟨_, _, Option.bind_eq_some_iff.mpr ⟨infos, hinfos, Option.bind_eq_some_iff.mpr
    ⟨filesizes, hsplit, rfl⟩⟩, keptFiles_map ?_ ?_ ?_⟩
  · rw [hcount]
    refine (length_arcblocks ?_).symm
    simp only [List.length_map, List.length_zip, hcompressors, hoffsets, hcompSizes, hlen, min_self]
  · rw [hcount, length_positions, hflat, hsizes]
  · rw [hcount, hcrcs]

/-- The native spelling of a directory. -/
lemma native_makeOSNativePath (d : Str) : Native win (makeOSNativePath win d) := by
  rintro rfl hmem
  obtain ⟨c, -, hc⟩ := List.mem_map.mp hmem
  split at hc
  · exact absurd hc (by decide)
  · next hne => exact hne hc

/-- Every row with a valid directory makes a file, and the disk path of the file. -/
lemma makeRow_eq (win : Bool) (dest : Str) (filterF : FileInfo w → Bool) {c : Columns w}
    {r : ℕ × Str × Int × BitVec (8 * w) × Bool} {d : Str} (hd : c.dirnames[r.1]? = some d) :
    ∃ fi, makeRow win (extractOptions dest filterF) c r = some (if filterF fi then some fi else none) ∧
      fi.fiDiskName.fpFullname win = some (combine win (combine win dest (dropDrive win
        (removeUnsafeDirs win (makeOSNativePath win d)))) r.2.1) := by
  obtain ⟨fi, hfi, hpath⟩ := makeFi_diskName win dest filterF
    (removeUnsafeDirs win (makeOSNativePath win d)) r.2.1 r.2.2.1 r.2.2.2.1 r.2.2.2.2
  refine ⟨fi, Option.bind_eq_some_iff.mpr ⟨_, ?_, hfi⟩, hpath⟩
  rw [List.getElem?_map, hd, Option.map_some]

/-- The rows with their directories and names. -/
lemma exists_row {s : List UInt8} {c : Columns w} (h : readColumns w s = some c) {n : ℕ} {name : Str} :
    (n, name) ∈ c.dirNumbers.zip c.names ↔ ∃ rest, (n, name, rest) ∈ c.rows := by
  obtain ⟨-, hnames, hdirNumbers, hsizes, htimes, hdirFlags, -⟩ := length_of_readColumns h
  have hmap : c.rows.map (fun r => (r.1, r.2.1)) = c.dirNumbers.zip c.names := by
    have hfst : (c.names.zip (c.sizes.zip (c.times.zip c.dirFlags))).map Prod.fst = c.names :=
      List.map_fst_zip (by
        simp only [List.length_zip, hnames, hsizes, htimes, hdirFlags, min_self, le_refl])
    rw [← hfst, List.zip_map_right]
    rfl
  rw [← hmap, List.mem_map]
  constructor
  · rintro ⟨⟨m, x, rest⟩, hmem, heq⟩
    obtain ⟨rfl, rfl⟩ := Prod.mk.inj heq
    exact ⟨rest, hmem⟩
  · rintro ⟨rest, hmem⟩
    exact ⟨_, hmem, rfl⟩

/-- **Columns**: the files of a directory block are extracted below every destination if and only if
its columns are free of path traversal. -/
theorem extractsBelow_of_columns {s : List UInt8} {c : Columns w} (h : readColumns w s = some c)
    (arcpos : Int) : ExtractsBelow w win isEncryption arcpos s ↔ TraversalFree win c := by
  have hread : ∀ o : ReadOptions w, archiveReadDir win isEncryption o arcpos s =
      fromColumns win isEncryption o arcpos c := fun o => by
    unfold archiveReadDir
    rw [h]
    rfl
  have hvalid_iff : (∀ n ∈ c.dirNumbers, n < c.dirnames.length) ↔
      ∀ r ∈ c.rows, ∃ d, c.dirnames[r.1]? = some d := by
    obtain ⟨-, hnames, hdirNumbers, -⟩ := length_of_readColumns h
    have hfst : (c.dirNumbers.zip c.names).map Prod.fst = c.dirNumbers :=
      List.map_fst_zip (by rw [hnames, hdirNumbers])
    constructor
    · intro hlt r hr
      have hmem := (exists_row h).mpr ⟨r.2.2, hr⟩
      exact ⟨_, List.getElem?_eq_getElem (hlt r.1 (List.of_mem_zip hmem).1)⟩
    · intro hall n hn
      rw [← hfst] at hn
      obtain ⟨⟨m, name⟩, hmem, rfl⟩ := List.mem_map.mp hn
      obtain ⟨rest, hrow⟩ := (exists_row h).mp hmem
      obtain ⟨d, hd⟩ := hall _ hrow
      exact (List.getElem?_eq_some_iff.mp hd).1
  constructor
  · -- Extracted to the empty destination, a path is the path below the destination.
    intro hbelow hvalid r hr d hd
    obtain ⟨rest, hrow⟩ := (exists_row h).mp hr
    have hall : ∀ r ∈ c.rows, ∃ i, makeRow win (extractOptions [] fun _ => true) c r = some i := by
      intro r hr
      obtain ⟨d, hd⟩ := hvalid_iff.mp hvalid r hr
      obtain ⟨fi, hfi, -⟩ := makeRow_eq win [] (fun _ => true) hd
      exact ⟨_, hfi⟩
    obtain ⟨infos, hinfos⟩ := exists_mapM_iff.mpr hall
    obtain ⟨blocks, files, hfrom, hfiles⟩ := fromColumns_files isEncryption
      arcpos h hinfos
    obtain ⟨fi, hfi, hpath⟩ := makeRow_eq win [] (fun _ => true)
      (r := (r.1, r.2, rest)) hd
    have hmem : fi ∈ files.map CompressedFile.cfFileInfo := by
      rw [hfiles, List.mem_filterMap]
      exact ⟨some fi, (mem_of_mapM hinfos _).mpr ⟨_, hrow, hfi⟩, rfl⟩
    obtain ⟨f, hf, rfl⟩ := List.mem_map.mp hmem
    obtain ⟨path, hpath', rel, hrel, hsafe⟩ := hbelow [] (fun _ => true) blocks files
      ((hread _).trans hfrom) f hf
    have hempty : ∀ x : Str, combine win [] x = x := fun x => by
      unfold combine combineAlways
      rw [if_pos rfl, ite_self]
    rw [hpath] at hpath'
    obtain rfl := Option.some.inj hpath'
    rw [hempty, hempty] at hrel
    rw [← hrel, safeRelative_combine,
      safeRelative_dropDrive_removeUnsafeDirs (native_makeOSNativePath d)] at hsafe
    exact ⟨hsafe.2, hsafe.1⟩
  · intro hfree dest filterF blocks files hrun f hf
    rw [hread] at hrun
    obtain ⟨infos, hinfos, -⟩ := Option.bind_eq_some_iff.mp hrun
    obtain ⟨blocks', files', hfrom, hfiles⟩ := fromColumns_files isEncryption
      arcpos h hinfos
    obtain ⟨rfl, rfl⟩ := Prod.mk.inj (Option.some.inj (hrun.symm.trans hfrom))
    have hmem := List.mem_map_of_mem (f := CompressedFile.cfFileInfo) hf
    rw [hfiles, List.mem_filterMap] at hmem
    obtain ⟨info, hinfo, rfl⟩ := hmem
    obtain ⟨r, hr, hmake⟩ := (mem_of_mapM hinfos _).mp hinfo
    have hvalid : ∀ r ∈ c.rows, ∃ d, c.dirnames[r.1]? = some d := by
      intro r hr
      obtain ⟨i, hi⟩ := exists_mapM_iff.mp ⟨infos, hinfos⟩ r hr
      obtain ⟨e, he, -⟩ := Option.bind_eq_some_iff.mp hi
      rw [List.getElem?_map] at he
      obtain ⟨d, hd, -⟩ := Option.map_eq_some_iff.mp he
      exact ⟨d, hd⟩
    obtain ⟨d, hd⟩ := hvalid r hr
    obtain ⟨hname, hdrives⟩ := hfree (hvalid_iff.mpr hvalid) (r.1, r.2.1)
      ((exists_row h).mpr ⟨r.2.2, hr⟩) d hd
    obtain ⟨fi, hfi, hpath⟩ := makeRow_eq win dest filterF hd
    have hdir := (safeRelative_dropDrive_removeUnsafeDirs (native_makeOSNativePath d)).mpr hdrives
    have heq : fi = f.cfFileInfo := by
      have hboth := Option.some.inj (hfi.symm.trans hmake)
      split at hboth
      · exact Option.some.inj hboth
      · cases hboth
    rw [heq] at hpath
    refine ⟨_, hpath, combine win _ r.2.1, combine_assoc hdir.1 hname.1, ?_⟩
    exact safeRelative_combine.mpr ⟨hdir, hname⟩

end

/-- The columns of a block with the file `../x`. -/
def parentColumns : Columns 4 :=
  { numOfFiles := [1], blCompressors := [[[115]]], blOffsets := [5], blCompSizes := [5],
    dirnames := [[]], names := [[46, 46, 47, 120]], dirNumbers := [0], sizes := [5], times := [9],
    dirFlags := [false], crcs := [7] }

/-- They can be written. -/
lemma parentColumns_regular : parentColumns.Regular where
  blocks := by decide
  files := by decide
  lengths := by decide
  counts := by decide
  numbers := by
    have hfive : ∀ x ∈ ([5] : List Int), Representable x :=
      List.forall_mem_singleton.mpr ⟨by decide, by decide⟩
    exact ⟨hfive, hfive, hfive⟩
  compressors := List.forall_mem_singleton.mpr ⟨by decide, by decide⟩
  strings := by decide

end DArc.Archive
