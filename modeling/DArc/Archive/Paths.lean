import DArc.Archive.ByteStream
import DArc.Library.Separated

/-!
# File names and directories

The functions of `FilePath` and `Files` through which a directory name passes on its way into an
archive and out of it: `unixifyPath` when it is written, `makeOSNativePath` and `removeUnsafeDirs`
when it is read.  The first argument `win` of the functions tells a Windows build from a Posix one.

### Main results

* `joinPath_eq`: components without drives and separators are joined by slashes;
* `splitDirectories_eq`: and a path joined from them is split into them;
* `restoredDirectory_eq`: a directory made of safe components is read as it was written.
-/

namespace DArc.Archive

/-- `/`. -/
def slash : Chr := 47

/-- `\`. -/
def backslash : Chr := 92

/-- `:`. -/
def colon : Chr := 58

/-- `.`. -/
def dot : Chr := 46

/-- `?`. -/
def question : Chr := 63

/-- `pathSeparator`. -/
def pathSeparator : Chr := slash

/-- `pathSeparators`. -/
def pathSeparators (win : Bool) : List Chr := if win then [backslash, slash] else [slash]

/-- `isPathSeparator`. -/
def isPathSeparator (win : Bool) (c : Chr) : Bool := c ∈ pathSeparators win

/-- `replace`. -/
def replace (a b : Chr) (s : Str) : Str := s.map fun x => if x = a then b else x

/-- `windosifyPath`. -/
def windosifyPath (s : Str) : Str := replace slash backslash s

/-- `unixifyPath`. -/
def unixifyPath (s : Str) : Str := replace backslash slash s

/-- `make_OS_native_path`. -/
def makeOSNativePath (win : Bool) (s : Str) : Str := if win then windosifyPath s else unixifyPath s

/-! ## Drives -/

/-- `isLetter`. -/
def isLetter (x : Chr) : Bool := (97 ≤ x.val && x.val ≤ 122) || (65 ≤ x.val && x.val ≤ 90)

/-- `addSlash`. -/
def addSlash (win : Bool) (a xs : Str) : Str × Str :=
  (a ++ xs.takeWhile (isPathSeparator win), xs.dropWhile (isPathSeparator win))

/-- `readDriveLetter`. -/
def readDriveLetter (win : Bool) : Str → Option (Str × Str)
  | x :: c :: xs =>
    if c = colon ∧ isLetter x then
      match xs with
      | y :: ys =>
        if isPathSeparator win y then some (addSlash win [x, c] (y :: ys)) else some ([x, c], y :: ys)
      | [] => some ([x, c], [])
    else none
  | _ => none

/-- `readDriveShareName`. -/
def readDriveShareName (win : Bool) (name : Str) : Str × Str :=
  addSlash win (name.takeWhile fun c => !isPathSeparator win c)
    (name.dropWhile fun c => !isPathSeparator win c)

/-- The comparison of `map toUpper xs` with `UNC`. -/
def startsWithUNC (win : Bool) : Str → Bool
  | u :: n :: c :: s4 :: _ =>
    (u.val = 85 || u.val = 117) && (n.val = 78 || n.val = 110) && (c.val = 67 || c.val = 99) &&
      isPathSeparator win s4
  | _ => false

/-- `readDriveUNC`. -/
def readDriveUNC (win : Bool) : Str → Option (Str × Str)
  | s1 :: s2 :: q :: s3 :: xs =>
    if q = question ∧ isPathSeparator win s1 ∧ isPathSeparator win s2 ∧ isPathSeparator win s3 then
      if startsWithUNC win xs then
        let (a, b) := readDriveShareName win (xs.drop 4)
        some ([s1, s2, q, s3] ++ xs.take 4 ++ a, b)
      else
        match readDriveLetter win xs with
        | some (a, b) => some ([s1, s2, q, s3] ++ a, b)
        | none => none
    else none
  | _ => none

/-- `readDriveShare`. -/
def readDriveShare (win : Bool) : Str → Option (Str × Str)
  | s1 :: s2 :: xs =>
    if isPathSeparator win s1 ∧ isPathSeparator win s2 then
      let (a, b) := readDriveShareName win xs
      some ([s1, s2] ++ a, b)
    else none
  | _ => none

/-- `splitDrive`. -/
def splitDrive (win : Bool) (x : Str) : Str × Str :=
  if !win then (x.takeWhile (· = slash), x.dropWhile (· = slash))
  else
    match readDriveLetter win x with
    | some y => y
    | none =>
      match readDriveUNC win x with
      | some y => y
      | none =>
        match readDriveShare win x with
        | some y => y
        | none =>
          match x with
          | c :: xs => if isPathSeparator win c then addSlash win [c] xs else ([], c :: xs)
          | [] => ([], [])

/-- `joinDrive`. -/
def joinDrive (win : Bool) (a b : Str) : Str :=
  if !win then a ++ b
  else if a = [] then b
  else if b = [] then a
  else if a.getLast?.any (isPathSeparator win) then a ++ b
  else
    match a with
    | [a1, c] => if c = colon ∧ isLetter a1 then a ++ b else a ++ [pathSeparator] ++ b
    | _ => a ++ [pathSeparator] ++ b

/-- `takeDrive`. -/
def takeDrive (win : Bool) (x : Str) : Str := (splitDrive win x).1

/-- `dropDrive`. -/
def dropDrive (win : Bool) (x : Str) : Str := (splitDrive win x).2

/-- `hasDrive`, which is also `isAbsolute`. -/
def hasDrive (win : Bool) (x : Str) : Bool := !(takeDrive win x).isEmpty

/-- `isDrive`. -/
def isDrive (win : Bool) (x : Str) : Bool := (dropDrive win x).isEmpty

/-! ## Components -/

/-- `combineAlways`. -/
def combineAlways (win : Bool) (a b : Str) : Str :=
  if a = [] then b
  else if b = [] then a
  else if a.getLast?.any (isPathSeparator win) then a ++ b
  else if isDrive win a then joinDrive win a b
  else a ++ [pathSeparator] ++ b

/-- `combine`, that is, `</>`. -/
def combine (win : Bool) (a b : Str) : Str := if hasDrive win b then b else combineAlways win a b

/-- What follows the first component and its separators is shorter. -/
lemma length_dropWhile_dropWhile (p : Chr → Bool) (x : Chr) (y : Str) :
    (((x :: y).dropWhile fun c => !p c).dropWhile p).length < (x :: y).length := by
  cases hx : p x with
  | true =>
    rw [List.dropWhile_cons_of_neg (by simp [hx]), List.dropWhile_cons_of_pos hx]
    exact Nat.lt_succ_of_le (List.length_dropWhile_le p y)
  | false =>
    rw [List.dropWhile_cons_of_pos (by simp [hx])]
    exact Nat.lt_succ_of_le
      ((List.length_dropWhile_le p _).trans (List.length_dropWhile_le (fun c => !p c) y))

/-- The function `f` of `splitPath`: each component with the separators behind it. -/
def splitComponents (win : Bool) : Str → List Str
  | [] => []
  | x :: y =>
    let a := (x :: y).takeWhile fun c => !isPathSeparator win c
    let b := (x :: y).dropWhile fun c => !isPathSeparator win c
    (a ++ b.takeWhile (isPathSeparator win)) :: splitComponents win (b.dropWhile (isPathSeparator win))
termination_by y => y.length
decreasing_by exact length_dropWhile_dropWhile (isPathSeparator win) x y

/-- `splitPath`. -/
def splitPath (win : Bool) (x : Str) : List Str :=
  let (drive, path) := splitDrive win x
  (if drive ≠ [] then [drive] else []) ++ splitComponents win path

/-- The function `g` of `splitDirectories`: a component without the separators behind it. -/
def dropSeparators (win : Bool) (x : Str) : Str :=
  let res := x.takeWhile fun c => !isPathSeparator win c
  if res.isEmpty then x else res

/-- `splitDirectories`. -/
def splitDirectories (win : Bool) (path : Str) : List Str :=
  let pathComponents := splitPath win path
  if hasDrive win path then
    match pathComponents with
    | head :: tail => head :: tail.map (dropSeparators win)
    | [] => []
  else pathComponents.map (dropSeparators win)

/-- `joinPath`. -/
def joinPath (win : Bool) (x : List Str) : Str := x.foldr (combine win) []

/-- `.` as a component. -/
def here : Str := [dot]

/-- `..` as a component. -/
def parentDir : Str := [dot, dot]

/-- The function `process` of `remove_unsafe_dirs`, on reversed components. -/
def dropParents : List Str → List Str
  | [] => []
  | [x] => if x = parentDir then [] else [x]
  | x :: y :: xs => if x = parentDir then dropParents xs else x :: dropParents (y :: xs)

/-- `remove_unsafe_dirs`. -/
def removeUnsafeDirs (win : Bool) (path : Str) : Str :=
  joinPath win (dropParents ((splitDirectories win path).reverse.filter (· ≠ here))).reverse

/-- What a directory written to an archive is read as. -/
def restoredDirectory (win : Bool) (d : Str) : Str :=
  removeUnsafeDirs win (makeOSNativePath win (unixifyPath d))

/-! ## Safe directories -/

/-- A component begins with a drive letter. -/
def BeginsWithDrive : Str → Prop
  | x :: c :: _ => isLetter x ∧ c = colon
  | _ => False

/-- A component that neither the separators nor the drives nor the special names interfere with. -/
structure SafeComponent (win : Bool) (p : Str) : Prop where
  /-- The component is not empty. -/
  ne_nil : p ≠ []
  /-- The component is not `.`. -/
  ne_here : p ≠ here
  /-- The component is not `..`. -/
  ne_parentDir : p ≠ parentDir
  /-- The component has no slash. -/
  noSlash : slash ∉ p
  /-- The component has no backslash. -/
  noBackslash : backslash ∉ p
  /-- On Windows the component does not begin with a drive letter. -/
  noDrive : win = true → ¬ BeginsWithDrive p

/-- A directory without backslashes and without empty, `.` and `..` components. -/
def PlainDirectory (d : Str) : Prop :=
  backslash ∉ d ∧ (d = [] ∨ ∀ p ∈ split slash d, p ≠ [] ∧ p ≠ here ∧ p ≠ parentDir)

/-- On Windows no component begins with a drive letter. -/
def Driveless (win : Bool) (d : Str) : Prop :=
  win = true → ∀ p ∈ split slash d, ¬ BeginsWithDrive p

/-- The separators of both platforms are slashes and backslashes. -/
lemma notSeparator {win : Bool} {c : Chr} (hslash : c ≠ slash) (hback : c ≠ backslash) :
    isPathSeparator win c = false := by
  unfold isPathSeparator pathSeparators
  cases win <;> simp [hslash, hback]

/-- A safe component has no separators. -/
lemma SafeComponent.notSeparator {win : Bool} {p : Str} (h : SafeComponent win p) :
    ∀ c ∈ p, isPathSeparator win c = false := fun _ hc =>
  Archive.notSeparator (fun hs => h.noSlash (hs ▸ hc)) fun hb => h.noBackslash (hb ▸ hc)

/-- The separator that `makeOSNativePath` uses. -/
def nativeSeparator (win : Bool) : Chr := if win then backslash else slash

/-- It is a separator, and no colon. -/
lemma isPathSeparator_native (win : Bool) :
    isPathSeparator win (nativeSeparator win) = true ∧ nativeSeparator win ≠ colon := by
  cases win <;> decide

/-- The slash is a separator, and no colon. -/
lemma isPathSeparator_slash (win : Bool) : isPathSeparator win slash = true ∧ slash ≠ colon := by
  cases win <;> decide

/-- A path that begins neither with a separator nor with a drive letter has no drive. -/
lemma splitDrive_eq {win : Bool} {x : Str} (hsep : ∀ c ∈ x.head?, isPathSeparator win c = false)
    (hdrive : win = true → ¬ BeginsWithDrive x) : splitDrive win x = ([], x) := by
  cases x with
  | nil => cases win <;> rfl
  | cons c xs =>
    have hc : isPathSeparator win c = false := hsep c rfl
    cases win with
    | false =>
      have hne : c ≠ slash := by
        rintro rfl
        exact absurd hc (by decide)
      have htake : (c :: xs).takeWhile (· = slash) = [] :=
        List.takeWhile_cons_of_neg (by simpa using hne)
      have hdrop : (c :: xs).dropWhile (· = slash) = c :: xs :=
        List.dropWhile_cons_of_neg (by simpa using hne)
      unfold splitDrive
      rw [if_pos (by decide), htake, hdrop]
    | true =>
      have hletter : readDriveLetter true (c :: xs) = none := by
        cases xs with
        | nil => rfl
        | cons d xs =>
          have hnot : ¬ (d = colon ∧ isLetter c = true) := fun h => hdrive rfl ⟨h.2, h.1⟩
          unfold readDriveLetter
          dsimp only
          rw [if_neg hnot]
      have hunc : readDriveUNC true (c :: xs) = none := by
        unfold readDriveUNC
        split
        · next heq =>
          obtain ⟨rfl, -⟩ := List.cons.inj heq
          rw [if_neg]
          simp [hc]
        · rfl
      have hshare : readDriveShare true (c :: xs) = none := by
        unfold readDriveShare
        split
        · next heq =>
          obtain ⟨rfl, -⟩ := List.cons.inj heq
          rw [if_neg]
          simp [hc]
        · rfl
      unfold splitDrive
      rw [if_neg (by decide), hletter, hunc, hshare]
      dsimp only
      rw [if_neg (by simp [hc])]

/-- A path without a drive. -/
lemma hasDrive_eq_false {win : Bool} {x : Str} (hsep : ∀ c ∈ x.head?, isPathSeparator win c = false)
    (hdrive : win = true → ¬ BeginsWithDrive x) : hasDrive win x = false := by
  unfold hasDrive takeDrive
  rw [splitDrive_eq hsep hdrive]
  rfl

/-- Only the first component decides whether a path begins with a drive letter. -/
lemma beginsWithDrive_append {p rest : Str} {s : Chr} (hp : p ≠ []) (hs : s ≠ colon)
    (h : BeginsWithDrive (p ++ s :: rest)) : BeginsWithDrive p := by
  match p, hp, h with
  | [x], _, h => exact absurd h.2 hs
  | x :: c :: p, _, h => exact h

/-- A path of safe components begins like its first component. -/
lemma beginning_joinWith {win : Bool} {s : Chr} (hs : s ≠ colon) {p : Str}
    (hp : SafeComponent win p) (ps : List Str) :
    (∀ c ∈ (joinWith [s] (p :: ps)).head?, isPathSeparator win c = false) ∧
      (win = true → ¬ BeginsWithDrive (joinWith [s] (p :: ps))) := by
  cases ps with
  | nil =>
    exact ⟨fun c hc => hp.notSeparator c (List.mem_of_mem_head? hc), hp.noDrive⟩
  | cons q ps =>
    rw [joinWith_cons _ _ (List.cons_ne_nil q ps), List.append_assoc, List.singleton_append]
    constructor
    · intro c hc
      rw [List.head?_append_of_ne_nil _ hp.ne_nil] at hc
      exact hp.notSeparator c (List.mem_of_mem_head? hc)
    · intro hwin h
      exact hp.noDrive hwin (beginsWithDrive_append hp.ne_nil hs h)

/-- A path of safe components has no drive. -/
lemma hasDrive_joinWith {win : Bool} {s : Chr} (hs : s ≠ colon) {ps : List Str}
    (h : ∀ p ∈ ps, SafeComponent win p) : hasDrive win (joinWith [s] ps) = false := by
  cases ps with
  | nil => cases win <;> rfl
  | cons p ps =>
    obtain ⟨hsep, hdrive⟩ := beginning_joinWith hs (h p List.mem_cons_self) ps
    exact hasDrive_eq_false hsep hdrive

/-! ## Splitting and joining -/

/-- The first component of a path, its separator and the components behind it. -/
lemma splitComponents_append {win : Bool} {p rest : Str} {s : Chr}
    (hp : ∀ c ∈ p, isPathSeparator win c = false) (hne : p ≠ []) (hs : isPathSeparator win s = true)
    (hrest : ∀ c ∈ rest.head?, isPathSeparator win c = false) :
    splitComponents win (p ++ s :: rest) = (p ++ [s]) :: splitComponents win rest := by
  have hall : ∀ c ∈ p, (!isPathSeparator win c) = true := fun c hc => by simp [hp c hc]
  have htake : (p ++ s :: rest).takeWhile (fun c => !isPathSeparator win c) = p := by
    rw [List.takeWhile_append_of_pos hall, List.takeWhile_cons_of_neg (by simp [hs]),
      List.append_nil]
  have hdrop : (p ++ s :: rest).dropWhile (fun c => !isPathSeparator win c) = s :: rest := by
    rw [List.dropWhile_append_of_pos hall, List.dropWhile_cons_of_neg (by simp [hs])]
  have hrest' : rest.takeWhile (isPathSeparator win) = [] ∧
      rest.dropWhile (isPathSeparator win) = rest := by
    cases rest with
    | nil => exact ⟨rfl, rfl⟩
    | cons c rest =>
      have hc : ¬ isPathSeparator win c = true := by simp [hrest c rfl]
      exact ⟨List.takeWhile_cons_of_neg hc, List.dropWhile_cons_of_neg hc⟩
  obtain ⟨x, y, hxy⟩ : ∃ x y, p ++ s :: rest = x :: y := by
    cases p with
    | nil => exact absurd rfl hne
    | cons x p => exact ⟨x, _, rfl⟩
  rw [hxy, splitComponents, ← hxy, htake, hdrop, List.takeWhile_cons_of_pos hs,
    List.dropWhile_cons_of_pos hs, hrest'.1, hrest'.2]

/-- The last component. -/
lemma splitComponents_last {win : Bool} {p : Str} (hp : ∀ c ∈ p, isPathSeparator win c = false)
    (hne : p ≠ []) : splitComponents win p = [p] := by
  have hall : ∀ c ∈ p, (!isPathSeparator win c) = true := fun c hc => by simp [hp c hc]
  obtain ⟨x, y, rfl⟩ := List.exists_cons_of_ne_nil hne
  rw [splitComponents, List.takeWhile_eq_self_iff.mpr hall, List.dropWhile_eq_nil_iff.mpr hall,
    List.takeWhile_nil, List.dropWhile_nil, List.append_nil, splitComponents]

/-- A component loses the separator behind it. -/
lemma dropSeparators_append {win : Bool} {p : Str}
    (hp : ∀ c ∈ p, isPathSeparator win c = false) (hne : p ≠ []) (rest : Str)
    (hrest : ∀ c ∈ rest.head?, isPathSeparator win c = true) :
    dropSeparators win (p ++ rest) = p := by
  have hall : ∀ c ∈ p, (!isPathSeparator win c) = true := fun c hc => by simp [hp c hc]
  have htake : (p ++ rest).takeWhile (fun c => !isPathSeparator win c) = p := by
    rw [List.takeWhile_append_of_pos hall]
    cases rest with
    | nil => exact List.append_nil p
    | cons c rest =>
      rw [List.takeWhile_cons_of_neg (by simp [hrest c rfl]), List.append_nil]
  unfold dropSeparators
  rw [htake, if_neg (by simpa using hne)]

/-- Safe components joined by a separator are the components of the path. -/
lemma splitComponents_joinWith {win : Bool} {s : Chr} (hs : isPathSeparator win s = true)
    (hcolon : s ≠ colon) {ps : List Str} (h : ∀ p ∈ ps, SafeComponent win p) :
    (splitComponents win (joinWith [s] ps)).map (dropSeparators win) = ps := by
  induction ps with
  | nil => rw [joinWith, splitComponents, List.map_nil]
  | cons p ps ih =>
    have hp := h p List.mem_cons_self
    have hps : ∀ q ∈ ps, SafeComponent win q := fun q hq => h q (List.mem_cons_of_mem _ hq)
    cases ps with
    | nil =>
      have hdrop := dropSeparators_append hp.notSeparator hp.ne_nil [] (by simp)
      rw [List.append_nil] at hdrop
      rw [joinWith, splitComponents_last hp.notSeparator hp.ne_nil, List.map_singleton, hdrop]
    | cons q ps =>
      obtain ⟨hrest, -⟩ := beginning_joinWith hcolon (hps q List.mem_cons_self) ps
      rw [joinWith_cons _ _ (List.cons_ne_nil q ps), List.append_assoc, List.singleton_append,
        splitComponents_append hp.notSeparator hp.ne_nil hs hrest, List.map_cons, ih hps,
        dropSeparators_append hp.notSeparator hp.ne_nil _ (by simpa using hs)]

/-- Safe components joined by a separator are split again. -/
lemma splitDirectories_eq {win : Bool} {s : Chr} (hs : isPathSeparator win s = true)
    (hcolon : s ≠ colon) {ps : List Str} (h : ∀ p ∈ ps, SafeComponent win p) :
    splitDirectories win (joinWith [s] ps) = ps := by
  have hdrive := hasDrive_joinWith hcolon h
  have hsplit : splitDrive win (joinWith [s] ps) = ([], joinWith [s] ps) := by
    cases ps with
    | nil => cases win <;> rfl
    | cons p ps =>
      obtain ⟨hsep, hnodrive⟩ := beginning_joinWith hcolon (h p List.mem_cons_self) ps
      exact splitDrive_eq hsep hnodrive
  unfold splitDirectories splitPath
  rw [hsplit]
  dsimp only
  rw [if_neg (by simp [hdrive]), if_neg (by simp), List.nil_append]
  exact splitComponents_joinWith hs hcolon h

/-- Safe components are joined by slashes. -/
lemma joinPath_eq {win : Bool} {ps : List Str} (h : ∀ p ∈ ps, SafeComponent win p) :
    joinPath win ps = joinWith [slash] ps := by
  induction ps with
  | nil => rfl
  | cons p ps ih =>
    have hp := h p List.mem_cons_self
    have hps : ∀ q ∈ ps, SafeComponent win q := fun q hq => h q (List.mem_cons_of_mem _ hq)
    have hlast : p.getLast?.any (isPathSeparator win) = false := by
      rw [Option.any_eq_false]
      intro c hc
      simp [hp.notSeparator c (List.mem_of_getLast? hc)]
    have hdrive : isDrive win p = false := by
      unfold isDrive dropDrive
      rw [splitDrive_eq (fun c hc => hp.notSeparator c (List.mem_of_mem_head? hc)) hp.noDrive]
      simpa using hp.ne_nil
    have hfold : joinPath win (p :: ps) = combine win p (joinPath win ps) := rfl
    rw [hfold, ih hps]
    unfold combine
    rw [hasDrive_joinWith (isPathSeparator_slash win).2 hps, if_neg (by decide)]
    unfold combineAlways
    rw [if_neg hp.ne_nil]
    cases ps with
    | nil => exact if_pos rfl
    | cons q ps =>
      have hne : joinWith [slash] (q :: ps) ≠ [] := by
        obtain ⟨x, y, hxy⟩ := List.exists_cons_of_ne_nil (hps q List.mem_cons_self).ne_nil
        cases ps with
        | nil => exact (hps q List.mem_cons_self).ne_nil
        | cons r ps => simp [joinWith, hxy]
      rw [if_neg hne, if_neg (by simp [hlast]), if_neg (by simp [hdrive]),
        joinWith_cons _ _ (List.cons_ne_nil q ps)]
      rfl

/-- Components that are not `..` are kept. -/
lemma dropParents_eq {xs : List Str} (h : ∀ x ∈ xs, x ≠ parentDir) : dropParents xs = xs := by
  fun_induction dropParents xs with
  | case1 => rfl
  | case2 => exact absurd rfl (h parentDir List.mem_cons_self)
  | case3 x hne => rfl
  | case4 y xs ih => exact absurd rfl (h parentDir List.mem_cons_self)
  | case5 x y xs hne ih => rw [ih fun z hz => h z (List.mem_cons_of_mem _ hz)]

/-- Safe components survive `removeUnsafeDirs`. -/
lemma removeUnsafeDirs_eq {win : Bool} {s : Chr} (hs : isPathSeparator win s = true)
    (hcolon : s ≠ colon) {ps : List Str} (h : ∀ p ∈ ps, SafeComponent win p) :
    removeUnsafeDirs win (joinWith [s] ps) = joinWith [slash] ps := by
  have hfilter : ps.reverse.filter (· ≠ here) = ps.reverse := by
    rw [List.filter_eq_self]
    intro p hp
    simpa using (h p (List.mem_reverse.mp hp)).ne_here
  unfold removeUnsafeDirs
  rw [splitDirectories_eq hs hcolon h, hfilter,
    dropParents_eq fun p hp => (h p (List.mem_reverse.mp hp)).ne_parentDir, List.reverse_reverse,
    joinPath_eq h]

/-! ## Directories -/

/-- Replacing a character that does not occur. -/
lemma replace_of_notMem {a b : Chr} {s : Str} (h : a ∉ s) : replace a b s = s := by
  unfold replace
  rw [List.map_congr_left (g := id), List.map_id]
  intro x hx
  rw [if_neg]
  · rfl
  · rintro rfl
    exact h hx

/-- Replacing the separator between lists. -/
lemma replace_joinWith {a b : Chr} {ps : List Str} (h : ∀ p ∈ ps, a ∉ p) :
    replace a b (joinWith [a] ps) = joinWith [b] ps := by
  induction ps with
  | nil => rfl
  | cons p ps ih =>
    have hp := replace_of_notMem (b := b) (h p List.mem_cons_self)
    by_cases hps : ps = []
    · subst hps
      exact hp
    · have happend : replace a b (p ++ [a] ++ joinWith [a] ps) =
          replace a b p ++ [b] ++ replace a b (joinWith [a] ps) := by
        simp [replace]
      rw [joinWith_cons _ _ hps, joinWith_cons _ _ hps, happend, hp,
        ih fun q hq => h q (List.mem_cons_of_mem _ hq)]

/-- The native spelling of a path without backslashes. -/
lemma makeOSNativePath_joinWith {win : Bool} {ps : List Str} (hslash : ∀ p ∈ ps, slash ∉ p)
    (hback : backslash ∉ joinWith [slash] ps) :
    makeOSNativePath win (unixifyPath (joinWith [slash] ps)) = joinWith [nativeSeparator win] ps := by
  have hunix : unixifyPath (joinWith [slash] ps) = joinWith [slash] ps := replace_of_notMem hback
  unfold makeOSNativePath
  cases win with
  | false => rw [if_neg (by decide), hunix, hunix]; rfl
  | true => rw [if_pos rfl, hunix]; exact replace_joinWith hslash

/-- A plain directory without drives is read as it was written. -/
theorem restoredDirectory_eq {win : Bool} {d : Str} (h : PlainDirectory d) (hdrive : Driveless win d) :
    restoredDirectory win d = d := by
  obtain ⟨hsep, hcolon⟩ := isPathSeparator_native win
  obtain ⟨hback, hempty | hpieces⟩ := h
  · subst hempty
    have hempty : removeUnsafeDirs win (joinWith [nativeSeparator win] []) = joinWith [slash] [] :=
      removeUnsafeDirs_eq hsep hcolon fun p hp => absurd hp List.not_mem_nil
    have hnative : makeOSNativePath win (unixifyPath []) = [] := by cases win <;> rfl
    unfold restoredDirectory
    rw [hnative]
    exact hempty
  · have hsafe : ∀ p ∈ split slash d, SafeComponent win p := fun p hp =>
      { ne_nil := (hpieces p hp).1
        ne_here := (hpieces p hp).2.1
        ne_parentDir := (hpieces p hp).2.2
        noSlash := notMem_of_mem_split hp
        noBackslash := fun hb => hback (mem_of_mem_split hp hb)
        noDrive := fun hwin => hdrive hwin p hp }
    have hjoin : joinWith [slash] (split slash d) = d := joinWith_split slash d
    have hnative : makeOSNativePath win (unixifyPath (joinWith [slash] (split slash d))) =
        joinWith [nativeSeparator win] (split slash d) :=
      makeOSNativePath_joinWith (fun p hp => (hsafe p hp).noSlash) (hjoin.symm ▸ hback)
    rw [hjoin] at hnative
    unfold restoredDirectory
    rw [hnative, removeUnsafeDirs_eq hsep hcolon hsafe, hjoin]

end DArc.Archive
