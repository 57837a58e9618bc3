import Mathlib.Computability.Language
import DArc.Archive.ByteStream

/-!
# Wildcards

`compile_RE` turns a mask into a `RegExpr`, and `match_RE` compares a string with it.  A star behind which
there are further stars tries all tails of the string; behind the last star the rest of the mask is compared
backwards, with the mask and the string reversed.

### Main results

* `reverse_maskLanguage`: the reversed mask has the reversed strings;
* `matchRE_compileRE`: the compiled mask accepts the strings of the mask.
-/

namespace DArc.Utils

open DArc.Archive

/-- The character `*`. -/
def star : Chr := 42

/-- The character `?`. -/
def question : Chr := 63

/-! ## The compiler and the matcher -/

/-- A compiled mask. -/
inductive RegExpr
  /-- The end of the mask. -/
  | nothing
  /-- Any string. -/
  | anything
  /-- A star with further stars behind it. -/
  | anyStr (r : RegExpr)
  /-- The string is compared from its end. -/
  | fromEnd (r : RegExpr)
  /-- Any character. -/
  | anyChar (r : RegExpr)
  /-- The given character. -/
  | char (c : Chr) (r : RegExpr)

/-- What is left of the mask; a star at its front, which the reversal moves away, counts for itself. -/
def maskSize (s : Str) : ℕ := 2 * s.length + if s.head? = some star then 1 else 0

/-- A mask without its first character is smaller. -/
lemma maskSize_lt (c : Chr) (cs : Str) : maskSize cs < maskSize (c :: cs) := by
  unfold maskSize
  rw [List.length_cons]
  split <;> split <;> omega

/-- A mask is smaller in reverse when it has a star at its front and no other one. -/
lemma maskSize_reverse_lt {cs : Str} (hne : cs ≠ []) (h : star ∉ cs) :
    maskSize (star :: cs).reverse < maskSize (star :: cs) := by
  have hhead : (star :: cs).reverse.head? ≠ some star := by
    rw [List.head?_reverse, List.getLast?_cons_of_ne_nil hne]
    exact fun hlast => h (List.mem_of_getLast? hlast)
  unfold maskSize
  rw [if_neg hhead, List.length_reverse, List.head?_cons, if_pos rfl]
  omega

/-- `compile_RE`. -/
def compileRE (s : Str) : RegExpr :=
  match s with
  | [] => .nothing
  | c :: cs =>
    if _hstar : c = star then
      if _hlast : cs = [] then .anything
      else if _hmore : star ∈ cs then .anyStr (compileRE cs)
      else .fromEnd (compileRE (c :: cs).reverse)
    else if c = question then .anyChar (compileRE cs)
    else .char c (compileRE cs)
termination_by maskSize s
decreasing_by
  · exact maskSize_lt c cs
  · exact _hstar ▸ maskSize_reverse_lt _hlast _hmore
  · exact maskSize_lt c cs
  · exact maskSize_lt c cs

/-- `match_RE`. -/
def matchRE : RegExpr → Str → Bool
  | .nothing, s => s.isEmpty
  | .anything, _ => true
  | .anyStr r, s => s.tails.any (matchRE r)
  | .fromEnd r, s => matchRE r s.reverse
  | .anyChar r, s =>
    match s with
    | [] => false
    | _ :: xs => matchRE r xs
  | .char c r, s =>
    match s with
    | [] => false
    | x :: xs => x == c && matchRE r xs

/-! ## The language of a mask -/

/-- A character of a mask stands for a string. -/
def StandsFor (c : Chr) (s : Str) : Prop :=
  if c = star then True
  else if c = question then s.length = 1
  else s = [c]

/-- The strings that one character of a mask stands for. -/
def letterLanguage (c : Chr) : Language Chr := {s | StandsFor c s}

/-- The strings that a mask stands for: those of its characters, one after another. -/
def maskLanguage (mask : Str) : Language Chr := (mask.map letterLanguage).prod

/-- A star stands for all strings. -/
lemma standsFor_star (s : Str) : StandsFor star s := by
  rw [StandsFor, if_pos rfl]
  trivial

/-- A question mark stands for one character. -/
lemma standsFor_question {s : Str} : StandsFor question s ↔ ∃ c, s = [c] := by
  rw [StandsFor, if_neg (by decide), if_pos rfl]
  exact List.length_eq_one_iff

/-- Every other character stands for itself. -/
lemma standsFor_char {c : Chr} (hstar : c ≠ star) (hquestion : c ≠ question) {s : Str} :
    StandsFor c s ↔ s = [c] := by
  rw [StandsFor, if_neg hstar, if_neg hquestion]

/-- The strings of a mask begin with those of its first character. -/
lemma mem_maskLanguage_cons {c : Chr} {cs s : Str} :
    s ∈ maskLanguage (c :: cs) ↔ ∃ a, StandsFor c a ∧ ∃ b ∈ maskLanguage cs, a ++ b = s := by
  rw [maskLanguage, List.map_cons, List.prod_cons]
  exact Language.mem_mul

/-- The strings of a character are the same in reverse. -/
lemma reverse_letterLanguage (c : Chr) : (letterLanguage c).reverse = letterLanguage c := by
  have hone (s : Str) (d : Chr) : s.reverse = [d] ↔ s = [d] :=
    List.reverse_eq_iff
  ext s
  change StandsFor c s.reverse ↔ StandsFor c s
  by_cases hstar : c = star
  · subst hstar
    exact iff_of_true (standsFor_star _) (standsFor_star _)
  by_cases hquestion : c = question
  · subst hquestion
    rw [standsFor_question, standsFor_question]
    exact exists_congr (hone s)
  · rw [standsFor_char hstar hquestion, standsFor_char hstar hquestion]
    exact hone s c

/-- The reversed mask has the reversed strings. -/
lemma reverse_maskLanguage (mask : Str) : maskLanguage mask.reverse = (maskLanguage mask).reverse := by
  induction mask with
  | nil => exact Language.reverse_one.symm
  | cons c cs ih =>
    have hsplit : maskLanguage (c :: cs) = letterLanguage c * maskLanguage cs := List.prod_cons
    have hlast : maskLanguage (cs.reverse ++ [c]) = maskLanguage cs.reverse * letterLanguage c := by
      rw [maskLanguage, List.map_append, List.prod_append, List.map_singleton, List.prod_singleton]
      rfl
    rw [List.reverse_cons, hlast, hsplit, Language.reverse_mul, ih, reverse_letterLanguage]

/-! ## The compiled mask -/

/-- A star is tried against all tails. -/
lemma mem_maskLanguage_star {cs s : Str} :
    s ∈ maskLanguage (star :: cs) ↔ ∃ b ∈ s.tails, b ∈ maskLanguage cs := by
  rw [mem_maskLanguage_cons]
  constructor
  · rintro ⟨a, -, b, hb, rfl⟩
    exact ⟨b, (List.mem_tails _ _).mpr (List.suffix_append a b), hb⟩
  · rintro ⟨b, hsuffix, hb⟩
    obtain ⟨a, rfl⟩ := (List.mem_tails _ _).mp hsuffix
    exact ⟨a, standsFor_star a, b, hb, rfl⟩

/-- A question mark takes one character. -/
lemma mem_maskLanguage_question {cs s : Str} :
    s ∈ maskLanguage (question :: cs) ↔ ∃ x xs, s = x :: xs ∧ xs ∈ maskLanguage cs := by
  rw [mem_maskLanguage_cons]
  constructor
  · rintro ⟨a, ha, b, hb, rfl⟩
    obtain ⟨x, rfl⟩ := standsFor_question.mp ha
    exact ⟨x, b, rfl, hb⟩
  · rintro ⟨x, xs, rfl, hxs⟩
    exact ⟨[x], standsFor_question.mpr ⟨x, rfl⟩, xs, hxs, rfl⟩

/-- Every other character takes itself. -/
lemma mem_maskLanguage_char {c : Chr} (hstar : c ≠ star) (hquestion : c ≠ question) {cs s : Str} :
    s ∈ maskLanguage (c :: cs) ↔ ∃ xs, s = c :: xs ∧ xs ∈ maskLanguage cs := by
  rw [mem_maskLanguage_cons]
  constructor
  · rintro ⟨a, ha, b, hb, rfl⟩
    obtain rfl := (standsFor_char hstar hquestion).mp ha
    exact ⟨b, rfl, hb⟩
  · rintro ⟨xs, rfl, hxs⟩
    exact ⟨[c], (standsFor_char hstar hquestion).mpr rfl, xs, hxs, rfl⟩

/-- **The compiled mask accepts exactly the strings of the mask**, where a star stands for all strings, a question
mark for any one character and every other character for itself. -/
theorem matchRE_compileRE (mask s : Str) :
    matchRE (compileRE mask) s = true ↔ s ∈ maskLanguage mask := by
  fun_induction compileRE mask generalizing s with
  | case1 => exact List.isEmpty_iff
  | case2 =>
    refine iff_of_true rfl ?_
    rw [mem_maskLanguage_star]
    exact ⟨[], (List.mem_tails _ _).mpr List.nil_suffix, Language.nil_mem_one⟩
  | case3 cs hne hmore ih =>
    rw [matchRE, List.any_eq_true, mem_maskLanguage_star]
    exact exists_congr fun b => and_congr_right fun _ => ih b
  | case4 cs hne hmore ih =>
    rw [matchRE, ih, reverse_maskLanguage]
    exact Language.reverse_mem_reverse
  | case5 cs hstar ih =>
    rw [mem_maskLanguage_question]
    cases s with
    | nil => simp [matchRE]
    | cons x xs => simp [matchRE, ih]
  | case6 c cs hstar hquestion ih =>
    rw [mem_maskLanguage_char hstar hquestion]
    cases s with
    | nil => simp [matchRE]
    | cons x xs => simp [matchRE, ih]

end DArc.Utils
