import DArc.FileList.CopiedBlocks
import Mathlib.Data.Rat.Defs
import Mathlib.Algebra.Order.Ring.Rat

/-!
# The memory of a chain of methods

Where the methods of a chain need more memory together than there is, temporary files are put between them. The
pass that puts them there adds up memory in one way, the estimate of what a chain needs in another.

### Outline

* `genericLimitMemoryUsage`: the chain with temporary files;
* `calcMem`: the memory that a chain needs;
* `LimitsMemory`: the temporary files stand between methods, and what stands between them is within the limit;
* `Cluster`: the methods that are counted together, with what each of them is counted for.

### Main results

* `getMemSum_le`: a cluster in which no method is counted for too little is within the limit;
* `limitsMemory_iff`: when the temporary files keep to the limit.
-/

namespace DArc.Compression

open DArc.Archive (Str)
open DArc.FileList (deleteTempCompressors)

/-! ## The pass and the estimate -/

/-- `isLZP_Method`. -/
def isLzpMethod (method : Str) : Bool := methodName method = text "lzp"

/-- The name of the method that makes a temporary file. -/
def tempfile : Str := text "tempfile"

/-- `liftGetter`. -/
def liftGetter (action : Str → ℕ) (method : Str) : ℕ :=
  if method = text "storing" then 0 else if isFakeMethod method then 0 else action method

/-- `splitOn`. -/
def splitOn (crit : Str → Bool) (xs : Compressor) : List Compressor :=
  if xs = [] then []
  else
    let ys := xs.takeWhile fun x => !crit x
    (if ys = [] then [] else [ys]) ++
      match _h : xs.dropWhile fun x => !crit x with
      | [] => []
      | z :: zs => [z] :: splitOn crit zs
termination_by xs.length
decreasing_by
  have hlen := List.length_dropWhile_le (fun x => !crit x) xs
  rw [_h, List.length_cons] at hlen
  omega

section Requirements

variable (isExternal : Str → Bool) (blockSize getMem : Str → ℕ)

/-- `getBlockSize` of a method, where `blockSize` is `CompressionLib.getBlockSize`. -/
def methodBlockSize (method : Str) : ℕ := liftGetter blockSize method

/-- `newMem`: what the method `x` behind the method `prev` is counted for. -/
def newMem (mem : ℚ) (prev x : Str) : ℚ :=
  if mem = 0 ∧ isDictMethod x then (methodBlockSize blockSize x : ℚ) / 2
  else if isDictMethod prev ∧ isLzpMethod x then 0
  else getMem x

/-- The loop of `genericLimitMemoryUsage`, where `bound` is the limit with the allowance. -/
def limitFrom (bound : ℚ) : ℚ → Str → Compressor → Compressor
  | _, _, [] => []
  | mem, prev, x :: xs =>
    if isExternal x then x :: limitFrom bound 0 x xs
    else if mem + newMem blockSize getMem mem prev x < bound then
      x :: limitFrom bound (mem + newMem blockSize getMem mem prev x) x xs
    else tempfile :: x :: limitFrom bound (newMem blockSize getMem mem prev x) x xs

/-- `memlimit*1.05`. -/
def allowed (memoryLimit : ℕ) : ℚ := (memoryLimit : ℚ) * (105 / 100)

/-- `genericLimitMemoryUsage`. -/
def genericLimitMemoryUsage (memoryLimit : ℕ) (chain : Compressor) : Compressor :=
  limitFrom isExternal blockSize getMem (allowed memoryLimit) 0 [] chain

/-- `getMemSum`. -/
def getMemSum : Compressor → ℕ
  | x :: y :: xs =>
    if isDictMethod x && isLzpMethod y then
      max (getMem x) (methodBlockSize blockSize x / 2 + getMemSum xs)
    else if isDictMethod x then max (getMem x) (methodBlockSize blockSize x / 2 + getMemSum (y :: xs))
    else getMem x + getMemSum (y :: xs)
  | [x] => if isDictMethod x then max (getMem x) (methodBlockSize blockSize x / 2 + 0) else getMem x + 0
  | [] => 0

/-- `calcMem`, which is not defined for the empty chain. -/
def calcMem (chain : Compressor) : Option ℕ :=
  ((splitOn isExternal chain).map (getMemSum blockSize getMem)).max?

/-! ## The limit -/

/-- A temporary file or an external method: a method at which the memory is free again. -/
def isBreak (x : Str) : Bool := x = tempfile || isExternal x

/-- `dict` followed by `lzp`. -/
def isDictLzp : Compressor → Bool
  | [x, y] => isDictMethod x && isLzpMethod y
  | _ => false

/-- A single method, `dict` with `lzp`, or methods that need no more than the limit together. -/
def Limited (memoryLimit : ℕ) (part : Compressor) : Prop :=
  part.length = 1 ∨ isDictLzp part ∨
    ∃ mem ∈ calcMem isExternal blockSize getMem part, (mem : ℚ) ≤ allowed memoryLimit

/-- The chain is `result` without temporary files, which stand between methods of the chain, and what stands
between two of them or external methods is within the limit. -/
structure LimitsMemory (memoryLimit : ℕ) (chain result : Compressor) : Prop where
  /-- The temporary files are all there is besides the chain. -/
  deleted : deleteTempCompressors result = chain
  /-- There is a method of the chain on both sides. -/
  between : ∀ before behind, result = before ++ tempfile :: behind →
    (∃ x ∈ before.getLast?, x ≠ tempfile) ∧ ∃ x ∈ behind.head?, x ≠ tempfile
  /-- The parts are within the limit. -/
  limited : ∀ part ∈ result.splitOnP (isBreak isExternal), part ≠ [] →
    Limited isExternal blockSize getMem memoryLimit part

/-! ## Clusters -/

/-- Methods that are counted together, with what each is counted for. -/
abbrev Cluster := List (Str × ℚ)

/-- The methods. -/
def Cluster.stages (q : Cluster) : Compressor := q.map Prod.fst

/-- What they are counted for. -/
def Cluster.load (q : Cluster) : ℚ := (q.map Prod.snd).sum

/-- The cluster behind the method `x`. -/
def Cluster.next (bound : ℚ) (q : Cluster) (prev x : Str) : Cluster :=
  if isExternal x then []
  else if q.load + newMem blockSize getMem q.load prev x < bound then
    q ++ [(x, newMem blockSize getMem q.load prev x)]
  else [(x, newMem blockSize getMem q.load prev x)]

/-- The cluster behind a chain. -/
def countedFrom (bound : ℚ) (q : Cluster) (prev : Str) : Compressor → Cluster
  | [] => q
  | x :: xs => countedFrom bound (q.next isExternal blockSize getMem bound prev x) x xs

/-- The methods that are counted together when the pass stands behind the chain `before`. -/
def counted (bound : ℚ) (before : Compressor) : Cluster :=
  countedFrom isExternal blockSize getMem bound [] [] before

/-- A method is counted for too little behind the methods `before`: `dict` where its own memory goes over the
bound or less than half of its block is counted, another method where less than its memory is counted, unless it
is `lzp` and `dict` is right before it. -/
def Under (bound : ℚ) (before : Cluster) (x : Str) (charge : ℚ) : Prop :=
  if isDictMethod x then
    bound < before.load + getMem x ∨ charge < (methodBlockSize blockSize x / 2 : ℕ)
  else
    charge < getMem x ∧ ¬ ∃ y ∈ before.getLast?, isDictMethod y.1 ∧ isLzpMethod x

/-- Some method of the cluster is counted for too little. -/
def Undercharged (bound : ℚ) (q : Cluster) : Prop :=
  ∃ before x charge behind, q = before ++ (x, charge) :: behind ∧
    Under blockSize getMem bound before x charge

/-- At most one method, `dict` with `lzp`, or methods that need no more than the bound together. -/
def Within (bound : ℚ) (part : Compressor) : Prop :=
  part.length ≤ 1 ∨ isDictLzp part ∨ (getMemSum blockSize getMem part : ℚ) ≤ bound

/-- The first method of the chain is external or counted for less than the bound, and whenever a method is counted
for too little the methods that are counted together are within the bound. -/
structure Affordable (bound : ℚ) (chain : Compressor) : Prop where
  /-- The first method fits. -/
  first : ∀ x ∈ chain.head?, isExternal x ∨ newMem blockSize getMem 0 [] x < bound
  /-- What is counted for too little does no harm. -/
  harmless : ∀ before, before <+: chain →
    Undercharged blockSize getMem bound (counted isExternal blockSize getMem bound before) →
      Within blockSize getMem bound (counted isExternal blockSize getMem bound before).stages

end Requirements

/-! ## The estimate of a cluster -/

variable {isExternal : Str → Bool} {blockSize getMem : Str → ℕ} {bound : ℚ} {q : Cluster}

variable (blockSize getMem) in
/-- Nothing is counted below zero. -/
lemma newMem_nonneg (mem : ℚ) (prev x : Str) : 0 ≤ newMem blockSize getMem mem prev x := by
  unfold newMem
  split_ifs
  · positivity
  · exact le_refl 0
  · positivity

/-- `dict` is not `lzp`. -/
lemma not_isLzpMethod {x : Str} (h : isDictMethod x) : ¬ isLzpMethod x := by
  intro hlzp
  have hdict : methodName x = text "dict" := by simpa [isDictMethod] using h
  have hname : methodName x = text "lzp" := by simpa [isLzpMethod] using hlzp
  exact absurd (hdict.symm.trans hname) (by decide)

/-- The estimate behind a method that is not `dict`. -/
lemma getMemSum_cons {x : Str} (h : ¬ isDictMethod x) (xs : Compressor) :
    getMemSum blockSize getMem (x :: xs) = getMem x + getMemSum blockSize getMem xs := by
  cases xs with
  | nil => rw [getMemSum, if_neg h, getMemSum]
  | cons y xs =>
    have hpair : ¬ (isDictMethod x && isLzpMethod y) = true := fun hxy => h (Bool.and_elim_left hxy)
    rw [getMemSum, if_neg hpair, if_neg h]

/-- The estimate behind `dict` with `lzp`. -/
lemma getMemSum_dict_lzp {x y : Str} (hx : isDictMethod x) (hy : isLzpMethod y) (xs : Compressor) :
    getMemSum blockSize getMem (x :: y :: xs) =
      max (getMem x) (methodBlockSize blockSize x / 2 + getMemSum blockSize getMem xs) := by
  rw [getMemSum, if_pos (by rw [hx, hy]; rfl)]

/-- The estimate behind `dict` without `lzp`. -/
lemma getMemSum_dict {x : Str} (hx : isDictMethod x) {xs : Compressor} (hxs : ∀ y ∈ xs.head?, ¬ isLzpMethod y) :
    getMemSum blockSize getMem (x :: xs) =
      max (getMem x) (methodBlockSize blockSize x / 2 + getMemSum blockSize getMem xs) := by
  cases xs with
  | nil => rw [getMemSum, if_pos hx, getMemSum]
  | cons y xs =>
    have hpair : ¬ (isDictMethod x && isLzpMethod y) = true := fun hxy => hxs y rfl (Bool.and_elim_right hxy)
    rw [getMemSum, if_neg hpair, if_pos hx]

/-- More methods do not need less memory. -/
lemma getMemSum_le_append (part more : Compressor) :
    getMemSum blockSize getMem part ≤ getMemSum blockSize getMem (part ++ more) := by
  fun_induction getMemSum blockSize getMem part with
  | case1 x y xs hpair ih =>
    rw [List.cons_append, List.cons_append,
      getMemSum_dict_lzp (Bool.and_elim_left hpair) (Bool.and_elim_right hpair)]
    omega
  | case2 x y xs hpair hdict ih =>
    have hy : ∀ z ∈ (y :: xs ++ more).head?, ¬ isLzpMethod z := by
      rintro z ⟨⟩ hlzp
      exact hpair (by rw [hdict, hlzp]; rfl)
    rw [List.cons_append, getMemSum_dict hdict hy]
    omega
  | case3 x y xs hpair hdict ih =>
    rw [List.cons_append, getMemSum_cons hdict]
    omega
  | case4 x hdict =>
    cases more with
    | nil => rw [List.append_nil, getMemSum, if_pos hdict]
    | cons y more =>
      rw [List.singleton_append, getMemSum]
      split_ifs <;> omega
  | case5 x hdict =>
    rw [List.singleton_append, getMemSum_cons hdict]
    omega
  | case6 => exact Nat.zero_le _

/-- The load of a cluster with one more method in front. -/
lemma Cluster.load_cons (x : Str) (c : ℚ) (q : Cluster) : Cluster.load ((x, c) :: q) = c + q.load := by
  rw [Cluster.load, List.map_cons, List.sum_cons]
  rfl

/-- The load of two clusters. -/
lemma Cluster.load_append (q r : Cluster) : Cluster.load (q ++ r) = q.load + r.load := by
  rw [Cluster.load, List.map_append, List.sum_append]
  rfl

/-- The methods of two clusters. -/
lemma Cluster.stages_append (q r : Cluster) : Cluster.stages (q ++ r) = q.stages ++ r.stages := List.map_append

/-- The load of what is counted for nothing less than zero. -/
lemma Cluster.load_nonneg (h : ∀ e ∈ q, 0 ≤ e.2) : 0 ≤ q.load := by
  refine List.sum_nonneg fun c hc => ?_
  obtain ⟨e, he, rfl⟩ := List.mem_map.mp hc
  exact h e he

/-- A `dict` that is not counted for too little. -/
lemma le_of_not_under_dict {before : Cluster} {x : Str} {c : ℚ} (hdict : isDictMethod x)
    (h : ¬ Under blockSize getMem bound before x c) :
    before.load + getMem x ≤ bound ∧ ((methodBlockSize blockSize x / 2 : ℕ) : ℚ) ≤ c := by
  rw [Under, if_pos hdict, not_or, not_lt, not_lt] at h
  exact h

/-- Another method that is not counted for too little, and is not `lzp` behind `dict`. -/
lemma le_of_not_under {before : Cluster} {x : Str} {c : ℚ} (hdict : ¬ isDictMethod x)
    (h : ¬ Under blockSize getMem bound before x c)
    (hfree : ¬ ∃ y ∈ before.getLast?, isDictMethod y.1 ∧ isLzpMethod x) : (getMem x : ℚ) ≤ c := by
  rw [Under, if_neg hdict] at h
  by_contra hlt
  exact h ⟨not_le.mp hlt, hfree⟩

/-- **The rest of a cluster in which no method is counted for too little needs no more than the bound or what it
is counted for, on top of what is counted before it.** -/
lemma load_add_getMemSum_le {before rest : Cluster} (hq : q = before ++ rest)
    (hunder : ¬ Undercharged blockSize getMem bound q) (hnonneg : ∀ e ∈ rest, 0 ≤ e.2)
    (hfree : ∀ x ∈ rest.head?, ¬ ∃ y ∈ before.getLast?, isDictMethod y.1 ∧ isLzpMethod x.1) :
    before.load + getMemSum blockSize getMem rest.stages ≤ max bound q.load := by
  -- by the number of methods left, since `dict` with `lzp` is two of them
  induction hn : rest.length using Nat.strong_induction_on generalizing before rest with
  | _ n ih =>
    match rest with
    | [] =>
      rw [hq, List.append_nil, Cluster.stages, List.map_nil, getMemSum, Nat.cast_zero, add_zero]
      exact le_max_right _ _
    | (x, c) :: rest =>
      have hx : ¬ Under blockSize getMem bound before x c := fun h => hunder ⟨before, x, c, rest, hq, h⟩
      have hone : q = (before ++ [(x, c)]) ++ rest := by rw [hq, List.append_assoc]; rfl
      have hload : Cluster.load (before ++ [(x, c)]) = before.load + c := by
        rw [Cluster.load_append, Cluster.load_cons]
        exact congrArg (before.load + ·) (add_zero c)
      have hrest : ∀ e ∈ rest, 0 ≤ e.2 := fun e he => hnonneg e (List.mem_cons_of_mem _ he)
      rw [List.length_cons] at hn
      rw [Cluster.stages, List.map_cons]
      by_cases hdict : isDictMethod x
      case neg =>
        have hc := le_of_not_under hdict hx (hfree _ rfl)
        have hfree' : ∀ y ∈ rest.head?, ¬ ∃ z ∈ (before ++ [(x, c)]).getLast?,
            isDictMethod z.1 ∧ isLzpMethod y.1 := by
          rintro y - ⟨z, hz, hdz, -⟩
          rw [List.getLast?_concat] at hz
          cases hz
          exact hdict hdz
        have := ih rest.length (by omega) hone hrest hfree' rfl
        rw [getMemSum_cons hdict, Nat.cast_add]
        rw [hload] at this
        change before.load + (getMem x + (getMemSum blockSize getMem (Cluster.stages rest) : ℚ)) ≤ _
        linarith
      case pos =>
        obtain ⟨hmem, hblock⟩ := le_of_not_under_dict hdict hx
        -- what is left of the estimate when the `dict` is counted
        have hsum : ∀ xs, before.load + c + (getMemSum blockSize getMem xs : ℚ) ≤ max bound q.load →
            before.load + ((max (getMem x) (methodBlockSize blockSize x / 2 + getMemSum blockSize getMem xs) : ℕ) : ℚ)
              ≤ max bound q.load := by
          intro xs hxs
          rw [Nat.cast_max, Nat.cast_add, ← max_add_add_left]
          refine max_le (le_max_of_le_left hmem) ?_
          linarith
        by_cases hlzp : ∃ y d behind, rest = (y, d) :: behind ∧ isLzpMethod y
        case neg =>
          have hnot : ∀ y ∈ rest.head?, ¬ isLzpMethod y.1 := by
            rintro ⟨y, d⟩ hy hlz
            obtain ⟨behind, rfl⟩ := List.head?_eq_some_iff.mp hy
            exact hlzp ⟨y, d, behind, rfl, hlz⟩
          have hstages : ∀ y ∈ (List.map Prod.fst rest).head?, ¬ isLzpMethod y := by
            intro y hy
            rw [List.head?_map] at hy
            obtain ⟨e, he, rfl⟩ := Option.map_eq_some_iff.mp hy
            exact hnot e he
          have := ih rest.length (by omega) hone hrest (fun y hy h => hnot y hy h.choose_spec.2.2) rfl
          rw [hload] at this
          rw [getMemSum_dict hdict hstages]
          exact hsum _ this
        case pos =>
          obtain ⟨y, d, behind, rfl, hy⟩ := hlzp
          have htwo : q = (before ++ [(x, c), (y, d)]) ++ behind := by rw [hq, List.append_assoc]; rfl
          have hload' : Cluster.load (before ++ [(x, c), (y, d)]) = before.load + c + d := by
            rw [Cluster.load_append, Cluster.load_cons, Cluster.load_cons, add_assoc]
            exact congrArg (before.load + ·) (congrArg (c + ·) (add_zero d))
          have hfree' : ∀ z ∈ behind.head?, ¬ ∃ e ∈ (before ++ [(x, c), (y, d)]).getLast?,
              isDictMethod e.1 ∧ isLzpMethod z.1 := by
            rintro z - ⟨e, he, hde, -⟩
            rw [List.append_cons, List.getLast?_concat] at he
            cases he
            exact not_isLzpMethod hde hy
          have hd : 0 ≤ d := hrest (y, d) List.mem_cons_self
          have := ih behind.length (by rw [List.length_cons] at hn; omega) htwo
            (fun e he => hrest e (List.mem_cons_of_mem _ he)) hfree' rfl
          rw [hload'] at this
          rw [List.map_cons, getMemSum_dict_lzp hdict hy]
          refine hsum _ ?_
          change before.load + c + (getMemSum blockSize getMem (Cluster.stages behind) : ℚ) ≤ _
          linarith

/-- **A cluster in which no method is counted for too little needs no more than the bound or what it is counted
for.** -/
lemma getMemSum_le (hunder : ¬ Undercharged blockSize getMem bound q) (hnonneg : ∀ e ∈ q, 0 ≤ e.2) :
    (getMemSum blockSize getMem q.stages : ℚ) ≤ max bound q.load := by
  have hq : q = [] ++ q := rfl
  have h := load_add_getMemSum_le hq hunder hnonneg (by rintro x - ⟨y, ⟨⟩, -⟩)
  rwa [show Cluster.load [] = 0 from rfl, zero_add] at h

/-! ## Clusters and parts -/

/-- What is kept of a cluster: it has no breaks, and more than one method only below the bound. -/
structure Cluster.Ok (isExternal : Str → Bool) (bound : ℚ) (q : Cluster) : Prop where
  /-- There are no breaks. -/
  unbroken : ∀ x ∈ q.stages, isBreak isExternal x = false
  /-- Nothing is counted below zero. -/
  nonneg : ∀ e ∈ q, 0 ≤ e.2
  /-- Methods that are joined fit. -/
  fits : 2 ≤ q.length → q.load < bound

/-- A method that is joined. -/
lemma Cluster.Ok.join (hq : q.Ok isExternal bound) {x : Str} (hx : isBreak isExternal x = false) {c : ℚ}
    (hc : 0 ≤ c) (hfits : q.load + c < bound) : Cluster.Ok isExternal bound (q ++ [(x, c)]) where
  unbroken := by
    intro y hy
    rw [Cluster.stages_append, List.mem_append] at hy
    rcases hy with hy | hy
    · exact hq.unbroken y hy
    · rwa [List.mem_singleton.mp hy]
  nonneg := by
    intro e he
    rcases List.mem_append.mp he with he | he
    · exact hq.nonneg e he
    · rwa [List.mem_singleton.mp he]
  fits := by
    intro _
    rw [Cluster.load_append, Cluster.load_cons]
    exact (congrArg (q.load + ·) (add_zero c)).trans_lt hfits

/-- A method on its own. -/
lemma Cluster.Ok.single {x : Str} (hx : isBreak isExternal x = false) {c : ℚ} (hc : 0 ≤ c) :
    Cluster.Ok isExternal bound [(x, c)] where
  unbroken := by
    intro y hy
    rwa [List.mem_singleton.mp hy]
  nonneg := by
    intro e he
    rwa [List.mem_singleton.mp he]
  fits := fun h => absurd h (Nat.lt_irrefl 1)

/-- No method at all. -/
lemma Cluster.Ok.nil : Cluster.Ok isExternal bound [] where
  unbroken := fun x hx => absurd hx List.not_mem_nil
  nonneg := fun x hx => absurd hx List.not_mem_nil
  fits := fun h => absurd h (by decide)

variable (blockSize getMem) in
/-- A chain without breaks is one part of the estimate. -/
lemma calcMem_of_unbroken {part : Compressor} (h : ∀ x ∈ part, isExternal x = false) (hne : part ≠ []) :
    calcMem isExternal blockSize getMem part = some (getMemSum blockSize getMem part) := by
  have htake : part.takeWhile (fun x => !isExternal x) = part :=
    List.takeWhile_eq_self_iff.mpr fun x hx => by rw [h x hx]; rfl
  have hdrop : part.dropWhile (fun x => !isExternal x) = [] :=
    List.dropWhile_eq_nil_iff.mpr fun x hx => by rw [h x hx]; rfl
  have hsplit : splitOn isExternal part = [part] := by
    rw [splitOn, if_neg hne, htake]
    dsimp only
    rw [if_neg hne]
    split
    · rfl
    · next heq => rw [hdrop] at heq; cases heq
  rw [calcMem, hsplit]
  rfl

/-- The methods of a cluster are not external. -/
lemma Cluster.Ok.not_isExternal (hq : q.Ok isExternal bound) {x : Str} (hx : x ∈ q.stages) :
    isExternal x = false := by
  have h := hq.unbroken x hx
  rw [isBreak, Bool.or_eq_false_iff] at h
  exact h.2

/-- The methods of a cluster keep to the limit if they do so where a method is counted for too little. -/
lemma Cluster.Ok.limited_iff {memoryLimit : ℕ} (hq : q.Ok isExternal (allowed memoryLimit)) :
    (q.stages ≠ [] → Limited isExternal blockSize getMem memoryLimit q.stages) ↔
      (Undercharged blockSize getMem (allowed memoryLimit) q →
        Within blockSize getMem (allowed memoryLimit) q.stages) := by
  constructor
  · intro hlimited _
    by_cases hne : q.stages = []
    · exact .inl (by rw [hne]; decide)
    rcases hlimited hne with hone | hpair | ⟨mem, hmem, hle⟩
    · exact .inl hone.le
    · exact .inr (.inl hpair)
    · rw [calcMem_of_unbroken blockSize getMem (fun x hx => hq.not_isExternal hx) hne] at hmem
      cases hmem
      exact .inr (.inr hle)
  · intro hwithin hne
    have hcalc := calcMem_of_unbroken blockSize getMem (fun x hx => hq.not_isExternal hx) hne
    have hpos : q.stages.length ≠ 0 := fun h => hne (List.length_eq_zero_iff.mp h)
    by_cases hunder : Undercharged blockSize getMem (allowed memoryLimit) q
    · rcases hwithin hunder with hone | hpair | hle
      · exact .inl (by omega)
      · exact .inr (.inl hpair)
      · exact .inr (.inr ⟨_, hcalc, hle⟩)
    · by_cases hone : q.stages.length = 1
      · exact .inl hone
      · have hlen : q.length = q.stages.length := (List.length_map _).symm
        have hle := getMemSum_le hunder hq.nonneg
        rw [max_eq_left (hq.fits (by omega)).le] at hle
        exact .inr (.inr ⟨_, hcalc, hle⟩)

/-- A cluster with more methods has a method that is counted for too little if the cluster has one. -/
lemma Undercharged.append (h : Undercharged blockSize getMem bound q) (r : Cluster) :
    Undercharged blockSize getMem bound (q ++ r) := by
  obtain ⟨before, x, c, behind, rfl, hx⟩ := h
  exact ⟨before, x, c, behind ++ r, by rw [List.append_assoc, List.cons_append], hx⟩

/-- Fewer methods are within the bound if more are. -/
lemma Within.of_append {part : Compressor} {x : Str}
    (h : Within blockSize getMem bound (part ++ [x])) : Within blockSize getMem bound part := by
  rcases h with hone | hpair | hle
  · rw [List.length_append, List.length_singleton] at hone
    exact .inl (by omega)
  · match part with
    | [] => exact .inl (by decide)
    | [y] => exact .inl (le_refl 1)
    | y :: z :: part => cases part <;> exact Bool.noConfusion hpair
  · refine .inr (.inr (le_trans ?_ hle))
    exact_mod_cast getMemSum_le_append part [x]

/-- The prefixes of a chain with one more method in front. -/
lemma forall_prefix_cons {P : Compressor → Prop} {x : Str} {xs : Compressor} :
    (∀ before, before <+: x :: xs → P before) ↔ P [] ∧ ∀ before, before <+: xs → P (x :: before) := by
  constructor
  · intro h
    exact ⟨h [] List.nil_prefix, fun before hbefore => h _ ((List.prefix_cons_inj x).mpr hbefore)⟩
  · rintro ⟨hnil, hcons⟩ before hbefore
    rcases List.prefix_cons_iff.mp hbefore with rfl | ⟨rest, rfl, hrest⟩
    · exact hnil
    · exact hcons rest hrest

/-- The load of a cluster with one more method. -/
lemma Cluster.load_concat (q : Cluster) (x : Str) (c : ℚ) : Cluster.load (q ++ [(x, c)]) = q.load + c := by
  rw [Cluster.load_append, Cluster.load_cons]
  exact congrArg (q.load + ·) (add_zero c)

variable (blockSize getMem) in
/-- **The parts of what the pass returns keep to the limit if all clusters do in which a method is counted for too
little.** -/
lemma parts_limited_iff {memoryLimit : ℕ} {xs : Compressor} (hxs : tempfile ∉ xs) (prev : Str)
    (hq : q.Ok isExternal (allowed memoryLimit)) :
    (∀ part ∈ (q.stages ++ limitFrom isExternal blockSize getMem (allowed memoryLimit) q.load prev xs).splitOnP
        (isBreak isExternal), part ≠ [] → Limited isExternal blockSize getMem memoryLimit part) ↔
      ∀ before, before <+: xs →
        Undercharged blockSize getMem (allowed memoryLimit)
          (countedFrom isExternal blockSize getMem (allowed memoryLimit) q prev before) →
        Within blockSize getMem (allowed memoryLimit)
          (countedFrom isExternal blockSize getMem (allowed memoryLimit) q prev before).stages := by
  induction xs generalizing q prev with
  | nil =>
    rw [limitFrom, List.append_nil, List.splitOnP_eq_singleton hq.unbroken, List.forall_mem_singleton,
      hq.limited_iff]
    constructor
    · intro h before hbefore
      rw [List.prefix_nil.mp hbefore]
      exact h
    · exact fun h => h [] List.nil_prefix
  | cons x xs ih =>
    have hrest : tempfile ∉ xs := fun h => hxs (List.mem_cons_of_mem _ h)
    have hx : x ≠ tempfile := fun h => hxs (h ▸ List.mem_cons_self)
    rw [forall_prefix_cons]
    simp only [countedFrom]
    rw [limitFrom, ← hq.limited_iff]
    by_cases hexternal : isExternal x = true
    case pos =>
      have hbreak : isBreak isExternal x = true := by rw [isBreak, hexternal, Bool.or_true]
      have hnext : q.next isExternal blockSize getMem (allowed memoryLimit) prev x = [] := by
        rw [Cluster.next, if_pos hexternal]
      rw [if_pos hexternal, List.splitOnP_append_cons_of_forall_mem hq.unbroken x hbreak, List.forall_mem_cons,
        hnext]
      exact and_congr Iff.rfl (ih hrest x Cluster.Ok.nil)
    case neg =>
      have hbreak : isBreak isExternal x = false := by
        rw [isBreak, Bool.or_eq_false_iff, decide_eq_false_iff_not, ← Bool.not_eq_true]
        exact ⟨hx, hexternal⟩
      rw [if_neg hexternal]
      by_cases hfits : q.load + newMem blockSize getMem q.load prev x < allowed memoryLimit
      case pos =>
        have hnext : q.next isExternal blockSize getMem (allowed memoryLimit) prev x =
            q ++ [(x, newMem blockSize getMem q.load prev x)] := by
          rw [Cluster.next, if_neg hexternal, if_pos hfits]
        have hok := hq.join hbreak (newMem_nonneg blockSize getMem q.load prev x) hfits
        have h := ih hrest x hok
        rw [Cluster.load_concat, Cluster.stages_append, List.append_assoc] at h
        rw [if_pos hfits, hnext]
        refine h.trans ⟨fun hall => ⟨?_, hall⟩, And.right⟩
        -- the cluster without the method is within the bound since the one with it is
        rw [hq.limited_iff]
        intro hunder
        have hwithin := hall [] List.nil_prefix (hunder.append _)
        rw [countedFrom, Cluster.stages_append] at hwithin
        exact hwithin.of_append
      case neg =>
        have hnext : q.next isExternal blockSize getMem (allowed memoryLimit) prev x =
            [(x, newMem blockSize getMem q.load prev x)] := by
          rw [Cluster.next, if_neg hexternal, if_neg hfits]
        have htemp : isBreak isExternal tempfile = true := by rw [isBreak, decide_eq_true rfl, Bool.true_or]
        have h := ih hrest x (Cluster.Ok.single hbreak (newMem_nonneg blockSize getMem q.load prev x))
        rw [Cluster.load_cons, show Cluster.load [] = 0 from rfl, add_zero] at h
        rw [if_neg hfits, List.splitOnP_append_cons_of_forall_mem hq.unbroken _ htemp, List.forall_mem_cons, hnext]
        exact and_congr Iff.rfl h

/-! ## The result -/

/-- The chain without the temporary files. -/
lemma deleteTempCompressors_limitFrom (mem : ℚ) (prev : Str) {xs : Compressor} (hxs : tempfile ∉ xs) :
    deleteTempCompressors (limitFrom isExternal blockSize getMem bound mem prev xs) = xs := by
  induction xs generalizing mem prev with
  | nil => rfl
  | cons x xs ih =>
    have hrest : tempfile ∉ xs := fun h => hxs (List.mem_cons_of_mem _ h)
    have hx : x ≠ tempfile := fun h => hxs (h ▸ List.mem_cons_self)
    have hcons : ∀ rest : Compressor, deleteTempCompressors (x :: rest) = x :: deleteTempCompressors rest :=
      fun rest => List.filter_cons_of_pos (decide_eq_true hx)
    rw [limitFrom]
    split_ifs
    · rw [hcons, ih 0 x hrest]
    · rw [hcons, ih _ x hrest]
    · change deleteTempCompressors (x :: _) = _
      rw [hcons, ih _ x hrest]

/-- Every temporary file is in front of another method, and not behind a temporary file. -/
def Alternating (result : Compressor) : Prop :=
  ∀ before behind, result = before ++ tempfile :: behind →
    (∀ x ∈ before.getLast?, x ≠ tempfile) ∧ ∃ x ∈ behind.head?, x ≠ tempfile

/-- One more method. -/
lemma Alternating.cons {x : Str} (hx : x ≠ tempfile) {rest : Compressor} (h : Alternating rest) :
    Alternating (x :: rest) := by
  intro before behind heq
  cases before with
  | nil => exact absurd (List.cons.inj heq).1 hx
  | cons y before =>
    obtain ⟨rfl, htail⟩ := List.cons.inj heq
    obtain ⟨hlast, hhead⟩ := h before behind htail
    refine ⟨fun z hz => ?_, hhead⟩
    cases before with
    | nil =>
      cases hz
      exact hx
    | cons w before =>
      rw [List.getLast?_cons_cons] at hz
      exact hlast z hz

/-- A temporary file and a method. -/
lemma Alternating.tempfile_cons {x : Str} (hx : x ≠ tempfile) {rest : Compressor} (h : Alternating rest) :
    Alternating (tempfile :: x :: rest) := by
  intro before behind heq
  cases before with
  | nil =>
    obtain ⟨-, rfl⟩ := List.cons.inj heq
    exact ⟨nofun, x, rfl, hx⟩
  | cons y before =>
    obtain ⟨-, heq⟩ := List.cons.inj heq
    obtain ⟨hlast, hhead⟩ := h.cons hx before behind heq
    refine ⟨fun z hz => ?_, hhead⟩
    cases before with
    | nil => exact absurd (List.cons.inj heq).1 hx
    | cons w before =>
      rw [List.getLast?_cons_cons] at hz
      exact hlast z hz

/-- The temporary files of the pass. -/
lemma alternating_limitFrom (mem : ℚ) (prev : Str) {xs : Compressor} (hxs : tempfile ∉ xs) :
    Alternating (limitFrom isExternal blockSize getMem bound mem prev xs) := by
  induction xs generalizing mem prev with
  | nil =>
    intro before behind h
    exact absurd h.symm (List.append_ne_nil_of_right_ne_nil _ (List.cons_ne_nil _ _))
  | cons x xs ih =>
    have hrest : tempfile ∉ xs := fun h => hxs (List.mem_cons_of_mem _ h)
    have hx : x ≠ tempfile := fun h => hxs (h ▸ List.mem_cons_self)
    rw [limitFrom]
    split_ifs
    · exact (ih 0 x hrest).cons hx
    · exact (ih _ x hrest).cons hx
    · exact (ih _ x hrest).tempfile_cons hx

variable (isExternal blockSize getMem bound) in
/-- The pass begins with a temporary file if the first method does not fit. -/
lemma head?_limitFrom (mem : ℚ) (prev : Str) {xs : Compressor} (hxs : tempfile ∉ xs) :
    tempfile ∈ (limitFrom isExternal blockSize getMem bound mem prev xs).head? ↔
      ¬ ∀ x ∈ xs.head?, isExternal x ∨ mem + newMem blockSize getMem mem prev x < bound := by
  cases xs with
  | nil => simp [limitFrom]
  | cons x xs =>
    have hx : x ≠ tempfile := fun h => hxs (h ▸ List.mem_cons_self)
    rw [limitFrom]
    split_ifs with hexternal hfits
    · simp [hx, hexternal]
    · simp [hx, hexternal, hfits]
    · simp [hexternal, hfits]

/-- **Temporary files keep to the limit.** What the pass returns is the chain with temporary files between methods,
and every part of it is within the limit, if and only if the first method of the chain fits and no methods that
are counted together, one of them for too little, need more than the limit. -/
theorem limitsMemory_iff (isExternal : Str → Bool) (blockSize getMem : Str → ℕ) (memoryLimit : ℕ)
    {chain : Compressor} (hchain : tempfile ∉ chain) :
    LimitsMemory isExternal blockSize getMem memoryLimit chain
        (genericLimitMemoryUsage isExternal blockSize getMem memoryLimit chain) ↔
      Affordable isExternal blockSize getMem (allowed memoryLimit) chain := by
  have hnil : Cluster.Ok isExternal (allowed memoryLimit) [] := Cluster.Ok.nil
  have hparts := parts_limited_iff blockSize getMem hchain [] hnil
  have hhead := head?_limitFrom isExternal blockSize getMem (allowed memoryLimit) 0 [] hchain
  simp only [zero_add] at hhead
  constructor
  · intro h
    refine ⟨?_, hparts.mp h.limited⟩
    by_contra hfirst
    obtain ⟨behind, hbehind⟩ := List.head?_eq_some_iff.mp (hhead.mpr hfirst)
    obtain ⟨⟨x, hx, -⟩, -⟩ := h.between [] behind hbehind
    cases hx
  · intro h
    refine ⟨deleteTempCompressors_limitFrom 0 [] hchain, fun before behind heq => ?_, hparts.mpr h.harmless⟩
    obtain ⟨hlast, hnext⟩ := alternating_limitFrom 0 [] hchain before behind heq
    refine ⟨?_, hnext⟩
    cases before with
    | nil => exact absurd h.first (hhead.mp (by rw [genericLimitMemoryUsage] at heq; rw [heq]; rfl))
    | cons y before =>
      have hsome := List.getLast?_eq_some_getLast (List.cons_ne_nil y before)
      exact ⟨_, hsome, hlast _ hsome⟩

/-- Two methods that do not fit together. -/
theorem limitsMemory_iff_two :
    LimitsMemory (fun _ => false) (fun _ => 0) (fun _ => 100) 100 [text "rep", text "lzma"]
      (genericLimitMemoryUsage (fun _ => false) (fun _ => 0) (fun _ => 100) 100 [text "rep", text "lzma"]) := by
  refine (limitsMemory_iff _ _ _ _ (by decide)).mpr ⟨?_, ?_⟩
  · rintro x ⟨⟩
    exact .inr (by decide +kernel)
  · rw [forall_prefix_cons, forall_prefix_cons]
    refine ⟨fun _ => .inl (by decide +kernel), fun _ => .inl (by decide +kernel), fun before hbefore => ?_⟩
    rw [List.prefix_nil.mp hbefore]
    exact fun _ => .inl (by decide +kernel)

/-- What a method of the example below needs. -/
def exampleMem (method : Str) : ℕ := if isDictMethod method then 128 else 48

/-- A first method that does not fit, and `dict` that takes more than what is counted for it. -/
theorem not_limitsMemory :
    ¬ LimitsMemory (fun _ => false) (fun _ => 0) (fun _ => 200) 100 [text "lzma"]
        (genericLimitMemoryUsage (fun _ => false) (fun _ => 0) (fun _ => 200) 100 [text "lzma"]) ∧
      ¬ LimitsMemory (fun _ => false) (fun _ => 64) exampleMem 100 [text "dict", text "ppmd"]
        (genericLimitMemoryUsage (fun _ => false) (fun _ => 64) exampleMem 100 [text "dict", text "ppmd"]) := by
  constructor
  · intro h
    obtain ⟨⟨x, hx, -⟩, -⟩ := h.between [] [text "lzma"] (by decide +kernel)
    cases hx
  · intro h
    have hlimited := h.limited [text "dict", text "ppmd"] (by decide +kernel) (by decide)
    rcases hlimited with hone | hpair | ⟨mem, hmem, hle⟩
    · exact absurd hone (by decide)
    · exact absurd hpair (by decide +kernel)
    · rw [calcMem_of_unbroken _ _ (fun _ _ => rfl) (by decide)] at hmem
      cases hmem
      exact absurd hle (by decide +kernel)

end DArc.Compression
