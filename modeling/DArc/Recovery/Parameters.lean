import DArc.Recovery.Memory

/-!
# The parameters of a recovery record

The option `-rr` says how large the recovery record is: in bytes, in sectors of 512 bytes or in percents of the
archive, maybe with the size of a sector behind a semicolon; or as `ns*ss`, `ns` sectors of `ss` bytes.  From it
and the size of the archive `writeRecoveryBlocks` computes the size and the number of the recovery sectors.

The CRCs of the sectors of the archive are part of the record.  Where its size is computed from an amount, it is
made large enough for them; `ns*ss` is taken as it is.

### Outline

* `parseNumber`, `parseSize`, `decodeRecovery`: the setting;
* `recoverySetting`: the setting that is used;
* `recoveryParameters`: the sizes that are computed from it;
* `Adequate`: what is asked of them.

### Main results

* `recovery_parameters_iff`: the parameters are adequate exactly for the settings that leave room for the CRCs;
* `not_adequate`: `0*4096` with an archive of more than 4 MiB.
-/

namespace DArc.Recovery

/-- A string of the command line. -/
abbrev Text := List Char

/-! ## Numbers in settings -/

/-- `isDigit`. -/
def isDigit (c : Char) : Bool := '0' ≤ c ∧ c ≤ '9'

/-- `toLower`; besides the ASCII letters it maps the sign of the kelvin to an ASCII letter. -/
def toLower (c : Char) : Char := if c = Char.ofNat 0x212a then 'k' else c.toLower

/-- `readI`. -/
def readI (digits : Text) : ℕ := digits.foldl (fun m c => c.toNat - '0'.toNat + m * 10) 0

/-- `parseNumber`: the number and its unit, which is `b` for all sizes in bytes. -/
def parseNumber (num : Text) (defaultSpecifier : Char) : Option (ℕ × Char) :=
  let s := (num ++ [defaultSpecifier]).map toLower
  let digits := s.takeWhile isDigit
  match s.dropWhile isDigit with
  | [] => none
  | 'b' :: _ => some (readI digits, 'b')
  | 'k' :: _ => some (readI digits * 1024, 'b')
  | 'm' :: _ => some (readI digits * 1024 ^ 2, 'b')
  | 'g' :: _ => some (readI digits * 1024 ^ 3, 'b')
  | 't' :: _ => some (readI digits * 1024 ^ 4, 'b')
  | '^' :: _ => some (2 ^ readI digits, 'b')
  | c :: _ => some (readI digits, c)

/-- `parseSize`; an exception is `none`. -/
def parseSize (memstr : Text) : Option ℕ :=
  match parseNumber memstr 'b' with
  | some (bytes, 'b') => some bytes
  | _ => none

/-- `split2`. -/
def split2 (c : Char) (s : Text) : Text × Text := (s.takeWhile (· ≠ c), (s.dropWhile (· ≠ c)).drop 1)

/-- `lb`, the binary logarithm. -/
def lb (n : ℕ) : ℕ := if n ≤ 1 then 0 else 1 + lb (n / 2)
termination_by n
decreasing_by omega

/-! ## The setting -/

/-- The check of the option `-rr` in the command line. -/
def rrOk (recovery : Text) : Bool :=
  recovery ∈ [[], ['-'], ['-', '-']] ∨
    (parseNumber recovery 'b').map Prod.snd ∈ [some 'b', some '%', some 'p'] ∨
    ';' ∈ recovery ∨ '*' ∈ recovery

/-- The amount that is recommended for an archive. -/
def recommendedRR (arcsize : ℕ) : Text :=
  if arcsize < 3 * 10 ^ 5 then ['4', '%'] else if arcsize < 2 * 10 ^ 6 then ['2', '%'] else ['1', '%']

/-- The setting that is used, by the option and by the old setting of the archive; an empty one for no record. -/
def recoverySetting (opt oldRecovery : Text) (arcsize : ℕ) : Text :=
  let recommended := if oldRecovery = [] then recommendedRR arcsize else oldRecovery
  if opt = ['-'] then []
  else if opt = ['-', '-'] then oldRecovery
  else if opt = [] then recommended
  else if opt = ['+'] then recommended
  else if opt = ['0', '.', '1', '%'] then ['0', '*', '4', '0', '9', '6']
  else if opt = ['0', '.', '0', '1', '%'] then ['0', '*', '6', '5', '5', '3', '6']
  else opt

/-- `recovery_amount`, `explicit_rec_size` and `explicit_sector_size`. -/
def decodeRecovery (recovery : Text) : Option (Text × Option ℕ × Option ℕ) :=
  if ';' ∈ recovery then do
    let (r, ss) := split2 ';' recovery
    let ss ← parseSize ss
    return (r, none, some ss)
  else if '*' ∈ recovery then do
    let (ns, ss) := split2 '*' recovery
    let ns ← parseSize ns
    let ss ← parseSize ss
    return ([], some (ns * ss), some ss)
  else some (recovery, none, none)

/-- `ns` and `ss` in a setting of the form `ns*ss`. -/
def explicitSectors (recovery : Text) : Option (ℕ × ℕ) :=
  if ';' ∉ recovery ∧ '*' ∈ recovery then do
    let ns ← parseSize (split2 '*' recovery).1
    let ss ← parseSize (split2 '*' recovery).2
    return (ns, ss)
  else none

/-! ## The parameters -/

/-- `divRoundUp` on numbers that may be negative. -/
def divRoundUpInt (x chunk : Int) : Int := (x - 1).fdiv chunk + 1

/-- `aRarRecSectorSize`. -/
def aRarRecSectorSize : ℕ := 512

/-- `wanted_rec_size`: at most half of the memory; no unit but these four is accepted. -/
def wantedRecSize (recoveryAmount : Text) (arcsize physicalMemory : ℕ) : Option ℕ :=
  let arcsize1p := (divRoundUpInt arcsize 100).toNat
  let amount : Option ℕ := match parseNumber recoveryAmount 's' with
    | some (num, 'b') => some num
    | some (num, 's') => some (num * aRarRecSectorSize)
    | some (num, '%') => some (arcsize1p * num)
    | some (num, 'p') => some (arcsize1p * num)
    | _ => none
  amount.map fun n => min n (physicalMemory / 2)

/-- The sizes in a recovery record. -/
structure Parameters where
  sectorSize : Int
  arcSectors : Int
  recSectors : Int
  /-- The size of all CRCs; the buffer has one byte more. -/
  crcsSize : Int
  deriving DecidableEq

/-- The sizes that `writeRecoveryBlocks` computes; a division by zero is `none`. -/
def parameters (wanted arcsize : ℕ) (explicitRecSize explicitSectorSize : Option ℕ) : Option Parameters :=
  let sectorSize := explicitSectorSize.getD
    (if wanted = 0 then 4096 else max (2 ^ lb (40 * arcsize / wanted)) 512)
  if sectorSize = 0 then none
  else
    let arcSectors := divRoundUpInt arcsize sectorSize
    let crcsSize0 := arcSectors * 4
    let recSize : Int := match explicitRecSize with
      | some size => size
      | none => max (wanted : Int) (crcsSize0 + 0 * (sectorSize : Int))
    let recSectors := divRoundUpInt (recSize - crcsSize0) sectorSize
    some { sectorSize, arcSectors, recSectors, crcsSize := crcsSize0 + recSectors * 4 }

/-- The parameters for a setting. -/
def recoveryParameters (recovery : Text) (arcsize physicalMemory : ℕ) : Option Parameters := do
  let (recoveryAmount, explicitRecSize, explicitSectorSize) ← decodeRecovery recovery
  let wanted ← wantedRecSize recoveryAmount arcsize physicalMemory
  parameters wanted arcsize explicitRecSize explicitSectorSize

/-- The setting can be parsed. -/
def Accepted (recovery : Text) : Prop :=
  ∃ setting, decodeRecovery recovery = some setting ∧ (wantedRecSize setting.1 0 0).isSome

/-- The loop over the archive, which writes a CRC for each of its sectors: the position in the buffer after it. -/
def crcsWritten (arcsize : ℕ) (sectorSize : Int) : Option ℕ :=
  doChunks arcsize sectorSize.toNat (fun _ pos => some (pos + 4)) 0

/-- What is asked of the parameters. -/
def Adequate (recovery : Text) (arcsize physicalMemory : ℕ) : Prop :=
  ∃ p, recoveryParameters recovery arcsize physicalMemory = some p ∧ 0 < p.sectorSize ∧ 0 ≤ p.recSectors ∧
    (∀ ns ss, explicitSectors recovery = some (ns, ss) → p.recSectors = ns) ∧
    ∃ written, crcsWritten arcsize p.sectorSize = some written ∧ (written : Int) ≤ p.crcsSize + 1

/-- The setting leaves room for the CRCs: a given size of a sector is not zero, and a given number of sectors
leaves the CRCs less than a sector. -/
def LeavesRoom (recovery : Text) (arcsize : ℕ) : Prop :=
  match decodeRecovery recovery with
  | some (_, none, some ss) => 0 < ss
  | some (_, some _, some ss) => 4 * divRoundUp arcsize ss < ss
  | _ => True

/-! ## Rounding up -/

/-- What it means to round up. -/
lemma divRoundUpInt_eq_iff {x chunk q : Int} (h : 0 < chunk) :
    divRoundUpInt x chunk = q ↔ (q - 1) * chunk < x ∧ x ≤ q * chunk := by
  have hdiv : divRoundUpInt x chunk = q ↔ (x - 1) / chunk = q - 1 := by
    unfold divRoundUpInt
    rw [Int.fdiv_eq_ediv_of_nonneg _ h.le]
    omega
  have hnext : (q - 1) * chunk + chunk = q * chunk := by ring
  rw [hdiv, Int.ediv_eq_iff_of_pos h, hnext]
  omega

/-- A number that is not negative is not rounded to a negative one. -/
lemma divRoundUpInt_nonneg {x chunk : Int} (h : 0 < chunk) (hx : 0 ≤ x) : 0 ≤ divRoundUpInt x chunk := by
  unfold divRoundUpInt
  rw [Int.fdiv_eq_ediv_of_nonneg _ h.le]
  have hmono : (-1 : Int) / chunk ≤ (x - 1) / chunk := Int.ediv_le_ediv h (by omega)
  rw [Int.ediv_eq_neg_one_of_neg_of_le (by omega) (by omega)] at hmono
  omega

/-- Rounding up a number that is not negative. -/
lemma divRoundUpInt_natCast (x : ℕ) {chunk : ℕ} (h : 0 < chunk) :
    divRoundUpInt x chunk = divRoundUp x chunk := by
  have hnonneg : 0 ≤ divRoundUpInt x chunk :=
    divRoundUpInt_nonneg (by exact_mod_cast h) (Int.natCast_nonneg x)
  unfold divRoundUp
  unfold divRoundUpInt at hnonneg ⊢
  rw [Int.fdiv_eq_ediv_of_nonneg _ (Int.natCast_nonneg chunk)] at hnonneg ⊢
  exact (Int.toNat_of_nonneg hnonneg).symm

/-- The loop over the archive writes four bytes for each of its sectors. -/
lemma doChunks_crcs {chunk : ℕ} (h : 0 < chunk) (size pos : ℕ) :
    doChunks size chunk (fun _ pos => some (pos + 4)) pos = some (pos + 4 * divRoundUp size chunk) := by
  induction hn : size using Nat.strong_induction_on generalizing pos size with
  | _ n ih =>
    subst hn
    rw [doChunks]
    by_cases hzero : size = 0
    · subst hzero
      have hnone : divRoundUp 0 chunk = 0 := by
        have hint := (divRoundUpInt_eq_iff (x := 0) (q := 0) (Int.natCast_pos.mpr h)).mpr (by omega)
        have hcast := divRoundUpInt_natCast 0 h
        rw [Nat.cast_zero, hint] at hcast
        exact_mod_cast hcast.symm
      rw [if_pos rfl, hnone, Nat.mul_zero, Nat.add_zero]
    · rw [if_neg hzero, if_neg h.ne']
      dsimp only [Option.bind_some]
      rw [ih (size - min size chunk) (by omega) _ _ rfl, divRoundUp_succ (Nat.pos_of_ne_zero hzero) h]
      congr 1
      omega

/-! ## Which parameters are adequate -/

/-- The size of a sector that is used. -/
def usedSectorSize (wanted arcsize : ℕ) (explicitSectorSize : Option ℕ) : ℕ :=
  explicitSectorSize.getD (if wanted = 0 then 4096 else max (2 ^ lb (40 * arcsize / wanted)) 512)

/-- The parameters, where the size of a sector is not zero. -/
lemma parameters_eq {wanted arcsize : ℕ} (explicitRecSize : Option ℕ) {explicitSectorSize : Option ℕ} {ss : ℕ}
    (h : usedSectorSize wanted arcsize explicitSectorSize = ss) (hpos : 0 < ss) :
    ∃ p recSize, parameters wanted arcsize explicitRecSize explicitSectorSize = some p ∧
      (recSize = match explicitRecSize with
        | some size => (size : Int)
        | none => max (wanted : Int) (divRoundUp arcsize ss * 4)) ∧
      p.sectorSize = ss ∧ p.recSectors = divRoundUpInt (recSize - divRoundUp arcsize ss * 4) ss ∧
      p.crcsSize = divRoundUp arcsize ss * 4 + p.recSectors * 4 := by
  unfold usedSectorSize at h
  unfold parameters
  dsimp only
  rw [h, if_neg hpos.ne', divRoundUpInt_natCast arcsize hpos]
  refine ⟨_, _, rfl, ?_, rfl, rfl, rfl⟩
  cases explicitRecSize with
  | some size => rfl
  | none => simp

/-- A size of zero is a division by zero. -/
lemma parameters_of_zero {wanted arcsize : ℕ} {explicitRecSize explicitSectorSize : Option ℕ}
    (h : usedSectorSize wanted arcsize explicitSectorSize = 0) :
    parameters wanted arcsize explicitRecSize explicitSectorSize = none := by
  unfold usedSectorSize at h
  exact if_pos h

/-- Adequate parameters, for a number of sectors that may be given. -/
def AdequateFor (ns : Option ℕ) (arcsize : ℕ) (params : Option Parameters) : Prop :=
  ∃ p, params = some p ∧ 0 < p.sectorSize ∧ 0 ≤ p.recSectors ∧
    (∀ n, ns = some n → p.recSectors = n) ∧
    ∃ written, crcsWritten arcsize p.sectorSize = some written ∧ (written : Int) ≤ p.crcsSize + 1

/-- The buffer is large enough when there are not less than zero sectors. -/
lemma adequateFor_of_nonneg {ns : Option ℕ} {arcsize ss : ℕ} {params : Option Parameters} {p : Parameters}
    (hp : params = some p) (hpos : 0 < ss) (hss : p.sectorSize = ss) (hrec : 0 ≤ p.recSectors)
    (hns : ∀ n, ns = some n → p.recSectors = n)
    (hcrcs : p.crcsSize = divRoundUp arcsize ss * 4 + p.recSectors * 4) : AdequateFor ns arcsize params := by
  refine ⟨p, hp, by omega, hrec, hns, 4 * divRoundUp arcsize ss, ?_, by push_cast; omega⟩
  rw [crcsWritten, hss, Int.toNat_natCast, doChunks_crcs hpos, Nat.zero_add]

/-- Where the size of the record is not given, only a sector size of zero is not adequate. -/
lemma adequateFor_amount {wanted arcsize : ℕ} {explicitSectorSize : Option ℕ} :
    AdequateFor none arcsize (parameters wanted arcsize none explicitSectorSize) ↔
      0 < usedSectorSize wanted arcsize explicitSectorSize := by
  constructor
  · rintro ⟨p, hp, -⟩
    by_contra hzero
    rw [parameters_of_zero (by omega)] at hp
    cases hp
  · intro hpos
    obtain ⟨p, recSize, hp, hsize, hss, hrec, hcrcs⟩ :=
      parameters_eq none rfl hpos
    dsimp only at hsize
    refine adequateFor_of_nonneg hp hpos hss ?_ (fun n h => by cases h) hcrcs
    rw [hrec]
    have hmax := le_max_right (wanted : Int)
      (divRoundUp arcsize (usedSectorSize wanted arcsize explicitSectorSize) * 4)
    exact divRoundUpInt_nonneg (by exact_mod_cast hpos) (by omega)

/-- The record of `ns` sectors holds them besides the CRCs when these take less than a sector. -/
lemma adequateFor_explicit {wanted arcsize ns ss : ℕ} :
    AdequateFor (some ns) arcsize (parameters wanted arcsize (some (ns * ss)) (some ss)) ↔
      4 * divRoundUp arcsize ss < ss := by
  by_cases hzero : ss = 0
  · refine iff_of_false ?_ (by omega)
    rintro ⟨p, hp, -⟩
    rw [parameters_of_zero (by rw [hzero]; rfl)] at hp
    cases hp
  · have hpos := Nat.pos_of_ne_zero hzero
    have hused : usedSectorSize wanted arcsize (some ss) = ss := rfl
    obtain ⟨p, recSize, hp, hsize, hss, hrec, hcrcs⟩ :=
      parameters_eq (some (ns * ss)) hused hpos
    have hiff : p.recSectors = ns ↔ 4 * divRoundUp arcsize ss < ss := by
      have hprev : ((ns : Int) - 1) * ss = ns * ss - ss := by ring
      dsimp only at hsize
      push_cast at hsize
      rw [hrec, divRoundUpInt_eq_iff (by exact_mod_cast hpos), hsize, hprev]
      omega
    constructor
    · rintro ⟨p', hp', -, -, hns, -⟩
      obtain rfl := Option.some.inj (hp.symm.trans hp')
      exact hiff.mp (hns ns rfl)
    · intro h
      have hns := hiff.mpr h
      refine adequateFor_of_nonneg hp hpos hss (by omega) (fun n hn => ?_) hcrcs
      obtain rfl := Option.some.inj hn
      exact hns

/-- Whether the unit of an amount is accepted does not depend on the sizes. -/
lemma exists_wantedRecSize {recoveryAmount : Text} (h : (wantedRecSize recoveryAmount 0 0).isSome)
    (arcsize physicalMemory : ℕ) : ∃ wanted, wantedRecSize recoveryAmount arcsize physicalMemory = some wanted := by
  refine Option.isSome_iff_exists.mp ?_
  unfold wantedRecSize at h ⊢
  dsimp only at h ⊢
  rw [Option.isSome_map] at h ⊢
  split at h <;> first | rfl | cases h

/-- Adequate parameters for a setting. -/
lemma adequate_iff {recovery : Text} {arcsize physicalMemory : ℕ} :
    Adequate recovery arcsize physicalMemory ↔
      AdequateFor ((explicitSectors recovery).map Prod.fst) arcsize
        (recoveryParameters recovery arcsize physicalMemory) := by
  have hns (n : ℕ) : (explicitSectors recovery).map Prod.fst = some n ↔
      ∃ ss, explicitSectors recovery = some (n, ss) := by
    rw [Option.map_eq_some_iff]
    constructor
    · rintro ⟨⟨n', ss⟩, hsome, rfl⟩
      exact ⟨ss, hsome⟩
    · rintro ⟨ss, hsome⟩
      exact ⟨(n, ss), hsome, rfl⟩
  unfold Adequate AdequateFor
  simp only [hns, forall_exists_index]

/-- The three forms of a setting. -/
lemma decodeRecovery_cases {recovery amount : Text} {explicitRecSize explicitSectorSize : Option ℕ}
    (h : decodeRecovery recovery = some (amount, explicitRecSize, explicitSectorSize)) :
    (explicitRecSize = none ∧ explicitSectors recovery = none) ∨
      ∃ ns ss, explicitRecSize = some (ns * ss) ∧ explicitSectorSize = some ss ∧
        explicitSectors recovery = some (ns, ss) := by
  unfold decodeRecovery at h
  unfold explicitSectors
  by_cases hsemicolon : ';' ∈ recovery
  · rw [if_pos hsemicolon] at h
    obtain ⟨ss, -, h⟩ := Option.bind_eq_some_iff.mp h
    obtain ⟨-, rfl, -⟩ := Prod.mk.injEq .. ▸ Option.some.inj h
    exact .inl ⟨rfl, if_neg fun hne => hne.1 hsemicolon⟩
  · rw [if_neg hsemicolon] at h
    by_cases hstar : '*' ∈ recovery
    · rw [if_pos hstar] at h
      obtain ⟨ns, hns, h⟩ := Option.bind_eq_some_iff.mp h
      obtain ⟨ss, hss, h⟩ := Option.bind_eq_some_iff.mp h
      cases h
      have hns' : parseSize (split2 '*' recovery).1 = some ns := hns
      have hss' : parseSize (split2 '*' recovery).2 = some ss := hss
      refine .inr ⟨ns, ss, rfl, rfl, ?_⟩
      rw [if_pos ⟨hsemicolon, hstar⟩, hns', hss']
      rfl
    · rw [if_neg hstar] at h
      cases h
      exact .inl ⟨rfl, if_neg fun hne => hstar hne.2⟩

/-- **The parameters of a recovery record are adequate** exactly when the setting leaves room for the CRCs. -/
theorem recovery_parameters_iff (opt oldRecovery : Text) (arcsize physicalMemory : ℕ)
    (h : Accepted (recoverySetting opt oldRecovery arcsize)) :
    Adequate (recoverySetting opt oldRecovery arcsize) arcsize physicalMemory ↔
      LeavesRoom (recoverySetting opt oldRecovery arcsize) arcsize := by
  generalize recoverySetting opt oldRecovery arcsize = recovery at h ⊢
  obtain ⟨⟨amount, explicitRecSize, explicitSectorSize⟩, hdecode, hunit⟩ := h
  obtain ⟨wanted, hwanted⟩ := exists_wantedRecSize hunit arcsize physicalMemory
  have hparams : recoveryParameters recovery arcsize physicalMemory =
      parameters wanted arcsize explicitRecSize explicitSectorSize := by
    simp only [recoveryParameters, hdecode, hwanted, Option.bind_eq_bind, Option.bind_some]
  rw [adequate_iff, hparams]
  unfold LeavesRoom
  rw [hdecode]
  obtain ⟨rfl, hexplicit⟩ | ⟨ns, ss, rfl, rfl, hexplicit⟩ := decodeRecovery_cases hdecode
  · rw [hexplicit, Option.map_none, adequateFor_amount]
    cases explicitSectorSize with
    | some ss => exact Iff.rfl
    | none =>
      refine iff_of_true ?_ trivial
      unfold usedSectorSize
      rw [Option.getD_none]
      split_ifs
      · norm_num
      · exact Nat.lt_of_lt_of_le (by norm_num) (le_max_right _ 512)
  · rw [hexplicit, Option.map_some]
    exact adequateFor_explicit

/-- The setting `10%;512`. -/
theorem recovery_parameters_iff_percent :
    Accepted (recoverySetting ['1', '0', '%', ';', '5', '1', '2'] [] 1000) ∧
      Adequate (recoverySetting ['1', '0', '%', ';', '5', '1', '2'] [] 1000) 1000 (2 ^ 31) := by
  have hdecode : decodeRecovery (recoverySetting ['1', '0', '%', ';', '5', '1', '2'] [] 1000) =
      some (['1', '0', '%'], none, some 512) := by decide
  have haccepted : Accepted (recoverySetting ['1', '0', '%', ';', '5', '1', '2'] [] 1000) :=
    ⟨_, hdecode, by decide⟩
  refine ⟨haccepted, (recovery_parameters_iff _ _ _ _ haccepted).mpr ?_⟩
  unfold LeavesRoom
  rw [hdecode]
  norm_num

/-! ## A record that is too small -/

/-- `0*4096`, which stands for `0.1%`. -/
def zeroSectors : Text := ['0', '*', '4', '0', '9', '6']

/-- The parts of this setting. -/
lemma decodeRecovery_zeroSectors : decodeRecovery zeroSectors = some ([], some 0, some 4096) := by decide

/-- For an archive of 1025 sectors, `0*4096` gets minus one recovery sector: the command line accepts the
setting. -/
theorem not_adequate : rrOk zeroSectors = true ∧
    recoverySetting zeroSectors [] (1025 * 4096) = zeroSectors ∧ Accepted zeroSectors ∧
    recoveryParameters zeroSectors (1025 * 4096) (2 ^ 31) = some ⟨4096, 1025, -1, 4096⟩ ∧
    ¬Adequate (recoverySetting zeroSectors [] (1025 * 4096)) (1025 * 4096) (2 ^ 31) := by
  have hparams : recoveryParameters zeroSectors (1025 * 4096) (2 ^ 31) = some ⟨4096, 1025, -1, 4096⟩ := by
    decide +kernel
  have hsetting : recoverySetting zeroSectors [] (1025 * 4096) = zeroSectors := by decide
  refine ⟨by decide, hsetting, ⟨_, decodeRecovery_zeroSectors, by decide⟩, hparams, ?_⟩
  rw [hsetting]
  rintro ⟨p, hp, -, hnonneg, -⟩
  obtain rfl := Option.some.inj (hparams.symm.trans hp)
  exact absurd hnonneg (by decide)

end DArc.Recovery
