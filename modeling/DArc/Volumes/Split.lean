import DArc.Compression.Common
import DArc.Library.Cut
import DArc.Library.Fuel

/-!
# Splitting an archive into volumes

`darc_split_file` copies an archive into volumes through a buffer of `BUFSZ` bytes and opens the next volume
when the last one is full; `darc_join_volumes` copies the volumes into one file again, until one is missing.

### Outline

* `InFile`, `Files`: the archive that is read, and the files that are written, by their numbers;
* `splitStep`, `darcSplitFile`: the loop of `darc_split_file`, with fuel;
* `darcJoinVolumes`: the loop of `darc_join_volumes`;
* `SplitsRight`: the volumes are right, and joined again they are the archive.

### Main results

* `darcSplitFile_eq`: the volumes are the pieces of the archive, the last of which may be empty;
* `darcSplitFile_iff`: when they are right.
-/

namespace DArc.Volumes

/-! ## Files -/

/-- A file that is read: what is left of it, and whether `feof` is set. -/
structure InFile where
  rest : List UInt8
  eof : Bool

/-- `fread` of at most `want` bytes. -/
def InFile.fread (want : ℕ) (f : InFile) : List UInt8 × InFile :=
  (f.rest.take want, ⟨f.rest.drop want, f.eof || f.rest.length < want⟩)

/-- The files with the names `dst_prefix.%03d`, by number. -/
abbrev Files := Int → Option (List UInt8)

/-- `fwrite` to the volume that was opened last. -/
def Files.fwrite (volumes : Files) (vol : Int) (bytes : List UInt8) : Files :=
  Function.update volumes vol (some ((volumes vol).getD [] ++ bytes))

/-- `BUFSZ`. -/
def bufSize : ℕ := 1 <<< 20

/-! ## Splitting -/

/-- The variables of `darc_split_file`. -/
structure Split where
  input : InFile
  vol : Int
  writtenThisVol : ℕ
  /-- Whether a volume is open. -/
  out : Bool
  volumes : Files

/-- How an iteration goes on. -/
inductive Iteration (α : Type)
  | again (s : α)
  | stop (s : α)

/-- The beginning of an iteration, which opens the next volume if none is open. -/
def Split.openNext (s : Split) : Split :=
  if s.out then s
  else
    { s with
      vol := int32 (s.vol + 1), writtenThisVol := 0, out := true,
      volumes := Function.update s.volumes (int32 (s.vol + 1)) (some []) }

/-- An iteration of the loop. -/
def splitStep (volumeSize : ℕ) (s : Split) : Iteration Split :=
  if s.input.eof then .stop s
  else
    let s := s.openNext
    let room := volumeSize - s.writtenThisVol
    let want := if room < bufSize then room else bufSize
    if want = 0 then .again { s with out := false }
    else
      let (got, input) := s.input.fread want
      if got = [] then .stop { s with input }
      else
        let written := s.writtenThisVol + got.length
        .again
          { input, vol := s.vol, writtenThisVol := written, out := written < volumeSize,
            volumes := s.volumes.fwrite s.vol got }

/-- The loop, with fuel. -/
def splitLoop (volumeSize : ℕ) : ℕ → Split → Option Split
  | 0, _ => none
  | fuel + 1, s =>
    match splitStep volumeSize s with
    | .again s => splitLoop volumeSize fuel s
    | .stop s => some s

/-- The variables before the loop, when no volumes are there yet. -/
def Split.start (content : List UInt8) : Split :=
  { input := ⟨content, false⟩, vol := 0, writtenThisVol := 0, out := false, volumes := fun _ => none }

/-- `darc_split_file` for an archive with these contents. -/
def darcSplitFile (volumeSize : Int) (content : List UInt8) (fuel : ℕ) : Option (Int × Files) :=
  if volumeSize ≤ 0 then some (-1, fun _ => none)
  else
    (splitLoop volumeSize.toNat fuel (.start content)).map fun s => (s.vol, s.volumes)

/-! ## Joining -/

/-- The inner loop of `darc_join_volumes`. -/
def copyFile (rest out : List UInt8) : List UInt8 :=
  if _h : rest.take bufSize = [] then out
  else copyFile (rest.drop bufSize) (out ++ rest.take bufSize)
termination_by rest.length
decreasing_by
  have hpos : rest ≠ [] := fun hnil => _h (by rw [hnil, List.take_nil])
  have hlen := List.length_pos_iff.mpr hpos
  have hbuf : bufSize = 1048576 := rfl
  rw [List.length_drop]
  omega

/-- The outer loop, with fuel. -/
def joinLoop (volumes : Files) : ℕ → Int → List UInt8 → Option (Int × List UInt8)
  | 0, _, _ => none
  | fuel + 1, vol, out =>
    let vol := int32 (vol + 1)
    match volumes vol with
    | none => some (int32 (vol - 1), out)
    | some content => joinLoop volumes fuel vol (copyFile content out)

/-- `darc_join_volumes`, and the file that it writes. -/
def darcJoinVolumes (volumes : Files) (fuel : ℕ) : Option (Int × Option (List UInt8)) :=
  match volumes 1 with
  | none => some (0, none)
  | some _ => (joinLoop volumes fuel 0 []).map fun (vol, out) => (vol, some out)

/-! ## What is right -/

/-- The volumes 1, 2, and so on have these contents, and there are no others. -/
def Files.HasContents (volumes : Files) (contents : List (List UInt8)) : Prop :=
  ∀ vol : Int, volumes vol = if 1 ≤ vol then contents[(vol - 1).toNat]? else none

/-- The archive is split into volumes that together are the archive, of at most the given size, only the
first of which may be empty, as many as are needed, and joined again they are the archive. -/
def SplitsRight (volumeSize : ℕ) (content : List UInt8) : Prop :=
  ∃ volumes contents,
    Converges (darcSplitFile volumeSize content) ((contents.length : Int), volumes) ∧
      volumes.HasContents contents ∧ contents.flatten = content ∧
      (∀ v ∈ contents, v.length ≤ volumeSize) ∧ (∀ v ∈ contents.tail, v ≠ []) ∧
      (contents.length = if content = [] then 1 else (content.length + volumeSize - 1) / volumeSize) ∧
      Converges (darcJoinVolumes volumes) ((contents.length : Int), some content)

/-! ## The loop of `darc_split_file` -/

variable {volumeSize : ℕ} {s s' t : Split} {vol : Int} {volumes : Files} {got rest : List UInt8}

/-- The loop ends with `t`. -/
def Ends (volumeSize : ℕ) (s t : Split) : Prop := Converges (fun fuel => splitLoop volumeSize fuel s) t

/-- More fuel does not change the end of the loop. -/
lemma splitLoop_steady (s : Split) : Steady fun fuel => splitLoop volumeSize fuel s := by
  intro fuel
  induction fuel generalizing s with
  | zero => exact fun r h => absurd h.symm (Option.some_ne_none r)
  | succ fuel ih =>
    intro r h
    simp only [splitLoop] at h ⊢
    cases hstep : splitStep volumeSize s with
    | again s' =>
      rw [hstep] at h
      exact ih s' r h
    | stop s' =>
      rw [hstep] at h
      exact h

/-- The last iteration ends the loop. -/
lemma Ends.stop (h : splitStep volumeSize s = .stop t) : Ends volumeSize s t := by
  refine (splitLoop_steady s).converges (n := 1) ?_
  rw [splitLoop, h]

/-- Another iteration does not change how the loop ends. -/
lemma Ends.again (ht : Ends volumeSize s' t) (h : splitStep volumeSize s = .again s') :
    Ends volumeSize s t := by
  obtain ⟨n, hn⟩ := ht
  refine (splitLoop_steady s).converges (n := n + 1) ?_
  rw [splitLoop, h]
  exact hn n le_rfl

/-- The loop while it fills a volume: `got` is in the volume, and `rest` is left of the archive. -/
def copying (volumeSize : ℕ) (vol : Int) (volumes : Files) (got rest : List UInt8) (eof : Bool) : Split :=
  { input := ⟨rest, eof⟩, vol, writtenThisVol := got.length, out := got.length < volumeSize,
    volumes := Function.update volumes vol (some got) }

/-- How much an iteration asks for. -/
def wanted (volumeSize : ℕ) (got : List UInt8) : ℕ := min (volumeSize - got.length) bufSize

/-- An iteration asks for something while the volume is not full. -/
lemma wanted_pos (hgot : got.length < volumeSize) : 0 < wanted volumeSize got := by
  have hbuf : bufSize = 1048576 := rfl
  unfold wanted
  omega

variable (vol volumes rest) in
/-- An iteration reads what it asks for. -/
lemma splitStep_copying (hgot : got.length < volumeSize) :
    splitStep volumeSize (copying volumeSize vol volumes got rest false) =
      if rest = [] then .stop (copying volumeSize vol volumes got [] true)
      else .again (copying volumeSize vol volumes (got ++ rest.take (wanted volumeSize got))
        (rest.drop (wanted volumeSize got)) (rest.length < wanted volumeSize got)) := by
  have hpos := wanted_pos hgot
  have hopen : (copying volumeSize vol volumes got rest false).openNext =
      copying volumeSize vol volumes got rest false := if_pos (decide_eq_true hgot)
  have hwant : (if volumeSize - got.length < bufSize then volumeSize - got.length else bufSize) =
      wanted volumeSize got := by
    unfold wanted
    split <;> omega
  unfold splitStep
  rw [if_neg (by exact Bool.false_ne_true), hopen]
  dsimp only [copying]
  rw [hwant, if_neg hpos.ne']
  unfold InFile.fread
  dsimp only
  by_cases hrest : rest = []
  · subst hrest
    rw [List.take_nil, List.drop_nil, if_pos rfl, if_pos rfl]
    simp [hpos]
  · have htake : rest.take (wanted volumeSize got) ≠ [] := by
      rw [ne_eq, List.take_eq_nil_iff]
      exact not_or.mpr ⟨hpos.ne', hrest⟩
    rw [if_neg htake, if_neg hrest]
    simp [Files.fwrite]

/-- A volume for which there is enough is filled. -/
lemma Ends.of_full (hgot : got.length < volumeSize) (hrest : volumeSize - got.length ≤ rest.length)
    (ht : Ends volumeSize (copying volumeSize vol volumes (got ++ rest.take (volumeSize - got.length))
      (rest.drop (volumeSize - got.length)) false) t) :
    Ends volumeSize (copying volumeSize vol volumes got rest false) t := by
  induction hm : volumeSize - got.length using Nat.strong_induction_on generalizing got rest with
  | _ m ih =>
    subst hm
    have hpos := wanted_pos hgot
    have hle : wanted volumeSize got ≤ volumeSize - got.length := min_le_left _ _
    have hstep := splitStep_copying vol volumes rest hgot
    have hne : rest ≠ [] := List.length_pos_iff.mp (by omega)
    rw [if_neg hne, decide_eq_false (by omega)] at hstep
    refine Ends.again ?_ hstep
    by_cases hlast : wanted volumeSize got = volumeSize - got.length
    · rwa [hlast]
    · have hlen : (got ++ rest.take (wanted volumeSize got)).length =
          got.length + wanted volumeSize got := by
        rw [List.length_append, List.length_take_of_le (by omega)]
      have hroom : volumeSize - (got ++ rest.take (wanted volumeSize got)).length =
          volumeSize - got.length - wanted volumeSize got := by omega
      refine ih _ (by omega) (by omega) (by rw [List.length_drop]; omega) ?_ rfl
      have hsum : volumeSize - got.length =
          wanted volumeSize got + (volumeSize - got.length - wanted volumeSize got) := by omega
      rw [hroom, List.append_assoc, List.drop_drop, ← List.take_add, ← hsum]
      exact ht

variable (vol volumes) in
/-- A volume for which there is not enough is the last one. -/
lemma ends_of_rest (hgot : got.length < volumeSize) (hrest : rest.length < volumeSize - got.length) :
    ∃ t, Ends volumeSize (copying volumeSize vol volumes got rest false) t ∧ t.vol = vol ∧
      t.volumes = Function.update volumes vol (some (got ++ rest)) := by
  induction hm : rest.length using Nat.strong_induction_on generalizing got rest with
  | _ m ih =>
    subst hm
    have hpos := wanted_pos hgot
    have hstep := splitStep_copying vol volumes rest hgot
    by_cases hne : rest = []
    · rw [if_pos hne] at hstep
      refine ⟨_, .stop hstep, rfl, ?_⟩
      rw [hne, List.append_nil]
      rfl
    · rw [if_neg hne] at hstep
      have hlen := List.length_pos_iff.mpr hne
      by_cases hlast : rest.length < wanted volumeSize got
      · rw [decide_eq_true hlast, List.take_of_length_le hlast.le] at hstep
        have hend : splitStep volumeSize (copying volumeSize vol volumes (got ++ rest)
            (rest.drop (wanted volumeSize got)) true) = .stop _ := if_pos rfl
        exact ⟨_, (Ends.stop hend).again hstep, rfl, rfl⟩
      · rw [decide_eq_false hlast] at hstep
        have hlength : (got ++ rest.take (wanted volumeSize got)).length =
            got.length + wanted volumeSize got := by
          rw [List.length_append, List.length_take_of_le (not_lt.mp hlast)]
        have hdrop : (rest.drop (wanted volumeSize got)).length =
            rest.length - wanted volumeSize got := List.length_drop
        have hgot' : (got ++ rest.take (wanted volumeSize got)).length < volumeSize := by omega
        have hrest' : (rest.drop (wanted volumeSize got)).length <
            volumeSize - (got ++ rest.take (wanted volumeSize got)).length := by omega
        obtain ⟨t, ht, hvol, hvolumes⟩ := ih _ (by omega) hgot' hrest' rfl
        refine ⟨t, ht.again hstep, hvol, ?_⟩
        rw [hvolumes, List.append_assoc, List.take_append_drop]

/-! ## The volumes -/

/-- The files with one volume after another behind the volume `vol`. -/
def place (vol : Int) : List (List UInt8) → Files → Files
  | [], volumes => volumes
  | p :: ps, volumes => place (int32 (vol + 1)) ps (Function.update volumes (int32 (vol + 1)) (some p))

/-- An iteration begins with opening the next volume. -/
lemma ends_openNext (hs : s.out = false) (hinput : s.input = ⟨rest, false⟩) (hvs : 0 < volumeSize)
    (ht : Ends volumeSize (copying volumeSize (int32 (s.vol + 1)) s.volumes [] rest false) t) :
    Ends volumeSize s t := by
  have hopen : s.openNext = copying volumeSize (int32 (s.vol + 1)) s.volumes [] rest false := by
    unfold Split.openNext copying
    rw [hs, if_neg Bool.false_ne_true, hinput, List.length_nil, decide_eq_true hvs]
  have hstep : splitStep volumeSize s =
      splitStep volumeSize (copying volumeSize (int32 (s.vol + 1)) s.volumes [] rest false) := by
    have hagain : (copying volumeSize (int32 (s.vol + 1)) s.volumes [] rest false).openNext =
        copying volumeSize (int32 (s.vol + 1)) s.volumes [] rest false := if_pos (decide_eq_true hvs)
    unfold splitStep
    rw [hinput, hopen, hagain]
    rfl
  have hloop (fuel : ℕ) : splitLoop volumeSize fuel s = splitLoop volumeSize fuel
      (copying volumeSize (int32 (s.vol + 1)) s.volumes [] rest false) := by
    cases fuel with
    | zero => rfl
    | succ fuel => rw [splitLoop, splitLoop, hstep]
  obtain ⟨n, hn⟩ := ht
  exact ⟨n, fun fuel hle => (hloop fuel).trans (hn fuel hle)⟩

/-- The volumes of the loop are the pieces of the archive. -/
lemma ends_of_cut {ps : List (List UInt8)} (hvs : 0 < volumeSize) (h : Cut volumeSize rest ps)
    (hs : s.out = false) (hinput : s.input = ⟨rest, false⟩) :
    ∃ t, Ends volumeSize s t ∧ t.vol = int32 (s.vol + ps.length) ∧
      t.volumes = place s.vol ps s.volumes := by
  induction h generalizing s with
  | @last xs hlast =>
    have hempty : ([] : List UInt8).length < volumeSize := hvs
    obtain ⟨t, ht, hvol, hvolumes⟩ := ends_of_rest (int32 (s.vol + 1)) s.volumes hempty hlast
    exact ⟨t, ends_openNext hs hinput hvs ht, hvol, hvolumes⟩
  | @full p xs ps hfull rest ih =>
    have hclosed : (copying volumeSize (int32 (s.vol + 1)) s.volumes p xs false).out = false :=
      decide_eq_false (by omega)
    obtain ⟨t, ht, hvol, hvolumes⟩ := ih hclosed rfl
    refine ⟨t, ends_openNext hs hinput hvs (Ends.of_full hvs ?_ ?_), ?_, hvolumes⟩
    · rw [List.length_append, hfull]
      exact Nat.le_add_right _ _
    · rw [List.length_nil, Nat.sub_zero, List.take_left' hfull, List.drop_left' hfull]
      exact ht
    · rw [hvol, List.length_cons]
      change int32 (int32 (s.vol + 1) + _) = _
      rw [int32_add]
      congr 1
      push_cast
      ring

/-- Every volume is at its place when the numbers do not overflow. -/
lemma place_eq {ps : List (List UInt8)} (hvol : 0 ≤ vol) (hlen : vol + ps.length < 2 ^ 31) (k : Int) :
    place vol ps volumes k =
      if vol < k ∧ k ≤ vol + ps.length then ps[(k - vol - 1).toNat]? else volumes k := by
  induction ps generalizing vol volumes with
  | nil =>
    rw [place, if_neg (by simp)]
  | cons p ps ih =>
    rw [List.length_cons] at hlen ⊢
    push_cast at hlen ⊢
    have hnext : int32 (vol + 1) = vol + 1 := int32_of_mem (by omega) (by omega)
    rw [place, hnext, ih (by omega) (by omega)]
    by_cases hk : k = vol + 1
    · have hindex : (vol + 1 - vol - 1).toNat = 0 := by omega
      subst hk
      rw [if_neg (by omega), if_pos (by omega), hindex, Function.update_self]
      rfl
    · rw [Function.update_of_ne hk]
      by_cases hin : vol + 1 < k ∧ k ≤ vol + 1 + ps.length
      · have hindex : (k - vol - 1).toNat = (k - (vol + 1) - 1).toNat + 1 := by omega
        rw [if_pos hin, if_pos (by omega), hindex, List.getElem?_cons_succ]
      · rw [if_neg hin, if_neg (by omega)]

/-- The volumes of an archive have the pieces of it as their contents. -/
lemma place_hasContents {ps : List (List UInt8)} (hlen : ps.length < 2 ^ 31) :
    (place 0 ps fun _ => none).HasContents ps := by
  intro vol
  rw [place_eq le_rfl (by exact_mod_cast by simpa using hlen)]
  by_cases hin : 0 < vol ∧ vol ≤ 0 + ps.length
  · rw [if_pos hin, if_pos (by omega), sub_zero]
  · rw [if_neg hin]
    by_cases hpos : 1 ≤ vol
    · have hout : ps.length ≤ (vol - 1).toNat := by omega
      rw [if_pos hpos, List.getElem?_eq_none hout]
    · rw [if_neg hpos]

/-- **The archive is split into its pieces**, of which the last one is empty when the size of a volume divides
the size of the archive. -/
theorem darcSplitFile_eq {content : List UInt8} {ps : List (List UInt8)} (hvs : 0 < volumeSize)
    (h : Cut volumeSize content ps) :
    Converges (darcSplitFile volumeSize content) (int32 ps.length, place 0 ps fun _ => none) := by
  have hout : (Split.start content).out = false := rfl
  obtain ⟨t, ⟨n, hn⟩, hvol, hvolumes⟩ := ends_of_cut hvs h hout rfl
  refine ⟨n, fun fuel hle => ?_⟩
  have hloop : splitLoop volumeSize fuel (.start content) = some t := hn fuel hle
  unfold darcSplitFile
  rw [if_neg (by omega), Int.toNat_natCast, hloop, Option.map_some, hvol, hvolumes]
  simp [Split.start]

/-! ## The loop of `darc_join_volumes` -/

/-- A volume is copied as a whole. -/
lemma copyFile_eq (rest out : List UInt8) : copyFile rest out = out ++ rest := by
  fun_induction copyFile rest out with
  | case1 rest out htake =>
    have hrest : rest = [] := (List.take_eq_nil_iff.mp htake).resolve_left (by decide)
    rw [hrest, List.append_nil]
  | case2 rest out htake ih => rw [ih, List.append_assoc, List.take_append_drop]

/-- Behind the last volume there is none. -/
lemma Files.HasContents.next_eq_none {contents : List (List UInt8)} (h : volumes.HasContents contents)
    (hlen : contents.length < 2 ^ 31) : volumes (int32 (contents.length + 1)) = none := by
  rw [h]
  by_cases hmax : (contents.length : Int) + 1 < 2 ^ 31
  · have hindex : ((contents.length : Int) + 1 - 1).toNat = contents.length := by omega
    rw [int32_of_mem (by omega) hmax, hindex, List.getElem?_eq_none le_rfl, ite_self]
  · rw [int32_of_ge (by omega) (by omega), if_neg (by omega)]

/-- The volumes from the next one on are joined. -/
lemma joinLoop_eq {contents : List (List UInt8)} (h : volumes.HasContents contents)
    (hlen : contents.length < 2 ^ 31) {k : ℕ} (hk : k ≤ contents.length) (out : List UInt8) {fuel : ℕ}
    (hfuel : contents.length - k < fuel) :
    joinLoop volumes fuel k out = some ((contents.length : Int), out ++ (contents.drop k).flatten) := by
  induction fuel generalizing k out with
  | zero => exact absurd hfuel (Nat.not_lt_zero _)
  | succ fuel ih =>
    rw [joinLoop]
    rcases hk.eq_or_lt with rfl | hlt
    · have hsame : int32 (int32 ((contents.length : Int) + 1) - 1) = contents.length := by
        rw [sub_eq_add_neg, int32_add, add_neg_cancel_right, int32_of_mem (by omega) (by omega)]
      rw [h.next_eq_none hlen]
      dsimp only
      rw [hsame, List.drop_length, List.flatten_nil, List.append_nil]
    · have hnext : int32 ((k : Int) + 1) = (k + 1 : ℕ) := by
        rw [int32_of_mem (by omega) (by omega)]
        push_cast
        rfl
      have hvolume : volumes (k + 1 : ℕ) = some contents[k] := by
        have hindex : (((k + 1 : ℕ) : Int) - 1).toNat = k := by omega
        rw [h, if_pos (by omega), hindex, List.getElem?_eq_getElem hlt]
      rw [hnext, hvolume]
      dsimp only
      rw [ih hlt _ (by omega), copyFile_eq, List.append_assoc, ← List.flatten_cons,
        ← List.drop_eq_getElem_cons hlt]

/-- **The volumes are joined to the file that they make together.** -/
theorem darcJoinVolumes_eq {contents : List (List UInt8)} (h : volumes.HasContents contents)
    (hne : contents ≠ []) (hlen : contents.length < 2 ^ 31) :
    Converges (darcJoinVolumes volumes) ((contents.length : Int), some contents.flatten) := by
  have hpos := List.length_pos_iff.mpr hne
  have hfirst : volumes 1 = some contents[0] := by
    rw [h, if_pos le_rfl]
    exact List.getElem?_eq_getElem hpos
  refine ⟨contents.length + 1, fun fuel hle => ?_⟩
  unfold darcJoinVolumes
  rw [hfirst]
  dsimp only
  have hloop := joinLoop_eq h hlen (Nat.zero_le _) [] (by omega : contents.length - 0 < fuel)
  rw [Nat.cast_zero] at hloop
  rw [hloop]
  rfl

/-! ## When the volumes are right -/

/-- **An archive is split right unless the size of a volume divides its size**, or there are more volumes than
an `int` can count. -/
theorem darcSplitFile_iff {volumeSize : ℕ} (hvs : 0 < volumeSize) (content : List UInt8) :
    SplitsRight volumeSize content ↔
      (content = [] ∨ ¬volumeSize ∣ content.length) ∧ content.length / volumeSize + 1 < 2 ^ 31 := by
  obtain ⟨ps, hps⟩ := exists_cut hvs content
  have hsplit := darcSplitFile_eq hvs hps
  have hlen := hps.length_eq hvs
  constructor
  · rintro ⟨volumes, contents, hconv, -, -, -, -, hcount, -⟩
    have hnumber : (contents.length : Int) = int32 (content.length / volumeSize + 1 : ℕ) := by
      rw [← hlen]
      exact (Prod.mk.inj (hconv.unique hsplit)).1
    by_cases hnil : content = []
    · rw [hnil, List.length_nil, Nat.zero_div]
      exact ⟨.inl rfl, by norm_num⟩
    rw [if_neg hnil] at hcount
    by_cases hdvd : volumeSize ∣ content.length
    · -- the number of pieces is one too many, and reducing it does not make it right
      obtain ⟨q, hq⟩ := hdvd
      have hrounded : (content.length + volumeSize - 1) / volumeSize = q := by
        rw [hq, Nat.add_sub_assoc hvs, Nat.mul_add_div hvs, Nat.div_eq_of_lt (by omega), Nat.add_zero]
      rw [hcount, hrounded, hq, Nat.mul_div_cancel_left q hvs] at hnumber
      have hmod := congrArg (· % (2 ^ 32 : Int)) hnumber
      unfold int32 at hmod
      have hbmod : Int.bmod ((q + 1 : ℕ) : Int) (2 ^ 32) % 2 ^ 32 = (q + 1 : ℕ) % 2 ^ 32 := by
        exact_mod_cast Int.bmod_emod
      rw [hbmod] at hmod
      push_cast at hmod
      omega
    · rw [hcount, ← hps.length_eq_roundUp hvs hdvd, hlen] at hnumber
      have hrange := (int32_mem ((content.length / volumeSize + 1 : ℕ) : Int)).2
      rw [← hnumber] at hrange
      exact ⟨.inr hdvd, by exact_mod_cast hrange⟩
  · rintro ⟨hcontent, hmax⟩
    rw [← hlen] at hmax
    have hne : ps ≠ [] := List.length_pos_iff.mp (hlen ▸ Nat.succ_pos _)
    have hplaced := place_hasContents hmax
    have hjoin := darcJoinVolumes_eq hplaced hne hmax
    rw [int32_of_mem (by omega) (by omega)] at hsplit
    rw [hps.flatten] at hjoin
    refine ⟨_, ps, hsplit, hplaced, hps.flatten, fun v => hps.length_le,
      fun v => hps.tail_ne_nil hvs hcontent, ?_, hjoin⟩
    by_cases hnil : content = []
    · rw [if_pos hnil, hlen, hnil, List.length_nil, Nat.zero_div]
    · rw [if_neg hnil, hps.length_eq_roundUp hvs (hcontent.resolve_left hnil)]

/-- Five bytes in volumes of two bytes. -/
theorem splitsRight_five : SplitsRight 2 [1, 2, 3, 4, 5] :=
  (darcSplitFile_iff two_pos [1, 2, 3, 4, 5]).mpr ⟨.inr (by decide), by decide⟩

/-- **Two bytes in volumes of one byte are not split right**: an empty third volume is written. -/
theorem not_splitsRight :
    ¬∀ volumeSize > 0, ∀ content : List UInt8, SplitsRight volumeSize content := by
  intro h
  obtain ⟨volumes, contents, hconv, -, -, -, -, hcount, -⟩ := h 1 one_pos [1, 2]
  have hcut : Cut 1 [1, 2] [[1], [2], ([] : List UInt8)] :=
    .full (p := [1]) rfl (.full (p := [2]) rfl (.last one_pos))
  have hnumber := (Prod.mk.inj (hconv.unique (darcSplitFile_eq one_pos hcut))).1
  rw [hcount] at hnumber
  exact absurd hnumber (by decide)

end DArc.Volumes
