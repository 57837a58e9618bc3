import DArc.Compression.Common
import DArc.Library.Segments

/-!
# Reading volumes without joining them

`darc_volfile` presents volumes as one file: it keeps the logical position, the volume of the position, and
the places in the volumes, and a read goes from one volume to the next.

### Outline

* `VolFile`: the structure behind a handle;
* `darcVolfileOpen`, `darcVolfileSeek`, `darcVolfileRead`: the operations;
* `Logical`: the operations on the concatenation of the volumes;
* `Fits`: a read for which the `int` in which the rest of a volume is kept is large enough.

### Main results

* `readLoop_spec`: what a read returns;
* `answers_iff`: any calls are answered like those on the concatenation when their reads fit.
-/

namespace DArc.Volumes

/-! ## The volumes behind a handle -/

/-- `darc_volfile`, with the contents of the volumes and the places in them. -/
structure VolFile where
  fps : List (List UInt8)
  places : ℕ → ℕ
  sizes : List ℕ
  offs : List ℕ
  total : ℕ
  pos : ℕ
  cur : ℕ

/-- `nvols`. -/
def VolFile.nvols (h : VolFile) : ℕ := h.fps.length

/-- `fseeko` from the beginning of a volume. -/
def VolFile.fseeko (h : VolFile) (vol local' : ℕ) : VolFile :=
  { h with places := Function.update h.places vol local' }

/-- A read goes on at the beginning of the next volume. -/
def VolFile.nextVolume (h : VolFile) : VolFile :=
  let h := { h with cur := h.cur + 1 }
  if h.cur < h.nvols then h.fseeko h.cur 0 else h

/-- `n` bytes of the current volume were read. -/
def VolFile.advance (h : VolFile) (n : ℕ) : VolFile :=
  { h with
    pos := h.pos + n,
    places := Function.update h.places h.cur (h.places h.cur + n) }

/-- The next volume is the next one, and nothing is read. -/
lemma VolFile.nextVolume_eq (h : VolFile) :
    h.nextVolume.cur = h.cur + 1 ∧ h.nextVolume.pos = h.pos ∧ h.nextVolume.total = h.total ∧
      h.nextVolume.fps = h.fps := by
  unfold nextVolume
  dsimp only
  split <;> exact ⟨rfl, rfl, rfl, rfl⟩

/-- The loop of `darc_volfile_open` over the volumes: `offs`, and the sum of the sizes. -/
def accumulate (acc : ℕ) : List ℕ → List ℕ × ℕ
  | [] => ([], acc)
  | size :: sizes =>
    let (offs, total) := accumulate (acc + size) sizes
    (acc :: offs, total)

/-- `darc_volfile_open`, when there is a volume. -/
def darcVolfileOpen (contents : List (List UInt8)) : Option VolFile :=
  if contents = [] then none
  else
    let sizes := contents.map List.length
    let (offs, total) := accumulate 0 sizes
    some { fps := contents, places := fun _ => 0, sizes, offs, total, pos := 0, cur := 0 }

/-- The binary search of `darc_volfile_seek`. -/
def locate (offs : List ℕ) (pos : ℕ) (lo hi : Int) (v : ℕ) : ℕ :=
  if _h : lo ≤ hi then
    let m := (lo + hi) / 2
    if pos < offs.getD m.toNat 0 then locate offs pos lo (m - 1) v
    else locate offs pos (m + 1) hi m.toNat
  else v
termination_by (hi + 1 - lo).toNat
decreasing_by all_goals omega

/-- `darc_volfile_seek`. -/
def darcVolfileSeek (h : VolFile) (pos : Int) : VolFile :=
  let pos := if pos < 0 then 0 else pos
  let pos := if pos > h.total then h.total else pos.toNat
  let v := locate h.offs pos 0 (h.nvols - 1) 0
  let h := { h with pos, cur := v }
  if v < h.nvols then h.fseeko v (pos - h.offs.getD v 0) else h

/-- The conversion of an `int` to `size_t`. -/
def sizeT (x : Int) : ℕ := (x % 2 ^ 64).toNat

/-- The loop of `darc_volfile_read`, with the bytes that are in the buffer. -/
def readLoop (h : VolFile) (n : Int) (out : List UInt8) (totalRead : Int) :
    VolFile × List UInt8 × Int :=
  if _h : 0 < n ∧ h.pos < h.total ∧ h.cur < h.nvols then
    let inVol : Int := h.offs.getD h.cur 0 + h.sizes.getD h.cur 0 - h.pos
    if inVol ≤ 0 then readLoop h.nextVolume n out totalRead
    else
      let want := if n < int32 inVol then n else int32 inVol
      let got := ((h.fps.getD h.cur []).drop (h.places h.cur)).take (sizeT want)
      if _hgot : got = [] then (h, out, totalRead)
      else
        readLoop (h.advance got.length) (int32 (n - got.length)) (out ++ got)
          (int32 (totalRead + got.length))
  else (h, out, totalRead)
termination_by (h.total - h.pos) + (h.nvols - h.cur)
decreasing_by
  · have hnext := h.nextVolume_eq
    unfold VolFile.nvols at _h ⊢
    rw [hnext.1, hnext.2.1, hnext.2.2.1, hnext.2.2.2]
    omega
  · have hlen := List.length_pos_iff.mpr _hgot
    have hpos : (h.advance got.length).pos = h.pos + got.length := rfl
    have hrest : (h.advance got.length).total = h.total ∧ (h.advance got.length).cur = h.cur ∧
        (h.advance got.length).nvols = h.nvols := ⟨rfl, rfl, rfl⟩
    rw [hpos, hrest.1, hrest.2.1, hrest.2.2]
    omega

/-- `darc_volfile_read`. -/
def darcVolfileRead (h : VolFile) (n : Int) : VolFile × List UInt8 × Int :=
  if n ≤ 0 then (h, [], 0) else readLoop h n [] 0

/-! ## Calls -/

/-- A call of `darc_volfile_seek` or of `darc_volfile_read`. -/
inductive Call
  | seek (pos : BitVec 64)
  | read (n : BitVec 32)

/-- What a call returns, and `darc_volfile_pos_out` after it. -/
structure Answer where
  bytes : List UInt8
  returned : Int
  pos : ℕ

/-- A call. -/
def VolFile.call (h : VolFile) : Call → Answer × VolFile
  | .seek pos =>
    let h := darcVolfileSeek h pos.toInt
    ({ bytes := [], returned := 0, pos := h.pos }, h)
  | .read n =>
    let (h, bytes, returned) := darcVolfileRead h n.toInt
    ({ bytes, returned, pos := h.pos }, h)

/-- Calls one after another. -/
def VolFile.answers (h : VolFile) : List Call → List Answer
  | [] => []
  | c :: cs => (h.call c).1 :: (h.call c).2.answers cs

/-- A call on one file with the position `pos`. -/
def logicalCall (content : List UInt8) (pos : ℕ) : Call → Answer × ℕ
  | .seek p =>
    let pos := (min (max p.toInt 0) content.length).toNat
    ({ bytes := [], returned := 0, pos }, pos)
  | .read n =>
    let bytes := (content.drop pos).take n.toInt.toNat
    ({ bytes, returned := bytes.length, pos := pos + bytes.length }, pos + bytes.length)

/-- Calls on one file one after another. -/
def logicalAnswers (content : List UInt8) (pos : ℕ) : List Call → List Answer
  | [] => []
  | c :: cs => (logicalCall content pos c).1 :: logicalAnswers content (logicalCall content pos c).2 cs

/-- What is left of the `i`-th volume for a read that is at `pos` or, if that is in front of the volume, comes
to its beginning. -/
def restOf (contents : List (List UInt8)) (pos i : ℕ) : ℕ :=
  segmentStart contents (i + 1) - max pos (segmentStart contents i)

/-- From every volume that the read of `n` bytes at `pos` touches it takes no more bytes than the rest of the
volume is as an `int`. -/
def Fits (contents : List (List UInt8)) (pos n : ℕ) : Prop :=
  ∀ i < contents.length, 0 < restOf contents pos i → max pos (segmentStart contents i) < pos + n →
    (min (pos + n - max pos (segmentStart contents i)) (restOf contents pos i) : ℕ) ≤
      int32 (restOf contents pos i)

/-- All reads of the calls fit at the places where they are. -/
def CallsFit (contents : List (List UInt8)) (pos : ℕ) : List Call → Prop
  | [] => True
  | c :: cs =>
    (∀ n, c = .read n → Fits contents pos n.toInt.toNat) ∧
      CallsFit contents (logicalCall contents.flatten pos c).2 cs

/-! ## The state between calls -/

/-- The position is in the current volume, at the place that the volume is read from. -/
structure Consistent (contents : List (List UInt8)) (h : VolFile) : Prop where
  fps : h.fps = contents
  offs : ∀ i < contents.length, h.offs.getD i 0 = segmentStart contents i
  sizes : ∀ i < contents.length, h.sizes.getD i 0 = (contents.getD i []).length
  total : h.total = contents.flatten.length
  cur : h.cur < contents.length
  begins : segmentStart contents h.cur ≤ h.pos
  ends : h.pos ≤ segmentStart contents (h.cur + 1)
  place : h.places h.cur = h.pos - segmentStart contents h.cur

variable {contents : List (List UInt8)} {h : VolFile}

/-- The offsets are the beginnings of the volumes. -/
lemma accumulate_eq (acc : ℕ) (contents : List (List UInt8)) :
    (accumulate acc (contents.map List.length)).2 = acc + contents.flatten.length ∧
      ∀ i < contents.length,
        (accumulate acc (contents.map List.length)).1.getD i 0 = acc + segmentStart contents i := by
  induction contents generalizing acc with
  | nil => exact ⟨rfl, fun i hi => absurd hi (Nat.not_lt_zero i)⟩
  | cons xs xss ih =>
    obtain ⟨htotal, hoffs⟩ := ih (acc + xs.length)
    constructor
    · rw [List.map_cons, accumulate, List.flatten_cons, List.length_append, ← Nat.add_assoc]
      exact htotal
    · intro i hi
      cases i with
      | zero => rfl
      | succ i =>
        rw [segmentStart_cons, ← Nat.add_assoc]
        exact hoffs i (Nat.lt_of_succ_lt_succ hi)

/-- The state after opening. -/
lemma open_consistent (hopen : darcVolfileOpen contents = some h) : Consistent contents h ∧ h.pos = 0 := by
  unfold darcVolfileOpen at hopen
  split at hopen
  · cases hopen
  next hne =>
  obtain ⟨htotal, hoffs⟩ := accumulate_eq 0 contents
  simp only [Nat.zero_add] at htotal hoffs
  cases hopen
  refine ⟨⟨rfl, hoffs, fun i hi => ?_, htotal, List.length_pos_iff.mpr hne, le_rfl, Nat.zero_le _, rfl⟩,
    rfl⟩
  simp [List.getD, List.getElem?_eq_getElem hi]

/-- The binary search finds the last volume that does not begin behind the position. -/
lemma locate_spec (offs : List ℕ) (pos : ℕ) (lo hi : Int) (v : ℕ) {n : ℕ} (hlo : 0 ≤ lo) (hhi : hi < n)
    (hoffs : ∀ i j, i ≤ j → j < n → offs.getD i 0 ≤ offs.getD j 0)
    (hv : v < n ∧ offs.getD v 0 ≤ pos ∧ lo ≤ v + 1)
    (habove : ∀ i : ℕ, hi < i → i < n → pos < offs.getD i 0) :
    locate offs pos lo hi v < n ∧ offs.getD (locate offs pos lo hi v) 0 ≤ pos ∧
      ∀ i, locate offs pos lo hi v < i → i < n → pos < offs.getD i 0 := by
  fun_induction locate offs pos lo hi v with
  | case1 lo hi v hle m hlt ih =>
    refine ih hlo (by omega) hv fun i hi hn => ?_
    exact hlt.trans_le (hoffs _ _ (by omega) hn)
  | case2 lo hi v hle m hge ih =>
    exact ih (by omega) hhi ⟨by omega, not_lt.mp hge, by omega⟩ habove
  | case3 lo hi v hgt => exact ⟨hv.1, hv.2.1, fun i hi hn => habove i (by omega) hn⟩

/-- The volume that the binary search finds has the position in it, or at its end. -/
lemma Consistent.locate (hc : Consistent contents h) {p : ℕ} (hp : p ≤ contents.flatten.length) :
    locate h.offs p 0 (h.nvols - 1) 0 < contents.length ∧
      segmentStart contents (locate h.offs p 0 (h.nvols - 1) 0) ≤ p ∧
      p ≤ segmentStart contents (locate h.offs p 0 (h.nvols - 1) 0 + 1) := by
  have hn : h.nvols = contents.length := congrArg List.length hc.fps
  have hpos : 0 < contents.length := (Nat.zero_le _).trans_lt hc.cur
  have hoffs (i j : ℕ) (hij : i ≤ j) (hj : j < contents.length) :
      h.offs.getD i 0 ≤ h.offs.getD j 0 := by
    rw [hc.offs i (hij.trans_lt hj), hc.offs j hj]
    exact segmentStart_mono hij
  have hfirst : h.offs.getD 0 0 ≤ p := by
    rw [hc.offs 0 hpos, segmentStart_zero]
    exact Nat.zero_le p
  obtain ⟨hlt, hbegins, hbehind⟩ := locate_spec h.offs p 0 (h.nvols - 1) 0 le_rfl
    (by rw [hn]; exact sub_one_lt _) hoffs ⟨hpos, hfirst, by norm_num⟩ (fun i hi hi' => by omega)
  refine ⟨hlt, by rwa [hc.offs _ hlt] at hbegins, ?_⟩
  by_cases hlast : DArc.Volumes.locate h.offs p 0 (h.nvols - 1) 0 + 1 < contents.length
  · have hnext := hbehind _ (Nat.lt_succ_self _) hlast
    rw [hc.offs _ hlast] at hnext
    exact hnext.le
  · have heq : DArc.Volumes.locate h.offs p 0 (h.nvols - 1) 0 + 1 = contents.length := by omega
    rwa [heq, segmentStart_length]

/-- A seek keeps the state consistent and goes to the position. -/
lemma seek_consistent (hc : Consistent contents h) (pos : Int) :
    Consistent contents (darcVolfileSeek h pos) ∧
      (darcVolfileSeek h pos).pos = (min (max pos 0) contents.flatten.length).toNat := by
  have hpos : (if (if pos < 0 then 0 else pos) > (h.total : Int) then h.total
      else (if pos < 0 then 0 else pos).toNat) = (min (max pos 0) contents.flatten.length).toNat := by
    rw [← hc.total]
    split_ifs <;> omega
  have hn : h.nvols = contents.length := congrArg List.length hc.fps
  unfold darcVolfileSeek
  dsimp only
  rw [hpos]
  generalize hp : (min (max pos 0) (contents.flatten.length : Int)).toNat = p
  obtain ⟨hlt, hbegins, hends⟩ := hc.locate (by omega : p ≤ contents.flatten.length)
  generalize locate h.offs p 0 (h.nvols - 1) 0 = v at hlt hbegins hends ⊢
  have hv : v < VolFile.nvols { h with pos := p, cur := v } := hlt.trans_eq hn.symm
  rw [if_pos hv]
  refine ⟨⟨hc.fps, hc.offs, hc.sizes, hc.total, hlt, hbegins, hends, ?_⟩, rfl⟩
  rw [hc.offs v hlt]
  exact Function.update_self _ _ _

/-! ## A read -/

/-- The rest of the current volume, as the loop computes it. -/
lemma Consistent.inVol_eq (hc : Consistent contents h) :
    (h.offs.getD h.cur 0 + h.sizes.getD h.cur 0 - h.pos : Int) = restOf contents h.pos h.cur := by
  have hends := hc.ends
  have hcur := hc.cur
  have hget : contents.getD h.cur [] = contents[h.cur] := by
    simp [List.getD, List.getElem?_eq_getElem hcur]
  rw [hc.offs _ hc.cur, hc.sizes _ hc.cur, hget]
  unfold restOf
  rw [segmentStart_succ hc.cur] at hends ⊢
  rw [max_eq_left hc.begins]
  omega

/-- When nothing is left of the current volume, the next one is there, and it begins at the position. -/
lemma Consistent.nextVolume (hc : Consistent contents h) (hrest : restOf contents h.pos h.cur = 0)
    (hpos : h.pos < h.total) : Consistent contents h.nextVolume := by
  have hends := hc.ends
  have hn : h.nvols = contents.length := congrArg List.length hc.fps
  have hend : h.pos = segmentStart contents (h.cur + 1) := by
    unfold restOf at hrest
    rw [max_eq_left hc.begins] at hrest
    omega
  have hlt : h.cur + 1 < contents.length := by
    by_contra hge
    have hlast : h.cur + 1 = contents.length := le_antisymm hc.cur (not_lt.mp hge)
    rw [hlast, segmentStart_length, ← hc.total] at hend
    exact hpos.ne hend
  have hcur : h.cur + 1 < h.nvols := hn ▸ hlt
  have hnext : h.nextVolume = VolFile.fseeko { h with cur := h.cur + 1 } (h.cur + 1) 0 := if_pos hcur
  rw [hnext]
  refine ⟨hc.fps, hc.offs, hc.sizes, hc.total, hlt, hend.ge, ?_, ?_⟩
  · exact hend.le.trans (segmentStart_mono (Nat.le_succ _))
  · change Function.update h.places (h.cur + 1) 0 (h.cur + 1) = h.pos - segmentStart contents (h.cur + 1)
    rw [Function.update_self, hend, Nat.sub_self]

/-- The bytes that are read are those at the position, and the state stays consistent. -/
lemma Consistent.advance (hc : Consistent contents h) {n : ℕ} (hn : n ≤ restOf contents h.pos h.cur) :
    ((h.fps.getD h.cur []).drop (h.places h.cur)).take n = (contents.flatten.drop h.pos).take n ∧
      (((h.fps.getD h.cur []).drop (h.places h.cur)).take n).length = n ∧
      Consistent contents (h.advance n) := by
  have hbegins := hc.begins
  have hends := hc.ends
  have hcur := hc.cur
  have hget : h.fps.getD h.cur [] = contents[h.cur] := by
    rw [hc.fps]
    simp [List.getD, List.getElem?_eq_getElem hcur]
  have hsucc := segmentStart_succ hc.cur
  have hrest : h.pos + n ≤ segmentStart contents (h.cur + 1) := by
    unfold restOf at hn
    rw [max_eq_left hc.begins] at hn
    omega
  have hlen : n ≤ ((h.fps.getD h.cur []).drop (h.places h.cur)).length := by
    rw [hget, hc.place, List.length_drop]
    omega
  refine ⟨?_, List.length_take_of_le hlen, hc.fps, hc.offs, hc.sizes, hc.total, hc.cur, ?_, hrest, ?_⟩
  · rw [drop_flatten hc.cur hc.begins hc.ends, ← hget, ← hc.place, List.take_append_of_le_length hlen]
  · exact hc.begins.trans (Nat.le_add_right _ _)
  · change Function.update h.places h.cur (h.places h.cur + n) h.cur =
      h.pos + n - segmentStart contents h.cur
    rw [Function.update_self, hc.place]
    omega

/-- As an `int`, a length is not more than it is. -/
lemma int32_le (x : ℕ) : int32 x ≤ x := by
  unfold int32
  rw [Int.bmod_def]
  split <;> omega

/-- A length without what it is as an `int` is nothing as an `int`. -/
lemma int32_sub_self (x : Int) : int32 (x - int32 x) = 0 := by
  unfold int32
  rw [Int.bmod_def, Int.bmod_def]
  split <;> split <;> omega

/-- The volumes in front of a position have no rest for it, those behind it have all of them. -/
lemma restOf_other {c pos i : ℕ} (hbegins : segmentStart contents c ≤ pos)
    (hends : pos ≤ segmentStart contents (c + 1)) (hi : i ≠ c) :
    restOf contents pos i = 0 ∨ max pos (segmentStart contents i) = segmentStart contents i ∧
      segmentStart contents (c + 1) ≤ segmentStart contents i := by
  rcases lt_or_gt_of_ne hi with hlt | hgt
  · left
    have hmono : segmentStart contents (i + 1) ≤ segmentStart contents c := segmentStart_mono hlt
    unfold restOf
    omega
  · right
    have hmono : segmentStart contents (c + 1) ≤ segmentStart contents i := segmentStart_mono hgt
    exact ⟨max_eq_right (hends.trans hmono), hmono⟩

/-- A read fits when what it takes from the volume that it is in is not more than the rest as an `int`, and
what it takes from there on fits. -/
lemma fits_iff {c pos n m : ℕ} (hc : c < contents.length) (hbegins : segmentStart contents c ≤ pos)
    (hends : pos < segmentStart contents (c + 1)) (hn : 0 < n)
    (hm : m = min n (restOf contents pos c)) :
    Fits contents pos n ↔ m ≤ int32 (restOf contents pos c) ∧ Fits contents (pos + m) (n - m) := by
  have hmax : max pos (segmentStart contents c) = pos := max_eq_left hbegins
  have hrest : restOf contents pos c = segmentStart contents (c + 1) - pos := by
    unfold restOf
    rw [hmax]
  have hother {i : ℕ} (hi : i ≠ c) : restOf contents pos i = 0 ∧ restOf contents (pos + m) i = 0 ∨
      max pos (segmentStart contents i) = segmentStart contents i ∧
        max (pos + m) (segmentStart contents i) = segmentStart contents i := by
    rcases restOf_other hbegins hends.le hi with hzero | ⟨hmaxi, hmono⟩
    · left
      refine ⟨hzero, ?_⟩
      unfold restOf at hzero ⊢
      omega
    · exact .inr ⟨hmaxi, by omega⟩
  constructor
  · intro h
    constructor
    · have hthis := h c hc (by omega) (by omega)
      rwa [hmax, Nat.add_sub_cancel_left, ← hm] at hthis
    · intro i hi hpos htouch
      by_cases hic : i = c
      · -- the read takes all that it needs, or all that there is
        subst hic
        unfold restOf at hpos
        omega
      · rcases hother hic with hzero | ⟨hmaxi, hmaxm⟩
        · omega
        · have hthis := h i hi
          unfold restOf at hthis hpos ⊢
          rw [hmaxi] at hthis
          rw [hmaxm] at hpos htouch ⊢
          have hsum : pos + m + (n - m) = pos + n := by omega
          rw [hsum] at htouch ⊢
          exact hthis hpos htouch
  · rintro ⟨hfirst, hothers⟩ i hi hpos htouch
    by_cases hic : i = c
    · subst hic
      rwa [hmax, Nat.add_sub_cancel_left, ← hm]
    · rcases hother hic with hzero | ⟨hmaxi, hmaxm⟩
      · omega
      · have hthis := hothers i hi
        unfold restOf at hthis hpos ⊢
        rw [hmaxm] at hthis
        rw [hmaxi] at hpos htouch ⊢
        have hsum : pos + m + (n - m) = pos + n := by omega
        rw [hsum] at hthis
        exact hthis hpos htouch

/-- A read that takes a part of what it needs from the volume that it is in, because the rest is more as a
number than as an `int`, does not fit from there on either. -/
lemma not_fits_of_int32 {c pos n k : ℕ} (hc : c < contents.length)
    (hbegins : segmentStart contents c ≤ pos) (hk : int32 (restOf contents pos c) = k)
    (hlt : k < min n (restOf contents pos c)) : ¬Fits contents (pos + k) (n - k) := by
  intro h
  have hmax : max pos (segmentStart contents c) = pos := max_eq_left hbegins
  have hmaxk : max (pos + k) (segmentStart contents c) = pos + k :=
    max_eq_left (hbegins.trans (Nat.le_add_right _ _))
  have hrest : restOf contents (pos + k) c = restOf contents pos c - k := by
    unfold restOf
    rw [hmax, hmaxk]
    omega
  have hzero : int32 ((restOf contents pos c - k : ℕ) : Int) = 0 := by
    rw [Nat.cast_sub (by omega), ← hk]
    exact int32_sub_self _
  have hthis := h c hc (by omega) (by omega)
  rw [hrest, hzero] at hthis
  omega

/-! ### The loop -/

/-- The loop only adds bytes to the buffer. -/
lemma readLoop_extends (h : VolFile) (n : Int) (out : List UInt8) (totalRead : Int) :
    ∃ h' got returned, readLoop h n out totalRead = (h', out ++ got, returned) := by
  fun_induction readLoop h n out totalRead with
  | case1 h n out totalRead _ inVol _ ih => exact ih
  | case2 h n out totalRead _ inVol _ want got _ =>
    exact ⟨h, [], totalRead, by rw [List.append_nil]⟩
  | case3 h n out totalRead _ inVol _ want got _ ih =>
    obtain ⟨h', got', returned, hrun⟩ := ih
    exact ⟨h', got ++ got', returned, by rw [hrun, List.append_assoc]⟩
  | case4 h n out totalRead _ => exact ⟨h, [], totalRead, by rw [List.append_nil]⟩

/-- When there is a rest, the current volume ends behind the position. -/
lemma Consistent.rest_pos (hc : Consistent contents h) (hrest : 0 < restOf contents h.pos h.cur) :
    h.pos < segmentStart contents (h.cur + 1) := by
  have hbegins := hc.begins
  unfold restOf at hrest
  omega

/-- A number of bytes is kept as `size_t`. -/
lemma sizeT_natCast {n : ℕ} (hn : n < 2 ^ 31) : sizeT n = n := by
  unfold sizeT
  omega

/-- What is left behind the position of the current volume is left of the whole. -/
lemma restOf_le (contents : List (List UInt8)) (pos c : ℕ) :
    restOf contents pos c ≤ contents.flatten.length - pos := by
  have hle : segmentStart contents (c + 1) ≤ contents.flatten.length := segmentStart_le _
  unfold restOf
  omega

/-- A negative `int` is a large `size_t`. -/
lemma lt_sizeT_of_neg {n : ℕ} {x : Int} (hn : n < 2 ^ 31) (hx : -2 ^ 31 ≤ x) (hneg : x < 0) :
    n < sizeT x := by
  unfold sizeT
  omega

/-- What the loop asks for is what it needs, if that is not more than the rest as an `int`, and otherwise the
rest as an `int`. -/
lemma want_eq (n rest : ℕ) :
    (if (n : Int) < int32 rest then (n : Int) else int32 rest) =
      if (min n rest : ℕ) ≤ int32 rest then ((min n rest : ℕ) : Int) else int32 rest := by
  have hle := int32_le rest
  split <;> split <;> omega

/-- A wrong number of bytes behind `m` bytes is a wrong number of bytes. -/
lemma length_ne {m n r l total pos : ℕ} (hr : r ≤ total - pos) (hm : m ≤ min n r)
    (h : l ≠ min (n - m) (total - (pos + m))) : m + l ≠ min n (total - pos) := by
  omega

/-- The result of the loop with the bytes `got` is right if the read fits, and only then. -/
def ReadsRight (contents : List (List UInt8)) (h : VolFile) (n : ℕ) (totalRead : Int) (h' : VolFile)
    (got : List UInt8) (returned : Int) : Prop :=
  (Fits contents h.pos n → Consistent contents h' ∧ got = (contents.flatten.drop h.pos).take n ∧
      h'.pos = h.pos + got.length ∧ returned = int32 (totalRead + got.length)) ∧
    (¬Fits contents h.pos n → got.length ≠ min n (contents.flatten.length - h.pos))

/-- **A read returns the bytes at the position if it fits**, and otherwise too few or too many. -/
theorem readLoop_spec (hc : Consistent contents h) {n : ℕ} (hn : n < 2 ^ 31) (out : List UInt8)
    {totalRead : Int} (htotal : int32 totalRead = totalRead) :
    ∃ h' got returned, readLoop h n out totalRead = (h', out ++ got, returned) ∧
      ReadsRight contents h n totalRead h' got returned := by
  generalize hz : (n : Int) = z
  fun_induction readLoop h z out totalRead generalizing n with
  | case1 h z out totalRead hgo inVol hle ih =>
    have hzero : restOf contents h.pos h.cur = 0 := by
      have heq := hc.inVol_eq
      omega
    obtain ⟨h', got, returned, hrun, hright⟩ :=
      ih (hc.nextVolume hzero hgo.2.1) hn htotal hz
    refine ⟨h', got, returned, hrun, ?_⟩
    unfold ReadsRight at hright ⊢
    rwa [h.nextVolume_eq.2.1] at hright
  | case2 h z out totalRead hgo inVol hpos want got =>
    rename_i hnil
    subst hz
    obtain ⟨r, hr⟩ : ∃ r, r = restOf contents h.pos h.cur := ⟨_, rfl⟩
    have hrest : inVol = r := hr ▸ hc.inVol_eq
    have hwant : want = if ((min n r : ℕ) : Int) ≤ int32 r then ((min n r : ℕ) : Int) else int32 r := by
      rw [← want_eq, ← hrest]
      rfl
    have hends := hc.rest_pos (by omega)
    have hle := restOf_le contents h.pos h.cur
    -- nothing was read, since the rest is 0 as an `int`
    have hnot : ¬((min n r : ℕ) : Int) ≤ int32 r := by
      intro hfirst
      obtain ⟨-, hlen, -⟩ := hc.advance (n := min n r) (hr ▸ min_le_right n r)
      rw [if_pos hfirst] at hwant
      have hgot : got.length = min n r := by
        rw [← hlen, ← sizeT_natCast (by omega : min n r < 2 ^ 31), ← hwant]
      rw [hnil, List.length_nil] at hgot
      omega
    have hiff := fits_iff hc.cur hc.begins hends (by omega : 0 < n) rfl
    rw [← hr] at hiff
    refine ⟨h, [], totalRead, by rw [List.append_nil], fun hfits => absurd (hiff.mp hfits).1 hnot,
      fun _ => ?_⟩
    rw [List.length_nil]
    omega
  | case3 h z out totalRead hgo inVol hpos want got hne =>
    rename_i ih
    subst hz
    clear htotal
    obtain ⟨r, hr⟩ : ∃ r, r = restOf contents h.pos h.cur := ⟨_, rfl⟩
    have hrest : inVol = r := hr ▸ hc.inVol_eq
    have hwant : want = if ((min n r : ℕ) : Int) ≤ int32 r then ((min n r : ℕ) : Int) else int32 r := by
      rw [← want_eq, ← hrest]
      rfl
    have hends := hc.rest_pos (by omega)
    have hle := restOf_le contents h.pos h.cur
    have hiff := fits_iff hc.cur hc.begins hends (by omega : 0 < n) rfl
    have hgotEq : got = ((h.fps.getD h.cur []).drop (h.places h.cur)).take (sizeT want) := rfl
    rw [← hr] at hiff hle
    clear_value inVol want got
    -- when the number of bytes that are asked for is not negative, they are read
    have hread {k : ℕ} (hk : want = k) (hkn : k ≤ min n r) :
        got.length = k ∧ got = (contents.flatten.drop h.pos).take k ∧
          ∃ h' got' returned, readLoop (h.advance got.length) (int32 (n - got.length)) (out ++ got)
            (int32 (totalRead + got.length)) = (h', out ++ (got ++ got'), returned) ∧
            ReadsRight contents (h.advance k) (n - k) (int32 (totalRead + k)) h' got' returned := by
      obtain ⟨htake, hlen, hadvance⟩ := hc.advance (n := k) (by omega)
      have hgot : got = ((h.fps.getD h.cur []).drop (h.places h.cur)).take k := by
        rw [hgotEq, hk, sizeT_natCast (by omega : k < 2 ^ 31)]
      have hgotLen : got.length = k := hgot ▸ hlen
      refine ⟨hgotLen, hgot.trans htake, ?_⟩
      have hrest : int32 ((n : Int) - got.length) = (n - k : ℕ) := by
        rw [hgotLen, int32_of_mem (by omega) (by omega), Nat.cast_sub (by omega)]
      obtain ⟨h', got', returned, hrun, hright⟩ := ih (hgotLen ▸ hadvance) (by omega : n - k < 2 ^ 31)
        (int32_int32 _) hrest.symm
      refine ⟨h', got', returned, by rw [hrun, List.append_assoc], ?_⟩
      rwa [hgotLen] at hright
    by_cases hfirst : ((min n r : ℕ) : Int) ≤ int32 r
    · rw [if_pos hfirst] at hwant
      obtain ⟨hlen, hgot, h', got', returned, hrun, hright⟩ := hread hwant le_rfl
      have hadvance : (h.advance (min n r)).pos = h.pos + min n r := rfl
      unfold ReadsRight at hright
      rw [hadvance] at hright
      refine ⟨h', got ++ got', returned, hrun, fun hfits => ?_, fun hnot => ?_⟩
      · obtain ⟨hconsistent, hgot', hpos', hreturned⟩ := hright.1 (hiff.mp hfits).2
        refine ⟨hconsistent, ?_, ?_, ?_⟩
        · have hsum : n = min n r + (n - min n r) := (Nat.add_sub_cancel' (min_le_left n r)).symm
          rw [hgot, hgot', ← List.drop_drop, ← List.take_add, ← hsum]
        · rw [hpos', List.length_append, hlen, Nat.add_assoc]
        · rw [hreturned, int32_add, List.length_append, hlen]
          push_cast
          rw [add_assoc]
      · have hlater := hright.2 fun hfits => hnot (hiff.mpr ⟨hfirst, hfits⟩)
        rw [List.length_append, hlen]
        exact length_ne hle le_rfl hlater
    · rw [if_neg hfirst] at hwant
      have hnot : ¬Fits contents h.pos n := fun hfits => hfirst (hiff.mp hfits).1
      by_cases hneg : int32 r < 0
      · -- a negative `int` becomes a `size_t` that is larger than the buffer
        have hbig : 2 ^ 31 ≤ r := by
          by_contra hsmall
          rw [int32_of_mem (by omega) (by omega)] at hneg
          omega
        have hsize : n < sizeT want := hwant ▸ lt_sizeT_of_neg hn (int32_mem _).1 hneg
        have hlen : n < got.length := by
          obtain ⟨-, hlen, -⟩ := hc.advance (n := r) hr.le
          rw [List.length_take] at hlen
          rw [hgotEq, List.length_take]
          exact lt_min hsize ((hn.trans_le hbig).trans_le (min_eq_left_iff.mp hlen))
        obtain ⟨h', got', returned, hrun⟩ := readLoop_extends (h.advance got.length) (int32 (n - got.length))
          (out ++ got) (int32 (totalRead + got.length))
        refine ⟨h', got ++ got', returned, by rw [hrun, List.append_assoc],
          fun hfits => absurd hfits hnot, fun _ => ?_⟩
        rw [List.length_append]
        exact ((min_le_left n _).trans_lt (hlen.trans_le (Nat.le_add_right _ _))).ne'
      · obtain ⟨k, hk⟩ := Int.eq_ofNat_of_zero_le (not_lt.mp hneg)
        have hlt : k < min n r := by omega
        obtain ⟨hlen, -, h', got', returned, hrun, hright⟩ := hread (hwant.trans hk) hlt.le
        have hadvance : (h.advance k).pos = h.pos + k := rfl
        have hlater := hright.2
          (hadvance ▸ not_fits_of_int32 hc.cur hc.begins (hr ▸ hk) (hr ▸ hlt))
        rw [hadvance] at hlater
        refine ⟨h', got ++ got', returned, hrun, fun hfits => absurd hfits hnot, fun _ => ?_⟩
        rw [List.length_append, hlen]
        exact length_ne hle hlt.le hlater
  | case4 h z out totalRead hstop =>
    refine ⟨h, [], totalRead, by rw [List.append_nil], ?_⟩
    have hend : n = 0 ∨ contents.flatten.length ≤ h.pos := by
      have hcur : h.cur < h.nvols := hc.cur.trans_eq (congrArg List.length hc.fps).symm
      rw [← hc.total]
      omega
    have hfits : Fits contents h.pos n := by
      intro i hi hrest htouch
      have hle : segmentStart contents (i + 1) ≤ contents.flatten.length := segmentStart_le _
      unfold restOf at hrest
      omega
    refine ⟨fun _ => ⟨hc, ?_, rfl, by simpa using htotal.symm⟩, fun hnot => absurd hfits hnot⟩
    rcases hend with rfl | hend
    · rw [List.take_zero]
    · rw [List.drop_of_length_le hend, List.take_nil]

/-! ## Calls one after another -/

/-- A read is answered right if it fits, and only then. -/
lemma read_spec (hc : Consistent contents h) (n : BitVec 32) :
    (Fits contents h.pos n.toInt.toNat →
      (h.call (.read n)).1 = (logicalCall contents.flatten h.pos (.read n)).1 ∧
        Consistent contents (h.call (.read n)).2 ∧
        (h.call (.read n)).2.pos = (logicalCall contents.flatten h.pos (.read n)).2) ∧
      (¬Fits contents h.pos n.toInt.toNat →
        (h.call (.read n)).1 ≠ (logicalCall contents.flatten h.pos (.read n)).1) := by
  have hlt : n.toInt < 2 ^ 31 := by
    have htoInt := BitVec.toInt_lt (x := n)
    omega
  by_cases hpos : n.toInt ≤ 0
  · have hzero : n.toInt.toNat = 0 := Int.toNat_of_nonpos hpos
    have hcall : h.call (.read n) = ({ bytes := [], returned := 0, pos := h.pos }, h) := by
      unfold VolFile.call darcVolfileRead
      dsimp only
      rw [if_pos hpos]
    have hlogical : logicalCall contents.flatten h.pos (.read n) =
        ({ bytes := [], returned := 0, pos := h.pos }, h.pos) := by
      unfold logicalCall
      dsimp only
      rw [hzero, List.take_zero]
      rfl
    rw [hzero, hcall, hlogical]
    have hfits : Fits contents h.pos 0 := fun i hi hrest htouch => by omega
    exact ⟨fun _ => ⟨rfl, hc, rfl⟩, fun hnot => absurd hfits hnot⟩
  · obtain ⟨m, hm⟩ := Int.eq_ofNat_of_zero_le (not_le.mp hpos).le
    have hsmall : m < 2 ^ 31 := by omega
    obtain ⟨h', got, returned, hrun, hright⟩ := readLoop_spec hc hsmall [] (int32_of_mem (x := 0)
      (by norm_num) (by norm_num))
    have hcall : h.call (.read n) = ({ bytes := got, returned, pos := h'.pos }, h') := by
      unfold VolFile.call darcVolfileRead
      dsimp only
      rw [if_neg hpos, hm, hrun, List.nil_append]
    have htoNat : n.toInt.toNat = m := by omega
    rw [hcall, htoNat]
    refine ⟨fun hfits => ?_, fun hnot hanswer => ?_⟩
    · obtain ⟨hconsistent, hgot, hpos', hreturned⟩ := hright.1 hfits
      have hlen : got.length ≤ m := hgot ▸ List.length_take_le _ _
      rw [zero_add, int32_of_mem (by omega) (by omega)] at hreturned
      unfold logicalCall
      dsimp only
      rw [htoNat, ← hgot, hpos', hreturned]
      exact ⟨rfl, hconsistent, rfl⟩
    · refine hright.2 hnot ?_
      have hbytes : got = (contents.flatten.drop h.pos).take n.toInt.toNat :=
        congrArg Answer.bytes hanswer
      rw [hbytes, htoNat, List.length_take, List.length_drop]

/-- Calls are answered like those on the concatenation from a consistent state on. -/
lemma answers_iff_of_consistent (hc : Consistent contents h) (calls : List Call) :
    h.answers calls = logicalAnswers contents.flatten h.pos calls ↔ CallsFit contents h.pos calls := by
  induction calls generalizing h with
  | nil => exact ⟨fun _ => trivial, fun _ => rfl⟩
  | cons c calls ih =>
    rw [VolFile.answers, logicalAnswers, CallsFit, List.cons.injEq]
    cases c with
    | seek p =>
      obtain ⟨hconsistent, hpos⟩ := seek_consistent hc p.toInt
      have hanswer : (h.call (.seek p)).1 = (logicalCall contents.flatten h.pos (.seek p)).1 := by
        unfold VolFile.call logicalCall
        dsimp only
        rw [hpos]
      have hnext : (h.call (.seek p)).2.pos = (logicalCall contents.flatten h.pos (.seek p)).2 := hpos
      have hothers := ih hconsistent
      rw [← hnext]
      exact ⟨fun hall => ⟨fun n hn => (by cases hn), hothers.mp hall.2⟩,
        fun hall => ⟨hanswer, hothers.mpr hall.2⟩⟩
    | read n =>
      obtain ⟨hright, hwrong⟩ := read_spec hc n
      have hfits : (∀ m, Call.read n = .read m → Fits contents h.pos m.toInt.toNat) ↔
          Fits contents h.pos n.toInt.toNat :=
        ⟨fun hall => hall n rfl, fun hall m hm => (by cases hm; exact hall)⟩
      rw [hfits]
      by_cases hn : Fits contents h.pos n.toInt.toNat
      · obtain ⟨hanswer, hconsistent, hnext⟩ := hright hn
        rw [← hnext, ih hconsistent]
        exact and_congr_left fun _ => iff_of_true hanswer hn
      · exact iff_of_false (fun hall => hwrong hn hall.1) (fun hall => hn hall.1)

/-- All reads fit when all volumes are smaller than 2 GB. -/
lemma callsFit_of_small (hsmall : ∀ v ∈ contents, v.length < 2 ^ 31) (pos : ℕ) (calls : List Call) :
    CallsFit contents pos calls := by
  have hfits (pos n : ℕ) : Fits contents pos n := by
    intro i hi hrest htouch
    have hlen := hsmall _ (List.getElem_mem hi)
    have hle : restOf contents pos i ≤ contents[i].length := by
      unfold restOf
      rw [segmentStart_succ hi]
      omega
    rw [int32_of_mem (by omega) (by omega)]
    exact Nat.cast_le.mpr (min_le_right _ _)
  induction calls generalizing pos with
  | nil => trivial
  | cons c calls ih => exact ⟨fun n _ => hfits pos _, ih _⟩

/-- **Calls are answered like those on the concatenation of the volumes** if and only if the reads among them
fit. -/
theorem answers_iff {contents : List (List UInt8)} {h : VolFile}
    (hopen : darcVolfileOpen contents = some h) (calls : List Call) :
    h.answers calls = logicalAnswers contents.flatten 0 calls ↔ CallsFit contents 0 calls := by
  obtain ⟨hc, hpos⟩ := open_consistent hopen
  rw [← hpos]
  exact answers_iff_of_consistent hc calls

/-- Three volumes, the second of which is empty. -/
theorem answers_three :
    ∃ h, darcVolfileOpen [[1, 2], [], [3]] = some h ∧
      h.answers [.read 2, .seek 1, .read 5] =
        logicalAnswers [[1, 2], [], [3]].flatten 0 [.read 2, .seek 1, .read 5] := by
  refine ⟨_, rfl, (answers_iff rfl _).mpr (callsFit_of_small (fun v hv => ?_) 0 _)⟩
  have hlen : v.length ≤ 2 := by
    fin_cases hv <;> decide
  exact hlen.trans_lt (by decide)

/-- **The first byte of a volume of 2 GB is not read.** -/
theorem not_answers :
    ¬∀ (contents : List (List UInt8)) (h : VolFile), darcVolfileOpen contents = some h →
      ∀ calls, h.answers calls = logicalAnswers contents.flatten 0 calls := by
  intro hall
  obtain ⟨contents, hcontents⟩ : ∃ contents : List (List UInt8), contents = [List.replicate (2 ^ 31) 0] :=
    ⟨_, rfl⟩
  have hsucc : segmentStart contents (0 + 1) = 2 ^ 31 := by
    have hlen : 0 < contents.length := by rw [hcontents]; exact Nat.one_pos
    rw [segmentStart_succ hlen, segmentStart_zero, Nat.zero_add]
    subst hcontents
    exact List.length_replicate
  have hopen : ∃ h, darcVolfileOpen contents = some h := by
    unfold darcVolfileOpen
    rw [if_neg (by rw [hcontents]; exact List.cons_ne_nil _ _)]
    exact ⟨_, rfl⟩
  obtain ⟨h, hopen⟩ := hopen
  obtain ⟨hc, hpos⟩ := open_consistent hopen
  have hanswers := hall contents h hopen [.read 1]
  rw [← hpos, answers_iff_of_consistent hc, hpos] at hanswers
  have hfits := hanswers.1 1 rfl 0 (by rw [hcontents]; exact Nat.one_pos)
  have hrest : restOf contents 0 0 = 2 ^ 31 := by
    unfold restOf
    rw [hsucc, segmentStart_zero, max_self, Nat.sub_zero]
  rw [hrest, segmentStart_zero, max_self, int32_of_ge (by norm_num) (by norm_num)] at hfits
  have hle := hfits (by norm_num) (by decide)
  omega

end DArc.Volumes
