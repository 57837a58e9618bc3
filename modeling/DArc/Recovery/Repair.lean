import DArc.Library.Parity
import DArc.Recovery.Record
import Mathlib.Data.List.SplitBy

/-!
# Archives are repaired

The recovery sectors are the parities of the sectors that are dealt to them.  After the scan the difference
of the one damaged sector of a class is left there, and adding it restores the sector.

### Outline

* `dealt`: the recovery sectors after the loop over the archive;
* `crcTable`, `differing`: what is written of the sectors, and which ones differ from it;
* `Intact`: the recovery blocks are as they were written.

### Main results

* `dealt_parity`: the recovery sectors hold parities;
* `memxor_dealt`: adding what is left restores the only damaged sector of a class;
* `runArchiveRecovery_repairs`: an archive with at most one damaged sector in each class is repaired, and so
  is any burst of as many sectors as there are recovery sectors.
-/

namespace DArc.Recovery

open DArc.Archive DArc.Environment

/-! ## Recovery sectors -/

/-- The recovery sectors when the sectors were dealt to them, beginning with `idx`. -/
def dealt (ss N : ℕ) : ℕ → List UInt8 → List (List UInt8) → List UInt8
  | _, recovery, [] => recovery
  | idx, recovery, X :: Xs => dealt ss N ((idx + 1) % N) (xorInto ss idx recovery X) Xs

section

variable {ss N : ℕ}

/-- A byte of the recovery sectors is in the sectors. -/
lemma mul_add_lt {j p : ℕ} (hj : j < N) (hp : p < ss) : j * ss + p < N * ss := by
  have hle : (j + 1) * ss ≤ N * ss := Nat.mul_le_mul_right ss hj
  rw [Nat.succ_mul] at hle
  omega

/-- A sector is added to one recovery sector. -/
lemma xorInto_spec {idx : ℕ} {recovery buf : List UInt8} (hlen : recovery.length = N * ss)
    (hidx : idx < N) (hbuf : buf.length ≤ ss) :
    (xorInto ss idx recovery buf).length = N * ss ∧ ∀ j p, p < ss →
      byteOf (xorInto ss idx recovery buf) (j * ss + p) =
        byteOf recovery (j * ss + p) ^^^ if idx = j then byteOf buf p else 0 := by
  have hroom : idx * ss + ss ≤ N * ss := by
    rw [← Nat.succ_mul]
    exact Nat.mul_le_mul_right ss hidx
  have htake : (recovery.take (idx * ss)).length = idx * ss := by
    rw [List.length_take]
    omega
  have hadded : Added buf (recovery.drop (idx * ss))
      (memxor (recovery.drop (idx * ss)) buf buf.length) 0 buf.length :=
    memxor_added (by rw [List.length_drop]; omega) (le_refl _)
  refine ⟨?_, fun j p hp => ?_⟩
  · rw [xorInto, List.length_append, htake, hadded.1, List.length_drop]
    omega
  · rw [xorInto, byteOf_append, htake]
    by_cases hbefore : j * ss + p < idx * ss
    · have hne : idx ≠ j := by
        rintro rfl
        omega
      rw [if_pos hbefore, if_neg hne, byteOf_take _ hbefore, UInt8.xor_zero]
    · have hsum : idx * ss + (j * ss + p - idx * ss) = j * ss + p := by omega
      rw [if_neg hbefore, hadded.2, byteOf_drop, hsum]
      by_cases hj : idx = j
      · subst hj
        rw [if_pos rfl, Nat.add_sub_cancel_left]
        by_cases hin : p < buf.length
        · rw [if_pos ⟨Nat.zero_le _, hin⟩]
        · rw [if_neg (by omega), byteOf_of_le (not_lt.mp hin), UInt8.xor_zero]
      · have hnext : (idx + 1) * ss ≤ j * ss := by
          refine Nat.mul_le_mul_right ss (lt_of_le_of_ne ?_ hj)
          by_contra hcon
          have hle : (j + 1) * ss ≤ idx * ss := Nat.mul_le_mul_right ss (not_le.mp hcon)
          rw [Nat.succ_mul] at hle
          omega
        rw [Nat.succ_mul] at hnext
        rw [if_neg (by omega), if_neg hj, UInt8.xor_zero]

/-- **The recovery sectors hold parities.** -/
theorem dealt_parity {Xs : List (List UInt8)} {idx : ℕ} {recovery : List UInt8}
    (hlen : recovery.length = N * ss) (hidx : idx < N) (hXs : ∀ X ∈ Xs, X.length ≤ ss) :
    (dealt ss N idx recovery Xs).length = N * ss ∧ ∀ j p, p < ss →
      byteOf (dealt ss N idx recovery Xs) (j * ss + p) =
        byteOf recovery (j * ss + p) ^^^ parity N idx Xs j p := by
  induction Xs generalizing idx recovery with
  | nil => exact ⟨hlen, fun j p _ => UInt8.xor_zero.symm⟩
  | cons X Xs ih =>
    obtain ⟨hX, hXs⟩ := List.forall_mem_cons.mp hXs
    obtain ⟨hlen', hbytes⟩ := xorInto_spec hlen hidx hX
    obtain ⟨hlen'', hrest⟩ := ih hlen' (Nat.mod_lt _ (by omega)) hXs
    refine ⟨hlen'', fun j p hp => ?_⟩
    rw [dealt, hrest j p hp, hbytes j p hp, parity, UInt8.xor_assoc]

/-- **Adding what is left in the recovery sector restores the only damaged sector of its class.** -/
theorem memxor_dealt {Ss Ts : List (List UInt8)} {idx d : ℕ} {S T : List UInt8} (hidx : idx < N)
    (hlen : Ss.length = Ts.length) (hSs : ∀ X ∈ Ss, X.length ≤ ss) (hTs : ∀ X ∈ Ts, X.length ≤ ss)
    (hS : Ss[d]? = some S) (hT : Ts[d]? = some T) (hST : S.length = T.length)
    (honly : ∀ i < Ss.length, i ≠ d → (idx + i) % N = (idx + d) % N → Ss[i]? = Ts[i]?) :
    memxor T ((dealt ss N idx (dealt ss N idx (List.replicate (N * ss) 0) Ss) Ts).drop
      ((idx + d) % N * ss)) T.length = S := by
  have hzeros : (List.replicate (N * ss) (0 : UInt8)).length = N * ss := List.length_replicate
  obtain ⟨hlen₁, hfirst⟩ := dealt_parity hzeros hidx hSs
  obtain ⟨hlen₂, hsecond⟩ := dealt_parity hlen₁ hidx hTs
  have hTss : T.length ≤ ss := hTs T (List.mem_of_getElem? hT)
  have hroom : (idx + d) % N * ss + ss ≤ N * ss := by
    rw [← Nat.succ_mul]
    exact Nat.mul_le_mul_right ss (Nat.mod_lt _ (by omega))
  have hadded := memxor_added (le_refl T.length) (show T.length ≤ ((dealt ss N idx
    (dealt ss N idx (List.replicate (N * ss) 0) Ss) Ts).drop ((idx + d) % N * ss)).length by
      rw [List.length_drop, hlen₂]; omega)
  refine eq_of_byteOf (hadded.1.trans hST.symm) fun p hp => ?_
  rw [hadded.1] at hp
  have hp' : p < ss := lt_of_lt_of_le hp hTss
  have hzero : byteOf (List.replicate (N * ss) (0 : UInt8)) ((idx + d) % N * ss + p) = 0 := by
    rw [byteOf, List.getD_eq_getElem?_getD, List.getElem?_replicate, if_pos (by omega)]
    rfl
  rw [hadded.2, if_pos ⟨Nat.zero_le _, hp⟩, byteOf_drop, hsecond _ p hp', hfirst _ p hp', hzero,
    UInt8.zero_xor, parity_xor_of_differ p hidx hlen hS hT rfl honly, UInt8.xor_comm (byteOf S p),
    ← UInt8.xor_assoc, UInt8.xor_self, UInt8.zero_xor]

/-! ## The loops -/

/-- What is written of the CRCs of the sectors. -/
def crcTable (Xs : List (List UInt8)) : List UInt8 := Xs.flatMap fun X => leBytes 4 (calcCRC X).toNat

/-- The CRC of the first sector and those behind it. -/
lemma crcTable_cons (X : List UInt8) (Xs : List (List UInt8)) :
    crcTable (X :: Xs) = leBytes 4 (calcCRC X).toNat ++ crcTable Xs := List.flatMap_cons

/-- The numbers, from `n` on, of the sectors whose CRCs differ. -/
def differing : ℕ → List (List UInt8) → List (List UInt8) → List ℕ
  | n, S :: Ss, T :: Ts =>
    if calcCRC T ≠ calcCRC S then n :: differing (n + 1) Ss Ts else differing (n + 1) Ss Ts
  | _, _, _ => []

/-- The CRC of a sector is read back. -/
lemma readStorable_crc (X rest : List UInt8) :
    readStorable 4 (leBytes 4 (calcCRC X).toNat ++ rest) = some (calcCRC X, rest) := by
  obtain ⟨w, hw, hread⟩ := storable_transmits (k := 4) (calcCRC X)
  cases hw
  exact hread rest

/-- The loop that writes the record. -/
lemma protect_loop (ss : ℕ) (hN : 0 < N) (Xs : List (List UInt8)) (st : Protection) :
    ∃ idx, Xs.foldlM (fun st buf => protectSector ss N buf st) st =
      some { idx, crcStream := st.crcStream ++ crcTable Xs, recovery := dealt ss N st.idx st.recovery Xs } := by
  induction Xs generalizing st with
  | nil => exact ⟨st.idx, by rw [crcTable, List.flatMap_nil, List.append_nil]; rfl⟩
  | cons X Xs ih =>
    obtain ⟨idx, hidx⟩ := ih { idx := (st.idx + 1) % N,
                               crcStream := st.crcStream ++ leBytes 4 (calcCRC X).toNat,
                               recovery := xorInto ss st.idx st.recovery X }
    refine ⟨idx, ?_⟩
    have hstep : protectSector ss N X st =
        some { idx := (st.idx + 1) % N, crcStream := st.crcStream ++ leBytes 4 (calcCRC X).toNat,
               recovery := xorInto ss st.idx st.recovery X } := by
      unfold protectSector
      dsimp only [writeStorable, Bind.bind, Option.bind]
      rw [if_pos hN]
      rfl
    rw [List.foldlM_cons, hstep, crcTable_cons, ← List.append_assoc]
    exact hidx

/-- The loop that scans the archive. -/
lemma scan_loop (ss : ℕ) (hN : 0 < N) {Ss Ts : List (List UInt8)} (hlen : Ss.length = Ts.length)
    (st : Scan) {tail : List UInt8} (hcrc : st.crcStream = crcTable Ss ++ tail) :
    ∃ idx n, Ts.foldlM (fun st buf => scanSector true ss N buf st) st =
      some { idx, n, crcStream := tail, recovery := dealt ss N st.idx st.recovery Ts,
             badCrcs := st.badCrcs ++ differing st.n Ss Ts } := by
  induction Ss generalizing Ts st with
  | nil =>
    have hnil : Ts = [] := List.eq_nil_of_length_eq_zero hlen.symm
    subst hnil
    refine ⟨st.idx, st.n, ?_⟩
    rw [differing, List.append_nil, ← (show st.crcStream = tail from hcrc)]
    · rfl
    · exact fun _ _ _ _ h => by cases h
  | cons S Ss ih =>
    cases Ts with
    | nil => simp at hlen
    | cons T Ts =>
      have hread : readStorable 4 st.crcStream = some (calcCRC S, crcTable Ss ++ tail) := by
        rw [hcrc, crcTable_cons, List.append_assoc, readStorable_crc]
      obtain ⟨st', hst'⟩ : ∃ st' : Scan, st' =
          { idx := (st.idx + 1) % N, n := st.n + 1, crcStream := crcTable Ss ++ tail,
            recovery := xorInto ss st.idx st.recovery T,
            badCrcs := st.badCrcs ++ if calcCRC T ≠ calcCRC S then [st.n] else [] } := ⟨_, rfl⟩
      have hstep : scanSector true ss N T st = some st' := by
        unfold scanSector
        dsimp only
        rw [if_pos ⟨rfl, hN⟩]
        dsimp only
        rw [hread, hst']
        dsimp only [Bind.bind, Option.bind, Pure.pure]
        by_cases hdiff : calcCRC T ≠ calcCRC S
        · rw [if_pos hdiff, if_pos hdiff, Nat.add_sub_cancel]
        · rw [if_neg hdiff, if_neg hdiff, List.append_nil]
      have hcrc' : st'.crcStream = crcTable Ss ++ tail := by rw [hst']
      obtain ⟨idx, n, hrest⟩ := ih (Nat.succ.inj hlen) st' hcrc'
      refine ⟨idx, n, ?_⟩
      rw [List.foldlM_cons, hstep]
      refine hrest.trans ?_
      rw [dealt, differing, hst']
      dsimp only
      rw [List.append_assoc]
      by_cases hdiff : calcCRC T ≠ calcCRC S
      · rw [if_pos hdiff, if_pos hdiff, List.singleton_append]
      · rw [if_neg hdiff, if_neg hdiff, List.nil_append]

/-- The loop that copies the archive, when adding what is left restores the sectors to recover and the
others are not damaged. -/
lemma copy_loop (recovery : List UInt8) (info : ControlInfo) (original : Original)
    (archiveFullSize : ℕ) (toRecover : List ℕ) (hN : 0 < info.recSectors)
    {Ss Ts : List (List UInt8)} (hlen : Ss.length = Ts.length) (st : Copy) {tail : List UInt8}
    (hcrc : st.crcStream = crcTable Ss ++ tail) (herrors : st.errors = [])
    (hidx : st.idx < info.recSectors)
    (hfix : ∀ i S T, Ss[i]? = some S → Ts[i]? = some T →
      if st.n + i ∈ toRecover then
        memxor T (recovery.drop ((st.idx + i) % info.recSectors * info.sectorSize)) T.length = S
      else T = S) :
    ∃ idx n, Ts.foldlM
        (fun st buf => copySector recovery info original archiveFullSize toRecover buf st) st =
      some { idx, n, crcStream := tail, output := st.output ++ Ss.flatten, errors := [] } := by
  induction Ss generalizing Ts st with
  | nil =>
    have hnil : Ts = [] := List.eq_nil_of_length_eq_zero hlen.symm
    subst hnil
    refine ⟨st.idx, st.n, ?_⟩
    rw [List.flatten_nil, List.append_nil, ← herrors, ← (show st.crcStream = tail from hcrc)]
    rfl
  | cons S Ss ih =>
    cases Ts with
    | nil => simp at hlen
    | cons T Ts =>
      have hread : readStorable 4 st.crcStream = some (calcCRC S, crcTable Ss ++ tail) := by
        rw [hcrc, crcTable_cons, List.append_assoc, readStorable_crc]
      obtain ⟨st', hst'⟩ : ∃ st' : Copy, st' =
          { idx := (st.idx + 1) % info.recSectors, n := st.n + 1, crcStream := crcTable Ss ++ tail,
            output := st.output ++ S, errors := [] } := ⟨_, rfl⟩
      have hrestore : restoreSector recovery info.sectorSize toRecover st.idx st.n (calcCRC S) T [] =
          (S, []) := by
        have hT := hfix 0 S T rfl rfl
        rw [Nat.add_zero, Nat.add_zero, Nat.mod_eq_of_lt hidx] at hT
        unfold restoreSector
        by_cases hn : st.n ∈ toRecover
        · rw [if_pos hn] at hT
          dsimp only
          rw [if_pos hn, hT, if_neg (not_not_intro rfl)]
        · rw [if_neg hn] at hT
          rw [if_neg hn, hT]
      have hdownload : downloadSector original archiveFullSize
          (st.n * info.sectorSize + info.initPos) st.n (calcCRC S) S [] = (S, []) := by
        cases original with
        | notGiven => rfl
        | notOpened => rfl
        | opened file =>
          unfold downloadSector
          dsimp only
          rw [if_neg (fun h => List.not_mem_nil h.1)]
      have hstep : copySector recovery info original archiveFullSize toRecover T st = some st' := by
        unfold copySector
        rw [hread, herrors]
        dsimp only [Bind.bind, Option.bind, Pure.pure]
        rw [hrestore]
        dsimp only
        rw [hdownload, if_pos hN, hst']
      have hcrc' : st'.crcStream = crcTable Ss ++ tail := by rw [hst']
      have herrors' : st'.errors = [] := by rw [hst']
      have hidx' : st'.idx < info.recSectors := by
        rw [hst']
        exact Nat.mod_lt _ hN
      obtain ⟨idx, n, hrest⟩ := ih (Nat.succ.inj hlen) st' hcrc' herrors' hidx' fun i S' T' hS' hT' => by
        have h := hfix (i + 1) S' T' hS' hT'
        rw [hst']
        dsimp only
        rwa [class_succ, Nat.add_assoc, Nat.add_comm 1 i]
      refine ⟨idx, n, ?_⟩
      rw [List.foldlM_cons, hstep]
      refine hrest.trans ?_
      rw [hst', List.flatten_cons, List.append_assoc]

/-! ## The description of the record -/

/-- A number that was written is read back. -/
lemma integer_encodes {x : Int} {w : List UInt8} (h : writeInteger x = some w) :
    Encodes readInteger w x := by
  have hrep : 0 ≤ x ∧ x < 2 ^ 64 := by
    by_contra hcon
    rw [writeInteger_eq_none.mpr hcon] at h
    cases h
  obtain ⟨w', hw', hread⟩ := integer_transmits hrep.1 hrep.2
  rw [h] at hw'
  cases hw'
  exact hread

/-- A pair that was written is read back. -/
lemma pair_encodes {a b : Int} {u v : List UInt8} (hu : writeInteger a = some u)
    (hv : writeInteger b = some v) : Encodes readPair (u ++ v) (a, b) := fun rest => by
  unfold readPair
  rw [List.append_assoc, integer_encodes hu]
  dsimp only [Bind.bind, Option.bind]
  rw [integer_encodes hv]
  rfl

/-- The description of the record is read back. -/
lemma controlInfo_encodes {arcsize offset : Int} {info : List UInt8}
    (h : writeControlInfo N arcsize offset ss = some info) (crcsBlock : ArchiveBlock) :
    Encodes (readControlInfo crcsBlock) info
      (some { initPos := crcsBlock.blPos - offset, arcsize := arcsize.toNat, sectorSize := ss,
              recSectors := N }) := by
  have hknown : aRecVersion N ∈ aRecVersions := by
    unfold aRecVersion
    by_cases hN : N = 0
    · rw [if_pos hN]
      decide
    · rw [if_neg hN]
      decide
  have hnul : (0 : Chr) ∉ aRecVersion N := by
    unfold aRecVersion
    by_cases hN : N = 0
    · rw [if_pos hN]
      decide
    · rw [if_neg hN]
      decide
  obtain ⟨version, hversion, hreadVersion⟩ := string_transmits hnul
  obtain ⟨w₁, v₁, hw₁, h₁, rfl⟩ := joinAll_cons_eq_some h
  obtain ⟨w₂, v₂, hw₂, h₂, rfl⟩ := joinAll_cons_eq_some h₁
  obtain ⟨w₃, v₃, hw₃, h₃, rfl⟩ := joinAll_cons_eq_some h₂
  obtain ⟨w₄, v₄, hw₄, h₄, rfl⟩ := joinAll_cons_eq_some h₃
  cases h₄
  rw [hversion] at hw₁
  cases hw₁
  have hpair : Transmits (fun p : Int × Int => joinAll [writeInteger p.1, writeInteger p.2]) readPair
      ((ss : Int), (N : Int)) := by
    obtain ⟨-, v, -, hall, -⟩ := joinAll_cons_eq_some hw₄
    obtain ⟨w, -, hw, -, -⟩ := joinAll_cons_eq_some hall
    obtain ⟨w', hw', -⟩ := Option.bind_eq_some_iff.mp hw
    obtain ⟨u₁, t₁, hu₁, ht₁, -⟩ := joinAll_cons_eq_some hw'
    obtain ⟨u₂, t₂, hu₂, ht₂, -⟩ := joinAll_cons_eq_some ht₁
    refine ⟨u₁ ++ u₂, ?_, pair_encodes hu₁ hu₂⟩
    dsimp only
    rw [hu₁, hu₂]
    exact (joinAll_eq_some [u₁, u₂]).trans (by simp)
  have hone : [((ss : Int), (N : Int))].length < 2 ^ 64 := by
    rw [List.length_singleton]
    norm_num
  obtain ⟨w, hw, hreadPairs⟩ := counted_transmits hone (List.forall_mem_singleton.mpr hpair)
  rw [hw] at hw₄
  cases hw₄
  intro rest
  have hsplit : version ++ (w₂ ++ (w₃ ++ (w₄ ++ []))) ++ rest =
      version ++ (w₂ ++ w₃ ++ (w₄ ++ rest)) := by
    simp only [List.append_assoc, List.nil_append]
  rw [hsplit]
  unfold readControlInfo
  rw [hreadVersion]
  dsimp only [Bind.bind, Option.bind]
  rw [if_neg (not_not_intro hknown), pair_encodes hw₂ hw₃]
  dsimp only
  rw [hreadPairs]
  rfl

/-! ## The list of damaged sectors -/

/-- The sectors in the list are those whose CRCs differ. -/
lemma mem_differing {n i : ℕ} {Ss Ts : List (List UInt8)} :
    i ∈ differing n Ss Ts ↔ ∃ k S T, i = n + k ∧ Ss[k]? = some S ∧ Ts[k]? = some T ∧
      calcCRC T ≠ calcCRC S := by
  induction Ss generalizing n Ts with
  | nil => simp [differing]
  | cons S Ss ih =>
    cases Ts with
    | nil => simp [differing]
    | cons T Ts =>
      have hrest : (∃ k S' T', i = n + 1 + k ∧ Ss[k]? = some S' ∧ Ts[k]? = some T' ∧
          calcCRC T' ≠ calcCRC S') → ∃ k S' T', i = n + k ∧ (S :: Ss)[k]? = some S' ∧
          (T :: Ts)[k]? = some T' ∧ calcCRC T' ≠ calcCRC S' := by
        rintro ⟨k, S', T', rfl, hS, hT, hne⟩
        exact ⟨k + 1, S', T', by omega, hS, hT, hne⟩
      rw [differing]
      constructor
      · intro hi
        by_cases hdiff : calcCRC T ≠ calcCRC S
        · rw [if_pos hdiff, List.mem_cons] at hi
          rcases hi with rfl | hi
          · exact ⟨0, S, T, rfl, rfl, rfl, hdiff⟩
          · exact hrest (ih.mp hi)
        · rw [if_neg hdiff] at hi
          exact hrest (ih.mp hi)
      · rintro ⟨k, S', T', rfl, hS, hT, hne⟩
        cases k with
        | zero =>
          cases hS
          cases hT
          rw [if_pos hne]
          exact List.mem_cons_self
        | succ k =>
          have hmem : n + (k + 1) ∈ differing (n + 1) Ss Ts := ih.mpr ⟨k, S', T', by omega, hS, hT, hne⟩
          by_cases hdiff : calcCRC T ≠ calcCRC S
          · rw [if_pos hdiff]
            exact List.mem_cons_of_mem _ hmem
          · rw [if_neg hdiff]
            exact hmem

/-- No sector is in the list twice. -/
lemma nodup_differing (n : ℕ) (Ss Ts : List (List UInt8)) : (differing n Ss Ts).Nodup := by
  induction Ss generalizing n Ts with
  | nil => simp [differing]
  | cons S Ss ih =>
    cases Ts with
    | nil => simp [differing]
    | cons T Ts =>
      rw [differing]
      by_cases hdiff : calcCRC T ≠ calcCRC S
      · rw [if_pos hdiff, List.nodup_cons]
        refine ⟨fun hmem => ?_, ih (n + 1) Ts⟩
        obtain ⟨k, -, -, hk, -⟩ := mem_differing.mp hmem
        omega
      · rw [if_neg hdiff]
        exact ih (n + 1) Ts

/-- Elements with different keys are not grouped. -/
lemma sortAndGroupOn_eq {f : ℕ → ℕ} {xs : List ℕ} (hnodup : xs.Nodup)
    (hf : ∀ x ∈ xs, ∀ y ∈ xs, f x = f y → x = y) :
    sortAndGroupOn f xs = (xs.mergeSort fun a b => f a ≤ f b).map fun x => [x] := by
  have hperm := List.mergeSort_perm xs fun a b => decide (f a ≤ f b)
  have hpairwise : (xs.mergeSort fun a b => f a ≤ f b).Pairwise fun a b => f a ≠ f b := by
    refine (hperm.nodup_iff.mpr hnodup).imp_of_mem fun ha hb hne heq => hne ?_
    exact hf _ (hperm.mem_iff.mp ha) _ (hperm.mem_iff.mp hb) heq
  refine List.splitBy_eq_iff.mpr ⟨?_, ?_, ?_, ?_⟩
  · rw [← List.flatMap_def, List.flatMap_singleton']
  · simp
  · intro g hg
    obtain ⟨x, -, rfl⟩ := List.mem_map.mp hg
    exact List.isChain_singleton x
  · rw [List.isChain_map]
    refine hpairwise.isChain.imp fun a b hne => ⟨by simp, by simp, ?_⟩
    exact decide_eq_false hne

/-- When no two damaged sectors share a recovery sector, all of them can be recovered. -/
lemma recoverable_eq {xs : List ℕ} (hN : 0 < N) (hnodup : xs.Nodup)
    (hclass : ∀ x ∈ xs, ∀ y ∈ xs, x % N = y % N → x = y) :
    ∃ toRecover, recoverable N xs = (toRecover, []) ∧ ∀ i, i ∈ toRecover ↔ i ∈ xs := by
  refine ⟨xs.mergeSort fun a b => a % N ≤ b % N, ?_, fun i => (List.mergeSort_perm _ _).mem_iff⟩
  unfold recoverable
  rw [if_neg hN.ne']
  dsimp only
  rw [sortAndGroupOn_eq hnodup hclass, List.partition_eq_filter_filter]
  dsimp only
  have hall : ∀ g ∈ (xs.mergeSort fun a b => a % N ≤ b % N).map fun x => [x], g.tail.isEmpty = true := by
    intro g hg
    obtain ⟨x, -, rfl⟩ := List.mem_map.mp hg
    rfl
  have hnone : ∀ g ∈ (xs.mergeSort fun a b => a % N ≤ b % N).map fun x => [x],
      ¬ (not ∘ fun g : List ℕ => g.tail.isEmpty) g = true := by
    intro g hg
    rw [Function.comp_apply, hall g hg]
    decide
  rw [List.filter_eq_self.mpr hall, List.filter_eq_nil_iff.mpr hnone, ← List.flatMap_def,
    List.flatMap_singleton']
  rfl

/-! ## Sectors -/

/-- There are as many sectors as chunks. -/
lemma length_sectors (data : List UInt8) : (sectors ss data).length = divRoundUp data.length ss := by
  rw [sectors, List.length_map, List.length_range]

/-- A sector, by its number. -/
lemma getElem?_sectors {data X : List UInt8} {n : ℕ} (h : (sectors ss data)[n]? = some X) :
    X = sector ss data n := by
  rw [sectors, List.getElem?_map] at h
  obtain ⟨k, hk, rfl⟩ := Option.map_eq_some_iff.mp h
  rw [List.getElem?_range (by
    have := (List.getElem?_eq_some_iff.mp hk).1
    rwa [List.length_range] at this)] at hk
  cases hk
  rfl

/-- Sectors are no longer than the sector size. -/
lemma length_le_of_mem_sectors {data X : List UInt8} (h : X ∈ sectors ss data) : X.length ≤ ss := by
  obtain ⟨n, -, rfl⟩ := List.mem_map.mp h
  exact List.length_take_le _ _

/-- The length of a sector. -/
lemma length_sector (data : List UInt8) (n : ℕ) :
    (sector ss data n).length = min ss (data.length - n * ss) := by
  rw [sector, List.length_take, List.length_drop]

/-- The data are made of their sectors. -/
lemma flatten_sectors (hss : 0 < ss) (data : List UInt8) : (sectors ss data).flatten = data := by
  induction h : data.length using Nat.strong_induction_on generalizing data with
  | _ n ih =>
    subst h
    rcases Nat.eq_zero_or_pos data.length with hzero | hpos
    · rw [List.eq_nil_of_length_eq_zero hzero, sectors_nil hss]
      rfl
    · rw [sectors_of_pos hss hpos, List.flatten_cons, ih _ (by rw [List.length_drop]; omega) _ rfl,
        List.take_append_drop]

/-- The first recovery sector is one of them. -/
lemma firstIdx_lt (hN : 0 < N) (m : ℕ) : firstIdx m N < N := by
  have hpos : (0 : Int) < N := by exact_mod_cast hN
  have hlt := Int.emod_lt_of_pos (-(m : Int)) hpos
  have hnonneg := Int.emod_nonneg (-(m : Int)) hpos.ne'
  unfold firstIdx
  omega

/-! ## Damaged copies -/

/-- The sector differs from the original one. -/
def Damaged (ss : ℕ) (range damaged : List UInt8) (n : ℕ) : Prop :=
  sector ss range n ≠ sector ss damaged n

/-- A recovery record is found in the archive as it was written for a range at `initPos`. -/
structure Intact (record : List UInt8 × List UInt8) (offset : Int) (initPos : ℕ) (file : List UInt8)
    (sectorsBlock crcsBlock : ArchiveBlock) : Prop where
  stored : sectorsBlock.blCompressor = aNoCompression
  recovery : readAt file sectorsBlock.blPos sectorsBlock.blOrigSize = record.1
  crcs : archiveBlockReadAll file crcsBlock = some record.2
  pos : crcsBlock.blPos = initPos + offset

/-- The archive `file` is a copy of one with a recovery record for `range`: the record is intact, the range
is as long as it was, and every damaged sector has another CRC. -/
structure DamagedCopy (range : List UInt8) (offset : Int) (ss N initPos : ℕ) (file : List UInt8)
    (ftBlocks : List ArchiveBlock) : Prop where
  record : ∃ record sectorsBlock crcsBlock others,
    writeRecoveryBlocks range offset ss N = some record ∧
      ftBlocks.filter (fun b => b.blType = .recoveryBlock) = sectorsBlock :: crcsBlock :: others ∧
      Intact record offset initPos file sectorsBlock crcsBlock
  length : (readAt file initPos range.length).length = range.length
  crc : ∀ n, Damaged ss range (readAt file initPos range.length) n →
    calcCRC (sector ss (readAt file initPos range.length) n) ≠ calcCRC (sector ss range n)

/-- The output has the original range, and otherwise what the archive has.  When there is no damage, there
is nothing to write. -/
def Repaired (range : List UInt8) (initPos : ℕ) (file : List UInt8) (ftBlocks : List ArchiveBlock)
    (sfx : List UInt8) (original : Original) : Prop :=
  if readAt file initPos range.length = range then
    runArchiveRecovery file ftBlocks sfx original = some .archiveOk
  else runArchiveRecovery file ftBlocks sfx original =
    some (.recovered (sfx ++ range ++ file.drop (initPos + range.length)) [])

/-- What was written. -/
lemma writeRecoveryBlocks_eq (hss : 0 < ss) (hN : 0 < N) {range : List UInt8} {offset : Int}
    {record : List UInt8 × List UInt8} (h : writeRecoveryBlocks range offset ss N = some record) :
    ∃ info recoveryCRCs, writeControlInfo N range.length offset ss = some info ∧
      record.1 = dealt ss N (firstIdx (divRoundUp range.length ss) N) (List.replicate (N * ss) 0)
        (sectors ss range) ∧
      record.2 = info ++ (crcTable (sectors ss range) ++ recoveryCRCs) := by
  obtain ⟨idx, hidx⟩ := protect_loop ss hN (sectors ss range)
    { idx := firstIdx (divRoundUp range.length ss) N, crcStream := [],
      recovery := List.replicate (N * ss) 0 }
  have hloop := doChunks_read (protectSector ss N) hss range []
    { idx := firstIdx (divRoundUp range.length ss) N, crcStream := [],
      recovery := List.replicate (N * ss) 0 }
  rw [List.append_nil, hidx] at hloop
  unfold writeRecoveryBlocks at h
  dsimp only at h
  rw [hloop] at h
  obtain ⟨_, hst, h⟩ := Option.bind_eq_some_iff.mp h
  cases hst
  obtain ⟨recoveryCRCs, -, h⟩ := Option.bind_eq_some_iff.mp h
  obtain ⟨info, hinfo, h⟩ := Option.bind_eq_some_iff.mp h
  cases h
  exact ⟨info, recoveryCRCs, hinfo, rfl, rfl⟩

section

variable {range file : List UInt8} {offset : Int} {initPos : ℕ} {ftBlocks : List ArchiveBlock}

/-- The archive from the range on. -/
lemma drop_eq_readAt (range file : List UInt8) (initPos : ℕ) :
    file.drop initPos = readAt file initPos range.length ++ file.drop (initPos + range.length) := by
  rw [readAt, Int.toNat_natCast, Int.toNat_natCast, ← List.drop_drop, List.take_append_drop]

/-- **The scan finds the damaged sectors, and leaves the differences in the recovery sectors.** -/
theorem scanArchive_eq (hss : 0 < ss) (hN : 0 < N)
    (h : DamagedCopy range offset ss N initPos file ftBlocks) :
    ∃ crcsBlock crcbuf, scanArchive file ftBlocks true = some (some
        { crcsBlock, crcStream := crcbuf
          recovery := dealt ss N (firstIdx (divRoundUp range.length ss) N)
            (dealt ss N (firstIdx (divRoundUp range.length ss) N) (List.replicate (N * ss) 0)
              (sectors ss range)) (sectors ss (readAt file initPos range.length))
          sectorSize := ss
          badCrcs := differing 0 (sectors ss range) (sectors ss (readAt file initPos range.length)) }) ∧
      ∃ tail, readControlInfo crcsBlock crcbuf =
        some (some { initPos, arcsize := range.length, sectorSize := ss, recSectors := N },
          crcTable (sectors ss range) ++ tail) := by
  obtain ⟨record, sectorsBlock, crcsBlock, others, hrecord, hblocks, hintact⟩ := h.record
  obtain ⟨info, tail, hinfo, hrecovery, hcrcs⟩ := writeRecoveryBlocks_eq hss hN hrecord
  have hcontrol : readControlInfo crcsBlock record.2 =
      some (some { initPos, arcsize := range.length, sectorSize := ss, recSectors := N },
        crcTable (sectors ss range) ++ tail) := by
    have hpos : crcsBlock.blPos - offset = initPos := by
      rw [hintact.pos]
      omega
    rw [hcrcs, controlInfo_encodes hinfo crcsBlock, hpos, Int.toNat_natCast]
  have hsectors : (sectors ss range).length = (sectors ss (readAt file initPos range.length)).length := by
    rw [length_sectors, length_sectors, h.length]
  obtain ⟨idx, n, hscan⟩ := scan_loop ss hN hsectors
    { idx := firstIdx (divRoundUp range.length ss) N, n := 0,
      crcStream := crcTable (sectors ss range) ++ tail, recovery := record.1, badCrcs := [] } rfl
  have hloop := doChunks_read (scanSector true ss N) hss (readAt file initPos range.length)
    (file.drop (initPos + range.length))
    { idx := firstIdx (divRoundUp range.length ss) N, n := 0,
      crcStream := crcTable (sectors ss range) ++ tail, recovery := record.1, badCrcs := [] }
  rw [hscan, h.length, ← drop_eq_readAt range file initPos] at hloop
  have hunchecked : archiveBlockReadUnchecked file sectorsBlock = some record.1 := by
    rw [archiveBlockReadUnchecked, if_pos hintact.stored, hintact.recovery]
  refine ⟨crcsBlock, record.2, ?_, tail, hcontrol⟩
  unfold scanArchive
  rw [hblocks]
  dsimp only [Bind.bind, Option.bind, Pure.pure]
  rw [if_pos rfl, hunchecked, hintact.crcs]
  dsimp only
  rw [hcontrol]
  dsimp only
  rw [Int.toNat_natCast, hloop]
  dsimp only [Option.map]
  rw [hrecovery]
  rfl

/-- Where no sector is damaged, the range is what it was. -/
lemma eq_of_not_damaged (hss : 0 < ss) {damaged : List UInt8} (hlen : damaged.length = range.length)
    (h : ∀ n, ¬ Damaged ss range damaged n) : damaged = range := by
  have hsectors : sectors ss damaged = sectors ss range := by
    rw [sectors, sectors, hlen]
    exact List.map_congr_left fun n _ => (not_not.mp (h n)).symm
  rw [← flatten_sectors hss damaged, hsectors, flatten_sectors hss range]

/-- The list has the damaged sectors. -/
lemma mem_differing_iff {damaged : List UInt8} (hlen : damaged.length = range.length)
    (hcrc : ∀ n, Damaged ss range damaged n → calcCRC (sector ss damaged n) ≠ calcCRC (sector ss range n))
    {i : ℕ} : i ∈ differing 0 (sectors ss range) (sectors ss damaged) ↔
      i < divRoundUp range.length ss ∧ Damaged ss range damaged i := by
  rw [mem_differing]
  constructor
  · rintro ⟨k, S, T, rfl, hS, hT, hne⟩
    have hlt := (List.getElem?_eq_some_iff.mp hS).1
    rw [length_sectors] at hlt
    rw [getElem?_sectors hS, getElem?_sectors hT] at hne
    rw [Nat.zero_add]
    exact ⟨hlt, fun heq => hne (congrArg calcCRC heq.symm)⟩
  · rintro ⟨hlt, hdamaged⟩
    have hget : ∀ data : List UInt8, data.length = range.length →
        (sectors ss data)[i]? = some (sector ss data i) := fun data hdata => by
      rw [sectors, List.getElem?_map, hdata, List.getElem?_range hlt, Option.map_some]
    exact ⟨i, _, _, (Nat.zero_add i).symm, hget range rfl, hget damaged hlen, hcrc i hdamaged⟩

/-- A damaged sector is a sector of the range. -/
lemma Damaged.lt (hss : 0 < ss) {damaged : List UInt8} (hlen : damaged.length = range.length) {n : ℕ}
    (h : Damaged ss range damaged n) : n < divRoundUp range.length ss := by
  by_contra hcon
  have hdiv : ((range.length : Int) - 1) / ss < n := by
    unfold divRoundUp at hcon
    omega
  have hbeyond : (range.length : Int) - 1 < n * ss :=
    (Int.ediv_lt_iff_lt_mul (by exact_mod_cast hss)).mp hdiv
  have hle : range.length ≤ n * ss := by
    have hcast : (range.length : Int) ≤ ((n * ss : ℕ) : Int) := by
      push_cast
      omega
    exact_mod_cast hcast
  have hempty : ∀ data : List UInt8, data.length = range.length → sector ss data n = [] :=
    fun data hdata => by
      rw [sector, List.drop_eq_nil_of_le (by omega), List.take_nil]
  exact h ((hempty range rfl).trans (hempty damaged hlen).symm)

/-- The sectors of the range, and those of the copy, where neither is damaged. -/
lemma getElem?_sectors_eq {damaged : List UInt8} (hlen : damaged.length = range.length) {i : ℕ}
    (h : ¬ Damaged ss range damaged i) : (sectors ss range)[i]? = (sectors ss damaged)[i]? := by
  rw [sectors, sectors, hlen, List.getElem?_map, List.getElem?_map]
  by_cases hi : i < divRoundUp range.length ss
  · rw [List.getElem?_range hi, Option.map_some, Option.map_some, not_not.mp h]
  · rw [List.getElem?_eq_none (by rw [List.length_range]; omega)]
    rfl

/-- What is left in the recovery sectors restores the damaged sectors, when there is at most one for each. -/
lemma restores {damaged : List UInt8} {idx : ℕ} (hidx : idx < N)
    (hlen : damaged.length = range.length)
    (hclass : ∀ n m, Damaged ss range damaged n → Damaged ss range damaged m → n % N = m % N → n = m)
    {i : ℕ} {S T : List UInt8} (hS : (sectors ss range)[i]? = some S)
    (hT : (sectors ss damaged)[i]? = some T) (hdamaged : Damaged ss range damaged i) :
    memxor T ((dealt ss N idx (dealt ss N idx (List.replicate (N * ss) 0) (sectors ss range))
      (sectors ss damaged)).drop ((idx + i) % N * ss)) T.length = S := by
  refine memxor_dealt hidx ?_ (fun _ => length_le_of_mem_sectors) (fun _ => length_le_of_mem_sectors)
    hS hT ?_ fun k _ hne heq => ?_
  · rw [length_sectors, length_sectors, hlen]
  · rw [getElem?_sectors hS, getElem?_sectors hT, length_sector, length_sector, hlen]
  · refine getElem?_sectors_eq hlen fun hk => hne ?_
    have hmod : k ≡ i [MOD N] := Nat.ModEq.add_left_cancel' idx heq
    exact hclass k i hk hdamaged hmod

/-- **An archive with at most one damaged sector for each recovery sector is repaired.** -/
theorem repaired_of_classes (hss : 0 < ss) (hN : 0 < N)
    (h : DamagedCopy range offset ss N initPos file ftBlocks)
    (hclass : ∀ n m, Damaged ss range (readAt file initPos range.length) n →
      Damaged ss range (readAt file initPos range.length) m → n % N = m % N → n = m)
    (sfx : List UInt8) (original : Original) : Repaired range initPos file ftBlocks sfx original := by
  obtain ⟨crcsBlock, crcbuf, hscan, tail, hcontrol⟩ := scanArchive_eq hss hN h
  have hbad := fun i => mem_differing_iff (i := i) h.length h.crc
  have hlen := h.length
  generalize hdamaged : readAt file initPos range.length = damaged at *
  unfold Repaired
  rw [hdamaged]
  unfold runArchiveRecovery
  rw [hscan]
  dsimp only [Bind.bind, Option.bind, Pure.pure]
  by_cases heq : damaged = range
  · have hnone : differing 0 (sectors ss range) (sectors ss damaged) = [] := by
      refine List.eq_nil_iff_forall_not_mem.mpr fun i hi => ?_
      exact ((hbad i).mp hi).2 (by rw [heq])
    rw [if_pos heq, if_pos hnone]
  · obtain ⟨d, hd⟩ : ∃ n, Damaged ss range damaged n := by
      by_contra hcon
      exact heq (eq_of_not_damaged hss hlen (not_exists.mp hcon))
    have hmem : d ∈ differing 0 (sectors ss range) (sectors ss damaged) :=
      (hbad d).mpr ⟨hd.lt hss hlen, hd⟩
    obtain ⟨toRecover, hrecoverable, hto⟩ := recoverable_eq hN
      (nodup_differing 0 (sectors ss range) (sectors ss damaged)) fun x hx y hy hxy =>
        hclass x y ((hbad x).mp hx).2 ((hbad y).mp hy).2 hxy
    have hidx := firstIdx_lt hN (divRoundUp range.length ss)
    have hsectors : (sectors ss range).length = (sectors ss damaged).length := by
      rw [length_sectors, length_sectors, hlen]
    obtain ⟨idx, n, hcopy⟩ := copy_loop (dealt ss N (firstIdx (divRoundUp range.length ss) N)
        (dealt ss N (firstIdx (divRoundUp range.length ss) N) (List.replicate (N * ss) 0)
          (sectors ss range)) (sectors ss damaged))
      { initPos, arcsize := range.length, sectorSize := ss, recSectors := N } original file.length
      toRecover hN hsectors
      { idx := firstIdx (divRoundUp range.length ss) N, n := 0,
        crcStream := crcTable (sectors ss range) ++ tail, output := sfx, errors := [] }
      rfl rfl hidx fun i S T hS hT => by
        dsimp only
        rw [Nat.zero_add]
        by_cases hi : Damaged ss range damaged i
        · rw [if_pos ((hto i).mpr ((hbad i).mpr ⟨hi.lt hss hlen, hi⟩))]
          exact restores hidx hlen hclass hS hT hi
        · rw [if_neg fun hcon => hi ((hbad i).mp ((hto i).mp hcon)).2]
          rw [getElem?_sectors hS, getElem?_sectors hT, not_not.mp hi]
    have hloop := doChunks_read (copySector (dealt ss N (firstIdx (divRoundUp range.length ss) N)
        (dealt ss N (firstIdx (divRoundUp range.length ss) N) (List.replicate (N * ss) 0)
          (sectors ss range)) (sectors ss damaged))
      { initPos, arcsize := range.length, sectorSize := ss, recSectors := N } original file.length
      toRecover) hss damaged (file.drop (initPos + range.length))
      { idx := firstIdx (divRoundUp range.length ss) N, n := 0,
        crcStream := crcTable (sectors ss range) ++ tail, output := sfx, errors := [] }
    have hrest := drop_eq_readAt range file initPos
    rw [hdamaged] at hrest
    rw [hcopy, hlen, ← hrest, flatten_sectors hss] at hloop
    rw [if_neg heq, if_neg (List.ne_nil_of_mem hmem), hcontrol]
    dsimp only
    rw [hrecoverable]
    have hne : toRecover ≠ [] := List.ne_nil_of_mem ((hto d).mpr hmem)
    cases toRecover with
    | nil => exact absurd rfl hne
    | cons x xs =>
      rw [Int.toNat_natCast, hloop]
      rfl

/-- Numbers of one class that are close to each other are the same. -/
lemma eq_of_mod_eq {n m : ℕ} (hle : n ≤ m) (hlt : m < n + N) (h : n % N = m % N) : n = m := by
  have hdvd : N ∣ m - n := Nat.dvd_of_mod_eq_zero (Nat.sub_mod_eq_zero_of_mod_eq h.symm)
  have hzero : m - n = 0 := Nat.eq_zero_of_dvd_of_lt hdvd (by omega)
  omega

/-- **Damaged archives are repaired when there is at most one damaged sector for each recovery sector; in
particular, any burst of as many sectors as there are recovery sectors.** -/
theorem runArchiveRecovery_repairs (hss : 0 < ss) (hN : 0 < N)
    (h : DamagedCopy range offset ss N initPos file ftBlocks) (sfx : List UInt8) (original : Original) :
    ((∀ n m, Damaged ss range (readAt file initPos range.length) n →
        Damaged ss range (readAt file initPos range.length) m → n % N = m % N → n = m) →
      Repaired range initPos file ftBlocks sfx original) ∧
    ∀ start, (∀ n, Damaged ss range (readAt file initPos range.length) n → start ≤ n ∧ n < start + N) →
      Repaired range initPos file ftBlocks sfx original := by
  refine ⟨fun hclass => repaired_of_classes hss hN h hclass sfx original, fun start hburst => ?_⟩
  refine repaired_of_classes hss hN h (fun n m hn hm hmod => ?_) sfx original
  obtain ⟨hn₁, hn₂⟩ := hburst n hn
  obtain ⟨hm₁, hm₂⟩ := hburst m hm
  rcases Nat.le_total n m with hle | hle
  · exact eq_of_mod_eq hle (by omega) hmod
  · exact (eq_of_mod_eq hle (by omega) hmod.symm).symm

end

end

/-- A recovery block of the archive below. -/
def recoveryBlock (pos size : Int) (crc : CRC) : ArchiveBlock :=
  { blType := .recoveryBlock, blCompressor := aNoCompression, blPos := pos, blOrigSize := size,
    blCompSize := size, blCRC := crc, blFiles := 0, blIsEncrypted := false }

/-- The record of three bytes in sectors of two, with one recovery sector. -/
def smallRecord : List UInt8 × List UInt8 :=
  ([14, 8], [48, 46, 51, 54, 0, 6, 10, 2, 4, 2, 10, 12, 67, 0, 41, 87, 222, 171, 67, 183, 129, 209])

/-- A copy in which the last, partial sector is damaged. -/
def damagedFile : List UInt8 := [7, 8, 1] ++ smallRecord.1 ++ smallRecord.2

/-- The last sector is repaired. -/
theorem runArchiveRecovery_repairs_lastSector :
    runArchiveRecovery damagedFile
        [recoveryBlock 3 2 (calcCRC smallRecord.1), recoveryBlock 5 22 (calcCRC smallRecord.2)] []
        .notGiven =
      some (.recovered ([7, 8, 9] ++ smallRecord.1 ++ smallRecord.2) []) := by
  have hlt : ∀ {n}, Damaged 2 [7, 8, 9] (readAt damagedFile ((0 : ℕ) : Int) 3) n → n = 1 := fun {n} h => by
    have hn : n < 2 := h.lt (by decide) (by decide)
    have hcases : n = 0 ∨ n = 1 := by omega
    rcases hcases with rfl | rfl
    · exact absurd (by decide) h
    · rfl
  have hcopy : DamagedCopy [7, 8, 9] 5 2 1 0 damagedFile
      [recoveryBlock 3 2 (calcCRC smallRecord.1), recoveryBlock 5 22 (calcCRC smallRecord.2)] :=
    { record := ⟨smallRecord, _, _, [], by decide +kernel, rfl,
        { stored := rfl, recovery := by decide, crcs := by decide +kernel, pos := rfl }⟩
      length := by decide
      crc := fun n h => by
        obtain rfl := hlt h
        decide +kernel }
  have hrepaired := (runArchiveRecovery_repairs (by decide) (by decide) hcopy [] .notGiven).2 1
    fun n h => ⟨(hlt h).ge, by rw [hlt h]; decide⟩
  unfold Repaired at hrepaired
  rwa [if_neg (by decide)] at hrepaired

end DArc.Recovery
