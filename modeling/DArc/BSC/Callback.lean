import DArc.Compression.Common
import Mathlib.Tactic

/-!
# The callback of a compression method, with a record of its calls

A method reads and writes through a callback, which may answer in any way: with fewer bytes than asked for,
with no bytes at the end of the data, or with a negative code.  A run of a method is kept with the record of
the calls it has made.

### Outline

* `Callback`, `Event`, `Run`: the callback, a call of it, and a run;
* `fullRead`, `fullWrite`: the helpers of the wrapper;
* `Quiet`, `Reports`: what is asked of a run in which a call fails;
* `Serves`: a callback that does not fail.

### Main results

* `fullRead_log`: a full read makes reads only, and stops at the first one that fails;
* `Serves.fullRead`: a full read of a callback that does not fail gets what there is.
-/

namespace DArc.BSC

/-- The callback of a method, with what it keeps between two calls. -/
structure Callback where
  State : Type
  /-- `callback("read", buf, size)`: a negative code, or the bytes that were read. -/
  read : State → ℕ → Except Int (List UInt8) × State
  /-- `callback("write", buf, size)`: the result. -/
  write : State → List UInt8 → Int × State
  read_neg : ∀ s size e s', read s size = (.error e, s') → e < 0
  read_le : ∀ s size bytes s', read s size = (.ok bytes, s') → bytes.length ≤ size

/-- A call of the callback and its result. -/
inductive Event
  | read (result : Int)
  | write (bytes : List UInt8) (result : Int)

namespace Event

/-- The callback returned a negative code. -/
def Failed : Event → Prop
  | read result => result < 0
  | write _ result => result < 0

/-- The call was a write. -/
def IsWrite : Event → Prop
  | read _ => False
  | write _ _ => True

/-- The bytes that were given to the callback. -/
def bytes : Event → List UInt8
  | read _ => []
  | write bytes _ => bytes

end Event

/-- A run of a method. -/
structure Run (cb : Callback) where
  s : cb.State
  /-- The calls so far. -/
  log : List Event
  /-- What the method has returned. -/
  code : Option Int

variable {cb : Callback}

namespace Run

/-- The method returns. -/
def finish (r : Run cb) (code : Int) : Run cb := { r with code := some code }

/-- All bytes that were written. -/
def written (r : Run cb) : List UInt8 := r.log.flatMap Event.bytes

end Run

/-- `full_read`: read until the buffer is full, or there is nothing more, or a read fails. -/
def fullRead (remaining : ℕ) (r : Run cb) : List UInt8 × Run cb :=
  if remaining = 0 then ([], r)
  else
    match cb.read r.s remaining with
    | (.error e, s) => ([], { r with s, log := r.log ++ [.read e] })
    | (.ok bytes, s) =>
      if bytes.length = 0 then ([], { r with s, log := r.log ++ [.read 0] })
      else
        let rest := fullRead (remaining - bytes.length) { r with s, log := r.log ++ [.read bytes.length] }
        (bytes ++ rest.1, rest.2)
termination_by remaining

/-- `full_write`. -/
def fullWrite (bytes : List UInt8) (r : Run cb) : Run cb :=
  let (n, s) := cb.write r.s bytes
  { r with s, log := r.log ++ [.write bytes n] }

/-- Steps of a method, until it returns. -/
def steps (step : Run cb → Run cb) : ℕ → Run cb → Run cb
  | 0, r => r
  | n + 1, r =>
    let r := steps step n r
    if r.code = none then step r else r

/-! ## Failing calls -/

/-- No write comes after a call that failed. -/
def Quiet (log : List Event) : Prop :=
  ∀ before e after, log = before ++ e :: after → e.Failed → ∀ w ∈ after, ¬w.IsWrite

/-- A call has failed. -/
def AnyFailed (log : List Event) : Prop := ∃ e ∈ log, e.Failed

/-- The method returns a negative code when a call has failed, and writes nothing after it. -/
def Reports (runs : ℕ → Run cb) : Prop :=
  ∀ n, Quiet (runs n).log ∧ ∀ code, (runs n).code = some code → AnyFailed (runs n).log → code < 0

/-- Reads after a quiet record. -/
lemma Quiet.append_reads {log reads : List Event} (h : Quiet log) (hreads : ∀ e ∈ reads, ¬e.IsWrite) :
    Quiet (log ++ reads) := by
  intro before e after hlog hfailed w hw
  rcases List.append_eq_append_iff.mp hlog with ⟨mid, hbefore, hrest⟩ | ⟨mid, hlog', hrest⟩
  · exact hreads w (hrest ▸ List.mem_append_right _ (List.mem_cons_of_mem _ hw))
  · cases mid with
    | nil =>
      refine hreads w ?_
      rw [List.nil_append] at hrest
      exact hrest ▸ List.mem_cons_of_mem _ hw
    | cons e' mid =>
      obtain ⟨rfl, rfl⟩ := List.cons.inj hrest
      rcases List.mem_append.mp hw with hw | hw
      · exact h before e mid hlog' hfailed w hw
      · exact hreads w hw

/-- A record in which no call before the last one has failed. -/
lemma quiet_concat {log : List Event} {e : Event} (h : ¬AnyFailed log) : Quiet (log ++ [e]) := by
  intro before e' after hlog hfailed w hw
  rcases List.append_eq_append_iff.mp hlog with ⟨mid, hbefore, hrest⟩ | ⟨mid, hlog', hrest⟩
  · cases mid with
    | nil =>
      obtain ⟨-, rfl⟩ := List.cons.inj hrest
      cases hw
    | cons x mid =>
      obtain ⟨-, hnil⟩ := List.cons.inj hrest
      cases List.append_eq_nil_iff.mp hnil.symm |>.2
  · cases mid with
    | nil =>
      obtain ⟨-, rfl⟩ := List.cons.inj hrest
      cases hw
    | cons x mid =>
      obtain ⟨rfl, -⟩ := List.cons.inj hrest
      exact absurd ⟨e', hlog' ▸ List.mem_append_right _ List.mem_cons_self, hfailed⟩ h

/-- A write after a call that failed. -/
lemma not_quiet_of_write {log pre : List Event} {bytes : List UInt8} {k : Int} (h : AnyFailed log) :
    ¬Quiet (log ++ pre ++ [.write bytes k]) := by
  obtain ⟨e, he, hfailed⟩ := h
  obtain ⟨before, after, rfl⟩ := List.append_of_mem he
  intro hquiet
  refine hquiet before e (after ++ pre ++ [.write bytes k]) ?_ hfailed (.write bytes k) ?_ trivial
  · simp only [List.append_assoc, List.cons_append]
  · exact List.mem_append_right _ (List.mem_singleton.mpr rfl)

/-- A full read makes reads only; when it gets what it asks for, no read has failed. -/
lemma fullRead_log (remaining : ℕ) (r : Run cb) :
    ∃ reads, (fullRead remaining r).2.log = r.log ++ reads ∧ (∀ e ∈ reads, ¬e.IsWrite) ∧
      (fullRead remaining r).2.code = r.code ∧
      ((fullRead remaining r).1.length = remaining → ¬AnyFailed reads) := by
  induction h : remaining using Nat.strong_induction_on generalizing r remaining with
  | _ n ih =>
    subst h
    rw [fullRead]
    by_cases hzero : remaining = 0
    · rw [if_pos hzero]
      refine ⟨[], (List.append_nil _).symm, fun _ he => (by cases he), rfl, ?_⟩
      rintro - ⟨_, he, -⟩
      cases he
    rw [if_neg hzero]
    obtain ⟨result, s, hread⟩ : ∃ result s, cb.read r.s remaining = (result, s) := ⟨_, _, rfl⟩
    rw [hread]
    cases result with
    | error e =>
      refine ⟨[.read e], rfl, ?_, rfl, fun hlength => absurd hlength (Ne.symm hzero)⟩
      intro e' he'
      rw [List.mem_singleton.mp he']
      exact not_false
    | ok bytes =>
      dsimp only
      by_cases hnone : bytes.length = 0
      · rw [if_pos hnone]
        refine ⟨[.read 0], rfl, ?_, rfl, fun hlength => absurd hlength (Ne.symm hzero)⟩
        intro e' he'
        rw [List.mem_singleton.mp he']
        exact not_false
      · rw [if_neg hnone]
        have hle := cb.read_le _ _ _ _ hread
        obtain ⟨reads, hlog, hreads, hcode, hfull⟩ := ih (remaining - bytes.length) (by omega) _
          { r with s, log := r.log ++ [.read bytes.length] } rfl
        refine ⟨.read bytes.length :: reads, ?_, ?_, hcode, ?_⟩
        · rw [hlog, List.append_assoc]
          rfl
        · intro e he
          rcases List.mem_cons.mp he with rfl | he
          · exact not_false
          · exact hreads e he
        · rintro hlength ⟨e, he, hfailed⟩
          rw [List.length_append] at hlength
          rcases List.mem_cons.mp he with rfl | he
          · exact absurd hfailed (not_lt.mpr (Int.natCast_nonneg _))
          · exact hfull (by omega) ⟨e, he, hfailed⟩

/-- A full read gets at most what it asks for. -/
lemma length_fullRead_le (remaining : ℕ) (r : Run cb) : (fullRead remaining r).1.length ≤ remaining := by
  induction h : remaining using Nat.strong_induction_on generalizing r remaining with
  | _ n ih =>
    subst h
    rw [fullRead]
    by_cases hzero : remaining = 0
    · rw [if_pos hzero]
      exact Nat.zero_le _
    rw [if_neg hzero]
    obtain ⟨result, s, hread⟩ : ∃ result s, cb.read r.s remaining = (result, s) := ⟨_, _, rfl⟩
    rw [hread]
    cases result with
    | error e => exact Nat.zero_le _
    | ok bytes =>
      dsimp only
      split_ifs
      · exact Nat.zero_le _
      · have hle := cb.read_le _ _ _ _ hread
        have hrest := ih (remaining - bytes.length) (by omega) _
          { r with s, log := r.log ++ [.read bytes.length] } rfl
        rw [List.length_append]
        omega

/-- A full read writes nothing. -/
lemma written_fullRead (remaining : ℕ) (r : Run cb) : (fullRead remaining r).2.written = r.written := by
  obtain ⟨reads, hlog, hreads, -, -⟩ := fullRead_log remaining r
  have hnone : reads.flatMap Event.bytes = [] := by
    refine List.flatMap_eq_nil_iff.mpr fun e he => ?_
    cases e with
    | read result => rfl
    | write bytes result => exact absurd trivial (hreads _ he)
  rw [Run.written, hlog, List.flatMap_append, hnone, List.append_nil]
  rfl

/-- A full write writes its bytes. -/
lemma written_fullWrite (bytes : List UInt8) (r : Run cb) :
    (fullWrite bytes r).written = r.written ++ bytes := by
  rw [Run.written, fullWrite, List.flatMap_append, List.flatMap_singleton]
  rfl

/-! ## A callback that does not fail -/

/-- The callback delivers its data in any portions and accepts every write. -/
structure Serves (cb : Callback) where
  /-- In the state `s` it will deliver `data`. -/
  Holds : cb.State → List UInt8 → Prop
  read : ∀ s data size, Holds s data → 0 < size → ∃ bytes rest s', cb.read s size = (.ok bytes, s') ∧
    data = bytes ++ rest ∧ (data ≠ [] → bytes ≠ []) ∧ Holds s' rest
  write : ∀ s data bytes, Holds s data → 0 ≤ (cb.write s bytes).1 ∧ Holds (cb.write s bytes).2 data

/-- A full read gets what there is. -/
lemma Serves.fullRead (hcb : Serves cb) {r : Run cb} {data : List UInt8} (h : hcb.Holds r.s data) (n : ℕ) :
    (fullRead n r).1 = data.take n ∧ hcb.Holds (fullRead n r).2.s (data.drop n) := by
  induction hn : n using Nat.strong_induction_on generalizing r n data with
  | _ m ih =>
    subst hn
    rw [BSC.fullRead]
    by_cases hzero : n = 0
    · rw [if_pos hzero, hzero]
      exact ⟨rfl, h⟩
    rw [if_neg hzero]
    obtain ⟨bytes, rest, s', hread, rfl, hne, hrest⟩ := hcb.read r.s data n h (Nat.pos_of_ne_zero hzero)
    rw [hread]
    have hle := cb.read_le _ _ _ _ hread
    dsimp only
    by_cases hnone : bytes.length = 0
    · rw [if_pos hnone]
      obtain rfl := List.eq_nil_of_length_eq_zero hnone
      have hrest' : rest = [] := by
        by_contra hrest'
        exact hne hrest' rfl
      subst hrest'
      rw [List.append_nil, List.take_nil, List.drop_nil]
      exact ⟨rfl, hrest⟩
    · rw [if_neg hnone]
      obtain ⟨hbytes, hholds⟩ := ih (n - bytes.length) (by omega)
        (r := { r with s := s', log := r.log ++ [.read bytes.length] }) hrest _ rfl
      refine ⟨?_, ?_⟩
      · rw [hbytes, List.take_append, List.take_of_length_le hle]
      · rw [List.drop_append, List.drop_of_length_le hle]
        exact hholds

/-- A full write keeps the data. -/
lemma Serves.fullWrite (hcb : Serves cb) {r : Run cb} {data : List UInt8} (h : hcb.Holds r.s data)
    (bytes : List UInt8) : hcb.Holds (fullWrite bytes r).s data := (hcb.write r.s data bytes h).2

/-- A callback for a list of bytes. -/
def listCallback : Callback where
  State := List UInt8
  read s size := (.ok (s.take size), s.drop size)
  write s bytes := (bytes.length, s)
  read_neg _ _ _ _ h := by cases h
  read_le s size bytes s' h := by
    obtain ⟨h, -⟩ := Prod.mk.inj h
    obtain rfl := Except.ok.inj h
    exact List.length_take_le _ _

/-- The callback for a list of bytes delivers the list. -/
def listServes : Serves listCallback where
  Holds s data := s = data
  read s data size h hsize := by
    subst h
    refine ⟨s.take size, s.drop size, s.drop size, rfl, (List.take_append_drop size s).symm, ?_, rfl⟩
    intro hne hnil
    exact (List.take_eq_nil_iff.mp hnil).elim hsize.ne' hne
  write s data bytes h := ⟨Int.natCast_nonneg _, h⟩

end DArc.BSC
