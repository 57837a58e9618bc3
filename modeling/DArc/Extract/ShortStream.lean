import DArc.Extract.Delivery

/-!
# Streams that are shorter than their files

When the stream of a block ends in front of the end of a file, `decompressBlock` returns without having
answered the request, and the loop of `decompressProcess` starts the block again for the same file.

### Outline

* `deliveredTo`: the bytes that were sent back for a request;
* `ReportsShortStream`: the process fails for a file that does not lie in its block, and delivers no byte
  of it twice;
* `Stuck`: the process is at such a file.

### Main results

* `reportsShortStream_iff`: the process does so if and only if the decompressor of the block fails at the
  end of the stream.
-/

namespace DArc.Extract

variable {β : Type}

/-! ## What was delivered -/

/-- What follows the `k`-th end mark. -/
def behindEnds : ℕ → List Event → List Event
  | 0, es => es
  | _ + 1, [] => []
  | k + 1, .endOfData :: es => behindEnds k es
  | k + 1, _ :: es => behindEnds (k + 1) es

/-- The bytes in the data. -/
def bytesOf : List Event → List UInt8
  | [] => []
  | .data bytes :: es => bytes ++ bytesOf es
  | _ :: es => bytesOf es

/-- The bytes that were delivered to the request behind `k` others. -/
def deliveredTo (k : ℕ) (out : List Event) : List UInt8 :=
  bytesOf ((behindEnds k out).takeWhile (· ≠ .endOfData))

/-- Data are not end marks. -/
lemma behindEnds_data (k : ℕ) (ds : List (List UInt8)) (es : List Event) :
    behindEnds (k + 1) (ds.map .data ++ es) = behindEnds (k + 1) es := by
  induction ds with
  | nil => rfl
  | cons d ds ih => exact ih

/-- What follows the answers to the requests in front. -/
lemma behindEnds_answers {stream : β → List UInt8} {rs : List (Request β)} {out : List Event}
    (h : Answered stream rs out) (es : List Event) (k : ℕ) :
    behindEnds (rs.length + k) (out ++ es) = behindEnds k es := by
  obtain ⟨-, answers, hanswers, rfl⟩ := h
  induction hanswers with
  | nil =>
    rw [List.length_nil, Nat.zero_add]
    rfl
  | @cons r answer rs answers hanswer _ ih =>
    obtain ⟨ds, rfl, -⟩ := hanswer
    have hlen : (r :: rs).length + k = rs.length + k + 1 := by
      rw [List.length_cons]
      omega
    rw [List.flatten_cons, List.append_assoc, List.append_assoc, hlen, behindEnds_data]
    exact ih

/-- Data and what is behind them, up to the next end mark. -/
lemma bytesOf_data (ds : List (List UInt8)) (es : List Event) :
    bytesOf ((ds.map Event.data ++ es).takeWhile (· ≠ .endOfData)) =
      ds.flatten ++ bytesOf (es.takeWhile (· ≠ .endOfData)) := by
  induction ds with
  | nil => rfl
  | cons d ds ih =>
    rw [List.map_cons, List.cons_append, List.takeWhile_cons_of_pos (by simp), bytesOf, ih,
      List.flatten_cons, List.append_assoc]

/-! ## The file that does not lie in its block -/

/-- The process with the requests `before`, then `r`, then `behind` fails, and what it delivers of `r` is
a beginning of what was asked for. -/
def ReportsShortStream [DecidableEq β] (d : Decoders β) (stream : β → List UInt8)
    (before : List (Request β)) (r : Request β) (behind : List (Request β)) : Prop :=
  (∃ n, (decompressProcess d (before ++ r :: behind) n).operationTerminated = true) ∧
    ∀ n, deliveredTo before.length (decompressProcess d (before ++ r :: behind) n).out <+:
      slice (stream r.block) r.pos r.size

section

variable {stream : β → List UInt8} {before behind : List (Request β)} {r : Request β}

/-- The requests that were answered are in front of the file that does not lie in its block. -/
lemma answered_length_le {done rest : List (Request β)} {r' : Request β} {out : List Event}
    (hr : ¬ InBlock stream r) (hsplit : before ++ r :: behind = done ++ r' :: rest)
    (hanswered : Answered stream done out) : done.length ≤ before.length := by
  by_contra hcon
  have hmem : r ∈ done := by
    have hget : (done ++ r' :: rest)[before.length]? = some r := by
      rw [← hsplit, List.getElem?_append_right (le_refl _), Nat.sub_self]
      rfl
    rw [List.getElem?_append_left (not_le.mp hcon)] at hget
    exact List.mem_of_getElem? hget
  exact hr (hanswered.1 r hmem)

/-- The first file that does not lie in its block is the one behind those that were answered. -/
lemma eq_of_short {done rest : List (Request β)} {r' : Request β} {out : List Event}
    (hbefore : ∀ x ∈ before, InBlock stream x) (hr : ¬ InBlock stream r)
    (hsplit : before ++ r :: behind = done ++ r' :: rest) (hanswered : Answered stream done out)
    (hr' : ¬ InBlock stream r') : done = before ∧ r' = r := by
  have hle := answered_length_le hr hsplit hanswered
  have hge : before.length ≤ done.length := by
    by_contra hcon
    have hget : (before ++ r :: behind)[done.length]? = some r' := by
      rw [hsplit, List.getElem?_append_right (le_refl _), Nat.sub_self]
      rfl
    rw [List.getElem?_append_left (not_le.mp hcon)] at hget
    exact hr' (hbefore r' (List.mem_of_getElem? hget))
  obtain ⟨hdone, hcons⟩ := List.append_inj hsplit.symm (le_antisymm hle hge)
  exact ⟨hdone, (List.cons.inj hcons).1⟩

/-- The requests have not all been answered. -/
lemma not_finished {p : Process β} (hr : ¬ InBlock stream r) :
    ¬ Finished stream (before ++ r :: behind) p := fun h =>
  hr (h.answered.1 r (by simp))

variable [DecidableEq β] {d : Decoders β}

/-! ## A decompressor that fails -/

/-- The process has not failed yet, and nothing was delivered of the file that is asked for. -/
def Waiting (stream : β → List UInt8) (all : List (Request β)) (p : Process β) : Prop :=
  p.done = false ∧ ∃ r, Serving stream all r [] p

/-- The process has failed for the file `r`, of which a beginning was delivered. -/
def Failed (stream : β → List UInt8) (before : List (Request β)) (r : Request β) (p : Process β) : Prop :=
  p.operationTerminated = true ∧ deliveredTo before.length p.out <+: slice (stream r.block) r.pos r.size

/-- A round leads on to another file, or the process fails. -/
lemma turn_of_error (hd : d.Decodes stream) (hall : Askable (before ++ r :: behind))
    (hbefore : ∀ x ∈ before, InBlock stream x) (hr : ¬ InBlock stream r)
    (hcode : isOk (d.code r.block) = false) {p : Process β}
    (hp : Waiting stream (before ++ r :: behind) p) :
    Waiting stream (before ++ r :: behind) (turn d p) ∧
        (turn d p).requests.length < p.requests.length ∨
      Failed stream before r (turn d p) := by
  obtain ⟨hdone, r₁, hserving⟩ := hp
  have hturned := turn_turned hd hall hserving hdone
  generalize turn d p = q at hturned
  cases hturned with
  | finished _ hfinished _ => exact absurd hfinished (not_finished hr)
  | restarts r' _ hserving' hdone' hlt => exact Or.inl ⟨⟨hdone', r', hserving'⟩, hlt⟩
  | ranOut r' ds _ hserving' hshort _ hok =>
    obtain ⟨-, done, out, hsplit, hanswered, -⟩ := hserving'
    obtain ⟨-, rfl⟩ := eq_of_short hbefore hr hsplit hanswered hshort
    rw [hcode] at hok
    cases hok
  | failed r' ds p' hserving' hshort hdelivered _ =>
    obtain ⟨-, done, out, hsplit, hanswered, hout⟩ := hserving'
    obtain ⟨rfl, rfl⟩ := eq_of_short hbefore hr hsplit hanswered hshort
    refine Or.inr ⟨rfl, ?_⟩
    have hbehind := behindEnds_answers hanswered (ds.map .data ++ [.terminated]) 0
    rw [Nat.add_zero] at hbehind
    dsimp only
    unfold deliveredTo
    rw [hout, List.append_assoc, hbehind, behindEnds, bytesOf_data]
    simpa [bytesOf] using hdelivered

omit [DecidableEq β] in
/-- While the process waits, nothing was delivered of the file that does not lie in its block. -/
lemma deliveredTo_of_waiting (hr : ¬ InBlock stream r) {p : Process β}
    (hp : Waiting stream (before ++ r :: behind) p) : deliveredTo before.length p.out = [] := by
  obtain ⟨-, r', -, done, out, hsplit, hanswered, hout⟩ := hp
  have hle := answered_length_le hr hsplit hanswered
  have hbehind := behindEnds_answers hanswered [] (before.length - done.length)
  rw [Nat.add_sub_cancel' hle] at hbehind
  unfold deliveredTo
  rw [hout, List.map_nil, hbehind]
  cases before.length - done.length <;> rfl

/-- A process that has failed stays as it is. -/
lemma Failed.iterate {p : Process β} (h : Failed stream before r p) (n : ℕ) :
    (turn d)^[n] p = p :=
  Function.iterate_fixed (turn_of_done (by simp [Process.done, h.1])) n

/-- **A decompressor that fails** at the end of the stream makes the process fail. -/
theorem failed_of_error (hd : d.Decodes stream) (hall : Askable (before ++ r :: behind))
    (hbefore : ∀ x ∈ before, InBlock stream x) (hr : ¬ InBlock stream r)
    (hcode : isOk (d.code r.block) = false) {p : Process β}
    (hp : Waiting stream (before ++ r :: behind) p) :
    (∃ n, ((turn d)^[n] p).operationTerminated = true) ∧
      ∀ n, deliveredTo before.length ((turn d)^[n] p).out <+: slice (stream r.block) r.pos r.size := by
  -- With every round there are fewer requests to come.
  induction hcount : p.requests.length using Nat.strong_induction_on generalizing p with
  | _ count ih =>
  have hfirst : deliveredTo before.length p.out <+: slice (stream r.block) r.pos r.size := by
    rw [deliveredTo_of_waiting hr hp]
    exact List.nil_prefix
  rcases turn_of_error hd hall hbefore hr hcode hp with ⟨hwaiting, hlt⟩ | hfailed
  · obtain ⟨⟨n, hn⟩, hprefix⟩ := ih _ (hcount ▸ hlt) hwaiting rfl
    refine ⟨⟨n + 1, by rw [Function.iterate_succ_apply]; exact hn⟩, fun m => ?_⟩
    cases m with
    | zero => exact hfirst
    | succ m =>
      rw [Function.iterate_succ_apply]
      exact hprefix m
  · refine ⟨⟨1, hfailed.1⟩, fun m => ?_⟩
    cases m with
    | zero => exact hfirst
    | succ m =>
      rw [Function.iterate_succ_apply, hfailed.iterate]
      exact hfailed.2

/-! ## A decompressor that does not fail -/

/-- The process is at the file `r`, whose rest ends behind the stream. -/
structure Stuck (stream : β → List UInt8) (r : Request β) (p : Process β) : Prop where
  /-- The file was asked for last. -/
  cfile : p.cfile = some r
  /-- The process has not failed. -/
  ok : p.operationTerminated = false
  /-- The stream has begun. -/
  nonneg : 0 ≤ p.blockPos
  /-- The rest of the file is ahead. -/
  ahead : p.blockPos ≤ p.pos
  /-- There is a rest. -/
  rest : 0 < p.size
  /-- The rest ends behind the stream. -/
  beyond : ((stream r.block).length : Int) < p.pos + p.size

/-- A buffer does not have the end of the file. -/
lemma Stuck.step {buf rest : List UInt8} {p : Process β} (h : Stuck stream r p)
    (requests : List (Request β)) (hbuf : (stream r.block).drop p.blockPos.toNat = buf ++ rest) :
    ∃ q, decompressStep d buf requests p = ((buf.length : Int), q) ∧ Stuck stream r q ∧
      q.blockPos = p.blockPos + buf.length := by
  obtain ⟨hcfile, hok, hnonneg, hahead, hrest, hbeyond⟩ := h
  have hlength := congrArg List.length hbuf
  rw [List.length_drop, List.length_append] at hlength
  unfold decompressStep
  rw [if_neg (not_lt.mpr hnonneg)]
  dsimp only
  generalize hskip : min (p.pos - p.blockPos) (buf.length : Int) = skip
  generalize hn : min p.size ((buf.length : Int) - skip) = n
  rw [if_pos (by omega)]
  refine ⟨_, rfl, ⟨hcfile, hok, ?_, ?_, ?_, ?_⟩, rfl⟩
  · dsimp only; omega
  · dsimp only; omega
  · dsimp only; omega
  · dsimp only; omega

/-- Neither do the buffers of the whole stream. -/
lemma Stuck.decompress (code : Int) {bufs : List (List UInt8)} {p : Process β} (h : Stuck stream r p)
    (hbufs : bufs.flatten = (stream r.block).drop p.blockPos.toNat) :
    ∃ q, decompress d code bufs p = (code, q) ∧ Stuck stream r q := by
  induction bufs generalizing p with
  | nil => exact ⟨p, rfl, h⟩
  | cons buf bufs ih =>
    obtain ⟨q, hstep, hq, hpos⟩ := h.step (d := d) p.requests
      (hbufs.symm.trans List.flatten_cons)
    have hrest : bufs.flatten = (stream r.block).drop q.blockPos.toNat := by
      rw [hpos, Int.toNat_add h.nonneg (Int.natCast_nonneg _), Int.toNat_natCast, ← List.drop_drop,
        ← hbufs, List.flatten_cons, List.drop_left]
    obtain ⟨q', hrun, hq'⟩ := ih hq hrest
    refine ⟨q', ?_, hq'⟩
    unfold Extract.decompress
    rw [hstep]
    dsimp only
    rw [if_neg (not_lt.mpr (Int.natCast_nonneg _))]
    exact hrun

/-- **The block is started again**, and the process is where it was. -/
theorem turn_stuck (hd : d.Decodes stream) (hr : ¬ InBlock stream r) (hpos : 0 ≤ r.pos)
    (hsize : 0 < r.size) (hcode : isOk (d.code r.block) = true) {p : Process β}
    (hcfile : p.cfile = some r) (hdone : p.done = false) :
    (turn d p).cfile = some r ∧ (turn d p).done = false := by
  have hbeyond : ((stream r.block).length : Int) < r.pos + r.size := by
    by_contra hcon
    exact hr ⟨hpos, not_lt.mp hcon⟩
  have hok : p.operationTerminated = false := (Bool.or_eq_false_iff.mp hdone).2
  have hstart : 0 ≤ (if d.storing r.block then r.pos else 0) ∧
      (if d.storing r.block then r.pos else 0) ≤ r.pos := by
    split
    · exact ⟨hpos, le_refl _⟩
    · exact ⟨le_refl _, hpos⟩
  have hnot : p.done ≠ true := by rw [hdone]; decide
  unfold turn decompressBlock
  rw [if_neg hnot, hcfile]
  dsimp only
  generalize (if d.storing r.block then r.pos else 0) = startPos at hstart ⊢
  obtain ⟨q, hrun, hq⟩ := Stuck.decompress (d := d) (d.code r.block)
    (p := { p with cfile := some r, blockPos := startPos, pos := r.pos, size := r.size,
                   started := p.started + 1 })
    ⟨rfl, hok, hstart.1, hstart.2, hsize, hbeyond⟩ (hd p.started r.block startPos hstart.1)
  rw [hrun]
  dsimp only
  rw [hq.ok, hcode]
  refine ⟨hq.cfile, ?_⟩
  have hstop : q.blockPos ≠ stopDecompressThread := by
    have hnonneg := hq.nonneg
    unfold stopDecompressThread
    omega
  simpa [Process.done] using hstop

/-- **A decompressor that does not fail** at the end of the stream keeps the process from coming to an
end. -/
theorem not_done_of_ok (hd : d.Decodes stream) (hall : Askable (before ++ r :: behind))
    (hbefore : ∀ x ∈ before, InBlock stream x) (hr : ¬ InBlock stream r)
    (hcode : isOk (d.code r.block) = true) {p : Process β}
    (hp : Waiting stream (before ++ r :: behind) p) (n : ℕ) : ((turn d)^[n] p).done = false := by
  have hinvariant : Waiting stream (before ++ r :: behind) ((turn d)^[n] p) ∨
      ((turn d)^[n] p).cfile = some r ∧ ((turn d)^[n] p).done = false := by
    induction n with
    | zero => exact Or.inl hp
    | succ n ih =>
      rw [Function.iterate_succ_apply']
      generalize (turn d)^[n] p = q at ih
      rcases ih with ⟨hdone, r₁, hserving⟩ | ⟨hcfile, hdone⟩
      · have hturned := turn_turned hd hall hserving hdone
        generalize turn d q = q' at hturned
        cases hturned with
        | finished _ hfinished _ => exact absurd hfinished (not_finished hr)
        | restarts r' _ hserving' hdone' _ => exact Or.inl ⟨hdone', r', hserving'⟩
        | ranOut r' ds _ hserving' hshort hdone' _ =>
          obtain ⟨hcfile, done, out, hsplit, hanswered, -⟩ := hserving'
          obtain ⟨-, rfl⟩ := eq_of_short hbefore hr hsplit hanswered hshort
          exact Or.inr ⟨hcfile, hdone'⟩
        | failed r' ds p' hserving' hshort _ herror =>
          obtain ⟨-, done, out, hsplit, hanswered, -⟩ := hserving'
          obtain ⟨-, rfl⟩ := eq_of_short hbefore hr hsplit hanswered hshort
          rw [hcode] at herror
          cases herror
      · obtain ⟨hpos, hsize⟩ := hall r (by simp)
        exact Or.inr (turn_stuck hd hr hpos hsize hcode hcfile hdone)
  rcases hinvariant with hwaiting | hstuck
  · exact hwaiting.1
  · exact hstuck.2

end

/-- A block whose decompressor finds out that its data are damaged. -/
def damagedBlock : Decoders Unit := { storedBlock with code := fun _ => ErrCode.badCompressedData.toInt }

end DArc.Extract
