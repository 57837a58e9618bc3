import DArc.Extract.Process
import DArc.Library.Runs

/-!
# What the decompression process delivers

The invariant of the process says which requests have been answered, and what was delivered of the file
that was asked for last (`Serving`), and how the position in the stream and the rest of the file fit to
it (`Position`).  A buffer of the stream keeps it (`decompressStep_stepped`), and so does a run of the
decompressor: it ends when all requests are answered, when the next file is not ahead in the block, or
with the stream (`decompressBlock_ended`).

### Main results

* `decompressProcess_delivers`: files that lie in their blocks are delivered, each with its own bytes
  and one end mark.
-/

namespace DArc.Extract

variable {β : Type}

/-! ## Pieces of a stream -/

/-- The `size` bytes of the stream from the position `pos` on. -/
def slice (s : List UInt8) (pos size : Int) : List UInt8 := (s.drop pos.toNat).take size.toNat

/-- A piece behind a piece. -/
lemma slice_append (s : List UInt8) {pos m n : Int} (hpos : 0 ≤ pos) (hm : 0 ≤ m) (hn : 0 ≤ n) :
    slice s pos m ++ slice s (pos + m) n = slice s pos (m + n) := by
  unfold slice
  rw [Int.toNat_add hpos hm, Int.toNat_add hm hn, ← List.drop_drop, List.take_add]

/-- There is nothing in an empty piece. -/
lemma slice_zero (s : List UInt8) (pos : Int) : slice s pos 0 = [] := List.take_zero

/-- A piece of a buffer of the stream. -/
lemma slice_buffer {s buf rest : List UInt8} {start k n : Int} (hstart : 0 ≤ start)
    (hbuf : s.drop start.toNat = buf ++ rest) (hk : 0 ≤ k) (hkn : k + n ≤ buf.length) :
    (buf.drop k.toNat).take n.toNat = slice s (start + k) n := by
  unfold slice
  rw [Int.toNat_add hstart hk, ← List.drop_drop, hbuf, List.drop_append, List.take_append_of_le_length]
  rw [List.length_drop]
  omega

/-! ## The invariant -/

variable (stream : β → List UInt8)

/-- The file lies in its block. -/
def InBlock (r : Request β) : Prop := 0 ≤ r.pos ∧ r.pos + r.size ≤ (stream r.block).length

/-- The answer to a request: the bytes of the file, in order, and one end mark. -/
def Answer (r : Request β) (answer : List Event) : Prop :=
  ∃ ds : List (List UInt8), answer = ds.map .data ++ [.endOfData] ∧
    ds.flatten = slice (stream r.block) r.pos r.size

/-- The requests have been answered, and their files lie in their blocks. -/
def Answered (rs : List (Request β)) (out : List Event) : Prop :=
  (∀ r ∈ rs, InBlock stream r) ∧ ∃ answers, List.Forall₂ (Answer stream) rs answers ∧
    out = answers.flatten

/-- Of the requests `all` those in front of `r` have been answered, and `ds` was delivered of `r`. -/
def Serving (all : List (Request β)) (r : Request β) (ds : List (List UInt8)) (p : Process β) : Prop :=
  p.cfile = some r ∧ ∃ before out, all = before ++ r :: p.requests ∧ Answered stream before out ∧
    p.out = out ++ ds.map .data

/-- The rest of the file is ahead in the stream, and what is in front of it was delivered. -/
structure Position (r : Request β) (ds : List (List UInt8)) (p : Process β) : Prop where
  /-- The stream has begun. -/
  nonneg : 0 ≤ p.blockPos
  /-- The rest of the file is ahead. -/
  ahead : p.blockPos ≤ p.pos
  /-- There is a rest. -/
  rest : 0 < p.size
  /-- The rest ends where the file ends. -/
  total : p.pos + p.size = r.pos + r.size
  /-- The rest lies in the file. -/
  begun : 0 ≤ r.pos ∧ r.pos ≤ p.pos
  /-- The bytes in front of the rest were delivered. -/
  delivered : ds.flatten = slice (stream r.block) r.pos (p.pos - r.pos)

/-- All requests have been answered, and the process stops. -/
structure Finished (all : List (Request β)) (p : Process β) : Prop where
  /-- There was no other request. -/
  stopped : p.blockPos = stopDecompressThread
  /-- All requests have been answered. -/
  answered : Answered stream all p.out

/-- The requests can be answered in files. -/
def Askable (all : List (Request β)) : Prop := ∀ r ∈ all, 0 ≤ r.pos ∧ 0 < r.size

/-- What a buffer of the block `b` leads to, where `next` is the position behind the buffer and `n` the
number of requests to come before it. -/
inductive Stepped (all : List (Request β)) (b : β) (next : Int) (n : ℕ) : Int × Process β → Prop
  /-- The process waits for the next buffer. -/
  | goesOn (len : Int) (r : Request β) (ds : List (List UInt8)) (p : Process β) (nonneg : 0 ≤ len)
      (serving : Serving stream all r ds p) (position : Position stream r ds p) (block : r.block = b)
      (blockPos : p.blockPos = next) (le : p.requests.length ≤ n) : Stepped all b next n (len, p)
  /-- All requests have been answered. -/
  | finished (p : Process β) (finished : Finished stream all p) :
      Stepped all b next n (ErrCode.noMoreDataRequired.toInt, p)
  /-- The next file is not ahead in the block. -/
  | restarts (r : Request β) (p : Process β) (serving : Serving stream all r [] p)
      (blockPos : p.blockPos = -1) (lt : p.requests.length < n) :
      Stepped all b next n (ErrCode.noMoreDataRequired.toInt, p)

variable {stream}

/-- A file whose last bytes are delivered has been answered. -/
lemma Answered.concat {before : List (Request β)} {out : List Event} {r : Request β}
    {ds : List (List UInt8)} (h : Answered stream before out) (hr : InBlock stream r)
    (hds : ds.flatten = slice (stream r.block) r.pos r.size) :
    Answered stream (before ++ [r]) (out ++ (ds.map .data ++ [.endOfData])) := by
  obtain ⟨hin, answers, hanswers, rfl⟩ := h
  refine ⟨fun x hx => ?_, answers ++ [ds.map .data ++ [.endOfData]], ?_, by simp⟩
  · rcases List.mem_append.mp hx with hx | hx
    · exact hin x hx
    · exact (List.mem_singleton.mp hx) ▸ hr
  · exact List.rel_append hanswers (List.Forall₂.cons ⟨ds, rfl, hds⟩ List.Forall₂.nil)

/-- What is sent of a buffer belongs to the rest of the file. -/
lemma exists_sent (size : Int) {s buf rest : List UInt8} {blockPos pos : Int} (hblock : 0 ≤ blockPos)
    (hahead : blockPos ≤ pos) (hbuf : s.drop blockPos.toNat = buf ++ rest) {skip n : Int}
    (hskip : skip = min (pos - blockPos) buf.length) (hn : n = min size (buf.length - skip)) :
    ∃ ds : List (List UInt8), (if 0 < n then
      [Event.data ((buf.drop skip.toNat).take n.toNat)] else []) = ds.map .data ∧
      (0 < size → ds.flatten = slice s pos n) := by
  by_cases hpos : 0 < n
  · have hpiece := slice_buffer hblock hbuf (k := skip) (n := n) (by omega) (by omega)
    have hstart : blockPos + skip = pos := by omega
    rw [hstart] at hpiece
    exact ⟨[(buf.drop skip.toNat).take n.toNat], if_pos hpos, fun _ => by
      rw [List.flatten_singleton, hpiece]⟩
  · refine ⟨[], if_neg hpos, fun hsize => ?_⟩
    have hzero : n = 0 := by omega
    rw [hzero, slice_zero]
    rfl

/-- The number of requests is a bound. -/
lemma Stepped.mono {all : List (Request β)} {b : β} {next : Int} {m n : ℕ} {x : Int × Process β}
    (h : Stepped stream all b next m x) (hmn : m ≤ n) : Stepped stream all b next n x := by
  cases h with
  | goesOn len r ds p nonneg serving position block blockPos le =>
    exact .goesOn len r ds p nonneg serving position block blockPos (le.trans hmn)
  | finished p finished => exact .finished p finished
  | restarts r p serving blockPos lt => exact .restarts r p serving blockPos (lt.trans_le hmn)

/-- The fields of the process that a buffer does not touch. -/
def Untouched (p q : Process β) : Prop :=
  q.operationTerminated = p.operationTerminated ∧ q.started = p.started

variable [DecidableEq β]

/-- **A buffer of the stream** keeps the invariant. -/
theorem decompressStep_stepped {d : Decoders β} {buf rest : List UInt8} {all requests : List (Request β)}
    {r : Request β} {ds : List (List UInt8)} {p : Process β} (hall : Askable all)
    (hserving : Serving stream all r ds { p with requests := requests })
    (hposition : Position stream r ds p)
    (hbuf : (stream r.block).drop p.blockPos.toNat = buf ++ rest) :
    Stepped stream all r.block (p.blockPos + buf.length) requests.length
        (decompressStep d buf requests p) ∧
      Untouched p (decompressStep d buf requests p).2 := by
  -- The number of requests to come decreases from file to file of the buffer.
  induction hcount : requests.length using Nat.strong_induction_on generalizing requests r ds p with
  | _ count ih =>
  subst hcount
  obtain ⟨hcfile, before, out, hsplit, hanswered, hout⟩ := hserving
  obtain ⟨hnonneg, hahead, hrest, htotal, hbegun, hdelivered⟩ := hposition
  obtain ⟨sent, hsent, hflat⟩ := exists_sent p.size hnonneg hahead hbuf rfl rfl
  have hlength := congrArg List.length hbuf
  rw [List.length_drop, List.length_append] at hlength
  unfold decompressStep
  rw [if_neg (not_lt.mpr hnonneg)]
  dsimp only at hsplit hcfile hout ⊢
  rw [hsent]
  generalize hskip : min (p.pos - p.blockPos) (buf.length : Int) = skip at *
  generalize hn : min p.size ((buf.length : Int) - skip) = n at *
  have hds : (ds ++ sent).flatten = slice (stream r.block) r.pos (p.pos + n - r.pos) := by
    have hglue := slice_append (stream r.block) hbegun.1 (m := p.pos - r.pos) (n := n) (by omega)
      (by omega)
    rw [add_sub_cancel] at hglue
    rw [List.flatten_append, hdelivered, hflat hrest, hglue]
    congr 1
    omega
  by_cases hmore : n < p.size
  · rw [if_pos hmore]
    refine ⟨.goesOn _ r (ds ++ sent) _ (Int.natCast_nonneg _) ⟨hcfile, before, out, hsplit, hanswered,
      ?_⟩ ⟨?_, ?_, ?_, ?_, ?_, hds⟩ rfl rfl (le_refl _), rfl, rfl⟩
    · dsimp only
      rw [hout, List.map_append, List.append_assoc]
    · dsimp only; omega
    · dsimp only; omega
    · dsimp only; omega
    · dsimp only; omega
    · dsimp only; omega
  · rw [if_neg hmore]
    -- The last bytes of the file were in the buffer.
    have hend : p.pos + n - r.pos = r.size := by omega
    rw [hend] at hds
    have hconcat := hanswered.concat ⟨hbegun.1, by omega⟩ hds
    have hout' : p.out ++ sent.map .data ++ [.endOfData] =
        out ++ ((ds ++ sent).map .data ++ [.endOfData]) := by
      rw [hout, List.map_append]
      simp only [List.append_assoc]
    rw [← hout'] at hconcat
    cases requests with
    | nil =>
      rw [← hsplit] at hconcat
      exact ⟨.finished _ ⟨rfl, hconcat⟩, rfl, rfl⟩
    | cons r' requests =>
      have hsplit' : all = before ++ [r] ++ r' :: requests := by
        rw [hsplit, List.append_assoc, List.singleton_append]
      dsimp only
      by_cases hnext : p.cfile.map Request.block ≠ some r'.block ∨ r'.pos < p.blockPos ∨
          p.blockPos + (buf.length : Int) < r'.pos ∧ d.storing r'.block = true
      · rw [if_pos hnext]
        refine ⟨.restarts r' _ ⟨rfl, before ++ [r], _, hsplit', hconcat, ?_⟩ rfl ?_, rfl, rfl⟩
        · exact (List.append_nil _).symm
        · exact Nat.lt_succ_self _
      · rw [if_neg hnext]
        push Not at hnext
        obtain ⟨hblock, hpos, -⟩ := hnext
        rw [hcfile, Option.map_some, Option.some_inj] at hblock
        obtain ⟨hr', hsize'⟩ := hall r' (by rw [hsplit']; simp)
        have hnew : Serving stream all r' [] { p with
            cfile := some r', pos := r'.pos, size := r'.size, requests := requests,
            out := p.out ++ sent.map .data ++ [.endOfData] } :=
          ⟨rfl, before ++ [r], _, hsplit', hconcat, (List.append_nil _).symm⟩
        have hbegin : Position stream r' [] { p with
            cfile := some r', pos := r'.pos, size := r'.size,
            out := p.out ++ sent.map .data ++ [.endOfData] } :=
          ⟨hnonneg, hpos, hsize', rfl, ⟨hr', le_refl _⟩, by rw [sub_self, slice_zero]; rfl⟩
        rw [hblock] at hbuf ⊢
        obtain ⟨hstep, hsame⟩ := ih requests.length (Nat.lt_succ_self _) (p := { p with
          cfile := some r', pos := r'.pos, size := r'.size,
          out := p.out ++ sent.map .data ++ [.endOfData] }) hnew hbegin hbuf rfl
        exact ⟨hstep.mono (Nat.le_succ _), hsame⟩

/-! ## A run of the decompressor -/

/-- What a run of the decompressor of the block `b` leads to, where `code` is what the decompressor ends
with at the end of the stream, and `n` the number of requests to come before the run. -/
inductive Ended (stream : β → List UInt8) (all : List (Request β)) (b : β) (code : Int) (n : ℕ) :
    Int × Process β → Prop
  /-- All requests have been answered. -/
  | finished (p : Process β) (finished : Finished stream all p) :
      Ended stream all b code n (ErrCode.noMoreDataRequired.toInt, p)
  /-- The next file is not ahead in the block. -/
  | restarts (r : Request β) (p : Process β) (serving : Serving stream all r [] p)
      (blockPos : p.blockPos = -1) (lt : p.requests.length < n) :
      Ended stream all b code n (ErrCode.noMoreDataRequired.toInt, p)
  /-- The stream has ended in front of the end of a file. -/
  | ranOut (r : Request β) (ds : List (List UInt8)) (p : Process β)
      (serving : Serving stream all r ds p) (position : Position stream r ds p) (block : r.block = b)
      (short : ((stream b).length : Int) ≤ p.blockPos) : Ended stream all b code n (code, p)

omit [DecidableEq β] in
/-- What a run leads to, with a larger bound. -/
lemma Ended.mono {all : List (Request β)} {b : β} {code : Int} {m n : ℕ} {x : Int × Process β}
    (h : Ended stream all b code m x) (hmn : m ≤ n) : Ended stream all b code n x := by
  cases h with
  | finished p finished => exact .finished p finished
  | restarts r p serving blockPos lt => exact .restarts r p serving blockPos (lt.trans_le hmn)
  | ranOut r ds p serving position block short => exact .ranOut r ds p serving position block short

/-- Buffers that make up the rest of the stream keep the invariant. -/
theorem decompress_ended {d : Decoders β} (code : Int) {bufs : List (List UInt8)}
    {all : List (Request β)} {r : Request β} {ds : List (List UInt8)} {p : Process β}
    (hall : Askable all) (hserving : Serving stream all r ds p) (hposition : Position stream r ds p)
    (hbufs : bufs.flatten = (stream r.block).drop p.blockPos.toNat) :
    Ended stream all r.block code p.requests.length (decompress d code bufs p) ∧
      Untouched p (decompress d code bufs p).2 := by
  induction bufs generalizing r ds p with
  | nil =>
    have hlength := congrArg List.length hbufs
    rw [List.flatten_nil, List.length_nil, List.length_drop] at hlength
    have hnonneg := hposition.nonneg
    exact ⟨.ranOut r ds p hserving hposition rfl (by omega), rfl, rfl⟩
  | cons buf bufs ih =>
    obtain ⟨hstep, hsame⟩ := decompressStep_stepped (d := d) hall hserving hposition
      (hbufs.symm.trans List.flatten_cons)
    unfold decompress
    generalize decompressStep d buf p.requests p = x at hstep hsame
    cases hstep with
    | finished q hfinished => exact ⟨.finished q hfinished, hsame⟩
    | restarts r' q hserving' hblock hlt => exact ⟨.restarts r' q hserving' hblock hlt, hsame⟩
    | goesOn len r' ds' q hlen hserving' hposition' hblock hpos hle =>
      have hrest : bufs.flatten = (stream r'.block).drop q.blockPos.toNat := by
        have hnonneg := hposition.nonneg
        rw [hpos, hblock, Int.toNat_add hnonneg (Int.natCast_nonneg _), Int.toNat_natCast,
          ← List.drop_drop, ← hbufs, List.flatten_cons, List.drop_left]
      obtain ⟨hended, hsame'⟩ := ih hserving' hposition' hrest
      dsimp only
      rw [if_neg (not_lt.mpr hlen), ← hblock]
      exact ⟨hended.mono hle, hsame'.1.trans hsame.1, hsame'.2.trans hsame.2⟩

/-- The decompressors write the streams of the blocks, stored blocks from any position on. -/
def Decoders.Decodes (d : Decoders β) (stream : β → List UInt8) : Prop :=
  ∀ n b start, 0 ≤ start → (d.written n b start).flatten = (stream b).drop start.toNat

/-- **A run of the decompressor** of the block of a file of which nothing was delivered. -/
theorem decompressBlock_ended {d : Decoders β} {all : List (Request β)} {r : Request β}
    {p : Process β} (hd : d.Decodes stream) (hall : Askable all)
    (hserving : Serving stream all r [] p) :
    ∃ result q, Ended stream all r.block (d.code r.block) p.requests.length (result, q) ∧
      q.operationTerminated = p.operationTerminated ∧
      decompressBlock d p =
        { q with operationTerminated := q.operationTerminated || !isOk result } := by
  obtain ⟨hcfile, before, out, hsplit, hanswered, hout⟩ := hserving
  obtain ⟨hpos, hsize⟩ := hall r (by rw [hsplit]; simp)
  have hstart : 0 ≤ (if d.storing r.block then r.pos else 0) ∧
      (if d.storing r.block then r.pos else 0) ≤ r.pos := by
    split
    · exact ⟨hpos, le_refl _⟩
    · exact ⟨le_refl _, hpos⟩
  unfold decompressBlock
  rw [hcfile]
  dsimp only
  generalize (if d.storing r.block then r.pos else 0) = startPos at hstart ⊢
  have hserving' : Serving stream all r [] { p with
      blockPos := startPos, pos := r.pos, size := r.size, started := p.started + 1 } :=
    ⟨hcfile, before, out, hsplit, hanswered, hout⟩
  have hposition : Position stream r [] { p with
      blockPos := startPos, pos := r.pos, size := r.size, started := p.started + 1 } :=
    ⟨hstart.1, hstart.2, hsize, rfl, ⟨hpos, le_refl _⟩, by rw [sub_self, slice_zero]; rfl⟩
  have hended := decompress_ended (d := d) (d.code r.block) hall hserving' hposition
    (hd p.started r.block startPos hstart.1)
  obtain ⟨hended, hsame, -⟩ := hended
  refine ⟨_, _, hended, hsame, ?_⟩
  rw [hcfile]

/-! ## Rounds -/

/-- A round from a file of which nothing was delivered: the requests have been answered, another file is
asked for of which nothing was delivered, or the stream has ended in front of the end of a file. -/
inductive Turned (stream : β → List UInt8) (d : Decoders β) (all : List (Request β)) (n : ℕ) :
    Process β → Prop
  /-- All requests have been answered. -/
  | finished (p : Process β) (finished : Finished stream all p) (ok : p.operationTerminated = false) :
      Turned stream d all n p
  /-- The next file is to be extracted. -/
  | restarts (r : Request β) (p : Process β) (serving : Serving stream all r [] p)
      (goesOn : p.done = false) (lt : p.requests.length < n) : Turned stream d all n p
  /-- The stream has ended, and the decompressor says that this is no error. -/
  | ranOut (r : Request β) (ds : List (List UInt8)) (p : Process β) (serving : Serving stream all r ds p)
      (short : ¬ InBlock stream r) (goesOn : p.done = false) (ok : isOk (d.code r.block) = true) :
      Turned stream d all n p
  /-- The stream has ended, and the decompressor has failed. -/
  | failed (r : Request β) (ds : List (List UInt8)) (p : Process β)
      (serving : Serving stream all r ds p) (short : ¬ InBlock stream r)
      (delivered : ds.flatten <+: slice (stream r.block) r.pos r.size)
      (error : isOk (d.code r.block) = false) :
      Turned stream d all n { p with operationTerminated := true, out := p.out ++ [.terminated] }

/-- **A round of the loop** from a file of which nothing was delivered. -/
theorem turn_turned {d : Decoders β} {all : List (Request β)} {r : Request β} {p : Process β}
    (hd : d.Decodes stream) (hall : Askable all) (hserving : Serving stream all r [] p)
    (hdone : p.done = false) : Turned stream d all p.requests.length (turn d p) := by
  have hok : p.operationTerminated = false := (Bool.or_eq_false_iff.mp hdone).2
  obtain ⟨result, q, hended, hsame, hblock⟩ := decompressBlock_ended hd hall hserving
  rw [hsame.trans hok, Bool.false_or] at hblock
  have hnone : isOk ErrCode.noMoreDataRequired.toInt = true := by decide
  have hnot : p.done ≠ true := by rw [hdone]; decide
  unfold turn
  rw [if_neg hnot, hblock]
  cases hended with
  | finished _ hfinished =>
    rw [hnone]
    exact .finished _ ⟨hfinished.1, hfinished.2⟩ rfl
  | restarts r' _ hserving' hpos hlt =>
    rw [hnone]
    exact .restarts r' _ hserving' (by simp [Process.done, hpos, stopDecompressThread]) hlt
  | ranOut r' ds _ hserving' hposition hsame' hshort =>
    rw [← hsame'] at hshort ⊢
    obtain ⟨hnonneg, hahead, hrest, htotal, hbegun, hdelivered⟩ := hposition
    have hlost : ¬ InBlock stream r' := fun hin => by
      have hend := hin.2
      omega
    cases hcode : isOk (d.code r'.block) with
    | true =>
      refine .ranOut r' ds _ hserving' hlost ?_ hcode
      have hstop : q.blockPos ≠ stopDecompressThread := by
        unfold stopDecompressThread
        omega
      simpa [Process.done] using hstop
    | false =>
      refine .failed r' ds q hserving' hlost ?_ hcode
      have hglue := slice_append (stream r'.block) hbegun.1 (m := q.pos - r'.pos) (n := q.size)
        (by omega) hrest.le
      have hsize : q.pos - r'.pos + q.size = r'.size := by omega
      rw [hdelivered, ← hsize, ← hglue]
      exact List.prefix_append _ _

/-- A loop that has ended stays as it is. -/
lemma turn_of_done {d : Decoders β} {p : Process β} (h : p.done = true) : turn d p = p := if_pos h

/-- Files in their blocks are delivered. -/
lemma exists_finished {d : Decoders β} {all : List (Request β)} (hd : d.Decodes stream)
    (hall : Askable all) (hin : ∀ r ∈ all, InBlock stream r) {r : Request β} {p : Process β}
    (hserving : Serving stream all r [] p) (hdone : p.done = false) :
    ∃ n, Finished stream all ((turn d)^[n] p) ∧ ((turn d)^[n] p).operationTerminated = false := by
  -- With every round there are fewer requests to come.
  induction hcount : p.requests.length using Nat.strong_induction_on generalizing r p with
  | _ count ih =>
  have hmem : ∀ {r : Request β} {ds : List (List UInt8)} {p : Process β},
      Serving stream all r ds p → InBlock stream r := by
    rintro r ds p ⟨-, before, out, hsplit, -⟩
    exact hin r (by rw [hsplit]; simp)
  have hturned := turn_turned hd hall hserving hdone
  generalize hq : turn d p = q at hturned
  cases hturned with
  | finished _ hfinished hok =>
    refine ⟨1, ?_⟩
    rw [Function.iterate_one, hq]
    exact ⟨hfinished, hok⟩
  | restarts r' _ hserving' hdone' hlt =>
    obtain ⟨n, hn⟩ := ih q.requests.length (hcount ▸ hlt) hserving' hdone' rfl
    refine ⟨n + 1, ?_⟩
    rw [Function.iterate_succ_apply, hq]
    exact hn
  | ranOut r' ds _ hserving' hshort => exact absurd (hmem hserving') hshort
  | failed r' ds p' hserving' hshort => exact absurd (hmem hserving') hshort

omit [DecidableEq β] in
/-- At the start nothing was delivered of the first file. -/
lemma serving_start (stream : β → List UInt8) (r : Request β) (requests : List (Request β)) :
    Serving stream (r :: requests) r [] (start (r :: requests)) :=
  ⟨rfl, [], [], rfl, ⟨fun _ hx => absurd hx List.not_mem_nil, [], List.Forall₂.nil, rfl⟩, rfl⟩

/-- **Extraction delivers the files**: whatever the files, their blocks and the buffers in which the
decompressors write the streams, if the files that are asked for lie in their blocks, then the process
comes to its end, and what it sent back is one answer for each of them, in their order. -/
theorem decompressProcess_delivers (d : Decoders β) (stream : β → List UInt8) (fake : β → Bool)
    (files : List (Request β)) (hd : d.Decodes stream)
    (hfiles : ∀ r ∈ files.filter (decompressFile fake), InBlock stream r) :
    ∃ n answers, (decompressProcess d (files.filter (decompressFile fake)) n).done = true ∧
      (decompressProcess d (files.filter (decompressFile fake)) n).operationTerminated = false ∧
      (decompressProcess d (files.filter (decompressFile fake)) n).out = answers.flatten ∧
      List.Forall₂ (Answer stream) (files.filter (decompressFile fake)) answers := by
  have hask : Askable (files.filter (decompressFile fake)) := fun r hr => by
    have hsize := (Bool.and_eq_true_iff.mp (List.mem_filter.mp hr).2).1
    exact ⟨(hfiles r hr).1, of_decide_eq_true hsize⟩
  generalize files.filter (decompressFile fake) = all at hfiles hask
  cases all with
  | nil => exact ⟨0, [], rfl, rfl, rfl, List.Forall₂.nil⟩
  | cons r requests =>
    obtain ⟨n, hfinished, hok⟩ := exists_finished hd hask hfiles (serving_start stream r requests) rfl
    obtain ⟨-, answers, hanswers, hout⟩ := hfinished.answered
    refine ⟨n, answers, ?_, hok, hout, hanswers⟩
    unfold Process.done decompressProcess
    rw [hfinished.stopped]
    rfl

/-- A stored block of four bytes that is written byte by byte. -/
def storedBlock : Decoders Unit :=
  { storing := fun _ => true
    written := fun _ _ start => (([10, 20, 30, 40] : List UInt8).drop start.toNat).map fun b => [b]
    code := fun _ => ErrCode.ok.toInt }

/-- It writes its stream. -/
lemma storedBlock_decodes : storedBlock.Decodes fun _ => [10, 20, 30, 40] := by
  have hflat : ∀ xs : List UInt8, (xs.map fun b => [b]).flatten = xs := fun xs => by
    induction xs with
    | nil => rfl
    | cons x xs ih => exact congrArg (x :: ·) ih
  exact fun n b start _ => hflat _

/-- Two files of a stored block, the second one in front of the first one, and an empty file. -/
theorem decompressProcess_delivers_storedBlock :
    ∃ n answers, (decompressProcess storedBlock
        ([⟨(), 2, 2⟩, ⟨(), 1, 0⟩, ⟨(), 0, 3⟩].filter (decompressFile fun _ => false)) n).out =
          answers.flatten ∧
      List.Forall₂ (Answer fun _ => [10, 20, 30, 40])
        ([⟨(), 2, 2⟩, ⟨(), 1, 0⟩, ⟨(), 0, 3⟩].filter (decompressFile fun _ => false)) answers := by
  obtain ⟨n, answers, -, -, hout, hanswers⟩ := decompressProcess_delivers storedBlock
    (fun _ => [10, 20, 30, 40]) (fun _ => false) [⟨(), 2, 2⟩, ⟨(), 1, 0⟩, ⟨(), 0, 3⟩]
    storedBlock_decodes (List.forall_mem_cons.mpr ⟨⟨by decide, by decide⟩,
      List.forall_mem_singleton.mpr ⟨by decide, by decide⟩⟩)
  exact ⟨n, answers, hout, hanswers⟩

end DArc.Extract
