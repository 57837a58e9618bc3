import DArc.Library.Network

/-!
# When all processes of a row end

A process that ends without having taken all its input leaves the rest in the queue in front of it.  When the
rest does not fit there, the process before it waits forever.

### Outline

* `Net.Inv`: what each process will still take and put out;
* `Net.Joins`: all processes end, in every run;
* `Net.Fits`: what each process leaves over, on its own, fits into the queue in front of it.

### Main results

* `Net.Inv.step`: a step of one process keeps what is left over at the end;
* `Net.Inv.all_ended_of_stuck`: if what is left over fits, then no process waits in vain;
* `Net.joins_iff`: all processes end in every run if and only if what is left over fits.
-/

namespace DArc

namespace Net

variable {Q β σ : Type*} {cap : ℕ}

section

variable (ops : BoundedQueue Q β cap) (action : σ → Action β σ) (last : ℕ)

/-- What is in front of a process when the processes before it will still put out `future`. -/
def input (queue : ℕ → Q) (future : ℕ → List β) : ℕ → List β
  | 0 => []
  | j + 1 => ops.contents (queue j) ++ future j

/-- Each process will put out `future` and leave `unread` over in `left` steps, or it has ended. -/
structure Inv (unread : ℕ → List β) (future : ℕ → List β) (left : ℕ → ℕ) (net : Net Q β σ) : Prop where
  running : ∀ k ≤ last, net.ended k = false →
    Alone action (left k) (net.stage k) (input ops net.queue future k) (future k) (unread k)
  atEnd : ∀ k ≤ last, net.ended k = true →
    future k = [] ∧ unread k = input ops net.queue future k ∧ left k = 0

/-- All processes end: runs are bounded, and where no process can take a step all have ended. -/
def Joins (start : ℕ → σ) : Prop :=
  (∃ bound, ∀ turns net, perform (step ops action last) turns (init ops start) = some net →
    turns.length ≤ bound) ∧
  ∀ net, Reachable (step ops action last) (init ops start) net → net.Stuck ops action last →
    net.AllEnded last

/-- Each process, on its own and with what the one before it puts out in front of it, ends, and what it leaves
over is at most `cap` items. -/
def Fits (cap : ℕ) (start : ℕ → σ) : Prop :=
  ∃ (out unread : ℕ → List β) (left : ℕ → ℕ),
    (∀ k ≤ last, Alone action (left k) (start k) (front out k) (out k) (unread k)) ∧
    ∀ k < last, (unread (k + 1)).length ≤ cap

/-- The same for processes in a list, with `input` in front of the first one. -/
def FitsFrom (cap : ℕ) : List β → List σ → Prop
  | _, [] => True
  | input, s :: stages => ∃ n out unread, Alone action n s input out unread ∧ unread.length ≤ cap ∧
      FitsFrom cap out stages

end

variable {ops : BoundedQueue Q β cap} {action : σ → Action β σ} {last : ℕ} {net net' : Net Q β σ} {k : ℕ}
variable {unread future future' : ℕ → List β} {left left' : ℕ → ℕ}

/-- What is in front of a process depends on the queue in front of it. -/
lemma input_congr {queue queue' : ℕ → Q} {j : ℕ}
    (hq : ∀ i, j = i + 1 → ops.contents (queue' i) ++ future' i = ops.contents (queue i) ++ future i) :
    input ops queue' future' j = input ops queue future j := by
  cases j with
  | zero => rfl
  | succ i => exact hq i rfl

/-- What holds of the other processes is kept by a step of one process. -/
lemma Inv.of_step (h : net.Inv ops action last unread future left)
    (hstage : ∀ j ≠ k, net'.stage j = net.stage j) (hended : ∀ j ≠ k, net'.ended j = net.ended j)
    (hinput : ∀ j ≤ last, j ≠ k → input ops net'.queue future' j = input ops net.queue future j)
    (hfuture : ∀ j ≠ k, future' j = future j) (hleft : ∀ j ≠ k, left' j = left j)
    (hrunning : net'.ended k = false →
      Alone action (left' k) (net'.stage k) (input ops net'.queue future' k) (future' k) (unread k))
    (hatEnd : net'.ended k = true →
      future' k = [] ∧ unread k = input ops net'.queue future' k ∧ left' k = 0) :
    net'.Inv ops action last unread future' left' where
  running j hj hnot := by
    by_cases hjk : j = k
    · subst hjk
      exact hrunning hnot
    · rw [hended j hjk] at hnot
      rw [hstage j hjk, hinput j hj hjk, hfuture j hjk, hleft j hjk]
      exact h.running j hj hnot
  atEnd j hj hend := by
    by_cases hjk : j = k
    · subst hjk
      exact hatEnd hend
    · rw [hended j hjk] at hend
      rw [hinput j hj hjk, hfuture j hjk, hleft j hjk]
      exact h.atEnd j hj hend

/-- The steps that are left, together. -/
def total (last : ℕ) (left : ℕ → ℕ) : ℕ := ∑ k ∈ Finset.range (last + 1), left k

/-- A step of one process. -/
lemma total_update {n : ℕ} (hk : k ≤ last) (h : left k = n + 1) :
    total last (Function.update left k n) + 1 = total last left := by
  have hmem : k ∈ Finset.range (last + 1) := Finset.mem_range.mpr (by omega)
  unfold total
  rw [Finset.sum_update_of_mem hmem, Finset.sdiff_singleton_eq_erase, ← Finset.add_sum_erase _ left hmem, h]
  omega

/-- A process works on its own, or is told that it has nothing in front of it. -/
lemma Inv.of_work {next : σ} {m : ℕ} (h : net.Inv ops action last unread future left) (hk : k ≤ last)
    (hended : net.ended k = false) (hm : left k = m + 1)
    (hrest : Alone action m next (input ops net.queue future k) (future k) (unread k)) :
    ∃ future' left', ({ net with stage := Function.update net.stage k next } : Net Q β σ).Inv ops action
      last unread future' left' ∧ total last left' + 1 = total last left := by
  refine ⟨future, Function.update left k m, h.of_step update_of_ne_all (fun _ _ => rfl) (fun _ _ _ => rfl)
    (fun _ _ => rfl) update_of_ne_all (fun _ => ?_) (fun hend => ?_), total_update hk hm⟩
  · dsimp only
    rw [Function.update_self, Function.update_self]
    exact hrest
  · exact absurd (hended.symm.trans hend) Bool.false_ne_true

/-- The last process puts out an item. -/
lemma Inv.of_pushLast {b : β} {next : σ} (h : net.Inv ops action last unread future left)
    (hended : net.ended last = false) (haction : action (net.stage last) = .push b next) :
    ∃ future' left', ({ net with
        stage := Function.update net.stage last next
        pushed := Function.update net.pushed last (net.pushed last ++ [b]) } : Net Q β σ).Inv ops action
      last unread future' left' ∧ total last left' + 1 = total last left := by
  obtain ⟨m, rest, hm, -, hrest⟩ := (h.running last le_rfl hended).of_push haction
  have hinput : ∀ j ≤ last, input ops net.queue (Function.update future last rest) j =
      input ops net.queue future j := by
    intro j hj
    refine input_congr fun i hi => ?_
    rw [Function.update_of_ne (by omega)]
  refine ⟨Function.update future last rest, Function.update left last m, h.of_step update_of_ne_all
    (fun _ _ => rfl) (fun j hj _ => hinput j hj) update_of_ne_all update_of_ne_all (fun _ => ?_)
    (fun hend => ?_), total_update le_rfl hm⟩
  · dsimp only
    rw [Function.update_self, Function.update_self, Function.update_self, hinput last le_rfl]
    exact hrest
  · exact absurd (hended.symm.trans hend) Bool.false_ne_true

/-- A process puts an item into its queue. -/
lemma Inv.of_push {b : β} {next : σ} {q : Q} (h : net.Inv ops action last unread future left)
    (hk : k < last) (hended : net.ended k = false) (haction : action (net.stage k) = .push b next)
    (hq : ops.contents q = ops.contents (net.queue k) ++ [b]) :
    ∃ future' left', ({ net with
        stage := Function.update net.stage k next
        queue := Function.update net.queue k q
        pushed := Function.update net.pushed k (net.pushed k ++ [b]) } : Net Q β σ).Inv ops action
      last unread future' left' ∧ total last left' + 1 = total last left := by
  obtain ⟨m, rest, hm, hout, hrest⟩ := (h.running k hk.le hended).of_push haction
  have hinput : ∀ j, input ops (Function.update net.queue k q) (Function.update future k rest) j =
      input ops net.queue future j := by
    refine fun j => input_congr fun i _ => ?_
    by_cases hik : i = k
    · rw [hik, Function.update_self, Function.update_self, hq, hout, List.append_assoc,
        List.singleton_append]
    · rw [Function.update_of_ne hik, Function.update_of_ne hik]
  refine ⟨Function.update future k rest, Function.update left k m, h.of_step update_of_ne_all
    (fun _ _ => rfl) (fun j _ _ => hinput j) update_of_ne_all update_of_ne_all (fun _ => ?_)
    (fun hend => ?_), total_update hk.le hm⟩
  · dsimp only
    rw [Function.update_self, Function.update_self, Function.update_self, hinput k]
    exact hrest
  · exact absurd (hended.symm.trans hend) Bool.false_ne_true

/-- A process takes an item. -/
lemma Inv.of_pop {j : ℕ} {next : Option β → σ} {b : β} {q : Q}
    (h : net.Inv ops action last unread future left) (hk : j + 1 ≤ last)
    (hended : net.ended (j + 1) = false) (haction : action (net.stage (j + 1)) = .pop next)
    (hq : ops.contents (net.queue j) = b :: ops.contents q) :
    ∃ future' left', ({ net with
        stage := Function.update net.stage (j + 1) (next (some b))
        queue := Function.update net.queue j q
        popped := Function.update net.popped j (net.popped j ++ [b]) } : Net Q β σ).Inv ops action
      last unread future' left' ∧ total last left' + 1 = total last left := by
  have hrun : Alone action (left (j + 1)) (net.stage (j + 1)) (b :: (ops.contents q ++ future j))
      (future (j + 1)) (unread (j + 1)) := by
    rw [← List.cons_append, ← hq]
    exact h.running (j + 1) hk hended
  obtain ⟨m, hm, hrest⟩ := hrun.of_pop haction
  have hinput : ∀ i ≠ j + 1, input ops (Function.update net.queue j q) future i =
      input ops net.queue future i := by
    intro i hi
    refine input_congr fun i' hi' => ?_
    rw [Function.update_of_ne (by omega)]
  refine ⟨future, Function.update left (j + 1) m, h.of_step update_of_ne_all
    (fun _ _ => rfl) (fun i _ hi => hinput i hi) (fun _ _ => rfl) update_of_ne_all (fun _ => ?_)
    (fun hend => ?_), total_update hk hm⟩
  · dsimp only [input]
    rw [Function.update_self, Function.update_self, Function.update_self]
    exact hrest
  · exact absurd (hended.symm.trans hend) Bool.false_ne_true

/-- A process sees the end. -/
lemma Inv.of_popEnd {j : ℕ} {next : Option β → σ} (h : net.Inv ops action last unread future left)
    (hk : j + 1 ≤ last) (hended : net.ended (j + 1) = false)
    (haction : action (net.stage (j + 1)) = .pop next) (hq : ops.contents (net.queue j) = [])
    (hdone : net.ended j = true) :
    ∃ future' left', ({ net with
        stage := Function.update net.stage (j + 1) (next none)
        sawEnd := Function.update net.sawEnd j true } : Net Q β σ).Inv ops action
      last unread future' left' ∧ total last left' + 1 = total last left := by
  have hfront : input ops net.queue future (j + 1) = [] := by
    dsimp only [input]
    rw [hq, (h.atEnd j (by omega) hdone).1, List.append_nil]
  have hrun := h.running (j + 1) hk hended
  rw [hfront] at hrun
  obtain ⟨m, hm, hrest⟩ := hrun.of_popEnd haction
  rw [← hfront] at hrest
  obtain ⟨future', left', hinv, htotal⟩ := h.of_work hk hended hm hrest
  exact ⟨future', left', ⟨hinv.running, hinv.atEnd⟩, htotal⟩

/-- A process ends. -/
lemma Inv.of_finish (h : net.Inv ops action last unread future left) (hk : k ≤ last)
    (hended : net.ended k = false) (haction : action (net.stage k) = .finish) :
    ∃ future' left', ({ net with
        ended := Function.update net.ended k true
        queue := if k = last then net.queue
          else Function.update net.queue k (ops.close (net.queue k)) } : Net Q β σ).Inv ops action
      last unread future' left' ∧ total last left' + 1 = total last left := by
  obtain ⟨hm, hout, hunread⟩ := (h.running k hk hended).of_finish haction
  generalize hqueue : (if k = last then net.queue
    else Function.update net.queue k (ops.close (net.queue k))) = queue
  have hinput : ∀ j, input ops queue future j = input ops net.queue future j :=
    fun j => input_congr fun i _ => by rw [contents_queue_of_finish hqueue]
  refine ⟨future, Function.update left k 0, h.of_step (fun _ _ => rfl) update_of_ne_all
    (fun j _ _ => hinput j) (fun _ _ => rfl) update_of_ne_all (fun hend => ?_) (fun _ => ?_),
    total_update hk hm⟩
  · dsimp only at hend
    rw [Function.update_self] at hend
    cases hend
  · refine ⟨hout, ?_, Function.update_self ..⟩
    dsimp only
    rw [hinput k]
    exact hunread

variable {start : ℕ → σ}

/-- **A step keeps what is left over at the end**, and there is one step less to do. -/
theorem Inv.step (hs : net.Sound ops action last start) (h : net.Inv ops action last unread future left)
    (hstep : net.step ops action last k = some net') :
    ∃ future' left', net'.Inv ops action last unread future' left' ∧
      total last left' + 1 = total last left := by
  obtain ⟨hk, hended, hcase⟩ := stepped_of_step hstep
  cases hcase with
  | step haction =>
    obtain ⟨m, hm, hrest⟩ := (h.running k hk hended).of_step haction
    exact h.of_work hk hended hm hrest
  | pushLast haction hlast =>
    subst hlast
    exact h.of_pushLast hended haction
  | push haction hlt hq _ => exact h.of_push hlt hended haction hq
  | popFirst haction hzero =>
    subst hzero
    obtain ⟨m, hm, hrest⟩ := (h.running 0 hk hended).of_popEnd haction
    exact h.of_work hk hended hm hrest
  | pop haction hj hq _ =>
    subst hj
    exact h.of_pop hk hended haction hq
  | popEnd haction hj hq hc =>
    subst hj
    exact h.of_popEnd hk hended haction hq ((hs.closed _ hk).symm.trans hc)
  | finish haction => exact h.of_finish hk hended haction

/-- As many steps are left as were not yet taken. -/
lemma Inv.length_add {turns : List ℕ} (hs : net.Sound ops action last start)
    (h : net.Inv ops action last unread future left)
    (hrun : perform (Net.step ops action last) turns net = some net') :
    ∃ future' left', net'.Inv ops action last unread future' left' ∧
      turns.length + total last left' = total last left := by
  induction turns generalizing net future left with
  | nil =>
    obtain rfl : net = net' := Option.some.inj hrun
    exact ⟨future, left, h, Nat.zero_add _⟩
  | cons k turns ih =>
    obtain ⟨mid, hmid, hrest⟩ := Option.bind_eq_some_iff.mp hrun
    obtain ⟨future₁, left₁, h₁, htotal⟩ := h.step hs hmid
    obtain ⟨future₂, left₂, h₂, hlength⟩ := ih (hs.step hmid) h₁ hrest
    refine ⟨future₂, left₂, h₂, ?_⟩
    rw [List.length_cons]
    omega

/-! ## Waiting -/

/-- A process waits for room in the queue behind it. -/
def WaitsForRoom (ops : BoundedQueue Q β cap) (action : σ → Action β σ) (last : ℕ) (net : Net Q β σ)
    (k : ℕ) : Prop :=
  k < last ∧ net.ended k = false ∧ (ops.contents (net.queue k)).length = cap ∧
    ∃ b next, action (net.stage k) = .push b next

/-- A process waits for an item in the queue in front of it. -/
def WaitsForItem (ops : BoundedQueue Q β cap) (net : Net Q β σ) (k : ℕ) : Prop :=
  ∃ j, k = j + 1 ∧ ops.contents (net.queue j) = [] ∧ ops.closed (net.queue j) = false

/-- A process that cannot take a step waits for one of its neighbours or has ended. -/
lemma waits_of_stuck (hstuck : net.Stuck ops action last) (hk : k ≤ last) :
    net.WaitsForRoom ops action last k ∨ net.WaitsForItem ops k ∨ net.ended k = true := by
  by_cases hended : net.ended k = true
  · exact .inr (.inr hended)
  have hnone := hstuck k
  unfold Net.step at hnone
  rw [if_neg (by simp [hk, hended])] at hnone
  cases haction : action (net.stage k) with
  | step next =>
    rw [haction] at hnone
    cases hnone
  | finish =>
    rw [haction] at hnone
    cases hnone
  | push b next =>
    rw [haction] at hnone
    dsimp only at hnone
    by_cases hlast : k = last
    · rw [if_pos hlast] at hnone
      cases hnone
    · rw [if_neg hlast] at hnone
      refine .inl ⟨lt_of_le_of_ne hk hlast, Bool.eq_false_iff.mpr hended, ?_, b, next, haction⟩
      refine le_antisymm (ops.length_le _) (not_lt.mp fun hroom => ?_)
      obtain ⟨q, hq, -⟩ := ops.push_room _ b hroom
      rw [hq] at hnone
      cases hnone
  | pop next =>
    rw [haction] at hnone
    cases k with
    | zero => cases hnone
    | succ j =>
      refine .inr (.inl ⟨j, rfl, ?_⟩)
      replace hnone := Option.map_eq_none_iff.mp hnone
      cases hq : ops.contents (net.queue j) with
      | cons b rest =>
        obtain ⟨q, hpop, -⟩ := ops.pop_cons _ _ _ hq
        cases hnone.symm.trans hpop
      | nil =>
        refine ⟨rfl, Bool.eq_false_iff.mpr fun hc => ?_⟩
        cases hnone.symm.trans (ops.pop_closed _ hq hc)

/-- **No process waits in vain**: if what the processes leave over fits into the queues, then all have ended
where no one can take a step. -/
theorem Inv.all_ended_of_stuck (hcap : 0 < cap) (hs : net.Sound ops action last start)
    (h : net.Inv ops action last unread future left) (hfits : ∀ k < last, (unread (k + 1)).length ≤ cap)
    (hstuck : net.Stuck ops action last) : net.AllEnded last := by
  intro k hk
  have hall : ∀ i < last + 1,
      net.WaitsForRoom ops action last i ∨ net.WaitsForItem ops i ∨ net.ended i = true :=
    fun i hi => waits_of_stuck hstuck (Nat.lt_succ_iff.mp hi)
  have hright : ∀ i < last + 1, net.WaitsForRoom ops action last i →
      i + 1 < last + 1 ∧ net.WaitsForRoom ops action last (i + 1) := by
    rintro i - ⟨hlt, hended, hfull, b, next, haction⟩
    refine ⟨Nat.succ_lt_succ hlt, ?_⟩
    obtain hroom | ⟨j, hj, hempty, -⟩ | hdone := hall (i + 1) (Nat.succ_lt_succ hlt)
    · exact hroom
    · obtain rfl : i = j := Nat.succ.inj hj
      rw [hempty] at hfull
      exact absurd hfull hcap.ne
    · -- the rest of the queue was left over, and more is to come
      obtain ⟨m, out, -, hout, -⟩ := (h.running i hlt.le hended).of_push haction
      have hover := hfits i hlt
      rw [(h.atEnd (i + 1) hlt hdone).2.1] at hover
      dsimp only [input] at hover
      rw [hout, List.length_append, List.length_cons, hfull] at hover
      omega
  have hleft : (∀ i < last + 1, ¬net.WaitsForRoom ops action last i) →
      ∀ i < last + 1, net.WaitsForItem ops i → 0 < i ∧ net.WaitsForItem ops (i - 1) := by
    rintro hroom i hi ⟨j, rfl, hempty, hopen⟩
    refine ⟨Nat.succ_pos j, ?_⟩
    obtain hwait | hwait | hdone := hall j (by omega)
    · exact absurd hwait (hroom j (by omega))
    · exact hwait
    · rw [hs.closed j (by omega), hdone] at hopen
      cases hopen
  exact all_done_of_waits hall hright hleft k (Nat.lt_succ_iff.mpr hk)

/-! ## All processes end -/

/-- What each process puts out on its own is what it will put out at the start. -/
lemma inv_init {out : ℕ → List β} (halone : ∀ k ≤ last, Alone action (left k) (start k) (front out k) (out k)
    (unread k)) : (init ops start).Inv ops action last unread out left where
  running k hk _ := by
    have hfront : input ops (fun _ => ops.empty) out k = front out k := by
      cases k with
      | zero => rfl
      | succ j => exact congrArg (· ++ out j) ops.contents_empty
    have hrun := halone k hk
    rw [← hfront] at hrun
    exact hrun
  atEnd _ _ h := by cases h

/-- Every state reached is one in which the processes do what is left to them. -/
lemma exists_inv_of_reachable (h₀ : ∃ future left, (init ops start).Inv ops action last unread future left)
    (hreach : Reachable (Net.step ops action last) (init ops start) net) :
    ∃ future left, net.Inv ops action last unread future left := by
  induction hreach with
  | start => exact h₀
  | next k run _ hstep ih =>
    obtain ⟨future, left, h⟩ := ih
    obtain ⟨future', left', h', -⟩ := h.step (sound_of_reachable run) hstep
    exact ⟨future', left', h'⟩

/-- If what is left over fits, then all processes end. -/
lemma joins_of_fits (hcap : 0 < cap) (h : Fits action last cap start) : Joins ops action last start := by
  obtain ⟨out, unread, left, halone, hfits⟩ := h
  have hinv : (init ops start).Inv ops action last unread out left := inv_init halone
  refine ⟨⟨total last left, fun turns net hrun => ?_⟩, fun net hreach hstuck => ?_⟩
  · obtain ⟨_, left', -, hlength⟩ := hinv.length_add sound_init hrun
    omega
  · obtain ⟨_, _, hnet⟩ := exists_inv_of_reachable ⟨out, left, hinv⟩ hreach
    exact hnet.all_ended_of_stuck hcap (sound_of_reachable hreach) hfits hstuck

/-- Where all processes have ended, the queues hold what was left over. -/
lemma fits_of_all_ended (hs : net.Sound ops action last start) (hended : net.AllEnded last) :
    Fits action last cap start := by
  have halone : ∀ k, ∃ m, k ≤ last → Alone action m (start k) (front net.pushed k) (net.pushed k)
      (front (fun j => ops.contents (net.queue j)) k) := by
    intro k
    by_cases hk : k ≤ last
    · have hend : net.atEndOf k = true → front (fun j => ops.contents (net.queue j)) k = [] := by
        intro hseen
        cases k with
        | zero => rfl
        | succ j => exact (hs.seen j hk hseen).2
      have hfifo : front net.pushed k =
          front net.popped k ++ front (fun j => ops.contents (net.queue j)) k := by
        cases k with
        | zero => rfl
        | succ j => exact hs.fifo j hk
      obtain ⟨m, hm⟩ := hs.past k hk _ _ _ _ hend (.finish (hs.halted k hk (hended k hk)))
      rw [← hfifo, List.append_nil] at hm
      exact ⟨m, fun _ => hm⟩
    · exact ⟨0, fun h => absurd h hk⟩
  choose left hleft using halone
  exact ⟨net.pushed, _, left, hleft, fun k _ => ops.length_le _⟩

/-- **When all processes end**: in every run all processes end, if and only if each of them, on its own and
with what the one before it puts out in front of it, ends and leaves over no more than its queue holds. -/
theorem joins_iff (hcap : 0 < cap) : Joins ops action last start ↔ Fits action last cap start := by
  refine ⟨fun ⟨⟨bound, hbound⟩, hjoins⟩ => ?_, joins_of_fits hcap⟩
  obtain ⟨turns, net, hrun, hstuck⟩ := exists_stuck_of_bounded hbound
  have hreach := RunFrom.of_perform hrun
  exact fits_of_all_ended (sound_of_reachable hreach) (hjoins net hreach hstuck)

/-! ## Processes in a list -/

/-- What is put out and left over in a list of processes. -/
lemma fitsFrom_iff (other : σ) {stages : List σ} {input : List β} :
    FitsFrom action cap input stages ↔ ∃ (out unread : ℕ → List β) (left : ℕ → ℕ), ∀ k < stages.length,
      Alone action (left k) (stages.getD k other) (if k = 0 then input else out (k - 1)) (out k)
        (unread k) ∧ (unread k).length ≤ cap := by
  induction stages generalizing input with
  | nil => exact ⟨fun _ => ⟨fun _ => [], fun _ => [], fun _ => 0, fun _ h => by cases h⟩, fun _ => trivial⟩
  | cons s stages ih =>
    constructor
    · rintro ⟨n, o, u, halone, hle, hrest⟩
      obtain ⟨out, unread, left, hall⟩ := ih.mp hrest
      refine ⟨fun k => k.casesOn o out, fun k => k.casesOn u unread, fun k => k.casesOn n left, ?_⟩
      intro k hk
      cases k with
      | zero => exact ⟨halone, hle⟩
      | succ k =>
        obtain ⟨hk, hkle⟩ := hall k (Nat.lt_of_succ_lt_succ hk)
        refine ⟨?_, hkle⟩
        cases k with
        | zero => exact hk
        | succ k => exact hk
    · rintro ⟨out, unread, left, hall⟩
      obtain ⟨hfirst, hle⟩ := hall 0 (Nat.succ_pos _)
      refine ⟨left 0, out 0, unread 0, hfirst, hle, ?_⟩
      refine ih.mpr ⟨fun k => out (k + 1), fun k => unread (k + 1), fun k => left (k + 1), ?_⟩
      intro k hk
      obtain ⟨halone, hkle⟩ := hall (k + 1) (Nat.succ_lt_succ hk)
      refine ⟨?_, hkle⟩
      cases k with
      | zero => exact halone
      | succ k => exact halone

/-- What each process of a list leaves over fits. -/
lemma fits_iff {other : σ} {stages : List σ} (hstages : stages.length = last + 1) :
    Fits action last cap (fun k => stages.getD k other) ↔ FitsFrom action cap [] stages := by
  have hfront : ∀ (out : ℕ → List β) k, (if k = 0 then [] else out (k - 1)) = front out k := by
    intro out k
    cases k with
    | zero => rfl
    | succ k => rfl
  rw [fitsFrom_iff other, hstages]
  simp only [hfront, Nat.lt_succ_iff]
  refine exists_congr fun out => exists_congr fun unread => exists_congr fun left => ?_
  constructor
  · rintro ⟨halone, hfits⟩ k hk
    refine ⟨halone k hk, ?_⟩
    cases k with
    | zero => exact (halone 0 hk).length_unread_le.trans (Nat.zero_le _)
    | succ k => exact hfits k hk
  · intro hall
    exact ⟨fun k hk => (hall k hk).1, fun k hk => (hall (k + 1) hk).2⟩

end Net

end DArc
