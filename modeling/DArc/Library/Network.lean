import DArc.Library.Row
import DArc.Library.Runs

/-!
# Processes in a row, joined by bounded queues

A process takes items from the queue in front of it and puts items into the queue behind it.  It waits where
the queue in front of it is empty and not closed, and where the queue behind it is full; when it ends, it closes
the queue behind it.  The first process has no queue in front of it, and sees the end at once; what the last
one puts out is not bounded.

### Outline

* `Alone`: a process on its own, with its whole input in front of it;
* `BoundedQueue`: what is needed of a queue;
* `Net`, `Net.step`: the row of processes, with the history of its queues;
* `Net.Sound`: the queues are in order, and the processes are where their items have brought them.

### Main results

* `Net.sound_of_reachable`: nothing gets lost in a queue, whatever the processes do and in whatever order.
-/

namespace DArc

variable {Q β σ : Type*} {cap : ℕ}

/-! ## Processes -/

/-- What a process does next. -/
inductive Action (β σ : Type*)
  /-- It takes an item, or sees the end. -/
  | pop (next : Option β → σ)
  /-- It puts out an item. -/
  | push (b : β) (next : σ)
  /-- It works on its own. -/
  | step (next : σ)
  /-- It ends. -/
  | finish

/-- The same action of a process that is part of a larger type of processes. -/
def Action.map {τ : Type*} (f : σ → τ) : Action β σ → Action β τ
  | .pop next => .pop fun b => f (next b)
  | .push b next => .push b (f next)
  | .step next => .step (f next)
  | .finish => .finish

/-- On its own a process with the items `input` in front of it takes `n` steps, puts out `out` and leaves
`unread` over. -/
inductive Alone (action : σ → Action β σ) : ℕ → σ → List β → List β → List β → Prop
  | finish {s : σ} {input : List β} (h : action s = .finish) : Alone action 1 s input [] input
  | pop {n : ℕ} {s : σ} {next : Option β → σ} {b : β} {input out unread : List β}
      (h : action s = .pop next) (rest : Alone action n (next (some b)) input out unread) :
      Alone action (n + 1) s (b :: input) out unread
  | popEnd {n : ℕ} {s : σ} {next : Option β → σ} {out unread : List β} (h : action s = .pop next)
      (rest : Alone action n (next none) [] out unread) : Alone action (n + 1) s [] out unread
  | push {n : ℕ} {s next : σ} {b : β} {input out unread : List β} (h : action s = .push b next)
      (rest : Alone action n next input out unread) : Alone action (n + 1) s input (b :: out) unread
  | step {n : ℕ} {s next : σ} {input out unread : List β} (h : action s = .step next)
      (rest : Alone action n next input out unread) : Alone action (n + 1) s input out unread

section

variable {action : σ → Action β σ} {n : ℕ} {s : σ} {input out unread : List β}

/-- A process on its own that works on its own. -/
lemma Alone.of_step {next : σ} (h : Alone action n s input out unread) (haction : action s = .step next) :
    ∃ m, n = m + 1 ∧ Alone action m next input out unread := by
  cases h with
  | step h rest =>
    obtain rfl := Action.step.inj (haction.symm.trans h)
    exact ⟨_, rfl, rest⟩
  | finish h => cases haction.symm.trans h
  | pop h | popEnd h | push h => cases haction.symm.trans h

/-- A process on its own that puts out an item. -/
lemma Alone.of_push {b : β} {next : σ} (h : Alone action n s input out unread)
    (haction : action s = .push b next) :
    ∃ m rest, n = m + 1 ∧ out = b :: rest ∧ Alone action m next input rest unread := by
  cases h with
  | push h rest =>
    obtain ⟨rfl, rfl⟩ := Action.push.inj (haction.symm.trans h)
    exact ⟨_, _, rfl, rfl, rest⟩
  | finish h => cases haction.symm.trans h
  | pop h | popEnd h | step h => cases haction.symm.trans h

/-- A process on its own that takes an item. -/
lemma Alone.of_pop {b : β} {next : Option β → σ} (h : Alone action n s (b :: input) out unread)
    (haction : action s = .pop next) : ∃ m, n = m + 1 ∧ Alone action m (next (some b)) input out unread := by
  cases h with
  | pop h rest =>
    obtain rfl := Action.pop.inj (haction.symm.trans h)
    exact ⟨_, rfl, rest⟩
  | finish h => cases haction.symm.trans h
  | push h | step h => cases haction.symm.trans h

/-- A process on its own that sees the end. -/
lemma Alone.of_popEnd {next : Option β → σ} (h : Alone action n s [] out unread)
    (haction : action s = .pop next) : ∃ m, n = m + 1 ∧ Alone action m (next none) [] out unread := by
  cases h with
  | popEnd h rest =>
    obtain rfl := Action.pop.inj (haction.symm.trans h)
    exact ⟨_, rfl, rest⟩
  | finish h => cases haction.symm.trans h
  | push h | step h => cases haction.symm.trans h

/-- A process on its own that ends. -/
lemma Alone.of_finish (h : Alone action n s input out unread) (haction : action s = .finish) :
    n = 1 ∧ out = [] ∧ unread = input := by
  cases h with
  | finish h => exact ⟨rfl, rfl, rfl⟩
  | pop h | popEnd h | push h | step h => cases haction.symm.trans h

/-- What a process does on its own is determined by its input. -/
lemma Alone.unique {m : ℕ} {out' unread' : List β} (h : Alone action n s input out unread)
    (h' : Alone action m s input out' unread') : out' = out ∧ unread' = unread := by
  induction h generalizing m out' unread' with
  | finish h =>
    obtain ⟨-, rfl, rfl⟩ := h'.of_finish h
    exact ⟨rfl, rfl⟩
  | pop h _ ih =>
    obtain ⟨_, -, hrest⟩ := h'.of_pop h
    exact ih hrest
  | popEnd h _ ih =>
    obtain ⟨_, -, hrest⟩ := h'.of_popEnd h
    exact ih hrest
  | push h _ ih =>
    obtain ⟨_, _, -, rfl, hrest⟩ := h'.of_push h
    obtain ⟨rfl, rfl⟩ := ih hrest
    exact ⟨rfl, rfl⟩
  | step h _ ih =>
    obtain ⟨_, -, hrest⟩ := h'.of_step h
    exact ih hrest

/-- What a process leaves over is the rest of its input. -/
lemma Alone.length_unread_le (h : Alone action n s input out unread) : unread.length ≤ input.length := by
  induction h with
  | finish h => exact le_rfl
  | pop _ _ ih => exact ih.trans (Nat.le_succ _)
  | popEnd _ _ ih | push _ _ ih | step _ _ ih => exact ih

variable {τ : Type*} {f : σ → τ} {action' : τ → Action β τ}

/-- A process on its own, as part of a larger type of processes. -/
lemma Alone.map (hf : ∀ s, action' (f s) = (action s).map f) (h : Alone action n s input out unread) :
    Alone action' n (f s) input out unread := by
  induction h with
  | finish h => exact .finish (by rw [hf, h]; rfl)
  | pop h _ ih => exact .pop (by rw [hf, h]; rfl) ih
  | popEnd h _ ih => exact .popEnd (by rw [hf, h]; rfl) ih
  | push h _ ih => exact .push (by rw [hf, h]; rfl) ih
  | step h _ ih => exact .step (by rw [hf, h]; rfl) ih

/-- A process of a larger type is a process on its own. -/
lemma Alone.of_map (hf : ∀ s, action' (f s) = (action s).map f)
    (h : Alone action' n (f s) input out unread) : Alone action n s input out unread := by
  generalize ht : f s = t at h
  induction h generalizing s with
  | finish h =>
    subst ht
    rw [hf] at h
    cases haction : action s with
    | finish => exact .finish haction
    | pop next | push b next | step next =>
      rw [haction] at h
      cases h
  | pop h _ ih =>
    subst ht
    rw [hf] at h
    cases haction : action s with
    | pop next =>
      rw [haction] at h
      obtain rfl := Action.pop.inj h
      exact .pop haction (ih rfl)
    | push b next | step next | finish =>
      rw [haction] at h
      cases h
  | popEnd h _ ih =>
    subst ht
    rw [hf] at h
    cases haction : action s with
    | pop next =>
      rw [haction] at h
      obtain rfl := Action.pop.inj h
      exact .popEnd haction (ih rfl)
    | push b next | step next | finish =>
      rw [haction] at h
      cases h
  | push h _ ih =>
    subst ht
    rw [hf] at h
    cases haction : action s with
    | push b next =>
      rw [haction] at h
      obtain ⟨rfl, rfl⟩ := Action.push.inj h
      exact .push haction (ih rfl)
    | pop next | step next | finish =>
      rw [haction] at h
      cases h
  | step h _ ih =>
    subst ht
    rw [hf] at h
    cases haction : action s with
    | step next =>
      rw [haction] at h
      obtain rfl := Action.step.inj h
      exact .step haction (ih rfl)
    | pop next | push b next | finish =>
      rw [haction] at h
      cases h

end

/-! ## Queues -/

/-- A queue of at most `cap` items, which can be closed. -/
structure BoundedQueue (Q β : Type*) (cap : ℕ) where
  /-- The items, the oldest first. -/
  contents : Q → List β
  /-- Nothing more will be put in. -/
  closed : Q → Bool
  /-- The queue at the start. -/
  empty : Q
  /-- Put in an item, or wait. -/
  push : Q → β → Option Q
  /-- Take an item or see the end, or wait. -/
  pop : Q → Option (Option β × Q)
  /-- Close the queue. -/
  close : Q → Q
  contents_empty : contents empty = []
  closed_empty : closed empty = false
  length_le : ∀ q, (contents q).length ≤ cap
  push_full : ∀ q b, (contents q).length = cap → push q b = none
  push_room : ∀ q b, (contents q).length < cap →
    ∃ q', push q b = some q' ∧ contents q' = contents q ++ [b] ∧ closed q' = closed q
  pop_cons : ∀ q b rest, contents q = b :: rest →
    ∃ q', pop q = some (some b, q') ∧ contents q' = rest ∧ closed q' = closed q
  pop_closed : ∀ q, contents q = [] → closed q = true → pop q = some (none, q)
  pop_wait : ∀ q, contents q = [] → closed q = false → pop q = none
  contents_close : ∀ q, contents (close q) = contents q
  closed_close : ∀ q, closed (close q) = true

/-! ## The row -/

/-- The processes of a row, which of them have ended, the queues behind them, and the history of these. -/
structure Net (Q β σ : Type*) where
  /-- The processes. -/
  stage : ℕ → σ
  /-- The processes that have ended. -/
  ended : ℕ → Bool
  /-- The queue behind each process. -/
  queue : ℕ → Q
  /-- The items that were put into each queue. -/
  pushed : ℕ → List β
  /-- The items that were taken from each queue. -/
  popped : ℕ → List β
  /-- The queues whose end was seen. -/
  sawEnd : ℕ → Bool

namespace Net

section

variable (ops : BoundedQueue Q β cap) (action : σ → Action β σ) (last : ℕ)

/-- The process `j + 1` has taken from the queue in front of it. -/
def popStage (net : Net Q β σ) (j : ℕ) (next : Option β → σ) : Option β × Q → Net Q β σ
  | (some b, q) =>
    { net with
      stage := Function.update net.stage (j + 1) (next (some b))
      queue := Function.update net.queue j q
      popped := Function.update net.popped j (net.popped j ++ [b]) }
  | (none, q) =>
    { net with
      stage := Function.update net.stage (j + 1) (next none)
      queue := Function.update net.queue j q
      sawEnd := Function.update net.sawEnd j true }

/-- A step of the process `k`, of the processes up to `last`. -/
def step (net : Net Q β σ) (k : ℕ) : Option (Net Q β σ) :=
  if last < k ∨ net.ended k = true then none
  else
    match action (net.stage k) with
    | .step next => some { net with stage := Function.update net.stage k next }
    | .push b next =>
      if k = last then
        some
          { net with
            stage := Function.update net.stage k next
            pushed := Function.update net.pushed k (net.pushed k ++ [b]) }
      else
        (ops.push (net.queue k) b).map fun q =>
          { net with
            stage := Function.update net.stage k next
            queue := Function.update net.queue k q
            pushed := Function.update net.pushed k (net.pushed k ++ [b]) }
    | .pop next =>
      match k with
      | 0 => some { net with stage := Function.update net.stage 0 (next none) }
      | j + 1 => (ops.pop (net.queue j)).map (net.popStage j next)
    | .finish =>
      some
        { net with
          ended := Function.update net.ended k true
          queue := if k = last then net.queue else Function.update net.queue k (ops.close (net.queue k)) }

/-- All processes have ended. -/
def AllEnded (net : Net Q β σ) : Prop := ∀ k ≤ last, net.ended k = true

/-- No process can take a step. -/
def Stuck (net : Net Q β σ) : Prop := ∀ k, net.step ops action last k = none

/-- Of the lists that belong to the queues, the one that belongs to the queue in front of a process. -/
def front (lists : ℕ → List β) : ℕ → List β
  | 0 => []
  | j + 1 => lists j

/-- A process can get nothing more. -/
def atEndOf (net : Net Q β σ) : ℕ → Bool
  | 0 => true
  | j + 1 => net.sawEnd j

/-- A process that was in the state `s₀` is in the state `s` after it has taken `took` and put out `gave`;
with `noMore` it will get nothing more. -/
def Past (s₀ : σ) (took gave : List β) (noMore : Bool) (s : σ) : Prop :=
  ∀ n input out unread, (noMore = true → input = []) → Alone action n s input out unread →
    ∃ m, Alone action m s₀ (took ++ input) (gave ++ out) unread

/-- Nothing has got lost in the queues, the end of a queue was seen after everything in it, and the processes
are where what they took and put out has brought them. -/
structure Sound (start : ℕ → σ) (net : Net Q β σ) : Prop where
  closed : ∀ k < last, ops.closed (net.queue k) = net.ended k
  fifo : ∀ k < last, net.pushed k = net.popped k ++ ops.contents (net.queue k)
  seen : ∀ k < last, net.sawEnd k = true → net.ended k = true ∧ ops.contents (net.queue k) = []
  halted : ∀ k ≤ last, net.ended k = true → action (net.stage k) = .finish
  past : ∀ k ≤ last, Past action (start k) (front net.popped k) (net.pushed k) (net.atEndOf k)
    (net.stage k)

/-- Everything that one step of the process `k` can do. -/
inductive Stepped (net : Net Q β σ) (k : ℕ) : Net Q β σ → Prop
  | step {next : σ} (h : action (net.stage k) = .step next) :
      Stepped net k { net with stage := Function.update net.stage k next }
  | pushLast {b : β} {next : σ} (h : action (net.stage k) = .push b next) (hk : k = last) :
      Stepped net k
        { net with
          stage := Function.update net.stage k next
          pushed := Function.update net.pushed k (net.pushed k ++ [b]) }
  | push {b : β} {next : σ} {q : Q} (h : action (net.stage k) = .push b next) (hk : k < last)
      (hq : ops.contents q = ops.contents (net.queue k) ++ [b])
      (hc : ops.closed q = ops.closed (net.queue k)) :
      Stepped net k
        { net with
          stage := Function.update net.stage k next
          queue := Function.update net.queue k q
          pushed := Function.update net.pushed k (net.pushed k ++ [b]) }
  | popFirst {next : Option β → σ} (h : action (net.stage k) = .pop next) (hk : k = 0) :
      Stepped net k { net with stage := Function.update net.stage k (next none) }
  | pop {j : ℕ} {next : Option β → σ} {b : β} {q : Q} (h : action (net.stage k) = .pop next)
      (hk : k = j + 1) (hq : ops.contents (net.queue j) = b :: ops.contents q)
      (hc : ops.closed q = ops.closed (net.queue j)) :
      Stepped net k
        { net with
          stage := Function.update net.stage k (next (some b))
          queue := Function.update net.queue j q
          popped := Function.update net.popped j (net.popped j ++ [b]) }
  | popEnd {j : ℕ} {next : Option β → σ} (h : action (net.stage k) = .pop next) (hk : k = j + 1)
      (hq : ops.contents (net.queue j) = []) (hc : ops.closed (net.queue j) = true) :
      Stepped net k
        { net with
          stage := Function.update net.stage k (next none)
          sawEnd := Function.update net.sawEnd j true }
  | finish (h : action (net.stage k) = .finish) :
      Stepped net k
        { net with
          ended := Function.update net.ended k true
          queue := if k = last then net.queue else Function.update net.queue k (ops.close (net.queue k)) }

end

variable {ops : BoundedQueue Q β cap} {action : σ → Action β σ} {last : ℕ} {net net' : Net Q β σ} {k : ℕ}

/-- A process that takes from its queue. -/
lemma stepped_of_pop {j : ℕ} {next : Option β → σ} (h : action (net.stage (j + 1)) = .pop next)
    (hstep : (ops.pop (net.queue j)).map (net.popStage j next) = some net') :
    Stepped ops action last net (j + 1) net' := by
  obtain ⟨r, hr, rfl⟩ := Option.map_eq_some_iff.mp hstep
  cases hq : ops.contents (net.queue j) with
  | nil =>
    cases hc : ops.closed (net.queue j) with
    | false =>
      rw [ops.pop_wait _ hq hc] at hr
      cases hr
    | true =>
      rw [ops.pop_closed _ hq hc] at hr
      obtain rfl := Option.some.inj hr
      have hsame : Function.update net.queue j (net.queue j) = net.queue := Function.update_eq_self ..
      unfold popStage
      dsimp only
      rw [hsame]
      exact .popEnd h rfl hq hc
  | cons b rest =>
    obtain ⟨q, hpop, rfl, hc⟩ := ops.pop_cons _ _ _ hq
    rw [hpop] at hr
    obtain rfl := Option.some.inj hr
    exact .pop h rfl hq hc

/-- The cases of a step. -/
lemma stepped_of_step (h : net.step ops action last k = some net') :
    k ≤ last ∧ net.ended k = false ∧ Stepped ops action last net k net' := by
  unfold step at h
  by_cases hoff : last < k ∨ net.ended k = true
  · rw [if_pos hoff] at h
    cases h
  rw [if_neg hoff] at h
  obtain ⟨hk, hended⟩ := not_or.mp hoff
  refine ⟨not_lt.mp hk, Bool.not_eq_true _ ▸ hended, ?_⟩
  cases haction : action (net.stage k) with
  | step next =>
    rw [haction] at h
    cases h
    exact .step haction
  | finish =>
    rw [haction] at h
    cases h
    exact .finish haction
  | push b next =>
    rw [haction] at h
    dsimp only at h
    by_cases hlast : k = last
    · rw [if_pos hlast] at h
      cases h
      exact .pushLast haction hlast
    · rw [if_neg hlast] at h
      obtain ⟨q, hq, rfl⟩ := Option.map_eq_some_iff.mp h
      have hroom : (ops.contents (net.queue k)).length < cap := by
        refine lt_of_le_of_ne (ops.length_le _) fun hfull => ?_
        rw [ops.push_full _ _ hfull] at hq
        cases hq
      obtain ⟨q', hq', hcontents, hclosed⟩ := ops.push_room _ b hroom
      obtain rfl := Option.some.inj (hq.symm.trans hq')
      exact .push haction (lt_of_le_of_ne (not_lt.mp hk) hlast) hcontents hclosed
  | pop next =>
    rw [haction] at h
    cases k with
    | zero =>
      cases h
      exact .popFirst haction rfl
    | succ j => exact stepped_of_pop haction h

/-! ## Nothing gets lost -/

variable {start : ℕ → σ}

/-- Only the entry at `k` changes. -/
lemma update_of_ne_all {α : Type*} {f : ℕ → α} {a : α} : ∀ j ≠ k, Function.update f k a j = f j :=
  fun _ hj => Function.update_of_ne hj _ _

/-- The list in front of a process is the one of the queue before it. -/
lemma front_update_of_ne {lists : ℕ → List β} {i j : ℕ} {l : List β} (h : j ≠ i + 1) :
    front (Function.update lists i l) j = front lists j := by
  cases j with
  | zero => rfl
  | succ j => exact Function.update_of_ne (by omega) _ _

section Past

variable {n : ℕ} {s₀ s next : σ} {b : β} {took gave : List β} {noMore : Bool} {answer : Option β → σ}

/-- A process that has not taken a step. -/
lemma Past.refl : Past action s₀ [] [] noMore s₀ := fun n _ _ _ _ h => ⟨n, h⟩

/-- A process that has worked. -/
lemma Past.work (h : Past action s₀ took gave noMore s) (haction : action s = .step next) :
    Past action s₀ took gave noMore next :=
  fun _ _ _ _ hend hrest => h _ _ _ _ hend (.step haction hrest)

/-- A process that has put out an item. -/
lemma Past.push (h : Past action s₀ took gave noMore s) (haction : action s = .push b next) :
    Past action s₀ took (gave ++ [b]) noMore next := by
  intro n input out unread hend hrest
  obtain ⟨m, hm⟩ := h _ _ _ _ hend (.push haction hrest)
  refine ⟨m, ?_⟩
  rwa [List.append_assoc, List.singleton_append]

/-- A process that has taken an item. -/
lemma Past.pop (h : Past action s₀ took gave false s) (haction : action s = .pop answer) :
    Past action s₀ (took ++ [b]) gave noMore (answer (some b)) := by
  intro n input out unread _ hrest
  obtain ⟨m, hm⟩ := h _ _ _ _ (fun hfalse => absurd hfalse Bool.false_ne_true) (.pop haction hrest)
  refine ⟨m, ?_⟩
  rwa [List.append_assoc, List.singleton_append]

/-- A process that has seen the end. -/
lemma Past.popEnd (h : Past action s₀ took gave noMore s) (haction : action s = .pop answer) :
    Past action s₀ took gave true (answer none) := by
  intro n input out unread hend hrest
  obtain rfl := hend rfl
  exact h _ _ _ _ (fun _ => rfl) (.popEnd haction hrest)

end Past

/-- What holds of the other processes is kept by a step of one process. -/
lemma Sound.of_step (h : net.Sound ops action last start) (hstage : ∀ j ≠ k, net'.stage j = net.stage j)
    (hended : ∀ j ≠ k, net'.ended j = net.ended j)
    (hpast : ∀ j ≠ k, front net'.popped j = front net.popped j ∧ net'.pushed j = net.pushed j ∧
      net'.atEndOf j = net.atEndOf j)
    (hhalted : net'.ended k = true → action (net'.stage k) = .finish)
    (hpastk : k ≤ last → Past action (start k) (front net'.popped k) (net'.pushed k) (net'.atEndOf k)
      (net'.stage k))
    (hclosed : ∀ j < last, ops.closed (net'.queue j) = net'.ended j)
    (hfifo : ∀ j < last, net'.pushed j = net'.popped j ++ ops.contents (net'.queue j))
    (hseen : ∀ j < last, net'.sawEnd j = true →
      net'.ended j = true ∧ ops.contents (net'.queue j) = []) :
    net'.Sound ops action last start where
  closed := hclosed
  fifo := hfifo
  seen := hseen
  halted j hj hend := by
    by_cases hjk : j = k
    · subst hjk
      exact hhalted hend
    · rw [hended j hjk] at hend
      rw [hstage j hjk]
      exact h.halted j hj hend
  past j hj := by
    by_cases hjk : j = k
    · subst hjk
      exact hpastk hj
    · obtain ⟨hfront, hpushed, hend⟩ := hpast j hjk
      rw [hstage j hjk, hfront, hpushed, hend]
      exact h.past j hj

/-- A process works on its own, or is told that it has nothing in front of it. -/
lemma Sound.of_work {next : σ} (h : net.Sound ops action last start) (hended : net.ended k = false)
    (hpast : k ≤ last → Past action (start k) (front net.popped k) (net.pushed k) (net.atEndOf k) next) :
    ({ net with stage := Function.update net.stage k next } : Net Q β σ).Sound ops action last start := by
  refine h.of_step update_of_ne_all (fun _ _ => rfl) (fun _ _ => ⟨rfl, rfl, rfl⟩) (fun hend => ?_)
    (fun hk => ?_) h.closed h.fifo h.seen
  · exact absurd (hended.symm.trans hend) Bool.false_ne_true
  · dsimp only
    rw [Function.update_self]
    exact hpast hk

/-- The last process puts out an item. -/
lemma Sound.of_pushLast {b : β} {next : σ} (h : net.Sound ops action last start)
    (hended : net.ended last = false) (haction : action (net.stage last) = .push b next) :
    ({ net with
      stage := Function.update net.stage last next
      pushed := Function.update net.pushed last (net.pushed last ++ [b]) } : Net Q β σ).Sound ops action
      last start := by
  refine h.of_step update_of_ne_all (fun _ _ => rfl) (fun j hj => ⟨rfl, Function.update_of_ne hj _ _, rfl⟩)
    (fun hend => ?_) (fun hk => ?_) h.closed (fun j hj => ?_) h.seen
  · exact absurd (hended.symm.trans hend) Bool.false_ne_true
  · dsimp only
    rw [Function.update_self, Function.update_self]
    exact (h.past last hk).push haction
  · dsimp only
    rw [Function.update_of_ne hj.ne]
    exact h.fifo j hj

/-- A process puts an item into its queue. -/
lemma Sound.of_push {b : β} {next : σ} {q : Q} (h : net.Sound ops action last start) (hk : k < last)
    (hended : net.ended k = false) (haction : action (net.stage k) = .push b next)
    (hq : ops.contents q = ops.contents (net.queue k) ++ [b])
    (hc : ops.closed q = ops.closed (net.queue k)) :
    ({ net with
      stage := Function.update net.stage k next
      queue := Function.update net.queue k q
      pushed := Function.update net.pushed k (net.pushed k ++ [b]) } : Net Q β σ).Sound ops action
      last start := by
  refine h.of_step update_of_ne_all (fun _ _ => rfl) (fun j hj => ⟨rfl, Function.update_of_ne hj _ _, rfl⟩)
    (fun hend => ?_) (fun hk => ?_) (fun j hj => ?_) (fun j hj => ?_) (fun j hj hseen => ?_)
  · exact absurd (hended.symm.trans hend) Bool.false_ne_true
  · dsimp only
    rw [Function.update_self, Function.update_self]
    exact (h.past k hk).push haction
  all_goals
    dsimp only
    by_cases hjk : j = k
  · rw [hjk, Function.update_self, hc]
    exact h.closed k hk
  · rw [Function.update_of_ne hjk]
    exact h.closed j hj
  · rw [hjk, Function.update_self, Function.update_self, hq, h.fifo k hk, List.append_assoc]
  · rw [Function.update_of_ne hjk, Function.update_of_ne hjk]
    exact h.fifo j hj
  · subst hjk
    exact absurd (hended.symm.trans (h.seen j hj hseen).1) Bool.false_ne_true
  · rw [Function.update_of_ne hjk]
    exact h.seen j hj hseen

/-- A process takes an item. -/
lemma Sound.of_pop {j : ℕ} {next : Option β → σ} {b : β} {q : Q} (h : net.Sound ops action last start)
    (hk : j + 1 ≤ last) (hended : net.ended (j + 1) = false)
    (haction : action (net.stage (j + 1)) = .pop next)
    (hq : ops.contents (net.queue j) = b :: ops.contents q)
    (hc : ops.closed q = ops.closed (net.queue j)) :
    ({ net with
      stage := Function.update net.stage (j + 1) (next (some b))
      queue := Function.update net.queue j q
      popped := Function.update net.popped j (net.popped j ++ [b]) } : Net Q β σ).Sound ops action
      last start := by
  have hmore : net.sawEnd j = false := by
    refine Bool.eq_false_iff.mpr fun hseen => ?_
    cases hq.symm.trans (h.seen j hk hseen).2
  refine h.of_step update_of_ne_all (fun _ _ => rfl)
    (fun i hi => ⟨front_update_of_ne hi, rfl, by cases i <;> rfl⟩)
    (fun hend => ?_) (fun _ => ?_) (fun i hi => ?_) (fun i hi => ?_) (fun i hi hseen => ?_)
  · exact absurd (hended.symm.trans hend) Bool.false_ne_true
  · have hpast := h.past (j + 1) hk
    dsimp only [front, atEndOf] at hpast ⊢
    rw [hmore] at hpast
    rw [Function.update_self, Function.update_self]
    exact hpast.pop haction
  all_goals
    dsimp only
    by_cases hij : i = j
  · rw [hij, Function.update_self, hc]
    exact h.closed j hk
  · rw [Function.update_of_ne hij]
    exact h.closed i hi
  · rw [hij, Function.update_self, Function.update_self, h.fifo j hk, hq, List.append_assoc,
      List.singleton_append]
  · rw [Function.update_of_ne hij, Function.update_of_ne hij]
    exact h.fifo i hi
  · rw [hij] at hseen
    exact absurd (hmore.symm.trans hseen) Bool.false_ne_true
  · rw [Function.update_of_ne hij]
    exact h.seen i hi hseen

/-- A process sees the end. -/
lemma Sound.of_popEnd {j : ℕ} {next : Option β → σ} (h : net.Sound ops action last start)
    (hk : j + 1 ≤ last) (hended : net.ended (j + 1) = false)
    (haction : action (net.stage (j + 1)) = .pop next) (hq : ops.contents (net.queue j) = [])
    (hc : ops.closed (net.queue j) = true) :
    ({ net with
      stage := Function.update net.stage (j + 1) (next none)
      sawEnd := Function.update net.sawEnd j true } : Net Q β σ).Sound ops action last start := by
  have hend : ∀ i ≠ j + 1, atEndOf { net with
      stage := Function.update net.stage (j + 1) (next none)
      sawEnd := Function.update net.sawEnd j true } i = net.atEndOf i := by
    intro i hi
    cases i with
    | zero => rfl
    | succ i => exact Function.update_of_ne (by omega) _ _
  refine h.of_step update_of_ne_all (fun _ _ => rfl) (fun i hi => ⟨rfl, rfl, hend i hi⟩)
    (fun hdone => ?_) (fun _ => ?_) h.closed h.fifo (fun i hi hseen => ?_)
  · exact absurd (hended.symm.trans hdone) Bool.false_ne_true
  · dsimp only [front, atEndOf]
    rw [Function.update_self, Function.update_self]
    exact (h.past (j + 1) hk).popEnd haction
  · by_cases hij : i = j
    · rw [hij]
      exact ⟨(h.closed j hk).symm.trans hc, hq⟩
    · refine h.seen i hi ?_
      dsimp only at hseen
      rwa [Function.update_of_ne hij] at hseen

/-- The queues after a process has ended hold what they held. -/
lemma contents_queue_of_finish {queue : ℕ → Q}
    (hqueue : (if k = last then net.queue
      else Function.update net.queue k (ops.close (net.queue k))) = queue) (i : ℕ) :
    ops.contents (queue i) = ops.contents (net.queue i) := by
  subst hqueue
  split
  · rfl
  · by_cases hik : i = k
    · rw [hik, Function.update_self, ops.contents_close]
    · rw [Function.update_of_ne hik]

/-- A process ends. -/
lemma Sound.of_finish (h : net.Sound ops action last start) (haction : action (net.stage k) = .finish) :
    ({ net with
      ended := Function.update net.ended k true
      queue := if k = last then net.queue
        else Function.update net.queue k (ops.close (net.queue k)) } : Net Q β σ).Sound ops action
      last start := by
  generalize hqueue : (if k = last then net.queue
    else Function.update net.queue k (ops.close (net.queue k))) = queue
  have hcontents := contents_queue_of_finish hqueue
  refine h.of_step (fun _ _ => rfl) update_of_ne_all (fun _ _ => ⟨rfl, rfl, rfl⟩) (fun _ => haction)
    (fun hk => h.past k hk) (fun j hj => ?_) (fun j hj => ?_) (fun j hj hseen => ?_)
  · dsimp only
    by_cases hjk : j = k
    · subst hjk
      rw [if_neg hj.ne] at hqueue
      rw [← hqueue, Function.update_self, Function.update_self, ops.closed_close]
    · rw [Function.update_of_ne hjk, ← h.closed j hj, ← hqueue]
      split
      · rfl
      · rw [Function.update_of_ne hjk]
  · dsimp only
    rw [hcontents]
    exact h.fifo j hj
  · obtain ⟨hdone, hempty⟩ := h.seen j hj hseen
    refine ⟨?_, (hcontents j).trans hempty⟩
    dsimp only
    by_cases hjk : j = k
    · rw [hjk, Function.update_self]
    · rw [Function.update_of_ne hjk]
      exact hdone

/-- A step keeps the queues in order. -/
lemma Sound.step (h : net.Sound ops action last start) (hstep : net.step ops action last k = some net') :
    net'.Sound ops action last start := by
  obtain ⟨hk, hended, hcase⟩ := stepped_of_step hstep
  cases hcase with
  | step haction => exact h.of_work hended fun hk => (h.past k hk).work haction
  | pushLast haction hlast =>
    subst hlast
    exact h.of_pushLast hended haction
  | push haction hlt hq hc => exact h.of_push hlt hended haction hq hc
  | popFirst haction hzero =>
    subst hzero
    exact h.of_work hended fun hk => (h.past 0 hk).popEnd haction
  | pop haction hj hq hc =>
    subst hj
    exact h.of_pop hk hended haction hq hc
  | popEnd haction hj hq hc =>
    subst hj
    exact h.of_popEnd hk hended haction hq hc
  | finish haction => exact h.of_finish haction

/-- The row at the start. -/
def init (ops : BoundedQueue Q β cap) (start : ℕ → σ) : Net Q β σ where
  stage := start
  ended _ := false
  queue _ := ops.empty
  pushed _ := []
  popped _ := []
  sawEnd _ := false

/-- At the start nothing is in the queues. -/
lemma sound_init : (init ops start).Sound ops action last start where
  closed _ _ := ops.closed_empty
  fifo _ _ := by
    dsimp only [init]
    rw [ops.contents_empty, List.append_nil]
  seen _ _ h := by cases h
  halted _ _ h := by cases h
  past k _ := by
    cases k with
    | zero => exact .refl
    | succ k => exact .refl

/-- **The queues are in order**: whatever the processes do and in whatever order they take their steps, what
was taken from a queue and what is in it is what was put into it, and its end is seen after all of it. -/
theorem sound_of_reachable (h : Reachable (step ops action last) (init ops start) net) :
    net.Sound ops action last start :=
  h.invariant sound_init fun _ _ _ hsound _ hstep => hsound.step hstep

end Net

end DArc
