import DArc.Library.Network

/-!
# The ring of buffers between two threads

A queue is a ring of six slots with the place of the oldest buffer, the place behind the newest one and the
number of buffers in between.  `sqPush` waits while the ring is full and `sqPop` while it is empty and not
closed: a wait is `none`, and the thread goes on when its condition has changed.  Every change signals the
condition that the other thread of the queue may wait for, and there is only one such thread.

### Main results

* `streamQueue`: the ring is a queue of at most six buffers.
-/

namespace DArc.SolidBlock

/-- `STREAM_RING_SLOTS`. -/
def streamRingSlots : ℕ := 6

/-- `STREAM_BUF_SIZE`. -/
def streamBufSize : ℕ := 4 * 1024 * 1024

/-- `StreamBuf`: a buffer, with as many bytes as its `size` says. -/
abbrev StreamBuf := List UInt8

/-- `StreamQueue`, with its mutex held. -/
structure StreamQueue where
  /-- The slots of the ring. -/
  slots : Vector StreamBuf streamRingSlots
  /-- The slot of the oldest buffer. -/
  head : ℕ
  /-- The slot for the next buffer. -/
  tail : ℕ
  /-- The number of buffers. -/
  count : ℕ
  /-- The producer sets this after its final push. -/
  closed : Bool
  head_lt : head < streamRingSlots
  count_le : count ≤ streamRingSlots
  tail_eq : tail = (head + count) % streamRingSlots

/-- The next slot of a ring. -/
lemma mod_streamRingSlots_lt (n : ℕ) : n % streamRingSlots < streamRingSlots := Nat.mod_lt _ (by decide)

/-- The slot for the next buffer is one of the ring. -/
lemma StreamQueue.tail_lt (q : StreamQueue) : q.tail < streamRingSlots := by
  rw [q.tail_eq]
  exact mod_streamRingSlots_lt _

/-- `sq_init`. -/
def sqInit : StreamQueue where
  slots := Vector.replicate streamRingSlots []
  head := 0
  tail := 0
  count := 0
  closed := false
  head_lt := by decide
  count_le := by decide
  tail_eq := rfl

/-- `sq_push`: wait while the ring is full, then put the buffer into the next slot. -/
def sqPush (q : StreamQueue) (buf : StreamBuf) : Option StreamQueue :=
  if h : q.count = streamRingSlots then none
  else
    some
      { slots := q.slots.set q.tail buf q.tail_lt
        head := q.head
        tail := (q.tail + 1) % streamRingSlots
        count := q.count + 1
        closed := q.closed
        head_lt := q.head_lt
        count_le := lt_of_le_of_ne q.count_le h
        tail_eq := by rw [q.tail_eq, Nat.mod_add_mod, Nat.add_assoc] }

/-- `sq_close`. -/
def sqClose (q : StreamQueue) : StreamQueue := { q with closed := true }

/-- `sq_pop`: wait while the ring is empty and not closed, then take the oldest buffer; the end is a buffer
without data. -/
def sqPop (q : StreamQueue) : Option (Option StreamBuf × StreamQueue) :=
  if h : q.count = 0 then
    if q.closed = true then some (none, q) else none
  else
    some (some (q.slots.get ⟨q.head, q.head_lt⟩),
      { slots := q.slots
        head := (q.head + 1) % streamRingSlots
        tail := q.tail
        count := q.count - 1
        closed := q.closed
        head_lt := mod_streamRingSlots_lt _
        count_le := (Nat.sub_le _ _).trans q.count_le
        tail_eq := by
          rw [q.tail_eq, Nat.mod_add_mod]
          congr 1
          omega })

/-- The buffers of a queue, the oldest first. -/
def StreamQueue.contents (q : StreamQueue) : List StreamBuf :=
  (List.range q.count).map fun i => q.slots.get ⟨(q.head + i) % streamRingSlots, mod_streamRingSlots_lt _⟩

/-- A queue has as many buffers as it counts. -/
@[simp] lemma StreamQueue.length_contents (q : StreamQueue) : q.contents.length = q.count := by
  rw [StreamQueue.contents, List.length_map, List.length_range]

/-- Different places of a ring. -/
lemma mod_streamRingSlots_ne {h i n : ℕ} (hi : i < n) (hn : n < streamRingSlots) :
    (h + n) % streamRingSlots ≠ (h + i) % streamRingSlots := by
  unfold streamRingSlots at *
  omega

variable {q : StreamQueue} {buf : StreamBuf}

/-- A full ring. -/
lemma sqPush_full (h : q.count = streamRingSlots) : sqPush q buf = none := dif_pos h

/-- A ring with room gets the buffer behind its other ones. -/
lemma sqPush_room (h : q.count < streamRingSlots) :
    ∃ q', sqPush q buf = some q' ∧ q'.contents = q.contents ++ [buf] ∧ q'.closed = q.closed := by
  refine ⟨_, dif_neg h.ne, ?_, rfl⟩
  unfold StreamQueue.contents
  dsimp only
  rw [List.range_succ, List.map_append, List.map_singleton]
  congr 1
  · refine List.map_congr_left fun i hi => ?_
    have hne : q.tail ≠ (q.head + i) % streamRingSlots := by
      rw [q.tail_eq]
      exact mod_streamRingSlots_ne (List.mem_range.mp hi) h
    exact Vector.getElem_set_ne _ _ hne
  · rw [List.singleton_inj]
    exact (Vector.getElem_set _ _).trans (if_pos q.tail_eq)

/-- The oldest buffer, and the others. -/
lemma contents_eq_cons (h : q.count ≠ 0) :
    q.contents = q.slots.get ⟨q.head, q.head_lt⟩ ::
      (List.range (q.count - 1)).map fun i =>
        q.slots.get ⟨((q.head + 1) % streamRingSlots + i) % streamRingSlots, mod_streamRingSlots_lt _⟩ := by
  obtain ⟨n, hn⟩ := Nat.exists_eq_succ_of_ne_zero h
  unfold StreamQueue.contents
  rw [hn, List.range_succ_eq_map, List.map_cons, List.map_map]
  congr 1
  · congr 2
    exact Nat.mod_eq_of_lt q.head_lt
  · refine List.map_congr_left fun i _ => ?_
    dsimp only [Function.comp]
    congr 2
    rw [Nat.mod_add_mod, Nat.succ_eq_add_one, Nat.add_assoc, Nat.add_comm 1 i]

/-- A ring with buffers gives its oldest one. -/
lemma sqPop_cons {rest : List StreamBuf} (h : q.contents = buf :: rest) :
    ∃ q', sqPop q = some (some buf, q') ∧ q'.contents = rest ∧ q'.closed = q.closed := by
  have hcount : q.count ≠ 0 := by
    rw [← q.length_contents, h]
    exact Nat.succ_ne_zero _
  obtain ⟨rfl, hrest⟩ := List.cons.inj ((contents_eq_cons hcount).symm.trans h)
  exact ⟨_, dif_neg hcount, hrest, rfl⟩

/-- An empty ring has no buffers. -/
lemma count_eq_zero (h : q.contents = []) : q.count = 0 := by
  rw [← q.length_contents, h]
  rfl

/-- **The ring is a queue** of at most six buffers. -/
def streamQueue : BoundedQueue StreamQueue StreamBuf streamRingSlots where
  contents := StreamQueue.contents
  closed := StreamQueue.closed
  empty := sqInit
  push := sqPush
  pop := sqPop
  close := sqClose
  contents_empty := rfl
  closed_empty := rfl
  length_le q := q.length_contents.trans_le q.count_le
  push_full q _ h := sqPush_full (q.length_contents.symm.trans h)
  push_room q _ h := sqPush_room (q.length_contents.symm.trans_lt h)
  pop_cons _ _ _ h := sqPop_cons h
  pop_closed _ h hc := (dif_pos (count_eq_zero h)).trans (if_pos hc)
  pop_wait _ h hc := (dif_pos (count_eq_zero h)).trans (if_neg (Bool.eq_false_iff.mp hc))
  contents_close _ := rfl
  closed_close _ := rfl

end DArc.SolidBlock
