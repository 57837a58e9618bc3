import DArc.Library.Runs

/-!
# The allocator of a circular buffer

`allocator` hands out blocks of a buffer, one after another and each at an aligned address; the blocks
are shortened when they have been filled, sent on, and come back in the order in which they were handed
out.  `memoryAllocator` adds the address of the buffer.

### Outline

* `available`, `waitReleasingMemory`, `getBlock` and `shrinkBlock`: the functions of the allocator;
* `Cache`: an allocator with the blocks that are in use, that were sent on and that came back;
* `Layout`: where the blocks lie that did not come back yet, the invariant of the allocator.

### Main results

* `memoryAllocator_correct`: in every run the internal error is not reached, the block in use lies in
  the buffer and does not overlap the blocks that were sent on, and a block is handed out at once when
  all of them came back.
-/

namespace DArc.Utils

/-! ## The allocator -/

/-- The parameters of `allocator`. -/
structure Heap where
  /-- The size of the buffer. -/
  heapsize : Int
  /-- `aBUFFER_SIZE`, the size of a block that is handed out. -/
  bufferSize : Int
  /-- `aALIGN`, of which every address is a multiple. -/
  alignment : Int
  /-- A block is not empty. -/
  bufferSize_pos : 0 < bufferSize
  /-- There is place for a block. -/
  bufferSize_le : bufferSize ≤ heapsize
  /-- The alignment is positive. -/
  alignment_pos : 0 < alignment

/-- The references `start` and `end`; `start` is undefined until a block is shortened. -/
structure Pointers where
  /-- `start`: where the free space begins. -/
  start : Option Int
  /-- `end`: where the free space ends. -/
  finish : Int

/-- `aHEAP_START`. -/
def heapStart : Int := 0

namespace Heap

variable (h : Heap)

/-- `aHEAP_END`. -/
def heapEnd : Int := h.heapsize

/-- `align`. -/
def align (n : Int) : Int := ((n - 1) / h.alignment + 1) * h.alignment

/-- `nextAvail`. -/
def nextAvail (n : Int) : Int :=
  if h.heapEnd - h.align n < h.bufferSize then h.heapEnd else h.align n

/-- `available`; `none` stands for an undefined `start`. -/
def available (p : Pointers) : Option (Pointers × Int) := do
  let astart ← p.start
  let aend := p.finish
  if astart ≤ aend then return (p, aend - astart)
  else if astart < h.heapEnd then return (p, h.heapEnd - astart)
  else
    -- The free space goes on at the beginning of the buffer, where the function is called again.
    let p := { p with start := some heapStart }
    return (p, if heapStart ≤ aend then aend - heapStart else h.heapEnd - heapStart)

/-- `waitReleasingMemory`, when the block that comes back is known; `none` stands for the internal
error. -/
def waitReleasingMemory (p : Pointers) (addr size : Int) : Option Pointers := do
  let astart ← p.start
  let aend := p.finish
  if addr = aend ∨ addr = heapStart ∧ h.heapEnd - aend < h.bufferSize then
    let newEnd := h.nextAvail (addr + size)
    return if newEnd = astart then { start := some heapStart, finish := h.heapEnd }
      else { p with finish := newEnd }
  else none

/-- `shrinkBlock`. -/
def shrinkBlock (p : Pointers) (block size : Int) : Option Pointers :=
  if size ≤ h.bufferSize then some { p with start := some (h.nextAvail (block + size)) } else none

end Heap

/-- What a call of `getBlock` leads to. -/
inductive GetBlock (β : Type) where
  /-- A block is handed out; some of what came back was not looked at. -/
  | granted (block : Int) (p : Pointers) (returned : List β)
  /-- The call waits until another block comes back. -/
  | waits (p : Pointers)
  /-- The call ends with an error. -/
  | fails

/-- `getBlock`, where `returnBlock` makes an address and a size of what came back. -/
def Heap.getBlock {β : Type} (h : Heap) (returnBlock : β → Int × Int) :
    List β → Pointers → GetBlock β
  | returned, p =>
    match h.available p with
    | none => .fails
    | some (p, avail) =>
      if h.bufferSize ≤ avail then
        match p.start with
        | none => .fails
        | some block => .granted block { p with start := none } returned
      else
        match returned with
        | [] => .waits p
        | b :: returned =>
          match h.waitReleasingMemory p (returnBlock b).1 (returnBlock b).2 with
          | none => .fails
          | some p => Heap.getBlock h returnBlock returned p

/-- `returnBlock2` of `memoryAllocator`, for a buffer at the address `heap`. -/
def returnBlock2 (heap : Int) (b : Int × Int) : Int × Int := (b.1 - heap, b.2)

/-! ## A cache -/

/-- An allocator and its blocks. -/
structure Cache where
  /-- The references of the allocator. -/
  pointers : Pointers
  /-- The block that was handed out and is not shortened yet. -/
  inUse : Option Int
  /-- The blocks that were sent on, with their sizes, in the order in which they were sent. -/
  sent : List (Int × Int)
  /-- The blocks that came back and that the allocator did not look at yet. -/
  returned : List (Int × Int)
  /-- Whether a call ended with an error. -/
  failed : Bool

/-- What happens to a cache. -/
inductive Action where
  /-- A block is asked for, or the call that waits goes on. -/
  | getBlock
  /-- The block is shortened to `size` bytes and sent on if it is not empty. -/
  | shrinkBlock (size : Int)
  /-- The block that was sent on first comes back. -/
  | returnBlock

/-- The cache at the beginning. -/
def Heap.newCache (h : Heap) : Cache :=
  { pointers := { start := some heapStart, finish := h.heapEnd }, inUse := none, sent := [],
    returned := [], failed := false }

/-- A step of the cache whose buffer is at the address `heap`: a block is asked for when none is in
use, and a block in use is shortened to a size between `0` and the size of a block. -/
def Heap.step (h : Heap) (heap : Int) (c : Cache) : Action → Option Cache
  | .getBlock =>
    if c.failed ∨ c.inUse ≠ none then none
    else
      match h.getBlock (returnBlock2 heap) c.returned c.pointers with
      | .granted block p returned =>
        some { c with pointers := p, inUse := some (heap + block), returned := returned }
      | .waits p => some { c with pointers := p, returned := [] }
      | .fails => some { c with failed := true }
  | .shrinkBlock size =>
    match c.inUse with
    | none => none
    | some buf =>
      if c.failed ∨ size < 0 ∨ h.bufferSize < size then none
      else
        match h.shrinkBlock c.pointers (buf - heap) size with
        | none => some { c with failed := true }
        | some p =>
          some { c with pointers := p, inUse := none,
                        sent := if 0 < size then c.sent ++ [(buf, size)] else c.sent }
  | .returnBlock =>
    match c.sent with
    | [] => none
    | b :: sent => if c.failed then none else some { c with sent := sent, returned := c.returned ++ [b] }

/-! ## Addresses -/

namespace Heap

variable {h : Heap}

/-- An address where the free space may begin: the end of the buffer, or the aligned address of a block
that lies in the buffer. -/
def Place (h : Heap) (a : Int) : Prop :=
  a = h.heapEnd ∨ h.alignment ∣ a ∧ 0 ≤ a ∧ a + h.bufferSize ≤ h.heapEnd

/-- There is place for a block in an empty buffer. -/
lemma bufferSize_le_heapEnd : h.bufferSize ≤ h.heapEnd := h.bufferSize_le

/-- The beginning of the buffer is such an address. -/
lemma place_heapStart : h.Place heapStart :=
  Or.inr ⟨dvd_zero _, le_refl _, by
    have hle := h.bufferSize_le_heapEnd
    unfold heapStart
    omega⟩

/-- `align` is the least multiple of the alignment that is not smaller. -/
lemma align_spec (n : Int) : h.alignment ∣ h.align n ∧ n ≤ h.align n ∧
    ∀ m, n ≤ m → h.alignment ∣ m → h.align n ≤ m := by
  have hpos := h.alignment_pos
  have hdiv := Int.emod_add_mul_ediv (n - 1) h.alignment
  have hlt := Int.emod_lt_of_pos (n - 1) hpos
  have hnonneg := Int.emod_nonneg (n - 1) hpos.ne'
  have halign : h.align n = h.alignment * ((n - 1) / h.alignment) + h.alignment := by
    unfold align
    ring
  refine ⟨⟨(n - 1) / h.alignment + 1, by rw [halign]; ring⟩, by omega, ?_⟩
  rintro m hm ⟨k, rfl⟩
  have hk : (n - 1) / h.alignment < k := by
    by_contra hcon
    have hmul := Int.mul_le_mul_of_nonneg_left (not_lt.mp hcon) hpos.le
    omega
  have hmul := Int.mul_le_mul_of_nonneg_left (Int.add_one_le_of_lt hk) hpos.le
  rw [mul_add, mul_one] at hmul
  rw [halign]
  exact hmul

/-- `nextAvail` leads to such an address, which is not smaller. -/
lemma nextAvail_place {n : Int} (h₀ : 0 ≤ n) (hn : n ≤ h.heapEnd) :
    h.Place (h.nextAvail n) ∧ n ≤ h.nextAvail n := by
  obtain ⟨hdvd, hle, -⟩ := h.align_spec n
  unfold nextAvail
  split
  · exact ⟨Or.inl rfl, hn⟩
  · exact ⟨Or.inr ⟨hdvd, by omega, by omega⟩, hle⟩

/-- `nextAvail` does not pass such an address. -/
lemma nextAvail_le {n a : Int} (ha : h.Place a) (hn : n ≤ a) : h.nextAvail n ≤ a := by
  obtain ⟨-, -, hleast⟩ := h.align_spec n
  unfold nextAvail
  rcases ha with rfl | ⟨hdvd, -, hroom⟩
  · have hpos := h.bufferSize_pos
    split
    · exact le_refl _
    · omega
  · have hle := hleast a hn hdvd
    rw [if_neg (by omega)]
    exact hle

/-! ## The blocks in the buffer -/

/-- Blocks one behind another from the address `a`; the address behind them is `b`. -/
def Chain (h : Heap) (a : Int) : List (Int × Int) → Int → Prop
  | [], b => a = b
  | (addr, size) :: q, b => addr = a ∧ (h.alignment ∣ a ∧ 0 ≤ a ∧ a + h.bufferSize ≤ h.heapEnd) ∧
      0 < size ∧ size ≤ h.bufferSize ∧ h.Chain (h.nextAvail (a + size)) q b

/-- A chain begins and ends at addresses where the free space may begin. -/
lemma Chain.place {a b : Int} {q : List (Int × Int)} (hq : h.Chain a q b) (ha : h.Place a) :
    h.Place b := by
  induction q generalizing a with
  | nil => exact hq ▸ ha
  | cons x q ih =>
    obtain ⟨-, ⟨-, hnonneg, hroom⟩, hpos, hsize, hrest⟩ := hq
    exact ih hrest (nextAvail_place (by omega) (by omega)).1

/-- The blocks of a chain lie between its ends. -/
lemma Chain.bounds {a b : Int} {q : List (Int × Int)} (hq : h.Chain a q b) :
    a ≤ b ∧ (q ≠ [] → a < b) ∧ ∀ x ∈ q, a ≤ x.1 ∧ x.1 + x.2 ≤ b := by
  induction q generalizing a with
  | nil => exact ⟨le_of_eq hq, fun hne => absurd rfl hne, fun x hx => absurd hx List.not_mem_nil⟩
  | cons x q ih =>
    obtain ⟨addr, size⟩ := x
    obtain ⟨rfl, ⟨-, hnonneg, hroom⟩, hpos, hsize, hrest⟩ := hq
    obtain ⟨hle, -, hall⟩ := ih hrest
    have hnext := (h.nextAvail_place (n := addr + size) (by omega) (by omega)).2
    refine ⟨by omega, fun _ => by omega, fun y hy => ?_⟩
    rcases List.mem_cons.mp hy with rfl | hy
    · exact ⟨le_refl _, by dsimp only; omega⟩
    · obtain ⟨hlow, hhigh⟩ := hall y hy
      exact ⟨by omega, hhigh⟩

/-- A block behind a chain. -/
lemma Chain.concat {a b size : Int} {q : List (Int × Int)} (hq : h.Chain a q b)
    (hb : h.alignment ∣ b ∧ 0 ≤ b ∧ b + h.bufferSize ≤ h.heapEnd) (hpos : 0 < size)
    (hsize : size ≤ h.bufferSize) : h.Chain a (q ++ [(b, size)]) (h.nextAvail (b + size)) := by
  induction q generalizing a with
  | nil =>
    obtain rfl : a = b := hq
    exact ⟨rfl, hb, hpos, hsize, rfl⟩
  | cons x q ih =>
    obtain ⟨addr, size'⟩ := x
    obtain ⟨haddr, ha, hpos', hsize', hrest⟩ := hq
    exact ⟨haddr, ha, hpos', hsize', ih hrest⟩

/-- Where the blocks lie that did not come back, when the free space begins at `start` and ends at
`finish`: between `finish` and `start`, or from `finish` to the end of the buffer and from its beginning
to `start`. -/
inductive Layout (h : Heap) (start finish : Int) (q : List (Int × Int)) : Prop
  | between (ne : q ≠ []) (chain : h.Chain finish q start)
  | around (high low : List (Int × Int)) (eq : q = high ++ low)
      (upper : h.Chain finish high h.heapEnd) (lower : h.Chain heapStart low start)
      (le : start ≤ finish)

/-- There is place for a block at the address. -/
structure Room (h : Heap) (start finish : Int) : Prop where
  /-- The address is aligned, and the block would lie in the buffer. -/
  inside : h.alignment ∣ start ∧ 0 ≤ start ∧ start + h.bufferSize ≤ h.heapEnd
  /-- The block would end before the free space does. -/
  before : start ≤ finish → start + h.bufferSize ≤ finish

variable {start finish : Int} {q : List (Int × Int)}

/-- A chain that is not empty begins at the address of a block. -/
lemma Chain.place_first {a b : Int} (hq : h.Chain a q b) (hne : q ≠ []) : h.Place a := by
  cases q with
  | nil => exact absurd rfl hne
  | cons x q => exact Or.inr hq.2.1

/-- Both ends of the free space are addresses where a block may begin, or the end of the buffer. -/
lemma Layout.places (hq : h.Layout start finish q) : h.Place start ∧ h.Place finish := by
  cases hq with
  | between ne chain =>
    have hfinish := chain.place_first ne
    exact ⟨chain.place hfinish, hfinish⟩
  | around high low eq upper lower le =>
    refine ⟨lower.place place_heapStart, ?_⟩
    cases high with
    | nil => exact Or.inl upper
    | cons x high => exact upper.place_first (List.cons_ne_nil x high)

/-- In an empty buffer everything is free. -/
lemma Layout.empty : h.Layout heapStart h.heapEnd [] :=
  .around [] [] rfl rfl rfl (by
    have hle := h.bufferSize_le_heapEnd
    have hpos := h.bufferSize_pos
    unfold heapStart
    omega)

/-- Nothing overlaps a block that is handed out. -/
lemma Layout.disjoint (hq : h.Layout start finish q) (hroom : h.Room start finish) :
    ∀ x ∈ q, x.1 + x.2 ≤ start ∨ start + h.bufferSize ≤ x.1 := by
  intro x hx
  cases hq with
  | between ne chain => exact Or.inl ((chain.bounds.2.2 x hx).2)
  | around high low eq upper lower le =>
    have hbefore := hroom.before le
    rw [eq] at hx
    rcases List.mem_append.mp hx with hx | hx
    · have hlow := (upper.bounds.2.2 x hx).1
      exact Or.inr (by omega)
    · exact Or.inl ((lower.bounds.2.2 x hx).2)

/-- A block that is shortened and sent on is behind the others. -/
lemma Layout.concat {size : Int} (hq : h.Layout start finish q) (hroom : h.Room start finish)
    (hpos : 0 < size) (hsize : size ≤ h.bufferSize) :
    h.Layout (h.nextAvail (start + size)) finish (q ++ [(start, size)]) := by
  have hfinish := hq.places.2
  cases hq with
  | between ne chain => exact .between (by simp) (chain.concat hroom.inside hpos hsize)
  | around high low eq upper lower le =>
    have hbefore := hroom.before le
    exact .around high (low ++ [(start, size)]) (by rw [eq, List.append_assoc]) upper
      (lower.concat hroom.inside hpos hsize) (nextAvail_le hfinish (by omega))

/-- A block that is shortened to nothing leaves the free space as it was. -/
lemma nextAvail_start (hroom : h.Room start finish) : h.nextAvail (start + 0) = start := by
  have hinside := hroom.inside
  rw [add_zero]
  exact le_antisymm (nextAvail_le (Or.inr hinside) (le_refl _))
    (nextAvail_place hinside.2.1 (by have hpos := h.bufferSize_pos; omega)).2

/-! ## The functions -/

/-- `available` finds a beginning of the free space with as much place as it says. -/
lemma available_eq (hq : h.Layout start finish q) :
    ∃ start' avail, h.available ⟨some start, finish⟩ = some (⟨some start', finish⟩, avail) ∧
      h.Layout start' finish q ∧ (h.bufferSize ≤ avail → h.Room start' finish) ∧
      (q = [] → h.bufferSize ≤ avail) := by
  have hle := h.bufferSize_le_heapEnd
  have hpos := h.bufferSize_pos
  have hinside : ∀ {a : Int}, h.Place a → a < h.heapEnd →
      h.alignment ∣ a ∧ 0 ≤ a ∧ a + h.bufferSize ≤ h.heapEnd := fun ha hlt =>
    ha.resolve_left hlt.ne
  obtain ⟨hstart, hfinish⟩ := hq.places
  unfold available
  by_cases hsf : start ≤ finish
  · refine ⟨start, finish - start, if_pos hsf, hq, fun havail => ⟨?_, fun _ => by omega⟩, ?_⟩
    · have hend : finish ≤ h.heapEnd := by
        rcases hfinish with hfinish | ⟨-, -, hroom⟩ <;> omega
      exact hinside hstart (by omega)
    · rintro rfl
      cases hq with
      | between ne chain => exact absurd rfl ne
      | around high low eq upper lower le =>
        obtain ⟨rfl, rfl⟩ := List.append_eq_nil_iff.mp eq.symm
        have hfin : finish = h.heapEnd := upper
        have hsta : heapStart = start := lower
        unfold heapStart at hsta
        omega
  · cases hq with
    | around high low eq upper lower le => exact absurd le hsf
    | between ne chain =>
      by_cases hse : start < h.heapEnd
      · have hroom := hinside hstart hse
        refine ⟨start, h.heapEnd - start, (if_neg hsf).trans (if_pos hse), .between ne chain,
          fun _ => ⟨hroom, fun hcon => absurd hcon hsf⟩, fun hnil => absurd hnil ne⟩
      · -- The blocks reach the end of the buffer, and the free space goes on at its beginning.
        have hend : start = h.heapEnd := by
          rcases hstart with hstart | ⟨-, -, hroom⟩ <;> omega
        have hnonneg : heapStart ≤ finish := by
          unfold heapStart
          rcases hfinish with hfinish | ⟨-, hfinish, -⟩ <;> omega
        rw [hend] at chain
        refine ⟨heapStart, finish - heapStart,
          (if_neg hsf).trans ((if_neg hse).trans (by rw [if_pos hnonneg]; rfl)),
          .around q [] (List.append_nil q).symm chain rfl hnonneg,
          fun havail => ⟨hinside place_heapStart ?_, fun _ => by omega⟩, fun hnil => absurd hnil ne⟩
        unfold heapStart
        omega

/-- The block that comes back first is the one that `waitReleasingMemory` expects, and its place
becomes free. -/
lemma waitReleasingMemory_eq {addr size : Int} (hq : h.Layout start finish ((addr, size) :: q)) :
    ∃ start' finish', h.waitReleasingMemory ⟨some start, finish⟩ addr size =
        some ⟨some start', finish'⟩ ∧ h.Layout start' finish' q := by
  have hpos := h.bufferSize_pos
  -- Behind the block is the beginning of the free space only if it was the last one.
  have hfree : ∀ {a : Int}, h.Chain a q start → (a = start ↔ q = []) := fun {a} hchain =>
    ⟨fun ha => by
      by_contra hne
      exact absurd ha (hchain.bounds.2.1 hne).ne, fun hnil => by rw [hnil] at hchain; exact hchain⟩
  cases hq with
  | between ne chain =>
    obtain ⟨rfl, -, -, -, hrest⟩ := chain
    by_cases hnil : h.nextAvail (addr + size) = start
    · refine ⟨heapStart, h.heapEnd, (if_pos (Or.inl rfl)).trans (congrArg some (if_pos hnil)), ?_⟩
      rw [(hfree hrest).mp hnil]
      exact .empty
    · exact ⟨start, _, (if_pos (Or.inl rfl)).trans (congrArg some (if_neg hnil)),
        .between (fun h => hnil ((hfree hrest).mpr h)) hrest⟩
  | around high low eq upper lower le =>
    cases high with
    | nil =>
      -- The upper part is empty, and the block is the first one of the lower part.
      rw [List.nil_append] at eq
      subst eq
      obtain rfl : finish = h.heapEnd := upper
      obtain ⟨rfl, -, -, -, hrest⟩ := lower
      have hcheck : heapStart = h.heapEnd ∨
          heapStart = heapStart ∧ h.heapEnd - h.heapEnd < h.bufferSize := Or.inr ⟨rfl, by omega⟩
      by_cases hnil : h.nextAvail (heapStart + size) = start
      · refine ⟨heapStart, h.heapEnd, (if_pos hcheck).trans (congrArg some (if_pos hnil)), ?_⟩
        rw [(hfree hrest).mp hnil]
        exact .empty
      · exact ⟨start, _, (if_pos hcheck).trans (congrArg some (if_neg hnil)),
          .between (fun h => hnil ((hfree hrest).mpr h)) hrest⟩
    | cons x high =>
      obtain ⟨rfl, rfl⟩ := List.cons.inj eq
      obtain ⟨rfl, hinside, hsize, hsize', hrest⟩ := upper
      have hnext := (h.nextAvail_place (n := addr + size) (by omega) (by omega)).2
      have hne : h.nextAvail (addr + size) ≠ start := by omega
      exact ⟨start, _, (if_pos (Or.inl rfl)).trans (congrArg some (if_neg hne)),
        .around high low rfl hrest lower (by omega)⟩

/-- What `getBlock` may lead to, when the blocks `sent` did not come back yet. -/
def Correct {β : Type} (h : Heap) (returnBlock : β → Int × Int) (sent : List β) :
    GetBlock β → Prop
  | .granted block p returned => p.start = none ∧ h.Room block p.finish ∧
      h.Layout block p.finish ((returned ++ sent).map returnBlock)
  | .waits p => sent ≠ [] ∧ ∃ start, p.start = some start ∧
      h.Layout start p.finish (sent.map returnBlock)
  | .fails => False

/-- **`getBlock`**: it does not fail, and it waits only if there are blocks that did not come back. -/
theorem getBlock_correct {β : Type} {returnBlock : β → Int × Int} {sent returned : List β}
    (hq : h.Layout start finish ((returned ++ sent).map returnBlock)) :
    h.Correct returnBlock sent (h.getBlock returnBlock returned ⟨some start, finish⟩) := by
  induction returned generalizing start finish with
  | nil =>
    obtain ⟨start', avail, havail, hq, hroom, hnil⟩ := available_eq hq
    unfold getBlock
    rw [havail]
    dsimp only
    by_cases hsize : h.bufferSize ≤ avail
    · rw [if_pos hsize]
      exact ⟨rfl, hroom hsize, hq⟩
    · rw [if_neg hsize]
      refine ⟨?_, start', rfl, hq⟩
      rintro rfl
      exact hsize (hnil rfl)
  | cons b returned ih =>
    obtain ⟨start', avail, havail, hq, hroom, -⟩ := available_eq hq
    unfold getBlock
    rw [havail]
    dsimp only
    by_cases hsize : h.bufferSize ≤ avail
    · rw [if_pos hsize]
      exact ⟨rfl, hroom hsize, hq⟩
    · rw [if_neg hsize]
      obtain ⟨start'', finish'', hrelease, hq⟩ := waitReleasingMemory_eq hq
      rw [hrelease]
      exact ih hq

/-! ## Runs -/

/-- The blocks of a cache that did not come back to its allocator, with their addresses in the
buffer. -/
def outstanding (heap : Int) (c : Cache) : List (Int × Int) :=
  (c.returned ++ c.sent).map (returnBlock2 heap)

/-- The invariant of a cache: no call failed, and the blocks lie in the buffer as they should. -/
structure CacheInvariant (h : Heap) (heap : Int) (c : Cache) : Prop where
  /-- No call ended with an error. -/
  noError : c.failed = false
  /-- When no block is in use, the free space begins at `start`. -/
  idle : c.inUse = none → ∃ start, c.pointers.start = some start ∧
    h.Layout start c.pointers.finish (outstanding heap c)
  /-- Otherwise it begins at the block, for which there is place. -/
  busy : ∀ buf ∈ c.inUse, h.Room (buf - heap) c.pointers.finish ∧
    h.Layout (buf - heap) c.pointers.finish (outstanding heap c)

/-- The invariant holds at the beginning. -/
lemma cacheInvariant_new (heap : Int) : h.CacheInvariant heap h.newCache where
  noError := rfl
  idle _ := ⟨heapStart, rfl, .empty⟩
  busy buf hbuf := by cases hbuf

/-- A shortened block, as the layout has it. -/
lemma Layout.shrink {buf size heap : Int} {c : Cache} (hbusy : h.Layout (buf - heap) finish
    (outstanding heap c)) (hroom : h.Room (buf - heap) finish) (h₀ : 0 ≤ size)
    (hsize : size ≤ h.bufferSize) :
    h.Layout (h.nextAvail (buf - heap + size)) finish ((c.returned ++
      if 0 < size then c.sent ++ [(buf, size)] else c.sent).map (returnBlock2 heap)) := by
  by_cases hpos : 0 < size
  · have hconcat := hbusy.concat hroom hpos hsize
    rw [if_pos hpos, ← List.append_assoc, List.map_append]
    exact hconcat
  · obtain rfl : size = 0 := by omega
    rw [if_neg hpos, nextAvail_start hroom]
    exact hbusy

/-- Every step keeps the invariant. -/
lemma cacheInvariant_step {heap : Int} {c d : Cache} {a : Action} (hc : h.CacheInvariant heap c)
    (hstep : h.step heap c a = some d) : h.CacheInvariant heap d := by
  cases a with
  | getBlock =>
    unfold step at hstep
    dsimp only at hstep
    split at hstep
    · cases hstep
    · next hidle =>
      have hnone : c.inUse = none := by
        by_contra hcon
        exact hidle (Or.inr hcon)
      obtain ⟨start, hstart, hq⟩ := hc.idle hnone
      have hpointers : c.pointers = ⟨some start, c.pointers.finish⟩ := by rw [← hstart]
      have hcorrect := getBlock_correct hq
      rw [← hpointers] at hcorrect
      split at hstep
      · next block p returned hget =>
        obtain rfl := Option.some.inj hstep
        rw [hget] at hcorrect
        obtain ⟨-, hroom, hq⟩ := hcorrect
        refine ⟨hc.noError, fun hcon => (by cases hcon), fun buf hbuf => ?_⟩
        obtain rfl := Option.some.inj hbuf
        have hblock : heap + block - heap = block := by omega
        rw [hblock]
        exact ⟨hroom, hq⟩
      · next p hget =>
        obtain rfl := Option.some.inj hstep
        rw [hget] at hcorrect
        obtain ⟨-, start', hstart', hq⟩ := hcorrect
        exact ⟨hc.noError, fun _ => ⟨start', hstart', hq⟩, fun buf hbuf => by
          rw [Option.mem_def, hnone] at hbuf
          cases hbuf⟩
      · next hget =>
        rw [hget] at hcorrect
        exact hcorrect.elim
  | shrinkBlock size =>
    unfold step at hstep
    dsimp only at hstep
    split at hstep
    · cases hstep
    · next buf hbuf =>
      split at hstep
      · cases hstep
      · next hok =>
        push Not at hok
        obtain ⟨-, h₀, hsize⟩ := hok
        obtain ⟨hroom, hq⟩ := hc.busy buf hbuf
        have hshrink : h.shrinkBlock c.pointers (buf - heap) size =
            some { c.pointers with start := some (h.nextAvail (buf - heap + size)) } := if_pos hsize
        rw [hshrink] at hstep
        obtain rfl := Option.some.inj hstep
        exact ⟨hc.noError, fun _ => ⟨_, rfl, hq.shrink hroom h₀ hsize⟩, fun buf hbuf => by cases hbuf⟩
  | returnBlock =>
    unfold step at hstep
    dsimp only at hstep
    split at hstep
    · cases hstep
    · next b sent hsent =>
      split at hstep
      · cases hstep
      · obtain rfl := Option.some.inj hstep
        have hsame : outstanding heap { c with sent := sent, returned := c.returned ++ [b] } =
            outstanding heap c := by
          unfold outstanding
          rw [hsent, List.append_assoc, List.singleton_append]
        exact ⟨hc.noError, fun hnone => hsame ▸ hc.idle hnone, fun buf hbuf => hsame ▸ hc.busy buf hbuf⟩

end Heap

/-- **The allocator is correct**: in every state of every run no call has failed; a block in use lies in
the buffer and overlaps none of the blocks that were handed out before and did not come back to the
allocator; and when all of them came back, `getBlock` hands out a block without waiting. -/
theorem memoryAllocator_correct (h : Heap) (heap : Int) (c : Cache)
    (hrun : Reachable (h.step heap) h.newCache c) :
    c.failed = false ∧
    (∀ buf ∈ c.inUse, heap ≤ buf ∧ buf + h.bufferSize ≤ heap + h.heapsize ∧
      ∀ x ∈ c.returned ++ c.sent, x.1 + x.2 ≤ buf ∨ buf + h.bufferSize ≤ x.1) ∧
    (c.inUse = none → c.sent = [] → ∃ block p returned,
      h.getBlock (returnBlock2 heap) c.returned c.pointers = .granted block p returned) := by
  have hc : h.CacheInvariant heap c :=
    hrun.invariant (h.cacheInvariant_new heap) fun _ _ _ hc _ hstep => Heap.cacheInvariant_step hc hstep
  refine ⟨hc.noError, fun buf hbuf => ?_, fun hnone hsent => ?_⟩
  · obtain ⟨hroom, hq⟩ := hc.busy buf hbuf
    obtain ⟨-, hnonneg, hend⟩ := hroom.inside
    unfold Heap.heapEnd at hend
    refine ⟨by omega, by omega, fun x hx => ?_⟩
    have hdisjoint := hq.disjoint hroom _ (List.mem_map_of_mem (f := returnBlock2 heap) hx)
    unfold returnBlock2 at hdisjoint
    dsimp only at hdisjoint
    omega
  · obtain ⟨start, hstart, hq⟩ := hc.idle hnone
    have hpointers : c.pointers = ⟨some start, c.pointers.finish⟩ := by rw [← hstart]
    unfold Heap.outstanding at hq
    rw [hsent] at hq
    have hcorrect := Heap.getBlock_correct hq
    rw [← hpointers] at hcorrect
    cases hget : h.getBlock (returnBlock2 heap) c.returned c.pointers with
    | granted block p returned => exact ⟨block, p, returned, rfl⟩
    | waits p =>
      rw [hget] at hcorrect
      exact absurd rfl hcorrect.1
    | fails =>
      rw [hget] at hcorrect
      exact hcorrect.elim

/-- A buffer for two blocks of 256 bytes. -/
def twoBlocks : Heap :=
  { heapsize := 512, bufferSize := 256, alignment := 256, bufferSize_pos := by decide,
    bufferSize_le := by decide, alignment_pos := by decide }

/-- Two blocks are filled and sent on, and when the first one came back its place is handed out again,
although the second one did not come back. -/
theorem memoryAllocator_correct_twoBlocks :
    ∃ c, perform (twoBlocks.step 1000) [.getBlock, .shrinkBlock 100, .getBlock, .shrinkBlock 256,
        .returnBlock, .getBlock] twoBlocks.newCache = some c ∧
      c.inUse = some 1000 ∧ c.sent = [(1256, 256)] ∧ c.failed = false ∧
      ∀ x ∈ c.returned ++ c.sent, x.1 + x.2 ≤ 1000 ∨ 1000 + twoBlocks.bufferSize ≤ x.1 := by
  have hperform : perform (twoBlocks.step 1000) [.getBlock, .shrinkBlock 100, .getBlock,
      .shrinkBlock 256, .returnBlock, .getBlock] twoBlocks.newCache =
      some ⟨⟨none, 256⟩, some 1000, [(1256, 256)], [], false⟩ := rfl
  obtain ⟨-, hbusy, -⟩ := memoryAllocator_correct twoBlocks 1000 _ (RunFrom.of_perform hperform)
  exact ⟨_, hperform, rfl, rfl, rfl, (hbusy 1000 rfl).2.2⟩

end DArc.Utils
