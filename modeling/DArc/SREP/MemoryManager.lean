import DArc.Library.LinkedNodes
import DArc.Library.Spans

/-!
# The memory manager of the decompressor

Match data that is needed later is saved in chunks of fixed size.  The chunks of one saved area form a list, and so
do the free chunks; the successor of a chunk is stored in the chunk itself.  Chunk 0 is never used.

`Live mm areas` says which areas are saved: the lists of their chunks and of the free chunks share no chunk, and the
chunks of an area hold its bytes.

### Outline

* the functions of the manager;
* `Core`, what holds of the free and the used chunks, and what allocating and releasing one chunk do to it;
* areas and their chunks.

### Main results

* `live_save`: saving adds one area and leaves the others alone;
* `live_restore`: restoring an area gives exactly the saved bytes;
* `live_free`: freeing an area releases exactly its chunks.
-/

namespace DArc.SREP

/-! ## The manager -/

/-- The bytes of a chunk behind the number of the next one. -/
def usefulChunkSpace : ℕ := 60

/-- The number of chunks that are allocated at a time. -/
def chunksPerBlock : ℕ := 16384

/-- The chunks: the successor and the data part of each, and the head of the list of the free ones.  The number 0
is no index of a chunk and ends a list. -/
structure MemoryManager where
  next : ℕ → ℕ
  chunk : ℕ → List UInt8
  blocks : ℕ
  firstFree : ℕ
  usedChunks : ℕ
  usefulMemory : ℕ

namespace MemoryManager

/-- A manager with nothing allocated and the given amount of memory. -/
def init (usefulMemory : ℕ) : MemoryManager := ⟨fun _ => 0, fun _ => [], 0, 0, 0, usefulMemory⟩

/-- Sets the successor of a chunk. -/
def setNextIndex (mm : MemoryManager) (index nextIndex : ℕ) : MemoryManager :=
  { mm with next := Function.update mm.next index nextIndex }

/-- Allocates one more block of chunks and puts them in front of the free ones. -/
def allocateBlock (mm : MemoryManager) : MemoryManager :=
  let first := mm.blocks * chunksPerBlock
  let last := (mm.blocks + 1) * chunksPerBlock - 1
  { mm with
    next := fun i => if first ≤ i ∧ i < last then i + 1 else if i = last then mm.firstFree else mm.next i
    blocks := mm.blocks + 1
    firstFree := if first = 0 then first + 1 else first }

/-- Takes the first free chunk. -/
def takeFirst (mm : MemoryManager) : ℕ × MemoryManager :=
  (mm.firstFree, { mm with firstFree := mm.next mm.firstFree, usedChunks := mm.usedChunks + 1 })

/-- Allocates one chunk. -/
def allocate (mm : MemoryManager) : ℕ × MemoryManager :=
  if mm.firstFree = 0 then mm.allocateBlock.takeFirst else mm.takeFirst

/-- Releases one chunk. -/
def markAsFree (mm : MemoryManager) (index : ℕ) : MemoryManager :=
  { mm.setNextIndex index mm.firstFree with firstFree := index, usedChunks := mm.usedChunks - 1 }

/-- Writes bytes to the data part of a chunk. -/
def writeChunk (mm : MemoryManager) (index : ℕ) (bytes : List UInt8) : MemoryManager :=
  { mm with chunk := Function.update mm.chunk index (bytes ++ (mm.chunk index).drop bytes.length) }

/-- The loop of `save`: chunk after chunk, each linked to the one in front of it. -/
def saveLoop (mm : MemoryManager) (prevIndex firstIndex : ℕ) (ptr : List UInt8) : MemoryManager × ℕ × ℕ :=
  if ptr.isEmpty then (mm, prevIndex, firstIndex)
  else
    let (index, mm) := mm.allocate
    let linked := if prevIndex ≠ 0 then (mm.setNextIndex prevIndex index, firstIndex) else (mm, index)
    saveLoop (linked.1.writeChunk index (ptr.take usefulChunkSpace)) index linked.2 (ptr.drop usefulChunkSpace)
termination_by ptr.length
decreasing_by
  rename_i hne
  have hpos : 0 < ptr.length := List.length_pos_iff.mpr (by simpa using hne)
  rw [List.length_drop]
  unfold usefulChunkSpace
  omega

/-- Saves bytes and returns the index of their first chunk. -/
def save (mm : MemoryManager) (ptr : List UInt8) : ℕ × MemoryManager :=
  let (mm, index, firstIndex) := mm.saveLoop 0 0 ptr
  (firstIndex, mm.setNextIndex index 0)

/-- The loop of `restore`; every turn restores at least one byte. -/
def restoreLoop (mm : MemoryManager) : ℕ → ℕ → ℕ → List UInt8
  | 0, _, _ => []
  | fuel + 1, index, len =>
    if len = 0 then []
    else
      let bytes := min len usefulChunkSpace
      (mm.chunk index).take bytes ++ restoreLoop mm fuel (mm.next index) (len - bytes)

/-- Restores `len` saved bytes. -/
def restore (mm : MemoryManager) (index len : ℕ) : List UInt8 := mm.restoreLoop len index len

/-- The loop of `free`; a list of more chunks than there are never ends. -/
def freeLoop : ℕ → MemoryManager → ℕ → MemoryManager
  | 0, mm, _ => mm
  | fuel + 1, mm, index =>
    if index = 0 then mm else freeLoop fuel (mm.markAsFree index) (mm.next index)

/-- Frees the chunks of a saved area. -/
def free (mm : MemoryManager) (index : ℕ) : MemoryManager :=
  freeLoop (mm.blocks * chunksPerBlock) mm index

/-- The bytes that can still be saved. -/
def availableSpace (mm : MemoryManager) : ℕ := mm.usefulMemory - mm.usedChunks * usefulChunkSpace

end MemoryManager

/-! ## Free and used chunks -/

/-- The free chunks form a list and share no chunk with the used ones. -/
structure Core (mm : MemoryManager) (free used : List ℕ) : Prop where
  path : Path mm.next mm.firstFree free 0
  nodup : (free ++ used).Nodup
  used_ne : ∀ c ∈ used, c ≠ 0
  lt : ∀ c ∈ free ++ used, c < mm.blocks * chunksPerBlock
  count : mm.usedChunks = used.length

variable {mm : MemoryManager} {free used : List ℕ} {c p : ℕ} {bytes : List UInt8}

/-- The order of the used chunks does not matter. -/
lemma Core.perm {used' : List ℕ} (h : Core mm free used) (hperm : used.Perm used') : Core mm free used' where
  path := h.path
  nodup := ((List.Perm.append_left free hperm).nodup_iff).mp h.nodup
  used_ne := fun c hc => h.used_ne c (hperm.mem_iff.mpr hc)
  lt := fun c hc => h.lt c ((List.Perm.append_left free hperm).mem_iff.mpr hc)
  count := h.count.trans hperm.length_eq

/-- A used chunk is not free. -/
lemma Core.notMem_free (h : Core mm free used) (hc : c ∈ used) : c ∉ free := fun hfree =>
  List.disjoint_of_nodup_append h.nodup hfree hc

/-- Setting the successor of a used chunk changes nothing about which chunks are free. -/
lemma Core.setNextIndex (h : Core mm free used) (hc : c ∈ used) (n : ℕ) : Core (mm.setNextIndex c n) free used :=
  ⟨h.path.update (h.notMem_free hc) n, h.nodup, h.used_ne, h.lt, h.count⟩

/-- Writing to a chunk changes nothing about which chunks are free. -/
lemma Core.writeChunk (h : Core mm free used) (c : ℕ) (bytes : List UInt8) :
    Core (mm.writeChunk c bytes) free used := ⟨h.path, h.nodup, h.used_ne, h.lt, h.count⟩

/-- A manager with nothing allocated. -/
lemma core_init (n : ℕ) : Core (MemoryManager.init n) [] [] where
  path := rfl
  nodup := List.nodup_nil
  used_ne := by
    intro c hc
    cases hc
  lt := by
    intro c hc
    cases hc
  count := rfl

/-- A new block of chunks is free. -/
lemma Core.allocateBlock (h : Core mm free used) (hfirst : mm.firstFree = 0) :
    ∃ free', free' ≠ [] ∧ Core mm.allocateBlock free' used := by
  have hfree : free = [] := by
    cases free with
    | nil => rfl
    | cons c free => exact absurd (h.path.1.symm.trans hfirst) h.path.2.1
  subst hfree
  have hK : 3 ≤ chunksPerBlock := by unfold chunksPerBlock; omega
  have hnext : (mm.blocks + 1) * chunksPerBlock = mm.blocks * chunksPerBlock + chunksPerBlock := Nat.succ_mul _ _
  -- the first chunk of the first block is never used
  have hmem : ∃ first, mm.allocateBlock.firstFree = first ∧ first ≠ 0 ∧ mm.blocks * chunksPerBlock ≤ first ∧
      first < (mm.blocks + 1) * chunksPerBlock - 1 := by
    have hvalue : mm.allocateBlock.firstFree =
        if mm.blocks * chunksPerBlock = 0 then mm.blocks * chunksPerBlock + 1 else mm.blocks * chunksPerBlock := rfl
    by_cases hzero : mm.blocks * chunksPerBlock = 0
    · exact ⟨mm.blocks * chunksPerBlock + 1, hvalue.trans (if_pos hzero), by omega, by omega, by omega⟩
    · exact ⟨mm.blocks * chunksPerBlock, hvalue.trans (if_neg hzero), hzero, le_rfl, by omega⟩
  obtain ⟨first, hfirst', hne, hle, hlt⟩ := hmem
  have hnodes : first + ((mm.blocks + 1) * chunksPerBlock - 1 - first) = (mm.blocks + 1) * chunksPerBlock - 1 := by
    omega
  have hfront : Path mm.allocateBlock.next first (List.range' first ((mm.blocks + 1) * chunksPerBlock - 1 - first))
      (first + ((mm.blocks + 1) * chunksPerBlock - 1 - first)) := by
    apply Path.range' hne
    intro k hk
    exact if_pos ⟨by omega, by omega⟩
  have hlast : mm.allocateBlock.next (first + ((mm.blocks + 1) * chunksPerBlock - 1 - first)) = 0 := by
    rw [hnodes, ← hfirst]
    unfold MemoryManager.allocateBlock
    dsimp only
    rw [if_neg (by omega), if_pos rfl]
  have hback : Path mm.allocateBlock.next (first + ((mm.blocks + 1) * chunksPerBlock - 1 - first))
      [first + ((mm.blocks + 1) * chunksPerBlock - 1 - first)] 0 := ⟨rfl, by omega, hlast⟩
  have hpath := hfront.append hback
  rw [← List.range'_1_concat] at hpath
  have hblocks : mm.allocateBlock.blocks = mm.blocks + 1 := rfl
  rw [← hfirst'] at hpath
  refine ⟨List.range' mm.allocateBlock.firstFree _, ?_, hpath, ?_, h.used_ne, ?_, h.count⟩
  · rw [Ne, List.range'_eq_nil_iff]
    omega
  · rw [List.nodup_append]
    refine ⟨List.nodup_range', h.nodup, ?_⟩
    rintro c hnew c' hold rfl
    have hc := h.lt c (by simpa using hold)
    rw [List.mem_range'_1] at hnew
    omega
  · intro c hc
    rw [hblocks]
    rcases List.mem_append.mp hc with hc | hc
    · rw [List.mem_range'_1] at hc
      omega
    · have hc' := h.lt c (by simpa using hc)
      omega

/-- Taking the first free chunk. -/
lemma Core.takeFirst (h : Core mm free used) (hne : free ≠ []) :
    ∃ free', mm.takeFirst.1 ∉ used ∧ Core mm.takeFirst.2 free' (mm.takeFirst.1 :: used) := by
  cases free with
  | nil => exact absurd rfl hne
  | cons c free =>
    obtain ⟨hc, hne, hpath⟩ := h.path
    have hnodup := h.nodup
    rw [List.cons_append, List.nodup_cons] at hnodup
    refine ⟨free, ?_, ?_⟩
    · change mm.firstFree ∉ used
      rw [hc]
      exact fun hmem => hnodup.1 (List.mem_append_right _ hmem)
    · have hperm : (free ++ mm.firstFree :: used).Perm (c :: free ++ used) := by
        rw [hc]
        exact List.perm_middle
      refine ⟨?_, (hperm.nodup_iff).mpr h.nodup, ?_, fun c' hc' => h.lt c' (hperm.mem_iff.mp hc'), ?_⟩
      · change Path mm.next (mm.next mm.firstFree) free 0
        rw [hc]
        exact hpath
      · intro c' hc'
        rcases List.mem_cons.mp hc' with rfl | hc'
        · change mm.firstFree ≠ 0
          rw [hc]
          exact hne
        · exact h.used_ne c' hc'
      · change mm.usedChunks + 1 = _
        rw [h.count]
        rfl

/-- **Allocating a chunk** takes one that is not in use and leaves the used chunks as they are. -/
theorem Core.allocate (h : Core mm free used) :
    ∃ free', mm.allocate.1 ∉ used ∧ Core mm.allocate.2 free' (mm.allocate.1 :: used) ∧
      (∀ c ∈ used, mm.allocate.2.next c = mm.next c) ∧ mm.allocate.2.chunk = mm.chunk ∧
      mm.allocate.2.usefulMemory = mm.usefulMemory := by
  unfold MemoryManager.allocate
  by_cases hfirst : mm.firstFree = 0
  · rw [if_pos hfirst]
    obtain ⟨free', hne, hcore⟩ := h.allocateBlock hfirst
    obtain ⟨free'', hfresh, hcore'⟩ := hcore.takeFirst hne
    refine ⟨free'', hfresh, hcore', ?_, rfl, rfl⟩
    intro c hc
    have hlt := h.lt c (List.mem_append_right _ hc)
    have hnext : (mm.blocks + 1) * chunksPerBlock = mm.blocks * chunksPerBlock + chunksPerBlock :=
      Nat.succ_mul _ _
    have hK : 2 ≤ chunksPerBlock := by unfold chunksPerBlock; omega
    change (if _ then _ else if _ then _ else mm.next c) = mm.next c
    rw [if_neg (by omega), if_neg (by omega)]
  · rw [if_neg hfirst]
    have hne : free ≠ [] := by
      rintro rfl
      exact hfirst h.path
    obtain ⟨free', hfresh, hcore⟩ := h.takeFirst hne
    exact ⟨free', hfresh, hcore, fun _ _ => rfl, rfl, rfl⟩

/-- **Releasing a chunk** puts it in front of the free ones. -/
theorem Core.markAsFree (h : Core mm free (c :: used)) : Core (mm.markAsFree c) (c :: free) used where
  path := by
    refine ⟨rfl, h.used_ne c List.mem_cons_self, ?_⟩
    have hfree := h.path.update (h.notMem_free List.mem_cons_self) mm.firstFree
    change Path (Function.update mm.next c mm.firstFree) (Function.update mm.next c mm.firstFree c) free 0
    rw [Function.update_self]
    exact hfree
  nodup := (List.perm_middle.nodup_iff).mp h.nodup
  used_ne := fun c' hc' => h.used_ne c' (List.mem_cons_of_mem _ hc')
  lt := fun c' hc' => h.lt c' (List.perm_middle.mem_iff.mpr hc')
  count := by
    change mm.usedChunks - 1 = used.length
    rw [h.count]
    rfl

/-! ## Saved areas -/

/-- The chunks hold the bytes, one piece after the other. -/
def Stored (chunk : ℕ → List UInt8) : List ℕ → List UInt8 → Prop
  | [], bytes => bytes = []
  | c :: cs, bytes =>
    bytes ≠ [] ∧ (chunk c).take (min bytes.length usefulChunkSpace) = bytes.take usefulChunkSpace ∧
      Stored chunk cs (bytes.drop usefulChunkSpace)

/-- What is stored depends only on the chunks it is stored in. -/
lemma Stored.congr {chunk chunk' : ℕ → List UInt8} {cs : List ℕ} (h : Stored chunk cs bytes)
    (heq : ∀ c ∈ cs, chunk' c = chunk c) : Stored chunk' cs bytes := by
  induction cs generalizing bytes with
  | nil => exact h
  | cons c cs ih =>
    refine ⟨h.1, ?_, ih h.2.2 fun c' hc' => heq c' (List.mem_cons_of_mem _ hc')⟩
    rw [heq c List.mem_cons_self]
    exact h.2.1

/-- The number of chunks for some bytes. -/
def chunksFor (len : ℕ) : ℕ := (len + (usefulChunkSpace - 1)) / usefulChunkSpace

/-- The bytes are in as many chunks as they need. -/
lemma Stored.length {chunk : ℕ → List UInt8} {cs : List ℕ} (h : Stored chunk cs bytes) :
    cs.length = chunksFor bytes.length := by
  unfold chunksFor usefulChunkSpace
  induction cs generalizing bytes with
  | nil =>
    have hnil : bytes = [] := h
    rw [hnil]
    rfl
  | cons c cs ih =>
    have hpos : 0 < bytes.length := List.length_pos_iff.mpr h.1
    have hrest := ih h.2.2
    rw [List.length_drop] at hrest
    unfold usefulChunkSpace at hrest
    rw [List.length_cons, hrest]
    omega

/-- A saved area: its index, its bytes and its chunks. -/
structure Area where
  index : ℕ
  bytes : List UInt8
  chunks : List ℕ

/-- The chunks of the area are linked and hold its bytes. -/
structure Area.In (a : Area) (mm : MemoryManager) : Prop where
  path : Path mm.next a.index a.chunks 0
  stored : Stored mm.chunk a.chunks a.bytes

/-- An area stays when its chunks do not change. -/
lemma Area.In.congr {a : Area} {mm' : MemoryManager} (h : a.In mm) (hnext : ∀ c ∈ a.chunks, mm'.next c = mm.next c)
    (hchunk : ∀ c ∈ a.chunks, mm'.chunk c = mm.chunk c) : a.In mm' :=
  ⟨h.path.congr hnext, h.stored.congr hchunk⟩

/-- What the rest of a save does: the chunk `p` is continued by chunks for the remaining bytes, and no other used
chunk changes. -/
structure Continued (mm mm' : MemoryManager) (used : List ℕ) (p : ℕ) (bytes : List UInt8) (free cs : List ℕ) :
    Prop where
  core : Core mm' free (cs ++ used)
  path : Path mm'.next p (p :: cs) 0
  stored : Stored mm'.chunk cs bytes
  next_eq : ∀ c ∈ used, c ≠ p → mm'.next c = mm.next c
  chunk_eq : ∀ c ∈ used, mm'.chunk c = mm.chunk c
  memory : mm'.usefulMemory = mm.usefulMemory

/-- The loop of a save and the end mark behind it. -/
def finishSave (mm : MemoryManager) (p first : ℕ) (bytes : List UInt8) : MemoryManager :=
  (mm.saveLoop p first bytes).1.setNextIndex (mm.saveLoop p first bytes).2.1 0

/-- The loop of a save goes on behind the chunk it has just written. -/
lemma saveLoop_of_ne (mm : MemoryManager) (h : bytes ≠ []) (hp : p ≠ 0) (first : ℕ) :
    mm.saveLoop p first bytes =
      ((mm.allocate.2.setNextIndex p mm.allocate.1).writeChunk mm.allocate.1
        (bytes.take usefulChunkSpace)).saveLoop mm.allocate.1 first (bytes.drop usefulChunkSpace) := by
  rw [MemoryManager.saveLoop, if_neg (by simpa using h)]
  dsimp only
  rw [if_pos hp]

/-- A save of no more bytes only sets the end mark. -/
lemma continued_nil (hnil : bytes = []) (h : Core mm free used) (hp : p ∈ used) (first : ℕ) :
    ∃ free' cs, Continued mm (finishSave mm p first bytes) used p bytes free' cs ∧
      (mm.saveLoop p first bytes).2.2 = first := by
  have hloop : mm.saveLoop p first bytes = (mm, p, first) := by
    rw [MemoryManager.saveLoop, hnil, if_pos List.isEmpty_nil]
  have hdone : finishSave mm p first bytes = mm.setNextIndex p 0 := by rw [finishSave, hloop]
  refine ⟨free, [], ?_, by rw [hloop]⟩
  rw [hdone]
  refine ⟨h.setNextIndex hp 0, ⟨rfl, h.used_ne p hp, ?_⟩, hnil, ?_, fun c _ => rfl, rfl⟩
  · exact Function.update_self p 0 mm.next
  · intro c hc hne
    exact Function.update_of_ne hne 0 mm.next

/-- The chunk that a turn of the loop has filled. -/
lemma writeChunk_take (c : ℕ) :
    ((mm.writeChunk c (bytes.take usefulChunkSpace)).chunk c).take (min bytes.length usefulChunkSpace) =
      bytes.take usefulChunkSpace := by
  have hlen : (bytes.take usefulChunkSpace).length = min bytes.length usefulChunkSpace := by
    rw [List.length_take, min_comm]
  change (Function.update mm.chunk c _ c).take _ = _
  rw [Function.update_self, ← hlen, List.take_left]

/-- **The rest of a save continues the list of chunks.** -/
theorem continued_finishSave (n : ℕ) (hn : bytes.length ≤ n) (h : Core mm free used) (hp : p ∈ used) (first : ℕ) :
    ∃ free' cs, Continued mm (finishSave mm p first bytes) used p bytes free' cs ∧
      (mm.saveLoop p first bytes).2.2 = first := by
  induction n generalizing mm free used p bytes with
  | zero =>
    have hnil : bytes = [] := List.length_eq_zero_iff.mp (Nat.le_zero.mp hn)
    exact continued_nil hnil h hp first
  | succ n ih =>
    by_cases hnil : bytes = []
    · exact continued_nil hnil h hp first
    · obtain ⟨free₁, hfresh, hcore, hnext, hchunk, hmemory⟩ := h.allocate
      have hpne := h.used_ne p hp
      have hq : p ≠ mm.allocate.1 := by
        rintro heq
        exact hfresh (heq ▸ hp)
      have hcore₂ := (hcore.setNextIndex (List.mem_cons_of_mem _ hp) mm.allocate.1).writeChunk mm.allocate.1
        (bytes.take usefulChunkSpace)
      have hpos : 0 < bytes.length := List.length_pos_iff.mpr hnil
      have hshort : (bytes.drop usefulChunkSpace).length ≤ n := by
        rw [List.length_drop]
        unfold usefulChunkSpace
        omega
      obtain ⟨free', cs, hcont, hfirst⟩ := ih hshort hcore₂ List.mem_cons_self
      have hloop := saveLoop_of_ne mm hnil hpne first
      refine ⟨free', mm.allocate.1 :: cs, ?_, by rw [hloop, hfirst]⟩
      rw [finishSave, hloop, ← finishSave]
      refine ⟨hcont.core.perm ?_, ?_, ⟨hnil, ?_, hcont.stored⟩, ?_, ?_, hcont.memory.trans hmemory⟩
      · rw [List.cons_append]
        exact List.perm_middle
      · -- the chunk in front now leads to the new one
        refine ⟨rfl, hpne, ?_⟩
        rw [hcont.next_eq p (List.mem_cons_of_mem _ hp) hq]
        change Path _ (Function.update mm.allocate.2.next p mm.allocate.1 p) _ 0
        rw [Function.update_self]
        exact hcont.path
      · rw [hcont.chunk_eq _ List.mem_cons_self]
        exact writeChunk_take _
      · intro c hc hcp
        have hcq : c ≠ mm.allocate.1 := by
          rintro rfl
          exact hfresh hc
        rw [hcont.next_eq c (List.mem_cons_of_mem _ hc) hcq]
        change Function.update mm.allocate.2.next p mm.allocate.1 c = _
        rw [Function.update_of_ne hcp, hnext c hc]
      · intro c hc
        have hcq : c ≠ mm.allocate.1 := by
          rintro rfl
          exact hfresh hc
        rw [hcont.chunk_eq c (List.mem_cons_of_mem _ hc)]
        change Function.update mm.allocate.2.chunk mm.allocate.1 _ c = _
        rw [Function.update_of_ne hcq, hchunk]

/-! ## Saving, restoring and freeing areas -/

/-- The areas are saved: their chunks and the free ones are all different. -/
def Holds (mm : MemoryManager) (areas : List Area) : Prop :=
  ∃ free, Core mm free (areas.flatMap Area.chunks) ∧ ∀ a ∈ areas, a.In mm

/-- Exactly the given areas are saved, each an index and the bytes saved under it. -/
def Live (mm : MemoryManager) (saved : List (ℕ × List UInt8)) : Prop :=
  ∃ areas, Holds mm areas ∧ (areas.map fun a => (a.index, a.bytes)).Perm saved

variable {saved saved' : List (ℕ × List UInt8)} {i : ℕ}

/-- The order in which areas were saved does not matter. -/
lemma Live.perm (h : Live mm saved) (hperm : saved.Perm saved') : Live mm saved' := by
  obtain ⟨areas, hholds, hareas⟩ := h
  exact ⟨areas, hholds, hareas.trans hperm⟩

/-- At first nothing is saved. -/
lemma live_init (n : ℕ) : Live (MemoryManager.init n) [] := by
  refine ⟨[], ⟨[], core_init n, ?_⟩, List.Perm.refl _⟩
  intro a ha
  cases ha

/-- The chunks in use are the ones the saved areas need. -/
lemma Live.usedChunks_eq (h : Live mm saved) :
    mm.usedChunks = (saved.map fun a => chunksFor a.2.length).sum := by
  obtain ⟨areas, ⟨free, hcore, hin⟩, hperm⟩ := h
  have hsum := (hperm.map fun a => chunksFor a.2.length).sum_eq
  rw [hcore.count, List.length_flatMap, ← hsum, List.map_map]
  congr 1
  apply List.map_congr_left
  intro a ha
  exact (hin a ha).stored.length

/-- The areas with one of them in front. -/
lemma Live.exists_cons (h : Live mm ((i, bytes) :: saved)) :
    ∃ a areas, a.index = i ∧ a.bytes = bytes ∧ Holds mm (a :: areas) ∧
      (areas.map fun a => (a.index, a.bytes)).Perm saved := by
  obtain ⟨areas, ⟨free, hcore, hin⟩, hperm⟩ := h
  obtain ⟨a, ha, hkey⟩ := List.mem_map.mp (hperm.mem_iff.mpr List.mem_cons_self)
  obtain ⟨before, after, rfl⟩ := List.append_of_mem ha
  have hmiddle : (before ++ a :: after).Perm (a :: (before ++ after)) := List.perm_middle
  have hrest := (hmiddle.map fun a => (a.index, a.bytes)).symm.trans hperm
  rw [List.map_cons, hkey] at hrest
  obtain ⟨hi, hbytes⟩ := Prod.mk.inj hkey
  refine ⟨a, before ++ after, hi, hbytes, ⟨free, hcore.perm (hmiddle.flatMap_right _), ?_⟩,
    (List.perm_cons _).mp hrest⟩
  intro a' ha'
  exact hin a' (hmiddle.mem_iff.mpr ha')

/-! ### Save -/

/-- The first turn of a save, and the rest. -/
lemma save_eq (h : bytes ≠ []) :
    mm.save bytes =
      ((((mm.allocate.2.writeChunk mm.allocate.1 (bytes.take usefulChunkSpace)).saveLoop mm.allocate.1
          mm.allocate.1 (bytes.drop usefulChunkSpace)).2.2),
        finishSave (mm.allocate.2.writeChunk mm.allocate.1 (bytes.take usefulChunkSpace)) mm.allocate.1
          mm.allocate.1 (bytes.drop usefulChunkSpace)) := by
  rw [MemoryManager.save, MemoryManager.saveLoop, if_neg (by simpa using h)]
  rfl

/-- **Saving adds one area and leaves the others alone.** -/
theorem live_save (h : Live mm saved) (hbytes : bytes ≠ []) :
    (mm.save bytes).1 ≠ 0 ∧ Live (mm.save bytes).2 (((mm.save bytes).1, bytes) :: saved) ∧
      (mm.save bytes).2.usefulMemory = mm.usefulMemory := by
  obtain ⟨areas, ⟨free, hcore, hin⟩, hperm⟩ := h
  obtain ⟨free₁, hfresh, hcore₁, hnext, hchunk, hmemory⟩ := hcore.allocate
  have hcore₂ := hcore₁.writeChunk mm.allocate.1 (bytes.take usefulChunkSpace)
  obtain ⟨free', cs, hcont, hfirst⟩ := continued_finishSave (bytes.drop usefulChunkSpace).length le_rfl hcore₂
    List.mem_cons_self mm.allocate.1
  rw [save_eq hbytes, hfirst]
  refine ⟨hcore₁.used_ne _ List.mem_cons_self, ?_, hcont.memory.trans hmemory⟩
  have hne : ∀ c ∈ areas.flatMap Area.chunks, c ≠ mm.allocate.1 := by
    rintro c hc rfl
    exact hfresh hc
  refine ⟨⟨mm.allocate.1, bytes, mm.allocate.1 :: cs⟩ :: areas, ⟨free', ?_, ?_⟩, hperm.cons _⟩
  · rw [List.flatMap_cons]
    apply hcont.core.perm
    rw [List.cons_append]
    exact List.perm_middle
  · intro a ha
    rcases List.mem_cons.mp ha with rfl | ha
    · refine ⟨hcont.path, hbytes, ?_, hcont.stored⟩
      rw [hcont.chunk_eq _ List.mem_cons_self]
      exact writeChunk_take _
    · have hmem : ∀ c ∈ a.chunks, c ∈ areas.flatMap Area.chunks := fun c hc => List.mem_flatMap.mpr ⟨a, ha, hc⟩
      apply (hin a ha).congr
      · intro c hc
        rw [hcont.next_eq c (List.mem_cons_of_mem _ (hmem c hc)) (hne c (hmem c hc))]
        exact hnext c (hmem c hc)
      · intro c hc
        rw [hcont.chunk_eq c (List.mem_cons_of_mem _ (hmem c hc))]
        change Function.update mm.allocate.2.chunk mm.allocate.1 _ c = _
        rw [Function.update_of_ne (hne c (hmem c hc)), hchunk]

/-! ### Restore -/

/-- Following the chunks of an area gives its bytes. -/
lemma restoreLoop_eq {cs : List ℕ} (fuel : ℕ) (hfuel : bytes.length ≤ fuel) (hpath : Path mm.next i cs 0)
    (hstored : Stored mm.chunk cs bytes) : mm.restoreLoop fuel i bytes.length = bytes := by
  induction cs generalizing fuel i bytes with
  | nil =>
    have hnil : bytes = [] := hstored
    rw [hnil]
    cases fuel <;> rfl
  | cons c cs ih =>
    obtain ⟨hne, hpiece, hrest⟩ := hstored
    have hpos : 0 < bytes.length := List.length_pos_iff.mpr hne
    obtain ⟨fuel, rfl⟩ : ∃ k, fuel = k + 1 := ⟨fuel - 1, by omega⟩
    have hdrop : bytes.length - min bytes.length usefulChunkSpace = (bytes.drop usefulChunkSpace).length := by
      rw [List.length_drop]
      omega
    have hshort : (bytes.drop usefulChunkSpace).length ≤ fuel := by
      rw [List.length_drop]
      unfold usefulChunkSpace
      omega
    rw [MemoryManager.restoreLoop, if_neg hpos.ne']
    dsimp only
    rw [hdrop, hpath.1, hpiece, ih fuel hshort hpath.2.2 hrest, List.take_append_drop]

/-- **Restoring an area gives exactly the saved bytes.** -/
theorem live_restore (h : Live mm saved) (hmem : (i, bytes) ∈ saved) : mm.restore i bytes.length = bytes := by
  obtain ⟨areas, ⟨free, hcore, hin⟩, hperm⟩ := h
  obtain ⟨a, ha, hkey⟩ := List.mem_map.mp (hperm.mem_iff.mpr hmem)
  obtain ⟨rfl, rfl⟩ := Prod.mk.inj hkey
  exact restoreLoop_eq _ le_rfl (hin a ha).path (hin a ha).stored

/-! ### Free -/

/-- Freeing a list of chunks releases exactly them. -/
lemma freeLoop_spec {cs : List ℕ} (fuel : ℕ) (hfuel : cs.length ≤ fuel) (hpath : Path mm.next i cs 0)
    (h : Core mm free (cs ++ used)) :
    ∃ free', Core (MemoryManager.freeLoop fuel mm i) free' used ∧
      (∀ c ∈ used, (MemoryManager.freeLoop fuel mm i).next c = mm.next c) ∧
      (MemoryManager.freeLoop fuel mm i).chunk = mm.chunk ∧
      (MemoryManager.freeLoop fuel mm i).usefulMemory = mm.usefulMemory := by
  induction cs generalizing fuel mm free i with
  | nil =>
    have hi : i = 0 := hpath
    have hdone : MemoryManager.freeLoop fuel mm i = mm := by
      rw [hi]
      cases fuel <;> rfl
    rw [hdone]
    exact ⟨free, h, fun _ _ => rfl, rfl, rfl⟩
  | cons c cs ih =>
    obtain ⟨fuel, rfl⟩ : ∃ k, fuel = k + 1 := by
      rw [List.length_cons] at hfuel
      exact ⟨fuel - 1, by omega⟩
    obtain ⟨rfl, hne, htail⟩ := hpath
    have hnodup := h.nodup
    have hnotMem : i ∉ cs ++ used := by
      have hused := (List.nodup_append.mp hnodup).2.1
      rw [List.cons_append, List.nodup_cons] at hused
      exact hused.1
    rw [MemoryManager.freeLoop, if_neg hne]
    have htail' : Path (mm.markAsFree i).next (mm.next i) cs 0 :=
      htail.update (fun hmem => hnotMem (List.mem_append_left _ hmem)) mm.firstFree
    obtain ⟨free', hcore, hnext, hchunk, hmemory⟩ := ih fuel (Nat.le_of_succ_le_succ hfuel) htail' h.markAsFree
    refine ⟨free', hcore, ?_, hchunk, hmemory⟩
    intro c hc
    rw [hnext c hc]
    refine Function.update_of_ne ?_ mm.firstFree mm.next
    rintro rfl
    exact hnotMem (List.mem_append_right _ hc)

/-- **Freeing an area releases exactly its chunks.** -/
theorem live_free (h : Live mm ((i, bytes) :: saved)) :
    Live (mm.free i) saved ∧ (mm.free i).usefulMemory = mm.usefulMemory := by
  obtain ⟨a, areas, rfl, rfl, ⟨free, hcore, hin⟩, hperm⟩ := h.exists_cons
  rw [List.flatMap_cons] at hcore
  have hlen : a.chunks.length ≤ mm.blocks * chunksPerBlock := by
    have hnodup : a.chunks.Nodup := (List.nodup_append.mp (List.nodup_append.mp hcore.nodup).2.1).1
    have hsub : a.chunks ⊆ List.range (mm.blocks * chunksPerBlock) := by
      intro c hc
      rw [List.mem_range]
      exact hcore.lt c (List.mem_append_right _ (List.mem_append_left _ hc))
    have hle := (hnodup.subperm hsub).length_le
    rwa [List.length_range] at hle
  obtain ⟨free', hcore', hnext, hchunk, hmemory⟩ :=
    freeLoop_spec _ hlen (hin a List.mem_cons_self).path hcore
  refine ⟨⟨areas, ⟨free', hcore', ?_⟩, hperm⟩, hmemory⟩
  intro a' ha'
  apply (hin a' (List.mem_cons_of_mem _ ha')).congr
  · intro c hc
    exact hnext c (List.mem_flatMap.mpr ⟨a', ha', hc⟩)
  · intro c hc
    exact congrFun hchunk c

end DArc.SREP
