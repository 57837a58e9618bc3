import DArc.SREP.FutureLZ

/-!
# What the heap and the VM file hold

`Held` is the invariant of the decompressor between two steps: together, the heap and the marked blocks of the VM
file hold exactly the matches that are pending, each with its data saved once, in memory or on disk.

A call of `saveToDisk` goes through the heap from the largest destination down.  It leaves out matches without data
and, because of how the iterator moves, the match in front of every one it has moved; `movedFrom` are the matches it
moves.  The call is safe and frees memory if it moves at least one match and never the first one of the heap
(`CanSpill`).

### Main results

* `saveLoop_spec`: what one call moves and what it leaves;
* `Held.saveToDisk`, `Held.restoreFromDisk`: moving matches to the VM file and back keeps the invariant;
* `Held.waitForSpace`: waiting for memory keeps the invariant and ends if every call of `saveToDisk` can spill.
-/

namespace DArc.SREP

/-! ## The heap -/

variable {e m base : FutureMatch} {heap body front back ms kept : List FutureMatch}

/-- Inserting adds one match. -/
lemma heapInsert_perm (m : FutureMatch) (heap : List FutureMatch) : (heapInsert m heap).Perm (m :: heap) := by
  induction heap with
  | nil => exact List.Perm.refl _
  | cons h hs ih =>
    rw [heapInsert]
    split
    · exact List.Perm.refl _
    · exact (ih.cons h).trans (List.Perm.swap m h hs)

/-- Inserting keeps the order. -/
lemma heapInsert_sorted (h : heap.Pairwise fun a b => a.dest ≤ b.dest) (m : FutureMatch) :
    (heapInsert m heap).Pairwise fun a b => a.dest ≤ b.dest := by
  induction heap with
  | nil => exact List.pairwise_singleton _ _
  | cons x xs ih =>
    obtain ⟨hle, hxs⟩ := List.pairwise_cons.mp h
    rw [heapInsert]
    by_cases hlt : m.dest < x.dest
    · rw [if_pos hlt]
      refine List.pairwise_cons.mpr ⟨?_, h⟩
      intro y hy
      rcases List.mem_cons.mp hy with rfl | hy
      · exact hlt.le
      · exact hlt.le.trans (hle y hy)
    · rw [if_neg hlt]
      refine List.pairwise_cons.mpr ⟨?_, ih hxs⟩
      intro y hy
      rcases List.mem_cons.mp ((heapInsert_perm m xs).mem_iff.mp hy) with rfl | hy
      · exact Nat.not_lt.mp hlt
      · exact hle y hy

/-- A match is inserted in front of the barrier. -/
lemma heapInsert_append {last : FutureMatch} (h : m.dest < last.dest) (body : List FutureMatch) :
    heapInsert m (body ++ [last]) = heapInsert m body ++ [last] := by
  induction body with
  | nil =>
    rw [List.nil_append]
    exact if_pos h
  | cons x xs ih =>
    rw [List.cons_append, heapInsert, heapInsert, ih]
    split <;> rfl

/-- A match is inserted behind those with smaller destinations. -/
lemma heapInsert_cons_of_le (h : e.dest ≤ m.dest) (heap : List FutureMatch) :
    heapInsert m (e :: heap) = e :: heapInsert m heap := by
  rw [heapInsert, if_neg (Nat.not_lt.mpr h)]

/-- Erasing a destination that no match has changes nothing. -/
lemma heapErase_eq_self {dest : ℕ} (h : ∀ m ∈ heap, m.dest ≠ dest) : heapErase dest heap = heap :=
  List.filter_eq_self.mpr (by simpa using h)

/-! ## Moving matches to the VM file -/

/-- The bytes a match stands for. -/
def bytesOf (data : List UInt8) (m : LZMatch) : List UInt8 := span data m.src m.len

/-- The matches that have saved data, as the memory manager knows them. -/
def savedOf (data : List UInt8) (heap : List FutureMatch) : List (ℕ × List UInt8) :=
  (heap.filter fun m => m.index ≠ 0).map fun m => (m.index, bytesOf data m.toLZMatch)

/-- The bytes of some matches in a block of the VM file. -/
def diskRecords (data : List UInt8) (ms : List LZMatch) : List UInt8 :=
  ms.flatMap fun m => diskRecord m (bytesOf data m)

/-- The bytes of one more match. -/
lemma diskRecords_cons (data : List UInt8) (m : LZMatch) (ms : List LZMatch) :
    diskRecords data (m :: ms) = diskRecord m (bytesOf data m) ++ diskRecords data ms := List.flatMap_cons

/-- The matches that a call of `saveToDisk` moves, from the heap in falling order; `none` if it goes on in front of
the first one. -/
def movedFrom : ℕ → List FutureMatch → Option (List FutureMatch)
  | _, [] => none
  | _, [_] => some []
  | room, _ :: m :: front =>
    if m.index = 0 then movedFrom room (m :: front)
    else if room < 24 + m.len then some []
    else (movedFrom (room - (20 + m.len)) front).map (m :: ·)

/-- The destination of the last match moved. -/
def lastDest (minDest : ℕ) (ms : List FutureMatch) : ℕ := ms.foldl (fun _ m => m.dest) minDest

/-- What a call of `saveToDisk` makes of a heap: it moves the matches `ms` and keeps the others. -/
structure Moved (data : List UInt8) (heap : List FutureMatch) (mm : MemoryManager) (ms kept : List FutureMatch)
    (mm' : MemoryManager) : Prop where
  sub : kept.Sublist heap
  perm : heap.Perm (ms ++ kept)
  index_ne : ∀ m ∈ ms, m.index ≠ 0
  live : Live mm' (savedOf data kept)
  memory : mm'.usefulMemory = mm.usefulMemory

variable {data : List UInt8} {mm : MemoryManager} {blockSize : ℕ} {block : List UInt8}

/-- Matches with data are saved. -/
lemma savedOf_cons_of_ne (h : m.index ≠ 0) (heap : List FutureMatch) :
    savedOf data (m :: heap) = (m.index, bytesOf data m.toLZMatch) :: savedOf data heap := by
  rw [savedOf, List.filter_cons_of_pos (by simpa using h), List.map_cons, savedOf]

/-- Matches without data are not. -/
lemma savedOf_cons_of_eq (h : m.index = 0) (heap : List FutureMatch) :
    savedOf data (m :: heap) = savedOf data heap := by
  rw [savedOf, List.filter_cons_of_neg (by simpa using h), savedOf]

/-- The order of the heap does not matter for what is saved. -/
lemma savedOf_perm (data : List UInt8) {heap heap' : List FutureMatch} (h : heap.Perm heap') :
    (savedOf data heap).Perm (savedOf data heap') := (h.filter _).map _

/-- The number of bytes of a match on disk. -/
lemma length_diskRecord (m : LZMatch) (bytes : List UInt8) : (diskRecord m bytes).length = 20 + bytes.length := by
  unfold diskRecord
  rw [List.length_append, List.length_append, List.length_append, length_leBytes, length_leBytes, length_leBytes]

/-- **What one call moves and what it leaves.** -/
theorem saveLoop_spec (minDest : ℕ) (hmoved : movedFrom (blockSize - block.length) front = some ms)
    (hapart : (front.reverse ++ back).Pairwise fun a b => a.dest ≠ b.dest)
    (hin : ∀ m ∈ front.reverse ++ back, m.index ≠ 0 → m.src + m.len ≤ data.length)
    (hlive : Live mm (savedOf data (front.reverse ++ back))) :
    ∃ mm' kept, saveLoop blockSize front back mm block minDest =
        some (mm', kept, block ++ diskRecords data (ms.map FutureMatch.toLZMatch), lastDest minDest ms) ∧
      Moved data (front.reverse ++ back) mm ms kept mm' ∧ ms.Sublist front := by
  induction hroom : blockSize - block.length, front using movedFrom.induct
    generalizing back mm block minDest ms with
  | case1 => simp [movedFrom] at hmoved
  | case2 room base =>
    obtain rfl : [] = ms := by simpa [movedFrom] using hmoved
    refine ⟨mm, base :: back, ?_, ⟨?_, ?_, ?_, hlive, rfl⟩, List.nil_sublist _⟩
    · rw [saveLoop, List.map_nil, diskRecords, List.flatMap_nil, List.append_nil, lastDest, List.foldl_nil]
    · exact List.Sublist.refl _
    · exact List.Perm.refl _
    · intro m hm
      cases hm
  | case3 room base m front hindex ih =>
    rw [hroom, movedFrom, if_pos hindex] at hmoved
    have hshift : (m :: front).reverse ++ base :: back = (base :: m :: front).reverse ++ back := by
      rw [List.reverse_cons (a := base), List.append_assoc, List.singleton_append]
    rw [← hshift] at hapart hin hlive ⊢
    obtain ⟨mm', kept, hsave, hmoved', hsub⟩ :=
      ih minDest (by rw [hroom]; exact hmoved) hapart hin hlive hroom
    refine ⟨mm', kept, ?_, hmoved', hsub.cons base⟩
    rw [saveLoop, if_pos hindex, hsave]
  | case4 room base m front hindex hfull =>
    rw [hroom, movedFrom, if_neg hindex, if_pos hfull] at hmoved
    obtain rfl : [] = ms := Option.some.inj hmoved
    have hshift : (m :: front).reverse ++ base :: back = (base :: m :: front).reverse ++ back := by
      rw [List.reverse_cons (a := base), List.append_assoc, List.singleton_append]
    refine ⟨mm, (base :: m :: front).reverse ++ back, ?_, ⟨List.Sublist.refl _, List.Perm.refl _, ?_, hlive, rfl⟩,
      List.nil_sublist _⟩
    · rw [saveLoop, if_neg hindex, hroom, if_pos hfull, hshift, List.map_nil, diskRecords, List.flatMap_nil,
        List.append_nil, lastDest, List.foldl_nil]
    · intro m hm
      cases hm
  | case5 room base m front hindex hfits ih =>
    rw [hroom, movedFrom, if_neg hindex, if_neg hfits] at hmoved
    obtain ⟨ms', hms', rfl⟩ := Option.map_eq_some_iff.mp hmoved
    -- the heap around the match
    have hsplit : (base :: m :: front).reverse ++ back = front.reverse ++ m :: base :: back := by
      simp
    rw [hsplit] at hapart hin hlive ⊢
    have hmiddle : (front.reverse ++ m :: base :: back).Perm (m :: (front.reverse ++ base :: back)) :=
      List.perm_middle
    have hsub : (front.reverse ++ base :: back).Sublist (front.reverse ++ m :: base :: back) :=
      (List.Sublist.refl _).append (List.sublist_cons_self _ _)
    have hdest : ∀ m' ∈ front.reverse ++ base :: back, m.dest ≠ m'.dest :=
      (List.pairwise_cons.mp ((hmiddle.pairwise_iff fun h => Ne.symm h).mp hapart)).1
    have hfront : heapErase m.dest front = front := by
      apply heapErase_eq_self
      intro m' hm'
      exact (hdest m' (List.mem_append_left _ (List.mem_reverse.mpr hm'))).symm
    have hback : heapErase m.dest (base :: back) = base :: back := by
      apply heapErase_eq_self
      intro m' hm'
      exact (hdest m' (List.mem_append_right _ hm')).symm
    have hbase : ¬base.dest = m.dest := (hdest base (by simp)).symm
    -- its data
    have hcons : Live mm ((m.index, bytesOf data m.toLZMatch) :: savedOf data (front.reverse ++ base :: back)) := by
      rw [← savedOf_cons_of_ne hindex]
      exact hlive.perm (savedOf_perm data hmiddle)
    have hbytes : (bytesOf data m.toLZMatch).length = m.len := length_span (hin m (by simp) hindex)
    have hrestore : mm.restore m.index m.len = bytesOf data m.toLZMatch := by
      rw [← hbytes]
      exact live_restore hcons List.mem_cons_self
    obtain ⟨hlive', hmemory⟩ := live_free hcons
    have hroom' : blockSize - (block ++ diskRecord m.toLZMatch (bytesOf data m.toLZMatch)).length =
        room - (20 + m.len) := by
      rw [List.length_append, length_diskRecord, hbytes]
      omega
    obtain ⟨mm', kept, hsave, hmoved', hsub'⟩ := ih m.dest (by rw [hroom']; exact hms') (hapart.sublist hsub)
      (fun m' hm' => hin m' (hsub.subset hm')) hlive' hroom'
    refine ⟨mm', kept, ?_, ⟨hmoved'.sub.trans hsub, ?_, ?_, hmoved'.live, hmoved'.memory.trans hmemory⟩, ?_⟩
    · rw [saveLoop, if_neg hindex, hroom, if_neg hfits, if_neg hbase, hfront, hback, hrestore, hsave, List.map_cons,
        diskRecords_cons, List.append_assoc]
      rfl
    · exact hmiddle.trans (hmoved'.perm.cons m)
    · intro m' hm'
      rcases List.mem_cons.mp hm' with rfl | hm'
      · exact hindex
      · exact hmoved'.index_ne m' hm'
    · exact (hsub'.cons_cons m).cons base

/-! ## The invariant -/

/-- A match of the file, with a length that fits a word. -/
structure Part (data : List UInt8) (m : LZMatch) : Prop where
  src_lt : m.src < m.dest
  len_pos : 0 < m.len
  len_lt : m.len < 2 ^ 32
  repeats : Repeats data m.src m.dest m.len
  end_le : m.dest + m.len ≤ data.length

/-- The destinations of two matches do not overlap. -/
def Apart (a b : LZMatch) : Prop := a.dest + a.len ≤ b.dest ∨ b.dest + b.len ≤ a.dest

/-- The matches that an entry of the heap stands for: a mark stands for the matches of its block. -/
def contents (disk : ℕ → List LZMatch) (e : FutureMatch) : List LZMatch :=
  if e.len = 0 then disk e.src else [e.toLZMatch]

/-- The blocks of the VM file that are marked in the heap. -/
def markNumbers (body : List FutureMatch) : List ℕ := (body.filter fun e => e.len = 0).map fun e => e.src

/-- The mark is at the smallest destination of its block, and the block holds its matches with their data. -/
structure Marked (data : List UInt8) (vm : VirtualMemory) (disk : ℕ → List LZMatch) (e : FutureMatch) : Prop where
  index_eq : e.index = 0
  first : ∃ m ∈ disk e.src, m.dest = e.dest
  le : ∀ m ∈ disk e.src, e.dest ≤ m.dest
  file : vm.file e.src = diskRecords data (disk e.src) ++ leBytes 4 0

/-- **The invariant of the decompressor** in the block from `start` to `stop`: the matches `P` are pending.  A match
without data is copied inside the block or is long enough to be read from the output file. -/
structure Held (data : List UInt8) (maximumSave start stop : ℕ) (s : Spill) (disk : ℕ → List LZMatch)
    (body : List FutureMatch) (P : List LZMatch) : Prop where
  heap_eq : s.heap = body ++ [barrier]
  sorted : body.Pairwise fun a b => a.dest ≤ b.dest
  pending : (body.flatMap (contents disk)).Perm P
  ok : ∀ m ∈ P, Part data m
  apart : P.Pairwise Apart
  sources : ∀ m ∈ P, m.src + m.len ≤ start ∨ start ≤ m.src ∧ m.src + m.len ≤ stop
  marked : ∀ e ∈ body, e.len = 0 → Marked data s.vm disk e
  plain : ∀ e ∈ body, e.len ≠ 0 → e.index = 0 → start ≤ e.src ∧ e.dest < stop ∨ maximumSave ≤ e.len
  blocks : (markNumbers body ++ s.vm.freeBlocks).Nodup
  numbers : ∀ n ∈ markNumbers body ++ s.vm.freeBlocks, n < s.vm.newBlock
  live : Live s.mm (savedOf data body)
  enough : 60 * data.length ≤ s.mm.usefulMemory → ∀ e ∈ body, e.len ≠ 0

variable {maximumSave start stop : ℕ} {s : Spill} {disk : ℕ → List LZMatch} {P : List LZMatch}

/-- An entry with a length stands for itself. -/
lemma contents_of_ne (h : e.len ≠ 0) : contents disk e = [e.toLZMatch] := if_neg h

/-- A mark stands for the matches of its block. -/
lemma contents_of_eq (h : e.len = 0) : contents disk e = disk e.src := if_pos h

/-- An entry with saved data is a match. -/
lemma Held.len_ne (h : Held data maximumSave start stop s disk body P) (he : e ∈ body) (hindex : e.index ≠ 0) :
    e.len ≠ 0 := fun hzero => hindex (h.marked e he hzero).index_eq

/-- An entry with a length is a pending match. -/
lemma Held.mem_of_len_ne (h : Held data maximumSave start stop s disk body P) (he : e ∈ body) (hlen : e.len ≠ 0) :
    e.toLZMatch ∈ P := by
  refine h.pending.mem_iff.mp (List.mem_flatMap.mpr ⟨e, he, ?_⟩)
  rw [contents_of_ne hlen]
  exact List.mem_singleton_self _

/-- Every entry has the destination of a match it stands for. -/
lemma Held.exists_contents (h : Held data maximumSave start stop s disk body P) (he : e ∈ body) :
    ∃ m ∈ contents disk e, m.dest = e.dest := by
  by_cases hzero : e.len = 0
  · rw [contents_of_eq hzero]
    exact (h.marked e he hzero).first
  · rw [contents_of_ne hzero]
    exact ⟨e.toLZMatch, List.mem_singleton_self _, rfl⟩

/-- Every match an entry stands for is pending and has its destination not in front of the entry's. -/
lemma Held.mem_contents (h : Held data maximumSave start stop s disk body P) (he : e ∈ body) {m : LZMatch}
    (hm : m ∈ contents disk e) : m ∈ P ∧ e.dest ≤ m.dest := by
  refine ⟨h.pending.mem_iff.mp (List.mem_flatMap.mpr ⟨e, he, hm⟩), ?_⟩
  by_cases hzero : e.len = 0
  · rw [contents_of_eq hzero] at hm
    exact (h.marked e he hzero).le m hm
  · rw [contents_of_ne hzero, List.mem_singleton] at hm
    rw [hm]

/-- The entries are strictly ordered by their destinations. -/
lemma Held.strict (h : Held data maximumSave start stop s disk body P) :
    body.Pairwise fun a b => a.dest < b.dest := by
  have happart := (h.pending.pairwise_iff fun hab => Or.symm hab).mpr h.apart
  have hne := (List.pairwise_flatMap.mp happart).2
  refine (h.sorted.and hne).imp_of_mem ?_
  rintro a b ha hb ⟨hle, hne⟩
  obtain ⟨m, hm, hma⟩ := h.exists_contents ha
  obtain ⟨m', hm', hmb⟩ := h.exists_contents hb
  have hpos := (h.ok m (h.mem_contents ha hm).1).len_pos
  have hpos' := (h.ok m' (h.mem_contents hb hm').1).len_pos
  rcases hne m hm m' hm' with hdest | hdest <;> omega

/-- Every entry is in front of the barrier. -/
lemma Held.dest_lt (h : Held data maximumSave start stop s disk body P) (hdata : data.length < 2 ^ 64)
    (he : e ∈ body) : e.dest < 2 ^ 64 - 1 := by
  obtain ⟨m, hm, hdest⟩ := h.exists_contents he
  have hpart := h.ok m (h.mem_contents he hm).1
  have hend := hpart.end_le
  have hpos := hpart.len_pos
  omega

/-- The destinations in the heap are different. -/
lemma Held.apart_heap (h : Held data maximumSave start stop s disk body P) (hdata : data.length < 2 ^ 64) :
    s.heap.Pairwise fun a b => a.dest ≠ b.dest := by
  rw [h.heap_eq]
  refine List.pairwise_append.mpr ⟨h.strict.imp fun hlt => Nat.ne_of_lt hlt, List.pairwise_singleton _ _, ?_⟩
  intro a ha b hb
  rw [List.mem_singleton.mp hb]
  exact Nat.ne_of_lt (h.dest_lt hdata ha)

/-! ## Saving to disk -/

/-- A call of `saveToDisk` moves at least one match and does not go on in front of the first one. -/
def CanSpill (s : Spill) : Prop :=
  movedFrom s.vm.blockSize s.heap.reverse ≠ none ∧ movedFrom s.vm.blockSize s.heap.reverse ≠ some []

instance (s : Spill) : Decidable (CanSpill s) := inferInstanceAs (Decidable (_ ∧ _))

/-- The number of matches with saved data. -/
def dataCount (body : List FutureMatch) : ℕ := body.countP fun e => e.index ≠ 0

/-- The last match moved has the smallest destination. -/
lemma exists_lastDest (hms : ms ≠ []) (hfalling : ms.Pairwise fun a b => b.dest < a.dest) (d : ℕ) :
    ∃ m ∈ ms, m.dest = lastDest d ms ∧ ∀ m' ∈ ms, m.dest ≤ m'.dest := by
  induction ms generalizing d with
  | nil => exact absurd rfl hms
  | cons m ms ih =>
    obtain ⟨hlt, hfalling⟩ := List.pairwise_cons.mp hfalling
    by_cases hnil : ms = []
    · subst hnil
      refine ⟨m, List.mem_cons_self, rfl, ?_⟩
      intro m' hm'
      rw [List.mem_singleton.mp hm']
    · obtain ⟨last, hlast, hdest, hle⟩ := ih hnil hfalling m.dest
      refine ⟨last, List.mem_cons_of_mem _ hlast, hdest, ?_⟩
      intro m' hm'
      rcases List.mem_cons.mp hm' with rfl | hm'
      · exact (hlt last hlast).le
      · exact hle m' hm'

/-- What is left of the heap ends with the barrier. -/
lemma exists_body (hsub : kept.Sublist (body ++ [barrier])) (hmem : barrier ∈ kept) (hbody : barrier ∉ body) :
    ∃ body', kept = body' ++ [barrier] ∧ body'.Sublist body := by
  obtain ⟨body', last, rfl, hbody', hlast⟩ := List.sublist_append_iff.mp hsub
  rcases List.mem_append.mp hmem with hmem | hmem
  · exact absurd (hbody'.subset hmem) hbody
  · obtain ⟨x, xs, rfl⟩ := List.exists_cons_of_ne_nil (List.ne_nil_of_mem hmem)
    have hone : x :: xs = [barrier] := hlast.eq_of_length_le (by simp)
    rw [hone]
    exact ⟨body', rfl, hbody'⟩

/-- Marks are found among the entries without saved data. -/
lemma markNumbers_append (xs ys : List FutureMatch) :
    markNumbers (xs ++ ys) = markNumbers xs ++ markNumbers ys := by
  rw [markNumbers, List.filter_append, List.map_append, markNumbers, markNumbers]

/-- The order does not matter for the marked blocks. -/
lemma markNumbers_perm {xs ys : List FutureMatch} (h : xs.Perm ys) : (markNumbers xs).Perm (markNumbers ys) :=
  (h.filter _).map _

/-- Matches mark no blocks. -/
lemma markNumbers_eq_nil (h : ∀ m ∈ ms, m.len ≠ 0) : markNumbers ms = [] := by
  rw [markNumbers, List.filter_eq_nil_iff.mpr (by simpa using h), List.map_nil]

/-- Matches stand for themselves. -/
lemma flatMap_contents (h : ∀ m ∈ ms, m.len ≠ 0) :
    ms.flatMap (contents disk) = ms.map FutureMatch.toLZMatch := by
  induction ms with
  | nil => rfl
  | cons m ms ih =>
    rw [List.flatMap_cons, contents_of_ne (h m List.mem_cons_self), List.map_cons,
      ih fun m' hm' => h m' (List.mem_cons_of_mem _ hm')]
    rfl

/-- Saved matches need chunks. -/
lemma chunksFor_pos {len : ℕ} (h : 0 < len) : 0 < chunksFor len := by
  unfold chunksFor usefulChunkSpace
  omega

/-- The chunks that the saved matches need. -/
def chunksOf (data : List UInt8) (body : List FutureMatch) : ℕ :=
  ((savedOf data body).map fun a => chunksFor a.2.length).sum

/-- The order does not matter for the chunks. -/
lemma chunksOf_perm {body' : List FutureMatch} (h : body.Perm body') : chunksOf data body = chunksOf data body' :=
  ((savedOf_perm data h).map _).sum_eq

/-- The chunks of two parts of the heap. -/
lemma chunksOf_append (xs ys : List FutureMatch) :
    chunksOf data (xs ++ ys) = chunksOf data xs + chunksOf data ys := by
  rw [chunksOf, savedOf, List.filter_append, List.map_append, List.map_append, List.sum_append]
  rfl

/-- A match with saved data needs a chunk. -/
lemma chunksOf_pos (hm : m ∈ ms) (hindex : m.index ≠ 0) (hlen : 0 < (bytesOf data m.toLZMatch).length) :
    0 < chunksOf data ms := by
  have hmem : (m.index, bytesOf data m.toLZMatch) ∈ savedOf data ms :=
    List.mem_map.mpr ⟨m, List.mem_filter.mpr ⟨hm, by simpa using hindex⟩, rfl⟩
  exact (chunksFor_pos hlen).trans_le (List.single_le_sum (fun _ _ => Nat.zero_le _) _ (List.mem_map_of_mem hmem))

/-- A saved match has bytes. -/
lemma Held.bytesOf_pos (h : Held data maximumSave start stop s disk body P) (he : e ∈ body) (hindex : e.index ≠ 0) :
    0 < (bytesOf data e.toLZMatch).length := by
  have hpart := h.ok _ (h.mem_of_len_ne he (h.len_ne he hindex))
  have hlt := hpart.src_lt
  have hend := hpart.end_le
  rw [bytesOf, length_span (by omega)]
  exact hpart.len_pos

/-- The chunks in use. -/
lemma Held.usedChunks_eq (h : Held data maximumSave start stop s disk body P) :
    s.mm.usedChunks = chunksOf data body := h.live.usedChunks_eq

/-- The barrier has no saved data. -/
lemma savedOf_append_barrier (body : List FutureMatch) : savedOf data (body ++ [barrier]) = savedOf data body := by
  have hnone : [barrier].filter (fun m => m.index ≠ 0) = [] := rfl
  rw [savedOf, List.filter_append, hnone, List.append_nil, savedOf]

/-- The first free block, or else a new one, is not in use. -/
lemma headD_fresh {used free : List ℕ} {n : ℕ} (hnodup : (used ++ free).Nodup) (hlt : ∀ k ∈ used ++ free, k < n) :
    free.headD n ∉ used ∧ (free.headD n :: used ++ free.tail).Nodup ∧
      ∀ k ∈ free.headD n :: used ++ free.tail, k < if free.isEmpty then n + 1 else n := by
  cases free with
  | nil =>
    rw [List.append_nil] at hnodup hlt
    have hnew : n ∉ used := fun hmem => lt_irrefl n (hlt n hmem)
    refine ⟨hnew, ?_, ?_⟩
    · rw [List.tail_nil, List.append_nil]
      exact List.nodup_cons.mpr ⟨hnew, hnodup⟩
    · intro k hk
      rw [List.tail_nil, List.append_nil] at hk
      rcases List.mem_cons.mp hk with rfl | hk
      · exact Nat.lt_succ_self _
      · exact (hlt k hk).trans (Nat.lt_succ_self n)
  | cons f fs =>
    have hperm : (f :: used ++ fs).Perm (used ++ f :: fs) := List.perm_middle.symm
    refine ⟨fun hmem => List.disjoint_of_nodup_append hnodup hmem List.mem_cons_self, ?_, ?_⟩
    · exact (hperm.nodup_iff).mpr hnodup
    · intro k hk
      exact hlt k (hperm.mem_iff.mp hk)

/-- What a call of `saveToDisk` moves and what it leaves, between two states of the decompressor. -/
lemma Held.moved (h : Held data maximumSave start stop s disk body P) (hdata : data.length < 2 ^ 64)
    (hms : movedFrom s.vm.blockSize s.heap.reverse = some ms) :
    ∃ mm' body', saveLoop s.vm.blockSize s.heap.reverse [] s.mm [] (2 ^ 64 - 1) =
        some (mm', body' ++ [barrier], diskRecords data (ms.map FutureMatch.toLZMatch), lastDest (2 ^ 64 - 1) ms) ∧
      body'.Sublist body ∧ body.Perm (ms ++ body') ∧ (∀ m ∈ ms, m.index ≠ 0) ∧ Live mm' (savedOf data body') ∧
      mm'.usefulMemory = s.mm.usefulMemory ∧ ms.Pairwise fun a b => b.dest < a.dest := by
  have hrev : s.heap.reverse.reverse ++ [] = s.heap := by rw [List.reverse_reverse, List.append_nil]
  have hms' : movedFrom (s.vm.blockSize - ([] : List UInt8).length) s.heap.reverse = some ms := hms
  have hbarrier : barrier ∉ body := fun hmem => lt_irrefl _ (h.dest_lt hdata hmem)
  have hin : ∀ m ∈ s.heap.reverse.reverse ++ [], m.index ≠ 0 → m.src + m.len ≤ data.length := by
    intro m hm hindex
    rw [hrev, h.heap_eq] at hm
    rcases List.mem_append.mp hm with hm | hm
    · have hpart := h.ok _ (h.mem_of_len_ne hm (h.len_ne hm hindex))
      have hlt := hpart.src_lt
      have hend := hpart.end_le
      omega
    · rw [List.mem_singleton.mp hm] at hindex
      exact absurd rfl hindex
  have hlive : Live s.mm (savedOf data (s.heap.reverse.reverse ++ [])) := by
    rw [hrev, h.heap_eq, savedOf_append_barrier]
    exact h.live
  have hapart : (s.heap.reverse.reverse ++ []).Pairwise fun a b : FutureMatch => a.dest ≠ b.dest := by
    rw [hrev]
    exact h.apart_heap hdata
  obtain ⟨mm', kept, hsave, hmoved, hsub⟩ := saveLoop_spec (2 ^ 64 - 1) hms' hapart hin hlive
  rw [hrev, h.heap_eq] at hmoved
  have hperm := hmoved.perm
  have hmem : barrier ∈ kept := by
    have hboth := hperm.mem_iff.mp (List.mem_append_right body (List.mem_singleton_self barrier))
    rcases List.mem_append.mp hboth with hmem | hmem
    · exact absurd rfl (hmoved.index_ne barrier hmem)
    · exact hmem
  obtain ⟨body', rfl, hbody'⟩ := exists_body hmoved.sub hmem hbarrier
  rw [← List.append_assoc] at hperm
  have hlive' := hmoved.live
  rw [savedOf_append_barrier] at hlive'
  have hfalling : s.heap.reverse.Pairwise fun a b => b.dest < a.dest := by
    rw [List.pairwise_reverse, h.heap_eq]
    refine List.pairwise_append.mpr ⟨h.strict, List.pairwise_singleton _ _, ?_⟩
    intro a ha b hb
    rw [List.mem_singleton.mp hb]
    exact h.dest_lt hdata ha
  exact ⟨mm', body', hsave, hbody', (List.perm_append_right_iff _).mp hperm, hmoved.index_ne, hlive',
    hmoved.memory, hfalling.sublist hsub⟩

/-- The mark for a block with the moved matches. -/
def markOf (number : ℕ) (ms : List FutureMatch) : FutureMatch := ⟨⟨number, lastDest (2 ^ 64 - 1) ms, 0⟩, 0⟩

/-- The matches on disk with one more block. -/
def diskWith (disk : ℕ → List LZMatch) (number : ℕ) (ms : List FutureMatch) : ℕ → List LZMatch :=
  Function.update disk number (ms.map FutureMatch.toLZMatch)

/-- **Saving to disk** keeps what is pending and frees memory. -/
theorem Held.saveToDisk (h : Held data maximumSave start stop s disk body P) (hdata : data.length < 2 ^ 64)
    (hcan : CanSpill s) (hnot : ¬60 * data.length ≤ s.mm.usefulMemory) :
    ∃ s' disk' body', SREP.saveToDisk s = some s' ∧ Held data maximumSave start stop s' disk' body' P ∧
      s'.mm.usefulMemory = s.mm.usefulMemory ∧ s'.vm.blockSize = s.vm.blockSize ∧
      (∀ e ∈ body, e.index = 0 → e ∈ body') ∧ (∀ e ∈ body', ∃ e' ∈ body, e'.dest ≤ e.dest) ∧
      dataCount body' < dataCount body ∧ s'.mm.usedChunks < s.mm.usedChunks := by
  obtain ⟨hsome, hne⟩ := hcan
  obtain ⟨ms, hms⟩ := Option.ne_none_iff_exists'.mp hsome
  have hms_ne : ms ≠ [] := by
    rintro rfl
    exact hne hms
  obtain ⟨mm', body', hsave, hsub, hperm, hindex, hlive, hmemory, hfalling⟩ := h.moved hdata hms
  obtain ⟨last, hlast, hlastDest, hlast_le⟩ := exists_lastDest hms_ne hfalling (2 ^ 64 - 1)
  have hms_body : ∀ m ∈ ms, m ∈ body := fun m hm => hperm.mem_iff.mpr (List.mem_append_left _ hm)
  have hms_len : ∀ m ∈ ms, m.len ≠ 0 := fun m hm => h.len_ne (hms_body m hm) (hindex m hm)
  -- the block and its mark
  obtain ⟨hfresh, hnodup, hnumbers⟩ := headD_fresh h.blocks h.numbers
  generalize hnumber : s.vm.freeBlocks.headD s.vm.newBlock = number at hfresh hnodup hnumbers
  have hmarks : (markNumbers body).Perm (markNumbers body') := by
    have happend := markNumbers_perm hperm
    rwa [markNumbers_append, markNumbers_eq_nil hms_len, List.nil_append] at happend
  have hmark_src : ∀ e ∈ body', e.len = 0 → e.src ≠ number := by
    rintro e he hzero rfl
    exact hfresh (List.mem_map.mpr ⟨e, List.mem_filter.mpr ⟨hsub.subset he, by simpa using hzero⟩, rfl⟩)
  have hmark_lt : (markOf number ms).dest < barrier.dest := by
    change lastDest (2 ^ 64 - 1) ms < 2 ^ 64 - 1
    rw [← hlastDest]
    exact h.dest_lt hdata (hms_body last hlast)
  have hinsert := heapInsert_perm (markOf number ms) body'
  have hdisk : ∀ e ∈ body', contents (diskWith disk number ms) e = contents disk e := by
    intro e he
    by_cases hzero : e.len = 0
    · rw [contents_of_eq hzero, contents_of_eq hzero]
      exact Function.update_of_ne (hmark_src e he hzero) _ _
    · rw [contents_of_ne hzero, contents_of_ne hzero]
  have hmem : ∀ e, e ∈ heapInsert (markOf number ms) body' ↔ e = markOf number ms ∨ e ∈ body' := by
    intro e
    rw [hinsert.mem_iff, List.mem_cons]
  have hnew : (markNumbers (heapInsert (markOf number ms) body')).Perm (number :: markNumbers body) :=
    (markNumbers_perm hinsert).trans (hmarks.symm.cons number)
  have hsaved : (savedOf data (heapInsert (markOf number ms) body')).Perm (savedOf data body') := by
    have hcons := savedOf_perm data hinsert
    rwa [savedOf_cons_of_eq rfl] at hcons
  refine ⟨⟨mm', ⟨s.vm.blockSize, Function.update s.vm.file number
      (diskRecords data (ms.map FutureMatch.toLZMatch) ++ leBytes 4 0), s.vm.freeBlocks.tail,
      if s.vm.freeBlocks.isEmpty then s.vm.newBlock + 1 else s.vm.newBlock⟩, heapInsert (markOf number ms) body' ++ [barrier]⟩,
    (diskWith disk number ms), heapInsert (markOf number ms) body', ?_, ?_, hmemory, rfl, ?_, ?_, ?_, ?_⟩
  · rw [SREP.saveToDisk, hsave]
    dsimp only [Option.bind_eq_bind, Option.bind_some]
    rw [hnumber, ← heapInsert_append hmark_lt]
    rfl
  · refine ⟨rfl, heapInsert_sorted (h.sorted.sublist hsub) _, ?_, h.ok, h.apart, h.sources, ?_, ?_, ?_, ?_, ?_, ?_⟩
    · -- the moved matches are pending through the mark
      have hbody := (hperm.flatMap_right (contents disk)).symm.trans h.pending
      rw [List.flatMap_append, flatMap_contents hms_len] at hbody
      refine (hinsert.flatMap_right (contents (diskWith disk number ms))).trans ?_
      have hmark : contents (diskWith disk number ms) (markOf number ms) = ms.map FutureMatch.toLZMatch := by
        rw [contents_of_eq rfl]
        exact Function.update_self _ _ _
      rw [List.flatMap_cons, hmark, List.flatMap_congr hdisk]
      exact hbody
    · intro e he hzero
      rcases (hmem e).mp he with rfl | he
      · have hblock : diskWith disk number ms number = ms.map FutureMatch.toLZMatch := Function.update_self _ _ _
        refine ⟨rfl, ⟨last.toLZMatch, ?_, hlastDest⟩, ?_, ?_⟩
        · change _ ∈ diskWith disk number ms number
          rw [hblock]
          exact List.mem_map_of_mem hlast
        · intro m hm
          change m ∈ diskWith disk number ms number at hm
          rw [hblock] at hm
          obtain ⟨m', hm', rfl⟩ := List.mem_map.mp hm
          change lastDest (2 ^ 64 - 1) ms ≤ m'.dest
          rw [← hlastDest]
          exact hlast_le m' hm'
        · change Function.update s.vm.file number _ number =
            diskRecords data (diskWith disk number ms number) ++ leBytes 4 0
          rw [Function.update_self, hblock]
          rfl
      · have hold := h.marked e (hsub.subset he) hzero
        have hblock : diskWith disk number ms e.src = disk e.src :=
          Function.update_of_ne (hmark_src e he hzero) _ _
        refine ⟨hold.index_eq, by rw [hblock]; exact hold.first, by rw [hblock]; exact hold.le, ?_⟩
        rw [hblock, ← hold.file]
        exact Function.update_of_ne (hmark_src e he hzero) _ _
    · intro e he hlen hplain
      rcases (hmem e).mp he with rfl | he
      · exact absurd rfl hlen
      · exact h.plain e (hsub.subset he) hlen hplain
    · exact ((hnew.append_right _).nodup_iff).mpr hnodup
    · intro n hn
      exact hnumbers n ((hnew.append_right _).mem_iff.mp hn)
    · exact hlive.perm hsaved.symm
    · intro henough
      rw [hmemory] at henough
      exact absurd henough hnot
  · intro e he hplain
    rcases List.mem_append.mp (hperm.mem_iff.mp he) with hmoved | hkept
    · exact absurd hplain (hindex e hmoved)
    · exact (hmem e).mpr (.inr hkept)
  · intro e he
    rcases (hmem e).mp he with rfl | he
    · exact ⟨last, hms_body last hlast, hlastDest.le⟩
    · exact ⟨e, hsub.subset he, le_rfl⟩
  · rw [dataCount, hinsert.countP_eq, List.countP_cons_of_neg (by simp [markOf]), dataCount, hperm.countP_eq,
      List.countP_append]
    have hmoved : 0 < ms.countP fun e => e.index ≠ 0 :=
      List.countP_pos_iff.mpr ⟨last, hlast, by simpa using hindex last hlast⟩
    omega
  · have hbefore := h.usedChunks_eq
    have hafter : mm'.usedChunks = chunksOf data body' := hlive.usedChunks_eq
    have hsplit : chunksOf data body = chunksOf data ms + chunksOf data body' := by
      rw [chunksOf_perm hperm, chunksOf_append]
    have hpos := chunksOf_pos hlast (hindex last hlast) (h.bytesOf_pos (hms_body last hlast) (hindex last hlast))
    change mm'.usedChunks < _
    omega

/-! ## Waiting for memory -/

/-- What waiting for memory keeps: what is pending, the size of the memory, the entries without saved data, and the
smallest destination. -/
structure Kept (data : List UInt8) (maximumSave start stop : ℕ) (s : Spill) (body : List FutureMatch)
    (P : List LZMatch) (s' : Spill) (disk' : ℕ → List LZMatch) (body' : List FutureMatch) : Prop where
  held : Held data maximumSave start stop s' disk' body' P
  memory : s'.mm.usefulMemory = s.mm.usefulMemory
  plain : ∀ e ∈ body, e.index = 0 → e ∈ body'
  lower : ∀ e ∈ body', ∃ e' ∈ body, e'.dest ≤ e.dest

/-- A call of `saveToDisk` with good notes can spill, unless there is memory for all data. -/
def GoodCalls (data : List UInt8) (G : Spill → Prop) : Prop :=
  ∀ s, ¬60 * data.length ≤ s.mm.usefulMemory → G s → CanSpill s

variable {G : Spill → Prop} {need fuel : ℕ}

/-- **Waiting for memory** keeps the invariant and ends if every call of `saveToDisk` can spill. -/
theorem Held.waitForSpace (h : Held data maximumSave start stop s disk body P) (hdata : data.length < 2 ^ 64)
    (hG : GoodCalls data G) (hneed : 60 * data.length ≤ s.mm.usefulMemory → need ≤ s.mm.availableSpace)
    (hfuel : dataCount body < fuel) :
    (SREP.waitForSpace need fuel s).Yields G
      fun s' => ∃ disk' body', Kept data maximumSave start stop s body P s' disk' body' := by
  induction fuel generalizing s disk body with
  | zero => exact absurd hfuel (Nat.not_lt_zero _)
  | succ fuel ih =>
    rw [SREP.waitForSpace]
    by_cases hroom : need ≤ s.mm.availableSpace
    · rw [if_pos hroom]
      exact Noted.yields_pure ⟨disk, body, h, rfl, fun e he _ => he, fun e he => ⟨e, he, le_rfl⟩⟩
    · rw [if_neg hroom]
      have hnot : ¬60 * data.length ≤ s.mm.usefulMemory := fun henough => hroom (hneed henough)
      refine Noted.yields_bind (Q := fun _ => CanSpill s) (Noted.yields_note (hG s hnot)) fun _ hcan => ?_
      obtain ⟨s₁, disk₁, body₁, hsave, hheld, hmemory, -, hplain, hlower, hcount, -⟩ :=
        h.saveToDisk hdata hcan hnot
      refine Noted.yields_bind (Q := fun s' => s' = s₁) (Noted.yields_ofOption hsave rfl) ?_
      rintro _ rfl
      refine (ih hheld (fun henough => absurd (hmemory ▸ henough) hnot) (by omega)).mono ?_
      rintro s' ⟨disk', body', hkept⟩
      refine ⟨disk', body', hkept.held, hkept.memory.trans hmemory, ?_, ?_⟩
      · intro e he hindex
        exact hkept.plain e (hplain e he hindex) hindex
      · intro e he
        obtain ⟨e₁, he₁, hle₁⟩ := hkept.lower e he
        obtain ⟨e₂, he₂, hle₂⟩ := hlower e₁ he₁
        exact ⟨e₂, he₂, hle₂.trans hle₁⟩

/-! ## Restoring from disk -/

/-- The fields of a match read from a block of the VM file. -/
lemma read_diskRecord {m : LZMatch} (hlen : m.len < 2 ^ 32) (hsrc : m.src < 2 ^ 64) (hdest : m.dest < 2 ^ 64)
    (bytes rest : List UInt8) (hbytes : bytes.length = m.len) :
    leValue ((diskRecord m bytes ++ rest).take 4) = m.len ∧
      leValue (((diskRecord m bytes ++ rest).drop 4).take 8) = m.src ∧
      leValue (((diskRecord m bytes ++ rest).drop 12).take 8) = m.dest ∧
      ((diskRecord m bytes ++ rest).drop 20).take m.len = bytes ∧
      (diskRecord m bytes ++ rest).drop (20 + m.len) = rest := by
  have h₁ : leValue (leBytes 4 m.len) = m.len := leValue_leBytes_of_lt (by norm_num; exact hlen)
  have h₂ : leValue (leBytes 8 m.src) = m.src := leValue_leBytes_of_lt (by norm_num; exact hsrc)
  have h₃ : leValue (leBytes 8 m.dest) = m.dest := leValue_leBytes_of_lt (by norm_num; exact hdest)
  have hsplit : diskRecord m bytes ++ rest =
      leBytes 4 m.len ++ (leBytes 8 m.src ++ (leBytes 8 m.dest ++ (bytes ++ rest))) := by
    unfold diskRecord
    simp only [List.append_assoc]
  have hdrop₁ : (diskRecord m bytes ++ rest).drop 4 = leBytes 8 m.src ++ (leBytes 8 m.dest ++ (bytes ++ rest)) := by
    rw [hsplit]
    exact List.drop_left' (length_leBytes 4 _)
  have hdrop₂ : (diskRecord m bytes ++ rest).drop 12 = leBytes 8 m.dest ++ (bytes ++ rest) := by
    rw [show 12 = 4 + 8 from rfl, ← List.drop_drop, hdrop₁]
    exact List.drop_left' (length_leBytes 8 _)
  have hdrop₃ : (diskRecord m bytes ++ rest).drop 20 = bytes ++ rest := by
    rw [show 20 = 12 + 8 from rfl, ← List.drop_drop, hdrop₂]
    exact List.drop_left' (length_leBytes 8 _)
  refine ⟨?_, ?_, ?_, ?_, ?_⟩
  · rw [hsplit, List.take_left' (length_leBytes 4 _), h₁]
  · rw [hdrop₁, List.take_left' (length_leBytes 8 _), h₂]
  · rw [hdrop₂, List.take_left' (length_leBytes 8 _), h₃]
  · rw [hdrop₃, List.take_left' hbytes]
  · rw [← List.drop_drop, hdrop₃, List.drop_left' hbytes]

/-- A block of the VM file has more bytes than matches. -/
lemma length_lt_diskRecords (data : List UInt8) (ms : List LZMatch) :
    ms.length < (diskRecords data ms ++ leBytes 4 0).length := by
  rw [List.length_append, length_leBytes]
  induction ms with
  | nil => exact Nat.lt_add_left _ (by norm_num)
  | cons m ms ih =>
    rw [diskRecords_cons, List.length_append, length_diskRecord, List.length_cons]
    omega

/-- What loading the matches of a block behind a mark does: they are in the heap again, with their data saved. -/
structure Loaded (data : List UInt8) (mm : MemoryManager) (rest : List FutureMatch) (ms : List LZMatch)
    (mm' : MemoryManager) (rest' : List FutureMatch) : Prop where
  sorted : rest'.Pairwise fun a b => a.dest ≤ b.dest
  perm : ∃ entries : List FutureMatch, rest'.Perm (entries ++ rest) ∧ entries.map FutureMatch.toLZMatch = ms ∧
    ∀ e ∈ entries, e.index ≠ 0
  live : Live mm' (savedOf data rest')
  memory : mm'.usefulMemory = mm.usefulMemory

/-- **Loading the matches of a block.** -/
theorem loadLoop_spec {mark : FutureMatch} {rest : List FutureMatch} {ms : List LZMatch} (fuel : ℕ)
    (hfuel : ms.length < fuel) (hok : ∀ m ∈ ms, Part data m) (hdata : data.length < 2 ^ 64)
    (hmark : ∀ m ∈ ms, mark.dest ≤ m.dest) (hsorted : rest.Pairwise fun a b => a.dest ≤ b.dest)
    (hlive : Live mm (savedOf data rest)) :
    ∃ mm' rest', loadLoop fuel (diskRecords data ms ++ leBytes 4 0) mm (mark :: (rest ++ [barrier])) =
        (mm', mark :: (rest' ++ [barrier])) ∧ Loaded data mm rest ms mm' rest' := by
  induction ms generalizing fuel mm rest with
  | nil =>
    obtain ⟨fuel, rfl⟩ : ∃ k, fuel = k + 1 := ⟨fuel - 1, by rw [List.length_nil] at hfuel; omega⟩
    refine ⟨mm, rest, ?_, hsorted, ⟨[], List.Perm.refl _, rfl, ?_⟩, hlive, rfl⟩
    · rw [loadLoop]
      have hzero : leValue ((diskRecords data [] ++ leBytes 4 0).take 4) = 0 := by
        rw [diskRecords, List.flatMap_nil, List.nil_append, List.take_of_length_le (length_leBytes 4 0).le]
        exact leValue_leBytes 4 0
      dsimp only
      rw [if_pos hzero]
    · intro e he
      cases he
  | cons m ms ih =>
    obtain ⟨fuel, rfl⟩ : ∃ k, fuel = k + 1 := ⟨fuel - 1, by rw [List.length_cons] at hfuel; omega⟩
    have hm := hok m List.mem_cons_self
    have hsrc_lt := hm.src_lt
    have hend := hm.end_le
    have hpos := hm.len_pos
    have hbytes : (bytesOf data m).length = m.len := length_span (by omega)
    obtain ⟨hlen, hsrc, hdest, hdrop, hrest⟩ := read_diskRecord hm.len_lt (by omega) (by omega) (bytesOf data m)
      (diskRecords data ms ++ leBytes 4 0) hbytes
    have hne : bytesOf data m ≠ [] := by
      intro hnil
      rw [hnil, List.length_nil] at hbytes
      omega
    obtain ⟨hindex, hlive', hmemory⟩ := live_save hlive hne
    have hentry : (⟨m, (mm.save (bytesOf data m)).1⟩ : FutureMatch).dest < barrier.dest := by
      change m.dest < 2 ^ 64 - 1
      omega
    have hinsert := heapInsert_perm ⟨m, (mm.save (bytesOf data m)).1⟩ rest
    have hsaved : Live (mm.save (bytesOf data m)).2
        (savedOf data (heapInsert ⟨m, (mm.save (bytesOf data m)).1⟩ rest)) := by
      refine hlive'.perm ?_
      have hcons := savedOf_perm data hinsert.symm
      rwa [savedOf_cons_of_ne hindex] at hcons
    obtain ⟨mm', rest', hload, hloaded⟩ := ih fuel (Nat.lt_of_succ_lt_succ hfuel)
      (fun m' hm' => hok m' (List.mem_cons_of_mem _ hm')) (fun m' hm' => hmark m' (List.mem_cons_of_mem _ hm'))
      (heapInsert_sorted hsorted _) hsaved
    refine ⟨mm', rest', ?_, hloaded.sorted, ?_, hloaded.live, hloaded.memory.trans hmemory⟩
    · rw [diskRecords_cons, List.append_assoc, loadLoop]
      dsimp only
      rw [hlen, if_neg hpos.ne', hdrop, hsrc, hdest, hrest,
        heapInsert_cons_of_le (hmark m List.mem_cons_self), heapInsert_append hentry, hload]
    · obtain ⟨entries, hperm, hentries, hindices⟩ := hloaded.perm
      refine ⟨⟨m, (mm.save (bytesOf data m)).1⟩ :: entries, ?_, ?_, ?_⟩
      · exact (hperm.trans (hinsert.append_left entries)).trans List.perm_middle
      · rw [List.map_cons, hentries]
      · intro e he
        rcases List.mem_cons.mp he with rfl | he
        · exact hindex
        · exact hindices e he

/-- A match with the smallest destination is the first one. -/
lemma eq_cons_of_le (hstrict : body.Pairwise fun a b => a.dest < b.dest) (he : e ∈ body)
    (hle : ∀ e' ∈ body, e.dest ≤ e'.dest) : ∃ rest, body = e :: rest := by
  cases body with
  | nil => cases he
  | cons x xs =>
    rcases List.mem_cons.mp he with rfl | he
    · exact ⟨xs, rfl⟩
    · have hlt := (List.pairwise_cons.mp hstrict).1 e he
      have hge := hle x List.mem_cons_self
      omega

/-- **Restoring from disk** brings the matches of a mark back; the first of them is the next match. -/
theorem Held.restoreFromDisk {mark : FutureMatch} {rest : List FutureMatch}
    (h : Held data maximumSave start stop s disk (mark :: rest) P) (hdata : data.length < 2 ^ 64)
    (hzero : mark.len = 0) (hG : GoodCalls data G) (hfuel : dataCount (mark :: rest) < fuel) :
    (SREP.restoreFromDisk fuel mark s).Yields G
      fun s' => ∃ disk' e body', Held data maximumSave start stop { s' with heap := s'.heap.erase mark } disk'
        (e :: body') P ∧ e.len ≠ 0 ∧ s'.mm.usefulMemory = s.mm.usefulMemory := by
  have hindex := (h.marked mark List.mem_cons_self hzero).index_eq
  have hnot : ¬60 * data.length ≤ s.mm.usefulMemory := fun henough =>
    h.enough henough mark List.mem_cons_self hzero
  rw [SREP.restoreFromDisk]
  refine Noted.yields_bind (h.waitForSpace hdata hG (fun henough => absurd henough hnot) hfuel) ?_
  rintro s₁ ⟨disk₁, body₁, hkept⟩
  have h₁ := hkept.held
  -- the mark is still the first entry
  have hmem := hkept.plain mark List.mem_cons_self hindex
  have hfirst : ∀ e ∈ body₁, mark.dest ≤ e.dest := by
    intro e he
    obtain ⟨e', he', hle⟩ := hkept.lower e he
    rcases List.mem_cons.mp he' with rfl | he'
    · exact hle
    · exact ((List.pairwise_cons.mp h.strict).1 e' he').le.trans hle
  obtain ⟨rest₁, rfl⟩ := eq_cons_of_le h₁.strict hmem hfirst
  have hmark := h₁.marked mark List.mem_cons_self hzero
  have hpart : ∀ m ∈ disk₁ mark.src, Part data m := by
    intro m hm
    refine h₁.ok m (h₁.mem_contents List.mem_cons_self ?_).1
    rw [contents_of_eq hzero]
    exact hm
  have hlive : Live s₁.mm (savedOf data rest₁) := by
    have hcons := h₁.live
    rwa [savedOf_cons_of_eq hindex] at hcons
  have hlong : (disk₁ mark.src).length < (s₁.vm.file mark.src).length := by
    rw [hmark.file]
    exact length_lt_diskRecords data _
  obtain ⟨mm', rest', hload, hloaded⟩ := loadLoop_spec (s₁.vm.file mark.src).length hlong hpart hdata hmark.le
    (List.pairwise_cons.mp h₁.sorted).2 hlive
  obtain ⟨entries, hperm, hentries, hindices⟩ := hloaded.perm
  have hentries_mem : ∀ e ∈ entries, e.toLZMatch ∈ disk₁ mark.src := by
    intro e he
    rw [← hentries]
    exact List.mem_map_of_mem he
  have hentries_len : ∀ e ∈ entries, e.len ≠ 0 := fun e he => (hpart _ (hentries_mem e he)).len_pos.ne'
  have hmem_iff : ∀ e, e ∈ rest' ↔ e ∈ entries ∨ e ∈ rest₁ := by
    intro e
    rw [hperm.mem_iff, List.mem_append]
  have hnumbers : (markNumbers rest' ++ mark.src :: s₁.vm.freeBlocks).Perm
      (markNumbers (mark :: rest₁) ++ s₁.vm.freeBlocks) := by
    have hmarks := markNumbers_perm hperm
    rw [markNumbers_append, markNumbers_eq_nil hentries_len, List.nil_append] at hmarks
    have hcons : markNumbers (mark :: rest₁) = mark.src :: markNumbers rest₁ := by
      rw [markNumbers, List.filter_cons_of_pos (by simpa using hzero), List.map_cons, markNumbers]
    rw [hcons]
    exact (hmarks.append_right _).trans List.perm_middle
  have hheld : Held data maximumSave start stop
      ⟨mm', { s₁.vm with freeBlocks := mark.src :: s₁.vm.freeBlocks }, rest' ++ [barrier]⟩ disk₁ rest' P := by
    refine ⟨rfl, hloaded.sorted, ?_, h₁.ok, h₁.apart, h₁.sources, ?_, ?_, (hnumbers.nodup_iff).mpr h₁.blocks, ?_, hloaded.live,
      ?_⟩
    · have hall := hperm.flatMap_right (contents disk₁)
      rw [List.flatMap_append, flatMap_contents hentries_len, hentries] at hall
      have hpending := h₁.pending
      rw [List.flatMap_cons, contents_of_eq hzero] at hpending
      exact hall.trans hpending
    · intro e he hmarked
      rcases (hmem_iff e).mp he with he | he
      · exact absurd hmarked (hentries_len e he)
      · obtain ⟨hi, hf, hl, hfile⟩ := h₁.marked e (List.mem_cons_of_mem _ he) hmarked
        exact ⟨hi, hf, hl, hfile⟩
    · intro e he hlen hplain
      rcases (hmem_iff e).mp he with he | he
      · exact absurd hplain (hindices e he)
      · exact h₁.plain e (List.mem_cons_of_mem _ he) hlen hplain
    · intro n hn
      exact h₁.numbers n (hnumbers.mem_iff.mp hn)
    · intro henough
      rw [hloaded.memory, hkept.memory] at henough
      exact absurd henough hnot
  -- the match at the mark is now the first one
  obtain ⟨m₀, hm₀, hdest₀⟩ := hmark.first
  obtain ⟨e₀, he₀, rfl⟩ := List.mem_map.mp (hentries ▸ hm₀)
  have hfirst' : ∀ e ∈ rest', e₀.dest ≤ e.dest := by
    intro e he
    have hdest : e₀.dest = mark.dest := hdest₀
    rw [hdest]
    rcases (hmem_iff e).mp he with he | he
    · exact hmark.le _ (hentries_mem e he)
    · exact hfirst e (List.mem_cons_of_mem _ he)
  obtain ⟨body', rfl⟩ := eq_cons_of_le hheld.strict ((hmem_iff e₀).mpr (.inl he₀)) hfirst'
  have hheap : s₁.heap = mark :: (rest₁ ++ [barrier]) := h₁.heap_eq
  have hloop : loadLoop (s₁.vm.file mark.src).length (s₁.vm.file mark.src) s₁.mm s₁.heap =
      (mm', mark :: (e₀ :: body' ++ [barrier])) := by
    rw [← hload, hheap, ← hmark.file]
  apply Noted.yields_pure
  rw [hloop]
  refine ⟨disk₁, e₀, body', ?_, hentries_len e₀ he₀, hloaded.memory.trans hkept.memory⟩
  dsimp only
  rw [List.erase_cons_head]
  exact hheld

end DArc.SREP
