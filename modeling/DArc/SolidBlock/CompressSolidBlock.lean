import DArc.SolidBlock.Stages

/-!
# The pipeline that compresses a solid block

`darc_compress_solid_block_w` starts the reader thread, a thread for each method and the writer thread, with a
ring between each two of them, and joins them.  A method thread closes the queue behind it when its method
returns, but it does not take what is left in the queue in front of it; the queues are emptied only after all
threads are joined.  So a method that returns before it has read all its input stops the thread before it, when
more than the six buffers of the ring are left.

### Main results

* `orderly_iff`: nothing gets lost and all threads are joined, in whatever order they run, if and only if no
  method leaves over more buffers than the ring in front of it holds;
* `not_orderly`: a method that fails at once leaves the reader waiting.
-/

namespace DArc.SolidBlock

section

variable (files : List (Option (List UInt8))) (malloc : ℕ → Bool) (methods : List (Method × (ℕ → Bool)))
  (bfileWrite : ℕ → Int)

/-- The threads between the reader and the writer. -/
def middleStages : List (Method × (ℕ → Bool)) → List Stage
  | [] => [.storing .popping]
  | methods => methods.map fun m => .method m.1 (methodStart m.1 m.2)

/-- The threads, from the reader to the writer. -/
def stages : List Stage :=
  .reader (readerStart files malloc) :: (middleStages methods ++ [.writer (writerStart bfileWrite)])

/-- The number of the writer thread. -/
def writerPlace : ℕ := (middleStages methods).length + 1

/-- The threads by their number. -/
def stageAt (k : ℕ) : Stage := (stages files malloc methods bfileWrite).getD k (.storing .done)

/-- The threads and their queues when they are started. -/
def compressSolidBlock : Net StreamQueue StreamBuf Stage :=
  Net.init streamQueue (stageAt files malloc methods bfileWrite)

/-- One step of a thread. -/
def blockStep : Net StreamQueue StreamBuf Stage → ℕ → Option (Net StreamQueue StreamBuf Stage) :=
  Net.step streamQueue stageAction (writerPlace methods)

/-- In every state that is reached, what was popped from a queue are the first of the buffers that were pushed,
and its end was seen only after all of them were popped and the thread before it has closed it; and all threads
end. -/
def Orderly : Prop :=
  (∀ net, Reachable (blockStep methods) (compressSolidBlock files malloc methods bfileWrite) net →
    ∀ k < writerPlace methods,
      net.pushed k = net.popped k ++ (net.queue k).contents ∧
        (net.sawEnd k = true → net.ended k = true ∧ net.popped k = net.pushed k)) ∧
  Net.Joins streamQueue stageAction (writerPlace methods) (stageAt files malloc methods bfileWrite)

/-- Each method, run on its own on what is put out before it, returns, and leaves over what a ring holds. -/
def MethodsLeaveRoom : List StreamBuf → List (Method × (ℕ → Bool)) → Prop
  | _, [] => True
  | input, (M, malloc) :: methods => ∃ n out unread,
      Alone (methodAction M) n (methodStart M malloc) input out unread ∧
        unread.length ≤ streamRingSlots ∧ MethodsLeaveRoom out methods

end

variable {files : List (Option (List UInt8))} {malloc : ℕ → Bool} {methods : List (Method × (ℕ → Bool))}
  {bfileWrite : ℕ → Int}

/-- The writer leaves nothing over. -/
lemma fitsFrom_writer (input : List StreamBuf) :
    Net.FitsFrom stageAction streamRingSlots input [.writer (writerStart bfileWrite)] := by
  obtain ⟨n, hn⟩ := alone_writer input (w := writerStart bfileWrite) rfl
  exact ⟨n, input, [], hn.map fun _ => rfl, Nat.zero_le _, trivial⟩

/-- What the method threads and the writer leave over is what the methods leave over. -/
lemma fitsFrom_methods {input : List StreamBuf} :
    Net.FitsFrom stageAction streamRingSlots input
        ((methods.map fun m => Stage.method m.1 (methodStart m.1 m.2)) ++ [.writer (writerStart bfileWrite)]) ↔
      MethodsLeaveRoom input methods := by
  induction methods generalizing input with
  | nil => exact iff_of_true (fitsFrom_writer input) trivial
  | cons m methods ih =>
    refine exists_congr fun n => exists_congr fun out => exists_congr fun unread => ?_
    exact and_congr ⟨Alone.of_map fun _ => rfl, Alone.map fun _ => rfl⟩ (and_congr_right fun _ => ih)

variable (bfileWrite) in
/-- What the threads behind the reader leave over is what the methods leave over. -/
lemma fitsFrom_middle {input : List StreamBuf} :
    Net.FitsFrom stageAction streamRingSlots input
        (middleStages methods ++ [.writer (writerStart bfileWrite)]) ↔ MethodsLeaveRoom input methods := by
  cases methods with
  | nil =>
    obtain ⟨n, hn⟩ := alone_storing input
    exact iff_of_true ⟨n, input, [], hn.map fun _ => rfl, Nat.zero_le _, fitsFrom_writer input⟩ trivial
  | cons m methods => exact fitsFrom_methods

variable (bfileWrite) in
/-- What the threads leave over is what the methods leave over of the buffers of the files. -/
lemma fitsFrom_stages :
    Net.FitsFrom stageAction streamRingSlots [] (stages files malloc methods bfileWrite) ↔
      MethodsLeaveRoom (readerBuffers files malloc) methods := by
  obtain ⟨n, hn⟩ := alone_reader (r := readerStart files malloc) rfl
  have hreader : Alone stageAction n (.reader (readerStart files malloc)) [] (readerBuffers files malloc) [] :=
    hn.map fun _ => rfl
  rw [← fitsFrom_middle bfileWrite]
  constructor
  · rintro ⟨m, out, unread, halone, -, hrest⟩
    obtain ⟨rfl, -⟩ := hreader.unique halone
    exact hrest
  · intro hrest
    exact ⟨n, _, [], hreader, Nat.zero_le _, hrest⟩

/-- All threads end when the methods leave room, and only then. -/
lemma joins_iff_methodsLeaveRoom :
    Net.Joins streamQueue stageAction (writerPlace methods) (stageAt files malloc methods bfileWrite) ↔
      MethodsLeaveRoom (readerBuffers files malloc) methods := by
  have hlength : (stages files malloc methods bfileWrite).length = writerPlace methods + 1 := by
    rw [stages, List.length_cons, List.length_append]
    rfl
  rw [Net.joins_iff (by decide), ← fitsFrom_stages bfileWrite]
  exact Net.fits_iff hlength

/-- Whatever the methods do, the queues are in order. -/
lemma queues_in_order {net : Net StreamQueue StreamBuf Stage}
    (h : Reachable (blockStep methods) (compressSolidBlock files malloc methods bfileWrite) net) {k : ℕ}
    (hk : k < writerPlace methods) :
    net.pushed k = net.popped k ++ (net.queue k).contents ∧
      (net.sawEnd k = true → net.ended k = true ∧ net.popped k = net.pushed k) := by
  have hsound := Net.sound_of_reachable h
  have hfifo : net.pushed k = net.popped k ++ (net.queue k).contents := hsound.fifo k hk
  refine ⟨hfifo, fun hseen => ?_⟩
  obtain ⟨hended, hempty⟩ := hsound.seen k hk hseen
  have hnil : (net.queue k).contents = [] := hempty
  refine ⟨hended, ?_⟩
  rw [hfifo, hnil, List.append_nil]

/-- **When the pipeline is in order**: in every run nothing gets lost or is seen too early, and all threads are
joined, if and only if every method returns and leaves no more buffers in front of it than the ring holds. -/
theorem orderly_iff (files : List (Option (List UInt8))) (malloc : ℕ → Bool)
    (methods : List (Method × (ℕ → Bool))) (bfileWrite : ℕ → Int) :
    Orderly files malloc methods bfileWrite ↔ MethodsLeaveRoom (readerBuffers files malloc) methods := by
  constructor
  · rintro ⟨-, hjoins⟩
    exact joins_iff_methodsLeaveRoom.mp hjoins
  · intro hroom
    exact ⟨fun net hnet k hk => queues_in_order hnet hk, joins_iff_methodsLeaveRoom.mpr hroom⟩

/-- A method that fails before it has read anything. -/
def failingMethod : Method where
  State := Unit
  start := ()
  next _ := .ret ErrCode.notEnoughMemory.toInt

/-- Seven files of one byte. -/
def sevenFiles : List (List UInt8) := [[1], [2], [3], [4], [5], [6], [7]]

/-- **A method that fails at once**: the reader waits forever to push the seventh buffer. -/
theorem not_orderly :
    ¬Orderly (sevenFiles.map some) (fun _ => true) [(failingMethod, fun _ => true)] (fun _ => 1) := by
  rintro ⟨-, hjoins⟩
  obtain ⟨n, out, unread, halone, hle, -⟩ := joins_iff_methodsLeaveRoom.mp hjoins
  obtain ⟨-, -, rfl⟩ := halone.of_finish rfl
  rw [readerBuffers_small (by decide)] at hle
  exact absurd hle (by decide)

end DArc.SolidBlock
