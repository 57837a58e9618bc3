import DArc.Compression.Common
import DArc.Tornado.BitStreams
import DArc.Tornado.Counter

/-!
# The Huffman tree

`build_tree` sorts the symbols by their counters, joins the two nodes with the smallest counters again and again, gives
the nodes their codes from the last join down, and moves the codes to the tables of the encoder or of the decoder.
Afterwards it makes the counters smaller.

Counters, numbers of bits and codes stay far below `2 ^ 31` where the tree is used, so they are natural numbers here;
only the comparison that sorts the large counters keeps its 32 bits.  `code[]` and the end of `buf[]` also serve as
memory for other things, which is left out.

### Outline

* `placed`, `sortedNodes`: the symbols in the order of their counters;
* `Joining`, `joined`: the joins;
* `words`: the codes of the nodes;
* `HuffmanTree`, `HuffmanTree.buildTree`, `HuffmanTree.decode`: the tree.
-/

namespace DArc.Tornado

/-- `MAXHUF`: no tree has more symbols. -/
def maxhuf : ℕ := 2048

/-- `FAST_BITS`: codes of at most so many bits are looked up at once. -/
def fastBits : ℕ := 11

/-- `CHUNKS`: symbols with smaller counters are sorted by counting. -/
def chunks : ℕ := 250

/-- `INT_MAX`. -/
def intMax : ℕ := 2147483647

/-! ## The symbols in the order of their counters -/

/-- `make_node`. -/
def makeNode (i cnt : ℕ) : ℕ := uint32 (cnt * maxhuf + i)

/-- `index0`. -/
def index0 (node : ℕ) : ℕ := node % maxhuf

/-- `cnt0`. -/
def cnt0 (node : ℕ) : ℕ := node / maxhuf

/-- `by_cnt_and_index`. -/
def byCntAndIndex (a b : ℕ) : Int := int32 ((a : Int) - b)

/-- `Node`, before it has a code.  A symbol is in the `left` of its node. -/
structure Node where
  cnt : ℕ
  left : ℕ
  right : ℕ
  deriving DecidableEq, Inhabited

/-- `places`, when the small counters have been counted. -/
def counted (n : ℕ) (counter : ℕ → ℕ) : List ℕ :=
  (List.range n).foldl
    (fun places i => if counter i < chunks then places.modify (counter i + 1) fun k => k + 1 else places)
    (List.replicate (chunks + 1) 0)

/-- `places`, when the numbers have been added up. -/
def summed (places : List ℕ) : List ℕ :=
  (List.range chunks).foldl (fun places i => places.modify (i + 1) fun k => k + places.getD i 0) places

/-- What the loop that places the symbols changes. -/
structure Placing where
  places : List ℕ
  buf : List Node
  rest : List ℕ
  deriving DecidableEq

/-- A symbol goes to its place, or to those with large counters. -/
def Placing.place (counter : ℕ → ℕ) (p : Placing) (i : ℕ) : Placing :=
  if counter i < chunks then
    { p with
      places := p.places.modify (counter i) fun k => k + 1
      buf := p.buf.set (p.places.getD (counter i) 0) ⟨counter i, i, 0⟩ }
  else { p with rest := p.rest ++ [makeNode i (counter i)] }

/-- All symbols are placed. -/
def placed (n : ℕ) (counter : ℕ → ℕ) : Placing :=
  (List.range n).foldl (Placing.place counter) ⟨summed (counted n counter), List.replicate n default, []⟩

/-- `buf[0..b-1]`, when `rest` has been sorted. -/
def sortedNodes (n : ℕ) (counter : ℕ → ℕ) : List Node :=
  let p := placed n counter
  p.buf.take (p.places.getD chunks 0) ++
    (p.rest.insertionSort fun a b => byCntAndIndex a b ≤ 0).map fun node => ⟨cnt0 node, index0 node, 0⟩

/-! ## The joins -/

/-- What the loop of the joins changes: the first nodes that remain, and `buf[b+2..p3-1]`. -/
structure Joining where
  p1 : ℕ
  p2 : ℕ
  combined : List Node

namespace Joining

variable (nodes : List Node)

/-- `p3`. -/
def p3 (s : Joining) : ℕ := nodes.length + 2 + s.combined.length

/-- The counters in `buf`, with the fences. -/
def cnt (s : Joining) (p : ℕ) : ℕ :=
  (nodes.map Node.cnt ++ [intMax, intMax] ++ s.combined.map Node.cnt).getD p intMax

/-- The loop ends: only one node remains. -/
def Done (s : Joining) : Prop := s.p1 = nodes.length ∧ s.p3 nodes - s.p2 = 1

instance (s : Joining) : Decidable (s.Done nodes) := by unfold Done; infer_instance

/-- The body of the loop. -/
def step (s : Joining) : Joining :=
  let cnt := s.cnt nodes
  if cnt (s.p1 + 1) < cnt s.p2 then
    { p1 := s.p1 + 2, p2 := s.p2, combined := s.combined ++ [⟨cnt s.p1 + cnt (s.p1 + 1), s.p1, s.p1 + 1⟩] }
  else if cnt s.p1 > cnt (s.p2 + 1) then
    { p1 := s.p1, p2 := s.p2 + 2, combined := s.combined ++ [⟨cnt s.p2 + cnt (s.p2 + 1), s.p2, s.p2 + 1⟩] }
  else { p1 := s.p1 + 1, p2 := s.p2 + 1, combined := s.combined ++ [⟨cnt s.p1 + cnt s.p2, s.p1, s.p2⟩] }

end Joining

/-- The loop of the joins, for some turns at most. -/
def joinLoop (nodes : List Node) : ℕ → Joining → Joining
  | 0, s => s
  | fuel + 1, s => if s.Done nodes then s else joinLoop nodes fuel (s.step nodes)

/-- The joins, for as many turns as there are nodes. -/
def joined (nodes : List Node) : Joining := joinLoop nodes nodes.length ⟨0, nodes.length + 2, []⟩

/-! ## The codes -/

/-- The `bits` and the `code` of a node. -/
structure Word where
  bits : ℕ
  code : ℕ
  deriving DecidableEq, Inhabited

/-- The two nodes of a join get the code of the join, with another bit. -/
def assign (base : ℕ) (combined : List Node) (word : ℕ → Word) (j : ℕ) : ℕ → Word :=
  let node := combined.getD j default
  let own := word (base + j)
  Function.update (Function.update word node.left ⟨own.bits + 1, own.code⟩) node.right
    ⟨own.bits + 1, own.code + 1 <<< own.bits⟩

/-- The codes of all nodes, from the last join down. -/
def words (nodes : List Node) : ℕ → Word :=
  let s := joined nodes
  let base := nodes.length + 2
  (List.range (s.p2 + 1 - base)).reverse.foldl (assign base s.combined) fun _ => ⟨0, 0⟩

/-! ## The tree -/

/-- `HuffmanTree`. -/
structure HuffmanTree where
  n : ℕ
  counter : ℕ → ℕ
  maxbits : ℕ
  maxbitsSoFar : ℕ
  bits : ℕ → ℕ
  code : ℕ → ℕ
  fastIndex : ℕ → Int
  index : ℕ → ℕ
  deriving Inhabited

namespace HuffmanTree

/-- `Inc`. -/
def inc (t : HuffmanTree) (s : ℕ) : HuffmanTree :=
  { t with counter := Function.update t.counter s (t.counter s + 1) }

/-- `Decode`. -/
def decode (t : HuffmanTree) (code : ℕ) : ℕ :=
  let x := t.fastIndex (mask code fastBits)
  if 0 ≤ x then x.toNat else t.index code

/-- The code of a symbol is moved to the tables of the encoder. -/
def putWord (word : ℕ → Word) (t : HuffmanTree) (node : Node × ℕ) : HuffmanTree :=
  let s := node.1.left
  { t with bits := Function.update t.bits s (word node.2).bits, code := Function.update t.code s (word node.2).code }

/-- The elements of a table, `step` apart, that belong to a symbol. -/
def fill {α : Type} (table : ℕ → α) (code bits count : ℕ) (s : α) : ℕ → α :=
  (List.range count).foldl (fun table j => Function.update table (code + j <<< bits) s) table

/-- A symbol is put into the tables of the decoder. -/
def putIndex (word : ℕ → Word) (t : HuffmanTree) (node : Node × ℕ) : HuffmanTree :=
  let s := node.1.left
  let sbits := (word node.2).bits
  let scode := (word node.2).code
  let t := { t with bits := Function.update t.bits s sbits }
  if sbits ≤ fastBits then { t with fastIndex := fill t.fastIndex scode sbits (1 <<< (fastBits - sbits)) (s : Int) }
  else
    { t with
      fastIndex := Function.update t.fastIndex (mask scode fastBits) (-1)
      index := fill t.index scode sbits (1 <<< (t.maxbits - sbits)) s }

/-- The factor that a mode makes the counters smaller by. -/
def factor : ℕ → Option ℕ
  | 0 => some 2
  | 1 => some 3
  | 2 => some 4
  | 3 => some 6
  | 4 => some 8
  | 5 => some 10
  | 6 => some 12
  | 7 => some 16
  | _ => none

/-- A counter that `rescale` has made smaller. -/
def rescaled (factor cnt : ℕ) : ℕ := cnt - if 1 < cnt ∧ cnt < factor then 1 else cnt / factor

/-- The counters are prepared for the next block. -/
def rescale (t : HuffmanTree) (mode : ℕ) : HuffmanTree :=
  match factor mode with
  | some factor => { t with counter := fun s => if s < t.n then rescaled factor (t.counter s) else t.counter s }
  | none => t

/-- `build_tree`. -/
def buildTree (type : CodecDirection) (t : HuffmanTree) (mode : ℕ) : HuffmanTree :=
  let nodes := sortedNodes t.n t.counter
  let word := words nodes
  let t :=
    match type with
    | .encoder => nodes.zipIdx.foldl (putWord word) t
    | .decoder =>
      let maxbits := (word 0).bits
      nodes.zipIdx.foldl (putIndex word) { t with maxbits, maxbitsSoFar := max t.maxbitsSoFar maxbits }
  t.rescale mode

/-- A tree of `n` symbols before it is built.  The memory of the tree has any contents before. -/
def fresh (n : ℕ) (memory : HuffmanTree) : HuffmanTree :=
  { memory with n, counter := fun s => if s < n then 1 else memory.counter s, maxbitsSoFar := 0 }

/-- The constructor. -/
def new (type : CodecDirection) (n : ℕ) (memory : HuffmanTree) : HuffmanTree := (fresh n memory).buildTree type 0

end HuffmanTree

end DArc.Tornado
