/-
The arena-backed radix tree over token sequences (`src/tree.rs`).

Nodes live in an arena indexed by `NodeId`; freed slots go on a freelist and are
handed out again before the arena grows.  `ROOT` is slot 0 and has an empty edge.
Every other node's `edge` is the token sequence consumed on the way from its
parent, and `children` is keyed by the first token of the child's edge.

Tokens, request ids, node ids and counts are `u32`/`u64` in the source and `Nat`
here: ids and counts stay below the number of arena slots and of pending requests,
and 2^32 of either is out of reach of one process.

The `loop`s of the source take a fuel argument.  Each turn of one consumes at least
one token of the path it walks, so the callers pass the length of that path, and
`Peek.Pending.Walk` shows that more fuel changes nothing.
-/
import Peek.Base.Map

namespace Peek

abbrev Token := Nat
abbrev Rid := Nat
abbrev NodeId := Nat

def ROOT : NodeId := 0

/-- Count how many leading tokens of `edge` equal those of `tokens`. -/
def matchEdgeLen (edge tokens : List Token) : Nat :=
  ((edge.zip tokens).takeWhile fun p => p.1 = p.2).length

structure Node where
  edge : List Token
  parent : NodeId
  children : Map Token NodeId
  pendingCount : Nat
  /-- A set: no request id is listed twice. -/
  terminators : List Rid
  deriving DecidableEq

def Node.new (edge : List Token) (parent : NodeId) : Node :=
  { edge := edge, parent := parent, children := ∅, pendingCount := 0, terminators := [] }

instance : Inhabited Node := ⟨Node.new [] ROOT⟩

structure Tree where
  nodes : Array Node
  /-- Freelist of dead slots, the one freed last in front. -/
  free : List NodeId
  deriving DecidableEq

/-- Where a descent ended: the node, the offset within its edge, the tokens matched. -/
structure Descent where
  endNode : NodeId
  endOffset : Nat
  consumed : Nat
  deriving DecidableEq

namespace Tree

def new : Tree :=
  { nodes := #[Node.new [] ROOT], free := [] }

def node (t : Tree) (id : NodeId) : Node := t.nodes.getD id default

/-- `*self.node_mut(id) = f(self.node(id))` -/
def nodeMut (t : Tree) (id : NodeId) (f : Node → Node) : Tree :=
  { t with nodes := t.nodes.modify id f }

def alloc (t : Tree) (edge : List Token) (parent : NodeId) : Tree × NodeId :=
  match t.free with
  | id :: free => ({ nodes := t.nodes.setIfInBounds id (Node.new edge parent), free := free }, id)
  | [] => ({ t with nodes := t.nodes.push (Node.new edge parent) }, t.nodes.size)

/-- Put a dead slot on the freelist, cleared. -/
def freeSlot (t : Tree) (id : NodeId) : Tree :=
  { nodes := t.nodes.setIfInBounds id (Node.new [] ROOT), free := id :: t.free }

/-- `for &g in children.values() { self.node_mut(g).parent = parent }` -/
def reparent (t : Tree) (children : List NodeId) (parent : NodeId) : Tree :=
  children.foldl (fun t g => t.nodeMut g fun n => { n with parent := parent }) t

/--
Split `node` at `offset` within its edge.  The upper half keeps the id; a new node
holding the lower half, the children and the terminators becomes its single child.
-/
def splitEdge (t : Tree) (node : NodeId) (offset : Nat) : Tree :=
  let n := t.node node
  let lowerEdge := n.edge.drop offset
  let lowerFirst := lowerEdge.headD 0
  let t := t.nodeMut node fun n =>
    { n with edge := n.edge.take offset, children := ∅, terminators := [] }
  let (t, lower) := t.alloc lowerEdge node
  let t := t.reparent (Map.values n.children) lower
  let t := t.nodeMut lower fun l =>
    { l with children := n.children, terminators := n.terminators, pendingCount := n.pendingCount }
  t.nodeMut node fun n => { n with children := n.children.insert lowerFirst lower }

def descendLoop (t : Tree) (tokens : List Token) : Nat → NodeId → Nat → Descent
  | 0, node, consumed => ⟨node, (t.node node).edge.length, consumed⟩
  | fuel + 1, node, consumed =>
      if consumed = tokens.length then
        ⟨node, (t.node node).edge.length, consumed⟩
      else
        match (t.node node).children.lookup (tokens.getD consumed 0) with
        | none => ⟨node, (t.node node).edge.length, consumed⟩
        | some child =>
            let edge := (t.node child).edge
            let common := matchEdgeLen edge (tokens.drop consumed)
            if common < edge.length then ⟨child, common, consumed + common⟩
            else t.descendLoop tokens fuel child (consumed + common)

/-- Descend from the root consuming `tokens`, to the first mismatch or their end. -/
def descend (t : Tree) (tokens : List Token) : Descent :=
  t.descendLoop tokens (tokens.length + 1) ROOT 0

/-- `while cur != ROOT { f(node_mut(cur)); cur = node(cur).parent }` -/
def climb (f : Node → Node) : Nat → NodeId → Tree → Tree
  | 0, _, t => t
  | fuel + 1, cur, t =>
      if cur = ROOT then t
      else
        let t := t.nodeMut cur f
        climb f fuel (t.node cur).parent t

/-- Split where the descent stopped, unless that is a node boundary. -/
def splitAt (t : Tree) (d : Descent) : Tree :=
  if d.endOffset ≠ (t.node d.endNode).edge.length then t.splitEdge d.endNode d.endOffset else t

/-- Hang a new child holding `tail` under `branch`. -/
def addChild (t : Tree) (branch : NodeId) (tail : List Token) : Tree × NodeId :=
  let first := tail.headD 0
  let (t, new) := t.alloc tail branch
  (t.nodeMut branch fun n => { n with children := n.children.insert first new }, new)

/--
Insert a terminator for `rid` at the path `tokens`, splitting edges and creating
nodes as needed, and count `rid` on every node of the path but the root.
-/
def insert (t : Tree) (rid : Rid) (tokens : List Token) : Tree :=
  let d := t.descend tokens
  let (t, terminator) :=
    if d.consumed = tokens.length then (t.splitAt d, d.endNode)
    else (t.splitAt d).addChild d.endNode (tokens.drop d.consumed)
  let t := t.nodeMut terminator fun n => { n with terminators := n.terminators.insert rid }
  climb (fun n => { n with pendingCount := n.pendingCount + 1 }) tokens.length terminator t

/--
Delete dead leaves upward from `node`; a node left with one child and no
terminators is fused with that child.
-/
def gc (t : Tree) : Nat → NodeId → Tree
  | 0, _ => t
  | fuel + 1, node =>
      if node = ROOT then t
      else
        let n := t.node node
        if n.terminators.isEmpty ∧ n.children.entries.isEmpty then
          let parent := n.parent
          let first := n.edge.headD 0
          let t := t.nodeMut parent fun p => { p with children := p.children.erase first }
          let t := t.freeSlot node
          gc t fuel parent
        else if n.terminators.isEmpty ∧ n.children.entries.length = 1 then
          let child := (Map.values n.children).headD ROOT
          let c := t.node child
          let t := t.nodeMut child fun c => { c with edge := [], children := ∅, terminators := [] }
          let t := t.nodeMut node fun n => { n with edge := n.edge ++ c.edge }
          let t := t.reparent (Map.values c.children) node
          let t := t.nodeMut node fun m =>
            { m with children := c.children, terminators := c.terminators }
          t.freeSlot child
        else t

/-- Remove `rid` from the tree; `false` and no change if it is not there. -/
def remove (t : Tree) (rid : Rid) (tokens : List Token) : Bool × Tree :=
  let d := t.descend tokens
  if d.consumed ≠ tokens.length ∨ d.endOffset ≠ (t.node d.endNode).edge.length then (false, t)
  else
    let terminator := d.endNode
    if rid ∈ (t.node terminator).terminators then
      let t := t.nodeMut terminator fun n => { n with terminators := n.terminators.erase rid }
      let t := climb (fun n => { n with pendingCount := n.pendingCount - 1 })
        tokens.length terminator t
      (true, t.gc (tokens.length + 1) terminator)
    else (false, t)

/-- Live node count: allocated slots minus freelist entries. -/
def len (t : Tree) : Nat := t.nodes.size - t.free.length

end Tree

end Peek
