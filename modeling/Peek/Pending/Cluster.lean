/-
What the pending tree tells a scheduler (`src/tree.rs`, `src/pending.rs`): the cluster a
request belongs to, and the queue order of stock longest-prefix-match.
-/
import Peek.Pending.PendingTree
import Mathlib.Data.List.Sort

namespace Peek

namespace Tree

/-- Climb to the first node that two pending requests pass; its depth comes along. -/
def clusterLoop (t : Tree) : Nat → NodeId → Nat → Option (NodeId × Nat × Nat)
  | 0, _, _ => none
  | fuel + 1, cur, depthAtCur =>
      if cur = ROOT then none
      else
        let n := t.node cur
        if n.pendingCount ≥ 2 then some (cur, depthAtCur, n.pendingCount)
        else t.clusterLoop fuel n.parent (depthAtCur - n.edge.length)

/-- The deepest node on the way to `rid` that another pending request shares. -/
def clusterInfo (t : Tree) (rid : Rid) (tokens : List Token) : Option (NodeId × Nat × Nat) :=
  let d := t.descend tokens
  if d.consumed ≠ tokens.length ∨ d.endOffset ≠ (t.node d.endNode).edge.length then none
  else if rid ∉ (t.node d.endNode).terminators then none
  else t.clusterLoop (tokens.length + 1) d.endNode tokens.length

end Tree

namespace PendingTree

def allClusterInfo (p : PendingTree) : Map Rid (Option (NodeId × Nat × Nat)) :=
  p.paths.entries.foldl (fun out e => out.insert e.1 (p.tree.clusterInfo e.1 e.2)) ∅

/-- Walk down from the root; what a node adds is its pending count times its edge length. -/
def reqScoresLoop (t : Tree) : Nat → List (NodeId × Int) → Map Rid Int → Map Rid Int
  | 0, _, result => result
  | _ + 1, [], result => result
  | fuel + 1, (nodeId, scoreHere) :: stack, result =>
      let node := t.node nodeId
      let result := node.terminators.foldl (fun result rid => result.insert rid scoreHere) result
      let pushed := node.children.values.map fun childId =>
        let child := t.node childId
        (childId, scoreHere + (child.pendingCount : Int) * (child.edge.length : Int))
      reqScoresLoop t fuel (pushed.reverse ++ stack) result

/-- Every node is popped once, so the arena's size is fuel enough. -/
def computeReqScores (p : PendingTree) : Map Rid Int :=
  reqScoresLoop p.tree p.tree.nodes.size [(ROOT, 0)] ∅

section Order

variable (order : Map Token NodeId → List NodeId)

/-- The same walk, with the children of a node in the order in which `order` yields them. -/
def reqScoresLoopIn (t : Tree) : Nat → List (NodeId × Int) → Map Rid Int → Map Rid Int
  | 0, _, result => result
  | _ + 1, [], result => result
  | fuel + 1, (nodeId, scoreHere) :: stack, result =>
      let node := t.node nodeId
      let result := node.terminators.foldl (fun result rid => result.insert rid scoreHere) result
      let pushed := (order node.children).map fun childId =>
        let child := t.node childId
        (childId, scoreHere + (child.pendingCount : Int) * (child.edge.length : Int))
      reqScoresLoopIn t fuel (pushed.reverse ++ stack) result

def computeReqScoresIn (p : PendingTree) : Map Rid Int :=
  reqScoresLoopIn order p.tree p.tree.nodes.size [(ROOT, 0)] ∅

end Order

theorem computeReqScoresIn_values (p : PendingTree) :
    p.computeReqScoresIn Map.values = p.computeReqScores := by
  have hloop : ∀ (fuel : Nat) (stack : List (NodeId × Int)) (result : Map Rid Int),
      reqScoresLoopIn Map.values p.tree fuel stack result = reqScoresLoop p.tree fuel stack result := by
    intro fuel
    induction fuel with
    | zero => intro stack result; rfl
    | succ fuel ih =>
        intro stack result
        cases stack with
        | nil => rfl
        | cons top stack => exact ih _ _
  exact hloop _ _ _

/-- How `lpm_sort_order` compares two `(main_hit, is_deprioritized)` pairs. -/
def lpmCompare (a b : Int × Bool) : Ordering :=
  match a.2, b.2 with
  | false, true => .lt
  | true, false => .gt
  | true, true => .eq
  | false, false => compare b.1 a.1

/-- Queue positions in admission order; `sort_by` is stable. -/
def lpmSortOrder (keys : List (Int × Bool)) : List Nat :=
  (List.range keys.length).insertionSort fun a b =>
    lpmCompare (keys.getD a (0, false)) (keys.getD b (0, false)) ≠ .gt

end PendingTree

end Peek
