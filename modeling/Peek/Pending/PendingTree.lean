/-
The pending-request manager (`src/pending.rs`).

`PendingTree` pairs the radix tree with a map from request id to tokens, so that a
caller can remove a request without saying again what it asked for.  The Python class
adds the argument checks: `insert` and `insert_many` raise `ValueError`, `remove`
raises `KeyError`, and the tree is left alone when they do.

`dualwalk` descends the tree and an external cache together.  It shares one path
buffer and one scratch stack between all levels of the recursion; `Walk` is that
shared state, the stack's top in front.  The order in which a hash map yields its
values is not the program's to choose, so it is a parameter, `order`.
-/
import Peek.Pending.Tree

namespace Peek

/-- The Python exceptions the class raises. -/
inductive PyErr where
  | valueError (msg : String)
  | keyError (rid : Rid)
  deriving DecidableEq

structure PendingTree where
  tree : Tree
  /-- rid -> token path. -/
  paths : Map Rid (List Token)
  deriving DecidableEq

namespace PendingTree

def new : PendingTree := { tree := Tree.new, paths := ∅ }

def len (p : PendingTree) : Nat := p.paths.entries.length

def contains (p : PendingTree) (rid : Rid) : Bool := (p.paths.lookup rid).isSome

def nodeCount (p : PendingTree) : Nat := p.tree.len

/-- Insert a request; `false` and no change if `rid` is already present. -/
def insert (p : PendingTree) (rid : Rid) (tokens : List Token) : Bool × PendingTree :=
  if p.contains rid then (false, p)
  else (true, { tree := p.tree.insert rid tokens, paths := p.paths.insert rid tokens })

/-- Remove a request; `false` and no change if it is not present. -/
def remove (p : PendingTree) (rid : Rid) : Bool × PendingTree :=
  match p.paths.lookup rid with
  | none => (false, p)
  | some tokens =>
      let (ok, tree) := p.tree.remove rid tokens
      (ok, { tree := tree, paths := p.paths.erase rid })

/-! ### The Python class -/

def alreadyPresent (rid : Rid) : PyErr := .valueError s!"rid {rid} already present"

def pyInsert (p : PendingTree) (rid : Rid) (tokens : List Token) :
    Except PyErr Unit × PendingTree :=
  let (ok, p) := p.insert rid tokens
  if ok then (.ok (), p) else (.error (alreadyPresent rid), p)

def pyRemove (p : PendingTree) (rid : Rid) : Except PyErr Unit × PendingTree :=
  let (ok, p) := p.remove rid
  if ok then (.ok (), p) else (.error (.keyError rid), p)

def discard (p : PendingTree) (rid : Rid) : Bool × PendingTree := p.remove rid

/-- The first rid of the batch that is pending already. -/
def checkPresent (p : PendingTree) : List (Rid × List Token) → Except PyErr Unit
  | [] => .ok ()
  | (rid, _) :: items =>
      if p.contains rid then .error (alreadyPresent rid) else p.checkPresent items

/-- The first rid the batch names twice. -/
def checkTwice (seen : List Rid) : List (Rid × List Token) → Except PyErr Unit
  | [] => .ok ()
  | (rid, _) :: items =>
      if rid ∈ seen then .error (.valueError s!"rid {rid} appears twice in batch")
      else checkTwice (seen.insert rid) items

/-- Bulk insert, all or nothing. -/
def insertMany (p : PendingTree) (items : List (Rid × List Token)) :
    Except PyErr Unit × PendingTree :=
  match p.checkPresent items with
  | .error e => (.error e, p)
  | .ok () =>
      match checkTwice [] items with
      | .error e => (.error e, p)
      | .ok () => (.ok (), items.foldl (fun p item => (p.insert item.1 item.2).2) p)

/-- Bulk remove; missing rids are skipped.  Returns how many were there. -/
def removeMany (p : PendingTree) (rids : List Rid) : Nat × PendingTree :=
  rids.foldl (fun (n, p) rid =>
    let (ok, p) := p.remove rid
    (if ok then n + 1 else n, p)) (0, p)

/-- The mutating methods of the class. -/
inductive Op where
  | insert (rid : Rid) (tokens : List Token)
  | remove (rid : Rid)
  | discard (rid : Rid)
  | insertMany (items : List (Rid × List Token))
  | removeMany (rids : List Rid)
  deriving DecidableEq

/-- The tree after one call, whether it returned or raised. -/
def step (p : PendingTree) : Op → PendingTree
  | .insert rid tokens => (p.pyInsert rid tokens).2
  | .remove rid => (p.pyRemove rid).2
  | .discard rid => (p.discard rid).2
  | .insertMany items => (p.insertMany items).2
  | .removeMany rids => (p.removeMany rids).2

/-- The tree after a run of calls on a new tree. -/
def run (ops : List Op) : PendingTree := ops.foldl step new

/-! ### The map after a call -/

theorem pyInsert_of_none {p : PendingTree} {rid : Rid} {tokens : List Token}
    (h : p.paths.lookup rid = none) : p.pyInsert rid tokens = (.ok (), (p.insert rid tokens).2) := by
  have hc : p.contains rid = false := by rw [contains, h]; rfl
  unfold pyInsert insert
  rw [hc]
  rfl

theorem lookup_insert_of_none {p : PendingTree} {rid : Rid} {tokens : List Token}
    (h : p.paths.lookup rid = none) (x : Rid) :
    (p.insert rid tokens).2.paths.lookup x = if x = rid then some tokens else p.paths.lookup x := by
  have hc : p.contains rid = false := by rw [contains, h]; rfl
  unfold insert
  rw [hc]
  exact Map.lookup_insert_of _ _ _ _

theorem lookup_discard (p : PendingTree) (rid x : Rid) :
    (p.discard rid).2.paths.lookup x = if x = rid then none else p.paths.lookup x := by
  unfold discard remove
  cases h : p.paths.lookup rid with
  | none =>
      by_cases hx : x = rid
      · rw [if_pos hx, hx]; exact h
      · rw [if_neg hx]
  | some tokens => exact Map.lookup_erase_of _ _ _

/-! ### The dual walk -/

/-- What one `compute_main_hits` call shares between all levels of its recursion. -/
structure Walk where
  path : List Token
  result : Map Rid Nat
  /-- Top of the stack first. -/
  scratch : List NodeId

/-- `for &rid in terminators { result.insert(rid, main_hit) }` -/
def assignAll (terminators : List Rid) (mainHit : Nat) (result : Map Rid Nat) : Map Rid Nat :=
  terminators.foldl (fun m rid => m.insert rid mainHit) result

variable (order : Map Token NodeId → List NodeId)

/-- The `while scratch.len() > base` loop of `assign_subtree_main_hit`. -/
def assignLoop (t : Tree) (mainHit base : Nat) : Nat → Walk → Walk
  | 0, w => w
  | fuel + 1, w =>
      if w.scratch.length > base then
        match w.scratch with
        | [] => w
        | nodeId :: rest =>
            let node := t.node nodeId
            assignLoop t mainHit base fuel
              { w with
                result := assignAll node.terminators mainHit w.result
                scratch := (order node.children).reverse ++ rest }
      else w

/-- Assign `mainHit` to every terminator in the subtree rooted at `rootId`. -/
def assignSubtreeMainHit (t : Tree) (rootId : NodeId) (mainHit : Nat) (w : Walk) : Walk :=
  assignLoop order t mainHit w.scratch.length t.nodes.size
    { w with scratch := rootId :: w.scratch }

/-- One turn of `dualwalk`'s loop, for the child popped off the stack. -/
def dualwalkTurn (t : Tree) (cacheMatchFn : List Token → Nat) (minPendingCount : Nat)
    (dualwalk : NodeId → Nat → Bool → Walk → Walk) (mainHitAtNode : Nat) (established : Bool)
    (child : NodeId) (w : Walk) : Walk :=
  if established ∧ (t.node child).pendingCount < minPendingCount then
    assignSubtreeMainHit order t child mainHitAtNode w
  else
    let edge := (t.node child).edge
    let w := { w with path := w.path ++ edge }
    let newDepth := w.path.length
    let matchLen := cacheMatchFn w.path
    let w := if matchLen ≥ newDepth then dualwalk child newDepth true w
      else assignSubtreeMainHit order t child matchLen w
    { w with path := w.path.take (w.path.length - edge.length) }

/-- The `while scratch.len() > saved_stack_len` loop of `dualwalk`. -/
def drain (turn : NodeId → Walk → Walk) (saved : Nat) : Nat → Walk → Walk
  | 0, w => w
  | fuel + 1, w =>
      if w.scratch.length > saved then
        match w.scratch with
        | [] => w
        | child :: rest => drain turn saved fuel (turn child { w with scratch := rest })
      else w

/--
The recursive dual walk.  The first fuel bounds the depth of the recursion; the loop
turns once for each child, since a turn leaves the stack as it found it.
-/
def dualwalk (t : Tree) (cacheMatchFn : List Token → Nat) (minPendingCount : Nat) :
    Nat → NodeId → Nat → Bool → Walk → Walk
  | 0, _, _, _, w => w
  | fuel + 1, nodeId, mainHitAtNode, established, w =>
      let node := t.node nodeId
      let children := order node.children
      let saved := w.scratch.length
      drain
        (dualwalkTurn order t cacheMatchFn minPendingCount
          (dualwalk t cacheMatchFn minPendingCount fuel) mainHitAtNode established)
        saved children.length
        { w with
          result := assignAll node.terminators mainHitAtNode w.result
          scratch := children.reverse ++ w.scratch }

/-- The length of the longest pending prompt, which no root path exceeds. -/
def maxDepth (p : PendingTree) : Nat :=
  p.paths.entries.foldr (fun e n => max e.2.length n) 0

/-- Main-cache match length for every pending rid, in one dual walk. -/
def computeMainHits (p : PendingTree) (cacheMatchFn : List Token → Nat) (minPendingCount : Nat) :
    Map Rid Nat :=
  (dualwalk order p.tree cacheMatchFn minPendingCount (p.maxDepth + 1) ROOT 0 false
    { path := [], result := ∅, scratch := [] }).result

end PendingTree

end Peek
