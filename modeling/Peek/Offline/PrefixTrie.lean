/-
The client's trie of pending prompts (`python/peek/offline/trie.py`).

A prompt is filed under its first `max_depth` tokens, which is all the trie knows of its
tokens.  What a node is for is the list of prompts that end at it; `promptsAt` reads it off
the path, and insertion and removal change that list at one path only.

`remove` walks down, and then up again twice, to count down and to prune.  Here the two ways
up are one: pruning goes on as long as every node below was pruned, and a node is looked at
when its count has been taken down.
-/
import Peek.Base.Dict
import Peek.Base.StackWalk
import Peek.Pending.Tree
import Mathlib.Algebra.GroupWithZero.Nat
import Mathlib.Data.List.Sort

namespace Peek

open StackWalk

structure TrieNode where
  children : List (Token × TrieNode)
  promptIndices : List Nat
  /-- Number of prompts whose prefix passes through this node. -/
  count : Int

namespace TrieNode

def new : TrieNode := { children := [], promptIndices := [], count := 0 }

/-- The loop of `insert`, from a node down. -/
def insert (promptIndex : Nat) : List Token → TrieNode → TrieNode
  | [], node => { node with promptIndices := node.promptIndices ++ [promptIndex] }
  | token :: tokens, node =>
      let child := (node.children.lookup token).getD new
      let child := insert promptIndex tokens { child with count := child.count + 1 }
      { node with children := Dict.set node.children token child }

/--
The loops of `remove`, from a node down; nothing if the prompt is not there.  The flag says
that pruning has not stopped below.
-/
def remove (promptIndex : Nat) : List Token → TrieNode → Option (TrieNode × Bool)
  | [], node =>
      if promptIndex ∈ node.promptIndices then
        some ({ node with promptIndices := node.promptIndices.erase promptIndex }, true)
      else none
  | token :: tokens, node =>
      match node.children.lookup token with
      | none => none
      | some child =>
          match remove promptIndex tokens child with
          | none => none
          | some (child, pruning) =>
              let child := { child with count := child.count - 1 }
              if pruning ∧ child.count = 0 ∧ child.children.isEmpty ∧ child.promptIndices = [] then
                some ({ node with children := Dict.del node.children token }, true)
              else some ({ node with children := Dict.set node.children token child }, false)

mutual

/-- The nodes of a subtree. -/
def nodeCount : TrieNode → Nat
  | ⟨children, _, _⟩ => 1 + nodeCounts children

def nodeCounts : List (Token × TrieNode) → Nat
  | [] => 0
  | (_, child) :: children => nodeCount child + nodeCounts children

end

/-- The children as they are pushed on the stack. -/
def pushed (countAware : Bool) (node : TrieNode) : List (Token × TrieNode) :=
  if countAware ∧ node.children.length > 1 then
    node.children.insertionSort fun x y => x.2.count ≤ y.2.count
  else node.children.reverse

/-- The loop of `dfs_group_keys`; the top of the stack is in front. -/
def dfsGroupKeysLoop (countAware : Bool) : Nat → List (TrieNode × List Token) → List (List Token)
  | 0, _ => []
  | _ + 1, [] => []
  | fuel + 1, (node, path) :: stack =>
      let keys := dfsGroupKeysLoop countAware fuel
        (((node.pushed countAware).map fun x => (x.2, path ++ [x.1])).reverse ++ stack)
      if node.promptIndices ≠ [] then path :: keys else keys

/-! ### Prompts -/

/-- The prompts that end where `path` leads. -/
def promptsAt : List Token → TrieNode → List Nat
  | [], node => node.promptIndices
  | token :: path, node =>
      match node.children.lookup token with
      | none => []
      | some child => promptsAt path child

end TrieNode

structure PrefixTrie where
  root : TrieNode
  maxDepth : Nat
  numPrompts : Int

namespace PrefixTrie

def new (maxDepth : Nat) : PrefixTrie :=
  { root := TrieNode.new, maxDepth := maxDepth, numPrompts := 0 }

def insert (t : PrefixTrie) (tokenIds : List Token) (promptIndex : Nat) : PrefixTrie :=
  { t with
    root := t.root.insert promptIndex (tokenIds.take t.maxDepth)
    numPrompts := t.numPrompts + 1 }

/-- Remove a prompt; `false` and no change if it is not there. -/
def remove (t : PrefixTrie) (tokenIds : List Token) (promptIndex : Nat) : Bool × PrefixTrie :=
  match t.root.remove promptIndex (tokenIds.take t.maxDepth) with
  | none => (false, t)
  | some (root, _) => (true, { t with root := root, numPrompts := t.numPrompts - 1 })

/-- The paths at which prompts end, in the order of a depth-first walk. -/
def dfsGroupKeys (t : PrefixTrie) (countAware : Bool) : List (List Token) :=
  TrieNode.dfsGroupKeysLoop countAware t.root.nodeCount [(t.root, [])]

end PrefixTrie

namespace TrieNode

/-! ### What insertion and removal do to the prompts -/

theorem promptsAt_new (path : List Token) : promptsAt path new = [] := by
  cases path <;> rfl

theorem promptsAt_cons (token : Token) (path : List Token) (node : TrieNode) :
    promptsAt (token :: path) node =
      promptsAt path ((node.children.lookup token).getD new) := by
  rw [promptsAt]
  cases node.children.lookup token with
  | none => exact (promptsAt_new path).symm
  | some child => rfl

/-- A count says nothing about the prompts. -/
theorem promptsAt_count (path : List Token) (node : TrieNode) (count : Int) :
    promptsAt path { node with count := count } = promptsAt path node := by
  cases path <;> rfl

/-- Writing a child changes what the paths through it find. -/
theorem promptsAt_set (token : Token) (child node : TrieNode) (token' : Token)
    (path : List Token) :
    promptsAt (token' :: path) { node with children := Dict.set node.children token child } =
      if token = token' then promptsAt path child else promptsAt (token' :: path) node := by
  rw [promptsAt_cons, promptsAt_cons, Dict.lookup_set]
  by_cases h : token = token'
  · rw [if_pos h, if_pos h]
    rfl
  · rw [if_neg h, if_neg h]

/-- Insertion adds a prompt where its path ends. -/
theorem promptsAt_insert (promptIndex : Nat) : ∀ (tokens : List Token) (node : TrieNode)
    (path : List Token), promptsAt path (node.insert promptIndex tokens) =
      promptsAt path node ++ if path = tokens then [promptIndex] else [] := by
  intro tokens
  induction tokens with
  | nil =>
      intro node path
      cases path with
      | nil => rfl
      | cons token path =>
          rw [if_neg (List.cons_ne_nil _ _), List.append_nil]
          rfl
  | cons token tokens ih =>
      intro node path
      cases path with
      | nil =>
          rw [if_neg (List.cons_ne_nil _ _).symm, List.append_nil]
          rfl
      | cons token' path =>
          rw [insert, promptsAt_set]
          by_cases h : token = token'
          · rw [if_pos h, ih, promptsAt_count, promptsAt_cons, h]
            simp only [List.cons.injEq, true_and]
          · rw [if_neg h, if_neg fun hc => h (List.cons.inj hc).1.symm, List.append_nil]

/-- A prompt can be removed where it is filed, and nowhere else. -/
theorem remove_eq_none_iff (promptIndex : Nat) : ∀ (tokens : List Token) (node : TrieNode),
    node.remove promptIndex tokens = none ↔ promptIndex ∉ promptsAt tokens node := by
  intro tokens
  induction tokens with
  | nil =>
      intro node
      rw [remove, promptsAt]
      by_cases h : promptIndex ∈ node.promptIndices
      · rw [if_pos h]
        exact iff_of_false (by simp) fun hn => hn h
      · rw [if_neg h]
        exact iff_of_true rfl h
  | cons token tokens ih =>
      intro node
      rw [remove, promptsAt]
      cases node.children.lookup token with
      | none => exact iff_of_true rfl (by simp)
      | some child =>
          simp only
          rw [← ih child]
          cases child.remove promptIndex tokens with
          | none => exact iff_of_true rfl rfl
          | some r =>
              simp only
              refine iff_of_false ?_ (by simp)
              split <;> simp

/-- A node without children and prompts leads to no prompts. -/
theorem promptsAt_empty {node : TrieNode} (hchildren : node.children = [])
    (hprompts : node.promptIndices = []) (path : List Token) : promptsAt path node = [] := by
  cases path with
  | nil => exact hprompts
  | cons token path =>
      rw [promptsAt_cons, hchildren]
      exact promptsAt_new path

/-- What a removal does to one level: the child is written back, or pruned when it is empty. -/
theorem remove_cons {promptIndex : Nat} {token : Token} {tokens : List Token}
    {node node' : TrieNode} {pruning : Bool}
    (h : node.remove promptIndex (token :: tokens) = some (node', pruning)) :
    ∃ child child' pruning', node.children.lookup token = some child ∧
      child.remove promptIndex tokens = some (child', pruning') ∧
      (node' = { node with
          children := Dict.set node.children token { child' with count := child'.count - 1 } } ∨
        child'.children = [] ∧ child'.promptIndices = [] ∧
          node' = { node with children := Dict.del node.children token }) := by
  rw [remove] at h
  cases hchild : node.children.lookup token with
  | none => rw [hchild] at h; simp at h
  | some child =>
      rw [hchild] at h
      simp only at h
      cases hrec : child.remove promptIndex tokens with
      | none => rw [hrec] at h; simp at h
      | some r =>
          obtain ⟨child', pruning'⟩ := r
          rw [hrec] at h
          simp only at h
          refine ⟨child, child', pruning', rfl, hrec, ?_⟩
          split at h
          · rename_i hempty
            simp only [Option.some.injEq, Prod.mk.injEq] at h
            exact Or.inr ⟨List.isEmpty_iff.mp hempty.2.2.1, hempty.2.2.2, h.1.symm⟩
          · simp only [Option.some.injEq, Prod.mk.injEq] at h
            exact Or.inl h.1.symm

/-- **Removal takes a prompt from where it is filed**, and pruning takes none. -/
theorem promptsAt_remove (promptIndex : Nat) : ∀ (tokens : List Token) (node node' : TrieNode)
    (pruning : Bool), node.remove promptIndex tokens = some (node', pruning) →
    ∀ path, promptsAt path node' =
      if path = tokens then (promptsAt path node).erase promptIndex else promptsAt path node := by
  intro tokens
  induction tokens with
  | nil =>
      intro node node' pruning h path
      rw [remove] at h
      by_cases hmem : promptIndex ∈ node.promptIndices
      · rw [if_pos hmem, Option.some.injEq, Prod.mk.injEq] at h
        obtain ⟨rfl, -⟩ := h
        cases path with
        | nil => rfl
        | cons token path => rw [if_neg (List.cons_ne_nil _ _)]; rfl
      · rw [if_neg hmem] at h
        simp at h
  | cons token tokens ih =>
      intro node node' pruning h path
      obtain ⟨child, child', pruning', hchild, hrec, hnode⟩ := remove_cons h
      have ih := ih child child' pruning' hrec
      cases path with
      | nil =>
          rw [if_neg (List.cons_ne_nil _ _).symm]
          rcases hnode with rfl | ⟨-, -, rfl⟩ <;> rfl
      | cons token' path =>
          -- a pruned child had no prompts left, so it is as if it had been written back
          have hwritten : promptsAt (token' :: path) node' =
              if token = token' then promptsAt path child' else promptsAt (token' :: path) node := by
            rcases hnode with rfl | ⟨hchildren, hprompts, rfl⟩
            · rw [promptsAt_set, promptsAt_count]
            · rw [promptsAt_cons, promptsAt_cons, Dict.lookup_del]
              by_cases ht : token = token'
              · rw [if_pos ht, if_pos ht, promptsAt_empty hchildren hprompts]
                exact promptsAt_new path
              · rw [if_neg ht, if_neg ht]
          rw [hwritten]
          by_cases ht : token = token'
          · rw [if_pos ht, ih, promptsAt_cons, ← ht, hchild]
            simp only [List.cons.injEq, true_and, Option.getD_some]
          · rw [if_neg ht, if_neg fun hc => ht (List.cons.inj hc).1.symm]

/-! ### Distinct children -/

/-- No node has two children for one token. -/
inductive Tidy : TrieNode → Prop
  | intro (node : TrieNode) (nodup : (Dict.keys node.children).Nodup)
      (kids : ∀ e ∈ node.children, Tidy e.2) : Tidy node

theorem Tidy.nodup {node : TrieNode} (h : Tidy node) : (Dict.keys node.children).Nodup := by
  cases h with
  | intro _ nodup _ => exact nodup

theorem Tidy.kids {node : TrieNode} (h : Tidy node) : ∀ e ∈ node.children, Tidy e.2 := by
  cases h with
  | intro _ _ kids => exact kids

theorem tidy_new : Tidy new := Tidy.intro new List.nodup_nil fun _ h => absurd h List.not_mem_nil

theorem Tidy.withCount {node : TrieNode} (h : Tidy node) (count : Int) :
    Tidy { node with count := count } := Tidy.intro _ h.nodup h.kids

theorem Tidy.child {node child : TrieNode} (h : Tidy node) {token : Token}
    (hc : node.children.lookup token = some child) : Tidy child :=
  h.kids (token, child) ((Dict.mem_iff_lookup h.nodup).mpr hc)

theorem Tidy.set {node child : TrieNode} (h : Tidy node) (hc : Tidy child) (token : Token) :
    Tidy { node with children := Dict.set node.children token child } := by
  refine Tidy.intro _ (Dict.nodup_set _ _ h.nodup) fun e he => ?_
  rcases Dict.mem_of_mem_set _ _ _ he with he | rfl
  · exact h.kids e he
  · exact hc

theorem Tidy.insert (promptIndex : Nat) : ∀ (tokens : List Token) (node : TrieNode), Tidy node →
    Tidy (node.insert promptIndex tokens) := by
  intro tokens
  induction tokens with
  | nil => intro node h; exact Tidy.intro _ h.nodup h.kids
  | cons token tokens ih =>
      intro node h
      rw [TrieNode.insert]
      have hchild : Tidy ((node.children.lookup token).getD new) := by
        cases hc : node.children.lookup token with
        | none => exact tidy_new
        | some child => exact h.child hc
      exact h.set (ih _ (hchild.withCount _)) token

theorem Tidy.remove {promptIndex : Nat} : ∀ {tokens : List Token} {node node' : TrieNode}
    {pruning : Bool}, Tidy node → node.remove promptIndex tokens = some (node', pruning) →
    Tidy node' := by
  intro tokens
  induction tokens with
  | nil =>
      intro node node' pruning h hr
      rw [TrieNode.remove] at hr
      by_cases hmem : promptIndex ∈ node.promptIndices
      · rw [if_pos hmem, Option.some.injEq, Prod.mk.injEq] at hr
        rw [← hr.1]
        exact Tidy.intro _ h.nodup h.kids
      · rw [if_neg hmem] at hr
        simp at hr
  | cons token tokens ih =>
      intro node node' pruning h hr
      obtain ⟨child, child', pruning', hchild, hrec, hnode⟩ := remove_cons hr
      rcases hnode with rfl | ⟨-, -, rfl⟩
      · exact h.set ((ih (h.child hchild) hrec).withCount _) token
      · refine Tidy.intro _ (Dict.nodup_del _ h.nodup) fun e he => ?_
        exact h.kids e (List.mem_filter.mp he).1

/-! ### The walk -/

theorem nodeCounts_eq_sum : ∀ children : List (Token × TrieNode),
    nodeCounts children = (children.map fun e => e.2.nodeCount).sum := by
  intro children
  induction children with
  | nil => rfl
  | cons e children ih =>
      obtain ⟨token, child⟩ := e
      rw [nodeCounts, ih, List.map_cons, List.sum_cons]

theorem nodeCount_eq (node : TrieNode) :
    node.nodeCount = 1 + (node.children.map fun e => e.2.nodeCount).sum := by
  rw [← nodeCounts_eq_sum]
  obtain ⟨children, promptIndices, count⟩ := node
  rw [nodeCount]

theorem pushed_perm (countAware : Bool) (node : TrieNode) :
    (node.pushed countAware).Perm node.children := by
  unfold pushed
  split
  · exact List.perm_insertionSort _ _
  · exact List.reverse_perm _

/-- The children of a node with their paths, the first to be visited in front. -/
def pathKids (countAware : Bool) (x : TrieNode × List Token) : List (TrieNode × List Token) :=
  ((x.1.pushed countAware).map fun e => (e.2, x.2 ++ [e.1])).reverse

/-- The nodes from `node` down with their paths, which start with `path`. -/
def walk (countAware : Bool) (node : TrieNode) (path : List Token) : List (TrieNode × List Token) :=
  preorder (pathKids countAware) (fun x => x.1.nodeCount) (node, path)

theorem sized_pathKids (countAware : Bool) :
    Sized (pathKids countAware) fun x => x.1.nodeCount := by
  intro x
  have hperm := ((pushed_perm countAware x.1).map fun e => e.2.nodeCount).sum_eq
  unfold pathKids
  rw [List.map_reverse, List.map_map, List.sum_reverse]
  show ((x.1.pushed countAware).map fun e => e.2.nodeCount).sum < x.1.nodeCount
  rw [nodeCount_eq]
  omega

theorem walk_eq (countAware : Bool) (node : TrieNode) (path : List Token) :
    walk countAware node path =
      (node, path) :: (pathKids countAware (node, path)).flatMap fun x => walk countAware x.1 x.2 :=
  (sized_pathKids countAware).preorder_eq (node, path)

theorem dfsGroupKeysLoop_eq (countAware : Bool) : ∀ (fuel : Nat) (stack : List (TrieNode × List Token)),
    dfsGroupKeysLoop countAware fuel stack = (visited (pathKids countAware) fuel stack).flatMap
      fun x => if x.1.promptIndices ≠ [] then [x.2] else [] := by
  intro fuel
  induction fuel with
  | zero => intro stack; rfl
  | succ fuel ih =>
      intro stack
      cases stack with
      | nil => rfl
      | cons x stack =>
          rw [dfsGroupKeysLoop, visited, List.flatMap_cons]
          rw [show ((x.1.pushed countAware).map fun e => (e.2, x.2 ++ [e.1])).reverse =
            pathKids countAware x from rfl, ih]
          split <;> rfl

/-- What the walk pushes are the children, each with its path. -/
theorem mem_pathKids_iff {countAware : Bool} {node : TrieNode} {q : List Token}
    {x : TrieNode × List Token} : x ∈ pathKids countAware (node, q) ↔
      ∃ e ∈ node.children, (e.2, q ++ [e.1]) = x := by
  unfold pathKids
  rw [List.mem_reverse, List.mem_map]
  simp only [(pushed_perm countAware node).mem_iff]

/-- **The walk finds the paths at which prompts end**, below the node it starts from. -/
theorem exists_mem_walk_iff {node : TrieNode} (h : Tidy node) (countAware : Bool)
    (key : List Token) : ∀ q, (∃ x ∈ walk countAware node q, x.1.promptIndices ≠ [] ∧ key = x.2) ↔
      ∃ path, key = q ++ path ∧ promptsAt path node ≠ [] := by
  induction h with
  | intro node nodup kids ih =>
      intro q
      rw [walk_eq, List.exists_mem_cons_iff]
      constructor
      · intro hx
        rcases hx with ⟨hp, hkey⟩ | ⟨x, hx, hp, hkey⟩
        · exact ⟨[], hkey.trans (List.append_nil q).symm, hp⟩
        · obtain ⟨y, hy, hx⟩ := List.mem_flatMap.mp hx
          obtain ⟨e, he, rfl⟩ := mem_pathKids_iff.mp hy
          obtain ⟨path, hkey, hp⟩ := (ih e he (q ++ [e.1])).mp ⟨x, hx, hp, hkey⟩
          refine ⟨e.1 :: path, ?_, ?_⟩
          · rw [hkey, List.append_assoc]
            rfl
          · rw [promptsAt_cons, (Dict.mem_iff_lookup nodup).mp he]
            exact hp
      · intro hpath
        obtain ⟨path, hkey, hp⟩ := hpath
        cases path with
        | nil => exact Or.inl ⟨hp, hkey.trans (List.append_nil q)⟩
        | cons token path =>
            rw [promptsAt] at hp
            cases hc : node.children.lookup token with
            | none => rw [hc] at hp; exact absurd rfl hp
            | some child =>
                rw [hc] at hp
                have he := (Dict.mem_iff_lookup nodup).mpr hc
                have hkey : key = (q ++ [token]) ++ path := by
                  rw [hkey, List.append_assoc]
                  rfl
                obtain ⟨x, hx, hend⟩ := (ih _ he (q ++ [token])).mpr ⟨path, hkey, hp⟩
                exact Or.inr ⟨x, List.mem_flatMap.mpr ⟨_, mem_pathKids_iff.mpr ⟨_, he, rfl⟩, hx⟩, hend⟩

end TrieNode

namespace PrefixTrie

/-- The prompts filed under `key`. -/
def promptsAt (t : PrefixTrie) (key : List Token) : List Nat := t.root.promptsAt key

variable {t : PrefixTrie}

theorem dfsGroupKeys_eq (t : PrefixTrie) (countAware : Bool) : t.dfsGroupKeys countAware =
    (TrieNode.walk countAware t.root []).flatMap fun x => if x.1.promptIndices ≠ [] then [x.2] else [] :=
  TrieNode.dfsGroupKeysLoop_eq countAware t.root.nodeCount [(t.root, [])]

/-- **The group keys are the paths at which prompts end.** -/
theorem mem_dfsGroupKeys_iff (h : t.root.Tidy) (countAware : Bool) (key : List Token) :
    key ∈ t.dfsGroupKeys countAware ↔ t.promptsAt key ≠ [] := by
  have hends : key ∈ t.dfsGroupKeys countAware ↔
      ∃ x ∈ TrieNode.walk countAware t.root [], x.1.promptIndices ≠ [] ∧ key = x.2 := by
    rw [dfsGroupKeys_eq, List.mem_flatMap]
    refine exists_congr fun x => and_congr_right fun _ => ?_
    split
    · next hp => rw [List.mem_singleton, and_iff_right hp]
    · next hp => exact iff_of_false List.not_mem_nil fun hx => hp hx.1
  rw [hends, TrieNode.exists_mem_walk_iff h countAware key []]
  constructor
  · intro hpath
    obtain ⟨path, rfl, hp⟩ := hpath
    exact hp
  · intro hp
    exact ⟨key, rfl, hp⟩

theorem promptsAt_insert (t : PrefixTrie) (tokenIds : List Token) (promptIndex : Nat)
    (key : List Token) : (t.insert tokenIds promptIndex).promptsAt key =
      t.promptsAt key ++ if key = tokenIds.take t.maxDepth then [promptIndex] else [] :=
  TrieNode.promptsAt_insert promptIndex _ t.root key

/-- **A prompt that is not there cannot be removed**, and trying to changes nothing. -/
theorem remove_of_absent {tokenIds : List Token} {promptIndex : Nat}
    (h : promptIndex ∉ t.promptsAt (tokenIds.take t.maxDepth)) :
    t.remove tokenIds promptIndex = (false, t) := by
  unfold remove
  rw [(TrieNode.remove_eq_none_iff promptIndex _ t.root).mpr h]

theorem promptsAt_remove (t : PrefixTrie) (tokenIds : List Token) (promptIndex : Nat)
    (key : List Token) : (t.remove tokenIds promptIndex).2.promptsAt key =
      if key = tokenIds.take t.maxDepth then (t.promptsAt key).erase promptIndex
      else t.promptsAt key := by
  by_cases h : promptIndex ∈ t.promptsAt (tokenIds.take t.maxDepth)
  · unfold remove
    cases hr : t.root.remove promptIndex (tokenIds.take t.maxDepth) with
    | none => exact absurd h ((TrieNode.remove_eq_none_iff promptIndex _ t.root).mp hr)
    | some r => exact TrieNode.promptsAt_remove promptIndex _ t.root r.1 r.2 hr key
  · rw [remove_of_absent h]
    by_cases hkey : key = tokenIds.take t.maxDepth
    · rw [if_pos hkey, hkey, List.erase_of_not_mem h]
    · rw [if_neg hkey]

theorem tidy_insert (h : t.root.Tidy) (tokenIds : List Token) (promptIndex : Nat) :
    (t.insert tokenIds promptIndex).root.Tidy :=
  TrieNode.Tidy.insert promptIndex _ t.root h

theorem tidy_remove (h : t.root.Tidy) (tokenIds : List Token) (promptIndex : Nat) :
    (t.remove tokenIds promptIndex).2.root.Tidy := by
  unfold remove
  cases hr : t.root.remove promptIndex (tokenIds.take t.maxDepth) with
  | none => exact h
  | some r => exact h.remove hr

theorem maxDepth_remove (t : PrefixTrie) (tokenIds : List Token) (promptIndex : Nat) :
    (t.remove tokenIds promptIndex).2.maxDepth = t.maxDepth := by
  unfold remove
  cases t.root.remove promptIndex (tokenIds.take t.maxDepth) <;> rfl

end PrefixTrie

end Peek
