/-
Groups of prompts that share a prefix (`prefix_groups`, `prefix_groups_with_tokens` and
`sharing_score` in `python/peek/offline/trie.py`).

Three walks look for the nodes at or below a depth that hold at least two prompts, and go no
further where they find one.  Two of them collect the prompts below a node to count them, the
third reads its count.  All three find the nodes at exactly that depth (`filter_groupWalk`), so
the groups are the classes of prompts that agree so far.
-/
import Peek.Base.PyFloat
import Peek.Offline.TrieOrder
import Peek.Radix.Lcp

namespace Peek

open StackWalk Radix

namespace TrieNode

/-- The loop of `_all_indices`; the top of the stack is in front. -/
def allIndicesLoop : Nat → List TrieNode → List Nat
  | 0, _ => []
  | _ + 1, [] => []
  | fuel + 1, n :: stack =>
      n.promptIndices ++ allIndicesLoop fuel ((n.children.map (·.2)).reverse ++ stack)

/-- `_all_indices` -/
def allIndices (node : TrieNode) : List Nat :=
  node.promptIndices ++ allIndicesLoop node.nodeCount (node.children.map (·.2)).reverse

/-- The loop of `_collect_groups`. -/
def collectGroupsLoop (minPrefixLen : Int) : Nat → List (TrieNode × Nat) → List (List Nat)
  | 0, _ => []
  | _ + 1, [] => []
  | fuel + 1, (n, d) :: stack =>
      if d ≥ minPrefixLen ∧ n.allIndices.length ≥ 2 then
        n.allIndices :: collectGroupsLoop minPrefixLen fuel stack
      else
        collectGroupsLoop minPrefixLen fuel
          ((n.children.map fun e => (e.2, d + 1)).reverse ++ stack)

/-- The loop of `prefix_groups_with_tokens`. -/
def groupsWithTokensLoop (minPrefixLen : Int) :
    Nat → List (TrieNode × Nat × List Token) → List (List Token × List Nat)
  | 0, _ => []
  | _ + 1, [] => []
  | fuel + 1, (n, d, tokens) :: stack =>
      if d ≥ minPrefixLen ∧ n.allIndices.length ≥ 2 then
        (tokens, n.allIndices) :: groupsWithTokensLoop minPrefixLen fuel stack
      else
        groupsWithTokensLoop minPrefixLen fuel
          ((n.children.map fun e => (e.2, d + 1, tokens ++ [e.1])).reverse ++ stack)

/-- `while len(walk.children) == 1 and not walk.prompt_indices` -/
def realDepthLoop : Nat → TrieNode → Nat → Nat
  | 0, _, realDepth => realDepth
  | fuel + 1, node, realDepth =>
      match node.children with
      | [(_, child)] =>
          if node.promptIndices = [] then realDepthLoop fuel child (realDepth + 1) else realDepth
      | _ => realDepth

/-- The variables of `sharing_score`. -/
structure Sharing where
  grouped : Int
  maxGroup : Int
  depthSum : Int
  deriving DecidableEq

/-- What a group adds to them. -/
def Sharing.add (s : Sharing) (node : TrieNode) (depth : Nat) : Sharing :=
  { grouped := s.grouped + node.count
    maxGroup := if node.count > s.maxGroup then node.count else s.maxGroup
    depthSum := s.depthSum + realDepthLoop node.nodeCount node depth * node.count }

/-- The loop of `sharing_score`. -/
def sharingScoreLoop (minDepth : Int) : Nat → List (TrieNode × Nat) → Sharing → Sharing
  | 0, _, s => s
  | _ + 1, [], s => s
  | fuel + 1, (n, d) :: stack, s =>
      if d ≥ minDepth ∧ n.count ≥ 2 then sharingScoreLoop minDepth fuel stack (s.add n d)
      else
        sharingScoreLoop minDepth fuel ((n.children.map fun e => (e.2, d + 1)).reverse ++ stack) s

end TrieNode

namespace PrefixTrie

/-- The prompts in groups that share `min_prefix_len` tokens. -/
def prefixGroups (t : PrefixTrie) (minPrefixLen : Int) : List (List Nat) :=
  TrieNode.collectGroupsLoop minPrefixLen t.root.nodeCount [(t.root, 0)]

/-- The groups with the tokens they share. -/
def prefixGroupsWithTokens (t : PrefixTrie) (minPrefixLen : Int) : List (List Token × List Nat) :=
  TrieNode.groupsWithTokensLoop minPrefixLen t.root.nodeCount [(t.root, 0, [])]

/-- `(coverage, max_group_size, avg_sharing_depth)` -/
def sharingScore {F : Type} (f : PyFloat F) (t : PrefixTrie) (minDepth : Int) : F × Int × F :=
  if t.numPrompts = 0 then (f.ofRat 0, 0, f.ofRat 0)
  else
    let s := TrieNode.sharingScoreLoop minDepth t.root.nodeCount [(t.root, 0)] ⟨0, 0, 0⟩
    (f.ofRat (s.grouped / t.numPrompts), s.maxGroup,
      if s.grouped > 0 then f.ofRat (s.depthSum / s.grouped) else f.ofRat 0)

end PrefixTrie

namespace TrieNode

open FiledPrompt

variable {node : TrieNode} {es : List FiledPrompt} {q : List Token} {m : Nat}

/-! ### All indices of a subtree -/

/-- The children in the order in which `_all_indices` pops them. -/
def poppedKids (node : TrieNode) : List TrieNode := (node.children.map (·.2)).reverse

theorem sized_poppedKids : Sized poppedKids nodeCount := by
  intro node
  unfold poppedKids
  rw [List.map_reverse, List.map_map, List.sum_reverse]
  show (node.children.map fun e => e.2.nodeCount).sum < node.nodeCount
  rw [nodeCount_eq]
  omega

theorem allIndicesLoop_eq : ∀ (fuel : Nat) (stack : List TrieNode),
    allIndicesLoop fuel stack = (visited poppedKids fuel stack).flatMap (·.promptIndices) := by
  intro fuel
  induction fuel with
  | zero => intro stack; rfl
  | succ fuel ih =>
      intro stack
      cases stack with
      | nil => rfl
      | cons n stack =>
          rw [allIndicesLoop, visited, List.flatMap_cons, ih]
          rfl

theorem allIndices_eq (node : TrieNode) :
    node.allIndices = node.promptIndices ++ node.poppedKids.flatMap allIndices := by
  have hpre : ∀ n : TrieNode, n.allIndices =
      (preorder poppedKids nodeCount n).flatMap (·.promptIndices) := by
    intro n
    have hn := sized_poppedKids n
    show n.promptIndices ++ allIndicesLoop n.nodeCount n.poppedKids = _
    rw [allIndicesLoop_eq, sized_poppedKids.visited_eq _ _ (Nat.le_of_lt hn),
      sized_poppedKids.preorder_eq, List.flatMap_cons]
  rw [hpre, sized_poppedKids.preorder_eq, List.flatMap_cons, List.flatMap_assoc]
  congr 1
  exact List.flatMap_congr fun n _ => (hpre n).symm

/-- **All indices of a subtree** are the indices of what is filed there. -/
theorem Files.allIndices_perm (h : Files node es) : node.allIndices.Perm (es.map (·.2)) := by
  induction h with
  | intro node es prompts nodup counts kids absent ih =>
      have h : Files node es := Files.intro node es prompts nodup counts kids absent
      have hparts := (h.perm []).map (·.2)
      rw [List.map_append, List.map_map, List.map_flatMap, List.map_map] at hparts
      rw [allIndices_eq]
      refine List.Perm.trans (List.Perm.append (List.Perm.of_eq ?_) ?_) hparts
      · rw [prompts]
        exact (List.map_id _).symm
      · unfold poppedKids Dict.keys
        refine ((List.reverse_perm _).flatMap_right _).trans ?_
        rw [List.flatMap_map, List.flatMap_map]
        refine List.Perm.flatMap_left _ fun e he => ?_
        rw [List.map_map]
        exact ih e.1 e.2 ((Dict.mem_iff_lookup nodup).mp he)

/-! ### The walk for groups -/

/-- The children of a node with their paths, in the order in which the walks pop them. -/
def downKids (x : TrieNode × List Token) : List (TrieNode × List Token) :=
  (x.1.children.map fun e => (e.2, x.2 ++ [e.1])).reverse

theorem mem_downKids (h : Files node es) {x : TrieNode × List Token} : x ∈ downKids (node, q) ↔
    ∃ token child, node.children.lookup token = some child ∧ x = (child, q ++ [token]) := by
  unfold downKids
  rw [List.mem_reverse, List.mem_map]
  constructor
  · intro hx
    obtain ⟨e, he, rfl⟩ := hx
    exact ⟨e.1, e.2, (Dict.mem_iff_lookup h.nodup).mp he, rfl⟩
  · intro hx
    obtain ⟨token, child, hc, rfl⟩ := hx
    exact ⟨_, (Dict.mem_iff_lookup h.nodup).mpr hc, rfl⟩

section GroupWalk

variable (isGroup : TrieNode → Bool) (m : Nat)

/-- The walk does not go on below a group. -/
def groupKids (x : TrieNode × List Token) : List (TrieNode × List Token) :=
  if m ≤ x.2.length ∧ isGroup x.1 then [] else downKids x

/-- The groups that the walk finds, each with its path. -/
def groupWalk (fuel : Nat) (stack : List (TrieNode × List Token)) : List (TrieNode × List Token) :=
  (visited (groupKids isGroup m) fuel stack).filter fun x => m ≤ x.2.length ∧ isGroup x.1

theorem sized_groupKids : Sized (groupKids isGroup m) fun x => x.1.nodeCount := by
  intro x
  show ((groupKids isGroup m x).map fun x => x.1.nodeCount).sum < x.1.nodeCount
  rw [nodeCount_eq x.1]
  unfold groupKids downKids
  split
  · simp only [List.map_nil, List.sum_nil]
    omega
  · rw [List.map_reverse, List.map_map, List.sum_reverse]
    show (x.1.children.map fun e => e.2.nodeCount).sum < _
    omega

/-- One turn of the walk. -/
theorem groupWalk_cons (fuel : Nat) (x : TrieNode × List Token)
    (stack : List (TrieNode × List Token)) : groupWalk isGroup m (fuel + 1) (x :: stack) =
      if m ≤ x.2.length ∧ isGroup x.1 then x :: groupWalk isGroup m fuel stack
      else groupWalk isGroup m fuel (downKids x ++ stack) := by
  unfold groupWalk
  rw [visited]
  unfold groupKids
  by_cases h : m ≤ x.2.length ∧ isGroup x.1
  · rw [if_pos h, if_pos h, List.filter_cons_of_pos (by simpa using h), List.nil_append]
  · rw [if_neg h, if_neg h, List.filter_cons_of_neg (by simpa using h)]

/-- The nodes at a depth below `node`, each with its path, in the order of the walk. -/
def nodesAt : Nat → TrieNode × List Token → List (TrieNode × List Token)
  | 0, x => [x]
  | k + 1, x => (downKids x).flatMap (nodesAt k)

variable {isGroup m}

/-- A node with less than two prompts has no group below it. -/
theorem filter_preorder_of_small (hgroup : ∀ n es, Files n es → n.count = es.length →
      (isGroup n = true ↔ 2 ≤ es.length)) (h : Files node es) : ∀ q, node.count = es.length →
    ¬ 2 ≤ es.length → (preorder (groupKids isGroup m) (fun x => x.1.nodeCount) (node, q)).filter
      (fun x => m ≤ x.2.length ∧ isGroup x.1) = [] := by
  induction h with
  | intro node es prompts nodup counts kids absent ih =>
      intro q hcount hsmall
      have h : Files node es := Files.intro node es prompts nodup counts kids absent
      have hnot : ¬ (m ≤ q.length ∧ isGroup node = true) :=
        fun hc => hsmall ((hgroup node es h hcount).mp hc.2)
      rw [(sized_groupKids isGroup m).preorder_eq, List.filter_cons_of_neg (by simpa using hnot),
        List.filter_flatMap, List.flatMap_eq_nil_iff]
      intro x hx
      unfold groupKids at hx
      rw [if_neg hnot] at hx
      obtain ⟨token, child, hc, rfl⟩ := (mem_downKids h).mp hx
      refine ih token child hc _ (h.count hc) fun hbig => hsmall (hbig.trans ?_)
      rw [length_under]
      exact List.countP_le_length

/-- **The walk finds the groups at its depth**, and no others. -/
theorem filter_preorder (hgroup : ∀ n es, Files n es → n.count = es.length →
      (isGroup n = true ↔ 2 ≤ es.length)) : ∀ (k : Nat) {node : TrieNode} {es : List FiledPrompt}
    (q : List Token), Files node es → m = q.length + k → (k = 0 → node.count = es.length) →
    (preorder (groupKids isGroup m) (fun x => x.1.nodeCount) (node, q)).filter
      (fun x => m ≤ x.2.length ∧ isGroup x.1) =
    (nodesAt k (node, q)).filter fun x => isGroup x.1 := by
  intro k
  induction k with
  | zero =>
      intro node es q h hm hcount
      by_cases hbig : isGroup node = true
      · have hstop : m ≤ q.length ∧ isGroup node = true := ⟨Nat.le_of_eq hm, hbig⟩
        rw [(sized_groupKids isGroup m).preorder_eq]
        unfold groupKids nodesAt
        rw [if_pos hstop]
        simp [hbig, hm]
      · have hsmall := fun h2 => hbig ((hgroup node es h (hcount rfl)).mpr h2)
        rw [filter_preorder_of_small hgroup h q (hcount rfl) hsmall]
        simp [nodesAt, hbig]
  | succ k ih =>
      intro node es q h hm _
      have hnot : ¬ (m ≤ q.length ∧ isGroup node = true) := fun hc => by omega
      rw [(sized_groupKids isGroup m).preorder_eq, List.filter_cons_of_neg (by simpa using hnot),
        List.filter_flatMap, nodesAt, List.filter_flatMap]
      unfold groupKids
      rw [if_neg hnot]
      refine List.flatMap_congr fun x hx => ?_
      obtain ⟨token, child, hc, rfl⟩ := (mem_downKids h).mp hx
      refine ih (q ++ [token]) (h.kids hc) ?_ fun _ => h.count hc
      rw [List.length_append, List.length_singleton]
      omega

end GroupWalk

/-! ### The nodes at a depth -/

/-- The nodes at a depth are at the ends of the paths of that length. -/
theorem nodeAt_of_mem_nodesAt : ∀ (k : Nat) {node : TrieNode} {es : List FiledPrompt}
    {q : List Token} {x : TrieNode × List Token}, Files node es → x ∈ nodesAt k (node, q) →
    ∃ r, r.length = k ∧ x.2 = q ++ r ∧ node.nodeAt r = some x.1 := by
  intro k
  induction k with
  | zero =>
      intro node es q x _ hx
      rw [nodesAt, List.mem_singleton] at hx
      subst hx
      exact ⟨[], rfl, (List.append_nil q).symm, rfl⟩
  | succ k ih =>
      intro node es q x h hx
      rw [nodesAt, List.mem_flatMap] at hx
      obtain ⟨y, hy, hx⟩ := hx
      obtain ⟨token, child, hc, rfl⟩ := (mem_downKids h).mp hy
      obtain ⟨r, hlen, hr, hn⟩ := ih (h.kids hc) hx
      refine ⟨token :: r, by simp [hlen], by rw [hr, List.append_assoc]; rfl, ?_⟩
      rw [TrieNode.nodeAt, hc]
      exact hn

theorem mem_nodesAt_of_nodeAt : ∀ (r : List Token) {node n : TrieNode} {es : List FiledPrompt}
    (q : List Token), Files node es → node.nodeAt r = some n →
    (n, q ++ r) ∈ nodesAt r.length (node, q) := by
  intro r
  induction r with
  | nil =>
      intro node n es q _ hn
      rw [TrieNode.nodeAt, Option.some.injEq] at hn
      rw [← hn, List.append_nil]
      exact List.mem_singleton_self _
  | cons token r ih =>
      intro node n es q h hn
      rw [TrieNode.nodeAt] at hn
      cases hc : node.children.lookup token with
      | none => rw [hc] at hn; simp at hn
      | some child =>
          rw [hc] at hn
          have hmem := ih (q ++ [token]) (h.kids hc) hn
          rw [List.append_assoc, List.singleton_append] at hmem
          exact List.mem_flatMap.mpr ⟨_, (mem_downKids h).mpr ⟨token, child, hc, rfl⟩, hmem⟩

theorem nodup_downKids (h : Files node es) : ((downKids (node, q)).map (·.2)).Nodup := by
  unfold downKids
  rw [List.map_reverse, List.map_map, List.nodup_reverse]
  show (node.children.map fun e => q ++ [e.1]).Nodup
  have hkeys := h.nodup.map (f := fun token => q ++ [token]) fun token token' heq => by
    simpa using heq
  unfold Dict.keys at hkeys
  rw [List.map_map] at hkeys
  exact hkeys

/-- No path is met twice. -/
theorem nodup_nodesAt : ∀ (k : Nat) {node : TrieNode} {es : List FiledPrompt} (q : List Token),
    Files node es → ((nodesAt k (node, q)).map (·.2)).Nodup := by
  intro k
  induction k with
  | zero => intro node es q _; exact List.nodup_singleton _
  | succ k ih =>
      intro node es q h
      rw [nodesAt, List.map_flatMap, List.nodup_flatMap]
      constructor
      · intro x hx
        obtain ⟨token, child, hc, rfl⟩ := (mem_downKids h).mp hx
        exact ih _ (h.kids hc)
      · refine (List.pairwise_map.mp (nodup_downKids h)).imp_of_mem fun {x y} hx hy hxy p hp hp' => ?_
        obtain ⟨a, ha, rfl⟩ := List.mem_map.mp hp
        obtain ⟨b, hb, hab⟩ := List.mem_map.mp hp'
        obtain ⟨t, c, hc, rfl⟩ := (mem_downKids h).mp hx
        obtain ⟨t', c', hc', rfl⟩ := (mem_downKids h).mp hy
        obtain ⟨r, -, hr, -⟩ := nodeAt_of_mem_nodesAt k (h.kids hc) ha
        obtain ⟨r', -, hr', -⟩ := nodeAt_of_mem_nodesAt k (h.kids hc') hb
        have hsame : t = t' := eq_of_prefix_child (hr ▸ List.prefix_append _ _)
          (hab ▸ hr' ▸ List.prefix_append _ _)
        exact hxy (by rw [hsame])

/-! ### The three loops -/

/-- What a node is for `prefix_groups`. -/
def sharedByIndices (n : TrieNode) : Bool := decide (n.allIndices.length ≥ 2)

/-- What a node is for `sharing_score`. -/
def sharedByCount (n : TrieNode) : Bool := decide (n.count ≥ 2)

theorem Files.sharedByIndices_iff (h : Files node es) :
    node.sharedByIndices = true ↔ 2 ≤ es.length := by
  unfold sharedByIndices
  rw [decide_eq_true_eq, h.allIndices_perm.length_eq, List.length_map]

theorem sharedByCount_iff (hcount : node.count = es.length) :
    node.sharedByCount = true ↔ 2 ≤ es.length := by
  unfold sharedByCount
  rw [decide_eq_true_eq, hcount]
  omega

variable (m)

theorem downKids_depth (x : TrieNode × List Token) :
    (x.1.children.map fun e => (e.2, x.2.length + 1)).reverse =
      (downKids x).map fun y => (y.1, y.2.length) := by
  unfold downKids
  rw [List.map_reverse, List.map_map]
  simp [Function.comp_def]

theorem collectGroupsLoop_eq : ∀ (fuel : Nat) (stack : List (TrieNode × List Token)),
    collectGroupsLoop m fuel (stack.map fun x => (x.1, x.2.length)) =
      (groupWalk sharedByIndices m fuel stack).map (·.1.allIndices) := by
  intro fuel
  induction fuel with
  | zero => intro stack; rfl
  | succ fuel ih =>
      intro stack
      cases stack with
      | nil => rfl
      | cons x stack =>
          have hcond : ((x.2.length : Int) ≥ m ∧ x.1.allIndices.length ≥ 2) ↔
              m ≤ x.2.length ∧ x.1.sharedByIndices = true := by
            unfold sharedByIndices
            rw [decide_eq_true_eq]
            omega
          rw [List.map_cons, collectGroupsLoop, groupWalk_cons]
          by_cases h : m ≤ x.2.length ∧ x.1.sharedByIndices = true
          · rw [if_pos (hcond.mpr h), if_pos h, List.map_cons, ih]
          · rw [if_neg fun hc => h (hcond.mp hc), if_neg h, downKids_depth, ← List.map_append, ih]

theorem groupsWithTokensLoop_eq : ∀ (fuel : Nat) (stack : List (TrieNode × List Token)),
    groupsWithTokensLoop m fuel (stack.map fun x => (x.1, x.2.length, x.2)) =
      (groupWalk sharedByIndices m fuel stack).map fun x => (x.2, x.1.allIndices) := by
  intro fuel
  induction fuel with
  | zero => intro stack; rfl
  | succ fuel ih =>
      intro stack
      cases stack with
      | nil => rfl
      | cons x stack =>
          have hcond : ((x.2.length : Int) ≥ m ∧ x.1.allIndices.length ≥ 2) ↔
              m ≤ x.2.length ∧ x.1.sharedByIndices = true := by
            unfold sharedByIndices
            rw [decide_eq_true_eq]
            omega
          have hkids : (x.1.children.map fun e => (e.2, x.2.length + 1, x.2 ++ [e.1])).reverse =
              (downKids x).map fun y => (y.1, y.2.length, y.2) := by
            unfold downKids
            rw [List.map_reverse, List.map_map]
            simp [Function.comp_def]
          rw [List.map_cons, groupsWithTokensLoop, groupWalk_cons]
          by_cases h : m ≤ x.2.length ∧ x.1.sharedByIndices = true
          · rw [if_pos (hcond.mpr h), if_pos h, List.map_cons, ih]
          · rw [if_neg fun hc => h (hcond.mp hc), if_neg h, hkids, ← List.map_append, ih]

theorem sharingScoreLoop_eq : ∀ (fuel : Nat) (stack : List (TrieNode × List Token)) (s : Sharing),
    sharingScoreLoop m fuel (stack.map fun x => (x.1, x.2.length)) s =
      (groupWalk sharedByCount m fuel stack).foldl (fun s x => s.add x.1 x.2.length) s := by
  intro fuel
  induction fuel with
  | zero => intro stack s; rfl
  | succ fuel ih =>
      intro stack s
      cases stack with
      | nil => rfl
      | cons x stack =>
          have hcond : ((x.2.length : Int) ≥ m ∧ x.1.count ≥ 2) ↔
              m ≤ x.2.length ∧ x.1.sharedByCount = true := by
            unfold sharedByCount
            rw [decide_eq_true_eq]
            omega
          rw [List.map_cons, sharingScoreLoop, groupWalk_cons]
          by_cases h : m ≤ x.2.length ∧ x.1.sharedByCount = true
          · rw [if_pos (hcond.mpr h), if_pos h, List.foldl_cons, ih]
          · rw [if_neg fun hc => h (hcond.mp hc), if_neg h, downKids_depth, ← List.map_append, ih]

/-! ### The walk from the root -/

variable {m} {isGroup : TrieNode → Bool}

theorem groupWalk_root (hgroup : ∀ n es, Files n es → n.count = es.length →
      (isGroup n = true ↔ 2 ≤ es.length)) (h : Files node es) (hm : 1 ≤ m) :
    groupWalk isGroup m node.nodeCount [(node, [])] =
      (nodesAt m (node, [])).filter fun x => isGroup x.1 := by
  unfold groupWalk
  rw [(sized_groupKids isGroup m).visited_eq _ _ (by simp), List.flatMap_singleton]
  exact filter_preorder hgroup m [] h (Nat.zero_add m).symm fun hzero => by omega

/-- The nodes at a depth that hold two prompts, each with its path. -/
def classNodes (m : Nat) (node : TrieNode) : List (TrieNode × List Token) :=
  (nodesAt m (node, [])).filter fun x => x.1.sharedByIndices

theorem Files.of_mem_nodesAt (h : Files node es) (hm : 1 ≤ m) {x : TrieNode × List Token}
    (hx : x ∈ nodesAt m (node, [])) :
    Files x.1 (under x.2 es) ∧ x.1.count = (under x.2 es).length := by
  obtain ⟨r, hlen, hr, hn⟩ := nodeAt_of_mem_nodesAt m h hx
  rw [List.nil_append] at hr
  obtain ⟨hfiles, hcount⟩ := h.nodeAt r hn
  rw [hr]
  exact ⟨hfiles, (hcount (List.ne_nil_of_length_pos (by omega))).1⟩

theorem Files.of_mem_classNodes (h : Files node es) (hm : 1 ≤ m) {x : TrieNode × List Token}
    (hx : x ∈ classNodes m node) : Files x.1 (under x.2 es) ∧
      x.1.count = (under x.2 es).length ∧ 2 ≤ (under x.2 es).length := by
  obtain ⟨hin, hbig⟩ := List.mem_filter.mp hx
  obtain ⟨hfiles, hcount⟩ := h.of_mem_nodesAt hm hin
  exact ⟨hfiles, hcount, hfiles.sharedByIndices_iff.mp hbig⟩

/-- **Both ways to decide on groups find the same nodes.** -/
theorem Files.groupWalk_eq (h : Files node es) (hm : 1 ≤ m) :
    groupWalk sharedByIndices m node.nodeCount [(node, [])] = classNodes m node ∧
      groupWalk sharedByCount m node.nodeCount [(node, [])] = classNodes m node := by
  refine ⟨groupWalk_root (fun n es hn _ => hn.sharedByIndices_iff) h hm, ?_⟩
  rw [groupWalk_root (fun n es _ hc => sharedByCount_iff hc) h hm]
  refine List.filter_congr fun x hx => ?_
  obtain ⟨hfiles, hcount⟩ := h.of_mem_nodesAt hm hx
  rw [Bool.eq_iff_iff, hfiles.sharedByIndices_iff, sharedByCount_iff hcount]

end TrieNode

namespace FiledPrompt

open TrieNode

/-- The prompts that start with `path`. -/
def agreeing (path : List Token) (es : List FiledPrompt) : List FiledPrompt :=
  es.filter fun e => path <+: e.1

theorem agreeing_eq (path : List Token) (es : List FiledPrompt) :
    agreeing path es = (under path es).map fun e => (path ++ e.1, e.2) := by
  unfold agreeing under
  rw [List.map_filterMap, ← List.filterMap_eq_filter]
  congr 1
  funext e
  unfold after Option.guard
  by_cases h : path <+: e.1
  · simp [h, List.prefix_iff_eq_append.mp h]
  · simp [h]

theorem length_agreeing (path : List Token) (es : List FiledPrompt) :
    (agreeing path es).length = (under path es).length := by
  rw [agreeing_eq, List.length_map]

theorem commonLen_agreeing {path : List Token} {es : List FiledPrompt} (hne : under path es ≠ []) :
    commonLen ((agreeing path es).map (·.1)) = path.length + commonLen ((under path es).map (·.1)) := by
  rw [agreeing_eq, List.map_map]
  have hmap := commonLen_map_append path (l := (under path es).map (·.1)) (by simpa using hne)
  rw [List.map_map] at hmap
  exact hmap

end FiledPrompt

namespace TrieNode

open FiledPrompt

variable {node : TrieNode} {es : List FiledPrompt}

/-- A node has a single child and no prompt where all prompts below it take the same step. -/
theorem Files.children_of_step (h : Files node es) (hne : es ≠ []) {token : Token}
    (hall : ∀ e ∈ es, [token] <+: e.1) :
    node.promptIndices = [] ∧ ∃ child, node.children = [(token, child)] := by
  have hlive : under [token] es ≠ [] := by
    rw [← List.length_pos_iff, length_under, List.countP_eq_length.mpr (by simpa using hall)]
    exact List.length_pos_iff.mpr hne
  have hkeys : (Dict.keys node.children).Perm [token] := by
    refine (List.perm_ext_iff_of_nodup h.nodup (List.nodup_singleton token)).mpr fun token' => ?_
    rw [h.mem_keys_iff, List.mem_singleton]
    constructor
    · intro hne'
      obtain ⟨e, he⟩ := List.exists_mem_of_ne_nil _ hne'
      have hpre := hall _ ((mem_under [token'] es).mp he)
      exact (List.cons_prefix_cons.mp hpre).1.symm
    · intro heq
      rw [heq]
      exact hlive
  constructor
  · rw [h.prompts, List.eq_nil_iff_forall_not_mem]
    intro i hi
    exact absurd (hall _ ((mem_ending es).mp hi)) (by simp)
  · have hlist := List.perm_singleton.mp hkeys
    unfold Dict.keys at hlist
    obtain ⟨e, he, rfl⟩ := List.map_eq_singleton_iff.mp hlist
    exact ⟨e.2, he⟩

/-- And only there. -/
theorem Files.step_of_children (h : Files node es) {token : Token} {child : TrieNode}
    (hprompts : node.promptIndices = []) (hchildren : node.children = [(token, child)]) :
    ∀ e ∈ es, [token] <+: e.1 := by
  intro e he
  obtain ⟨ts, i⟩ := e
  cases ts with
  | nil =>
      have hi := (mem_ending es).mpr he
      rw [← h.prompts, hprompts] at hi
      exact absurd hi List.not_mem_nil
  | cons t ts =>
      have hlive := List.ne_nil_of_mem ((mem_under [t] es (e := (ts, i))).mpr he)
      have hkey := (h.mem_keys_iff t).mpr hlive
      rw [hchildren] at hkey
      rw [List.mem_singleton.mp hkey]
      exact List.cons_prefix_cons.mpr ⟨rfl, List.nil_prefix⟩

/-- **The chain of single children ends where the prompts below a node part.** -/
theorem Files.realDepthLoop_eq (h : Files node es) : ∀ (fuel depth : Nat), es ≠ [] →
    node.nodeCount ≤ fuel → realDepthLoop fuel node depth = depth + commonLen (es.map (·.1)) := by
  induction h with
  | intro node es prompts nodup counts kids absent ih =>
      intro fuel depth hne hfuel
      have h : Files node es := Files.intro node es prompts nodup counts kids absent
      rw [nodeCount_eq] at hfuel
      obtain ⟨fuel, rfl⟩ : ∃ k, fuel = k + 1 := ⟨fuel - 1, by omega⟩
      by_cases hstep : ∃ token, ∀ e ∈ es, [token] <+: e.1
      · obtain ⟨token, hall⟩ := hstep
        obtain ⟨hprompts, child, hchildren⟩ := h.children_of_step hne hall
        have hc : node.children.lookup token = some child := by
          rw [hchildren, Dict.lookup_cons, if_pos rfl]
        have hpaths : es.map (·.1) = ((under [token] es).map (·.1)).map fun l => token :: l := by
          have hfilter := agreeing_eq [token] es
          unfold agreeing at hfilter
          rw [List.filter_eq_self.mpr (by simpa using hall)] at hfilter
          conv_lhs => rw [hfilter]
          rw [List.map_map, List.map_map]
          rfl
        rw [hchildren] at hfuel
        simp only [List.map_cons, List.map_nil, List.sum_cons, List.sum_nil] at hfuel
        rw [realDepthLoop, hchildren]
        simp only [hprompts, if_true]
        rw [ih token child hc fuel (depth + 1) (h.live hc) (by omega), hpaths,
          commonLen_map_cons token (by simpa using h.live hc)]
        omega
      · -- a prompt ends here, or two of them part here
        rw [commonLen_eq_zero fun token => ?_]
        · show _ = depth
          rw [realDepthLoop]
          split
          · next token child hchildren =>
              rw [if_neg fun hprompts => hstep ⟨token, h.step_of_children hprompts hchildren⟩]
          · rfl
        · rw [not_exists] at hstep
          obtain ⟨e, he⟩ := not_forall.mp (hstep token)
          rw [Classical.not_imp] at he
          exact ⟨e.1, List.mem_map_of_mem he.1, he.2⟩

/-- The nodes at a depth that hold two prompts are where classes of prompts start. -/
theorem Files.mem_classes (h : Files node es) {m : Nat} (hm : 1 ≤ m) (p : List Token) :
    p ∈ (classNodes m node).map (·.2) ↔ p.length = m ∧ 2 ≤ (agreeing p es).length := by
  rw [List.mem_map]
  constructor
  · intro hp
    obtain ⟨x, hx, rfl⟩ := hp
    obtain ⟨r, hlen, hr, -⟩ := nodeAt_of_mem_nodesAt m h (List.mem_filter.mp hx).1
    rw [List.nil_append] at hr
    rw [length_agreeing]
    exact ⟨hr ▸ hlen, (h.of_mem_classNodes hm hx).2.2⟩
  · intro hp
    obtain ⟨rfl, hbig⟩ := hp
    rw [length_agreeing] at hbig
    cases hn : TrieNode.nodeAt p node with
    | none =>
        rw [h.under_of_nodeAt_none p hn] at hbig
        simp at hbig
    | some n =>
        refine ⟨(n, p), List.mem_filter.mpr ⟨mem_nodesAt_of_nodeAt p [] h hn, ?_⟩, rfl⟩
        exact (h.nodeAt p hn).1.sharedByIndices_iff.mpr hbig

/-- What is stored below a class's node are the class's prompts. -/
theorem Files.class_perm (h : Files node es) {m : Nat} (hm : 1 ≤ m) {x : TrieNode × List Token}
    (hx : x ∈ classNodes m node) : x.1.allIndices.Perm ((agreeing x.2 es).map (·.2)) := by
  rw [agreeing_eq, List.map_map]
  exact (h.of_mem_classNodes hm hx).1.allIndices_perm

/-- What `sharing_score` adds up over classes of these sizes and depths. -/
theorem foldl_add (size depth : List Token → Nat) : ∀ (l : List (TrieNode × List Token)) (s : Sharing),
    (∀ x ∈ l, x.1.count = size x.2 ∧
      realDepthLoop x.1.nodeCount x.1 x.2.length = depth x.2) → 0 ≤ s.maxGroup →
    l.foldl (fun s x => s.add x.1 x.2.length) s =
      { grouped := s.grouped + ((l.map (·.2)).map size).sum
        maxGroup := max s.maxGroup (((l.map (·.2)).map size).foldr max 0 : Nat)
        depthSum := s.depthSum + ((l.map (·.2)).map fun p => depth p * size p).sum } := by
  intro l
  induction l with
  | nil =>
      intro s _ hmax
      simp [Int.max_eq_left hmax]
  | cons x l ih =>
      intro s hall hmax
      rw [List.forall_mem_cons] at hall
      have hmax' : 0 ≤ (s.add x.1 x.2.length).maxGroup := by
        unfold Sharing.add
        simp only
        split <;> omega
      rw [List.foldl_cons, ih _ hall.2 hmax']
      unfold Sharing.add
      rw [hall.1.1, hall.1.2]
      simp only [List.map_cons, List.sum_cons, List.foldr_cons]
      congr 1
      · push_cast
        omega
      · split <;> omega
      · push_cast
        exact Int.add_assoc _ _ _

end TrieNode

namespace PrefixTrie

open FiledPrompt TrieNode

/-- The score, from the sizes and the depths of the classes; there are none without a prompt. -/
theorem sharingScore_of_loop {F : Type} (f : PyFloat F) {t : PrefixTrie} {minDepth : Int}
    {total : Nat} {size depth : List Token → Nat} {heads : List (List Token)}
    (hnum : t.numPrompts = total)
    (hloop : sharingScoreLoop minDepth t.root.nodeCount [(t.root, 0)] ⟨0, 0, 0⟩ =
      { grouped := 0 + ((heads.map size).sum : Nat)
        maxGroup := max 0 ((heads.map size).foldr max 0 : Nat)
        depthSum := 0 + ((heads.map fun p => depth p * size p).sum : Nat) })
    (hnone : total = 0 → heads = []) :
    t.sharingScore f minDepth =
      (f.ofRat (((heads.map size).sum : Nat) / total), (((heads.map size).foldr max 0 : Nat) : Int),
        f.ofRat (((heads.map fun p => depth p * size p).sum : Nat) / ((heads.map size).sum : Nat))) := by
  unfold sharingScore
  rw [hloop, hnum]
  by_cases htotal : total = 0
  · rw [if_pos (Int.natCast_eq_zero.mpr htotal), hnone htotal]
    simp
  · rw [if_neg (by omega)]
    simp only [Int.zero_add, Int.cast_natCast]
    refine congrArg _ (Prod.ext (by simp) ?_)
    by_cases hgrouped : (heads.map size).sum = 0
    · rw [if_neg (by omega), hgrouped]
      simp
    · exact if_pos (by omega)

variable {t : PrefixTrie} {stored : List FiledPrompt} {m : Nat}

theorem prefixGroups_eq (h : Files t.root stored) (hm : 1 ≤ m) :
    t.prefixGroups m = (classNodes m t.root).map (·.1.allIndices) := by
  rw [← (h.groupWalk_eq hm).1]
  exact collectGroupsLoop_eq m t.root.nodeCount [(t.root, [])]

theorem prefixGroupsWithTokens_eq (h : Files t.root stored) (hm : 1 ≤ m) :
    t.prefixGroupsWithTokens m = (classNodes m t.root).map fun x => (x.2, x.1.allIndices) := by
  rw [← (h.groupWalk_eq hm).1]
  exact groupsWithTokensLoop_eq m t.root.nodeCount [(t.root, [])]

/-- The score measures the classes. -/
theorem sharingScore_eq {F : Type} (f : PyFloat F) (h : Files t.root stored)
    (hnum : t.numPrompts = stored.length) (hm : 1 ≤ m) :
    let size := fun p => (agreeing p stored).length
    let common := fun p => commonLen ((agreeing p stored).map (·.1))
    let heads := (classNodes m t.root).map (·.2)
    t.sharingScore f m =
      (f.ofRat (((heads.map size).sum : Nat) / stored.length),
        (((heads.map size).foldr max 0 : Nat) : Int),
        f.ofRat (((heads.map fun p => common p * size p).sum : Nat) / ((heads.map size).sum : Nat))) := by
  intro size common heads
  have hloop := sharingScoreLoop_eq m t.root.nodeCount [(t.root, [])] ⟨0, 0, 0⟩
  rw [(h.groupWalk_eq hm).2, foldl_add size common (classNodes m t.root)] at hloop
  · refine sharingScore_of_loop f hnum hloop fun hnone => ?_
    rw [List.map_eq_nil_iff, List.eq_nil_iff_forall_not_mem]
    intro x hx
    have hbig := (h.of_mem_classNodes hm hx).2.2
    rw [← length_agreeing] at hbig
    have hle := List.length_filter_le (fun e : FiledPrompt => decide (x.2 <+: e.1)) stored
    unfold agreeing at hbig
    omega
  · intro x hx
    obtain ⟨hfiles, hcount, hbig⟩ := h.of_mem_classNodes hm hx
    have hne : under x.2 stored ≠ [] := List.ne_nil_of_length_pos (by omega)
    rw [hcount, hfiles.realDepthLoop_eq _ _ hne (Nat.le_refl _)]
    exact ⟨by rw [← length_agreeing], (commonLen_agreeing hne).symm⟩
  · exact Int.le_refl 0

/--
**The three ways to find groups agree.**  After any history and for every `m` from 1 on there
is a list of prefixes, which are all those of length `m` that at least two of the remaining
prompts start with; `prefix_groups` and `prefix_groups_with_tokens` return for each of them once
the prompts that start with it, and `sharing_score` measures just these classes.  (A quotient by
0 is 0 here: it is what the source returns where there is no prompt, or no class.)
-/
theorem groups_agree (maxDepth : Nat) (ops : List Op) (m : Nat) (hm : 1 ≤ m) {F : Type}
    (f : PyFloat F) :
    let t := run maxDepth ops
    let stored := (remaining maxDepth ops).map (filed maxDepth)
    let size := fun p => (agreeing p stored).length
    let common := fun p => commonLen ((agreeing p stored).map (·.1))
    ∃ heads : List (List Token), heads.Nodup ∧ (∀ p, p ∈ heads ↔ p.length = m ∧ 2 ≤ size p) ∧
      List.Forall₂ (fun p group => group.1 = p ∧ group.2.Perm ((agreeing p stored).map (·.2))) heads
        (t.prefixGroupsWithTokens m) ∧
      List.Forall₂ (fun p group => group.Perm ((agreeing p stored).map (·.2))) heads
        (t.prefixGroups m) ∧
      t.sharingScore f m =
        (f.ofRat ((heads.map size).sum / stored.length), (((heads.map size).foldr max 0 : Nat) : Int),
          f.ofRat ((heads.map fun p => common p * size p).sum / (heads.map size).sum)) := by
  intro t stored size common
  have hholds := run_holds maxDepth ops
  have h : Files t.root stored := hholds.files
  have hnum : t.numPrompts = stored.length := by
    rw [List.length_map]
    exact hholds.numPrompts
  refine ⟨(classNodes m t.root).map (·.2), ?_, h.mem_classes hm, ?_, ?_, sharingScore_eq f h hnum hm⟩
  · exact (nodup_nodesAt m [] h).sublist (List.filter_sublist.map _)
  · rw [prefixGroupsWithTokens_eq h hm, List.forall₂_map_left_iff, List.forall₂_map_right_iff,
      List.forall₂_same]
    exact fun x hx => ⟨rfl, h.class_perm hm hx⟩
  · rw [prefixGroups_eq h hm, List.forall₂_map_left_iff, List.forall₂_map_right_iff,
      List.forall₂_same]
    exact fun x hx => h.class_perm hm hx

/-- Two prompts that share two tokens, one that is too short, and one that was removed. -/
theorem groups_agree_of_four :
    let ops := [Op.insert [1, 2, 3, 4] 0, .insert [1, 2] 1, .insert [1] 2, .insert [1, 2, 3] 3,
      .remove [1, 2, 3] 3]
    let stored := (remaining 3 ops).map (filed 3)
    1 ≤ 2 ∧ ∃ heads : List (List Token), heads.Nodup ∧
      (∀ p, p ∈ heads ↔ p.length = 2 ∧ 2 ≤ (agreeing p stored).length) ∧
      List.Forall₂ (fun p group => group.1 = p ∧ group.2.Perm ((agreeing p stored).map (·.2))) heads
        ((run 3 ops).prefixGroupsWithTokens 2) ∧
      ((run 3 ops).sharingScore PyFloat.exact 2).1 =
        (heads.map fun p => (agreeing p stored).length).sum / stored.length := by
  intro ops stored
  obtain ⟨heads, hnd, hmem, htokens, -, hscore⟩ :=
    groups_agree 3 ops 2 (by decide) PyFloat.exact
  exact ⟨by decide, heads, hnd, hmem, htokens, congrArg Prod.fst hscore⟩

end PrefixTrie

end Peek
