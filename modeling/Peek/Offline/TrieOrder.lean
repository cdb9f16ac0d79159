/-
The order in which a trie lists its prompts (`dfs_order` and `dfs_group_keys` in
`python/peek/offline/trie.py`).

Both walk the trie with a stack, one over the nodes and one over the nodes with their paths.
They are the same walk: `walk` lists the nodes from one down, each with its path and before its
children.  What it lists below any path stands together, and count-aware the larger of two
siblings is listed first.
-/
import Peek.Base.Contiguous
import Peek.Base.Groups
import Peek.Base.Sorting
import Peek.Base.StackWalk
import Peek.Offline.TrieHistory

namespace Peek

open StackWalk

namespace TrieNode

/-- The children of `_dfs` as they are pushed on the stack. -/
def pushedValues (countAware : Bool) (node : TrieNode) : List TrieNode :=
  let children := node.children.map (·.2)
  if countAware ∧ children.length > 1 then children.insertionSort fun x y => x.count ≤ y.count
  else children.reverse

/-- The loop of `_dfs`; the top of the stack is in front. -/
def dfsLoop (countAware : Bool) : Nat → List TrieNode → List Nat
  | 0, _ => []
  | _ + 1, [] => []
  | fuel + 1, n :: stack =>
      n.promptIndices ++ dfsLoop countAware fuel ((n.pushedValues countAware).reverse ++ stack)

end TrieNode

/-- The prompts in depth-first order. -/
def PrefixTrie.dfsOrder (t : PrefixTrie) (countAware : Bool) : List Nat :=
  TrieNode.dfsLoop countAware t.root.nodeCount [t.root]

namespace TrieNode

open FiledPrompt

variable {countAware : Bool} {node : TrieNode} {es : List FiledPrompt} {q path : List Token}

/-! ### One walk -/

theorem pushedValues_eq (countAware : Bool) (node : TrieNode) :
    node.pushedValues countAware = (node.pushed countAware).map (·.2) := by
  unfold pushedValues pushed
  simp only [List.length_map]
  by_cases h : countAware = true ∧ node.children.length > 1
  · rw [if_pos h, if_pos h]
    exact (List.map_insertionSort (r := fun x y : Token × TrieNode => x.2.count ≤ y.2.count)
      (s := fun x y => x.count ≤ y.count) (·.2) node.children fun _ _ _ _ => Iff.rfl).symm
  · rw [if_neg h, if_neg h, List.map_reverse]

theorem dfsLoop_eq (countAware : Bool) : ∀ (fuel : Nat) (stack : List (TrieNode × List Token)),
    dfsLoop countAware fuel (stack.map (·.1)) =
      (visited (pathKids countAware) fuel stack).flatMap (·.1.promptIndices) := by
  intro fuel
  induction fuel with
  | zero => intro stack; rfl
  | succ fuel ih =>
      intro stack
      cases stack with
      | nil => rfl
      | cons x stack =>
          have hkids : (x.1.pushedValues countAware).reverse = (pathKids countAware x).map (·.1) := by
            unfold pathKids
            rw [pushedValues_eq, List.map_reverse, List.map_map]
            rfl
          rw [List.map_cons, dfsLoop, visited, List.flatMap_cons, hkids, ← List.map_append, ih]

/-- A path that ends below a node, and not above, leads through one of its children. -/
theorem prefix_child_of_not_prefix {token : Token} {r : List Token}
    (hpath : path <+: q ++ token :: r) (hnot : ¬ path <+: q) : q ++ [token] <+: path := by
  have hchild : q ++ [token] <+: q ++ token :: r :=
    (List.prefix_append_right_inj q).mpr (List.cons_prefix_cons.mpr ⟨rfl, List.nil_prefix⟩)
  refine List.prefix_of_prefix_length_le hchild hpath ?_
  by_contra hlen
  refine hnot (List.prefix_of_prefix_length_le hpath (List.prefix_append _ _) ?_)
  rw [List.length_append] at hlen
  simp only [List.length_singleton] at hlen
  omega

/-- Two children that lead to one path are one. -/
theorem eq_of_prefix_child {token token' : Token} {ts : List Token} (h : q ++ [token] <+: ts)
    (h' : q ++ [token'] <+: ts) : token = token' := by
  have heq : q ++ [token] = q ++ [token'] :=
    (List.prefix_of_prefix_length_le h h' (by simp)).eq_of_length (by simp)
  simpa using heq

/-- Where two paths part, the steps they take there are known. -/
theorem eq_of_part {path : List Token} {token token' t t' : Token} {p p' : List Token}
    (hne : token ≠ token') (ht : t ≠ t') (hp : path ++ [token] <+: p) (hp' : path ++ [token'] <+: p')
    (hq : q ++ [t] <+: p) (hq' : q ++ [t'] <+: p') : path = q ∧ token = t ∧ token' = t' := by
  have hsame : path = q := by
    rcases Nat.lt_trichotomy path.length q.length with hlt | heq | hgt
    · have hle : (path ++ [token]).length ≤ (q ++ [t]).length - 1 := by simp; omega
      have h1 : path ++ [token] <+: q := List.prefix_of_prefix_length_le hp
        ((List.prefix_append _ _).trans hq) (by simpa using hle)
      have h2 : path ++ [token'] <+: q := List.prefix_of_prefix_length_le hp'
        ((List.prefix_append _ _).trans hq') (by simpa using hle)
      exact absurd (eq_of_prefix_child h1 h2) hne
    · exact (List.prefix_of_prefix_length_le ((List.prefix_append _ _).trans hp)
        ((List.prefix_append _ _).trans hq) (by omega)).eq_of_length heq
    · have hle : (q ++ [t]).length ≤ (path ++ [token]).length - 1 := by simp; omega
      have h1 : q ++ [t] <+: path := List.prefix_of_prefix_length_le hq
        ((List.prefix_append _ _).trans hp) (by simpa using hle)
      have h2 : q ++ [t'] <+: path := List.prefix_of_prefix_length_le hq'
        ((List.prefix_append _ _).trans hp') (by simpa using hle)
      exact absurd (eq_of_prefix_child h1 h2) ht
  subst hsame
  exact ⟨rfl, eq_of_prefix_child hp hq, eq_of_prefix_child hp' hq'⟩

theorem Files.mem_pathKids (h : Files node es) {x : TrieNode × List Token} :
    x ∈ pathKids countAware (node, q) ↔
      ∃ token child, node.children.lookup token = some child ∧ x = (child, q ++ [token]) := by
  rw [mem_pathKids_iff]
  constructor
  · intro hx
    obtain ⟨e, he, rfl⟩ := hx
    exact ⟨e.1, e.2, (Dict.mem_iff_lookup h.nodup).mp he, rfl⟩
  · intro hx
    obtain ⟨token, child, hc, rfl⟩ := hx
    exact ⟨_, (Dict.mem_iff_lookup h.nodup).mpr hc, rfl⟩

/-- The children lie on different paths. -/
theorem nodup_paths_pathKids (h : Files node es) :
    ((pathKids countAware (node, q)).map (·.2)).Nodup := by
  have hpaths : ((pathKids countAware (node, q)).map (·.2)).Perm
      ((Dict.keys node.children).map fun token => q ++ [token]) := by
    unfold pathKids Dict.keys
    rw [List.map_reverse, List.map_map, List.map_map]
    exact (List.reverse_perm _).trans ((pushed_perm countAware node).map _)
  refine hpaths.nodup_iff.mpr (h.nodup.map fun token token' heq => ?_)
  simpa using heq

/-- The nodes that are listed are at the ends of their paths. -/
theorem nodeAt_of_mem_walk (h : Files node es) : ∀ {q : List Token} {x : TrieNode × List Token},
    x ∈ walk countAware node q → ∃ r, x.2 = q ++ r ∧ node.nodeAt r = some x.1 := by
  induction h with
  | intro node es prompts nodup counts kids absent ih =>
      intro q x hx
      have h : Files node es := Files.intro node es prompts nodup counts kids absent
      rw [walk_eq, List.mem_cons, List.mem_flatMap] at hx
      rcases hx with rfl | ⟨y, hy, hx⟩
      · exact ⟨[], (List.append_nil q).symm, rfl⟩
      · obtain ⟨token, child, hc, rfl⟩ := h.mem_pathKids.mp hy
        obtain ⟨r, hr, hn⟩ := ih token child hc hx
        refine ⟨token :: r, by rw [hr, List.append_assoc]; rfl, ?_⟩
        rw [TrieNode.nodeAt, hc]
        exact hn

/-! ### What stands together -/

/-- **What is listed below a path stands together.** -/
theorem contiguous_walk (h : Files node es) (countAware : Bool) (path : List Token) :
    ∀ q, Contiguous (fun x => path <+: x.2) (walk countAware node q) := by
  induction h with
  | intro node es prompts nodup counts kids absent ih =>
      intro q
      have h : Files node es := Files.intro node es prompts nodup counts kids absent
      by_cases hq : path <+: q
      · -- everything is below the path
        refine ⟨[], walk countAware node q, [], by simp, fun x hx => ?_, by simp, by simp⟩
        obtain ⟨r, hr, -⟩ := nodeAt_of_mem_walk h hx
        rw [hr]
        exact hq.trans (List.prefix_append _ _)
      · -- only what hangs below one of the children can be
        have hthrough : ∀ token child, node.children.lookup token = some child →
            ∀ x ∈ walk countAware child (q ++ [token]), path <+: x.2 → q ++ [token] <+: path := by
          intro token child hc x hx hpath
          obtain ⟨r, hr, -⟩ := nodeAt_of_mem_walk (h.kids hc) hx
          rw [hr, List.append_assoc] at hpath
          exact prefix_child_of_not_prefix hpath hq
        rw [walk_eq]
        refine Contiguous.cons ?_ hq
        by_cases hone : ∃ token child, node.children.lookup token = some child ∧ q ++ [token] <+: path
        · obtain ⟨token, child, hc, hpre⟩ := hone
          have hkid : (child, q ++ [token]) ∈ pathKids countAware (node, q) :=
            h.mem_pathKids.mpr ⟨token, child, hc, rfl⟩
          refine contiguous_flatMap_of_one (nodup_paths_pathKids h).of_map hkid
            (ih token child hc _) fun y hy hne x hx hpath => ?_
          obtain ⟨token', child', hc', rfl⟩ := h.mem_pathKids.mp hy
          have heq := eq_of_prefix_child hpre (hthrough token' child' hc' x hx hpath)
          rw [← heq, hc, Option.some.injEq] at hc'
          exact hne (by rw [heq, hc'])
        · refine contiguous_of_none fun x hx hpath => hone ?_
          obtain ⟨y, hy, hx⟩ := List.mem_flatMap.mp hx
          obtain ⟨token, child, hc, rfl⟩ := h.mem_pathKids.mp hy
          exact ⟨token, child, hc, hthrough token child hc x hx hpath⟩

/-! ### What comes first -/

/-- The larger of two siblings is visited first. -/
theorem pairwise_pathKids (node : TrieNode) (q : List Token) :
    (pathKids true (node, q)).Pairwise fun x y => y.1.count ≤ x.1.count := by
  unfold pathKids
  rw [List.pairwise_reverse, List.pairwise_map]
  show (node.pushed true).Pairwise fun x y => x.2.count ≤ y.2.count
  unfold pushed
  by_cases h : node.children.length > 1
  · rw [if_pos ⟨rfl, h⟩]
    exact pairwise_sorted (fun e : Token × TrieNode => e.2.count) node.children
  · rw [if_neg fun hc => h hc.2]
    have hlen : node.children.reverse.length ≤ 1 := by
      rw [List.length_reverse]
      exact Nat.le_of_not_lt h
    match hl : node.children.reverse, hlen with
    | [], _ => exact List.Pairwise.nil
    | [e], _ => exact List.pairwise_singleton _ e

/-- Of what is below two siblings, that below the larger one comes first. -/
def LargerFirst (size : List Token → Nat) (p p' : List Token) : Prop :=
  ∀ path token token', token ≠ token' → path ++ [token] <+: p → path ++ [token'] <+: p' →
    size (path ++ [token']) ≤ size (path ++ [token])

theorem under_under (token : Token) (path : List Token) (es : List FiledPrompt) :
    under [token] (under path es) = under (path ++ [token]) es := under_append path es [token]

/-- **Count-aware, the larger of two siblings is listed first.** -/
theorem pairwise_walk (all : List FiledPrompt) (h : Files node es) : ∀ q, es = under q all →
    (walk true node q).Pairwise fun x y => LargerFirst (fun p => (under p all).length) x.2 y.2 := by
  induction h with
  | intro node es prompts nodup counts kids absent ih =>
      intro q hes
      have h : Files node es := Files.intro node es prompts nodup counts kids absent
      rw [walk_eq, List.pairwise_cons]
      refine ⟨fun y hy path token token' hne hx hy' => ?_, ?_⟩
      · -- no sibling's subtree holds a node above
        obtain ⟨r, hr, -⟩ := nodeAt_of_mem_walk h (by rw [walk_eq]; exact List.mem_cons_of_mem _ hy)
        rw [hr] at hy'
        exact absurd (eq_of_prefix_child (hx.trans (List.prefix_append _ _)) hy') hne
      · rw [List.pairwise_flatMap]
        refine ⟨fun x hx => ?_, ?_⟩
        · obtain ⟨token, child, hc, rfl⟩ := h.mem_pathKids.mp hx
          exact ih token child hc _ (by rw [hes, under_under])
        · have hpaths : (pathKids true (node, q)).Pairwise fun x y => x.2 ≠ y.2 :=
            List.pairwise_map.mp (nodup_paths_pathKids h)
          refine ((pairwise_pathKids node q).and hpaths).imp_of_mem ?_
          intro x y hx hy hxy a ha b hb path token token' hne hpa hpb
          obtain ⟨t, c, hc, rfl⟩ := h.mem_pathKids.mp hx
          obtain ⟨t', c', hc', rfl⟩ := h.mem_pathKids.mp hy
          obtain ⟨r, hr, -⟩ := nodeAt_of_mem_walk (h.kids hc) ha
          obtain ⟨r', hr', -⟩ := nodeAt_of_mem_walk (h.kids hc') hb
          obtain ⟨rfl, rfl, rfl⟩ := eq_of_part hne (fun heq => hxy.2 (by rw [heq])) hpa hpb
            (hr ▸ List.prefix_append _ _) (hr' ▸ List.prefix_append _ _)
          have hle := hxy.1
          rw [h.count hc, h.count hc', hes, under_under, under_under] at hle
          exact_mod_cast hle

/-! ### What is listed -/

/-- The prompts of a node that is visited, with their path. -/
def entriesOf (x : TrieNode × List Token) : List FiledPrompt := x.1.promptIndices.map fun i => (x.2, i)

theorem map_filter_ending (q : List Token) (es : List FiledPrompt) :
    (es.filter fun e => e.1.head? = none).map (fun e => (q ++ e.1, e.2)) =
      (ending es).map fun i => (q, i) := by
  induction es with
  | nil => rfl
  | cons e es ih =>
      obtain ⟨ts, i⟩ := e
      unfold ending at ih ⊢
      cases ts with
      | nil => simpa using ih
      | cons t ts => simpa using ih

theorem map_filter_under (q : List Token) (token : Token) (es : List FiledPrompt) :
    (es.filter fun e => e.1.head? = some token).map (fun e => (q ++ e.1, e.2)) =
      (under [token] es).map fun e => (q ++ [token] ++ e.1, e.2) := by
  induction es with
  | nil => rfl
  | cons e es ih =>
      obtain ⟨ts, i⟩ := e
      unfold under at ih ⊢
      rw [List.filterMap_cons]
      cases ts with
      | nil =>
          rw [after_cons_nil]
          simpa using ih
      | cons t ts =>
          rw [after_cons_cons]
          by_cases ht : t = token
          · subst ht
            simpa using ih
          · simpa [ht] using ih

/-- What is filed below a node ends there, or is filed below one of the children. -/
theorem Files.perm (h : Files node es) (q : List Token) :
    ((ending es).map (fun i => (q, i)) ++ (Dict.keys node.children).flatMap fun token =>
      (under [token] es).map fun e => (q ++ [token] ++ e.1, e.2)).Perm
      (es.map fun e => (q ++ e.1, e.2)) := by
  have hnd : (none :: (Dict.keys node.children).map some).Nodup := by
    rw [List.nodup_cons]
    exact ⟨by simp, h.nodup.map (Option.some_injective _)⟩
  have hparts := flatMap_filter_perm (fun e : FiledPrompt => e.1.head?) _ es hnd fun e he => by
    obtain ⟨ts, i⟩ := e
    cases ts with
    | nil => exact List.mem_cons_self
    | cons token ts =>
        refine List.mem_cons_of_mem _ (List.mem_map_of_mem ((h.mem_keys_iff token).mpr ?_))
        exact List.ne_nil_of_mem ((mem_under [token] es (e := (ts, i))).mpr he)
  refine List.Perm.trans (List.Perm.of_eq ?_) (hparts.map fun e => (q ++ e.1, e.2))
  rw [List.flatMap_cons, List.map_append, map_filter_ending, List.map_flatMap, List.flatMap_map]
  simp only [map_filter_under]

/-- **The walk lists every prompt once.** -/
theorem perm_walk (h : Files node es) (countAware : Bool) : ∀ q,
    ((walk countAware node q).flatMap entriesOf).Perm (es.map fun e => (q ++ e.1, e.2)) := by
  induction h with
  | intro node es prompts nodup counts kids absent ih =>
      intro q
      have h : Files node es := Files.intro node es prompts nodup counts kids absent
      have hkids : (pathKids countAware (node, q)).Perm
          (node.children.map fun e => (e.2, q ++ [e.1])) :=
        (List.reverse_perm _).trans ((pushed_perm countAware node).map _)
      have hbelow : ((node.children.map fun e => (e.2, q ++ [e.1])).flatMap fun x =>
            (walk countAware x.1 x.2).flatMap entriesOf).Perm
          ((Dict.keys node.children).flatMap fun token =>
            (under [token] es).map fun e => (q ++ [token] ++ e.1, e.2)) := by
        unfold Dict.keys
        rw [List.flatMap_map, List.flatMap_map]
        refine List.Perm.flatMap_left _ fun e he => ?_
        exact ih e.1 e.2 ((Dict.mem_iff_lookup nodup).mp he) (q ++ [e.1])
      rw [walk_eq, List.flatMap_cons, List.flatMap_assoc]
      refine List.Perm.trans ?_ (h.perm q)
      refine List.Perm.append (List.Perm.of_eq ?_) ((hkids.flatMap_right _).trans hbelow)
      unfold entriesOf
      rw [prompts]

end TrieNode

namespace PrefixTrie

open FiledPrompt TrieNode

variable (t : PrefixTrie) (countAware : Bool)

/-- The depth-first order, with the path of each prompt. -/
def dfsEntries : List FiledPrompt := (walk countAware t.root []).flatMap entriesOf

theorem dfsOrder_eq : t.dfsOrder countAware = (t.dfsEntries countAware).map (·.2) := by
  unfold dfsOrder dfsEntries entriesOf
  rw [List.map_flatMap]
  refine (dfsLoop_eq countAware t.root.nodeCount [(t.root, [])]).trans ?_
  refine List.flatMap_congr fun x _ => ?_
  rw [List.map_map]
  exact (List.map_id _).symm

variable {t} in
/-- The entries are what the trie holds. -/
theorem dfsEntries_perm {es : List FiledPrompt} (h : Files t.root es) :
    (t.dfsEntries countAware).Perm es := by
  have hperm := perm_walk h countAware []
  simp only [List.nil_append, List.map_id'] at hperm
  exact hperm

variable {t} in
theorem contiguous_dfsEntries {es : List FiledPrompt} (h : Files t.root es) (path : List Token) :
    Contiguous (fun e => path <+: e.1) (t.dfsEntries countAware) := by
  refine (contiguous_walk h countAware path []).flatMap fun x _ y hy => ?_
  obtain ⟨i, -, rfl⟩ := List.mem_map.mp hy
  exact Iff.rfl

/-- The keys, each with its prompts, are the prompts. -/
theorem flatMap_dfsGroupKeys {es : List FiledPrompt} (h : Files t.root es) :
    (t.dfsGroupKeys countAware).flatMap t.promptsAt = t.dfsOrder countAware := by
  rw [dfsOrder_eq, dfsGroupKeys_eq, List.flatMap_assoc]
  unfold dfsEntries
  rw [List.map_flatMap]
  refine List.flatMap_congr fun x hx => ?_
  obtain ⟨r, hr, hn⟩ := nodeAt_of_mem_walk h hx
  have hprompts : t.promptsAt x.2 = x.1.promptIndices := by
    unfold PrefixTrie.promptsAt
    rw [promptsAt_of_nodeAt, hr, List.nil_append, hn]
    rfl
  have hentries : (entriesOf x).map (·.2) = x.1.promptIndices := by
    unfold entriesOf
    rw [List.map_map]
    exact List.map_id _
  rw [hentries]
  by_cases hnil : x.1.promptIndices = []
  · simp [hnil]
  · simp [hnil, hprompts]

/--
**The order in which a trie lists its prompts.**  After any history the depth-first order is a
list of the remaining prompts, each as often as it is stored; those below any node stand
together; count-aware, of two siblings the one with more prompts comes first.  The group keys
name the paths at which prompts end, in the same order.
-/
theorem dfs_orders (maxDepth : Nat) (ops : List Op) (countAware : Bool) :
    let t := run maxDepth ops
    let stored := (remaining maxDepth ops).map (filed maxDepth)
    (∃ entries : List FiledPrompt, entries.map (·.2) = t.dfsOrder countAware ∧
      entries.Perm stored ∧ (∀ path, Contiguous (fun e => path <+: e.1) entries) ∧
      (countAware = true → entries.Pairwise fun e e' =>
        LargerFirst (fun path => stored.countP fun e => path <+: e.1) e.1 e'.1)) ∧
    (t.dfsGroupKeys countAware).flatMap t.promptsAt = t.dfsOrder countAware := by
  intro t stored
  have h : Files t.root stored := (run_holds maxDepth ops).files
  refine ⟨⟨t.dfsEntries countAware, (dfsOrder_eq t countAware).symm, dfsEntries_perm countAware h,
    contiguous_dfsEntries countAware h, fun haware => ?_⟩, flatMap_dfsGroupKeys t countAware h⟩
  subst haware
  unfold dfsEntries
  simp only [← length_under]
  rw [List.pairwise_flatMap]
  constructor
  · intro x _
    unfold entriesOf
    rw [List.pairwise_map]
    refine List.pairwise_of_forall fun i j path token token' hne hx hx' => ?_
    exact absurd (eq_of_prefix_child hx hx') hne
  · refine (pairwise_walk stored h [] (under_root stored).symm).imp fun {x y} hxy e he e' he' => ?_
    obtain ⟨i, -, rfl⟩ := List.mem_map.mp he
    obtain ⟨j, -, rfl⟩ := List.mem_map.mp he'
    exact hxy

end PrefixTrie

end Peek
