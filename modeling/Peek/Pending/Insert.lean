/-
What `Tree.insert` does to the tree.

`Counted` is the part of the representation invariant that holds at every point of
every operation: the arena is a labelled radix tree, counts and terminators are what
the pending requests say, and every request's tokens are some node's path.  The
compression clause is kept apart, because it fails in the middle: a split leaves a
node with one child and no terminators, and a new leaf has neither until its
terminator is written.

`insert` is then four small steps, each with its own lemma: split, new leaf,
terminator, counts.
-/
import Peek.Pending.Walk
import Mathlib.Data.List.GetD

namespace Peek

open Radix

/-- The pending requests: ids with their tokens. -/
abbrev Requests := List ((_ : Rid) × List Token)

/-- How many requests start with `p`. -/
def Requests.countFrom (E : Requests) (p : List Token) : Nat :=
  E.countP fun e => p.isPrefixOf e.2

namespace Tree

/-- Counts and terminators are what the pending requests say. -/
structure Counted (t : Tree) (live : Set NodeId) (rp : NodeId → List Token) (E : Requests) :
    Prop where
  labelled : Labelled t.heap live rp
  arena : Arena t live
  rootCount : (t.node ROOT).pendingCount = 0
  count : ∀ n ∈ live, n ≠ ROOT → (t.node n).pendingCount = E.countFrom (rp n)
  terms : ∀ n ∈ live, ∀ r, r ∈ (t.node n).terminators ↔ ⟨r, rp n⟩ ∈ E
  termsNodup : ∀ n ∈ live, (t.node n).terminators.Nodup
  covers : ∀ e ∈ E, ∃ n ∈ live, rp n = e.2

/-- The tree holds every prefix of a pending prompt. -/
theorem Counted.held {t : Tree} {live : Set NodeId} {rp : NodeId → List Token} {E : Requests}
    (h : Counted t live rp E) {e : (_ : Rid) × List Token} (he : e ∈ E) {q : List Token}
    (hpre : q <+: e.2) : Held live rp q := by
  obtain ⟨n, hn, hp⟩ := h.covers e he
  exact ⟨n, hn, hp ▸ hpre⟩

/-- A node radix compression keeps: a terminator, or a fork. -/
def Branching (n : Node) : Prop :=
  n.terminators ≠ [] ∨ 2 ≤ n.children.entries.length

/-- Compressed, except possibly at `x`. -/
def CompressedBut (t : Tree) (live : Set NodeId) (x : NodeId) : Prop :=
  ∀ m ∈ live, m ≠ ROOT → m ≠ x → Branching (t.node m)

/-- Every live node but the root earns its place. -/
def Compressed (t : Tree) (live : Set NodeId) : Prop :=
  ∀ m ∈ live, m ≠ ROOT → Branching (t.node m)

theorem Compressed.but {t : Tree} {live : Set NodeId} (h : Compressed t live) (x : NodeId) :
    CompressedBut t live x :=
  fun m hm hr _ => h m hm hr

/-! ### The new tree -/

theorem node_new (n : NodeId) : Tree.new.node n = Node.new [] ROOT := by
  cases n <;> rfl

theorem new_labelled : Labelled Tree.new.heap {ROOT} fun _ => [] := by
  have hkid : ∀ n a c, Tree.new.heap.kid n a ≠ some c := by
    intro n a c
    rw [heap_kid, node_new]
    exact Option.some_ne_none c ∘ Eq.symm
  exact
    { rootLive := rfl, rootPath := rfl, rootEdge := rfl
      kidLive := fun _ hk => absurd hk (hkid _ _ _)
      kidHead := fun _ hk => absurd hk (hkid _ _ _)
      kidPath := fun _ hk => absurd hk (hkid _ _ _)
      kidParent := fun _ hk => absurd hk (hkid _ _ _)
      up := fun hn hr => absurd hn hr }

theorem new_counted : Counted Tree.new {ROOT} (fun _ => []) [] where
  labelled := new_labelled
  arena :=
    { slots := fun i => by simp [Tree.new, ROOT]
      disjoint := fun i _ => by simp [Tree.new]
      nodup := List.nodup_nil }
  rootCount := rfl
  count n hn hr := absurd hn hr
  terms n _ r := by rw [node_new]; simp [Node.new]
  termsNodup n _ := by rw [node_new]; exact List.nodup_nil
  covers e he := by simp at he

variable {t : Tree} {live : Set NodeId} {rp : NodeId → List Token} {E : Requests}

theorem countFrom_congr {p q : List Token} (h : ∀ e ∈ E, p <+: e.2 ↔ q <+: e.2) :
    E.countFrom p = E.countFrom q := by
  refine List.countP_congr fun e he => ?_
  rw [List.isPrefixOf_iff_prefix, List.isPrefixOf_iff_prefix]
  exact h e he

/-- Requests that run one symbol past a node run through the child there. -/
theorem Counted.prefix_kid (h : Counted t live rp E) {n c : NodeId} {a : Token} {tl : List Token}
    (hn : n ∈ live) (hkid : t.heap.kid n a = some c) {e : (_ : Rid) × List Token} (he : e ∈ E)
    (hpre : rp n ++ a :: tl <+: e.2) : rp c <+: e.2 := by
  obtain ⟨m, hm, hme⟩ := h.covers e he
  rw [← hme] at hpre ⊢
  obtain ⟨c', hkid', hcm⟩ := h.labelled.kid_of_prefix hn hm hpre
  have hcc : c = c' := by rw [hkid] at hkid'; simpa using hkid'
  subst hcc
  exact h.labelled.below_prefix (h.labelled.kidLive hn hkid) hcm

/-! ### Splitting an edge -/

/-- What a split writes: the cut node `c`, the fresh lower half `l`, the children's parent links. -/
structure IsSplit (t t' : Tree) (live : Set NodeId) (c l : NodeId) (o : Nat) : Prop where
  fresh : l ∉ live
  arena : Arena t' (Insert.insert l live)
  nodeAt : t'.node c =
    { t.node c with
      edge := (t.node c).edge.take o, terminators := []
      children := AList.singleton (((t.node c).edge.drop o).headD 0) l }
  nodeNew : t'.node l = { t.node c with edge := (t.node c).edge.drop o, parent := c }
  nodeOld : ∀ m ∈ live, m ≠ c → t'.node m =
    if m ∈ Map.values (t.node c).children then { t.node m with parent := l } else t.node m

theorem splitEdge_isSplit (h : Labelled t.heap live rp) (ha : Arena t live) {c : NodeId}
    (hc : c ∈ live) (o : Nat) : ∃ l, IsSplit t (t.splitEdge c o) live c l o := by
  set cut : Node → Node := fun n =>
    { n with edge := n.edge.take o, children := ∅, terminators := [] } with hcut
  set t1 := t.nodeMut c cut with ht1
  have ha1 : Arena t1 live := ha.nodeMut c cut
  set lowerEdge := (t.node c).edge.drop o with hlower
  obtain ⟨hl, ha2, hnew, hold⟩ := alloc_spec ha1 lowerEdge c
  set l := (t1.alloc lowerEdge c).2 with hlid
  set t2 := (t1.alloc lowerEdge c).1 with ht2
  set cs := Map.values (t.node c).children with hcs
  -- neither half is among the children, so their writes stay apart
  have hccs : c ∉ cs := by
    intro hmem
    obtain ⟨a, hk⟩ := Map.mem_values.mp hmem
    exact h.kid_ne_self hc (show t.heap.kid c a = some c from hk) rfl
  have hlcs : l ∉ cs := by
    intro hmem
    obtain ⟨a, hk⟩ := Map.mem_values.mp hmem
    exact hl (h.kidLive hc (show t.heap.kid c a = some l from hk))
  have hcl : c ≠ l := fun heq => hl (heq ▸ hc)
  set t3 := t2.reparent cs l with ht3
  have ha3 : Arena t3 (Insert.insert l live) := ha2.reparent cs l
  have hsplit : t.splitEdge c o =
      (t3.nodeMut l fun x =>
        { x with children := (t.node c).children, terminators := (t.node c).terminators
                 pendingCount := (t.node c).pendingCount }).nodeMut c
        fun x => { x with children := x.children.insert (lowerEdge.headD 0) l } := rfl
  rw [hsplit]
  have hlsize : l < t3.nodes.size := ha3.lt_size (Or.inl rfl)
  have hcsize : c < t3.nodes.size := ha3.lt_size (Or.inr hc)
  refine ⟨l, hl, (ha3.nodeMut _ _).nodeMut _ _, ?_, ?_, ?_⟩
  · rw [node_nodeMut_self _ _ (by rw [size_nodeMut]; exact hcsize), node_nodeMut_ne _ _ hcl,
      ht3, node_reparent_notMem _ _ hccs, hold c hcl, ht1,
      node_nodeMut_self _ _ (ha.lt_size hc)]
    rfl
  · rw [node_nodeMut_ne _ _ (Ne.symm hcl), node_nodeMut_self _ _ hlsize, ht3,
      node_reparent_notMem _ _ hlcs, hnew]
    rfl
  · intro m hm hmc
    have hml : m ≠ l := fun heq => hl (heq ▸ hm)
    rw [node_nodeMut_ne _ _ hmc, node_nodeMut_ne _ _ hml, ht3]
    by_cases hmem : m ∈ cs
    · rw [if_pos hmem, node_reparent_mem _ _ (ha2.lt_size (Or.inr hm)) hmem, hold m hml, ht1,
        node_nodeMut_ne _ _ hmc]
    · rw [if_neg hmem, node_reparent_notMem _ _ hmem, hold m hml, ht1, node_nodeMut_ne _ _ hmc]

namespace IsSplit

variable {t' : Tree} {c l : NodeId} {o : Nat}

theorem ne_new (hs : IsSplit t t' live c l o) {m : NodeId} (hm : m ∈ live) : m ≠ l :=
  fun heq => hs.fresh (heq ▸ hm)

/-- The fields every other node keeps. -/
theorem old_fields (hs : IsSplit t t' live c l o) {m : NodeId} (hm : m ∈ live) (hmc : m ≠ c) :
    (t'.node m).edge = (t.node m).edge ∧ (t'.node m).children = (t.node m).children ∧
      (t'.node m).pendingCount = (t.node m).pendingCount ∧
      (t'.node m).terminators = (t.node m).terminators := by
  rw [hs.nodeOld m hm hmc]
  split <;> exact ⟨rfl, rfl, rfl, rfl⟩

theorem drop_eq (ho' : o < (t.node c).edge.length) : (t.node c).edge.drop o
    = (t.node c).edge.getD o 0 :: (t.node c).edge.drop (o + 1) := by
  rw [List.drop_eq_getElem_cons ho', List.getD_eq_getElem _ _ ho']

theorem take_ne_nil (ho : 0 < o) (ho' : o < (t.node c).edge.length) :
    (t.node c).edge.take o ≠ [] := by
  rw [Ne, List.take_eq_nil_iff]
  rintro (rfl | hnil)
  · omega
  · rw [hnil] at ho'; simp at ho'

/-- The upper half has one child, the lower half. -/
theorem kid_at (hs : IsSplit t t' live c l o) (ho' : o < (t.node c).edge.length) (x : Token) :
    (t'.node c).children.lookup x = if x = (t.node c).edge.getD o 0 then some l else none := by
  rw [hs.nodeAt, drop_eq ho', List.headD_cons, ← AList.insert_empty, Map.lookup_insert_of,
    AList.lookup_empty]

theorem labelled (hs : IsSplit t t' live c l o) (h : Labelled t.heap live rp) (hc : c ∈ live)
    (hr : c ≠ ROOT) (ho : 0 < o) (ho' : o < (t.node c).edge.length) :
    Labelled t'.heap (Insert.insert l live) fun m =>
      if m = l then rp c
      else if m = c then rp (t.node c).parent ++ (t.node c).edge.take o else rp m := by
  have hedge : t.heap.edge c =
      (t.node c).edge.take o ++ (t.node c).edge.getD o 0 :: (t.node c).edge.drop (o + 1) := by
    rw [heap_edge, ← drop_eq ho', List.take_append_drop]
  refine h.splitLower hc hr hs.fresh (take_ne_nil ho ho') hedge rfl ?_ ?_ ?_ (hs.kid_at ho') ?_ ?_
    ?_ ?_ ?_
  · rw [heap_edge, hs.nodeAt]
  · rw [heap_edge, hs.nodeNew, ← drop_eq ho']
  · exact fun m hm hmc => (hs.old_fields hm hmc).1
  · intro x; rw [heap_kid, hs.nodeNew]; rfl
  · intro m hm hmc x; rw [heap_kid, (hs.old_fields hm hmc).2.1]; rfl
  · rw [heap_parent, hs.nodeNew]
  · intro x g hg
    rw [heap_parent, hs.nodeOld g (h.kidLive hc hg) (h.kid_ne_self hc hg),
      if_pos (Map.mem_values.mpr ⟨x, hg⟩)]
  · intro m hm hno
    rw [heap_parent, heap_parent]
    by_cases hmc : m = c
    · rw [hmc, hs.nodeAt]
    · rw [hs.nodeOld m hm hmc, if_neg]
      intro hmem
      obtain ⟨x, hx⟩ := Map.mem_values.mp hmem
      exact hno x hx

/-- A request that runs into the upper half runs through all of the old edge. -/
theorem through (h : Counted t live rp E) (hc : c ∈ live) (hr : c ≠ ROOT) (ho : 0 < o)
    (ho' : o < (t.node c).edge.length) {e : (_ : Rid) × List Token} (he : e ∈ E)
    (hpre : rp (t.node c).parent ++ (t.node c).edge.take o <+: e.2) : rp c <+: e.2 := by
  obtain ⟨a, hahead, hplive, hpkid⟩ := h.labelled.up hc hr
  cases htake : (t.node c).edge.take o with
  | nil => exact absurd htake (take_ne_nil ho ho')
  | cons b tl =>
      have hb : b = a := by
        have hh : (t.node c).edge.head? = some b := by
          rw [← List.take_append_drop o (t.node c).edge, htake]; rfl
        rw [heap_edge, hh] at hahead
        simpa using hahead
      rw [htake, hb] at hpre
      exact h.prefix_kid hplive hpkid he hpre

/--
**A split keeps the tree counted.**  The cut node's path shortens to the upper half;
the requests that run through it are still exactly those that ran through it before,
because every path into the upper half goes on through the lower.
-/
theorem counted (hs : IsSplit t t' live c l o) (h : Counted t live rp E) (hc : c ∈ live)
    (hr : c ≠ ROOT) (ho : 0 < o) (ho' : o < (t.node c).edge.length) :
    Counted t' (Insert.insert l live) (fun m =>
      if m = l then rp c
      else if m = c then rp (t.node c).parent ++ (t.node c).edge.take o else rp m) E := by
  have hcl : c ≠ l := hs.ne_new hc
  have hpath : rp c = rp (t.node c).parent ++ (t.node c).edge := h.labelled.path_eq hc hr
  refine ⟨hs.labelled h.labelled hc hr ho ho', hs.arena, ?_, ?_, ?_, ?_, ?_⟩
  · have hroot : ROOT ∈ live := h.labelled.rootLive
    rw [(hs.old_fields hroot (Ne.symm hr)).2.2.1]; exact h.rootCount
  · rintro m (rfl | hm) hmr
    · rw [hs.nodeNew, if_pos rfl]; exact h.count c hc hr
    · rw [if_neg (hs.ne_new hm)]
      by_cases hmc : m = c
      · subst hmc
        rw [hs.nodeAt, if_pos rfl]
        refine (h.count m hm hmr).trans (countFrom_congr fun e he => ?_)
        refine ⟨fun hpre => List.IsPrefix.trans ?_ hpre, through h hm hmr ho ho' he⟩
        rw [hpath]
        exact (List.prefix_append_right_inj _).mpr (List.take_prefix _ _)
      · rw [(hs.old_fields hm hmc).2.2.1, if_neg hmc]; exact h.count m hm hmr
  · rintro m (rfl | hm) r
    · rw [hs.nodeNew, if_pos rfl]; exact h.terms c hc r
    · rw [if_neg (hs.ne_new hm)]
      by_cases hmc : m = c
      · subst hmc
        rw [hs.nodeAt, if_pos rfl]
        simp only [List.not_mem_nil, false_iff]
        intro hmem
        have hlen := (through h hm hr ho ho' hmem (List.prefix_refl _)).length_le
        rw [hpath] at hlen
        simp only [List.length_append, List.length_take] at hlen
        omega
      · rw [(hs.old_fields hm hmc).2.2.2, if_neg hmc]; exact h.terms m hm r
  · rintro m (rfl | hm)
    · rw [hs.nodeNew]; exact h.termsNodup c hc
    · by_cases hmc : m = c
      · rw [hmc, hs.nodeAt]; exact List.nodup_nil
      · rw [(hs.old_fields hm hmc).2.2.2]; exact h.termsNodup m hm
  · intro e he
    obtain ⟨m, hm, hme⟩ := h.covers e he
    by_cases hmc : m = c
    · exact ⟨l, Or.inl rfl, by rw [if_pos rfl, ← hmc, hme]⟩
    · exact ⟨m, Or.inr hm, by rw [if_neg (hs.ne_new hm), if_neg hmc, hme]⟩

theorem compressedBut (hs : IsSplit t t' live c l o) (h : CompressedBut t live c)
    (hbr : Branching (t.node c)) : CompressedBut t' (Insert.insert l live) c := by
  rintro m (rfl | hm) hmr hmc
  · rw [hs.nodeNew]; exact hbr
  · have := h m hm hmr hmc
    unfold Branching at this ⊢
    rw [(hs.old_fields hm hmc).2.1, (hs.old_fields hm hmc).2.2.2]
    exact this

end IsSplit

/-! ### A new leaf -/

/-- What `addChild` writes: the fresh leaf `l`, and the child entry of its parent `n`. -/
structure IsChild (t t' : Tree) (live : Set NodeId) (n l : NodeId) (tail : List Token) : Prop where
  fresh : l ∉ live
  arena : Arena t' (Insert.insert l live)
  nodeNew : t'.node l = Node.new tail n
  nodeAt : t'.node n = { t.node n with children := (t.node n).children.insert (tail.headD 0) l }
  nodeOld : ∀ m ∈ live, m ≠ n → t'.node m = t.node m

theorem addChild_isChild (ha : Arena t live) {n : NodeId} (hn : n ∈ live) (tail : List Token) :
    IsChild t (t.addChild n tail).1 live n (t.addChild n tail).2 tail := by
  obtain ⟨hl, ha2, hnew, hold⟩ := alloc_spec ha tail n
  have hnl : n ≠ (t.alloc tail n).2 := fun heq => hl (heq ▸ hn)
  refine ⟨hl, ha2.nodeMut _ _, ?_, ?_, ?_⟩
  · exact (node_nodeMut_ne _ _ (Ne.symm hnl)).trans hnew
  · rw [addChild, node_nodeMut_self _ _ (ha2.lt_size (Or.inr hn)), hold n hnl]
  · intro m hm hmn
    have hml : m ≠ (t.alloc tail n).2 := fun heq => hl (heq ▸ hm)
    rw [addChild, node_nodeMut_ne _ _ hmn, hold m hml]

namespace IsChild

variable {t' : Tree} {n l : NodeId} {a : Token} {tl : List Token}

theorem ne_new {tail : List Token} (hs : IsChild t t' live n l tail) {m : NodeId} (hm : m ∈ live) :
    m ≠ l :=
  fun heq => hs.fresh (heq ▸ hm)

/-- The fields the old nodes keep. -/
theorem old_fields {tail : List Token} (hs : IsChild t t' live n l tail) {m : NodeId}
    (hm : m ∈ live) : (t'.node m).edge = (t.node m).edge ∧
      (t'.node m).parent = (t.node m).parent ∧
      (t'.node m).pendingCount = (t.node m).pendingCount ∧
      (t'.node m).terminators = (t.node m).terminators := by
  by_cases hmn : m = n
  · rw [hmn, hs.nodeAt]; exact ⟨rfl, rfl, rfl, rfl⟩
  · rw [hs.nodeOld m hm hmn]; exact ⟨rfl, rfl, rfl, rfl⟩

/--
**A new leaf keeps the tree counted.**  It hangs where the tree held nothing, so no
request runs through it yet.
-/
theorem counted (hs : IsChild t t' live n l (a :: tl)) (h : Counted t live rp E) (hn : n ∈ live)
    (hfree : (t.node n).children.lookup a = none) :
    Counted t' (Insert.insert l live) (fun m => if m = l then rp n ++ a :: tl else rp m) E := by
  have hlab : Labelled t'.heap (Insert.insert l live)
      (fun m => if m = l then rp n ++ a :: tl else rp m) := h.labelled.graft hn hs.fresh hfree rfl
    (by rw [heap_edge, hs.nodeNew]; rfl) (fun m hm => (hs.old_fields hm).1)
    (by rw [heap_parent, hs.nodeNew]; rfl) (fun m hm => (hs.old_fields hm).2.1)
    (by intro x; rw [heap_kid, hs.nodeNew]; rfl)
    (by intro x; rw [heap_kid, hs.nodeAt, List.headD_cons, Map.lookup_insert_of]; rfl)
    (by intro m hm hmn x; rw [heap_kid, hs.nodeOld m hm hmn]; rfl)
  have hnone : ∀ e ∈ E, ¬ rp n ++ a :: tl <+: e.2 := by
    intro e he hpre
    obtain ⟨m, hm, hme⟩ := h.covers e he
    rw [← hme] at hpre
    obtain ⟨c, hk, -⟩ := h.labelled.kid_of_prefix hn hm hpre
    rw [heap_kid, hfree] at hk
    simp at hk
  refine ⟨hlab, hs.arena, ?_, ?_, ?_, ?_, ?_⟩
  · have hroot : ROOT ∈ live := h.labelled.rootLive
    rw [(hs.old_fields hroot).2.2.1]; exact h.rootCount
  · rintro m (rfl | hm) hmr
    · rw [hs.nodeNew, if_pos rfl]
      refine (List.countP_eq_zero.mpr fun e he => ?_).symm
      rw [List.isPrefixOf_iff_prefix]
      exact hnone e he
    · rw [(hs.old_fields hm).2.2.1, if_neg (hs.ne_new hm)]; exact h.count m hm hmr
  · rintro m (rfl | hm) r
    · rw [hs.nodeNew, if_pos rfl]
      simp only [Node.new, List.not_mem_nil, false_iff]
      exact fun hmem => hnone _ hmem (List.prefix_refl _)
    · rw [(hs.old_fields hm).2.2.2, if_neg (hs.ne_new hm)]; exact h.terms m hm r
  · rintro m (rfl | hm)
    · rw [hs.nodeNew]; exact List.nodup_nil
    · rw [(hs.old_fields hm).2.2.2]; exact h.termsNodup m hm
  · intro e he
    obtain ⟨m, hm, hme⟩ := h.covers e he
    exact ⟨m, Or.inr hm, by rw [if_neg (hs.ne_new hm), hme]⟩

/-- The leaf still wants a terminator; its parent now forks, if it did not before. -/
theorem compressedBut (hs : IsChild t t' live n l (a :: tl)) (h : CompressedBut t live n)
    (hfree : (t.node n).children.lookup a = none)
    (hn : n ≠ ROOT → (t.node n).terminators ≠ [] ∨ (t.node n).children.entries ≠ []) :
    CompressedBut t' (Insert.insert l live) l := by
  rintro m (rfl | hm) hmr hml
  · exact absurd rfl hml
  · by_cases hmn : m = n
    · subst hmn
      unfold Branching
      rw [hs.nodeAt]
      rcases hn hmr with hterm | hkids
      · exact Or.inl hterm
      · refine Or.inr ?_
        simp only [List.headD_cons]
        rw [AList.entries_insert_of_notMem (AList.lookup_eq_none.mp hfree), List.length_cons]
        have := List.length_pos_iff.mpr hkids
        omega
    · rw [hs.nodeOld m hm hmn]; exact h m hm hmr hmn

end IsChild

/-! ### Writing the terminator and the counts -/

theorem countFrom_cons (r : Rid) (ts p : List Token) :
    Requests.countFrom (⟨r, ts⟩ :: E) p = E.countFrom p + if p <+: ts then 1 else 0 := by
  unfold Requests.countFrom
  rw [List.countP_cons]
  simp only [List.isPrefixOf_iff_prefix]

/-- Adding a request at a node whose path is its tokens. -/
theorem terminate_counted (h : Counted t live rp E) {n : NodeId} (hn : n ∈ live) {rid : Rid}
    (hfresh : ∀ ts, (⟨rid, ts⟩ : (_ : Rid) × List Token) ∉ E) {fuel : Nat}
    (hfuel : (rp n).length ≤ fuel) :
    Counted (climb (fun x => { x with pendingCount := x.pendingCount + 1 }) fuel n
      (t.nodeMut n fun x => { x with terminators := x.terminators.insert rid })) live rp
      (⟨rid, rp n⟩ :: E) := by
  set t1 := t.nodeMut n fun x => { x with terminators := x.terminators.insert rid } with ht1
  have hheap : t1.heap = t.heap :=
    heap_nodeMut t n _ (fun _ => rfl) (fun _ => rfl) (fun _ => rfl)
  have hlab : Labelled t1.heap live rp := by rw [hheap]; exact h.labelled
  obtain ⟨hheap', harena', hnode⟩ :=
    node_climb (f := fun x => { x with pendingCount := x.pendingCount + 1 }) (fun _ => rfl)
      (fun _ => rfl) (fun _ => rfl) fuel n t1 hlab (h.arena.nodeMut n _) hn hfuel
  have hcount1 : ∀ m, (t1.node m).pendingCount = (t.node m).pendingCount :=
    proj_nodeMut (·.pendingCount) t n _ fun _ => rfl
  have hterm1 : ∀ m ∈ live, ∀ r, r ∈ (t1.node m).terminators ↔
      (m = n ∧ r = rid) ∨ r ∈ (t.node m).terminators := by
    intro m hm r
    by_cases hmn : m = n
    · subst hmn
      rw [ht1, node_nodeMut_self _ _ (h.arena.lt_size hm), List.mem_insert_iff]
      simp
    · rw [ht1, node_nodeMut_ne _ _ hmn]
      simp [hmn]
  have hroot : ROOT ∈ live := h.labelled.rootLive
  refine ⟨by rw [hheap', hheap]; exact h.labelled, harena', ?_, ?_, ?_, ?_, ?_⟩
  · rw [hnode ROOT hroot, if_neg (by simp), hcount1]; exact h.rootCount
  · intro m hm hmr
    rw [hnode m hm, countFrom_cons, ← h.count m hm hmr, ← hcount1 m]
    by_cases hpre : rp m <+: rp n
    · rw [if_pos ⟨hmr, hpre⟩, if_pos hpre]
    · rw [if_neg (by tauto), if_neg hpre]; rfl
  · intro m hm r
    rw [hnode m hm]
    have hsame : r ∈ (if m ≠ ROOT ∧ rp m <+: rp n then
        { t1.node m with pendingCount := (t1.node m).pendingCount + 1 } else t1.node m).terminators
        ↔ r ∈ (t1.node m).terminators := by split <;> exact Iff.rfl
    rw [hsame, hterm1 m hm, h.terms m hm, List.mem_cons]
    refine or_congr ⟨?_, ?_⟩ Iff.rfl
    · rintro ⟨rfl, rfl⟩; rfl
    · intro heq
      simp only [Sigma.mk.injEq, heq_eq_eq] at heq
      exact ⟨h.labelled.path_injective hm hn heq.2, heq.1⟩
  · intro m hm
    rw [hnode m hm]
    have hnd : (t1.node m).terminators.Nodup := by
      by_cases hmn : m = n
      · subst hmn
        rw [ht1, node_nodeMut_self _ _ (h.arena.lt_size hm)]
        exact (h.termsNodup m hm).insert
      · rw [ht1, node_nodeMut_ne _ _ hmn]; exact h.termsNodup m hm
    split <;> exact hnd
  · intro e he
    rcases List.mem_cons.mp he with rfl | he
    · exact ⟨n, hn, rfl⟩
    · exact h.covers e he

theorem terminate_compressed (h : Labelled t.heap live rp) (ha : Arena t live) {n : NodeId}
    (hn : n ∈ live) (hcomp : CompressedBut t live n) (rid : Rid) {fuel : Nat}
    (hfuel : (rp n).length ≤ fuel) :
    Compressed (climb (fun x => { x with pendingCount := x.pendingCount + 1 }) fuel n
      (t.nodeMut n fun x => { x with terminators := x.terminators.insert rid })) live := by
  set t1 := t.nodeMut n fun x => { x with terminators := x.terminators.insert rid } with ht1
  have hheap : t1.heap = t.heap :=
    heap_nodeMut t n _ (fun _ => rfl) (fun _ => rfl) (fun _ => rfl)
  have hlab : Labelled t1.heap live rp := by rw [hheap]; exact h
  obtain ⟨-, -, hnode⟩ :=
    node_climb (f := fun x => { x with pendingCount := x.pendingCount + 1 }) (fun _ => rfl)
      (fun _ => rfl) (fun _ => rfl) fuel n t1 hlab (ha.nodeMut n _) hn hfuel
  intro m hm hmr
  have hbr : Branching (t1.node m) := by
    by_cases hmn : m = n
    · subst hmn
      refine Or.inl ?_
      rw [ht1, node_nodeMut_self _ _ (ha.lt_size hm)]
      exact List.ne_nil_of_mem List.mem_insert_self
    · rw [ht1, node_nodeMut_ne _ _ hmn]; exact hcomp m hm hmr hmn
  rw [hnode m hm]
  split <;> exact hbr

/-! ### The whole insertion -/

/-- After the split, the descent's end node sits exactly at the tokens consumed. -/
theorem splitAt_counted (h : Counted t live rp E) (hcomp : Compressed t live) (ts : List Token) :
    ∃ live' rp', Counted (t.splitAt (t.descend ts)) live' rp' E ∧
      (t.descend ts).endNode ∈ live' ∧ (t.descend ts).consumed ≤ ts.length ∧
      rp' (t.descend ts).endNode = ts.take (t.descend ts).consumed ∧
      CompressedBut (t.splitAt (t.descend ts)) live' (t.descend ts).endNode ∧
      (∀ a, ts[(t.descend ts).consumed]? = some a →
        ((t.splitAt (t.descend ts)).node (t.descend ts).endNode).children.lookup a = none) ∧
      ((t.descend ts).endNode ≠ ROOT →
        ((t.splitAt (t.descend ts)).node (t.descend ts).endNode).terminators ≠ [] ∨
        ((t.splitAt (t.descend ts)).node (t.descend ts).endNode).children.entries ≠ []) := by
  have hstop := descend_stopped h.labelled ts
  set d := t.descend ts with hd
  obtain ⟨e, o, k⟩ := d
  simp only at hstop ⊢
  cases hstop with
  | atNode hn hk hp hend =>
      have hsame : t.splitAt ⟨e, (t.heap.edge e).length, k⟩ = t := if_neg (by simp)
      rw [hsame]
      refine ⟨live, rp, h, hn, hk, hp, hcomp.but e, hend, fun hr => ?_⟩
      rcases hcomp e hn hr with hterm | hkids
      · exact Or.inl hterm
      · exact Or.inr (List.ne_nil_of_length_pos (by omega))
  | @onEdge u _ a k hu hp ha hkid hlt =>
      have he := h.labelled.kidLive hu hkid
      have hr : e ≠ ROOT := h.labelled.kid_ne_root hu hkid
      have hpos := h.labelled.walk_pos hu ha hkid
      set o := lcpLen (t.heap.edge e) (ts.drop k) with ho
      rw [heap_edge] at hlt
      have hsplit : t.splitAt ⟨e, o, k + o⟩ = t.splitEdge e o := if_pos (by simp only; omega)
      rw [hsplit]
      obtain ⟨l, hs⟩ := splitEdge_isSplit h.labelled h.arena he o
      have hkl := (Labelled.take_length_of_getElem? ha).1
      have hol := lcpLen_le_right (t.heap.edge e) (ts.drop k)
      rw [List.length_drop] at hol
      have hparent : (t.node e).parent = u := h.labelled.kidParent hu hkid
      refine ⟨_, _, hs.counted h he hr hpos hlt, Or.inr he, by omega, ?_,
        hs.compressedBut (hcomp.but e) (hcomp e he hr), ?_, ?_⟩
      · rw [if_neg (hs.ne_new he), if_pos rfl, hparent, hp, List.take_add]
        exact congrArg _ (take_lcpLen (t.heap.edge e) (ts.drop k))
      · -- the lower half starts where the edge and the tokens first differ
        intro b hb
        rw [hs.kid_at hlt, if_neg]
        rintro rfl
        have hbig : o + 1 ≤ lcpLen (t.heap.edge e) (ts.drop k) := by
          have hk1 := (Labelled.take_length_of_getElem? hb).1
          refine le_lcpLen_iff.mpr ⟨hlt, by rw [List.length_drop]; omega, ?_⟩
          rw [List.take_succ_eq_append_getElem (by simpa using hlt),
            List.take_succ_eq_append_getElem (by rw [List.length_drop]; omega)]
          congr 1
          · exact take_lcpLen _ _
          · rw [List.getElem_drop]
            rw [List.getElem?_eq_getElem hk1, Option.some.injEq] at hb
            rw [hb, List.getD_eq_getElem _ _ hlt]
            rfl
        omega
      · intro _
        refine Or.inr ?_
        rw [hs.nodeAt]
        exact List.cons_ne_nil _ _

/--
**Insertion adds exactly its request.**  From a compressed, counted tree it gives a
compressed tree counted for one request more.
-/
theorem insert_counted (h : Counted t live rp E) (hcomp : Compressed t live) {rid : Rid}
    (hfresh : ∀ ts, (⟨rid, ts⟩ : (_ : Rid) × List Token) ∉ E) (ts : List Token) :
    ∃ live' rp', Counted (t.insert rid ts) live' rp' (⟨rid, ts⟩ :: E) ∧
      Compressed (t.insert rid ts) live' := by
  obtain ⟨live1, rp1, h1, hn, hk, hp, hbut, hfree, hkids⟩ := splitAt_counted h hcomp ts
  set d := t.descend ts with hd
  by_cases hend : d.consumed = ts.length
  · have hpath : rp1 d.endNode = ts := by rw [hp, hend, List.take_length]
    have hlen : (rp1 d.endNode).length ≤ ts.length := by rw [hpath]
    have hins : t.insert rid ts = climb (fun x => { x with pendingCount := x.pendingCount + 1 })
        ts.length d.endNode ((t.splitAt d).nodeMut d.endNode fun x =>
          { x with terminators := x.terminators.insert rid }) := by
      simp only [insert, ← hd, if_pos hend]
    rw [hins]
    refine ⟨live1, rp1, ?_, terminate_compressed h1.labelled h1.arena hn hbut rid hlen⟩
    have := terminate_counted h1 hn hfresh hlen
    rwa [hpath] at this
  · have hlt : d.consumed < ts.length := by omega
    have htail : ts.drop d.consumed = ts[d.consumed] :: ts.drop (d.consumed + 1) :=
      List.drop_eq_getElem_cons hlt
    have hnone := hfree _ (List.getElem?_eq_getElem hlt)
    have hs := addChild_isChild h1.arena hn (ts.drop d.consumed)
    set leaf := ((t.splitAt d).addChild d.endNode (ts.drop d.consumed)).2 with hleaf
    rw [htail] at hs
    have h2 := hs.counted h1 hn hnone
    have hbut2 := hs.compressedBut hbut hnone hkids
    have hpath : rp1 d.endNode ++ ts[d.consumed] :: ts.drop (d.consumed + 1) = ts := by
      rw [hp, ← htail, List.take_append_drop]
    rw [hpath] at h2
    rw [← htail] at h2 hbut2
    have hlen : (if leaf = leaf then ts else rp1 leaf).length ≤ ts.length := by rw [if_pos rfl]
    have hins : t.insert rid ts = climb (fun x => { x with pendingCount := x.pendingCount + 1 })
        ts.length leaf (((t.splitAt d).addChild d.endNode (ts.drop d.consumed)).1.nodeMut leaf
          fun x => { x with terminators := x.terminators.insert rid }) := by
      simp only [insert, ← hd, if_neg hend, hleaf]
    rw [hins]
    refine ⟨_, fun m => if m = leaf then ts else rp1 m, ?_,
      terminate_compressed h2.labelled h2.arena (Or.inl rfl) hbut2 rid hlen⟩
    have := terminate_counted h2 (Or.inl rfl) hfresh hlen
    rwa [if_pos rfl] at this

end Tree

end Peek
