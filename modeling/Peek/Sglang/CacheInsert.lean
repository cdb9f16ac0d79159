/-
What inserting does to the cache.

The walk of an insertion is a match walk that goes on after its split, finds nothing
more, and hangs what is left of the key as a new leaf.  Afterwards the cache holds what
it held before and every prefix of the key, and nothing else.
-/
import Peek.Sglang.CacheMatch

namespace Peek

open Radix

namespace RadixCache

variable {c c' : RadixCache} {live : Set NodeId} {rp : NodeId → List ChildKey}
  {pv : NodeId → List Index}

/-! ### Leaf status -/

@[simp] theorem node_updateLeafStatus (c : RadixCache) (n m : NodeId) :
    (c.updateLeafStatus n).node m = c.node m := by
  unfold updateLeafStatus
  split
  · rfl
  · split <;> rfl

@[simp] theorem pageSize_updateLeafStatus (c : RadixCache) (n : NodeId) :
    (c.updateLeafStatus n).pageSize = c.pageSize := by
  unfold updateLeafStatus
  split
  · rfl
  · split <;> rfl

@[simp] theorem disable_updateLeafStatus (c : RadixCache) (n : NodeId) :
    (c.updateLeafStatus n).disable = c.disable := by
  unfold updateLeafStatus
  split
  · rfl
  · split <;> rfl

@[simp] theorem size_updateLeafStatus (c : RadixCache) (n : NodeId) :
    (c.updateLeafStatus n).nodes.size = c.nodes.size := by
  unfold updateLeafStatus
  split
  · rfl
  · split <;> rfl

theorem later_updateLeafStatus (c : RadixCache) (n : NodeId) : Later c (c.updateLeafStatus n) :=
  ⟨(size_updateLeafStatus c n).ge, pageSize_updateLeafStatus c n, disable_updateLeafStatus c n⟩

theorem heap_updateLeafStatus (c : RadixCache) (n : NodeId) :
    (c.updateLeafStatus n).heap = c.heap := by
  simp only [heap, node_updateLeafStatus, pageSize_updateLeafStatus]

/-- Only a childless unlocked node is put on the list. -/
theorem mem_leaves_updateLeafStatus {n m : NodeId} (h : c.evictableLeaves.Nodup)
    (hm : m ∈ (c.updateLeafStatus n).evictableLeaves) :
    (m ∈ c.evictableLeaves ∧ m ≠ n) ∨
      (m = n ∧ (c.node n).lockRef ≤ 0 ∧ (c.node n).children.entries = []) := by
  unfold updateLeafStatus at hm
  by_cases hl : (c.node n).lockRef > 0
  · rw [if_pos hl] at hm
    exact Or.inl ((h.mem_erase_iff.mp hm).symm)
  · rw [if_neg hl] at hm
    by_cases hk : (c.node n).children.entries ≠ []
    · rw [if_pos hk] at hm
      exact Or.inl ((h.mem_erase_iff.mp hm).symm)
    · rw [if_neg hk] at hm
      rw [not_not] at hk
      by_cases hmn : m = n
      · exact Or.inr ⟨hmn, by omega, hk⟩
      · exact Or.inl ⟨(List.mem_insert_iff.mp hm).resolve_left hmn, hmn⟩

theorem nodup_leaves_updateLeafStatus (h : c.evictableLeaves.Nodup) (n : NodeId) :
    (c.updateLeafStatus n).evictableLeaves.Nodup := by
  unfold updateLeafStatus
  split
  · exact h.erase _
  · split
    · exact h.erase _
    · exact h.insert

/-- Correcting the status of one node makes up for what was wrong about that node. -/
theorem updateLeafStatus_wf {n : NodeId} (hn : n ∈ live) (ps : 0 < c.pageSize)
    (lab : Labelled c.heap live rp) (bound : ∀ m ∈ live, m < c.nodes.size)
    (rootValue : pv rootNode = [])
    (kidValue : ∀ {m a k}, m ∈ live → c.heap.kid m a = some k → pv k = pv m ++ (c.node k).value)
    (valueLength : ∀ m ∈ live, (c.node m).value.length = (c.node m).key.length)
    (rootLock : 0 < (c.node rootNode).lockRef)
    (leaves : ∀ m ∈ c.evictableLeaves, m ≠ n →
      m ∈ live ∧ m ≠ rootNode ∧ (c.node m).children.entries = [])
    (nodup : c.evictableLeaves.Nodup) : WF (c.updateLeafStatus n) live rp pv where
  pageSize_pos := by rw [pageSize_updateLeafStatus]; exact ps
  labelled := by rw [heap_updateLeafStatus]; exact lab
  bound m hm := by rw [size_updateLeafStatus]; exact bound m hm
  rootValue := rootValue
  kidValue hm hk := by
    rw [heap_updateLeafStatus] at hk
    rw [node_updateLeafStatus]
    exact kidValue hm hk
  valueLength m hm := by rw [node_updateLeafStatus]; exact valueLength m hm
  rootLock := by rw [node_updateLeafStatus]; exact rootLock
  leaves m hm := by
    rw [node_updateLeafStatus]
    rcases mem_leaves_updateLeafStatus nodup hm with ⟨hm, hmn⟩ | ⟨hmn, hlock, hk⟩
    · exact leaves m hm hmn
    · subst hmn
      refine ⟨hn, ?_, hk⟩
      intro hr
      rw [hr] at hlock
      omega
  leavesNodup := nodup_leaves_updateLeafStatus nodup n

theorem WF.updateLeafStatus (h : WF c live rp pv) {n : NodeId} (hn : n ∈ live) :
    WF (c.updateLeafStatus n) live rp pv :=
  updateLeafStatus_wf hn h.pageSize_pos h.labelled h.bound h.rootValue h.kidValue h.valueLength
    h.rootLock (fun m hm _ => h.leaves m hm) h.leavesNodup

/-! ### The insertion walk -/

/-- Where an insertion's walk stands: it has consumed the first `k` symbols. -/
structure Walked (c : RadixCache) (live : Set NodeId) (rp : NodeId → List ChildKey)
    (S : List ChildKey) (k : Nat) (w : InsertWalk) : Prop where
  live : w.node ∈ live
  le : k ≤ S.length
  path : rp w.node = S.take k
  rest : w.key.symbols c.pageSize = S.drop k
  valueLength : w.value.length = w.key.length

theorem Walked.walkAt {S : List ChildKey} {k : Nat} {w : InsertWalk} (hw : Walked c live rp S k w) :
    WalkAt c live rp S k w.node w.key :=
  ⟨hw.le, hw.live, hw.path, hw.rest⟩

/-- What is left of the value goes along with what is left of the key. -/
theorem WalkAt.walked {S : List ChildKey} {k : Nat} {w : InsertWalk} {n : NodeId} {len : Nat}
    (hw : WalkAt c live rp S k n (w.key.drop len)) (hvalue : w.value.length = w.key.length)
    (total : Nat) : Walked c live rp S k ⟨n, w.key.drop len, w.value.drop len, total⟩ where
  live := hw.live
  le := hw.le
  path := hw.path
  rest := hw.rest
  valueLength := by
    simp only [RadixKey.length] at hvalue
    simp only [RadixKey.length, RadixKey.tokenIds_drop, List.length_drop, hvalue]

/-- The insertion walk stops where the tree holds no more of the key. -/
theorem insertLoop_walked (priority : Int) (t : Nat) (S : List ChildKey) :
    ∀ (fuel : Nat) (c : RadixCache) (live : Set NodeId) (rp : NodeId → List ChildKey)
      (pv : NodeId → List Index) (w : InsertWalk) (k : Nat),
      WF c live rp pv → Walked c live rp S k w → S.length ≤ k + fuel →
      ∃ live' rp' pv' k', SplitOnly c (insertLoop priority t fuel c w).1 live rp pv live' rp' pv' ∧
        Walked (insertLoop priority t fuel c w).1 live' rp' S k'
          (insertLoop priority t fuel c w).2 ∧
        ∀ a, S[k']? = some a → (insertLoop priority t fuel c w).1.heap.kid
          (insertLoop priority t fuel c w).2.node a = none := by
  intro fuel
  induction fuel with
  | zero =>
      intro c live rp pv w k h hw hlen
      exact ⟨live, rp, pv, k, SplitOnly.refl h, hw, hw.walkAt.over_whole hlen⟩
  | succ fuel ih =>
      intro c live rp pv w k h hw hlen
      have hps := h.pageSize_pos
      have hwalk := hw.walkAt
      unfold insertLoop
      by_cases hpos : w.key.length > 0
      · rw [if_pos hpos]
        cases hkid : (c.node w.node).children.lookup (getChildKey w.key c.pageSize) with
        | none => exact ⟨live, rp, pv, k, SplitOnly.refl h, hw, hwalk.over_none hps hpos hkid⟩
        | some ch =>
            have hkid : c.heap.kid w.node (getChildKey w.key c.pageSize) = some ch := hkid
            have hsame := sameTree_nodeMut c ch (bookkeeping_accessTime t)
            simp only
            set c1 := c.nodeMut ch fun n => { n with lastAccessTime := t } with hc1
            rw [hwalk.keyMatch_eq h hkid hsame, hsame.key]
            obtain ⟨hlpos, hle⟩ := hwalk.advance h hpos hkid
            set l := lcpLen (c.heap.edge ch) (S.drop k) with hl
            by_cases hcut : c.pageSize * l < (c.node ch).key.length
            · rw [if_pos hcut]
              obtain ⟨hlt, -⟩ := hwalk.stopped_cut hps hpos hkid hcut
              obtain ⟨live1, rp1, pv1, hgrow, hfound⟩ := splitNode_found h
                ⟨hw.live, hw.path, rfl⟩ (hwalk.head hps hpos) hkid hl hlt hsame rfl
              set c2 := (c1.splitNode ch (c.pageSize * l)).1 with hc2
              set u := (c1.splitNode ch (c.pageSize * l)).2 with hu
              have hgrow := hgrow.sameTree (sameTree_nodeMut c2 u (bookkeeping_priority priority)) rfl
              have hnext : WalkAt (c2.nodeMut u fun n => { n with priority := max n.priority priority })
                  live1 rp1 S (k + l) u (w.key.drop (c.pageSize * l)) :=
                ⟨hle, hfound.live, hfound.path, by
                  rw [hgrow.pageSize, RadixKey.symbols_drop hps, hw.rest, List.drop_drop]⟩
              obtain ⟨live', rp', pv', k', hout, hwalked, hfree⟩ := ih _ live1 rp1 pv1 _ (k + l)
                hgrow.wf (hnext.walked hw.valueLength (w.totalPrefixLength + c.pageSize * l)) (by omega)
              exact ⟨live', rp', pv', k', hgrow.trans hout, hwalked, hfree⟩
            · rw [if_neg hcut]
              have hsame := hsame.trans (sameTree_nodeMut c1 ch (bookkeeping_priority priority))
              have hgrow := (SplitOnly.refl h).sameTree hsame rfl
              have hnext := (hwalk.next h hpos hkid hcut).sameTree hsame
              obtain ⟨live', rp', pv', k', hout, hwalked, hfree⟩ := ih _ live rp pv _ (k + l)
                hgrow.wf (hnext.walked hw.valueLength (w.totalPrefixLength + c.pageSize * l)) (by omega)
              exact ⟨live', rp', pv', k', hgrow.trans hout, hwalked, hfree⟩
      · rw [if_neg hpos]
        exact ⟨live, rp, pv, k, SplitOnly.refl h, hw, hwalk.over_end hps hpos⟩

/-- The walk of an insertion, from the root. -/
theorem insertLoop_root_walked (h : WF c live rp pv) (key : RadixKey) {value : List Index}
    (hvalue : value.length = key.length) (priority : Int) (t : Nat) :
    ∃ live' rp' pv' k,
      SplitOnly c (insertLoop priority t (key.length + 1) c ⟨rootNode, key, value, 0⟩).1 live rp pv
        live' rp' pv' ∧
      Walked (insertLoop priority t (key.length + 1) c ⟨rootNode, key, value, 0⟩).1 live' rp'
        (key.symbols c.pageSize) k
        (insertLoop priority t (key.length + 1) c ⟨rootNode, key, value, 0⟩).2 ∧
      ∀ a, (key.symbols c.pageSize)[k]? = some a →
        (insertLoop priority t (key.length + 1) c ⟨rootNode, key, value, 0⟩).1.heap.kid
          (insertLoop priority t (key.length + 1) c ⟨rootNode, key, value, 0⟩).2.node a = none := by
  have hlen := RadixKey.length_symbols_le h.pageSize_pos key
  refine insertLoop_walked priority t _ (key.length + 1) c live rp pv ⟨rootNode, key, value, 0⟩ 0 h
    ⟨h.labelled.rootLive, Nat.zero_le _, h.labelled.rootPath, ?_, hvalue⟩ (by omega)
  rw [List.drop_zero]

/-! ### The new leaf -/

/-- What hanging the leaf writes: the fresh node, and its parent's child entry. -/
structure IsLinked (c c' : RadixCache) (live : Set NodeId) (w : InsertWalk) : Prop where
  pageSize : c'.pageSize = c.pageSize
  disable : c'.disable = c.disable
  size : c'.nodes.size = c.nodes.size + 1
  leaves : c'.evictableLeaves = c.evictableLeaves
  newKey : (c'.node c.nodes.size).key = w.key
  newValue : (c'.node c.nodes.size).value = w.value
  newParent : (c'.node c.nodes.size).parent = w.node
  newChildren : (c'.node c.nodes.size).children = ∅
  nodeAt : c'.node w.node =
    { c.node w.node with
      children := (c.node w.node).children.insert (getChildKey w.key c.pageSize) c.nodes.size }
  nodeOld : ∀ m ∈ live, m ≠ w.node → c'.node m = c.node m

/-- The object for what is left of the key. -/
def newLeaf (c : RadixCache) (w : InsertWalk) (priority : Int) : TreeNode :=
  { TreeNode.new c.clock priority with
    parent := w.node
    key := w.key
    value := w.value
    depth := (c.node w.node).depth + w.key.length }

/-- The node the walk ended at, with the new child. -/
def withLeaf (c : RadixCache) (w : InsertWalk) (n : TreeNode) : TreeNode :=
  { n with children := n.children.insert (getChildKey w.key c.pageSize) c.nodes.size }

theorem node_linkLeaf (c : RadixCache) (w : InsertWalk) (priority : Int) (n : NodeId) :
    (c.linkLeaf w priority).node n =
      ((c.pushNode (c.newLeaf w priority)).nodeMut w.node (c.withLeaf w)).node n := rfl

theorem linkLeaf_isLinked (h : WF c live rp pv) {w : InsertWalk} (hw : w.node ∈ live)
    (priority : Int) : IsLinked c (c.linkLeaf w priority) live w := by
  have hlt := h.bound _ hw
  have hne : c.nodes.size ≠ w.node := Ne.symm (Nat.ne_of_lt hlt)
  have hsize := size_pushNode c (c.newLeaf w priority)
  obtain ⟨hnew, hold⟩ := node_pushNode c (c.newLeaf w priority)
  have hfresh : (c.linkLeaf w priority).node c.nodes.size = c.newLeaf w priority := by
    rw [node_linkLeaf, node_nodeMut_ne _ _ hne, hnew]
  refine ⟨rfl, rfl, (size_nodeMut _ w.node (c.withLeaf w)).trans hsize, rfl,
    congrArg (·.key) hfresh, congrArg (·.value) hfresh, congrArg (·.parent) hfresh,
    congrArg (·.children) hfresh, ?_, ?_⟩
  · rw [node_linkLeaf, node_nodeMut_self _ _ (hsize ▸ Nat.lt_succ_of_lt hlt), hold _ hlt]
    rfl
  · intro m hm hmw
    rw [node_linkLeaf, node_nodeMut_ne _ _ hmw, hold _ (h.bound m hm)]

/-- The fields every old node keeps. -/
theorem IsLinked.old_fields {w : InsertWalk} (hs : IsLinked c c' live w) {m : NodeId}
    (hm : m ∈ live) : (c'.node m).key = (c.node m).key ∧ (c'.node m).value = (c.node m).value ∧
      (c'.node m).parent = (c.node m).parent ∧ (c'.node m).lockRef = (c.node m).lockRef := by
  by_cases hmw : m = w.node
  · rw [hmw, hs.nodeAt]; exact ⟨rfl, rfl, rfl, rfl⟩
  · rw [hs.nodeOld m hm hmw]; exact ⟨rfl, rfl, rfl, rfl⟩

/-- **A new leaf keeps the cache well formed**, and adds the prefixes of its path. -/
theorem addLeaf_wf (h : WF c live rp pv) {S : List ChildKey} {k : Nat} {w : InsertWalk}
    (hw : Walked c live rp S k w) (hpos : w.key.length > 0)
    (hfree : ∀ a, S[k]? = some a → c.heap.kid w.node a = none) (priority : Int) :
    ∃ rp' pv', WF (c.addLeaf w priority) (Insert.insert c.nodes.size live) rp' pv' ∧
      (∀ n ∈ live, rp' n = rp n ∧ pv' n = pv n) ∧ rp' c.nodes.size = S := by
  have hps := h.pageSize_pos
  have hwl := hw.live
  have hroot : rootNode ∈ live := h.labelled.rootLive
  have hne : w.key.tokenIds ≠ [] := List.ne_nil_of_length_pos hpos
  have hhead := RadixKey.head_symbols hps hne
  rw [hw.rest, List.head?_drop] at hhead
  have hdrop := (Labelled.take_length_of_getElem? hhead).2
  have hfresh : c.nodes.size ∉ live := fun hl => Nat.lt_irrefl _ (h.bound _ hl)
  have hnew : ∀ m ∈ live, m ≠ c.nodes.size := fun m hm heq => hfresh (heq ▸ hm)
  have hs := linkLeaf_isLinked h hwl priority
  set c1 := c.linkLeaf w priority with hc1
  have hlab : Labelled c1.heap (Insert.insert c.nodes.size live) fun m =>
      if m = c.nodes.size then rp w.node ++ getChildKey w.key c.pageSize :: S.drop (k + 1)
      else rp m := by
    refine h.labelled.graft hwl hfresh (hfree _ hhead) rfl ?_ ?_ ?_ ?_ ?_ ?_ ?_
    · rw [heap_edge, hs.newKey, hs.pageSize, hw.rest, hdrop]
    · intro m hm; rw [heap_edge, (hs.old_fields hm).1, hs.pageSize]; rfl
    · rw [heap_parent, hs.newParent]
    · intro m hm; rw [heap_parent, (hs.old_fields hm).2.2.1]; rfl
    · intro x; rw [heap_kid, hs.newChildren]; rfl
    · intro x; rw [heap_kid, hs.nodeAt, Map.lookup_insert_of]; rfl
    · intro m hm hmw x; rw [heap_kid, hs.nodeOld m hm hmw]; rfl
  have hwf : WF (c1.updateLeafStatus w.node) (Insert.insert c.nodes.size live)
      (fun m => if m = c.nodes.size then rp w.node ++ getChildKey w.key c.pageSize :: S.drop (k + 1)
        else rp m)
      (fun m => if m = c.nodes.size then pv w.node ++ w.value else pv m) := by
    refine updateLeafStatus_wf (Or.inr hwl) (by rw [hs.pageSize]; exact hps) hlab ?_ ?_ ?_ ?_ ?_ ?_
      (by rw [hs.leaves]; exact h.leavesNodup)
    · rintro n (rfl | hn)
      · rw [hs.size]; exact Nat.lt_succ_self _
      · rw [hs.size]; exact Nat.lt_succ_of_lt (h.bound n hn)
    · rw [if_neg (hnew _ hroot)]; exact h.rootValue
    · intro n a m hn hk
      have hml := hlab.kidLive hn hk
      have hpar := hlab.kidParent hn hk
      rw [heap_parent] at hpar
      rcases hml with rfl | hml
      · rw [hs.newParent] at hpar
        rw [if_pos rfl, ← hpar, if_neg (hnew _ hwl), hs.newValue]
      · have hmr := hlab.kid_ne_root hn hk
        obtain ⟨b, -, hpl, hkid⟩ := h.labelled.up hml hmr
        have hpar' : (c.node m).parent = n := by rw [← (hs.old_fields hml).2.2.1]; exact hpar
        rw [heap_parent, hpar'] at hkid hpl
        rw [if_neg (hnew m hml), if_neg (hnew n hpl), (hs.old_fields hml).2.1]
        exact h.kidValue hpl hkid
    · rintro n (rfl | hn)
      · rw [hs.newValue, hs.newKey]; exact hw.valueLength
      · rw [(hs.old_fields hn).2.1, (hs.old_fields hn).1]; exact h.valueLength n hn
    · rw [(hs.old_fields hroot).2.2.2]; exact h.rootLock
    · intro m hm hmw
      rw [hs.leaves] at hm
      obtain ⟨hl, hr, hk⟩ := h.leaves m hm
      exact ⟨Or.inr hl, hr, by rw [hs.nodeOld m hl hmw]; exact hk⟩
  refine ⟨_, _, hwf.updateLeafStatus (Or.inl rfl),
    fun n hn => ⟨if_neg (hnew n hn), if_neg (hnew n hn)⟩, ?_⟩
  rw [if_pos rfl, hw.path, ← hdrop, List.take_append_drop]

/-! ### The whole insertion -/

/--
**Inserting a key adds its prefixes and nothing else**, and every old node stays where
it was.
-/
theorem insertHelper_held (h : WF c live rp pv) (key : RadixKey) (value : List Index)
    (hvalue : value.length = key.length) (priority : Int) :
    ∃ live' rp' pv', WF (c.insertHelper key value priority).2 live' rp' pv' ∧ live ⊆ live' ∧
      (∀ n ∈ live, rp' n = rp n ∧ pv' n = pv n) ∧
      (c.insertHelper key value priority).2.pageSize = c.pageSize ∧
      (c.insertHelper key value priority).2.disable = c.disable ∧
      ∀ q, Held live' rp' q ↔ Held live rp q ∨ q <+: key.symbols c.pageSize := by
  have hps := h.pageSize_pos
  unfold insertHelper
  set c1 := (c.tick 1).nodeMut rootNode fun n =>
    { n with lastAccessTime := c.clock, priority := max n.priority priority } with hc1
  have hsame : SameTree c c1 :=
    (sameTree_tick c 1).trans (sameTree_nodeMut (c.tick 1) rootNode
      ((bookkeeping_accessTime c.clock).comp (bookkeeping_priority priority)))
  have h1 := h.sameTree hsame
  have hnil : ∀ q : List ChildKey, q <+: [] → Held live rp q := by
    intro q hq
    rw [List.prefix_nil.mp hq]
    exact ⟨rootNode, h.labelled.rootLive, List.nil_prefix⟩
  by_cases hempty : key.length = 0
  · have hS : key.symbols c.pageSize = [] :=
      (RadixKey.symbols_eq_nil_iff hps).mpr (List.length_eq_zero_iff.mp hempty)
    simp only [if_pos hempty]
    refine ⟨live, rp, pv, h1, fun _ hn => hn, fun _ _ => ⟨rfl, rfl⟩, rfl, rfl, fun q => ?_⟩
    rw [hS]
    exact ⟨Or.inl, fun hq => hq.elim id (hnil q)⟩
  · simp only [if_neg hempty]
    obtain ⟨live1, rp1, pv1, k, hgrow, hwalk, hfree⟩ :=
      insertLoop_root_walked h1 key hvalue priority c.clock
    rw [hsame.pageSize] at hwalk hfree
    set S := key.symbols c.pageSize with hS
    have hgrow := ((SplitOnly.refl h).sameTree hsame rfl).trans hgrow
    set c2 := (insertLoop priority c.clock (key.length + 1) c1 ⟨rootNode, key, value, 0⟩).1
    set w := (insertLoop priority c.clock (key.length + 1) c1 ⟨rootNode, key, value, 0⟩).2
    by_cases hpos : w.key.length > 0
    · simp only [if_pos hpos]
      obtain ⟨rp', pv', hwf, hagree, hleaf⟩ := addLeaf_wf hgrow.wf hwalk hpos hfree priority
      refine ⟨_, rp', pv', hwf, fun n hn => Or.inr (hgrow.sub hn), fun n hn => ?_, ?_, ?_,
        fun q => ?_⟩
      · obtain ⟨hr, hv⟩ := hagree n (hgrow.sub hn)
        exact ⟨hr.trans (hgrow.path n hn), hv.trans (hgrow.value n hn)⟩
      · rw [← hgrow.pageSize, addLeaf, pageSize_updateLeafStatus, pageSize_updateLeafStatus]; rfl
      · rw [← hgrow.disable, addLeaf, disable_updateLeafStatus, disable_updateLeafStatus]; rfl
      · rw [← hgrow.held]
        constructor
        · rintro ⟨n, rfl | hn, hq⟩
          · rw [hleaf] at hq; exact Or.inr hq
          · rw [(hagree n hn).1] at hq; exact Or.inl ⟨n, hn, hq⟩
        · rintro (⟨n, hn, hq⟩ | hq)
          · exact ⟨n, Or.inr hn, by rw [(hagree n hn).1]; exact hq⟩
          · exact ⟨c2.nodes.size, Or.inl rfl, by rw [hleaf]; exact hq⟩
    · simp only [if_neg hpos]
      have hdone : S.drop k = [] := by
        rw [← hwalk.rest]
        exact (RadixKey.symbols_eq_nil_iff hgrow.wf.pageSize_pos).mpr
          (List.length_eq_zero_iff.mp (Nat.eq_zero_of_not_pos hpos))
      have hfull : rp1 w.node = S := by
        rw [hwalk.path, List.take_of_length_le (List.drop_eq_nil_iff.mp hdone)]
      refine ⟨live1, rp1, pv1, hgrow.wf, hgrow.sub, fun n hn => ⟨hgrow.path n hn, hgrow.value n hn⟩,
        hgrow.pageSize, hgrow.disable, fun q => ?_⟩
      rw [← hgrow.held]
      refine ⟨Or.inl, fun hq => hq.elim id fun hq => ⟨w.node, hwalk.live, ?_⟩⟩
      rw [hfull]; exact hq

/-! ### Later caches -/

theorem later_splitNode (c : RadixCache) (child : NodeId) (splitLen : Nat) :
    Later c (c.splitNode child splitLen).1 := by
  refine ⟨?_, rfl, rfl⟩
  unfold splitNode
  simp only [size_nodeMut, size_tick, size_push]
  exact Nat.le_succ _

theorem later_insertLoop (priority : Int) (t : Nat) : ∀ (fuel : Nat) (c : RadixCache)
    (w : InsertWalk), Later c (insertLoop priority t fuel c w).1 := by
  intro fuel
  induction fuel with
  | zero => intro c w; exact Later.refl c
  | succ fuel ih =>
      intro c w
      unfold insertLoop
      by_cases hkey : w.key.length > 0
      · rw [if_pos hkey]
        cases (c.node w.node).children.lookup (getChildKey w.key c.pageSize) with
        | none => exact Later.refl c
        | some child =>
            have htouch := later_nodeMut c child fun n => { n with lastAccessTime := t }
            simp only
            split
            · refine Later.trans ?_ (ih _ _)
              refine Later.trans ?_ (later_nodeMut _ _ _)
              exact htouch.trans (later_splitNode _ _ _)
            · refine Later.trans ?_ (ih _ _)
              exact htouch.trans (later_nodeMut _ _ _)
      · rw [if_neg hkey]
        exact Later.refl c

theorem later_addLeaf (c : RadixCache) (w : InsertWalk) (priority : Int) :
    Later c (c.addLeaf w priority) := by
  have hlink : Later c (c.linkLeaf w priority) := by
    refine ⟨?_, rfl, rfl⟩
    unfold linkLeaf
    simp only [size_nodeMut, size_tick, size_push]
    exact Nat.le_succ _
  exact hlink.trans ((later_updateLeafStatus _ _).trans (later_updateLeafStatus _ _))

theorem later_insertHelper (c : RadixCache) (key : RadixKey) (value : List Index)
    (priority : Int) : Later c (c.insertHelper key value priority).2 := by
  unfold insertHelper
  have htick : Later c (c.tick 1) := ⟨Nat.le_refl _, rfl, rfl⟩
  have htouch := htick.trans
    (later_nodeMut (c.tick 1) rootNode fun n =>
      { n with lastAccessTime := c.clock, priority := max n.priority priority })
  have hwalk := htouch.trans
    (later_insertLoop priority c.clock (key.length + 1) _ ⟨rootNode, key, value, 0⟩)
  by_cases hkey : key.length = 0
  · rw [if_pos hkey]; exact htouch
  · rw [if_neg hkey]
    generalize insertLoop priority c.clock (key.length + 1) _ ⟨rootNode, key, value, 0⟩ = p at hwalk ⊢
    by_cases hrest : p.2.key.length > 0
    · simp only [if_pos hrest]
      exact hwalk.trans (later_addLeaf p.1 p.2 priority)
    · simp only [if_neg hrest]
      exact hwalk

theorem later_insert (c : RadixCache) (params : InsertParams) : Later c (c.insert params).2 := by
  unfold insert
  by_cases hd : c.disable = true
  · rw [if_pos hd]; exact Later.refl c
  · rw [if_neg hd]; exact later_insertHelper c _ _ _

end RadixCache

end Peek
