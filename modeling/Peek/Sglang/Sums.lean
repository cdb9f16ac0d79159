/-
Sums over the nodes of the tree, and what the calls do to them.

Three things about the cache are sums over its tree: the indices it holds, the tokens that may
be evicted, and the tokens that locks protect.  Each of them weighs a node by its key, its
indices and its lock count, and weighs the halves of a cut node as much as the node.  So a match
changes no such sum; an insertion adds what its new leaf weighs; an eviction takes its victims'
weights away; and a turn of the lock loops exchanges one weight.

Each call is taken for what it does to the objects: cuts, at most one new leaf, deletions of
free leaves.
-/
import Peek.Base.CellSum
import Peek.Sglang.Cuts

namespace Peek

open Radix

/-- What a node counts for; its key, its indices and its lock count decide it. -/
abbrev Weight (M : Type) := RadixKey → List Index → Int → M

def TreeNode.weigh {M : Type} (w : Weight M) (n : TreeNode) : M := w n.key n.value n.lockRef

/-- The halves of a cut node count for what the node did. -/
def Weight.Divides {M : Type} [AddCommMonoid M] (w : Weight M) : Prop :=
  ∀ key value lock l, value.length = key.length →
    w (key.take l) (value.take l) lock + w (key.drop l) (value.drop l) lock = w key value lock

/-- The indices a node holds. -/
def heldIndices : Weight (Multiset Index) := fun _ value _ => value

/-- The tokens of a node, if it is not locked. -/
def evictableTokens : Weight Nat := fun key _ lock => if 0 < lock then 0 else key.length

/-- The tokens of a node, if it is locked. -/
def protectedTokens : Weight Nat := fun key _ lock => if 0 < lock then key.length else 0

theorem heldIndices_divides : heldIndices.Divides := by
  intro key value lock l _
  unfold heldIndices
  rw [Multiset.coe_add, List.take_append_drop]

theorem evictableTokens_divides : evictableTokens.Divides := by
  intro key value lock l _
  unfold evictableTokens
  by_cases hl : 0 < lock
  · rw [if_pos hl, if_pos hl, if_pos hl]
  · rw [if_neg hl, if_neg hl, if_neg hl, RadixKey.length_take_add_drop]

theorem protectedTokens_divides : protectedTokens.Divides := by
  intro key value lock l _
  unfold protectedTokens
  by_cases hl : 0 < lock
  · rw [if_pos hl, if_pos hl, if_pos hl, RadixKey.length_take_add_drop]
  · rw [if_neg hl, if_neg hl, if_neg hl]

namespace RadixCache

variable {c c' : RadixCache} {live live' : Set NodeId} {rp rp' : NodeId → List ChildKey}
  {pv pv' : NodeId → List Index} {M : Type} [AddCommMonoid M] {w : Weight M}

/-! ### The nodes of the tree -/

open Classical in
/-- The nodes of the tree. -/
noncomputable def tree (c : RadixCache) : Finset NodeId :=
  {n ∈ Finset.range c.nodes.size | c.InTree n}

theorem WF.mem_tree (h : WF c live rp pv) {n : NodeId} : n ∈ c.tree ↔ n ∈ live := by
  classical
  unfold tree
  rw [Finset.mem_filter, Finset.mem_range, h.inTree_iff]
  exact and_iff_right_of_imp (h.bound n)

theorem WF.tree_eq (h : WF c live rp pv) (h' : WF c' live rp' pv') : c'.tree = c.tree := by
  ext n
  rw [h.mem_tree, h'.mem_tree]

theorem WF.tree_insert (h : WF c live rp pv) {u : NodeId}
    (h' : WF c' (Insert.insert u live) rp' pv') : c'.tree = Insert.insert u c.tree := by
  ext n
  rw [h'.mem_tree, Finset.mem_insert, h.mem_tree]
  exact Iff.rfl

theorem WF.tree_erase (h : WF c live rp pv) {n : NodeId} (h' : WF c' (live \ {n}) rp' pv') :
    c'.tree = c.tree.erase n := by
  ext m
  rw [h'.mem_tree, Finset.mem_erase, h.mem_tree, and_comm]
  exact Iff.rfl

/-- What the nodes of the tree count for together. -/
noncomputable def sum (w : Weight M) (c : RadixCache) : M :=
  CellSum.total (TreeNode.weigh w) c.node c.tree

/-- The root's key is empty, and so is its value. -/
theorem WF.root_empty (h : WF c live rp pv) :
    (c.node rootNode).key.tokenIds = [] ∧ (c.node rootNode).value = [] := by
  have hedge : (c.node rootNode).key.symbols c.pageSize = [] := h.labelled.rootEdge
  have hkey := (RadixKey.symbols_eq_nil_iff h.pageSize_pos).mp hedge
  have hlen := h.valueLength rootNode h.labelled.rootLive
  unfold RadixKey.length at hlen
  rw [hkey] at hlen
  exact ⟨hkey, List.length_eq_zero_iff.mp hlen⟩

/-! ### What cuts do to a sum -/

omit [AddCommMonoid M] in
theorem weigh_of_fields (w : Weight M) {n m : TreeNode} (hk : n.key = m.key)
    (hv : n.value = m.value) (hl : n.lockRef = m.lockRef) : n.weigh w = m.weigh w := by
  unfold TreeNode.weigh
  rw [hk, hv, hl]

theorem sum_of_sameTree (h : WF c live rp pv) (hs : SameTree c c')
    (hl : ∀ n, (c'.node n).lockRef = (c.node n).lockRef) : c'.sum w = c.sum w := by
  unfold sum
  rw [h.tree_eq (h.sameTree hs)]
  exact CellSum.total_congr fun n _ => weigh_of_fields w (hs.key n) (hs.value n) (hl n)

/-- The node a split puts in, and the node that was cut, make up the node as it was. -/
theorem sum_splitNode (hw : w.Divides) (h : WF c live rp pv) {ch : NodeId} (hch : ch ∈ live)
    (hr : ch ≠ rootNode) {len : Nat}
    (h' : WF (c.splitNode ch len).1 (Insert.insert c.nodes.size live) rp' pv') :
    (c.splitNode ch len).1.sum w = c.sum w := by
  have hs : IsSplit c (c.splitNode ch len).1 live ch c.nodes.size len :=
    splitNode_isSplit h hch hr len
  have hlock := (splitNode_links c (h.bound ch hch) len).2.2.2.2.1 .lock
  have hlock : ((c.splitNode ch len).1.node c.nodes.size).lockRef = (c.node ch).lockRef := hlock
  unfold sum
  rw [h.tree_insert h']
  refine CellSum.total_split (h.mem_tree.mpr hch) (mt h.mem_tree.mp hs.fresh) ?_ ?_
  · intro m hm hmc
    obtain ⟨hk, hv, -, hl⟩ := hs.old_fields (h.mem_tree.mp hm) hmc
    exact weigh_of_fields w hk hv hl
  · unfold TreeNode.weigh
    rw [hs.newKey, hs.newValue, hlock, hs.nodeAt]
    exact hw _ _ _ len (h.valueLength ch hch)

/-- **A cut changes no sum and no size.** -/
theorem Cut.sum_eq (hw : w.Divides) (hcut : Cut c c') (h : WF c live rp pv) :
    c'.sum w = c.sum w ∧ c'.evictableSize = c.evictableSize ∧
      c'.protectedSize = c.protectedSize := by
  cases hcut with
  | tick k => exact ⟨sum_of_sameTree h (sameTree_tick c k) fun _ => rfl, rfl, rfl⟩
  | touch j hf =>
      exact ⟨sum_of_sameTree h (sameTree_nodeMut c j hf)
        (proj_nodeMut (·.lockRef) c j _ hf.lockRef), rfl, rfl⟩
  | split h0 hch hr hl hlt =>
      rw [h0.live_eq h] at hch
      have hwf := ((splitNode_isSplit h hch hr _).splitOnly h hch hr hl hlt).wf
      exact ⟨sum_splitNode hw h hch hr hwf, rfl, rfl⟩

theorem Cuts.sum_eq (hw : w.Divides) (hcuts : Cuts c c') (h : WF c live rp pv) :
    c'.sum w = c.sum w ∧ c'.evictableSize = c.evictableSize ∧
      c'.protectedSize = c.protectedSize := by
  induction hcuts with
  | refl => exact ⟨rfl, rfl, rfl⟩
  | tail hcuts hcut ih =>
      obtain ⟨live1, rp1, pv1, hgrow⟩ := Cuts.splitOnly hcuts h
      obtain ⟨hsum, hev, hpr⟩ := hcut.sum_eq hw hgrow.wf
      exact ⟨hsum.trans ih.1, hev.trans ih.2.1, hpr.trans ih.2.2⟩

/-! ### What an insertion does to a sum -/

theorem sizes_updateLeafStatus (c : RadixCache) (n : NodeId) :
    (c.updateLeafStatus n).evictableSize = c.evictableSize ∧
      (c.updateLeafStatus n).protectedSize = c.protectedSize := by
  unfold updateLeafStatus
  split
  · exact ⟨rfl, rfl⟩
  · split <;> exact ⟨rfl, rfl⟩

/-- A new leaf is added, unlocked. -/
theorem sum_addLeaf (h : WF c live rp pv) {x : InsertWalk} (hx : x.node ∈ live) (priority : Int)
    (h' : WF (c.addLeaf x priority) (Insert.insert c.nodes.size live) rp' pv') :
    (c.addLeaf x priority).sum w = w x.key x.value 0 + c.sum w := by
  have hs := linkLeaf_isLinked h hx priority
  have hfresh : c.nodes.size ∉ c.tree := fun hmem =>
    Nat.lt_irrefl _ (h.bound _ (h.mem_tree.mp hmem))
  have hnode : ∀ n, (c.addLeaf x priority).node n = (c.linkLeaf x priority).node n := by
    intro n
    unfold addLeaf
    rw [node_updateLeafStatus, node_updateLeafStatus]
  have hlock := (addLeaf_links c x priority).2.2.2.1 .lock
  have hlock : ((c.addLeaf x priority).node c.nodes.size).lockRef = 0 := hlock
  have hold : ∀ m ∈ c.tree, ((c.addLeaf x priority).node m).weigh w = (c.node m).weigh w := by
    intro m hm
    obtain ⟨hk, hv, -, hl⟩ := hs.old_fields (h.mem_tree.mp hm)
    rw [hnode]
    exact weigh_of_fields w hk hv hl
  unfold sum
  rw [h.tree_insert h', CellSum.total_insert hfresh hold]
  unfold TreeNode.weigh
  rw [hlock, hnode, hs.newKey, hs.newValue]

theorem sizes_addLeaf (c : RadixCache) (x : InsertWalk) (priority : Int) :
    (c.addLeaf x priority).evictableSize = c.evictableSize + x.key.length ∧
      (c.addLeaf x priority).protectedSize = c.protectedSize := by
  unfold addLeaf
  obtain ⟨he, hp⟩ := sizes_updateLeafStatus ((c.linkLeaf x priority).updateLeafStatus x.node)
    c.nodes.size
  obtain ⟨he', hp'⟩ := sizes_updateLeafStatus (c.linkLeaf x priority) x.node
  exact ⟨he.trans he', hp.trans hp'⟩

/-- **An insertion adds what is new of the key**, unlocked. -/
theorem insert_sum (hw : w.Divides) (h : WF c live rp pv) (hd : c.disable = false)
    (params : InsertParams) :
    (c.insert params).2.sum w = (if (c.insert params).1 < params.key.length then
        w (params.key.drop (c.insert params).1) (params.indices.drop (c.insert params).1) 0
      else 0) + c.sum w ∧
    (c.insert params).2.evictableSize =
      c.evictableSize + ((params.key.length - (c.insert params).1 : Nat) : Int) ∧
    (c.insert params).2.protectedSize = c.protectedSize := by
  obtain ⟨c1, x, live1, rp1, pv1, k, hcuts, hgrow, hwalk, hk, hv, hfree, -, hout, hend⟩ :=
    insert_cases h hd params
  obtain ⟨hsum, hev, hpr⟩ := Cuts.sum_eq hw hcuts h
  have hlen : x.key.length = params.key.length - x.totalPrefixLength := by
    rw [hk, RadixKey.length_drop]
  rw [hout, hend]
  by_cases hpos : x.key.length > 0
  · rw [if_pos hpos, if_pos (by omega)]
    rw [← hgrow.pageSize] at hwalk hfree
    obtain ⟨rp', pv', hwf, -⟩ := addLeaf_wf hgrow.wf hwalk hpos hfree params.priority
    obtain ⟨hadd, hprot⟩ := sizes_addLeaf c1 x params.priority
    exact ⟨by rw [sum_addLeaf hgrow.wf hwalk.live _ hwf, hsum, hk, hv],
      by rw [hadd, hev, hlen], hprot.trans hpr⟩
  · rw [if_neg hpos, if_neg (by omega)]
    exact ⟨by rw [zero_add, hsum], by rw [hev, ← hlen]; omega, hpr⟩

/-! ### What a deletion does to a sum -/

theorem sum_deleteLeaf (h : WF c live rp pv) {n : NodeId} (hn : n ∈ live)
    (h' : WF (c.deleteLeaf n) (live \ {n}) rp' pv') :
    (c.node n).weigh w + (c.deleteLeaf n).sum w = c.sum w := by
  unfold sum
  rw [h.tree_erase h']
  refine CellSum.total_erase (h.mem_tree.mpr hn) fun m _ _ => ?_
  exact proj_deleteLeaf (·.weigh w) (fun _ _ => rfl) c n m

theorem sizes_deleteLeaf (c : RadixCache) (n : NodeId) :
    (c.deleteLeaf n).evictableSize = c.evictableSize - (c.node n).key.length ∧
      (c.deleteLeaf n).protectedSize = c.protectedSize := by
  unfold deleteLeaf
  refine ⟨?_, (sizes_updateLeafStatus _ _).2⟩
  rw [(sizes_updateLeafStatus _ _).1]
  have hkey := proj_nodeMut (·.key) c (c.node n).parent (fun p =>
    { p with children := p.children.erase (getChildKey (c.node n).key c.pageSize) })
    (fun _ => rfl) n
  exact congrArg (fun key : RadixKey => c.evictableSize - (key.length : Int)) hkey

/-! ### Evictions -/

/-- What the eviction heap may hold: leaves of the tree, each once, and none of them locked. -/
structure HeapFree {P : Type} (c : RadixCache) (live : Set NodeId) (heap : List (P × NodeId)) :
    Prop extends HeapOk c live heap where
  free : ∀ x ∈ heap, (c.node x.2).lockRef ≤ 0

theorem HeapFree.next {P : Type} {x : P × NodeId} {rest : List (P × NodeId)} (h : WF c live rp pv)
    (hheap : HeapFree c live (x :: rest)) (pr : P) :
    HeapFree (c.deleteLeaf x.2) (live \ {x.2})
      (if ((c.deleteLeaf x.2).node ((c.deleteLeaf x.2).node x.2).parent).children.entries = [] ∧
          ((c.deleteLeaf x.2).node ((c.deleteLeaf x.2).node x.2).parent).lockRef = 0 then
        (pr, ((c.deleteLeaf x.2).node x.2).parent) :: rest
      else rest) := by
  have hold : ∀ y ∈ rest, ((c.deleteLeaf x.2).node y.2).lockRef ≤ 0 := by
    intro y hy
    rw [proj_deleteLeaf (·.lockRef) fun _ _ => rfl]
    exact hheap.free y (List.mem_cons_of_mem _ hy)
  refine ⟨hheap.toHeapOk.next h pr, fun y hy => ?_⟩
  split at hy
  · rename_i hleaf
    rcases List.mem_cons.mp hy with rfl | hy
    · exact Int.le_of_eq hleaf.2
    · exact hold y hy
  · exact hold y hy

section

variable {Q : RadixCache → Set NodeId → List Index → Prop}
  (hstep : ∀ c live freed x, WF c live rp pv → LeavesExact c live → x ∈ live → x ≠ rootNode →
    (c.node x).children.entries = [] → (c.node x).lockRef ≤ 0 → Q c live freed →
    Q (c.deleteLeaf x) (live \ {x}) (freed ++ (c.node x).value))
include hstep

/-- **What the deletion of one free leaf keeps, an eviction keeps.** -/
theorem evictLoop_rule (e : EvictionHeap) (numTokens : Nat) :
    ∀ (fuel : Nat) (c : RadixCache) (live : Set NodeId) (heap : List (e.Priority × NodeId))
      (freed : List Index), WF c live rp pv → LeavesExact c live → HeapFree c live heap →
      Q c live freed → ∃ live' ⊆ live, WF (evictLoop e numTokens fuel c heap freed).2 live' rp pv ∧
        LeavesExact (evictLoop e numTokens fuel c heap freed).2 live' ∧
        Q (evictLoop e numTokens fuel c heap freed).2 live'
          (evictLoop e numTokens fuel c heap freed).1 := by
  intro fuel
  induction fuel with
  | zero => intro c live heap freed h hl _ hq; exact ⟨live, fun _ hn => hn, h, hl, hq⟩
  | succ fuel ih =>
      intro c live heap freed h hl hheap hq
      unfold evictLoop
      by_cases hlt : freed.length < numTokens
      · rw [if_pos hlt]
        cases hpop : e.heappop c heap with
        | none => exact ⟨live, fun _ hn => hn, h, hl, hq⟩
        | some xr =>
            obtain ⟨x, rest⟩ := xr
            have hperm := e.pop_perm c heap x rest hpop
            have hheap : HeapFree c live (x :: rest) :=
              ⟨hheap.toHeapOk.perm hperm, fun y hy => hheap.free y (hperm.mem_iff.mpr hy)⟩
            obtain ⟨hx, hxr, hxk⟩ := hheap.leaf x List.mem_cons_self
            have hfree := hheap.free x List.mem_cons_self
            obtain ⟨live', hsub, hout⟩ := ih _ _ _ (freed ++ (c.node x.2).value)
              (deleteLeaf_wf h hx hxr hxk) ((keeps_deleteLeaf h hx hxr).leaves hl)
              (hheap.next h _) (hstep c live freed x.2 h hl hx hxr hxk hfree hq)
            exact ⟨live', hsub.trans Set.sdiff_subset, hout⟩
      · rw [if_neg hlt]
        exact ⟨live, fun _ hn => hn, h, hl, hq⟩

theorem evict_rule (h : WF c live rp pv) (hl : LeavesExact c live) (hq : Q c live [])
    (e : EvictionHeap) (numTokens : Nat) :
    ∃ live' ⊆ live, WF (c.evict e numTokens).2 live' rp pv ∧
      LeavesExact (c.evict e numTokens).2 live' ∧
      Q (c.evict e numTokens).2 live' (c.evict e numTokens).1 := by
  unfold evict
  by_cases hd : c.disable = true
  · rw [if_pos hd]
    exact ⟨live, fun _ hn => hn, h, hl, hq⟩
  · rw [if_neg hd]
    refine evictLoop_rule hstep e numTokens _ c live _ [] h hl ⟨heapOk_start h _, ?_⟩ hq
    intro x hx
    obtain ⟨n, hn, rfl⟩ := List.mem_map.mp hx
    exact ((hl n).mp hn).2.2.2

end

/-- What an eviction did: it deleted unlocked nodes, and handed out their indices. -/
structure Evicted (c : RadixCache) (live : Set NodeId) (freed : List Index) (c' : RadixCache)
    (live' : Set NodeId) : Prop where
  locked : ∀ n ∈ live, 0 < (c.node n).lockRef → n ∈ live'
  fields : ∀ n, (c'.node n).key = (c.node n).key ∧ (c'.node n).value = (c.node n).value ∧
    (c'.node n).lockRef = (c.node n).lockRef
  evictableSize : c'.evictableSize + freed.length = c.evictableSize
  protectedSize : c'.protectedSize = c.protectedSize
  indices : (freed : Multiset Index) + c'.sum heldIndices = c.sum heldIndices
  evictable : freed.length + c'.sum evictableTokens = c.sum evictableTokens
  guarded : c'.sum protectedTokens = c.sum protectedTokens

/-- Deleting one more. -/
theorem Evicted.deleteLeaf {freed : List Index} (hq : Evicted c live freed c' live')
    (h : WF c' live' rp pv) {x : NodeId} (hx : x ∈ live') (hr : x ≠ rootNode)
    (hkids : (c'.node x).children.entries = []) (hfree : (c'.node x).lockRef ≤ 0) :
    Evicted c live (freed ++ (c'.node x).value) (c'.deleteLeaf x) ( live' \ {x}) := by
  have hwf := deleteLeaf_wf h hx hr hkids
  have hlen := h.valueLength x hx
  obtain ⟨he, hp⟩ := sizes_deleteLeaf c' x
  have hdel := sum_deleteLeaf (w := heldIndices) h hx hwf
  have hev := sum_deleteLeaf (w := evictableTokens) h hx hwf
  have hgu := sum_deleteLeaf (w := protectedTokens) h hx hwf
  simp only [TreeNode.weigh, heldIndices] at hdel
  simp only [TreeNode.weigh, evictableTokens, if_neg (Int.not_lt.mpr hfree)] at hev
  simp only [TreeNode.weigh, protectedTokens, if_neg (Int.not_lt.mpr hfree)] at hgu
  refine ⟨fun n hn hlock => ⟨hq.locked n hn hlock, ?_⟩, fun n => ⟨?_, ?_, ?_⟩, ?_,
    hp.trans hq.protectedSize, ?_, ?_, ?_⟩
  · rintro rfl
    rw [(hq.fields n).2.2] at hfree
    omega
  · rw [proj_deleteLeaf (·.key) fun _ _ => rfl, (hq.fields n).1]
  · rw [proj_deleteLeaf (·.value) fun _ _ => rfl, (hq.fields n).2.1]
  · rw [proj_deleteLeaf (·.lockRef) fun _ _ => rfl, (hq.fields n).2.2]
  · rw [he, ← hq.evictableSize, List.length_append, hlen]
    omega
  · rw [← hq.indices, ← hdel, ← Multiset.coe_add, add_assoc]
  · rw [← hq.evictable, ← hev, List.length_append, hlen, add_assoc]
  · rw [← hq.guarded, ← hgu, zero_add]

theorem evict_evicted (h : WF c live rp pv) (hl : LeavesExact c live) (e : EvictionHeap)
    (numTokens : Nat) :
    ∃ live' ⊆ live, WF (c.evict e numTokens).2 live' rp pv ∧
      LeavesExact (c.evict e numTokens).2 live' ∧
      Evicted c live (c.evict e numTokens).1 (c.evict e numTokens).2 live' := by
  refine evict_rule (Q := fun c' live' freed => Evicted c live freed c' live')
    (fun c1 live1 freed x h1 _ hx hr hkids hfree hq => hq.deleteLeaf h1 hx hr hkids hfree) h hl ?_ e
    numTokens
  exact ⟨fun n hn _ => hn, fun n => ⟨rfl, rfl, rfl⟩, by simp, rfl, zero_add _, Nat.zero_add _, rfl⟩

end RadixCache

end Peek
