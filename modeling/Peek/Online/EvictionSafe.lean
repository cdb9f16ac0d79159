/-
What a leaf without a value is worth to the pending requests.

The doc of `pending_demand` says that zero means it is safe to evict.  The demand is asked
for at the ends of nodes only, and a request that leaves the tree inside a node's key shows up
at the node's parent.  The root is no node to ask at: a request that leaves the tree inside
the key of one of the root's children shows up nowhere, and evicting that child takes from it
what was cached (`deleteLeaf_undemanded_iff`).
-/
import Peek.Online.Eviction
import Peek.Sglang.CacheLookup

namespace Peek

open Radix ParentChain

/-! ### The tokens of a path -/

namespace RadixCache

variable {c : RadixCache} {live : Set NodeId} {rp : NodeId → List ChildKey}
  {pv : NodeId → List Index} {n : NodeId} {key : RadixKey}

/-- A node's root path goes on from its parent's. -/
theorem WF.segments_eq_cons (h : WF c live rp pv) (hn : n ∈ live) (hr : n ≠ rootNode) :
    c.segments n = (c.node n).key.tokenIds :: c.segments (c.node n).parent := by
  obtain ⟨k, hk, hup⟩ := h.up_le hn
  cases hup with
  | root => exact absurd rfl hr
  | @step k _ _ hup =>
      rw [segments_eq, segments_eq]
      show List.map _ (climbed c.parentOf rootNode c.nodes.size n) =
        _ :: List.map _ (climbed c.parentOf rootNode c.nodes.size (c.parentOf n))
      rw [climbed_of_le (Up.step hr hup) hk, climbed_of_le hup (Nat.le_of_succ_le hk), climbed,
        if_neg hr, List.map_cons]

/-- A node's root path, in tokens. -/
theorem WF.pathTokens_eq (h : WF c live rp pv) :
    ∀ n ∈ live, c.pathTokens n = (rp n).flatMap ChildKey.tokens := by
  refine h.labelled.up_induction ?_ ?_
  · have hroot : rp rootNode = [] := h.labelled.rootPath
    have hnil : c.segments rootNode = [] := by
      rw [segments_eq]
      show List.map _ (climbed c.parentOf rootNode c.nodes.size rootNode) = []
      rw [climbed_of_le Up.root (Nat.zero_le _)]
      rfl
    show c.pathTokens rootNode = (rp rootNode).flatMap ChildKey.tokens
    unfold pathTokens
    rw [hnil, hroot]
    rfl
  · intro n hn hr ih
    rw [h.labelled.path_eq hn hr, List.flatMap_append, ← ih, heap_edge, heap_parent,
      RadixKey.flatMap_tokens_symbols h.pageSize_pos]
    unfold pathTokens
    rw [h.segments_eq_cons hn hr, List.reverse_cons, List.flatten_append, List.flatten_singleton]

/-- A node on the way of a key is on the way of its tokens. -/
theorem WF.pathTokens_prefix (h : WF c live rp pv) (hn : n ∈ live)
    (hpre : rp n <+: c.matchSymbols key) : c.pathTokens n <+: key.tokenIds := by
  rw [h.pathTokens_eq n hn]
  have hflat : (rp n).flatMap ChildKey.tokens <+:
      (c.matchSymbols key).flatMap ChildKey.tokens := by
    obtain ⟨tl, htl⟩ := hpre
    rw [← htl, List.flatMap_append]
    exact List.prefix_append _ _
  refine hflat.trans ?_
  unfold matchSymbols
  split
  · exact List.nil_prefix
  · rw [RadixKey.flatMap_tokens_symbols h.pageSize_pos]
    unfold pageAlign
    split
    · exact List.take_prefix _ _
    · exact List.prefix_refl _

theorem WF.parent_mem_chain (h : WF c live rp pv) (hn : n ∈ live) (hr : n ≠ rootNode)
    (hpr : (c.node n).parent ≠ rootNode) : (c.node n).parent ∈ c.chain n := by
  obtain ⟨k, hk, hup⟩ := h.up_le hn
  exact (mem_climbed_iff hup hk _).mpr (Passes.step hr (Passes.here hpr))

/-! ### Deleting a leaf -/

theorem Sound.pageSize_pos (h : Sound c) : 0 < c.pageSize := by
  obtain ⟨live, rp, pv, h⟩ := h
  exact h.pageSize_pos

theorem Later.matchSymbols_eq {c' : RadixCache} (hl : Later c c') (key : RadixKey) :
    c'.matchSymbols key = c.matchSymbols key := by
  unfold matchSymbols pageAlign
  rw [hl.disable, hl.pageSize]

/-- As many tokens of a key are cached before as after if the same prefixes of it are held. -/
theorem Sound.length_matchPrefix_eq_iff {c' : RadixCache} (h : Sound c) (h' : Sound c')
    (hl : Later c c') :
    (c'.matchPrefix key).1.deviceIndices.length = (c.matchPrefix key).1.deviceIndices.length ↔
      ∀ q, q <+: c.matchSymbols key → (c'.Holds q ↔ c.Holds q) := by
  obtain ⟨k, hk, hlen, hiff⟩ := h.length_matchPrefix key
  obtain ⟨k', hk', hlen', hiff'⟩ := h'.length_matchPrefix key
  rw [hl.matchSymbols_eq key] at hk' hiff'
  rw [hlen, hlen', hl.pageSize]
  constructor
  · intro heq q hq
    have hpos : 0 < c.pageSize := h.pageSize_pos
    have hkk : k' = k := Nat.eq_of_mul_eq_mul_left hpos heq
    rw [List.prefix_iff_eq_take.mp hq, hiff _ hq.length_le, hiff' _ hq.length_le, hkk]
  · intro hheld
    congr 1
    refine Nat.le_antisymm ?_ ?_
    · rw [← hiff k' hk', ← hheld _ (List.take_prefix _ _), hiff' k' hk']
    · rw [← hiff' k hk, hheld _ (List.take_prefix _ _), hiff k hk]

section

variable (h : WF c live rp pv) (hn : n ∈ live) (hr : n ≠ rootNode)
  (hkids : (c.node n).children.entries = [])
include h hn hr hkids

/-- Below a node other than the root, an undemanded leaf is on no request's way. -/
theorem WF.holds_deleteLeaf_of_undemanded {demand : List Token → Nat}
    (hzero : ∀ m ∈ c.chain n, demand (c.pathTokens m) = 0)
    (hdemand : ∀ m ∈ live, m ≠ rootNode → c.pathTokens m <+: key.tokenIds →
      demand (c.pathTokens m) ≠ 0)
    (hparent : (c.node n).parent ≠ rootNode ∨
      (c.matchSymbols key).head? ≠ some (getChildKey (c.node n).key c.pageSize))
    {q : List ChildKey} (hq : q <+: c.matchSymbols key) :
    (c.deleteLeaf n).Holds q ↔ c.Holds q := by
  rw [(deleteLeaf_wf h hn hr hkids).holds_iff, h.holds_iff]
  constructor
  · intro hheld
    obtain ⟨m, hm, hpre⟩ := hheld
    exact ⟨m, hm.1, hpre⟩
  · intro hheld
    obtain ⟨m, hm, hpre⟩ := hheld
    by_cases hmn : m = n
    · subst hmn
      -- what is held by the leaf alone runs past the leaf's parent
      have hpl : (c.node m).parent ∈ live := h.labelled.parent_live hm hr
      have hpm : (c.node m).parent ≠ m := h.labelled.parent_ne_self hm hr
      have hpath : rp m = rp (c.node m).parent ++ c.heap.edge m := h.labelled.path_eq hm hr
      refine ⟨(c.node m).parent, ⟨hpl, hpm⟩, ?_⟩
      have hppre : rp (c.node m).parent <+: rp m := hpath ▸ List.prefix_append _ _
      by_cases hpr : (c.node m).parent = rootNode
      · have hhead := hparent.resolve_left (not_not.mpr hpr)
        have hroot : rp (c.node m).parent = [] := hpr ▸ h.labelled.rootPath
        rw [hroot, List.prefix_nil]
        rw [hpath, hroot, List.nil_append] at hpre
        cases q with
        | nil => rfl
        | cons a q =>
            have hsing : [a] <+: a :: q := List.cons_prefix_cons.mpr ⟨rfl, List.nil_prefix⟩
            have hfirst := List.singleton_prefix_iff_head?_eq_some.mp (hsing.trans hpre)
            have hkey := RadixKey.head_symbols h.pageSize_pos (h.tokenIds_ne_nil hm hr)
            refine absurd ?_ hhead
            rw [← hkey, ← heap_edge, hfirst]
            exact List.singleton_prefix_iff_head?_eq_some.mp (hsing.trans hq)
      · refine (List.prefix_or_prefix_of_prefix hpre hppre).resolve_right fun hback => ?_
        exact hdemand _ hpl hpr (h.pathTokens_prefix hpl (hback.trans hq))
          (hzero _ (h.parent_mem_chain hm hr hpr))
    · exact ⟨m, ⟨hm, hmn⟩, hpre⟩

/-- A leaf right below the root is on the way of every key that starts like it. -/
theorem WF.holds_deleteLeaf_root (hpr : (c.node n).parent = rootNode) :
    c.Holds [getChildKey (c.node n).key c.pageSize] ∧
      ¬ (c.deleteLeaf n).Holds [getChildKey (c.node n).key c.pageSize] := by
  have hwf := deleteLeaf_wf h hn hr hkids
  set a := getChildKey (c.node n).key c.pageSize with ha
  constructor
  · rw [h.holds_iff]
    refine ⟨n, hn, ?_⟩
    have hroot : rp (c.node n).parent = [] := hpr ▸ h.labelled.rootPath
    rw [h.labelled.path_eq hn hr, heap_parent, hroot, List.nil_append, heap_edge,
      List.singleton_prefix_iff_head?_eq_some]
    exact RadixKey.head_symbols h.pageSize_pos (h.tokenIds_ne_nil hn hr)
  · rw [hwf.holds_iff]
    intro hheld
    obtain ⟨m, hm, hpre⟩ := hheld
    have hroot : rp rootNode = [] := hwf.labelled.rootPath
    have hpre : rp rootNode ++ [a] <+: rp m := by
      rw [hroot]
      exact hpre
    obtain ⟨k, hk, -⟩ := hwf.labelled.kid_of_prefix hwf.labelled.rootLive hm hpre
    -- but that entry is the one that was erased
    rw [heap_root, heap_kid, ← hpr, node_deleteLeaf_parent c (hpr ▸ h.bound _ h.labelled.rootLive),
      Map.lookup_erase_of, if_pos ha.symm] at hk
    simp at hk

end

/-! ### Leaves without a value -/

/-- What is cached of every pending request stays cached, under whatever namespace. -/
def KeepsPending (c c' : RadixCache) (p : PendingTree) : Prop :=
  ∀ rid tokens, p.paths.lookup rid = some tokens → ∀ extraKey,
    (c'.matchPrefix ⟨tokens, extraKey⟩).1.deviceIndices.length =
      (c.matchPrefix ⟨tokens, extraKey⟩).1.deviceIndices.length

/-- A pending request starts with the first page of the node's key. -/
def StartsPending (c : RadixCache) (n : NodeId) (p : PendingTree) : Prop :=
  ∃ rid tokens, p.paths.lookup rid = some tokens ∧ ∃ extraKey,
    (c.matchSymbols ⟨tokens, extraKey⟩).head? = some (getChildKey (c.node n).key c.pageSize)

/--
**When a leaf without a value is safe to evict.**  Its value is zero when no node on its root
path is demanded.  Evicting it then costs no pending request a cached token, unless it hangs
right below the root and a pending request starts like it.
-/
theorem deleteLeaf_undemanded_iff {pageSize : Nat} (hps : 0 < pageSize) {disable : Bool}
    (hc : Reachable pageSize disable c) (ops : List PendingTree.Op)
    (hn : n ∈ c.evictableLeaves) :
    ((c.maxAncestorDemand (PendingTree.run ops).pendingDemand n).maxValue = 0 ↔
      ∀ m ∈ c.chain n, (PendingTree.run ops).pendingDemand (c.pathTokens m) = 0) ∧
    ((c.maxAncestorDemand (PendingTree.run ops).pendingDemand n).maxValue = 0 →
      (KeepsPending c (c.deleteLeaf n) (PendingTree.run ops) ↔
        ¬ ((c.node n).parent = rootNode ∧ StartsPending c n (PendingTree.run ops)))) := by
  obtain ⟨live, rp, pv, h⟩ := (hc.sound hps).1
  obtain ⟨hn, hr, hkids⟩ := h.leaves n hn
  have hp := PendingTree.sound_run ops
  have hsound : Sound c := ⟨live, rp, pv, h⟩
  have hsound' : Sound (c.deleteLeaf n) := ⟨_, rp, pv, deleteLeaf_wf h hn hr hkids⟩
  have hlater := later_deleteLeaf c n
  have hiff : (c.maxAncestorDemand (PendingTree.run ops).pendingDemand n).maxValue = 0 ↔
      ∀ m ∈ c.chain n, (PendingTree.run ops).pendingDemand (c.pathTokens m) = 0 :=
    h.maxAncestorDemand_eq_zero_iff hn
  refine ⟨hiff, fun hzero => ⟨fun hkeeps hbad => ?_, fun hgood rid tokens hlook extraKey => ?_⟩⟩
  · obtain ⟨hpr, rid, tokens, hlook, extraKey, hhead⟩ := hbad
    obtain ⟨hheld, hlost⟩ := h.holds_deleteLeaf_root hn hr hkids hpr
    have hsame := (hsound.length_matchPrefix_eq_iff hsound' hlater).mp
      (hkeeps rid tokens hlook extraKey)
    exact hlost ((hsame _ (List.singleton_prefix_iff_head?_eq_some.mpr hhead)).mpr hheld)
  · refine (hsound.length_matchPrefix_eq_iff hsound' hlater).mpr fun q hq => ?_
    refine h.holds_deleteLeaf_of_undemanded hn hr hkids (hiff.mp hzero) ?_ ?_ hq
    · intro m hm hmr hpre hnone
      exact (hp.pendingDemand_eq_zero_iff (h.pathTokens_ne_nil hm hmr)).mp hnone rid tokens hlook hpre
    · by_contra hnot
      rw [not_or, not_not, not_not] at hnot
      exact hgood ⟨hnot.1, rid, tokens, hlook, extraKey, hnot.2⟩

/-- A cached prompt of four tokens, and a request for its first two. -/
def longPrompt : RadixCache := (createSimulated.insert (HeldCache.plainPrompt [1, 2, 3, 4])).2

def shortPending : List PendingTree.Op := [.insert 1 [1, 2]]

theorem longPrompt_reachable : Reachable 1 false longPrompt :=
  Relation.ReflTransGen.refl.tail (Step.insert (new 1 false) (HeldCache.plainPrompt [1, 2, 3, 4]))

theorem deleteLeaf_undemanded_long :
    (longPrompt.maxAncestorDemand (PendingTree.run shortPending).pendingDemand 1).maxValue = 0 ∧
    (KeepsPending longPrompt (longPrompt.deleteLeaf 1) (PendingTree.run shortPending) ↔
      ¬ ((longPrompt.node 1).parent = rootNode ∧
        StartsPending longPrompt 1 (PendingTree.run shortPending))) := by
  have hzero : (longPrompt.maxAncestorDemand
      (PendingTree.run shortPending).pendingDemand 1).maxValue = 0 := by decide
  exact ⟨hzero, (deleteLeaf_undemanded_iff Nat.one_pos longPrompt_reachable shortPending
    (n := 1) (by decide)).2 hzero⟩

/-- Two tokens of the request are cached, and evicting a leaf without a value takes both. -/
theorem deleteLeaf_takes_pending :
    Reachable 1 false longPrompt ∧ 1 ∈ longPrompt.evictableLeaves ∧
    (longPrompt.maxAncestorDemand (PendingTree.run shortPending).pendingDemand 1).maxValue = 0 ∧
    (PendingTree.run shortPending).paths.lookup 1 = some [1, 2] ∧
    (longPrompt.matchPrefix ⟨[1, 2], none⟩).1.deviceIndices = [1, 2] ∧
    ((longPrompt.deleteLeaf 1).matchPrefix ⟨[1, 2], none⟩).1.deviceIndices = [] :=
  ⟨longPrompt_reachable, by decide⟩

end RadixCache

end Peek
