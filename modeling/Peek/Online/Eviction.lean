/-
Demand-aware eviction (`python/peek/online/eviction.py`).

A node's value is the largest demand times length over the nodes on its root path, itself
included: a leaf is worth what its ancestors are worth, since evicting it brings them closer
to being evicted.  So a leaf that no pending request runs through can be worth more than one
that some do, and it is a leaf with no demanded node on its root path that goes before every
demanded one (`evict_demand`).

The modes `recency` and `decay`, which look at the time of day, are left out.
-/
import Peek.Pending.Demand
import Peek.Sglang.QueueAware

namespace Peek

open Radix ParentChain

/-- `_EVICTION_MODE` -/
inductive EvictionMode where
  | plain
  | cluster
  deriving DecidableEq

namespace RadixCache

/-- The keys on the way from a node up to the root (`segments`). -/
def segmentsLoop (c : RadixCache) : Nat → NodeId → List (List Token)
  | 0, _ => []
  | fuel + 1, cur =>
      if cur = rootNode then []
      else (c.node cur).key.tokenIds :: c.segmentsLoop fuel (c.node cur).parent

def segments (c : RadixCache) (n : NodeId) : List (List Token) := c.segmentsLoop c.nodes.size n

/-- What the loop of `_max_ancestor_demand` carries from level to level. -/
structure AncestorDemand where
  maxValue : Nat
  maxLen : Nat
  levels : Nat
  deriving DecidableEq

/-- The levels of `_max_ancestor_demand`, from the root down. -/
def ancestorDemandLoop (pendingDemand : List Token → Nat) :
    List (List Token) → List Token → AncestorDemand → AncestorDemand
  | [], _, best => best
  | seg :: segs, ancestor, best =>
      let ancestor := ancestor ++ seg
      let d := pendingDemand ancestor
      let value := d * ancestor.length
      let best :=
        if value > best.maxValue then ⟨value, ancestor.length, best.levels + 1⟩
        else { best with levels := best.levels + 1 }
      if d = 0 ∧ best.maxValue > 0 then best
      else ancestorDemandLoop pendingDemand segs ancestor best

/-- `_max_ancestor_demand` -/
def maxAncestorDemand (pendingDemand : List Token → Nat) (c : RadixCache) (n : NodeId) :
    AncestorDemand :=
  ancestorDemandLoop pendingDemand (c.segments n).reverse [] ⟨0, 0, 0⟩

/-- `PeekDemandStrategy.get_priority` -/
def demandPriority (mode : EvictionMode) (pendingDemand : List Token → Nat) (c : RadixCache)
    (n : NodeId) : Nat ×ₗ Nat :=
  let best := c.maxAncestorDemand pendingDemand n
  let priority :=
    match mode with
    | .plain => best.maxValue
    | .cluster => best.maxValue * (1 + best.levels)
  toLex (priority, (c.node n).lastAccessTime)

/-- The tokens on a node's root path. -/
def pathTokens (c : RadixCache) (n : NodeId) : List Token := (c.segments n).reverse.flatten

variable {c : RadixCache} {live : Set NodeId} {rp : NodeId → List ChildKey}
  {pv : NodeId → List Index} {n m : NodeId} {pendingDemand : List Token → Nat}

/-! ### The loop -/

/-- The value never falls on the way down. -/
theorem le_ancestorDemandLoop : ∀ (segs : List (List Token)) (ancestor : List Token)
    (best : AncestorDemand),
    best.maxValue ≤ (ancestorDemandLoop pendingDemand segs ancestor best).maxValue := by
  intro segs
  induction segs with
  | nil => intro ancestor best; exact Nat.le_refl _
  | cons seg segs ih =>
      intro ancestor best
      rw [ancestorDemandLoop]
      set best' : AncestorDemand :=
        if pendingDemand (ancestor ++ seg) * (ancestor ++ seg).length > best.maxValue then
          ⟨pendingDemand (ancestor ++ seg) * (ancestor ++ seg).length, (ancestor ++ seg).length,
            best.levels + 1⟩
        else { best with levels := best.levels + 1 } with hbest
      have hle : best.maxValue ≤ best'.maxValue := by
        rw [hbest]
        split
        · exact Nat.le_of_lt ‹_›
        · exact Nat.le_refl _
      split
      · exact hle
      · exact hle.trans (ih _ _)

/-- The value is zero when it is zero at every level. -/
theorem ancestorDemandLoop_eq_zero_iff : ∀ (segs : List (List Token)) (ancestor : List Token)
    (best : AncestorDemand), best.maxValue = 0 →
    ((ancestorDemandLoop pendingDemand segs ancestor best).maxValue = 0 ↔
      ∀ pre, pre <+: segs → pre ≠ [] →
        pendingDemand (ancestor ++ pre.flatten) * (ancestor ++ pre.flatten).length = 0) := by
  intro segs
  induction segs with
  | nil =>
      intro ancestor best hbest
      refine iff_of_true hbest fun pre hpre hne => ?_
      exact absurd (List.prefix_nil.mp hpre) hne
  | cons seg segs ih =>
      intro ancestor best hbest
      rw [ancestorDemandLoop]
      by_cases hvalue : pendingDemand (ancestor ++ seg) * (ancestor ++ seg).length = 0
      · rw [if_neg (by omega : ¬ pendingDemand (ancestor ++ seg) * (ancestor ++ seg).length >
          best.maxValue), if_neg (by simp [hbest]),
          ih (ancestor ++ seg) { best with levels := best.levels + 1 } hbest]
        constructor
        · intro hall pre hpre hne
          obtain ⟨s, pre, rfl⟩ := List.exists_cons_of_ne_nil hne
          rw [List.cons_prefix_cons] at hpre
          obtain ⟨rfl, hpre⟩ := hpre
          by_cases hnil : pre = []
          · rw [hnil, List.flatten_singleton]
            exact hvalue
          · rw [List.flatten_cons, ← List.append_assoc]
            exact hall pre hpre hnil
        · intro hall pre hpre hne
          have := hall (seg :: pre) (List.cons_prefix_cons.mpr ⟨rfl, hpre⟩) (List.cons_ne_nil _ _)
          rwa [List.flatten_cons, ← List.append_assoc] at this
      · -- the value is positive from here on
        rw [if_pos (by omega : pendingDemand (ancestor ++ seg) * (ancestor ++ seg).length >
          best.maxValue)]
        refine iff_of_false (fun hzero => ?_) fun hall => ?_
        · split at hzero
          · exact hvalue hzero
          · have hle := (Nat.le_of_eq hzero).trans' (le_ancestorDemandLoop segs _ _)
            exact hvalue (Nat.eq_zero_of_le_zero hle)
        · have := hall [seg] (List.cons_prefix_cons.mpr ⟨rfl, List.nil_prefix⟩)
            (List.cons_ne_nil _ _)
          rw [List.flatten_singleton] at this
          exact hvalue this

/-! ### Root paths -/

theorem segmentsLoop_eq (c : RadixCache) : ∀ (fuel : Nat) (n : NodeId), c.segmentsLoop fuel n =
    (climbed c.parentOf rootNode fuel n).map fun m => (c.node m).key.tokenIds := by
  intro fuel
  induction fuel with
  | zero => intro n; rfl
  | succ fuel ih =>
      intro n
      unfold segmentsLoop climbed
      by_cases hr : n = rootNode
      · rw [if_pos hr, if_pos hr]
        rfl
      · rw [if_neg hr, if_neg hr, List.map_cons, ih]
        rfl

theorem segments_eq (c : RadixCache) (n : NodeId) :
    c.segments n = (c.chain n).map fun m => (c.node m).key.tokenIds :=
  segmentsLoop_eq c c.nodes.size n

/-- The tree is no deeper than there are objects. -/
theorem WF.up_le (h : WF c live rp pv) (hn : n ∈ live) :
    ∃ k ≤ c.nodes.size, Up c.parentOf rootNode k n := by
  have hfin : live.Finite := (Set.finite_lt_nat c.nodes.size).subset h.bound
  have hup : ∀ n ∈ live, ∃ k, Up c.parentOf rootNode k n :=
    h.labelled.up_induction ⟨0, Up.root⟩ fun n _ hr hk => by
      obtain ⟨k, hk⟩ := hk
      exact ⟨k + 1, Up.step hr hk⟩
  obtain ⟨k, hk⟩ := hup n hn
  have hle := hk.le_card (S := hfin.toFinset) (fun m hm hr => by
    rw [Set.Finite.mem_toFinset] at hm ⊢
    exact h.labelled.parent_live hm hr) (hfin.mem_toFinset.mpr hn)
  have hcard : hfin.toFinset.card ≤ (Finset.range c.nodes.size).card :=
    Finset.card_le_card fun m hm =>
      Finset.mem_range.mpr (h.bound m (hfin.mem_toFinset.mp hm))
  rw [Finset.card_range] at hcard
  exact ⟨k, hle.trans hcard, hk⟩

theorem WF.chain_live (h : WF c live rp pv) (hn : n ∈ live) (hm : m ∈ c.chain n) :
    m ∈ live ∧ m ≠ rootNode := by
  have hp := passes_of_mem_climbed hm
  exact ⟨hp.mem (S := live) (fun _ hk hr => h.labelled.parent_live hk hr) hn, hp.ne_root⟩

theorem WF.self_mem_chain (h : WF c live rp pv) (hn : n ∈ live) (hr : n ≠ rootNode) :
    n ∈ c.chain n := by
  obtain ⟨k, hk, hup⟩ := h.up_le hn
  exact (mem_climbed_iff hup hk n).mpr (Passes.here hr)

theorem WF.tokenIds_ne_nil (h : WF c live rp pv) (hn : n ∈ live) (hr : n ≠ rootNode) :
    (c.node n).key.tokenIds ≠ [] := by
  intro hnil
  refine h.labelled.edge_ne_nil hn hr ?_
  rw [heap_edge]
  exact (RadixKey.symbols_eq_nil_iff h.pageSize_pos).mpr hnil

/-- A node's root path spells at least its own key. -/
theorem WF.pathTokens_ne_nil (h : WF c live rp pv) (hn : n ∈ live) (hr : n ≠ rootNode) :
    c.pathTokens n ≠ [] := by
  unfold pathTokens
  rw [segments_eq, Ne, List.flatten_eq_nil_iff]
  intro hall
  exact h.tokenIds_ne_nil hn hr
    (hall _ (List.mem_reverse.mpr (List.mem_map_of_mem (h.self_mem_chain hn hr))))

/-- The levels of the walk are the root paths of the nodes it climbs over. -/
theorem WF.prefix_segments_iff (h : WF c live rp pv) (hn : n ∈ live) {pre : List (List Token)}
    (hpre : pre ≠ []) : pre <+: (c.segments n).reverse ↔
      ∃ m ∈ c.chain n, pre = (c.segments m).reverse := by
  obtain ⟨k, hk, hup⟩ := h.up_le hn
  have hsuffix : pre <+: (c.segments n).reverse ↔ pre.reverse <:+ c.segments n := by
    rw [← List.reverse_suffix, List.reverse_reverse]
  rw [hsuffix, segments_eq]
  constructor
  · intro hs
    obtain ⟨l, hl, heq⟩ := List.suffix_map_iff.mp hs
    have hne : l ≠ [] := by
      rintro rfl
      exact hpre (List.reverse_eq_nil_iff.mp heq)
    obtain ⟨m, hm, rfl⟩ := (suffix_climbed_iff hup hk hne).mp hl
    exact ⟨m, hm, by rw [segments_eq]; exact List.reverse_eq_iff.mp heq⟩
  · intro hm
    obtain ⟨m, hm, rfl⟩ := hm
    rw [List.reverse_reverse, segments_eq]
    have hne : c.chain m ≠ [] := by
      obtain ⟨hml, hmr⟩ := h.chain_live hn hm
      exact List.ne_nil_of_mem (h.self_mem_chain hml hmr)
    exact ((suffix_climbed_iff hup hk hne).mpr ⟨m, hm, rfl⟩).map _

/-- **A node's value is zero when no node on its root path is demanded.** -/
theorem WF.maxAncestorDemand_eq_zero_iff (h : WF c live rp pv) (hn : n ∈ live) :
    (c.maxAncestorDemand pendingDemand n).maxValue = 0 ↔
      ∀ m ∈ c.chain n, pendingDemand (c.pathTokens m) = 0 := by
  unfold maxAncestorDemand
  rw [ancestorDemandLoop_eq_zero_iff _ _ _ rfl]
  constructor
  · intro hall m hm
    obtain ⟨hml, hmr⟩ := h.chain_live hn hm
    have hne : (c.segments m).reverse ≠ [] := by
      intro hnil
      refine h.pathTokens_ne_nil hml hmr ?_
      unfold pathTokens
      rw [hnil]
      rfl
    have hzero := hall _ ((h.prefix_segments_iff hn hne).mpr ⟨m, hm, rfl⟩) hne
    rw [List.nil_append, Nat.mul_eq_zero] at hzero
    refine hzero.resolve_right fun hlen => ?_
    exact h.pathTokens_ne_nil hml hmr (List.length_eq_zero_iff.mp hlen)
  · intro hall pre hpre hne
    obtain ⟨m, hm, rfl⟩ := (h.prefix_segments_iff hn hne).mp hpre
    have hzero := hall m hm
    unfold pathTokens at hzero
    rw [List.nil_append, hzero, Nat.zero_mul]

/-! ### Deletions -/

theorem size_deleteLeaf (c : RadixCache) (n : NodeId) :
    (c.deleteLeaf n).nodes.size = c.nodes.size := by
  unfold deleteLeaf
  rw [size_updateLeafStatus]
  exact size_nodeMut c _ _

theorem segments_deleteLeaf (c : RadixCache) (n m : NodeId) :
    (c.deleteLeaf n).segments m = c.segments m := by
  have hloop : ∀ (fuel : Nat) (m : NodeId),
      (c.deleteLeaf n).segmentsLoop fuel m = c.segmentsLoop fuel m := by
    intro fuel
    induction fuel with
    | zero => intro m; rfl
    | succ fuel ih =>
        intro m
        unfold segmentsLoop
        rw [ih, proj_deleteLeaf (·.key) (fun _ _ => rfl), proj_deleteLeaf (·.parent) fun _ _ => rfl]
  unfold segments
  rw [size_deleteLeaf, hloop]

/-- Deleting a node does not change the priority of another. -/
theorem demandPriority_deleteLeaf (mode : EvictionMode) (pendingDemand : List Token → Nat)
    (c : RadixCache) (n m : NodeId) :
    demandPriority mode pendingDemand (c.deleteLeaf n) m =
      demandPriority mode pendingDemand c m := by
  unfold demandPriority maxAncestorDemand
  rw [segments_deleteLeaf, proj_deleteLeaf (·.lastAccessTime) fun _ _ => rfl]

/-- What comes first among the leaves has a value only if all of them have. -/
theorem maxValue_pos_of_le {mode : EvictionMode} {x y : NodeId}
    (hx : 0 < (c.maxAncestorDemand pendingDemand x).maxValue)
    (hle : demandPriority mode pendingDemand c x ≤ demandPriority mode pendingDemand c y) :
    0 < (c.maxAncestorDemand pendingDemand y).maxValue := by
  by_contra hy
  have hy : (c.maxAncestorDemand pendingDemand y).maxValue = 0 := Nat.eq_zero_of_not_pos hy
  cases mode with
  | plain =>
      simp only [demandPriority, Prod.Lex.le_iff, ofLex_toLex, hy] at hle
      omega
  | cluster =>
      have hpos : 0 < (c.maxAncestorDemand pendingDemand x).maxValue *
          (1 + (c.maxAncestorDemand pendingDemand x).levels) := Nat.mul_pos hx (by omega)
      simp only [demandPriority, Prod.Lex.le_iff, ofLex_toLex, hy, Nat.zero_mul] at hle
      omega

end RadixCache

namespace HeldCache

open RadixCache

variable {s : HeldCache}

/--
**Demand-aware eviction takes what no pending request runs through first.**  In any run of
calls an eviction, of any number of tokens, is a series of deletions; each of them takes an
evictable leaf, and one whose root path is demanded only when every evictable leaf has a
demanded node on its root path.
-/
theorem evict_demand {pageSize : Nat} (hps : 0 < pageSize) {disable : Bool}
    (hrun : Relation.ReflTransGen Step (new pageSize disable) s) (p : PendingTree)
    (mode : EvictionMode) (q : HeapQ (Nat ×ₗ Nat)) (numTokens : Nat) :
    (s.cache.evict (q.evictionHeap (demandPriority mode p.pendingDemand)) numTokens).2 =
      s.cache.afterDeleting
        (s.cache.evicted (q.evictionHeap (demandPriority mode p.pendingDemand)) numTokens) ∧
    ∀ pre x post, s.cache.evicted (q.evictionHeap (demandPriority mode p.pendingDemand))
        numTokens = pre ++ x :: post →
      x ∈ (s.cache.afterDeleting pre).evictableLeaves ∧
      (0 < p.pendingDemand ((s.cache.afterDeleting pre).pathTokens x) →
        ∀ y ∈ (s.cache.afterDeleting pre).evictableLeaves,
          ∃ z ∈ (s.cache.afterDeleting pre).chain y,
            0 < p.pendingDemand ((s.cache.afterDeleting pre).pathTokens z)) := by
  refine ⟨evict_eq _ _ _, fun pre x post hx => ?_⟩
  obtain ⟨live, rp, pv, h, hb⟩ := run_inv hps hrun
  have hd : s.cache.disable = false := by
    by_contra hd
    unfold evicted at hx
    rw [if_pos (by simpa using hd)] at hx
    simp at hx
  obtain ⟨refs, hb⟩ := hb hd
  obtain ⟨⟨live', -, hwf, -⟩, hleaf, hleast⟩ := evicted_least q
    (demandPriority_deleteLeaf mode p.pendingDemand) h hb hx
  refine ⟨hleaf, fun hdemand y hy => ?_⟩
  obtain ⟨hxl, hxr, -⟩ := hwf.leaves x hleaf
  obtain ⟨hyl, -, -⟩ := hwf.leaves y hy
  -- `x` is on its own root path, so it has a value, and so has every leaf that comes later
  have hvalue : 0 < ((s.cache.afterDeleting pre).maxAncestorDemand p.pendingDemand x).maxValue := by
    refine Nat.pos_of_ne_zero fun hzero => ?_
    have := hwf.maxAncestorDemand_eq_zero_iff hxl |>.mp hzero x (hwf.self_mem_chain hxl hxr)
    omega
  have hvalue := maxValue_pos_of_le hvalue (hleast y hy)
  by_contra hnone
  refine Nat.lt_irrefl 0 (hvalue.trans_eq ?_)
  refine (hwf.maxAncestorDemand_eq_zero_iff hyl).mpr fun z hz => ?_
  exact Nat.eq_zero_of_not_pos fun hpos => hnone ⟨z, hz, hpos⟩

/-- Three prompts, two of which share their first three tokens. -/
def threePrompts : HeldCache :=
  { cache := (((createSimulated.insert (plainPrompt [9])).2.insert
      (plainPrompt [1, 2, 3, 7])).2.insert (plainPrompt [1, 2, 3, 8])).2
    locks := [] }

theorem threePrompts_run : Relation.ReflTransGen Step (new 1 false) threePrompts := by
  have h1 := Step.insert (new 1 false) (plainPrompt [9])
  have h2 := Step.insert ⟨(createSimulated.insert (plainPrompt [9])).2, []⟩
    (plainPrompt [1, 2, 3, 7])
  have h3 := Step.insert ⟨((createSimulated.insert (plainPrompt [9])).2.insert
    (plainPrompt [1, 2, 3, 7])).2, []⟩ (plainPrompt [1, 2, 3, 8])
  exact ((Relation.ReflTransGen.refl.tail h1).tail h2).tail h3

/-- One request for the prompt of one token, one for the three that two prompts share. -/
def twoPending : PendingTree := PendingTree.run [.insert 1 [9], .insert 2 [1, 2, 3]]

theorem evict_demand_three :
    threePrompts.cache.evicted
      (HeapQ.sorted.evictionHeap (demandPriority .plain twoPending.pendingDemand)) 1 = [1] ∧
    (1 ∈ threePrompts.cache.evictableLeaves ∧
      (0 < twoPending.pendingDemand (threePrompts.cache.pathTokens 1) →
        ∀ y ∈ threePrompts.cache.evictableLeaves, ∃ z ∈ threePrompts.cache.chain y,
          0 < twoPending.pendingDemand (threePrompts.cache.pathTokens z))) := by
  have hlist : threePrompts.cache.evicted
      (HeapQ.sorted.evictionHeap (demandPriority .plain twoPending.pendingDemand)) 1 = [1] := by
    decide
  exact ⟨hlist, (evict_demand Nat.one_pos threePrompts_run twoPending .plain HeapQ.sorted 1).2 []
    1 [] hlist⟩

/--
The prompt `[9]` is demanded and its leaf goes first, in either mode, while the leaf of
`[1, 2, 3, 7]`, which no request asks for, stays: three tokens of its root path are at stake,
and only one of `[9]`'s.
-/
theorem evict_takes_demanded :
    Relation.ReflTransGen Step (new 1 false) threePrompts ∧
    (threePrompts.cache.evicted
      (HeapQ.sorted.evictionHeap (demandPriority .plain twoPending.pendingDemand)) 1 = [1] ∧
    threePrompts.cache.evicted
      (HeapQ.sorted.evictionHeap (demandPriority .cluster twoPending.pendingDemand)) 1 = [1]) ∧
    0 < twoPending.pendingDemand (threePrompts.cache.pathTokens 1) ∧
    2 ∈ threePrompts.cache.evictableLeaves ∧ threePrompts.cache.pathTokens 2 = [1, 2, 3, 7] ∧
    twoPending.pendingDemand (threePrompts.cache.pathTokens 2) = 0 :=
  ⟨threePrompts_run, by decide⟩

end HeldCache

end Peek
