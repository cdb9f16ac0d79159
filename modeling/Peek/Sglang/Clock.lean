/-
The readings of the clock that the cache keeps.

A node holds the number of the reading at which it was last accessed.  Every call reads the
clock before it writes such a number, so at any point of any run all of them are readings that
were made already (`TimesPast`).  `Ages` says so of one call, and it composes.

A match of a key writes a new number to the node that ends the longest cached prefix: that of
its own reading, or of the reading after it if the node is new (`matchPrefix_stamp`).
-/
import Peek.Sglang.ReadonlyMatch

namespace Peek

open Radix

namespace RadixCache

variable {c c' : RadixCache} {live : Set NodeId} {rp : NodeId → List ChildKey}
  {pv : NodeId → List Index}

/-- Every access time is a reading that was made already. -/
def TimesPast (c : RadixCache) : Prop := ∀ n, (c.node n).lastAccessTime < c.clock

/-- The clock goes on, and no access time runs ahead of it. -/
structure Ages (c c' : RadixCache) : Prop where
  clock : c.clock ≤ c'.clock
  past : c.TimesPast → c'.TimesPast

theorem Ages.refl (c : RadixCache) : Ages c c := ⟨Nat.le_refl _, id⟩

theorem Ages.trans {c1 c2 c3 : RadixCache} (h : Ages c1 c2) (h' : Ages c2 c3) : Ages c1 c3 :=
  ⟨h.clock.trans h'.clock, h'.past ∘ h.past⟩

/-- Nothing happens to the times. -/
theorem Ages.of_same (hclock : c'.clock = c.clock)
    (htime : ∀ n, (c'.node n).lastAccessTime = (c.node n).lastAccessTime) : Ages c c' :=
  ⟨hclock.ge, fun h n => by rw [htime, hclock]; exact h n⟩

/-! ### Single writes -/

theorem node_nodeMut_or (c : RadixCache) (j : NodeId) (f : TreeNode → TreeNode) (i : NodeId) :
    (c.nodeMut j f).node i = c.node i ∨ (c.nodeMut j f).node i = f (c.node i) := by
  by_cases hij : i = j
  · subst hij
    by_cases hlt : i < c.nodes.size
    · exact Or.inr (node_nodeMut_self c f hlt)
    · exact Or.inl (by simp [node, nodeMut, Array.getD_eq_getD_getElem?, hlt])
  · exact Or.inl (node_nodeMut_ne c f hij)

theorem node_push_or (c : RadixCache) (x : TreeNode) (i : NodeId) :
    (c.push x).node i = c.node i ∨ (c.push x).node i = x := by
  rcases Nat.lt_trichotomy i c.nodes.size with hlt | rfl | hgt
  · exact Or.inl (node_push_ne c x hlt)
  · exact Or.inr (node_push_self c x)
  · refine Or.inl ?_
    simp [node, push, Array.getD_eq_getD_getElem?, Array.getElem?_push, Nat.ne_of_gt hgt,
      Nat.not_lt_of_lt hgt]

theorem ages_nodeMut (c : RadixCache) (j : NodeId) {f : TreeNode → TreeNode}
    (hf : ∀ n, (f n).lastAccessTime = n.lastAccessTime) : Ages c (c.nodeMut j f) :=
  Ages.of_same rfl (proj_nodeMut (·.lastAccessTime) c j f hf)

/-- A reading made already is written. -/
theorem ages_touch (c : RadixCache) (j : NodeId) {t : Nat} (ht : t < c.clock) :
    Ages c (c.nodeMut j fun n => { n with lastAccessTime := t }) := by
  refine ⟨Nat.le_refl _, fun h n => ?_⟩
  rcases node_nodeMut_or c j (fun n => { n with lastAccessTime := t }) n with heq | heq
  · rw [heq]; exact h n
  · rw [heq]; exact ht

theorem ages_tick (c : RadixCache) (k : Nat) : Ages c (c.tick k) :=
  ⟨Nat.le_add_right _ _, fun h n => Nat.lt_of_lt_of_le (h n) (Nat.le_add_right _ _)⟩

/-- A new object takes two readings, the first of them for its access time. -/
theorem ages_push (c : RadixCache) {x : TreeNode} (hx : x.lastAccessTime = c.clock) :
    Ages c (c.pushNode x) := by
  refine ⟨Nat.le_add_right _ 2, fun h n => ?_⟩
  show ((c.push x).node n).lastAccessTime < c.clock + 2
  rcases node_push_or c x n with heq | heq
  · rw [heq]; exact Nat.lt_add_right 2 (h n)
  · rw [heq, hx]; exact Nat.lt_add_of_pos_right Nat.two_pos

theorem ages_updateLeafStatus (c : RadixCache) (n : NodeId) : Ages c (c.updateLeafStatus n) := by
  unfold updateLeafStatus
  split
  · exact Ages.of_same rfl fun _ => rfl
  · split
    · exact Ages.of_same rfl fun _ => rfl
    · exact Ages.of_same rfl fun _ => rfl

theorem ages_splitNode (c : RadixCache) (ch : NodeId) (len : Nat) :
    Ages c (c.splitNode ch len).1 := by
  have hcut := ages_nodeMut (c.pushNode (c.upperHalf ch len)) ch (f := c.lowerHalf ch len) fun _ => rfl
  exact ((ages_push c rfl).trans hcut).trans
    (ages_nodeMut _ (c.node ch).parent (f := c.withUpper ch) fun _ => rfl)

/-! ### The calls -/

theorem ages_ite {b : Bool} {c c' : RadixCache} (h : b = true → Ages c c') :
    Ages c (if b then c' else c) := by
  cases b with
  | true => exact h rfl
  | false => exact Ages.refl c

/-- A walk writes its own reading and those of the nodes it makes. -/
theorem ages_matchLoop (updateLru : Bool) (t : Nat) : ∀ (fuel : Nat) (c : RadixCache) (n : NodeId)
    (key : RadixKey) (value : List Index), (updateLru = true → t < c.clock) →
      Ages c (matchLoop updateLru t fuel c n key value).1 := by
  intro fuel
  induction fuel with
  | zero => intro c n key value _; exact Ages.refl c
  | succ fuel ih =>
      intro c n key value ht
      unfold matchLoop
      by_cases hpos : key.length > 0
      · rw [if_pos hpos]
        cases (c.node n).children.lookup (getChildKey key c.pageSize) with
        | none => exact Ages.refl c
        | some ch =>
            simp only
            have h1 := ages_ite fun hb => ages_touch c ch (ht hb)
            set c1 := if updateLru = true then
              c.nodeMut ch fun n => { n with lastAccessTime := t } else c with hc1
            have hhit : ∀ (c : RadixCache) (j : NodeId),
                Ages c (c.nodeMut j fun n => { n with hitCount := n.hitCount + 1 }) :=
              fun c j => ages_nodeMut c j fun _ => rfl
            by_cases hcut : keyMatch c1.pageSize (c1.node ch).key key < (c1.node ch).key.length
            · rw [if_pos hcut]
              exact (h1.trans (ages_splitNode c1 ch _)).trans (ages_ite fun _ => hhit _ _)
            · rw [if_neg hcut]
              have h2 := h1.trans (ages_ite (b := updateLru) fun _ => hhit c1 ch)
              exact h2.trans (ih _ _ _ _ fun hb => Nat.lt_of_lt_of_le (ht hb) h2.clock)
      · rw [if_neg hpos]
        exact Ages.refl c

theorem ages_matchPrefixWith (updateLru : Bool) (c : RadixCache) (key : RadixKey) :
    Ages c (c.matchPrefixWith updateLru key).2 := by
  rw [matchPrefixWith_eq]
  split
  · exact Ages.refl c
  · have hlt : c.clock < (c.tick 1).clock := Nat.lt_succ_self c.clock
    cases updateLru with
    | true =>
        have hstart := (ages_tick c 1).trans (ages_touch (c.tick 1) rootNode hlt)
        exact hstart.trans (ages_matchLoop true c.clock _ _ _ _ _ fun _ => hlt)
    | false => exact ages_matchLoop false c.clock _ c _ _ _ fun hb => nomatch hb

theorem ages_insertLoop (priority : Int) (t : Nat) : ∀ (fuel : Nat) (c : RadixCache)
    (w : InsertWalk), t < c.clock → Ages c (insertLoop priority t fuel c w).1 := by
  intro fuel
  induction fuel with
  | zero => intro c w _; exact Ages.refl c
  | succ fuel ih =>
      intro c w ht
      unfold insertLoop
      by_cases hpos : w.key.length > 0
      · rw [if_pos hpos]
        cases (c.node w.node).children.lookup (getChildKey w.key c.pageSize) with
        | none => exact Ages.refl c
        | some ch =>
            simp only
            have h1 := ages_touch c ch ht
            set c1 := c.nodeMut ch fun n => { n with lastAccessTime := t } with hc1
            have hmax : ∀ (c : RadixCache) (j : NodeId),
                Ages c (c.nodeMut j fun n => { n with priority := max n.priority priority }) :=
              fun c j => ages_nodeMut c j fun _ => rfl
            set len := keyMatch c1.pageSize (c1.node ch).key w.key with hlen
            by_cases hcut : len < (c1.node ch).key.length
            · rw [if_pos hcut]
              have h2 := (h1.trans (ages_splitNode c1 ch len)).trans
                (hmax _ (c1.splitNode ch len).2)
              exact h2.trans (ih _ _ (Nat.lt_of_lt_of_le ht h2.clock))
            · rw [if_neg hcut]
              have h2 := h1.trans (hmax c1 ch)
              exact h2.trans (ih _ _ (Nat.lt_of_lt_of_le ht h2.clock))
      · rw [if_neg hpos]
        exact Ages.refl c

theorem ages_addLeaf (c : RadixCache) (w : InsertWalk) (priority : Int) :
    Ages c (c.addLeaf w priority) := by
  have hlink := (ages_push c (x := c.newLeaf w priority) rfl).trans
    (ages_nodeMut _ w.node (f := c.withLeaf w) fun _ => rfl)
  have hlink : Ages c (c.linkLeaf w priority) := hlink.trans (Ages.of_same rfl fun _ => rfl)
  exact (hlink.trans (ages_updateLeafStatus _ _)).trans (ages_updateLeafStatus _ _)

theorem ages_insertHelper (c : RadixCache) (key : RadixKey) (value : List Index) (priority : Int) :
    Ages c (c.insertHelper key value priority).2 := by
  unfold insertHelper
  simp only
  set c1 := (c.tick 1).nodeMut rootNode fun n =>
    { n with lastAccessTime := c.clock, priority := max n.priority priority } with hc1
  have hlt : c.clock < c1.clock := Nat.lt_succ_self c.clock
  have hstart : Ages c c1 := by
    refine (ages_tick c 1).trans ⟨Nat.le_refl _, fun h n => ?_⟩
    rcases node_nodeMut_or (c.tick 1) rootNode (fun n =>
      { n with lastAccessTime := c.clock, priority := max n.priority priority }) n with heq | heq
    · rw [heq]; exact h n
    · rw [heq]; exact hlt
  by_cases hlen : key.length = 0
  · rw [if_pos hlen]; exact hstart
  · rw [if_neg hlen]
    have hloop := hstart.trans
      (ages_insertLoop priority c.clock (key.length + 1) c1 ⟨rootNode, key, value, 0⟩ hlt)
    generalize insertLoop priority c.clock (key.length + 1) c1 ⟨rootNode, key, value, 0⟩ = walk
      at hloop ⊢
    by_cases hrest : walk.2.key.length > 0
    · simp only [if_pos hrest]
      exact hloop.trans (ages_addLeaf walk.1 walk.2 priority)
    · simp only [if_neg hrest]
      exact hloop

theorem ages_insert (c : RadixCache) (params : InsertParams) : Ages c (c.insert params).2 := by
  unfold insert
  by_cases hd : c.disable = true
  · rw [if_pos hd]; exact Ages.refl c
  · rw [if_neg hd]; exact ages_insertHelper c _ _ _

/-- One turn of a lock's climb. -/
theorem ages_lockTurn (c : RadixCache) (n : NodeId) (b : Prop) [Decidable b] (size size' : Int)
    (h : Int → Int) : Ages c (((if b then { c with evictableSize := size, protectedSize := size' }
      else c).nodeMut n fun m => { m with lockRef := h m.lockRef }).updateLeafStatus n) := by
  have hsize : Ages c
      (if b then { c with evictableSize := size, protectedSize := size' } else c) := by
    split
    · exact Ages.of_same rfl fun _ => rfl
    · exact Ages.refl c
  exact (hsize.trans (ages_nodeMut _ n (f := fun m => { m with lockRef := h m.lockRef })
    fun _ => rfl)).trans (ages_updateLeafStatus _ n)

theorem ages_incLockRef (c : RadixCache) (n : NodeId) : Ages c (c.incLockRef n) :=
  (lock_rel Ages.refl Ages.trans ages_lockTurn c n).1

theorem ages_decLockRef (c : RadixCache) (n : NodeId) : Ages c (c.decLockRef n) :=
  (lock_rel Ages.refl Ages.trans ages_lockTurn c n).2

theorem ages_deleteLeaf (c : RadixCache) (n : NodeId) : Ages c (c.deleteLeaf n) := by
  unfold deleteLeaf
  have herase := ages_nodeMut c (c.node n).parent (f := fun p =>
    { p with children := p.children.erase (getChildKey (c.node n).key c.pageSize) }) fun _ => rfl
  refine Ages.trans ?_ (ages_updateLeafStatus _ _)
  exact herase.trans (Ages.of_same rfl fun _ => rfl)

theorem ages_evict (c : RadixCache) (e : EvictionHeap) (numTokens : Nat) :
    Ages c (c.evict e numTokens).2 :=
  evict_rel Ages.refl Ages.trans ages_deleteLeaf c e numTokens

/-- **Every call.** -/
theorem Step.ages (h : Step c c') : Ages c c' := by
  cases h with
  | insert params => exact ages_insert c params
  | matchPrefix key => exact ages_matchPrefixWith true c key
  | matchPrefixReadonly key => exact ages_matchPrefixWith false c key
  | evict e numTokens => exact ages_evict c e numTokens
  | incLockRef n _ => exact ages_incLockRef c n
  | decLockRef n _ => exact ages_decLockRef c n

theorem timesPast_new (pageSize : Nat) (disable : Bool) : (new pageSize disable).TimesPast := by
  intro n
  cases n with
  | zero => exact Nat.two_pos
  | succ n => exact Nat.two_pos

/-! ### Queue references -/

theorem ages_setQueueRef (c : RadixCache) (n : NodeId) (f : Nat → Nat) :
    Ages c (c.setQueueRef n f) :=
  ages_nodeMut c n fun _ => rfl

theorem ages_incQueueRef (c : RadixCache) (n : NodeId) : Ages c (c.incQueueRef n) :=
  climb_rel Ages.refl Ages.trans (fun n c => ages_setQueueRef c n _) _ n c

theorem ages_clearQueueRefs (c : RadixCache) (n : NodeId) : Ages c (c.clearQueueRefs n) :=
  climb_rel Ages.refl Ages.trans (fun n c => ages_setQueueRef c n _) _ n c

theorem ages_resetAllQueueRefs (c : RadixCache) : Ages c c.resetAllQueueRefs :=
  resetLoop_rel Ages.refl Ages.trans ages_setQueueRef _ _ c

/-! ### What a match stamps -/

/-- A new upper half is stamped by its own making. -/
theorem splitNode_stamp (c : RadixCache) (ch : NodeId) (len : Nat) :
    ((c.splitNode ch len).1.node (c.splitNode ch len).2).lastAccessTime = c.clock :=
  (proj_splitNode (·.lastAccessTime) (fun _ _ _ _ => rfl) (fun _ _ => rfl) c ch len).1

theorem hit_stamp (c : RadixCache) (i j : NodeId) :
    ((c.nodeMut j fun m => { m with hitCount := m.hitCount + 1 }).node i).lastAccessTime =
      (c.node i).lastAccessTime :=
  proj_nodeMut (·.lastAccessTime) c j (fun m => { m with hitCount := m.hitCount + 1 })
    (fun _ => rfl) i

/-- Where a walk rests, the node has the walk's reading, or is new. -/
theorem matchLoop_stamp (t : Nat) (S : List ChildKey) : ∀ (fuel : Nat) (c : RadixCache)
    (n : NodeId) (key : RadixKey) (value : List Index) (k : Nat), WF c live rp pv →
      WalkAt c live rp S k n key → S.length ≤ k + fuel → (c.node n).lastAccessTime = t →
      ∃ e o k', Stopped c.heap live rp S e o k' ∧
        ((matchLoop true t fuel c n key value).1.node
          (matchLoop true t fuel c n key value).2.2).lastAccessTime =
          if o < (c.heap.edge e).length then c.clock else t := by
  -- where the walk rests at a node, the node was touched when it was reached
  have hrest : ∀ {c : RadixCache} {n : NodeId} {k : Nat},
      Stopped c.heap live rp S n (c.heap.edge n).length k → (c.node n).lastAccessTime = t →
      ∃ e o k', Stopped c.heap live rp S e o k' ∧
        (c.node n).lastAccessTime = if o < (c.heap.edge e).length then c.clock else t := by
    intro c n k hstop ht
    exact ⟨n, _, k, hstop, by rw [ht, if_neg (Nat.lt_irrefl _)]⟩
  intro fuel
  induction fuel with
  | zero =>
      intro c n key value k _ hw hlen ht
      exact hrest (hw.stopped (hw.over_whole hlen)) ht
  | succ fuel ih =>
      intro c n key value k h hw hlen ht
      have hps := h.pageSize_pos
      unfold matchLoop
      by_cases hpos : key.length > 0
      · rw [if_pos hpos]
        cases hkid : (c.node n).children.lookup (getChildKey key c.pageSize) with
        | none => exact hrest (hw.stopped (hw.over_none hps hpos hkid)) ht
        | some ch =>
            have hkid : c.heap.kid n (getChildKey key c.pageSize) = some ch := hkid
            have hch := h.labelled.kidLive hw.live hkid
            have hsame := sameTree_nodeMut c ch (bookkeeping_accessTime t)
            simp only [if_true]
            set c1 := c.nodeMut ch fun m => { m with lastAccessTime := t } with hc1
            have htouch : (c1.node ch).lastAccessTime = t := by
              rw [hc1, node_nodeMut_self _ _ (h.bound ch hch)]
            rw [hw.keyMatch_eq h hkid hsame, hsame.key]
            obtain ⟨hlpos, -⟩ := hw.advance h hpos hkid
            set l := lcpLen (c.heap.edge ch) (S.drop k) with hl
            by_cases hcut : c.pageSize * l < (c.node ch).key.length
            · rw [if_pos hcut]
              obtain ⟨hlt, hstop⟩ := hw.stopped_cut hps hpos hkid hcut
              refine ⟨ch, l, k + l, hstop, ?_⟩
              rw [if_pos hlt]
              exact (hit_stamp _ _ _).trans (splitNode_stamp c1 ch _)
            · rw [if_neg hcut]
              have hsame := hsame.trans (sameTree_nodeMut c1 ch bookkeeping_hitCount)
              set c2 := c1.nodeMut ch fun m => { m with hitCount := m.hitCount + 1 } with hc2
              have htouch : (c2.node ch).lastAccessTime = t := (hit_stamp c1 ch ch).trans htouch
              obtain ⟨e, o, k', hstop, hstamp⟩ := ih c2 ch (key.drop (c.pageSize * l))
                (value ++ (c2.node ch).value) (k + l) (h.sameTree hsame)
                ((hw.next h hpos hkid hcut).sameTree hsame) (by omega) htouch
              rw [hsame.heap_eq] at hstop hstamp
              exact ⟨e, o, k', hstop, hstamp⟩
      · rw [if_neg hpos]
        exact hrest (hw.stopped (hw.over_end hps hpos)) ht

/--
**The access time a match leaves where it ends** is that of its own reading; and where it ends
inside a segment, that of the reading after it.
-/
theorem matchPrefix_stamp (h : WF c live rp pv) {key : RadixKey} (hne : c.matchSymbols key ≠ []) :
    ((∃ n, c.EndsInside key n) → ((c.matchPrefix key).2.node
      (c.matchPrefix key).1.lastDeviceNode).lastAccessTime = c.clock + 1) ∧
    ((¬ ∃ n, c.EndsInside key n) → ((c.matchPrefix key).2.node
      (c.matchPrefix key).1.lastDeviceNode).lastAccessTime = c.clock) := by
  obtain ⟨hwalk, hfuel⟩ := walkAt_root h hne
  obtain ⟨hsame, -⟩ := sameTree_touchRoot true c
  have hroot : ((c.touchRoot true).node rootNode).lastAccessTime = c.clock := by
    show (((c.tick 1).nodeMut rootNode fun n =>
      { n with lastAccessTime := c.clock }).node rootNode).lastAccessTime = c.clock
    rw [node_nodeMut_self _ _ (by rw [size_tick]; exact h.bound _ h.labelled.rootLive)]
  obtain ⟨e, o, k, hstop, hstamp⟩ := matchLoop_stamp c.clock (c.matchSymbols key)
    (c.pageAlign key).length (c.touchRoot true) rootNode (c.pageAlign key) [] 0 (h.sameTree hsame)
    (hwalk.sameTree hsame) hfuel hroot
  rw [hsame.heap_eq] at hstop hstamp
  have hinside : (∃ n, c.EndsInside key n) ↔ o < (c.heap.edge e).length := by
    simp only [endsInside_iff h hstop, exists_eq_left]
  unfold matchPrefix
  rw [matchPrefixWith_of_ne_nil h.pageSize_pos true hne, hinside]
  refine ⟨fun hlt => ?_, fun hlt => ?_⟩
  · rw [if_pos hlt] at hstamp
    exact hstamp
  · rw [if_neg hlt] at hstamp
    exact hstamp

/-! ### Where a cached prefix ends, after splits -/

theorem OnlySplits.longestCached_iff (hs : OnlySplits c c') (h : Sound c) {key : RadixKey}
    {q : List ChildKey} : c'.LongestCached key q ↔ c.LongestCached key q := by
  unfold LongestCached
  rw [hs.matchSymbols_eq h]
  exact and_congr_right fun _ => forall_congr' fun p => imp_congr_right fun _ =>
    iff_congr (hs.holds_iff h) Iff.rfl

/-- Where a cached prefix ends at a node, there are symbols to match, and indices to return. -/
theorem EndsAt.matched {key : RadixKey} {n : NodeId} (hn : c.EndsAt key n) (h : Sound c)
    (hs : OnlySplits c c') :
    c'.matchSymbols key ≠ [] ∧ 0 < (c'.matchPrefix key).1.deviceIndices.length := by
  have h' : Sound c' := hs.sound h
  obtain ⟨q, hq, -, p, -, -, -, hlen, -⟩ := hn
  have hpos : 0 < q.length := Nat.zero_lt_of_lt hlen
  have hq := (hs.longestCached_iff h).mpr hq
  obtain ⟨k, -, hcount, hheld⟩ := h'.length_matchPrefix key
  have hk : q.length ≤ k := by
    refine (hheld q.length hq.1.length_le).mp ?_
    rw [← List.prefix_iff_eq_take.mp hq.1]
    exact (hq.2 q hq.1).mpr (List.prefix_refl q)
  obtain ⟨live, rp, pv, hwf⟩ := h'
  refine ⟨List.ne_nil_of_length_pos (Nat.lt_of_lt_of_le hpos hq.1.length_le), ?_⟩
  rw [hcount]
  exact Nat.mul_pos hwf.pageSize_pos (Nat.lt_of_lt_of_le hpos hk)

end RadixCache

end Peek
