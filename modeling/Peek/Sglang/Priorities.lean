/-
Eviction by priority (`PriorityStrategy` in `patched_files/evict_policy.py`).

The heap holds leaves only.  That a victim is worth no more than any node that could go, inner
nodes and all, rests on the priorities: an insertion raises all of its path, and the node that a
split puts above another takes over the other's priority, so priorities never rise on the way
down (`PriorityFalls`).  Then below an unlocked node there is a leaf in the heap that is worth no
more than the node, and the victim no more than the leaf.
-/
import Peek.Sglang.Clock
import Peek.Sglang.QueueAware

namespace Peek

open Radix ParentChain

namespace RadixCache

variable {c c' : RadixCache} {live : Set NodeId} {rp : NodeId → List ChildKey}
  {pv : NodeId → List Index} {locks refs : List NodeId}

/-- `PriorityStrategy.get_priority` -/
def priorityStrategy (c : RadixCache) (n : NodeId) : Int ×ₗ Nat :=
  toLex ((c.node n).priority, (c.node n).lastAccessTime)

/-- Nothing is worth more than what it hangs under. -/
def PriorityFalls (c : RadixCache) : Prop :=
  ∀ n, n < c.nodes.size → n ≠ rootNode → (c.node n).priority ≤ (c.node (c.parentOf n)).priority

/-! ### What writes no priority -/

/-- The same objects, links and priorities. -/
structure SamePriorities (c c' : RadixCache) : Prop where
  size : c'.nodes.size = c.nodes.size
  parent : ∀ n, c'.parentOf n = c.parentOf n
  priority : ∀ n, (c'.node n).priority = (c.node n).priority

namespace SamePriorities

theorem refl (c : RadixCache) : SamePriorities c c := ⟨rfl, fun _ => rfl, fun _ => rfl⟩

theorem trans {c1 c2 c3 : RadixCache} (h : SamePriorities c1 c2) (h' : SamePriorities c2 c3) :
    SamePriorities c1 c3 where
  size := h'.size.trans h.size
  parent n := (h'.parent n).trans (h.parent n)
  priority n := (h'.priority n).trans (h.priority n)

theorem falls (h : SamePriorities c c') (hf : PriorityFalls c) : PriorityFalls c' := by
  intro n hn hr
  rw [h.size] at hn
  rw [h.priority, h.parent, h.priority]
  exact hf n hn hr

theorem of_node (hsize : c'.nodes.size = c.nodes.size) (hnode : ∀ n, c'.node n = c.node n) :
    SamePriorities c c' where
  size := hsize
  parent n := congrArg (·.parent) (hnode n)
  priority n := congrArg (·.priority) (hnode n)

end SamePriorities

theorem samePriorities_nodeMut (c : RadixCache) (j : NodeId) {f : TreeNode → TreeNode}
    (hp : ∀ n, (f n).parent = n.parent) (hf : ∀ n, (f n).priority = n.priority) :
    SamePriorities c (c.nodeMut j f) where
  size := size_nodeMut c j f
  parent := proj_nodeMut (·.parent) c j f hp
  priority := proj_nodeMut (·.priority) c j f hf

theorem samePriorities_ite (b : Bool) (c : RadixCache) (j : NodeId) {f : TreeNode → TreeNode}
    (hp : ∀ n, (f n).parent = n.parent) (hf : ∀ n, (f n).priority = n.priority) :
    SamePriorities c (if b then c.nodeMut j f else c) := by
  cases b with
  | true => exact samePriorities_nodeMut c j hp hf
  | false => exact SamePriorities.refl c

theorem samePriorities_deleteLeaf (c : RadixCache) (n : NodeId) :
    SamePriorities c (c.deleteLeaf n) where
  size := by
    unfold deleteLeaf
    rw [size_updateLeafStatus]
    exact size_nodeMut c _ _
  parent := proj_deleteLeaf (·.parent) (fun _ _ => rfl) c n
  priority := proj_deleteLeaf (·.priority) (fun _ _ => rfl) c n

theorem samePriorities_afterDeleting (c : RadixCache) (victims : List NodeId) :
    SamePriorities c (c.afterDeleting victims) := by
  induction victims generalizing c with
  | nil => exact SamePriorities.refl c
  | cons n victims ih => exact (samePriorities_deleteLeaf c n).trans (ih (c.deleteLeaf n))

theorem samePriorities_lockTurn (c : RadixCache) (n : NodeId) (b : Prop) [Decidable b]
    (evictable guarded : Int) (g : Int → Int) :
    SamePriorities c (((if b then { c with evictableSize := evictable, protectedSize := guarded }
      else c).nodeMut n fun m => { m with lockRef := g m.lockRef }).updateLeafStatus n) := by
  have hsizes : SamePriorities c
      (if b then { c with evictableSize := evictable, protectedSize := guarded } else c) := by
    split
    · exact SamePriorities.of_node rfl fun _ => rfl
    · exact SamePriorities.refl c
  refine (hsizes.trans (samePriorities_nodeMut _ n (f := fun m => { m with lockRef := g m.lockRef })
    (fun _ => rfl) fun _ => rfl)).trans ?_
  exact SamePriorities.of_node (size_updateLeafStatus _ n) (node_updateLeafStatus _ n)

theorem samePriorities_setQueueRef (c : RadixCache) (n : NodeId) (f : Nat → Nat) :
    SamePriorities c (c.setQueueRef n f) :=
  samePriorities_nodeMut c n (fun _ => rfl) fun _ => rfl

theorem samePriorities_incQueueRef (c : RadixCache) (n : NodeId) :
    SamePriorities c (c.incQueueRef n) :=
  climb_rel SamePriorities.refl SamePriorities.trans
    (fun n c => samePriorities_setQueueRef c n _) _ n c

theorem samePriorities_resetAllQueueRefs (c : RadixCache) :
    SamePriorities c c.resetAllQueueRefs :=
  resetLoop_rel SamePriorities.refl SamePriorities.trans samePriorities_setQueueRef _ _ c

/-! ### What writes priorities -/

/-- The node above takes over the priority of the node below. -/
theorem priorityFalls_splitNode (hf : PriorityFalls c) (hc : Chained c) {ch : NodeId}
    (hch : ch < c.nodes.size) (hr : ch ≠ rootNode) (len : Nat) :
    PriorityFalls (c.splitNode ch len).1 := by
  obtain ⟨hsize, hbelow, habove, hsame, -⟩ := splitNode_links c hch len
  obtain ⟨hupper, hold⟩ :=
    proj_splitNode (·.priority) (fun _ _ _ _ => rfl) (fun _ _ => rfl) c ch len
  have hupper : ((c.splitNode ch len).1.node c.nodes.size).priority = (c.node ch).priority := hupper
  intro n hn hnr
  rw [hsize] at hn
  by_cases hnu : n = c.nodes.size
  · rw [hnu, habove, hupper, hold _ (hc.parent ch hch hr)]
    exact hf ch hch hr
  · have hn : n < c.nodes.size := by omega
    by_cases hnc : n = ch
    · rw [hnc, hbelow, hupper, hold ch hch]
    · rw [hsame n hn hnc, hold n hn, hold _ (hc.parent n hn hnr)]
      exact hf n hn hnr

/-- A priority may be raised as far as the node above has been. -/
theorem priorityFalls_raise (hf : PriorityFalls c) {j : NodeId} {p : Int}
    (hle : j ≠ rootNode → p ≤ (c.node (c.parentOf j)).priority) {f : TreeNode → TreeNode}
    (hp : ∀ n, (f n).parent = n.parent) (hmax : ∀ n, (f n).priority = max n.priority p) :
    PriorityFalls (c.nodeMut j f) := by
  intro n hn hr
  rw [size_nodeMut] at hn
  have hparent : (c.nodeMut j f).parentOf n = c.parentOf n := proj_nodeMut (·.parent) c j f hp n
  have hup : ∀ m, (c.node m).priority ≤ ((c.nodeMut j f).node m).priority := by
    intro m
    rcases node_nodeMut_or c j f m with heq | heq
    · rw [heq]
    · rw [heq, hmax]
      exact le_max_left _ _
  rw [hparent]
  refine le_trans ?_ (hup (c.parentOf n))
  by_cases hnj : n = j
  · subst hnj
    rw [node_nodeMut_self c f hn, hmax]
    exact max_le (hf n hn hr) (hle hr)
  · rw [node_nodeMut_ne c f hnj]
    exact hf n hn hr

theorem priorityFalls_addLeaf (hf : PriorityFalls c) (hc : Chained c) {w : InsertWalk}
    (hw : w.node < c.nodes.size) {priority : Int} (hle : priority ≤ (c.node w.node).priority) :
    PriorityFalls (c.addLeaf w priority) := by
  obtain ⟨hsize, hparent, hsame, -⟩ := addLeaf_links c w priority
  obtain ⟨hnew, hold⟩ := node_pushNode c (c.newLeaf w priority)
  have hpriority : ∀ n, ((c.addLeaf w priority).node n).priority =
      ((c.pushNode (c.newLeaf w priority)).node n).priority := fun n => by
    unfold addLeaf
    rw [node_updateLeafStatus, node_updateLeafStatus, node_linkLeaf]
    exact proj_nodeMut (·.priority) _ w.node (c.withLeaf w) (fun _ => rfl) n
  intro n hn hr
  rw [hsize] at hn
  by_cases hnu : n = c.nodes.size
  · rw [hnu, hparent, hpriority, hpriority, hnew, hold _ hw]
    exact hle
  · have hn : n < c.nodes.size := by omega
    rw [hsame n hn, hpriority, hpriority, hold n hn, hold _ (hc.parent n hn hr)]
    exact hf n hn hr

/-! ### The walks -/

theorem matchLoop_falls (updateLru : Bool) (t : Nat) :
    ∀ (fuel : Nat) (c : RadixCache) (n : NodeId) (key : RadixKey) (value : List Index),
      WF c live rp pv → Chained c → PriorityFalls c → n ∈ live →
      PriorityFalls (matchLoop updateLru t fuel c n key value).1 := by
  intro fuel
  induction fuel with
  | zero => intro c n key value _ _ hf _; exact hf
  | succ fuel ih =>
      intro c n key value h hc hf hn
      unfold matchLoop
      by_cases hpos : key.length > 0
      · rw [if_pos hpos]
        cases hkid : (c.node n).children.lookup (getChildKey key c.pageSize) with
        | none => exact hf
        | some ch =>
            have hkid : c.heap.kid n (getChildKey key c.pageSize) = some ch := hkid
            have hch := h.labelled.kidLive hn hkid
            have hr := h.labelled.kid_ne_root hn hkid
            obtain ⟨h1, hmove⟩ := touch_ite_moves updateLru h ch (bookkeeping_accessTime t)
              (fun _ => rfl) fun _ => rfl
            have hf1 := (samePriorities_ite updateLru c ch
              (f := fun m => { m with lastAccessTime := t }) (fun _ => rfl) fun _ => rfl).falls hf
            have hc1 := hmove.keeps.chained hc
            simp only
            set c1 := if updateLru = true then
              c.nodeMut ch fun m => { m with lastAccessTime := t } else c
            by_cases hcut : keyMatch c1.pageSize (c1.node ch).key key < (c1.node ch).key.length
            · rw [if_pos hcut]
              exact (samePriorities_ite updateLru _ _
                (f := fun m => { m with hitCount := m.hitCount + 1 }) (fun _ => rfl)
                fun _ => rfl).falls (priorityFalls_splitNode hf1 hc1 (h1.bound ch hch) hr _)
            · rw [if_neg hcut]
              obtain ⟨h2, hmove2⟩ := touch_ite_moves updateLru h1 ch bookkeeping_hitCount
                (fun _ => rfl) fun _ => rfl
              have hf2 := (samePriorities_ite updateLru c1 ch
                (f := fun m => { m with hitCount := m.hitCount + 1 }) (fun _ => rfl)
                fun _ => rfl).falls hf1
              exact ih _ ch _ _ h2 (hmove2.keeps.chained hc1) hf2 hch
      · rw [if_neg hpos]
        exact hf

theorem matchPrefixWith_falls (h : WF c live rp pv) (hc : Chained c) (hf : PriorityFalls c)
    (updateLru : Bool) (key : RadixKey) : PriorityFalls (c.matchPrefixWith updateLru key).2 := by
  rw [matchPrefixWith_eq]
  split
  · exact hf
  · have hstart : WF (c.touchRoot updateLru) live rp pv ∧ Chained (c.touchRoot updateLru) ∧
        PriorityFalls (c.touchRoot updateLru) := by
      cases updateLru with
      | true =>
          obtain ⟨h1, hmove⟩ := touch_moves (h.sameTree (sameTree_tick c 1)) rootNode
            (bookkeeping_accessTime c.clock) (fun _ => rfl) fun _ => rfl
          have htick : SamePriorities c (c.tick 1) := SamePriorities.of_node rfl fun _ => rfl
          exact ⟨h1, (Moves.keeps (hmove.head (Move.tick c live 1))).chained hc,
            (htick.trans (samePriorities_nodeMut _ rootNode
              (f := fun m => { m with lastAccessTime := c.clock }) (fun _ => rfl)
              fun _ => rfl)).falls hf⟩
      | false => exact ⟨h, hc, hf⟩
    exact matchLoop_falls updateLru c.clock _ _ rootNode _ [] hstart.1 hstart.2.1 hstart.2.2
      h.labelled.rootLive

/-- The node the walk has come to is worth what is inserted, so what it goes to may be, too. -/
theorem insertLoop_falls (priority : Int) (t : Nat) :
    ∀ (fuel : Nat) (c : RadixCache) (live : Set NodeId) (rp : NodeId → List ChildKey)
      (pv : NodeId → List Index) (w : InsertWalk), WF c live rp pv → Chained c →
      PriorityFalls c → w.node ∈ live → priority ≤ (c.node w.node).priority →
      PriorityFalls (insertLoop priority t fuel c w).1 ∧
        priority ≤ ((insertLoop priority t fuel c w).1.node
          (insertLoop priority t fuel c w).2.node).priority := by
  intro fuel
  induction fuel with
  | zero => intro c live rp pv w _ _ hf _ hle; exact ⟨hf, hle⟩
  | succ fuel ih =>
      intro c live rp pv w h hc hf hw hle
      unfold insertLoop
      by_cases hpos : w.key.length > 0
      · rw [if_pos hpos]
        cases hkid : (c.node w.node).children.lookup (getChildKey w.key c.pageSize) with
        | none => exact ⟨hf, hle⟩
        | some ch =>
            have hkid : c.heap.kid w.node (getChildKey w.key c.pageSize) = some ch := hkid
            have hch := h.labelled.kidLive hw hkid
            have hr := h.labelled.kid_ne_root hw hkid
            have hparent : c.parentOf ch = w.node := h.labelled.kidParent hw hkid
            obtain ⟨h1, hmove⟩ := touch_moves h ch (bookkeeping_accessTime t)
              (fun _ => rfl) fun _ => rfl
            have hsame := sameTree_nodeMut c ch (bookkeeping_accessTime t)
            have hp1 := samePriorities_nodeMut c ch
              (f := fun m => { m with lastAccessTime := t }) (fun _ => rfl) fun _ => rfl
            simp only
            set c1 := c.nodeMut ch fun m => { m with lastAccessTime := t } with hc1
            have hkid1 : c1.heap.kid w.node (getChildKey w.key c1.pageSize) = some ch := by
              rw [hsame.heap_eq, hsame.pageSize]; exact hkid
            have hch1 := h1.bound ch hch
            have hchained := hmove.keeps.chained hc
            have hf1 := hp1.falls hf
            have hle1 : priority ≤ (c1.node w.node).priority := hle.trans (hp1.priority _).ge
            have hparent1 : c1.parentOf ch = w.node := (hp1.parent ch).trans hparent
            -- raised to what is inserted, the node is worth that
            have hraised : ∀ {c : RadixCache} {j : NodeId}, j < c.nodes.size → priority ≤
                ((c.nodeMut j fun m => { m with priority := max m.priority priority }).node
                  j).priority := by
              intro c j hj
              rw [node_nodeMut_self _ _ hj]
              exact le_max_right _ _
            by_cases hcut : keyMatch c1.pageSize (c1.node ch).key w.key < (c1.node ch).key.length
            · rw [if_pos hcut]
              obtain ⟨live2, rp2, pv2, h2, hmove2, -, hu⟩ := keyMatch_lt_split h1 hw hpos hkid1 hcut
              set len := keyMatch c1.pageSize (c1.node ch).key w.key
              obtain ⟨h3, hmove3⟩ := touch_moves h2 (c1.splitNode ch len).2
                (bookkeeping_priority priority) (fun _ => rfl) fun _ => rfl
              obtain ⟨-, -, habove, -⟩ := splitNode_links c1 hch1 len
              obtain ⟨-, hold⟩ :=
                proj_splitNode (·.priority) (fun _ _ _ _ => rfl) (fun _ _ => rfl) c1 ch len
              have hf2 := priorityFalls_splitNode hf1 hchained hch1 hr len
              have hf3 := priorityFalls_raise hf2 (j := (c1.splitNode ch len).2) (p := priority)
                (f := fun m => { m with priority := max m.priority priority })
                (fun _ => ?_) (fun _ => rfl) fun _ => rfl
              · exact ih _ live2 rp2 pv2 { w with
                    node := (c1.splitNode ch len).2, key := w.key.drop len
                    value := w.value.drop len, totalPrefixLength := w.totalPrefixLength + len }
                  h3 ((Moves.keeps (hmove2.trans hmove3)).chained hchained) hf3 hu
                  (hraised (h2.bound _ hu))
              · show priority ≤ ((c1.splitNode ch len).1.node
                  ((c1.splitNode ch len).1.parentOf c1.nodes.size)).priority
                rw [habove, hparent1, hold _ (h1.bound _ hw)]
                exact hle1
            · rw [if_neg hcut]
              obtain ⟨h2, hmove2⟩ := touch_moves h1 ch (bookkeeping_priority priority)
                (fun _ => rfl) fun _ => rfl
              have hf2 := priorityFalls_raise hf1 (j := ch) (p := priority)
                (f := fun m => { m with priority := max m.priority priority })
                (fun _ => by rw [hparent1]; exact hle1) (fun _ => rfl) fun _ => rfl
              exact ih _ live rp pv { w with
                  node := ch, key := w.key.drop (keyMatch c1.pageSize (c1.node ch).key w.key)
                  value := w.value.drop (keyMatch c1.pageSize (c1.node ch).key w.key)
                  totalPrefixLength :=
                    w.totalPrefixLength + keyMatch c1.pageSize (c1.node ch).key w.key }
                h2 (hmove2.keeps.chained hchained) hf2 hch (hraised hch1)
      · rw [if_neg hpos]
        exact ⟨hf, hle⟩

theorem insert_falls (h : WF c live rp pv) (hc : Chained c) (hf : PriorityFalls c)
    (params : InsertParams) : PriorityFalls (c.insert params).2 := by
  unfold insert
  by_cases hd : c.disable = true
  · rw [if_pos hd]
    exact hf
  · rw [if_neg hd]
    unfold insertHelper
    obtain ⟨h1, hmove⟩ := touch_moves (h.sameTree (sameTree_tick c 1)) rootNode
      ((bookkeeping_accessTime c.clock).comp (bookkeeping_priority params.priority))
      (fun _ => rfl) fun _ => rfl
    have hc1 := (Moves.keeps (hmove.head (Move.tick c live 1))).chained hc
    have htick : SamePriorities c (c.tick 1) := SamePriorities.of_node rfl fun _ => rfl
    have hf1 := priorityFalls_raise (htick.falls hf) (j := rootNode) (p := params.priority)
      (f := fun m => { m with
        lastAccessTime := c.clock, priority := max m.priority params.priority })
      (fun hne => absurd rfl hne) (fun _ => rfl) fun _ => rfl
    by_cases hempty : params.key.length = 0
    · rw [if_pos hempty]
      exact hf1
    · rw [if_neg hempty]
      set c1 := (c.tick 1).nodeMut rootNode fun m => { m with
        lastAccessTime := c.clock, priority := max m.priority params.priority }
      set w : InsertWalk :=
        ⟨rootNode, params.key, params.value.getD params.key.tokenIds, 0⟩
      have hroot : params.priority ≤ (c1.node rootNode).priority := by
        have hself := node_nodeMut_self (c.tick 1) (fun m => { m with
          lastAccessTime := c.clock, priority := max m.priority params.priority })
          (h.bound rootNode h.labelled.rootLive)
        rw [hself]
        exact le_max_right _ _
      obtain ⟨hf2, hle⟩ := insertLoop_falls params.priority c.clock (params.key.length + 1) c1 live
        rp pv w h1 hc1 hf1 h1.labelled.rootLive hroot
      obtain ⟨live2, rp2, pv2, h2, hmove2, hend⟩ := insertLoop_moves params.priority c.clock
        (params.key.length + 1) c1 live rp pv w h1 h1.labelled.rootLive
      simp only
      split
      · exact priorityFalls_addLeaf hf2 (hmove2.keeps.chained hc1) (h2.bound _ hend) hle
      · exact hf2

/-! ### Victims -/

/-- Below an unlocked node there is an unlocked leaf. -/
theorem exists_leaf_below (h : WF c live rp pv) (hb : Balanced c live locks refs) : ∀ n ∈ live,
    (c.node n).lockRef = 0 → ∃ y ∈ c.evictableLeaves, Below c.heap n y := by
  have hfin : live.Finite := (Set.finite_lt_nat c.nodes.size).subset h.bound
  refine h.labelled.down_induction hfin fun n hn ih hl => ?_
  have hr : n ≠ rootNode := by
    rintro rfl
    exact absurd h.rootLock (by rw [hl]; exact Int.lt_irrefl 0)
  by_cases hkids : (c.node n).children.entries = []
  · exact ⟨n, (hb.leaves n).mpr ⟨hn, hr, hkids, Int.le_of_eq hl⟩, Below.refl n⟩
  · rw [Map.entries_eq_nil_iff, not_forall] at hkids
    obtain ⟨a, ha⟩ := hkids
    obtain ⟨k, hk⟩ := Option.ne_none_iff_exists'.mp ha
    have hk : c.heap.kid n a = some k := hk
    have hkl := h.labelled.kidLive hn hk
    have hparent : c.parentOf k = n := h.labelled.kidParent hn hk
    have hlock := hb.locks.le_parent hb.chained hkl (h.labelled.kid_ne_root hn hk)
      (hparent.symm ▸ hn) (hparent.symm ▸ hr)
    rw [hparent] at hlock
    obtain ⟨y, hy, hbelow⟩ := ih a k hk
      (Int.le_antisymm (hlock.trans (Int.le_of_eq hl)) (hb.lock_nonneg h hkl))
    exact ⟨y, hy, Below.step hk hbelow⟩

/-- What hangs below a node is worth no more. -/
theorem PriorityFalls.below (hf : PriorityFalls c) (h : WF c live rp pv) {n m : NodeId}
    (hb : Below c.heap n m) : n ∈ live → (c.node m).priority ≤ (c.node n).priority := by
  induction hb with
  | refl n => exact fun _ => le_refl _
  | @step n k m a hk hb ih =>
      intro hn
      have hkl := h.labelled.kidLive hn hk
      have hparent : c.parentOf k = n := h.labelled.kidParent hn hk
      have hle := hf k (h.bound k hkl) (h.labelled.kid_ne_root hn hk)
      rw [hparent] at hle
      exact (ih hkl).trans hle

/-- The priority decides before the access time. -/
theorem priority_le_of_le {x y : NodeId} (hle : priorityStrategy c x ≤ priorityStrategy c y) :
    (c.node x).priority ≤ (c.node y).priority := by
  rw [priorityStrategy, priorityStrategy, Prod.Lex.le_iff] at hle
  rcases hle with hlt | ⟨heq, -⟩
  · exact le_of_lt hlt
  · exact le_of_eq heq

theorem priorityStrategy_deleteLeaf (c : RadixCache) (n m : NodeId) :
    priorityStrategy (c.deleteLeaf n) m = priorityStrategy c m := by
  unfold priorityStrategy
  rw [proj_deleteLeaf (·.priority) (fun _ _ => rfl),
    proj_deleteLeaf (·.lastAccessTime) fun _ _ => rfl]

end RadixCache

namespace HeldCache

open RadixCache

variable {s s' : HeldCache}

/-! ### Runs -/

/-- The tree is in order, all links lead to the root, and no priority rises on the way down. -/
def Falling (s : HeldCache) : Prop :=
  ∃ live rp pv, WF s.cache live rp pv ∧ Chained s.cache ∧ PriorityFalls s.cache

theorem new_falling {pageSize : Nat} (hps : 0 < pageSize) (disable : Bool) :
    Falling (new pageSize disable) := by
  have hroot : ∀ n, n < (new pageSize disable).cache.nodes.size → n = rootNode := fun n hn =>
    Nat.lt_one_iff.mp hn
  refine ⟨_, _, _, new_wf hps disable, ⟨Nat.one_pos, fun n hn hr => absurd (hroot n hn) hr,
    fun n hn => ?_⟩, fun n hn hr => absurd (hroot n hn) hr⟩
  rw [hroot n hn]
  exact ⟨0, Up.root⟩

theorem Falling.step (h : Falling s) (hs : Step s s') : Falling s' := by
  obtain ⟨live, rp, pv, h, hc, hf⟩ := h
  cases hs with
  | insert params =>
      obtain ⟨live', rp', pv', hwf, hmove⟩ := insert_moves h params
      exact ⟨live', rp', pv', hwf, hmove.keeps.chained hc, insert_falls h hc hf params⟩
  | matchPrefix key =>
      obtain ⟨live', rp', pv', hwf, hmove, -⟩ := matchPrefixWith_moves h true key
      exact ⟨live', rp', pv', hwf, hmove.keeps.chained hc, matchPrefixWith_falls h hc hf true key⟩
  | matchPrefixReadonly key =>
      obtain ⟨live', rp', pv', hwf, hmove, -⟩ := matchPrefixWith_moves h false key
      exact ⟨live', rp', pv', hwf, hmove.keeps.chained hc, matchPrefixWith_falls h hc hf false key⟩
  | incLockRef n hn =>
      exact ⟨live, rp, pv, incLockRef_wf h (h.inTree_iff.mp hn),
        (lockOnly_incLockRef s.cache n).chained hc,
        (lock_rel SamePriorities.refl SamePriorities.trans samePriorities_lockTurn
          s.cache n).1.falls hf⟩
  | decLockRef n hn hl =>
      exact ⟨live, rp, pv, decLockRef_wf h (h.inTree_iff.mp hn),
        (lockOnly_decLockRef s.cache n).chained hc,
        (lock_rel SamePriorities.refl SamePriorities.trans samePriorities_lockTurn
          s.cache n).2.falls hf⟩
  | incQueueRef n hn =>
      have hq := queueOnly_incQueueRef s.cache n
      exact ⟨live, rp, pv, h.sameTree hq.toSameTree, hq.chained hc,
        (samePriorities_incQueueRef s.cache n).falls hf⟩
  | resetAllQueueRefs =>
      have hq := queueOnly_resetAllQueueRefs s.cache
      exact ⟨live, rp, pv, h.sameTree hq.toSameTree, hq.chained hc,
        (samePriorities_resetAllQueueRefs s.cache).falls hf⟩
  | evict e numTokens =>
      obtain ⟨live', hwf, hmove⟩ := evict_moves h e numTokens
      refine ⟨live', rp, pv, hwf, hmove.keeps.chained hc, ?_⟩
      show PriorityFalls (s.cache.evict e numTokens).2
      rw [evict_eq]
      exact (samePriorities_afterDeleting s.cache _).falls hf

theorem run_falling {pageSize : Nat} (hps : 0 < pageSize) {disable : Bool}
    (hrun : Relation.ReflTransGen Step (new pageSize disable) s) : Falling s := by
  induction hrun with
  | refl => exact new_falling hps disable
  | tail _ hstep ih => exact ih.step hstep

/--
**Nothing worth more goes before something worth less.**  In any run of calls an eviction by
priority is a series of deletions, and each of them takes an unlocked node than which no unlocked
node of the tree, as it is then, is worth less, be it a leaf or not.
-/
theorem evict_priority {pageSize : Nat} (hps : 0 < pageSize) {disable : Bool}
    (hrun : Relation.ReflTransGen Step (new pageSize disable) s) (q : HeapQ (Int ×ₗ Nat))
    (numTokens : Nat) :
    (s.cache.evict (q.evictionHeap priorityStrategy) numTokens).2 =
      s.cache.afterDeleting (s.cache.evicted (q.evictionHeap priorityStrategy) numTokens) ∧
    ∀ pre x post, s.cache.evicted (q.evictionHeap priorityStrategy) numTokens = pre ++ x :: post →
      (s.cache.afterDeleting pre).InTree x ∧ ((s.cache.afterDeleting pre).node x).lockRef = 0 ∧
      ∀ n, (s.cache.afterDeleting pre).InTree n → ((s.cache.afterDeleting pre).node n).lockRef = 0 →
        ((s.cache.afterDeleting pre).node x).priority ≤
          ((s.cache.afterDeleting pre).node n).priority := by
  refine ⟨evict_eq _ _ _, fun pre x post hx => ?_⟩
  obtain ⟨live, rp, pv, h, hb⟩ := run_inv hps hrun
  have hd : s.cache.disable = false := by
    by_contra hd
    unfold evicted at hx
    rw [if_pos (by simpa using hd)] at hx
    simp at hx
  obtain ⟨refs, hb⟩ := hb hd
  obtain ⟨⟨live', -, hwf, hbal⟩, hleaf, hleast⟩ :=
    evicted_least q priorityStrategy_deleteLeaf h hb hx
  obtain ⟨-, -, -, -, -, hf⟩ := run_falling hps hrun
  have hf := (samePriorities_afterDeleting s.cache pre).falls hf
  obtain ⟨hxl, -, -, hlock⟩ := (hbal.leaves x).mp hleaf
  refine ⟨hwf.inTree_iff.mpr hxl, Int.le_antisymm hlock (hbal.lock_nonneg hwf hxl), ?_⟩
  intro n hn hfree
  have hn := hwf.inTree_iff.mp hn
  -- the leaf below the node is between the two
  obtain ⟨y, hy, hbelow⟩ := exists_leaf_below hwf hbal n hn hfree
  exact (priority_le_of_le (hleast y hy)).trans (hf.below hwf hbelow hn)

/-- A prompt with a priority. -/
def urgentPrompt (tokenIds : List Token) (priority : Int) : InsertParams :=
  { plainPrompt tokenIds with priority := priority }

/-- An urgent prompt, and the beginning of it with another end. -/
def twoUrgencies : HeldCache :=
  { cache := ((createSimulated.insert (urgentPrompt [1, 2] 5)).2.insert
      (urgentPrompt [1, 3] 2)).2
    locks := [] }

/-- The end of the less urgent one goes first, and what they share goes last. -/
theorem evict_priority_two :
    twoUrgencies.cache.evicted (HeapQ.sorted.evictionHeap priorityStrategy) 3 = [3, 1, 2] ∧
    ∀ n, twoUrgencies.cache.InTree n → (twoUrgencies.cache.node n).lockRef = 0 →
      (twoUrgencies.cache.node 3).priority ≤ (twoUrgencies.cache.node n).priority := by
  have h1 := Step.insert (new 1 false) (urgentPrompt [1, 2] 5)
  have h2 := Step.insert ⟨(createSimulated.insert (urgentPrompt [1, 2] 5)).2, []⟩
    (urgentPrompt [1, 3] 2)
  have hrun : Relation.ReflTransGen Step (new 1 false) twoUrgencies :=
    (Relation.ReflTransGen.refl.tail h1).tail h2
  have hlist : twoUrgencies.cache.evicted (HeapQ.sorted.evictionHeap priorityStrategy) 3 =
      [3, 1, 2] := by decide
  exact ⟨hlist, ((evict_priority Nat.one_pos hrun HeapQ.sorted 3).2 [] 3 [1, 2] hlist).2.2⟩

end HeldCache

end Peek
