/-
What the counting calls do to the counts.

`inc_queue_ref`, the two lock calls and the inner loop of `_reset_protection` are climbs
whose turns write one count of the node they are at (`Turn`).  A climb passes no node twice,
so each node on the chain is written once and no other is (`Turn.refs_climb`).  From there,
counting up adds a climb to the entries, counting down takes one out, and clearing the
chains of all entries leaves nothing, which is what clearing the whole tree leaves.
-/
import Peek.Radix.Forest
import Peek.Sglang.ChainsKept
import Peek.Sglang.QueueRefs

namespace Peek

open Radix ParentChain StackWalk

namespace RadixCache

variable {c c' : RadixCache} {live : Set NodeId} {rp : NodeId → List ChildKey}
  {pv : NodeId → List Index} {r r' : RefField} {g : Int → Int}
  {f : NodeId → RadixCache → RadixCache}

/-! ### One turn -/

/-- The turn of a climb at `n` writes the count `r` of `n`, and no other count or link. -/
structure Turn (r : RefField) (g : Int → Int) (f : NodeId → RadixCache → RadixCache) : Prop where
  parents : ∀ n c, (f n c).parentOf = c.parentOf
  size : ∀ n c, (f n c).nodes.size = c.nodes.size
  here : ∀ n c, n < c.nodes.size → ((f n c).node n).refs r = g ((c.node n).refs r)
  elsewhere : ∀ n c m, m ≠ n → ((f n c).node m).refs r = (c.node m).refs r
  other : ∀ n c m r', r' ≠ r → ((f n c).node m).refs r' = (c.node m).refs r'

theorem turn_setQueueRef {h : Nat → Nat} {g : Int → Int} (hg : ∀ k : Nat, ((h k : Nat) : Int) = g k) :
    Turn .queue g fun n c => c.setQueueRef n h where
  parents n c := funext fun m => proj_nodeMut (·.parent) c n
    (fun m => { m with queueRefCount := h m.queueRefCount }) (fun _ => rfl) m
  size n c := size_nodeMut c n _
  here n c hn := by
    unfold setQueueRef
    rw [node_nodeMut_self c _ hn]
    exact hg _
  elsewhere n c m hm := by
    unfold setQueueRef
    rw [node_nodeMut_ne c _ hm]
  other n c m r' hr := by
    cases r' with
    | lock =>
        exact proj_nodeMut (·.lockRef) c n
          (fun m => { m with queueRefCount := h m.queueRefCount }) (fun _ => rfl) m
    | queue => exact absurd rfl hr

/-- A turn of the lock loops; `resize` is what it does to the sizes. -/
theorem turn_lock {h : Int → Int} (resize : NodeId → RadixCache → RadixCache)
    (hr : ∀ n c, (resize n c).nodes = c.nodes) :
    Turn .lock h fun n c => ((resize n c).nodeMut n fun m =>
      { m with lockRef := h m.lockRef }).updateLeafStatus n := by
  set write : TreeNode → TreeNode := fun m => { m with lockRef := h m.lockRef } with hwrite
  have hnode : ∀ n c m, (resize n c).node m = c.node m := by
    intro n c m
    unfold node
    rw [hr]
  have hsize : ∀ n c, (resize n c).nodes.size = c.nodes.size := fun n c => by rw [hr]
  refine ⟨fun n c => funext fun m => ?_, fun n c => ?_, fun n c hn => ?_, fun n c m hm => ?_,
    fun n c m r' hr' => ?_⟩
  · unfold parentOf
    rw [node_updateLeafStatus, proj_nodeMut (·.parent) (resize n c) n write (fun _ => rfl) m, hnode]
  · rw [size_updateLeafStatus, size_nodeMut, hsize]
  · rw [node_updateLeafStatus, node_nodeMut_self _ _ (by rw [hsize]; exact hn), hnode]
    rfl
  · rw [node_updateLeafStatus, node_nodeMut_ne _ _ hm, hnode]
  · rw [node_updateLeafStatus]
    cases r' with
    | lock => exact absurd rfl hr'
    | queue => rw [proj_nodeMut (·.refs .queue) (resize n c) n write (fun _ => rfl) m, hnode]

/-! ### A series of turns -/

theorem Turn.parents_foldl (h : Turn r g f) (nodes : List NodeId) (c : RadixCache) :
    (nodes.foldl (fun c n => f n c) c).parentOf = c.parentOf := by
  induction nodes generalizing c with
  | nil => rfl
  | cons n nodes ih => rw [List.foldl_cons, ih, h.parents]

theorem Turn.size_foldl (h : Turn r g f) (nodes : List NodeId) (c : RadixCache) :
    (nodes.foldl (fun c n => f n c) c).nodes.size = c.nodes.size := by
  induction nodes generalizing c with
  | nil => rfl
  | cons n nodes ih => rw [List.foldl_cons, ih, h.size]

theorem Turn.other_foldl (h : Turn r g f) (hr : r' ≠ r) (nodes : List NodeId) (c : RadixCache)
    (m : NodeId) : ((nodes.foldl (fun c n => f n c) c).node m).refs r' = (c.node m).refs r' := by
  induction nodes generalizing c with
  | nil => rfl
  | cons n nodes ih => rw [List.foldl_cons, ih, h.other n c m r' hr]

/-- A node is written as often as it is met. -/
theorem Turn.refs_foldl (h : Turn r g f) (nodes : List NodeId) (c : RadixCache)
    (hbound : ∀ n ∈ nodes, n < c.nodes.size) (m : NodeId) :
    ((nodes.foldl (fun c n => f n c) c).node m).refs r = g^[nodes.count m] ((c.node m).refs r) := by
  induction nodes generalizing c with
  | nil => rfl
  | cons n nodes ih =>
      have hn := hbound n List.mem_cons_self
      have hrest : ∀ k ∈ nodes, k < (f n c).nodes.size := fun k hk => by
        rw [h.size]; exact hbound k (List.mem_cons_of_mem _ hk)
      rw [List.foldl_cons, ih _ hrest]
      by_cases hm : m = n
      · rw [hm, h.here n c hn, List.count_cons_self, Function.iterate_succ_apply]
      · rw [h.elsewhere n c m hm, List.count_cons_of_ne (Ne.symm hm)]

/-! ### A climb -/

theorem Turn.climb_eq_foldl (h : Turn r g f) : ∀ (fuel : Nat) (n : NodeId) (c : RadixCache),
    climb f fuel n c = (climbed c.parentOf rootNode fuel n).foldl (fun c m => f m c) c := by
  intro fuel
  induction fuel with
  | zero => intro n c; rfl
  | succ fuel ih =>
      intro n c
      unfold climb climbed
      by_cases hr : n = rootNode
      · rw [if_pos hr, if_pos hr]
        rfl
      · have hnext : ((f n c).node n).parent = c.parentOf n := congrFun (h.parents n c) n
        rw [if_neg hr, if_neg hr, List.foldl_cons]
        simp only
        rw [ih, h.parents, hnext]

section Climb

variable (h : Turn r g f) (hc : Chained c) {n : NodeId} (hn : n < c.nodes.size)
include h

theorem Turn.parents_climb (n : NodeId) (c : RadixCache) :
    (climb f c.nodes.size n c).parentOf = c.parentOf := by
  rw [h.climb_eq_foldl, h.parents_foldl]

theorem Turn.size_climb (n : NodeId) (c : RadixCache) :
    (climb f c.nodes.size n c).nodes.size = c.nodes.size := by
  rw [h.climb_eq_foldl, h.size_foldl]

theorem Turn.other_climb (hr : r' ≠ r) (n : NodeId) (c : RadixCache) (m : NodeId) :
    ((climb f c.nodes.size n c).node m).refs r' = (c.node m).refs r' := by
  rw [h.climb_eq_foldl, h.other_foldl hr]

theorem Turn.chained_climb (n : NodeId) (hc : Chained c) :
    Chained (climb f c.nodes.size n c) :=
  chained_of_parentOf (h.parents_climb n c) (h.size_climb n c) hc

include hc hn

/-- **A climb writes the nodes of its chain, each once.** -/
theorem Turn.refs_climb (m : NodeId) : ((climb f c.nodes.size n c).node m).refs r =
    if m ∈ c.chain n then g ((c.node m).refs r) else (c.node m).refs r := by
  obtain ⟨k, -, hk⟩ := hc.up_le hn
  have hnd : (c.chain n).Nodup := nodup_climbed hk c.nodes.size
  have hbound : ∀ m ∈ c.chain n, m < c.nodes.size := fun m hm =>
    ((hc.mem_chain_iff hn m).mp hm).mem hc.closed hn
  rw [h.climb_eq_foldl]
  show (((c.chain n).foldl (fun c m => f m c) c).node m).refs r = _
  rw [h.refs_foldl (c.chain n) c hbound, hnd.count]
  split
  · rfl
  · rfl

end Climb

/-! ### Counting up and down -/

/-- The counts of the same climbs. -/
theorem Counted.of_links {entries : List NodeId} (h : Counted r c live entries)
    (hp : c'.parentOf = c.parentOf) (hsize : c'.nodes.size = c.nodes.size)
    (hrefs : ∀ n, (c'.node n).refs r = (c.node n).refs r) : Counted r c' live entries where
  bound e he := by rw [hsize]; exact h.bound e he
  count n hn hr := by
    rw [hrefs, passing_of_parentOf hp hsize]
    exact h.count n hn hr

theorem passing_perm (c : RadixCache) {entries entries' : List NodeId}
    (h : entries.Perm entries') (n : NodeId) : c.passing entries n = c.passing entries' n :=
  h.countP_eq _

section

variable (hc : Chained c) {entries : List NodeId} (h : Counted r c live entries) {n : NodeId}
include hc h

/-- **Counting up adds a climb.** -/
theorem Counted.up (ht : Turn r (· + 1) f) (hn : n < c.nodes.size) :
    Counted r (climb f c.nodes.size n c) live (n :: entries) where
  bound e he := by
    rw [ht.size_climb]
    rcases List.mem_cons.mp he with rfl | he
    · exact hn
    · exact h.bound e he
  count m hm hr := by
    rw [ht.refs_climb hc hn, passing_of_parentOf (ht.parents_climb n c) (ht.size_climb n c),
      passing_cons, h.count m hm hr]
    split
    · exact (Int.natCast_add _ _).symm
    · rw [Nat.add_zero]

/-- **Counting down takes one back.** -/
theorem Counted.down (ht : Turn r (· - 1) f) (hn : n ∈ entries) :
    Counted r (climb f c.nodes.size n c) live (entries.erase n) where
  bound e he := by
    rw [ht.size_climb]
    exact h.bound e (List.mem_of_mem_erase he)
  count m hm hr := by
    have hperm := List.perm_cons_erase hn
    rw [ht.refs_climb hc (h.bound n hn),
      passing_of_parentOf (ht.parents_climb n c) (ht.size_climb n c), h.count m hm hr,
      passing_perm c hperm, passing_cons]
    split
    · rw [Int.natCast_add]
      exact Int.add_sub_cancel _ _
    · rw [Nat.add_zero]

end

/-! ### The calls -/

theorem turn_inc : Turn .queue (· + 1) fun n c => c.setQueueRef n (· + 1) :=
  turn_setQueueRef fun _ => rfl

theorem turn_clear : Turn .queue (fun _ => 0) fun n c => c.setQueueRef n fun _ => 0 :=
  turn_setQueueRef fun _ => rfl

/-- The sizes a lock call keeps: what comes under its first lock, or out of its last, changes
sides. -/
theorem turn_resize {h : Int → Int} (b : RadixCache → NodeId → Prop)
    [∀ c n, Decidable (b c n)] (evictable guarded : RadixCache → NodeId → Int) :
    Turn .lock h fun n c => ((if b c n then
        { c with evictableSize := evictable c n, protectedSize := guarded c n } else c).nodeMut n
      fun m => { m with lockRef := h m.lockRef }).updateLeafStatus n := by
  refine turn_lock (fun n c => if b c n then
    { c with evictableSize := evictable c n, protectedSize := guarded c n } else c) fun n c => ?_
  split
  · rfl
  · rfl

section

variable {locks refs : List NodeId} {n : NodeId}

theorem counted_incQueueRef (hc : Chained c) (h : Counted .queue c live refs)
    (hn : n < c.nodes.size) : Counted .queue (c.incQueueRef n) live (n :: refs) :=
  h.up hc turn_inc hn

theorem turn_incLock : Turn .lock (· + 1) fun n c => ((if (c.node n).lockRef = 0 then
      { c with
        evictableSize := c.evictableSize - (c.node n).key.length
        protectedSize := c.protectedSize + (c.node n).key.length } else c).nodeMut n
    fun m => { m with lockRef := m.lockRef + 1 }).updateLeafStatus n :=
  turn_resize (fun c n => (c.node n).lockRef = 0) _ _

theorem turn_decLock : Turn .lock (· - 1) fun n c => ((if (c.node n).lockRef = 1 then
      { c with
        evictableSize := c.evictableSize + (c.node n).key.length
        protectedSize := c.protectedSize - (c.node n).key.length } else c).nodeMut n
    fun m => { m with lockRef := m.lockRef - 1 }).updateLeafStatus n :=
  turn_resize (fun c n => (c.node n).lockRef = 1) _ _

theorem counted_incLockRef (hd : c.disable = false) (hc : Chained c)
    (h : Counted .lock c live locks) (hn : n < c.nodes.size) :
    Counted .lock (c.incLockRef n) live (n :: locks) := by
  unfold incLockRef
  rw [if_neg (by rw [hd]; simp)]
  exact h.up hc turn_incLock hn

theorem counted_decLockRef (hd : c.disable = false) (hc : Chained c)
    (h : Counted .lock c live locks) (hn : n ∈ locks) :
    Counted .lock (c.decLockRef n) live (locks.erase n) := by
  unfold decLockRef
  rw [if_neg (by rw [hd]; simp)]
  exact h.down hc turn_decLock hn

end

/-- A lock call keeps the chains and the queue references. -/
structure LockOnly (c c' : RadixCache) : Prop where
  parents : c'.parentOf = c.parentOf
  size : c'.nodes.size = c.nodes.size
  queue : ∀ m, (c'.node m).refs .queue = (c.node m).refs .queue

theorem lockOnly_climb {g : Int → Int} {f : NodeId → RadixCache → RadixCache}
    (ht : Turn .lock g f) (c : RadixCache) (n : NodeId) :
    LockOnly c (if c.disable then c else climb f c.nodes.size n c) := by
  split
  · exact ⟨rfl, rfl, fun _ => rfl⟩
  · refine ⟨ht.parents_climb n c, ht.size_climb n c, ht.other_climb ?_ n c⟩
    simp

theorem lockOnly_incLockRef (c : RadixCache) (n : NodeId) : LockOnly c (c.incLockRef n) :=
  lockOnly_climb turn_incLock c n

theorem lockOnly_decLockRef (c : RadixCache) (n : NodeId) : LockOnly c (c.decLockRef n) :=
  lockOnly_climb turn_decLock c n

theorem LockOnly.chained (h : LockOnly c c') (hc : Chained c) : Chained c' :=
  chained_of_parentOf h.parents h.size hc

theorem LockOnly.counted (h : LockOnly c c') {refs : List NodeId}
    (hcount : Counted .queue c live refs) : Counted .queue c' live refs :=
  hcount.of_links h.parents h.size h.queue

/-- Queue references are all that changed. -/
structure QueueOnly (c c' : RadixCache) : Prop extends SameTree c c' where
  locks : ∀ m, (c'.node m).lockRef = (c.node m).lockRef
  sameDisable : c'.disable = c.disable

theorem QueueOnly.refl (c : RadixCache) : QueueOnly c c := ⟨SameTree.refl c, fun _ => rfl, rfl⟩

theorem QueueOnly.trans {c1 c2 c3 : RadixCache} (h : QueueOnly c1 c2) (h' : QueueOnly c2 c3) :
    QueueOnly c1 c3 :=
  ⟨h.toSameTree.trans h'.toSameTree, fun m => (h'.locks m).trans (h.locks m),
    h'.sameDisable.trans h.sameDisable⟩

theorem queueOnly_setQueueRef (c : RadixCache) (n : NodeId) (h : Nat → Nat) :
    QueueOnly c (c.setQueueRef n h) :=
  ⟨sameTree_nodeMut c n (bookkeeping_queueRef h),
    proj_nodeMut (·.lockRef) c n (fun m => { m with queueRefCount := h m.queueRefCount })
      fun _ => rfl, rfl⟩

theorem queueOnly_foldl {f : RadixCache → NodeId → RadixCache} (hf : ∀ c n, QueueOnly c (f c n))
    (nodes : List NodeId) (c : RadixCache) : QueueOnly c (nodes.foldl f c) :=
  foldl_rel QueueOnly.refl QueueOnly.trans hf nodes c

theorem queueOnly_incQueueRef (c : RadixCache) (n : NodeId) : QueueOnly c (c.incQueueRef n) :=
  climb_rel QueueOnly.refl QueueOnly.trans (fun n c => queueOnly_setQueueRef c n _) _ n c

theorem queueOnly_clearQueueRefs (c : RadixCache) (n : NodeId) :
    QueueOnly c (c.clearQueueRefs n) :=
  climb_rel QueueOnly.refl QueueOnly.trans (fun n c => queueOnly_setQueueRef c n _) _ n c

theorem QueueOnly.chained (h : QueueOnly c c') (hc : Chained c) : Chained c' :=
  chained_of_parentOf (funext h.parent) h.size hc

/-! ### Clearing the chains of some entries -/

section

variable {prev : List NodeId}

/-- What lies on one of the chains is cleared, and nothing else. -/
theorem refs_clearChains (hc : Chained c) (hprev : ∀ e ∈ prev, e < c.nodes.size) (m : NodeId) :
    ((prev.foldl clearQueueRefs c).node m).refs .queue =
      if ∃ e ∈ prev, m ∈ c.chain e then 0 else (c.node m).refs .queue := by
  induction prev generalizing c with
  | nil => simp
  | cons e prev ih =>
      have he := hprev e List.mem_cons_self
      have hparents : (c.clearQueueRefs e).parentOf = c.parentOf := turn_clear.parents_climb e c
      have hsize : (c.clearQueueRefs e).nodes.size = c.nodes.size := turn_clear.size_climb e c
      have hchain : (c.clearQueueRefs e).chain = c.chain := by
        unfold chain
        rw [hparents, hsize]
      have hrefs : ((c.clearQueueRefs e).node m).refs .queue =
          if m ∈ c.chain e then 0 else (c.node m).refs .queue := turn_clear.refs_climb hc he m
      have hc' : Chained (c.clearQueueRefs e) := turn_clear.chained_climb e hc
      rw [List.foldl_cons, ih hc' fun k hk => by
        rw [hsize]; exact hprev k (List.mem_cons_of_mem _ hk), hchain, hrefs]
      simp only [List.exists_mem_cons_iff]
      by_cases hm : m ∈ c.chain e
      · simp [hm]
      · simp [hm]

/-- **The chains of all that was counted are all there is to clear.** -/
theorem clearChains_zero (hc : Chained c) {refs : List NodeId} (h : Counted .queue c live refs)
    (hsub : refs ⊆ prev) (hprev : ∀ e ∈ prev, e < c.nodes.size) {n : NodeId} (hn : n ∈ live)
    (hr : n ≠ rootNode) : ((prev.foldl clearQueueRefs c).node n).refs .queue = 0 := by
  rw [refs_clearChains hc hprev]
  split
  · rfl
  · next hnone =>
      rw [h.count n hn hr, Int.natCast_eq_zero]
      unfold passing
      rw [List.countP_eq_zero]
      intro e he hmem
      exact hnone ⟨e, hsub he, decide_eq_true_eq.mp hmem⟩

end

/-! ### Clearing the whole tree -/

/-- The children of a node, in the order in which they are popped. -/
def kids (c : RadixCache) (n : NodeId) : List NodeId := (Map.values (c.node n).children).reverse

theorem mem_kids {n k : NodeId} : k ∈ c.kids n ↔ ∃ a, c.heap.kid n a = some k := by
  unfold kids
  rw [List.mem_reverse, Map.mem_values]
  rfl

theorem listsKids (c : RadixCache) : ListsKids c.heap c.kids := fun _ _ => mem_kids

theorem nodup_kids (h : WF c live rp pv) {n : NodeId} (hn : n ∈ live) : (c.kids n).Nodup := by
  unfold kids
  exact List.nodup_reverse.mpr (Map.nodup_values fun a b k hk hk' => h.labelled.kid_key_unique hn hk hk')

theorem WF.isForest (h : WF c live rp pv) : IsForest c.kids live :=
  h.labelled.isForest (listsKids c) fun _ hn => nodup_kids h hn

theorem resetLoop_eq : ∀ (fuel : Nat) (stack : List NodeId) (c : RadixCache),
    resetLoop fuel stack c =
      (visited c.kids fuel stack).foldl (fun c n => c.setQueueRef n fun _ => 0) c := by
  intro fuel
  induction fuel with
  | zero => intro stack c; rfl
  | succ fuel ih =>
      intro stack c
      cases stack with
      | nil => rfl
      | cons n stack =>
          have hkids : (c.setQueueRef n fun _ => 0).kids = c.kids := by
            funext m
            unfold kids setQueueRef
            rw [proj_nodeMut (·.children) c n (fun m => { m with queueRefCount := 0 })
              (fun _ => rfl) m]
          rw [visited, List.foldl_cons, resetLoop, ih, hkids]
          have hn : (Map.values ((c.setQueueRef n fun _ => 0).node n).children).reverse = c.kids n :=
            congrFun hkids n
          rw [hn]

/-- **Clearing the tree clears every node of it.** -/
theorem resetAllQueueRefs_zero (h : WF c live rp pv) {n : NodeId} (hn : n ∈ live) :
    ((c.resetAllQueueRefs.node n).refs .queue) = 0 := by
  have hroot : rootNode ∈ live := h.labelled.rootLive
  have hmem : n ∈ visited c.kids c.nodes.size [rootNode] := by
    rw [h.isForest.mem_visited_iff (Finset.range c.nodes.size)
      (fun m hm => Finset.mem_range.mpr (h.bound m hm)) hroot (Nat.le_of_eq (Finset.card_range _))]
    exact (under_iff_below (listsKids c)).mpr (h.labelled.live_iff_below.mp hn)
  have hbound : ∀ m ∈ visited c.kids c.nodes.size [rootNode], m < c.nodes.size := by
    intro m hm
    obtain ⟨k, hk, hu⟩ := under_of_mem_visited hm
    rw [List.mem_singleton.mp hk] at hu
    exact h.bound m (h.isForest.mem_of_under hu hroot)
  obtain ⟨k, hk⟩ := Nat.exists_eq_succ_of_ne_zero
    (Nat.ne_of_gt (List.count_pos_iff.mpr hmem))
  unfold resetAllQueueRefs
  rw [resetLoop_eq, turn_clear.refs_foldl _ c hbound, hk, Function.iterate_succ_apply']

theorem queueOnly_resetAllQueueRefs (c : RadixCache) : QueueOnly c c.resetAllQueueRefs :=
  resetLoop_rel QueueOnly.refl QueueOnly.trans queueOnly_setQueueRef _ _ c

/-- Nothing is counted any more. -/
theorem counted_resetAllQueueRefs (h : WF c live rp pv) :
    Counted .queue c.resetAllQueueRefs live [] where
  bound e he := by simp at he
  count n hn _ := resetAllQueueRefs_zero h hn

end RadixCache

end Peek
