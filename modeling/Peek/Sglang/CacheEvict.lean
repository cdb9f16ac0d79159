/-
What eviction and locking do to the cache, and every run of the cache.

Locks only steer which leaves may go.  Eviction takes leaves off, one after the other;
what is left stays where it was.  With insertion and matching that makes every operation
keep `WF`, so it holds in every cache a run of operations can reach.
-/
import Peek.Sglang.CacheInsert
import Mathlib.Logic.Relation

namespace Peek

open Radix

namespace RadixCache

variable {c c' : RadixCache} {live : Set NodeId} {rp : NodeId → List ChildKey}
  {pv : NodeId → List Index}

/-! ### Locks -/

/-- One turn of the lock loops: sizes, the count, the leaf status. -/
theorem lockTurn_wf (h : WF c live rp pv) {n : NodeId} (hn : n ∈ live) (hr : n ≠ rootNode)
    (evictable guarded : Int) (f : TreeNode → TreeNode)
    (hk : ∀ n, (f n).key = n.key) (hp : ∀ n, (f n).parent = n.parent)
    (hc : ∀ n, (f n).children = n.children) (hv : ∀ n, (f n).value = n.value) :
    WF ((({ c with evictableSize := evictable, protectedSize := guarded }).nodeMut n
      f).updateLeafStatus n) live rp pv := by
  set c0 : RadixCache := { c with evictableSize := evictable, protectedSize := guarded } with hc0
  have h0 : WF c0 live rp pv :=
    h.sameTree ⟨rfl, rfl, fun _ => rfl, fun _ => rfl, fun _ => rfl, fun _ => rfl, rfl, rfl⟩
  have hs : SameTree c0 (c0.nodeMut n f) :=
    ⟨rfl, size_nodeMut c0 n f, proj_nodeMut (·.key) c0 n f hk, proj_nodeMut (·.parent) c0 n f hp,
      proj_nodeMut (·.children) c0 n f hc, proj_nodeMut (·.value) c0 n f hv,
      by rw [node_nodeMut_ne c0 f (Ne.symm hr)], rfl⟩
  exact (h0.sameTree hs).updateLeafStatus hn

/-- What the turns of a climb keep, the climb keeps, whatever its fuel. -/
theorem climb_induct {P : RadixCache → Prop} (hP : ∀ c, P c → WF c live rp pv)
    {f : NodeId → RadixCache → RadixCache}
    (hf : ∀ (n : NodeId) (c : RadixCache), P c → n ∈ live → n ≠ rootNode → P (f n c)) :
    ∀ (fuel : Nat) (n : NodeId) (c : RadixCache), P c → n ∈ live → P (climb f fuel n c) := by
  intro fuel
  induction fuel with
  | zero => intro n c h _; exact h
  | succ fuel ih =>
      intro n c h hn
      unfold climb
      by_cases hr : n = rootNode
      · rw [if_pos hr]; exact h
      · rw [if_neg hr]
        have h1 := hf n c h hn hr
        exact ih _ _ h1 ((hP _ h1).labelled.parent_live hn hr)

section

variable {R : RadixCache → RadixCache → Prop} (hrefl : ∀ c, R c c)
  (htrans : ∀ {c1 c2 c3}, R c1 c2 → R c2 c3 → R c1 c3)
include hrefl htrans

/-- What every turn of a climb does, the climb does. -/
theorem climb_rel {f : NodeId → RadixCache → RadixCache} (hf : ∀ n c, R c (f n c)) :
    ∀ (fuel : Nat) (n : NodeId) (c : RadixCache), R c (climb f fuel n c) := by
  intro fuel
  induction fuel with
  | zero => intro n c; exact hrefl c
  | succ fuel ih =>
      intro n c
      unfold climb
      by_cases hr : n = rootNode
      · rw [if_pos hr]; exact hrefl c
      · rw [if_neg hr]; exact htrans (hf n c) (ih _ _)

/-- What every turn of the lock loops does, a lock call does. -/
theorem lock_rel (hf : ∀ (c : RadixCache) (n : NodeId) (b : Prop) [Decidable b]
      (evictable guarded : Int) (g : Int → Int),
      R c (((if b then { c with evictableSize := evictable, protectedSize := guarded }
        else c).nodeMut n fun m => { m with lockRef := g m.lockRef }).updateLeafStatus n))
    (c : RadixCache) (n : NodeId) : R c (c.incLockRef n) ∧ R c (c.decLockRef n) := by
  unfold incLockRef decLockRef
  by_cases hd : c.disable = true
  · rw [if_pos hd, if_pos hd]
    exact ⟨hrefl c, hrefl c⟩
  · rw [if_neg hd, if_neg hd]
    exact ⟨climb_rel hrefl htrans (fun n c => hf c n _ _ _ (· + 1)) _ n c,
      climb_rel hrefl htrans (fun n c => hf c n _ _ _ (· - 1)) _ n c⟩

/-- What every deletion does, an eviction does. -/
theorem evict_rel (hf : ∀ c n, R c (deleteLeaf c n)) (c : RadixCache) (e : EvictionHeap)
    (numTokens : Nat) : R c (c.evict e numTokens).2 := by
  have hloop : ∀ (fuel : Nat) (c : RadixCache) (heap : List (e.Priority × NodeId))
      (freed : List Index), R c (evictLoop e numTokens fuel c heap freed).2 := by
    intro fuel
    induction fuel with
    | zero => intro c heap freed; exact hrefl c
    | succ fuel ih =>
        intro c heap freed
        unfold evictLoop
        by_cases hlt : freed.length < numTokens
        · rw [if_pos hlt]
          cases e.heappop c heap with
          | none => exact hrefl c
          | some xr => exact htrans (hf c xr.1.2) (ih _ _ _)
        · rw [if_neg hlt]; exact hrefl c
  unfold evict
  by_cases hd : c.disable = true
  · rw [if_pos hd]; exact hrefl c
  · rw [if_neg hd]; exact hloop _ _ _ _

end

/-- One turn of the lock loops forgets no object. -/
theorem later_lockTurn (c : RadixCache) (n : NodeId) (b : Prop) [Decidable b]
    (evictable guarded : Int) (g : Int → Int) :
    Later c (((if b then { c with evictableSize := evictable, protectedSize := guarded }
      else c).nodeMut n fun m => { m with lockRef := g m.lockRef }).updateLeafStatus n) := by
  refine Later.trans ?_ ((later_nodeMut _ n _).trans (later_updateLeafStatus _ n))
  split <;> exact ⟨Nat.le_refl _, rfl, rfl⟩

theorem later_incLockRef (c : RadixCache) (n : NodeId) : Later c (c.incLockRef n) :=
  (lock_rel Later.refl Later.trans later_lockTurn c n).1

theorem later_decLockRef (c : RadixCache) (n : NodeId) : Later c (c.decLockRef n) :=
  (lock_rel Later.refl Later.trans later_lockTurn c n).2

section

/-- Kept by every turn of the lock loops, whichever sizes and count it writes. -/
def LockTurnKeeps (live : Set NodeId) (P : RadixCache → Prop) : Prop :=
  ∀ (n : NodeId) (c : RadixCache) (evictable guarded : Int) (g : Int → Int), P c → n ∈ live →
    n ≠ rootNode → P ((({ c with evictableSize := evictable, protectedSize := guarded }).nodeMut n
      fun m => { m with lockRef := g m.lockRef }).updateLeafStatus n)

variable {P : RadixCache → Prop} (hP : ∀ c, P c → WF c live rp pv) (hturn : LockTurnKeeps live P)
include hP hturn

theorem incLockRef_induct (h : P c) {n : NodeId} (hn : n ∈ live) : P (c.incLockRef n) := by
  unfold incLockRef
  by_cases hd : c.disable = true
  · rw [if_pos hd]
    exact h
  · rw [if_neg hd]
    refine climb_induct hP (fun m c h hm hr => ?_) _ n c h hn
    split
    · exact hturn m c _ _ (· + 1) h hm hr
    · exact hturn m c c.evictableSize c.protectedSize (· + 1) h hm hr

theorem decLockRef_induct (h : P c) {n : NodeId} (hn : n ∈ live) : P (c.decLockRef n) := by
  unfold decLockRef
  by_cases hd : c.disable = true
  · rw [if_pos hd]
    exact h
  · rw [if_neg hd]
    refine climb_induct hP (fun m c h hm hr => ?_) _ n c h hn
    split
    · exact hturn m c _ _ (· - 1) h hm hr
    · exact hturn m c c.evictableSize c.protectedSize (· - 1) h hm hr

end

theorem lockTurnKeeps_wf : LockTurnKeeps live fun c => WF c live rp pv :=
  fun _ _ evictable guarded _ h hn hr =>
    lockTurn_wf h hn hr evictable guarded _ (fun _ => rfl) (fun _ => rfl) (fun _ => rfl) fun _ => rfl

theorem incLockRef_wf (h : WF c live rp pv) {n : NodeId} (hn : n ∈ live) :
    WF (c.incLockRef n) live rp pv :=
  incLockRef_induct (fun _ h => h) lockTurnKeeps_wf h hn

theorem decLockRef_wf (h : WF c live rp pv) {n : NodeId} (hn : n ∈ live) :
    WF (c.decLockRef n) live rp pv :=
  decLockRef_induct (fun _ h => h) lockTurnKeeps_wf h hn

/-! ### Deleting a leaf -/

theorem node_deleteLeaf_ne (c : RadixCache) {n m : NodeId} (h : m ≠ (c.node n).parent) :
    (c.deleteLeaf n).node m = c.node m := by
  unfold deleteLeaf
  rw [node_updateLeafStatus]
  exact node_nodeMut_ne c _ h

theorem node_deleteLeaf_parent (c : RadixCache) {n : NodeId}
    (h : (c.node n).parent < c.nodes.size) :
    (c.deleteLeaf n).node (c.node n).parent =
      { c.node (c.node n).parent with
        children := (c.node (c.node n).parent).children.erase
          (getChildKey (c.node n).key c.pageSize) } := by
  unfold deleteLeaf
  rw [node_updateLeafStatus]
  exact node_nodeMut_self c _ h

/-- **A deleted leaf takes nothing else with it.** -/
theorem deleteLeaf_wf (h : WF c live rp pv) {n : NodeId} (hn : n ∈ live) (hr : n ≠ rootNode)
    (hkids : (c.node n).children.entries = []) : WF (c.deleteLeaf n) (live \ {n}) rp pv := by
  obtain ⟨a, ha, hp, hk⟩ := h.labelled.up hn hr
  have hp : (c.node n).parent ∈ live := hp
  have hpn : (c.node n).parent ≠ n := h.labelled.parent_ne_self hn hr
  have hkey : getChildKey (c.node n).key c.pageSize = a := h.childKey_kid hp hk
  have hroot : rootNode ∈ live := h.labelled.rootLive
  set p := (c.node n).parent with hpdef
  set cut : TreeNode → TreeNode := fun q => { q with children := q.children.erase a } with hcut
  set c1 := c.nodeMut p cut with hc1
  have hfields : ∀ m, (c1.node m).key = (c.node m).key ∧ (c1.node m).value = (c.node m).value ∧
      (c1.node m).parent = (c.node m).parent ∧ (c1.node m).lockRef = (c.node m).lockRef := fun m =>
    ⟨proj_nodeMut (·.key) c p cut (fun _ => rfl) m, proj_nodeMut (·.value) c p cut (fun _ => rfl) m,
      proj_nodeMut (·.parent) c p cut (fun _ => rfl) m,
      proj_nodeMut (·.lockRef) c p cut (fun _ => rfl) m⟩
  have hat : (c1.node p).children = (c.node p).children.erase a := by
    rw [hc1, node_nodeMut_self c _ (h.bound p hp)]
  have hold : ∀ m, m ≠ p → c1.node m = c.node m := fun m hm => node_nodeMut_ne c _ hm
  have hlab : Labelled c1.heap (live \ {n}) rp := by
    refine h.labelled.prune hn hr ha (fun x => Map.entries_eq_nil_iff.mp hkids x) rfl ?_ ?_ ?_ ?_
    · intro m _ _; rw [heap_edge, (hfields m).1]; rfl
    · intro m _ _; rw [heap_parent, (hfields m).2.2.1]; rfl
    · intro x
      rw [heap_kid, heap_parent, ← hpdef, hat, Map.lookup_erase_of]; rfl
    · intro m _ _ hmp x
      rw [heap_kid, hold m hmp]; rfl
  unfold deleteLeaf
  rw [hkey]
  have hpl : p ∈ live \ {n} := ⟨hp, hpn⟩
  refine updateLeafStatus_wf (c := { c1 with
      evictableSize := c1.evictableSize - (c1.node n).key.length
      evictableLeaves := c1.evictableLeaves.erase n }) hpl h.pageSize_pos hlab ?_ h.rootValue ?_ ?_
    ?_ ?_ (h.leavesNodup.erase n)
  · intro m hm
    exact (size_nodeMut c p _).symm ▸ h.bound m hm.1
  · intro m b k hm hkid
    have hkid : c1.heap.kid m b = some k := hkid
    have hkl := (hlab.kidLive hm hkid).1
    have hkr := hlab.kid_ne_root hm hkid
    have hpar := hlab.kidParent hm hkid
    rw [heap_parent, (hfields k).2.2.1] at hpar
    obtain ⟨x, -, hpk, hkid'⟩ := h.labelled.up hkl hkr
    rw [heap_parent, hpar] at hkid' hpk
    exact (h.kidValue hpk hkid').trans (congrArg _ (hfields k).2.1.symm)
  · intro m hm
    exact (congrArg _ (hfields m).2.1).trans
      ((h.valueLength m hm.1).trans (congrArg RadixKey.length (hfields m).1.symm))
  · exact (hfields rootNode).2.2.2.symm ▸ h.rootLock
  · intro m hm hmp
    obtain ⟨hmn, hm⟩ := h.leavesNodup.mem_erase_iff.mp hm
    obtain ⟨hl, hmr, hk⟩ := h.leaves m hm
    refine ⟨⟨hl, hmn⟩, hmr, ?_⟩
    have : c1.node m = c.node m := hold m hmp
    exact (congrArg (fun q : TreeNode => q.children.entries) this).trans hk

/-! ### Evicting -/

/-- What the eviction heap may hold: leaves, each once. -/
structure HeapOk {P : Type} (c : RadixCache) (live : Set NodeId) (heap : List (P × NodeId)) :
    Prop where
  nodup : (heap.map (·.2)).Nodup
  leaf : ∀ x ∈ heap, x.2 ∈ live ∧ x.2 ≠ rootNode ∧ (c.node x.2).children.entries = []

theorem HeapOk.perm {P : Type} {heap heap' : List (P × NodeId)} (h : HeapOk c live heap)
    (hp : heap.Perm heap') : HeapOk c live heap' :=
  ⟨(hp.map _).nodup_iff.mp h.nodup, fun x hx => h.leaf x (hp.mem_iff.mpr hx)⟩

/-- The heap an eviction starts with. -/
theorem heapOk_start {P : Type} (h : WF c live rp pv) (priority : NodeId → P) :
    HeapOk c live (c.evictableLeaves.map fun n => (priority n, n)) := by
  refine ⟨?_, ?_⟩
  · rw [List.map_map]
    exact h.leavesNodup.map fun _ _ heq => heq
  · intro x hx
    obtain ⟨n, hn, rfl⟩ := List.mem_map.mp hx
    exact h.leaves n hn

/-- The heap the loop goes on with: what is left of it, and the parent if it is a leaf now. -/
theorem HeapOk.next {P : Type} {x : P × NodeId} {rest : List (P × NodeId)} (h : WF c live rp pv)
    (hheap : HeapOk c live (x :: rest)) (pr : P) :
    HeapOk (c.deleteLeaf x.2) (live \ {x.2})
      (if ((c.deleteLeaf x.2).node ((c.deleteLeaf x.2).node x.2).parent).children.entries = [] ∧
          ((c.deleteLeaf x.2).node ((c.deleteLeaf x.2).node x.2).parent).lockRef = 0 then
        (pr, ((c.deleteLeaf x.2).node x.2).parent) :: rest
      else rest) := by
  obtain ⟨hx, hxr, hxk⟩ := hheap.leaf x List.mem_cons_self
  have hwf := deleteLeaf_wf h hx hxr hxk
  have hp : (c.node x.2).parent ∈ live := h.labelled.parent_live hx hxr
  have hpx : (c.node x.2).parent ≠ x.2 := h.labelled.parent_ne_self hx hxr
  rw [node_deleteLeaf_ne c (Ne.symm hpx)]
  have hnd := hheap.nodup
  rw [List.map_cons, List.nodup_cons] at hnd
  -- the parent had a child, so it was not in the heap
  have hnot : ∀ y ∈ rest, y.2 ≠ (c.node x.2).parent := by
    intro y hy hyp
    obtain ⟨-, -, hyk⟩ := hheap.leaf y (List.mem_cons_of_mem _ hy)
    obtain ⟨a, -, -, hk⟩ := h.labelled.up hx hxr
    rw [heap_kid, heap_parent, ← hyp, Map.entries_eq_nil_iff.mp hyk] at hk
    simp at hk
  have hrest : ∀ y ∈ rest, y.2 ∈ live \ {x.2} ∧ y.2 ≠ rootNode ∧
      ((c.deleteLeaf x.2).node y.2).children.entries = [] := by
    intro y hy
    obtain ⟨hyl, hyr, hyk⟩ := hheap.leaf y (List.mem_cons_of_mem _ hy)
    refine ⟨⟨hyl, ?_⟩, hyr, by rw [node_deleteLeaf_ne c (hnot y hy)]; exact hyk⟩
    intro hyx
    exact hnd.1 (Set.mem_singleton_iff.mp hyx ▸ List.mem_map_of_mem hy)
  by_cases hleaf : ((c.deleteLeaf x.2).node (c.node x.2).parent).children.entries = [] ∧
      ((c.deleteLeaf x.2).node (c.node x.2).parent).lockRef = 0
  · rw [if_pos hleaf]
    refine ⟨?_, ?_⟩
    · rw [List.map_cons, List.nodup_cons]
      refine ⟨?_, hnd.2⟩
      intro hmem
      obtain ⟨y, hy, hyp⟩ := List.mem_map.mp hmem
      exact hnot y hy hyp
    · intro y hy
      rcases List.mem_cons.mp hy with rfl | hy
      · refine ⟨⟨hp, hpx⟩, ?_, hleaf.1⟩
        intro hpr
        have hlock := hwf.rootLock
        simp only at hpr
        rw [← hpr, hleaf.2] at hlock
        exact Int.lt_irrefl _ hlock
      · exact hrest y hy
  · rw [if_neg hleaf]
    exact ⟨hnd.2, hrest⟩

/-- **Eviction only removes**, and what it leaves stays where it was. -/
theorem evictLoop_wf (e : EvictionHeap) (numTokens : Nat) :
    ∀ (fuel : Nat) (c : RadixCache) (live : Set NodeId) (heap : List (e.Priority × NodeId))
      (freed : List Index), WF c live rp pv → HeapOk c live heap →
      ∃ live' ⊆ live, WF (evictLoop e numTokens fuel c heap freed).2 live' rp pv ∧
        (evictLoop e numTokens fuel c heap freed).2.pageSize = c.pageSize ∧
        (evictLoop e numTokens fuel c heap freed).2.disable = c.disable := by
  intro fuel
  induction fuel with
  | zero => intro c live heap freed h _; exact ⟨live, fun _ hn => hn, h, rfl, rfl⟩
  | succ fuel ih =>
      intro c live heap freed h hheap
      unfold evictLoop
      by_cases hlt : freed.length < numTokens
      · rw [if_pos hlt]
        cases hpop : e.heappop c heap with
        | none => exact ⟨live, fun _ hn => hn, h, rfl, rfl⟩
        | some xr =>
            obtain ⟨x, rest⟩ := xr
            have hheap := hheap.perm (e.pop_perm c heap x rest hpop)
            obtain ⟨hx, hxr, hxk⟩ := hheap.leaf x List.mem_cons_self
            have hnext := hheap.next h
              (e.getPriority (c.deleteLeaf x.2) ((c.deleteLeaf x.2).node x.2).parent)
            obtain ⟨live', hsub, hwf, hps, hdis⟩ :=
              ih (c.deleteLeaf x.2) _ _ (freed ++ (c.node x.2).value) (deleteLeaf_wf h hx hxr hxk)
                hnext
            refine ⟨live', hsub.trans Set.sdiff_subset, hwf, hps.trans ?_, hdis.trans ?_⟩
            · rw [deleteLeaf, pageSize_updateLeafStatus]; rfl
            · rw [deleteLeaf, disable_updateLeafStatus]; rfl
      · rw [if_neg hlt]; exact ⟨live, fun _ hn => hn, h, rfl, rfl⟩

theorem evict_wf (h : WF c live rp pv) (e : EvictionHeap) (numTokens : Nat) :
    ∃ live' ⊆ live, WF (c.evict e numTokens).2 live' rp pv ∧
      (c.evict e numTokens).2.pageSize = c.pageSize ∧
      (c.evict e numTokens).2.disable = c.disable := by
  unfold evict
  by_cases hd : c.disable = true
  · rw [if_pos hd]; exact ⟨live, fun _ hn => hn, h, rfl, rfl⟩
  · rw [if_neg hd]
    exact evictLoop_wf e numTokens _ c live _ [] h (heapOk_start h _)

theorem later_deleteLeaf (c : RadixCache) (n : NodeId) : Later c (c.deleteLeaf n) := by
  unfold deleteLeaf
  refine Later.trans ?_ (later_updateLeafStatus _ _)
  exact ⟨(size_nodeMut c _ _).ge, rfl, rfl⟩

theorem later_evict (c : RadixCache) (e : EvictionHeap) (numTokens : Nat) :
    Later c (c.evict e numTokens).2 :=
  evict_rel Later.refl Later.trans later_deleteLeaf c e numTokens

/-! ### Runs -/

/-- `n` is in the tree: it hangs below the root. -/
def InTree (c : RadixCache) (n : NodeId) : Prop := Below c.heap rootNode n

/--
One call on the cache.  Locks are taken and given back on nodes of the tree, as the
scheduler does with the nodes its running requests hold.
-/
inductive Step : RadixCache → RadixCache → Prop
  | insert (c : RadixCache) (params : InsertParams) : Step c (c.insert params).2
  | matchPrefix (c : RadixCache) (key : RadixKey) : Step c (c.matchPrefix key).2
  | matchPrefixReadonly (c : RadixCache) (key : RadixKey) : Step c (c.matchPrefixReadonly key).2
  | evict (c : RadixCache) (e : EvictionHeap) (numTokens : Nat) : Step c (c.evict e numTokens).2
  | incLockRef (c : RadixCache) (n : NodeId) (hn : c.InTree n) : Step c (c.incLockRef n)
  | decLockRef (c : RadixCache) (n : NodeId) (hn : c.InTree n) : Step c (c.decLockRef n)

/-- A cache some run of calls makes of a new one. -/
def Reachable (pageSize : Nat) (disable : Bool) (c : RadixCache) : Prop :=
  Relation.ReflTransGen Step (new pageSize disable) c

/-- The invariant, the labelling left open. -/
def Sound (c : RadixCache) : Prop := ∃ live rp pv, WF c live rp pv

theorem WF.inTree_iff (h : WF c live rp pv) {n : NodeId} : c.InTree n ↔ n ∈ live :=
  h.labelled.live_iff_below.symm

theorem insert_wf (h : WF c live rp pv) (params : InsertParams) :
    ∃ live' rp' pv', WF (c.insert params).2 live' rp' pv' ∧ live ⊆ live' ∧
      (∀ n ∈ live, rp' n = rp n ∧ pv' n = pv n) ∧
      (c.insert params).2.pageSize = c.pageSize ∧ (c.insert params).2.disable = c.disable ∧
      ∀ q, Held live' rp' q ↔ Held live rp q ∨
        c.disable = false ∧ q <+: params.key.symbols c.pageSize := by
  unfold insert
  by_cases hd : c.disable = true
  · rw [if_pos hd]
    refine ⟨live, rp, pv, h, fun _ hn => hn, fun _ _ => ⟨rfl, rfl⟩, rfl, rfl, fun q => ?_⟩
    simp [hd]
  · rw [if_neg hd]
    have hlen : (params.value.getD params.key.tokenIds).length = params.key.length := by
      cases hv : params.value with
      | none => rfl
      | some v => exact params.value_length v hv
    obtain ⟨live', rp', pv', h1, h2, h3, h4, h5, h6⟩ :=
      insertHelper_held h params.key _ hlen params.priority
    refine ⟨live', rp', pv', h1, h2, h3, h4, h5, fun q => ?_⟩
    rw [h6]
    simp [hd]

/-- Every call keeps the cache sound. -/
theorem Sound.step (h : Sound c) (hs : Step c c') : Sound c' ∧ Later c c' := by
  obtain ⟨live, rp, pv, h⟩ := h
  cases hs with
  | insert params =>
      obtain ⟨live', rp', pv', hwf, -⟩ := insert_wf h params
      exact ⟨⟨live', rp', pv', hwf⟩, later_insert c params⟩
  | matchPrefix key =>
      obtain ⟨live', rp', pv', k, hgrow, -⟩ := matchPrefixWith_matches h true key
      exact ⟨⟨live', rp', pv', hgrow.wf⟩, hgrow.toLater⟩
  | matchPrefixReadonly key =>
      obtain ⟨live', rp', pv', k, hgrow, -⟩ := matchPrefixWith_matches h false key
      exact ⟨⟨live', rp', pv', hgrow.wf⟩, hgrow.toLater⟩
  | evict e numTokens =>
      obtain ⟨live', -, hwf, -⟩ := evict_wf h e numTokens
      exact ⟨⟨live', rp, pv, hwf⟩, later_evict c e numTokens⟩
  | incLockRef n hn =>
      exact ⟨⟨live, rp, pv, incLockRef_wf h (h.inTree_iff.mp hn)⟩, later_incLockRef c n⟩
  | decLockRef n hn =>
      exact ⟨⟨live, rp, pv, decLockRef_wf h (h.inTree_iff.mp hn)⟩, later_decLockRef c n⟩

/-- **Every reachable cache is sound.** -/
theorem Reachable.sound {pageSize : Nat} {disable : Bool} (hps : 0 < pageSize)
    (h : Reachable pageSize disable c) :
    Sound c ∧ c.pageSize = pageSize ∧ c.disable = disable := by
  suffices key : Sound c ∧ Later (new pageSize disable) c from
    ⟨key.1, key.2.pageSize, key.2.disable⟩
  induction h with
  | refl => exact ⟨⟨_, _, _, new_wf hps disable⟩, Later.refl _⟩
  | tail _ hstep ih =>
      obtain ⟨hsound, hlater⟩ := ih.1.step hstep
      exact ⟨hsound, ih.2.trans hlater⟩

end RadixCache

end Peek
