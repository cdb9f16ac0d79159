/-
The SGLang hook's scheduling tick (`python/peek/online/engines/sglang/patch_hook.py`).

`_patched_calc_priority` sorts the waiting queue by what the dual walk found.  In lazy mode
only the first requests of the sorted queue are then matched, and of these only the ones
that have no prefix indices yet; nothing takes prefix indices away from a request that
stays in the queue.  `tick_current_iff` says what that costs: after a tick the first
requests carry current matches if and only if those among them that came with prefix
indices carried current ones already.

Only the LPM policy is modelled; under any other the hook passes the call on to SGLang.  The
sort is left open (`QueueSort`): `peek_sort_inplace` is one, and so is any other that puts
the queue in some order.
-/
import Peek.Online.DualWalk
import Peek.Sglang.Carried

namespace Peek

/-- The environment flags the hook reads; a negative `lazyK` is as good as zero. -/
structure CalcFlags where
  peekLpm : Bool
  lpmFallbackThreshold : Int
  lazyMatchPrefix : Bool
  lazyK : Nat
  skipDualwalk : Bool

/-- A sort of the waiting queue.  It may look at the main hits and at the pending tree. -/
structure QueueSort where
  sort : List Req → Map ReqId Rid → PendingTree → Option (Map Rid Int) → List Req
  sort_perm : ∀ queue ridToInt tree hits, (sort queue ridToInt tree hits).Perm queue

/-- `peek_sort_inplace` -/
def peekSort (o : SortOptions) : QueueSort where
  sort queue ridToInt tree hits :=
    (peekSortInplace queue ridToInt tree { o with mainHits := hits }).1
  sort_perm queue ridToInt tree _ := peekSortInplace_perm queue ridToInt tree _

structure SglangScheduler where
  treeCache : RadixCache
  hook : SglangHook
  waitingQueue : List Req

/-- Match one request. -/
def matchTurn (treeCache : RadixCache) (r : Req) : RadixCache × Req :=
  let (m, treeCache) := treeCache.matchPrefix r.key
  (treeCache, r.setMatch m)

/-- Match one request, unless it has prefix indices. -/
def lazyTurn (treeCache : RadixCache) (r : Req) : RadixCache × Req :=
  if r.prefixIndices ≠ [] then (treeCache, r) else matchTurn treeCache r

/-- The loop over the first `k` requests of the sorted queue. -/
def lazyMatch (k : Nat) (treeCache : RadixCache) (waitingQueue : List Req) :
    RadixCache × List Req :=
  let (treeCache, top) := forEach lazyTurn treeCache (waitingQueue.take k)
  (treeCache, top ++ waitingQueue.drop k)

namespace SglangScheduler

def new (pageSize : Nat) (disable : Bool) : SglangScheduler :=
  { treeCache := RadixCache.new pageSize disable, hook := SglangHook.new, waitingQueue := [] }

/-- Peek's LPM leaves a long queue in its order of arrival. -/
def Fallback (f : CalcFlags) (s : SglangScheduler) : Prop :=
  f.peekLpm = true ∧ (s.waitingQueue.length : Int) > f.lpmFallbackThreshold

instance (f : CalcFlags) (s : SglangScheduler) : Decidable (s.Fallback f) :=
  inferInstanceAs (Decidable (_ ∧ _))

/-- The queue in the order the sort gives it, and the rids it interned on the way. -/
def sortedQueue (f : CalcFlags) (order : Map Token NodeId → List NodeId) (q : QueueSort)
    (s : SglangScheduler) : List Req × Interner :=
  let (ridToInt, interner) := internQueue s.hook.session.interner s.waitingQueue
  let peekTree := s.hook.session.peekTree
  let hits := if f.skipDualwalk then none else some (dualwalkHits order peekTree s.treeCache)
  (q.sort s.waitingQueue ridToInt peekTree hits, interner)

/-- `_patched_calc_priority` -/
def calcPriority (f : CalcFlags) (order : Map Token NodeId → List NodeId) (q : QueueSort)
    (s : SglangScheduler) : Option Bool × SglangScheduler :=
  if s.Fallback f then (none, s)
  else
    let (treeCache, waitingQueue) :=
      if f.lazyMatchPrefix then (s.treeCache, s.waitingQueue)
      else forEach matchTurn s.treeCache s.waitingQueue
    let s := { s with treeCache := treeCache, waitingQueue := waitingQueue }
    let (waitingQueue, interner) := s.sortedQueue f order q
    let (treeCache, waitingQueue) :=
      if f.lazyMatchPrefix then lazyMatch f.lazyK s.treeCache waitingQueue
      else (s.treeCache, waitingQueue)
    (some true,
      { treeCache := treeCache
        hook := { s.hook with session := { s.hook.session with interner := interner } }
        waitingQueue := waitingQueue })

/--
What happens to the scheduler: calls on the cache, changes of the queue, syncs and ticks.
A request in the queue refers to no object but those the cache has made.
-/
inductive Step (f : CalcFlags) (order : Map Token NodeId → List NodeId)
    (seen : List Rid → List Rid) (q : QueueSort) : SglangScheduler → SglangScheduler → Prop
  | cache {s : SglangScheduler} {treeCache : RadixCache}
      (h : RadixCache.Step s.treeCache treeCache) :
      Step f order seen q s { s with treeCache := treeCache }
  | queue {s : SglangScheduler} (waitingQueue : List Req)
      (h : ∀ r ∈ waitingQueue, r.Refers s.treeCache) :
      Step f order seen q s { s with waitingQueue := waitingQueue }
  | sync (s : SglangScheduler) :
      Step f order seen q s { s with hook := s.hook.sync seen s.waitingQueue }
  | tick (s : SglangScheduler) : Step f order seen q s (s.calcPriority f order q).2

/-! ### What a tick does -/

variable {f : CalcFlags} {order : Map Token NodeId → List NodeId} {seen : List Rid → List Rid}
  {q : QueueSort} {s s' : SglangScheduler}

theorem matchTurn_matchesBut : MatchesBut (fun _ => False) id matchTurn where
  skipped _ _ h := h.elim
  matched _ _ _ := ⟨rfl, rfl⟩

theorem lazyTurn_matchesBut : MatchesBut (fun r => r.prefixIndices ≠ []) id lazyTurn where
  skipped c r h := by
    unfold lazyTurn
    rw [if_pos h]
    exact ⟨rfl, rfl⟩
  matched c r h := by
    unfold lazyTurn
    rw [if_neg h]
    exact ⟨rfl, rfl⟩

/-- The first `k` requests, after the loop. -/
theorem take_lazyMatch (k : Nat) (treeCache : RadixCache) (waitingQueue : List Req) :
    (lazyMatch k treeCache waitingQueue).2.take k =
      (forEach lazyTurn treeCache (waitingQueue.take k)).2 := by
  have hlen := length_forEach (f := lazyTurn) treeCache (waitingQueue.take k)
  rw [List.length_take] at hlen
  show (_ ++ waitingQueue.drop k).take k = _
  rcases Nat.le_total k waitingQueue.length with hk | hk
  · rw [Nat.min_eq_left hk] at hlen
    exact List.take_left' hlen
  · rw [List.drop_eq_nil_of_le hk, List.append_nil, List.take_of_length_le]
    rw [hlen]
    exact Nat.min_le_left _ _

theorem mem_sortedQueue {r : Req} : r ∈ (s.sortedQueue f order q).1 ↔ r ∈ s.waitingQueue :=
  (q.sort_perm _ _ _ _).mem_iff

theorem calcPriority_lazy (hlazy : f.lazyMatchPrefix = true) (hf : ¬ s.Fallback f) :
    (s.calcPriority f order q).1 = some true ∧
    (s.calcPriority f order q).2.treeCache =
      (lazyMatch f.lazyK s.treeCache (s.sortedQueue f order q).1).1 ∧
    (s.calcPriority f order q).2.waitingQueue =
      (lazyMatch f.lazyK s.treeCache (s.sortedQueue f order q).1).2 := by
  unfold calcPriority
  rw [if_neg hf]
  simp only [if_pos hlazy]
  exact ⟨trivial, trivial, trivial⟩

/-! ### Every run -/

/-- The cache is sound, and the queue refers to its objects. -/
structure Inv (s : SglangScheduler) : Prop where
  sound : s.treeCache.Sound
  refers : ∀ r ∈ s.waitingQueue, r.Refers s.treeCache

theorem new_inv {pageSize : Nat} (hps : 0 < pageSize) (disable : Bool) :
    Inv (new pageSize disable) where
  sound := ⟨_, _, _, RadixCache.new_wf hps disable⟩
  refers r hr := by simp [new] at hr

/-- The lazy loop keeps the invariant. -/
theorem lazyMatch_refers (h : s.treeCache.Sound) {queue : List Req}
    (hq : ∀ r ∈ queue, r.Refers s.treeCache) (k : Nat) :
    (lazyMatch k s.treeCache queue).1.Sound ∧
      ∀ r ∈ (lazyMatch k s.treeCache queue).2, r.Refers (lazyMatch k s.treeCache queue).1 := by
  obtain ⟨hs, htop, -⟩ := forEach_current_iff lazyTurn_matchesBut (queue.take k) s.treeCache h
    fun r hr => hq r (List.mem_of_mem_take hr)
  refine ⟨hs.sound h, fun r hr => ?_⟩
  rcases List.mem_append.mp hr with hr | hr
  · exact htop r hr
  · exact (hq r (List.mem_of_mem_drop hr)).later (hs.later h)

theorem Inv.calcPriority (h : Inv s) : Inv (s.calcPriority f order q).2 := by
  unfold SglangScheduler.calcPriority
  by_cases hf : s.Fallback f
  · rw [if_pos hf]; exact h
  · rw [if_neg hf]
    by_cases hlazy : f.lazyMatchPrefix = true
    · simp only [if_pos hlazy]
      have href : ∀ r ∈ (s.sortedQueue f order q).1, r.Refers s.treeCache := fun r hr =>
        h.refers r (mem_sortedQueue.mp hr)
      obtain ⟨hsound, hrefers⟩ := lazyMatch_refers h.sound href f.lazyK
      exact ⟨hsound, hrefers⟩
    · simp only [if_neg hlazy]
      obtain ⟨hs, hrefers, -⟩ :=
        forEach_current_iff matchTurn_matchesBut s.waitingQueue s.treeCache h.sound h.refers
      exact ⟨hs.sound h.sound, fun r hr => hrefers r (mem_sortedQueue.mp hr)⟩

theorem Inv.step (h : Inv s) (hs : Step f order seen q s s') : Inv s' := by
  cases hs with
  | cache hc =>
      obtain ⟨hsound, hlater⟩ := h.sound.step hc
      exact ⟨hsound, fun r hr => (h.refers r hr).later hlater⟩
  | queue waitingQueue hq => exact ⟨h.sound, hq⟩
  | sync => exact ⟨h.sound, h.refers⟩
  | tick => exact h.calcPriority

theorem run_inv {pageSize : Nat} (hps : 0 < pageSize) {disable : Bool}
    (hrun : Relation.ReflTransGen (Step f order seen q) (new pageSize disable) s) : Inv s := by
  induction hrun with
  | refl => exact new_inv hps disable
  | tail _ hstep ih => exact ih.step hstep

/--
**When a lazy tick hands out current matches.**  At any point of any run: if the tick
returns `True`, each of the first `lazyK` requests carries what `match_prefix` returns for
it then, if and only if each of the first `lazyK` of the sorted queue that comes with
prefix indices carries what `match_prefix` returns for it before the tick.
-/
theorem tick_current_iff {pageSize : Nat} (hps : 0 < pageSize) {disable : Bool}
    (hlazy : f.lazyMatchPrefix = true)
    (hrun : Relation.ReflTransGen (Step f order seen q) (new pageSize disable) s) :
    ((s.calcPriority f order q).1 = some true →
      ∀ r ∈ (s.calcPriority f order q).2.waitingQueue.take f.lazyK,
        r.Current (s.calcPriority f order q).2.treeCache) ↔
    (¬ s.Fallback f → ∀ r ∈ (s.sortedQueue f order q).1.take f.lazyK,
      r.prefixIndices ≠ [] → r.Current s.treeCache) := by
  have h := run_inv hps hrun
  by_cases hf : s.Fallback f
  · have hnone : (s.calcPriority f order q).1 = none := by
      unfold calcPriority
      rw [if_pos hf]
    rw [hnone]
    exact iff_of_true (fun hc => by simp at hc) fun hc => absurd hf hc
  · obtain ⟨htrue, hcache, hqueue⟩ := @calcPriority_lazy f order q s hlazy hf
    rw [htrue, hcache, hqueue, take_lazyMatch, imp_iff_right rfl, imp_iff_right hf]
    exact (forEach_current_iff lazyTurn_matchesBut _ s.treeCache h.sound fun r hr =>
      h.refers r (mem_sortedQueue.mp (List.mem_of_mem_take hr))).2.2

/-- A lazy mode that matches one request, with the stock order. -/
def lazyOne : CalcFlags := ⟨true, 128, true, 1, false⟩

/-- Three tokens are cached, and a request for them is queued and synced. -/
def cached : SglangScheduler :=
  { new 1 false with treeCache := plainCache }

def queued : SglangScheduler :=
  { cached with waitingQueue := [⟨"a", [1, 2, 3], [], none, [], none, false⟩] }

def synced : SglangScheduler := { queued with hook := queued.hook.sync id queued.waitingQueue }

theorem synced_run (q : QueueSort) :
    Relation.ReflTransGen (Step lazyOne Map.values id q) (new 1 false) synced := by
  have h1 : Step lazyOne Map.values id q (new 1 false) cached :=
    Step.cache (RadixCache.Step.insert _ _)
  have h2 : Step lazyOne Map.values id q cached queued := by
    refine Step.queue _ fun r hr n hn => ?_
    rw [List.mem_singleton.mp hr] at hn
    simp at hn
  have h3 : Step lazyOne Map.values id q queued synced := Step.sync queued
  exact ((Relation.ReflTransGen.single h1).tail h2).tail h3

/-- The first tick matches the request. -/
theorem tick_current_iff_first :
    (synced.calcPriority lazyOne Map.values (peekSort {})).1 = some true ∧
    ∀ r ∈ (synced.calcPriority lazyOne Map.values (peekSort {})).2.waitingQueue.take 1,
      r.Current (synced.calcPriority lazyOne Map.values (peekSort {})).2.treeCache := by
  have htrue : (synced.calcPriority lazyOne Map.values (peekSort {})).1 = some true := by decide
  refine ⟨htrue, (tick_current_iff Nat.one_pos rfl (synced_run (peekSort {}))).mpr ?_ htrue⟩
  intro _ r hr hne
  have hr := mem_sortedQueue.mp (List.mem_of_mem_take hr)
  rw [List.mem_singleton.mp hr] at hne
  exact absurd rfl hne

/-- An eviction that takes the leaves as they come. -/
def asTheyCome : RadixCache.EvictionHeap where
  Priority := Unit
  getPriority _ _ := ()
  heappop _ heap := heap.head?.map fun x => (x, heap.tail)
  pop_perm _ heap x rest h := by
    cases heap with
    | nil => simp at h
    | cons y ys =>
        simp only [List.head?_cons, Option.map_some, List.tail_cons, Option.some.injEq,
          Prod.mk.injEq] at h
        rw [h.1, h.2]

/-- The request was not admitted, and what it carries is evicted before the next tick. -/
def evicted : SglangScheduler :=
  let s := (synced.calcPriority lazyOne Map.values (peekSort {})).2
  { s with treeCache := (s.treeCache.evict asTheyCome 3).2 }

/-- The second tick leaves the request with the three freed indices. -/
theorem tick_stale_evicted :
    Relation.ReflTransGen (Step lazyOne Map.values id (peekSort {})) (new 1 false) evicted ∧
    (evicted.calcPriority lazyOne Map.values (peekSort {})).1 = some true ∧
    ∃ r ∈ (evicted.calcPriority lazyOne Map.values (peekSort {})).2.waitingQueue.take 1,
      r.prefixIndices = [10, 11, 12] ∧
      ¬ r.Current (evicted.calcPriority lazyOne Map.values (peekSort {})).2.treeCache := by
  refine ⟨?_, by decide, ?_⟩
  · exact ((synced_run (peekSort {})).tail (Step.tick synced)).tail
      (Step.cache (RadixCache.Step.evict _ asTheyCome 3))
  · decide

end SglangScheduler

end Peek
