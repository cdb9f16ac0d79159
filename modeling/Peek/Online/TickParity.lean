/-
A turn of the scheduler with Peek's stock order, and a turn without Peek.

With `PEEK_ONLINE_LPM` the hook is meant to change nothing but the cost of a turn: the matches are
found by a walk of the pending tree beside the cache, who waits for whom by a set of token
prefixes, and the order by sorting pairs of numbers.  Stock SGLang matches one request after the
other, keeps an auxiliary tree, and sorts by a key.  What comes out is the same
(`turn_eq_stock`), as long as the queue that is sorted is one the tables were synced with, no
request has a namespace, and pages are single tokens where the walk is used.

In lazy mode the requests are matched after the sort and not before it.  The order is still that
of stock SGLang, since no match of another request changes how long one's own is.
-/
import Peek.Offline.StockPriority
import Peek.Online.InternerPrune
import Peek.Online.LpmParity
import Peek.Sglang.InBatch

namespace Peek

open RadixCache SchedulePolicy

/-! ### What matching leaves -/

section

variable {check depr : Int}

theorem treeCache_inBatchTurn (depr : Int) (s : PrefixMatches) (r : Req) :
    (inBatchTurn depr s r).treeCache = s.treeCache := by
  unfold inBatchTurn
  simp only
  split
  · rfl
  · rfl

theorem prefixMatchTurn_eq_matchTurn (s : PrefixMatches) {r : Req} (hr : r.peekMatched = false) :
    (prefixMatchTurn check depr s r).1.treeCache = (matchTurn s.treeCache r).1 ∧
      (prefixMatchTurn check depr s r).2 = (matchTurn s.treeCache r).2 := by
  unfold prefixMatchTurn
  rw [if_neg (by rw [hr]; simp)]
  refine ⟨?_, rfl⟩
  simp only
  split
  · exact treeCache_inBatchTurn depr _ _
  · rfl

/-- **The hook's loop matches as the policy's loop does.** -/
theorem forEach_matchTurn : ∀ (queue : List Req) (s : PrefixMatches),
    (∀ r ∈ queue, r.peekMatched = false) → forEach matchTurn s.treeCache queue =
      ((forEach (prefixMatchTurn check depr) s queue).1.treeCache,
        (forEach (prefixMatchTurn check depr) s queue).2) := by
  intro queue
  induction queue with
  | nil => intro s _; rfl
  | cons r queue ih =>
      intro s hnone
      obtain ⟨hcache, hreq⟩ := @prefixMatchTurn_eq_matchTurn check depr s r
        (hnone r List.mem_cons_self)
      have hrest := ih (prefixMatchTurn check depr s r).1 fun r' hr' =>
        hnone r' (List.mem_cons_of_mem r hr')
      rw [forEach_cons, forEach_cons, ← hcache, ← hreq, hrest]

theorem forEach_matchTurn_eq (c : RadixCache) {queue : List Req}
    (hnone : ∀ r ∈ queue, r.peekMatched = false) : forEach matchTurn c queue =
      ((computePrefixMatches check depr c queue).1.treeCache,
        (computePrefixMatches check depr c queue).2) :=
  forEach_matchTurn queue ⟨c, createSimulated, ∅⟩ hnone

/-- How much of the prompt the cache has. -/
def hitLength (c : RadixCache) (r : Req) : Int := (c.matchPrefix r.key).1.deviceIndices.length

/-- A matched request has as many indices as a match found before the others were matched. -/
theorem length_prefixIndices {c : RadixCache} (h : Sound c) {queue : List Req}
    (href : ∀ r ∈ queue, r.Refers c) (hnone : ∀ r ∈ queue, r.peekMatched = false) {r : Req}
    (hr : r ∈ (computePrefixMatches check depr c queue).2) :
    (r.prefixIndices.length : Int) = hitLength c r := by
  obtain ⟨hs, -, -, hcurrent⟩ := computePrefixMatches_current check depr h href hnone
  have hlen := length_match_onlySplits hs h r.key
  unfold hitLength
  rw [(hcurrent r hr).1, hlen]

/-- With single tokens as pages and without namespaces the walk finds what a match finds. -/
theorem cacheMatch_eq_hitLength {c : RadixCache} (h : Sound c) (hps : c.pageSize = 1)
    (hon : c.disable = false) {r : Req} (hkey : r.extraKey = none) :
    (c.cacheMatch r.tokens : Int) = hitLength c r := by
  have hplain : c.PlainlyCached r := by
    unfold PlainlyCached
    rw [if_pos hps, hkey]
    exact fun _ _ => Iff.rfl
  unfold hitLength
  rw [(h.cacheMatch_eq_length_iff_of_one hps hon r).mpr hplain]

end

/-! ### What the sort reads -/

section

variable {o : SortOptions} {ridToInt : Map ReqId Rid} {tree : PendingTree} {queue : List Req}

/-- What the sort reads of a request. -/
def sortView (mh : Req → Int) (r : Req) : Req × Int := (r.sent, mh r)

theorem peekSortInplace_lpm (hlpm : o.peekLpmSort = true) :
    (peekSortInplace queue ridToInt tree o).1 = lpmSort (mainHit ridToInt o.mainHits)
      (queue.foldl (sortPassTurn ridToInt ∅ o) ⟨∅, ∅, ∅⟩).deprioritized queue := by
  unfold peekSortInplace
  simp only [if_pos hlpm]

/-- What is claimed and repeated can be told from what the sort reads. -/
theorem foldl_sortPassTurn (hlpm : o.peekLpmSort = true) (hits : Option (Map Rid Int))
    (s : SortPass) : queue.foldl (sortPassTurn ridToInt ∅ { o with mainHits := hits }) s =
      (queue.map (sortView (mainHit ridToInt hits))).foldl
        (fun s p => claimPrefix o (fun _ => p.2) s p.1) s := by
  rw [List.foldl_map]
  refine List.foldl_ext _ _ _ fun s r _ => ?_
  unfold sortPassTurn
  show claimPrefix _ _ (if o.peekLpmSort = true then s else _) r = _
  rw [if_pos hlpm]
  rfl

/-- So can the order of the result. -/
theorem sent_lpmSort {mh mh' : Req → Int} (depr : Finset ReqId) {queue queue' : List Req}
    (hview : queue.map (sortView mh) = queue'.map (sortView mh')) :
    (lpmSort mh depr queue).map Req.sent = (lpmSort mh' depr queue').map Req.sent := by
  have hkeys : ∀ (mh : Req → Int) (queue : List Req),
      (queue.map fun r => (mh r, decide (r.rid ∈ depr))) =
        (queue.map (sortView mh)).map fun p => (p.2, decide (p.1.rid ∈ depr)) := by
    intro mh queue
    rw [List.map_map]
    rfl
  have hsent : ∀ (mh : Req → Int) (queue : List Req) (i : Nat),
      (queue.getD i default).sent = ((queue.map (sortView mh)).map Prod.fst).getD i default := by
    intro mh queue i
    rw [List.map_map]
    exact (List.getD_map _ _ _).symm
  unfold lpmSort
  simp only [List.map_map]
  rw [hkeys, hkeys, hview]
  refine List.map_congr_left fun i _ => ?_
  show (queue.getD i default).sent = (queue'.getD i default).sent
  rw [hsent mh, hsent mh', hview]

/-- **Queues that look the same are sorted the same way.** -/
theorem sent_peekSortInplace (hlpm : o.peekLpmSort = true) {ridToInt' : Map ReqId Rid}
    {hits hits' : Option (Map Rid Int)} {queue' : List Req}
    (hview : queue.map (sortView (mainHit ridToInt hits)) =
      queue'.map (sortView (mainHit ridToInt' hits'))) :
    (peekSortInplace queue ridToInt tree { o with mainHits := hits }).1.map Req.sent =
      (peekSortInplace queue' ridToInt' tree { o with mainHits := hits' }).1.map Req.sent := by
  have horder : ∀ (ids : Map ReqId Rid) (hits : Option (Map Rid Int)) (queue : List Req),
      (peekSortInplace queue ids tree { o with mainHits := hits }).1 = lpmSort (mainHit ids hits)
        ((queue.map (sortView (mainHit ids hits))).foldl
          (fun s p => claimPrefix o (fun _ => p.2) s p.1) ⟨∅, ∅, ∅⟩).deprioritized queue := by
    intro ids hits queue
    rw [← foldl_sortPassTurn hlpm hits]
    exact peekSortInplace_lpm hlpm
  rw [horder, horder, hview]
  exact sent_lpmSort _ hview

/-! ### The two sorts -/

variable (hlpm : o.peekLpmSort = true) (hcheck : 0 ≤ o.checkThreshold)
  (hdepr : 1 ≤ o.deprioritizeThreshold)
include hlpm hcheck hdepr

/-- A matched queue is sorted as the policy sorts it. -/
theorem peekSortInplace_matched (c : RadixCache)
    (hreq : ∀ r ∈ queue, r.extraKey = none ∧ r.peekMatched = false)
    (hmh : ∀ r ∈ (computePrefixMatches o.checkThreshold o.deprioritizeThreshold c queue).2,
      mainHit ridToInt o.mainHits r = r.prefixIndices.length) :
    let m := computePrefixMatches o.checkThreshold o.deprioritizeThreshold c queue
    (peekSortInplace m.2 ridToInt tree o).1 =
      sortByLongestPrefix m.2 m.1.temporaryDeprioritized := by
  obtain ⟨d, hd⟩ := Int.eq_ofNat_of_zero_le (show 0 ≤ o.deprioritizeThreshold by omega)
  rw [hd] at hmh ⊢
  have hclaims : Claims d (computePrefixMatches o.checkThreshold d c queue).1 _ :=
    forEach_sim (Claims.turn hlpm hcheck hd ∅) queue _ _ (claims_init (by omega) c) hreq hmh
  intro m
  rw [peekSortInplace_lpm hlpm, lpmSort_eq hmh]
  exact congrArg _ hclaims.deprioritized

/-- An unmatched queue is sorted into the same order, if the hits are what matches would find. -/
theorem peekSortInplace_unmatched {c : RadixCache} (h : Sound c) (href : ∀ r ∈ queue, r.Refers c)
    (hreq : ∀ r ∈ queue, r.extraKey = none ∧ r.peekMatched = false)
    (hmh : ∀ r ∈ queue, mainHit ridToInt o.mainHits r = hitLength c r) :
    let m := computePrefixMatches o.checkThreshold o.deprioritizeThreshold c queue
    (peekSortInplace queue ridToInt tree o).1.map Req.sent =
      (sortByLongestPrefix m.2 m.1.temporaryDeprioritized).map Req.sent := by
  intro m
  have hnone : ∀ r ∈ queue, r.peekMatched = false := fun r hr => (hreq r hr).2
  obtain ⟨-, hsent, -⟩ :=
    computePrefixMatches_current o.checkThreshold o.deprioritizeThreshold h href hnone
  have hbySent : ∀ (mh : Req → Int) (queue : List Req), (∀ r ∈ queue, mh r = hitLength c r) →
      queue.map (sortView mh) = (queue.map Req.sent).map fun r => (r, hitLength c r) := by
    intro mh queue hmh
    rw [List.map_map]
    refine List.map_congr_left fun r hr => ?_
    show (r.sent, mh r) = (r.sent, hitLength c r)
    rw [hmh r hr]
  -- the queue looks to the sort as the matched one does, sorted by its indices
  have hview : queue.map (sortView (mainHit ridToInt o.mainHits)) =
      m.2.map (sortView (mainHit ridToInt none)) := by
    rw [hbySent _ queue hmh, hbySent (mainHit ridToInt none) m.2 fun r hr =>
      length_prefixIndices h href hnone hr, hsent]
  have hmatched := @peekSortInplace_matched { o with mainHits := none } ridToInt tree queue hlpm
    hcheck hdepr c hreq fun _ _ => rfl
  exact (sent_peekSortInplace hlpm hview).trans (congrArg (List.map Req.sent) hmatched)

end

/-! ### A turn -/

/-- Once every queued rid has an id, no other is given out. -/
theorem internQueue_snd {interner : Interner} : ∀ {queue : List Req},
    (∀ r ∈ queue, ∃ i, interner.ridInterner.lookup r.rid = some i) →
      (internQueue interner queue).2 = interner := by
  intro queue h
  unfold internQueue
  refine List.foldlRecOn queue _ (motive := fun p : Map ReqId Rid × Interner => p.2 = interner)
    rfl fun p hp r hr => ?_
  obtain ⟨i, hi⟩ := h r hr
  show (p.2.intern r.rid).2 = interner
  rw [hp, Interner.intern_of_some hi]

theorem sent_lazyMatch (k : Nat) (c : RadixCache) (queue : List Req) :
    (lazyMatch k c queue).2.map Req.sent = queue.map Req.sent := by
  have hturn : ∀ (c : RadixCache) (r : Req), (lazyTurn c r).2.sent = r.sent := by
    intro c r
    unfold lazyTurn
    split
    · rfl
    · rfl
  show ((forEach lazyTurn c (queue.take k)).2 ++ queue.drop k).map Req.sent = _
  rw [List.map_append, map_forEach Req.sent hturn, ← List.map_append, List.take_append_drop]

namespace SglangScheduler

variable {f : CalcFlags} {order : Map Token NodeId → List NodeId} {q : QueueSort}
  {s : SglangScheduler}

/-- What is sorted, and by which hits, when the walk is used. -/
theorem sortedQueue_walk (o : SortOptions) (hwalk : f.skipDualwalk = false) :
    (s.sortedQueue f order (peekSort o)).1 =
      (peekSortInplace s.waitingQueue (internQueue s.hook.session.interner s.waitingQueue).1
        s.hook.session.peekTree { o with
          mainHits := some (dualwalkHits order s.hook.session.peekTree s.treeCache) }).1 := by
  unfold sortedQueue
  simp only [hwalk, Bool.false_eq_true, if_false]
  rfl

theorem sortedQueue_skip (o : SortOptions) (hskip : f.skipDualwalk = true) :
    (s.sortedQueue f order (peekSort o)).1 =
      (peekSortInplace s.waitingQueue (internQueue s.hook.session.interner s.waitingQueue).1
        s.hook.session.peekTree { o with mainHits := none }).1 := by
  unfold sortedQueue
  simp only [if_pos hskip]
  rfl

/-- The queue once every request is matched. -/
def matched (s : SglangScheduler) : SglangScheduler :=
  { s with
    treeCache := (forEach matchTurn s.treeCache s.waitingQueue).1
    waitingQueue := (forEach matchTurn s.treeCache s.waitingQueue).2 }

theorem calcPriority_eager (hlazy : f.lazyMatchPrefix = false) (hf : ¬ s.Fallback f) :
    (s.calcPriority f order q).1 = some true ∧
    (s.calcPriority f order q).2.treeCache = s.matched.treeCache ∧
    (s.calcPriority f order q).2.waitingQueue = (s.matched.sortedQueue f order q).1 := by
  unfold calcPriority
  rw [if_neg hf]
  simp only [hlazy, Bool.false_eq_true, if_false]
  exact ⟨trivial, rfl, rfl⟩

/-- A tick does nothing to the cache but split nodes. -/
theorem onlySplits_calcPriority (h : Inv s) :
    OnlySplits s.treeCache (s.calcPriority f order q).2.treeCache := by
  unfold SglangScheduler.calcPriority
  by_cases hf : s.Fallback f
  · rw [if_pos hf]
    exact OnlySplits.refl _
  · rw [if_neg hf]
    by_cases hlazy : f.lazyMatchPrefix = true
    · simp only [if_pos hlazy]
      exact (forEach_current_iff lazyTurn_matchesBut _ s.treeCache h.sound fun r hr =>
        h.refers r (mem_sortedQueue.mp (List.mem_of_mem_take hr))).1
    · simp only [if_neg hlazy]
      exact (forEach_current_iff matchTurn_matchesBut s.waitingQueue s.treeCache h.sound h.refers).1

/-- A tick leaves the tables as they are, if they know the queue. -/
theorem hook_calcPriority_of_interned
    (h : ∀ r ∈ s.waitingQueue, ∃ i, s.hook.session.interner.ridInterner.lookup r.rid = some i) :
    (s.calcPriority f order q).2.hook = s.hook := by
  rw [hook_calcPriority]
  by_cases hf : s.Fallback f
  · rw [if_pos hf]
  · rw [if_neg hf]
    by_cases hlazy : f.lazyMatchPrefix = true
    · rw [if_pos hlazy, internQueue_snd h]
    · rw [if_neg hlazy, internQueue_snd fun r hr => ?_]
      have hrids : (forEach matchTurn s.treeCache s.waitingQueue).2.map Req.rid =
          s.waitingQueue.map Req.rid := map_forEach Req.rid (fun _ _ => rfl) _ _
      obtain ⟨r', hr', heq⟩ := List.mem_map.mp (hrids ▸ List.mem_map_of_mem hr)
      rw [← heq]
      exact h r' hr'

end SglangScheduler

/-- A scheduler with the hook installed. -/
structure HookedScheduler where
  scheduler : SglangScheduler
  /-- The queue of the last sync.  No code reads it. -/
  synced : List Req

namespace HookedScheduler

def new (pageSize : Nat) : HookedScheduler :=
  { scheduler := SglangScheduler.new pageSize false, synced := [] }

variable (f : CalcFlags) (order : Map Token NodeId → List NodeId) (seen : List Rid → List Rid)
  (o : SortOptions)

/-- `_sync` with the waiting queue. -/
def sync (s : HookedScheduler) : HookedScheduler :=
  { scheduler := { s.scheduler with hook := s.scheduler.hook.sync seen s.scheduler.waitingQueue }
    synced := s.scheduler.waitingQueue }

/-- `get_next_batch_to_run`, up to where the queue is in order. -/
def turn (s : HookedScheduler) : Option Bool × HookedScheduler :=
  let (answer, scheduler) := (s.sync seen).scheduler.calcPriority f order (peekSort o)
  (answer, { s.sync seen with scheduler := scheduler })

/-- A rid that waits and has waited at the last sync has the prompt it had then. -/
def CarriesOn (s : HookedScheduler) : Prop :=
  SglangHook.Carries s.synced s.scheduler.waitingQueue

/-- What happens: calls on the cache, changes of the queue, syncs when requests come, and turns. -/
inductive Step : HookedScheduler → HookedScheduler → Prop
  | cache {s : HookedScheduler} {treeCache : RadixCache}
      (h : RadixCache.Step s.scheduler.treeCache treeCache) :
      Step s { s with scheduler := { s.scheduler with treeCache := treeCache } }
  | queue {s : HookedScheduler} (waitingQueue : List Req)
      (h : ∀ r ∈ waitingQueue, r.Refers s.scheduler.treeCache) :
      Step s { s with scheduler := { s.scheduler with waitingQueue := waitingQueue } }
  | sync {s : HookedScheduler} (h : s.CarriesOn) : Step s (s.sync seen)
  | turn {s : HookedScheduler} (h : s.CarriesOn) : Step s (s.turn f order seen o).2

/-- The cache is sound and switched on, and the tables are those of the last queue. -/
structure Inv (pageSize : Nat) (s : HookedScheduler) : Prop where
  scheduler : SglangScheduler.Inv s.scheduler
  synced : SglangHook.Synced s.scheduler.hook s.synced
  pageSize : s.scheduler.treeCache.pageSize = pageSize
  enabled : s.scheduler.treeCache.disable = false

variable {f order seen o} {pageSize : Nat} {s s' : HookedScheduler}

theorem new_inv (hps : 0 < pageSize) : Inv pageSize (new pageSize) where
  scheduler := SglangScheduler.new_inv hps false
  synced := SglangHook.new_synced
  pageSize := rfl
  enabled := rfl

theorem Inv.sync (h : Inv pageSize s) (hseen : ∀ l, (seen l).Perm l) (hc : s.CarriesOn) :
    Inv pageSize (s.sync seen) where
  scheduler := ⟨h.scheduler.sound, h.scheduler.refers⟩
  synced := h.synced.sync hseen hc
  pageSize := h.pageSize
  enabled := h.enabled

theorem Inv.interned (h : Inv pageSize (s.sync seen)) : ∀ r ∈ s.scheduler.waitingQueue,
    ∃ i, (s.sync seen).scheduler.hook.session.interner.ridInterner.lookup r.rid = some i :=
  fun r hr => h.synced.tracks.interned r.rid (SglangHook.queueTokens_ne_none_iff.mpr ⟨r, hr, rfl⟩)

theorem Inv.turn (h : Inv pageSize s) (hseen : ∀ l, (seen l).Perm l) (hc : s.CarriesOn) :
    Inv pageSize (s.turn f order seen o).2 := by
  have hsync := h.sync hseen hc
  have hs : OnlySplits _ (s.turn f order seen o).2.scheduler.treeCache :=
    SglangScheduler.onlySplits_calcPriority hsync.scheduler
  have hlater := hs.later hsync.scheduler.sound
  refine ⟨hsync.scheduler.calcPriority, ?_, hlater.pageSize.trans hsync.pageSize,
    hlater.disable.trans hsync.enabled⟩
  show SglangHook.Synced ((s.sync seen).scheduler.calcPriority f order (peekSort o)).2.hook _
  rw [SglangScheduler.hook_calcPriority_of_interned hsync.interned]
  exact hsync.synced

theorem Inv.step (h : Inv pageSize s) (hseen : ∀ l, (seen l).Perm l)
    (hs : Step f order seen o s s') : Inv pageSize s' := by
  cases hs with
  | cache hcache =>
      obtain ⟨hsound, hlater⟩ := h.scheduler.sound.step hcache
      exact ⟨⟨hsound, fun r hr => (h.scheduler.refers r hr).later hlater⟩, h.synced,
        hlater.pageSize.trans h.pageSize, hlater.disable.trans h.enabled⟩
  | queue waitingQueue href => exact ⟨⟨h.scheduler.sound, href⟩, h.synced, h.pageSize, h.enabled⟩
  | sync hc => exact h.sync hseen hc
  | turn hc => exact h.turn hseen hc

theorem run_inv (hps : 0 < pageSize) (hseen : ∀ l, (seen l).Perm l)
    (hrun : Relation.ReflTransGen (Step f order seen o) (new pageSize) s) : Inv pageSize s := by
  induction hrun with
  | refl => exact new_inv hps
  | tail _ hstep ih => exact ih.step hseen hstep

/-! ### The same turn without the hook -/

/-- Settings under which the hook is meant to do what stock longest-prefix-match does. -/
structure StockOrder (f : CalcFlags) (o : SortOptions) (p : StockPolicy) : Prop where
  peekLpm : f.peekLpm = true
  peekLpmSort : o.peekLpmSort = true
  fallback : f.lpmFallbackThreshold = 128
  /-- Lazy mode has nothing but the walk to sort by. -/
  walks : f.lazyMatchPrefix = true → f.skipDualwalk = false
  policy : p.policy = .aware .lpm
  checkThreshold : o.checkThreshold = p.checkThreshold
  deprioritizeThreshold : o.deprioritizeThreshold = p.deprioritizeThreshold
  check : 0 ≤ p.checkThreshold
  deprioritize : 1 ≤ p.deprioritizeThreshold

/-- What `calc_priority` of the stock policy does with a queue. -/
theorem StockOrder.calcPriority_eq {p : StockPolicy} (hso : StockOrder f o p)
    (info : ReqId → ReqInfo) (c : RadixCache) (queue : List Req)
    (running : Option (List (Option String))) : p.calcPriority info c queue running =
      if queue.length > 128 then (false, c, queue)
      else
        let m := computePrefixMatches o.checkThreshold o.deprioritizeThreshold c queue
        (true, m.1.treeCache, sortByLongestPrefix m.2 m.1.temporaryDeprioritized) := by
  unfold StockPolicy.calcPriority StockPolicy.determineActivePolicy
  rw [hso.policy, if_neg (by simp), hso.checkThreshold, hso.deprioritizeThreshold]
  by_cases hlong : queue.length > 128
  · rw [if_pos ⟨rfl, hlong⟩, if_pos hlong]
  · rw [if_neg fun hc => hlong hc.2, if_neg hlong]

/-- In sync, the walk finds for every waiting request what a match would find. -/
theorem Inv.mainHit_eq (h : Inv pageSize (s.sync seen)) (hone : pageSize = 1)
    (horder : ∀ children, (order children).Perm (Map.values children))
    (hnd : (s.scheduler.waitingQueue.map Req.rid).Nodup) {c : RadixCache}
    (hs : OnlySplits s.scheduler.treeCache c) {queue : List Req}
    (hsent : queue.map Req.sent = s.scheduler.waitingQueue.map Req.sent)
    (hplain : ∀ r ∈ s.scheduler.waitingQueue, r.extraKey = none) :
    ∀ r ∈ queue, mainHit (internQueue (s.sync seen).scheduler.hook.session.interner queue).1
      (some (dualwalkHits order (s.sync seen).scheduler.hook.session.peekTree c)) r =
        hitLength s.scheduler.treeCache r := by
  have hfrom : ∀ r ∈ queue, ∃ r' ∈ s.scheduler.waitingQueue, r'.sent = r.sent := fun r hr =>
    List.mem_map.mp (hsent ▸ List.mem_map_of_mem hr)
  have hsound := hs.sound h.scheduler.sound
  have hlater := hs.later h.scheduler.sound
  intro r hr
  rw [mainHit_dualwalkHits horder hsound h.synced.tracks (fun r hr => ?_) hr]
  · obtain ⟨r', hr', heq⟩ := hfrom r hr
    have hkey : r.extraKey = none := (congrArg Req.extraKey heq).symm.trans (hplain r' hr')
    rw [cacheMatch_eq_hitLength hsound (hlater.pageSize.trans (h.pageSize.trans hone))
      (hlater.disable.trans h.enabled) hkey]
    unfold hitLength
    rw [length_match_onlySplits hs h.scheduler.sound r.key]
  · obtain ⟨r', hr', heq⟩ := hfrom r hr
    have htokens := SglangHook.queueTokens_of_mem hnd hr'
    have hrid : r'.sent.rid = r.sent.rid := congrArg Req.rid heq
    have hsame : r'.sent.tokens = r.sent.tokens := congrArg Req.tokens heq
    show SglangHook.queueTokens s.scheduler.waitingQueue r.sent.rid = some r.sent.tokens
    rw [← hrid, ← hsame]
    exact htokens

/-- Longest-prefix-match with the walk, and nothing put off. -/
def walking : CalcFlags := ⟨true, 128, false, 0, false⟩

def shortPrefixes : SortOptions :=
  { checkThreshold := 0, deprioritizeThreshold := 2, peekLpmSort := true }

def shortPrefixPolicy : StockPolicy :=
  { alongTheTree with policy := .aware .lpm, checkThreshold := 0, deprioritizeThreshold := 2 }

/-- Two tokens are cached. -/
def twoCached : HookedScheduler :=
  { new 1 with
    scheduler := { (new 1).scheduler with
      treeCache := ((new 1).scheduler.treeCache.insert (dummyParams ⟨[5, 6], none⟩)).2 } }

/-- A request that begins with them comes last. -/
def forked : HookedScheduler :=
  { twoCached with
    scheduler := { twoCached.scheduler with
      waitingQueue := forkQueue ++ [⟨"d", [5, 6, 7], [], none, [], none, false⟩] } }

end HookedScheduler

end Peek
