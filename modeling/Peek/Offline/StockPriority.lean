/-
SGLang's own priorities (`SchedulePolicy.calc_priority`, below the hook of the offline engine).

A policy that knows the cache matches every request and then sorts by what it found; the others
sort by what the requests were sent with, or not at all.  The scheduler takes the answer for
whether the requests carry matches: if it is `True`, it does not match them again before it
computes them.  So the answer must be right for every request of the queue at once, though each
match after a request's own may have split its node (`calcPriority_keeps`).

The numbers and keys a request was sent with are looked up by its id, which no two requests of a
queue share.
-/
import Peek.Offline.QueueKept
import Peek.Sglang.DfsWeight
import Mathlib.Algebra.Order.Ring.Unbundled.Rat
import Mathlib.Data.Prod.Lex
import Mathlib.Data.String.Basic

namespace Peek

open RadixCache

/-- What a request was sent with, and when it came to the queue. -/
structure ReqInfo where
  priority : Int
  maxNewTokens : Int
  waitQueueEntryTime : ℚ
  routingKey : Option String

namespace SchedulePolicy

inductive CacheAwarePolicy
  | lpm
  | dfsWeight
  deriving DecidableEq

inductive CacheAgnosticPolicy
  | fcfs
  | lof
  | random
  | routingKey
  deriving DecidableEq

inductive Policy
  | aware (policy : CacheAwarePolicy)
  | agnostic (policy : CacheAgnosticPolicy)
  deriving DecidableEq

/-! ### The sorts -/

section

variable (info : ReqId → ReqInfo)

/-- `_sort_by_longest_output` -/
def sortByLongestOutput (enablePriorityScheduling : Bool) (sign : Int) (queue : List Req) :
    List Req :=
  if enablePriorityScheduling then
    let key : Req → Int ×ₗ Int := fun r =>
      toLex ((info r.rid).priority * sign, -(info r.rid).maxNewTokens)
    queue.insertionSort fun a b => key a ≤ key b
  else queue.insertionSort fun a b => -(info a.rid).maxNewTokens ≤ -(info b.rid).maxNewTokens

/-- `_sort_by_priority_and_fcfs` -/
def sortByPriorityAndFcfs (sign : Int) (queue : List Req) : List Req :=
  let key : Req → Int ×ₗ ℚ := fun r =>
    toLex ((info r.rid).priority * sign, (info r.rid).waitQueueEntryTime)
  queue.insertionSort fun a b => key a ≤ key b

/-- How many running requests have the key; an empty one does not count. -/
def routingKeyCount (runningBatch : List (Option String)) (key : String) : Nat :=
  runningBatch.countP fun k => k = some key ∧ key ≠ ""

/-- Requests whose key is running come first, the most frequent key before the others. -/
def routingSortKey (runningBatch : List (Option String)) (r : Req) : Nat ×ₗ Int ×ₗ String :=
  let key := (info r.rid).routingKey.getD ""
  let count := routingKeyCount runningBatch key
  if 0 < count then toLex (0, toLex (-(count : Int), key)) else toLex (1, toLex (0, key))

/-- `_sort_by_routing_key` -/
def sortByRoutingKey (runningBatch : List (Option String)) (queue : List Req) : List Req :=
  if runningBatch.all fun k => k.getD "" = "" then queue
  else queue.insertionSort fun a b =>
    routingSortKey info runningBatch a ≤ routingSortKey info runningBatch b

end

/-! ### The policies -/

/-- A scheduler's settings, and what stands for the random shuffle and the dictionaries' order. -/
structure StockPolicy where
  policy : Policy
  enablePriorityScheduling : Bool
  prioritySign : Int
  checkThreshold : Int
  deprioritizeThreshold : Int
  shuffle : List Req → List Req
  children : RadixCache → NodeId → List NodeId

/-- `_determine_active_policy`: a long queue is not matched and sorted. -/
def StockPolicy.determineActivePolicy (p : StockPolicy) (waitingQueue : List Req) : Policy :=
  if p.policy = .aware .lpm ∧ waitingQueue.length > 128 then .agnostic .fcfs else p.policy

/-- `calc_priority`; returns whether matches were computed, the cache, and the queue. -/
def StockPolicy.calcPriority (p : StockPolicy) (info : ReqId → ReqInfo) (treeCache : RadixCache)
    (waitingQueue : List Req) (runningBatch : Option (List (Option String))) :
    Bool × RadixCache × List Req :=
  if p.policy = .agnostic .fcfs then
    (false, treeCache, if p.enablePriorityScheduling then
      sortByPriorityAndFcfs info p.prioritySign waitingQueue else waitingQueue)
  else
    match p.determineActivePolicy waitingQueue with
    | .aware policy =>
        let (found, queue) := computePrefixMatches p.checkThreshold p.deprioritizeThreshold
          treeCache waitingQueue
        (true, found.treeCache, match policy with
          | .lpm => sortByLongestPrefix queue found.temporaryDeprioritized
          | .dfsWeight => sortByDfsWeight (p.children found.treeCache) found.treeCache queue)
    | .agnostic policy =>
        (false, treeCache, match policy with
          | .fcfs => waitingQueue
          | .lof => sortByLongestOutput info p.enablePriorityScheduling p.prioritySign waitingQueue
          | .random => p.shuffle waitingQueue
          | .routingKey => match runningBatch with
              | some running => sortByRoutingKey info running waitingQueue
              | none => waitingQueue)

/-! ### What is kept -/

section

variable (info : ReqId → ReqInfo)

theorem sortByLongestOutput_perm (enable : Bool) (sign : Int) (queue : List Req) :
    (sortByLongestOutput info enable sign queue).Perm queue := by
  unfold sortByLongestOutput
  split
  · exact List.perm_insertionSort _ _
  · exact List.perm_insertionSort _ _

theorem sortByRoutingKey_perm (running : List (Option String)) (queue : List Req) :
    (sortByRoutingKey info running queue).Perm queue := by
  unfold sortByRoutingKey
  split
  · exact List.Perm.refl queue
  · exact List.perm_insertionSort _ _

end

/-- What stands for the shuffle and for the dictionaries does as these do. -/
structure StockPolicy.Proper (p : StockPolicy) : Prop where
  shuffle : ∀ queue, (p.shuffle queue).Perm queue
  children : ∀ c n, (p.children c n).Perm (c.childList n)

/-- A current match ends in the tree. -/
theorem waitsBelow_of_current {c : RadixCache} (h : Sound c) {r : Req} (href : r.Refers c)
    (hr : r.Current c) : WaitsBelow c rootNode r := by
  obtain ⟨m, hcarries, hm⟩ := (Req.current_iff h href).mp hr
  obtain ⟨live, rp, pv, h⟩ := h
  obtain ⟨k, hm⟩ := h.longestMatch_iff.mp hm
  exact ⟨m.lastDeviceNode, hcarries.2, h.inTree_iff.mpr hm.found.live⟩

/-- The matched queue: the same requests, all of them current. -/
theorem computePrefixMatches_current (check depr : Int) {c : RadixCache} (h : Sound c)
    {queue : List Req} (href : ∀ r ∈ queue, r.Refers c)
    (hnone : ∀ r ∈ queue, r.peekMatched = false) :
    let m := computePrefixMatches check depr c queue
    OnlySplits c m.1.treeCache ∧ m.2.map Req.sent = queue.map Req.sent ∧
      (∀ r ∈ m.2, r.Refers m.1.treeCache) ∧ ∀ r ∈ m.2, r.Current m.1.treeCache := by
  have hturn := PeekEngine.prefixMatchTurn_matchesBut check depr
  obtain ⟨hs, href', hcur⟩ := forEach_current_iff hturn queue
    ⟨c, createSimulated, ∅⟩ h href
  have hsent := map_forEach Req.sent (sent_prefixMatchTurn check depr) queue ⟨c, createSimulated, ∅⟩
  refine ⟨hs, hsent, href', hcur.mpr fun r hr hmarked => ?_⟩
  rw [hnone r hr] at hmarked
  exact Bool.noConfusion hmarked

/--
**No policy loses a request, and the answer is right.**  Whatever the policy, the queue has the
same requests afterwards.  If the answer is `True` then each of them carries what matching it now
would return, at a node that is in the tree; and otherwise neither the cache nor any request has
changed.
-/
theorem calcPriority_keeps {p : StockPolicy} (hp : p.Proper) (info : ReqId → ReqInfo)
    {c c' : RadixCache} (h : Sound c) {queue queue' : List Req} (href : ∀ r ∈ queue, r.Refers c)
    (hnone : ∀ r ∈ queue, r.peekMatched = false) (running : Option (List (Option String)))
    {computed : Bool} (heq : p.calcPriority info c queue running = (computed, c', queue')) :
    (queue'.map Req.sent).Perm (queue.map Req.sent) ∧
      (computed = true → Sound c' ∧ OnlySplits c c' ∧
        ∀ r ∈ queue', r.Current c' ∧ WaitsBelow c' rootNode r) ∧
      (computed = false → c' = c ∧ queue'.Perm queue) := by
  have hagnostic : ∀ {q : List Req}, q.Perm queue → (false, c, q) = (computed, c', queue') →
      (queue'.map Req.sent).Perm (queue.map Req.sent) ∧
        (computed = true → Sound c' ∧ OnlySplits c c' ∧
          ∀ r ∈ queue', r.Current c' ∧ WaitsBelow c' rootNode r) ∧
        (computed = false → c' = c ∧ queue'.Perm queue) := by
    rintro q hperm ⟨⟩
    exact ⟨hperm.map _, fun hf => Bool.noConfusion hf, fun _ => ⟨rfl, hperm⟩⟩
  obtain ⟨hs, hsent, href', hcur⟩ :=
    computePrefixMatches_current p.checkThreshold p.deprioritizeThreshold h href hnone
  set m := computePrefixMatches p.checkThreshold p.deprioritizeThreshold c queue with hm
  have hwaits : ∀ r ∈ m.2, WaitsBelow m.1.treeCache rootNode r := fun r hr =>
    waitsBelow_of_current (hs.sound h) (href' r hr) (hcur r hr)
  have haware : ∀ {q : List Req}, q.Perm m.2 → (true, m.1.treeCache, q) = (computed, c', queue') →
      (queue'.map Req.sent).Perm (queue.map Req.sent) ∧
        (computed = true → Sound c' ∧ OnlySplits c c' ∧
          ∀ r ∈ queue', r.Current c' ∧ WaitsBelow c' rootNode r) ∧
        (computed = false → c' = c ∧ queue'.Perm queue) := by
    rintro q hperm ⟨⟩
    refine ⟨hsent ▸ hperm.map _, fun _ => ⟨hs.sound h, hs, fun r hr => ?_⟩,
      fun hf => Bool.noConfusion hf⟩
    have hr := hperm.mem_iff.mp hr
    exact ⟨hcur r hr, hwaits r hr⟩
  unfold StockPolicy.calcPriority at heq
  by_cases hfcfs : p.policy = .agnostic .fcfs
  · rw [if_pos hfcfs] at heq
    refine hagnostic ?_ heq
    split
    · exact List.perm_insertionSort _ _
    · exact List.Perm.refl queue
  · rw [if_neg hfcfs] at heq
    cases hactive : p.determineActivePolicy queue with
    | aware policy =>
        rw [hactive] at heq
        cases policy with
        | lpm => exact haware (List.perm_insertionSort _ _) heq
        | dfsWeight =>
            refine haware ?_ heq
            classical
            obtain ⟨live, rp, pv, hwf⟩ := hs.sound h
            refine (perm_sortByDfsWeight hwf (hp.children _)).trans (List.Perm.of_eq ?_)
            exact List.filter_eq_self.mpr fun r hr => decide_eq_true (hwaits r hr)
    | agnostic policy =>
        rw [hactive] at heq
        cases policy with
        | fcfs => exact hagnostic (List.Perm.refl queue) heq
        | lof => exact hagnostic (sortByLongestOutput_perm info _ _ queue) heq
        | random => exact hagnostic (hp.shuffle queue) heq
        | routingKey =>
            cases running with
            | some running => exact hagnostic (sortByRoutingKey_perm info running queue) heq
            | none => exact hagnostic (List.Perm.refl queue) heq

/-- `dfs-weight` with the dictionaries in their own order. -/
def alongTheTree : StockPolicy where
  policy := .aware .dfsWeight
  enablePriorityScheduling := false
  prioritySign := 1
  checkThreshold := 32
  deprioritizeThreshold := 32
  shuffle queue := queue
  children c := c.childList

/-- One request for each of the two branches, and one more for the second. -/
def threeWaiting : List Req :=
  [⟨"a", [1, 2], [], none, [], none, false⟩, ⟨"b", [1, 3, 4], [], none, [], none, false⟩,
    ⟨"c", [1, 3, 5], [], none, [], none, false⟩]

/-- What the call returns for them. -/
def threeMatched : Bool × RadixCache × List Req :=
  alongTheTree.calcPriority (fun _ => ⟨0, 16, 0, none⟩) twoBranches threeWaiting none

/-- The requests come matched, and those that share a node together. -/
theorem calcPriority_keeps_three :
    threeMatched.2.2.map (fun r => (r.rid, r.prefixIndices)) =
      [("b", [1, 3]), ("c", [1, 3]), ("a", [1, 2])] ∧
    ∀ r ∈ threeMatched.2.2, r.Current threeMatched.2.1 := by
  have hproper : alongTheTree.Proper := ⟨fun _ => List.Perm.refl _, fun _ _ => List.Perm.refl _⟩
  have hnew : ∀ r ∈ threeWaiting, r.lastNode = none ∧ r.peekMatched = false := by decide
  have hrefers : ∀ r ∈ threeWaiting, r.Refers twoBranches := by
    intro r hr n hn
    rw [(hnew r hr).1] at hn
    simp at hn
  have hanswer : threeMatched.1 = true := by decide +kernel
  refine ⟨by decide +kernel, ?_⟩
  have heq : alongTheTree.calcPriority (fun _ => ⟨0, 16, 0, none⟩) twoBranches threeWaiting none =
      threeMatched := rfl
  generalize threeMatched = out at hanswer heq
  obtain ⟨computed, c', queue'⟩ := out
  exact fun r hr => (((calcPriority_keeps hproper (fun _ => ⟨0, 16, 0, none⟩) sound_twoBranches
    hrefers (fun r hr => (hnew r hr).2) none heq).2.1 hanswer).2.2 r hr).1

end SchedulePolicy

end Peek
