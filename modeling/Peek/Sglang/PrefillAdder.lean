/-
How SGLang fills a prefill batch (`patched_files/schedule_policy.py`, `PrefillAdder`).

The adder keeps budgets: what the memory can still give, for the prompts alone and with the
tokens that are yet to be generated, how many input tokens a batch may have, and how many a
chunk.  `add_one_req` locks the request's cached prefix before it decides, because a lock takes
tokens out of what can be evicted.  `preempt_to_schedule` gives up running requests for a more
urgent one.

Left out: the hybrid caches (`is_hybrid_swa`, `is_hybrid_ssm_cache`) and the diffusion models
(`dllm_config`), which this cache does not serve, and host copies, of which it has none.  A
batch that is `None` is the empty one.  A ratio of tokens is a float in the source and a rational
number here.  What `release_req` frees is not in this repository; `preemptToSchedule` returns the
calls that are made.
-/
import Peek.Sglang.SchedulePolicy
import Mathlib.Data.Prod.Lex
import Mathlib.Data.Rat.Floor

namespace Peek

/-- `int(q)` -/
def truncToInt (q : ℚ) : Int := if 0 ≤ q then ⌊q⌋ else ⌈q⌉

/-- `xs[:n]`, where `n` may count from the end. -/
def sliceTo {α : Type} (xs : List α) (n : Int) : List α :=
  xs.take (if 0 ≤ n then n else xs.length + n).toNat

/-- The fields of a request that the adder reads and writes. -/
structure PrefillReq where
  /-- Requests are told apart by it. -/
  rid : ReqId
  originInputIds : List Token
  outputIds : List Token
  fillIds : List Token
  prefixIndices : List Index
  lastNode : NodeId
  extendInputLen : Int
  /-- `sampling_params.max_new_tokens` -/
  maxNewTokens : Int
  /-- `sampling_params.ignore_eos` -/
  ignoreEos : Bool
  priority : Int
  /-- `time_stats.wait_queue_entry_time` -/
  waitQueueEntryTime : ℚ
  finished : Bool

inductive AddReqResult where
  | continue
  | noToken
  | other
  deriving DecidableEq

structure PrefillAdder where
  pageSize : Nat
  treeCache : RadixCache
  /-- `token_to_kv_pool_allocator.available_size()` -/
  availableSize : Nat
  /-- `running_batch.reqs` -/
  runningBatch : List PrefillReq
  newTokenRatio : ℚ
  remInputTokens : Int
  /-- `None`: chunked prefill is disabled. -/
  remChunkTokens : Option Int
  remTotalTokenOffset : ℚ
  curRemTokenOffset : Int
  /-- For each request, the tokens it has left and those it occupies. -/
  reqStates : Option (List (ℚ × Nat))
  canRunList : List PrefillReq
  preemptList : List PrefillReq
  newChunkedReq : Option PrefillReq
  logHitTokens : Int
  logInputTokens : Int
  prioritySchedulingPreemptionThreshold : Int
  nsaPrefillCpInSeqSplit : Bool
  prefillMaxRequests : Option Nat
  /-- `CLIP_MAX_NEW_TOKENS` -/
  clipMaxNewTokens : Int

namespace PrefillAdder

/-- `IGNORE_EOS_RESERVE_TOKENS` -/
def ignoreEosReserveTokens : Nat := 1

/-- `_get_running_request_total_token_offset` -/
def runningOffset (clip : Int) (ratio : ℚ) (req : PrefillReq) : ℚ :=
  (min (req.maxNewTokens - req.outputIds.length) clip : Int) * ratio

def getRunningRequestTotalTokenOffset (a : PrefillAdder) (req : PrefillReq) : ℚ :=
  runningOffset a.clipMaxNewTokens a.newTokenRatio req

/-- `PrefillAdder(...)` -/
def new (pageSize : Nat) (treeCache : RadixCache) (availableSize : Nat)
    (runningBatch : List PrefillReq) (newTokenRatio : ℚ) (remInputTokens : Int)
    (remChunkTokens : Option Int) (mixedWithDecodeTokens : Int) (threshold : Int)
    (prefillMaxRequests : Option Nat) (nsaPrefillCpInSeqSplit : Bool) (clip : Int) :
    PrefillAdder where
  pageSize := pageSize
  treeCache := treeCache
  availableSize := availableSize
  runningBatch := runningBatch
  newTokenRatio := newTokenRatio
  remInputTokens := remInputTokens - mixedWithDecodeTokens
  remChunkTokens := remChunkTokens.map (· - mixedWithDecodeTokens)
  remTotalTokenOffset :=
    mixedWithDecodeTokens + (runningBatch.map (runningOffset clip newTokenRatio)).sum
  curRemTokenOffset := mixedWithDecodeTokens
  reqStates := none
  canRunList := []
  preemptList := []
  newChunkedReq := none
  logHitTokens := 0
  logInputTokens := 0
  prioritySchedulingPreemptionThreshold := threshold
  nsaPrefillCpInSeqSplit := nsaPrefillCpInSeqSplit
  prefillMaxRequests := prefillMaxRequests
  clipMaxNewTokens := clip

/-! ### Budgets -/

def availableAndEvictable (a : PrefillAdder) : Int :=
  a.availableSize + a.treeCache.evictableSize

def remTotalTokens (a : PrefillAdder) : ℚ := a.availableAndEvictable - a.remTotalTokenOffset

def curRemTokens (a : PrefillAdder) : Int := a.availableAndEvictable - a.curRemTokenOffset

/-- `-(-tokens // page_size) * page_size` -/
def ceilPaged (pageSize : Nat) (tokens : Int) : Int := -(-tokens / pageSize) * pageSize

def ceilPagedTokens (a : PrefillAdder) (tokens : Int) : Int := ceilPaged a.pageSize tokens

def budgetState (a : PrefillAdder) : AddReqResult :=
  if a.remTotalTokens ≤ 0 ∨ a.curRemTokens ≤ 0 then .noToken
  else if a.remInputTokens ≤ 0 then .other
  else if a.remChunkTokens.any (· ≤ 0) then .other
  else .continue

/-- `_update_prefill_budget` -/
def updatePrefillBudget (a : PrefillAdder) (prefixLen extendInputLen maxNewTokens : Int) :
    PrefillAdder :=
  let extendInputLen := a.ceilPagedTokens extendInputLen
  { a with
    remTotalTokenOffset := a.remTotalTokenOffset + (extendInputLen + maxNewTokens : Int)
    curRemTokenOffset := a.curRemTokenOffset + extendInputLen
    remInputTokens := a.remInputTokens - extendInputLen
    remChunkTokens := a.remChunkTokens.map (· - extendInputLen)
    logHitTokens := a.logHitTokens + prefixLen
    logInputTokens := a.logInputTokens + extendInputLen }

/-- `self.can_run_list.append(req)` -/
def append (a : PrefillAdder) (req : PrefillReq) : PrefillAdder :=
  { a with canRunList := a.canRunList ++ [req] }

/-- `_req_inc_lock_ref` -/
def reqIncLockRef (a : PrefillAdder) (req : PrefillReq) : PrefillAdder :=
  { a with treeCache := a.treeCache.incLockRef req.lastNode }

/-- A request cut to `n` new tokens; `n` may be all that it has. -/
def truncate (req : PrefillReq) (n : Int) : PrefillReq :=
  { req with
    extendInputLen := n
    fillIds := sliceTo req.fillIds (req.prefixIndices.length + n) }

/-! ### The request whose last chunk comes next -/

/--
Add the request that is being prefilled in chunks; returns it if it is not finished yet.  Without
chunks there is no such request, and the comparison with `None` fails.
-/
def addChunkedReq (a : PrefillAdder) (req : PrefillReq) :
    Option (Option PrefillReq × PrefillAdder) :=
  match a.remChunkTokens with
  | none => none
  | some remChunkTokens =>
      let remTokens := min remChunkTokens (truncToInt a.remTotalTokens)
      -- it must be added, otherwise its memory would leak
      let remTokens := if remTokens ≤ 0 then remChunkTokens else remTokens
      let truncated : Bool := req.extendInputLen > remTokens
      let req := truncate req (min req.extendInputLen remTokens)
      let maxNewTokens := if truncated then 0 else min req.maxNewTokens a.clipMaxNewTokens
      some (if truncated then some req else none,
        (a.append req).updatePrefillBudget 0 req.extendInputLen maxNewTokens)

/-! ### A request without an end -/

/-- `add_req_state`, but for where it puts what it returns. -/
def reqState (a : PrefillAdder) (r : PrefillReq) : Option (ℚ × Nat) :=
  let newTokenRatio := if r.ignoreEos then 1 else a.newTokenRatio
  let tokensLeft := r.maxNewTokens * newTokenRatio - r.outputIds.length
  let tokensOccupied := r.originInputIds.length + r.outputIds.length
  if tokensLeft ≤ 0 then none else some (tokensLeft, tokensOccupied)

/-- Where the loop of `insert_sort` stops; at the last position, if nothing is as large. -/
def insertSortIndex (tokensLeft : ℚ) (states : List (ℚ × Nat)) : Nat :=
  min (states.findIdx fun s => tokensLeft ≤ s.1) (states.length - 1)

/-- `req_states`, with the new request's among them. -/
def nextReqStates (a : PrefillAdder) (req : PrefillReq) : List (ℚ × Nat) :=
  match a.reqStates with
  | none => ((req :: a.runningBatch ++ a.canRunList).filterMap a.reqState).insertionSort
      fun x y => x.1 ≤ y.1
  | some states =>
      match a.reqState req with
      | none => states
      | some s => states.insertIdx (insertSortIndex s.1 states) s

/-- Whether there is room until the last of `states` is done: each that ends frees its own. -/
def enoughUntilDone (curRemTokens : ℚ) : List (ℚ × Nat) → ℚ → Bool
  | [], _ => true
  | (tokensLeft, tokensOccupied) :: states, tokensFreed =>
      let bs := states.length + 1
      let minFreeTokens := curRemTokens + tokensFreed - tokensLeft * bs
      if minFreeTokens ≤ (ignoreEosReserveTokens * bs : Nat) then false
      else enoughUntilDone curRemTokens states (tokensFreed + tokensOccupied)

def addOneReqIgnoreEos (a : PrefillAdder) (req : PrefillReq) : AddReqResult × PrefillAdder :=
  if (a.ceilPagedTokens req.extendInputLen : ℚ) > min (a.curRemTokens : ℚ) a.remTotalTokens then
    (.noToken, a)
  else
    let states := a.nextReqStates req
    let a := { a with reqStates := some states }
    let curRemTokens : Int := a.curRemTokens - a.ceilPagedTokens req.extendInputLen
    if !enoughUntilDone curRemTokens states 0 then (.noToken, a)
    else if a.remChunkTokens.all (req.extendInputLen ≤ ·) then
      let a := (a.append req).updatePrefillBudget 0 req.extendInputLen
        (min req.maxNewTokens a.clipMaxNewTokens)
      (a.budgetState, a)
    else
      let truncLen := a.remChunkTokens.getD 0
      if truncLen ≤ 0 then (.other, a)
      else
        let req := { req with
          extendInputLen := truncLen, fillIds := sliceTo req.fillIds truncLen }
        let a := { a.append req with newChunkedReq := some req }.updatePrefillBudget 0 truncLen 0
        (a.budgetState, a)

/-! ### Any request -/

/-- `with self._lock_node(last_node):` -/
def lockNode {ρ : Type} (a : PrefillAdder) (lastNode : NodeId)
    (body : PrefillAdder → ρ × PrefillAdder) : ρ × PrefillAdder :=
  let (r, a) := body { a with treeCache := a.treeCache.incLockRef lastNode }
  (r, { a with treeCache := a.treeCache.decLockRef lastNode })

/-- `total_tokens` -/
def totalTokens (a : PrefillAdder) (req : PrefillReq) : Int :=
  req.extendInputLen + min (max (req.maxNewTokens - req.outputIds.length) 0) a.clipMaxNewTokens

/-- What `add_one_req` does under the lock; `none` if it does not return. -/
def addLocked (req : PrefillReq) (truncationAlignSize : Option Int) (allowPrefill : Bool)
    (a : PrefillAdder) : Option AddReqResult × PrefillAdder :=
  let prefixLen := req.prefixIndices.length
  -- the total may have fallen with the lock
  if (a.totalTokens req : ℚ) ≥ a.remTotalTokens then (some .noToken, a)
  else
    let inputTokens := a.ceilPagedTokens req.extendInputLen
    if inputTokens ≥ a.remInputTokens ∧ a.canRunList ≠ [] then (some .other, a)
    else if !allowPrefill then (some .other, a)
    else if a.remChunkTokens.all (inputTokens ≤ ·) then
      (none, ((a.append req).reqIncLockRef req).updatePrefillBudget prefixLen inputTokens
        (min req.maxNewTokens a.clipMaxNewTokens))
    else
      -- at least one page must be left
      let truncLen := a.remChunkTokens.getD 0 / a.pageSize * a.pageSize
      if truncLen ≤ 0 then (some .other, a)
      else if truncationAlignSize.any (truncLen < ·) then (some .other, a)
      else
        let truncLen := truncationAlignSize.elim truncLen fun align => align * (truncLen / align)
        let req := truncate req truncLen
        (none, ({ a.append req with newChunkedReq := some req }.reqIncLockRef
          req).updatePrefillBudget prefixLen truncLen 0)

/--
Add a request to the batch, if the budgets allow.  `allowPrefill` is what the prefill delayer
answers, if there is one.
-/
def addOneReq (a : PrefillAdder) (req : PrefillReq) (truncationAlignSize : Option Int)
    (allowPrefill : Bool) : AddReqResult × PrefillAdder :=
  if a.nsaPrefillCpInSeqSplit ∧ a.canRunList.length ≥ 1 then (.other, a)
  else if a.prefillMaxRequests.any (· ≤ a.canRunList.length) then (.other, a)
  else if req.ignoreEos ∧ a.treeCache.disable then a.addOneReqIgnoreEos req
  else if (a.totalTokens req : ℚ) ≥ a.remTotalTokens then (.noToken, a)
  else if a.ceilPagedTokens req.extendInputLen ≥ a.remInputTokens ∧ a.canRunList ≠ [] then
    (.other, a)
  else
    match a.lockNode req.lastNode (addLocked req truncationAlignSize allowPrefill) with
    | (some result, a) => (result, a)
    | (none, a) => (a.budgetState, a)

/-! ### Preemption -/

/-- `priority_sign` -/
def prioritySign (scheduleLowPriorityValuesFirst : Bool) : Int :=
  if scheduleLowPriorityValuesFirst then 1 else -1

/-- The least urgent first, and of those the last that came. -/
def preemptKey (sign : Int) (r : PrefillReq) : Int ×ₗ ℚ :=
  toLex (r.priority * -sign, -r.waitQueueEntryTime)

/-- The running requests that may be preempted at all. -/
def validRunningReqs (a : PrefillAdder) : List PrefillReq :=
  a.runningBatch.filter fun r => r.rid ∉ a.preemptList.map (·.rid) ∧ !r.finished

/-- `priority_diff > self.priority_scheduling_preemption_threshold` -/
def Preemptible (a : PrefillAdder) (sign : Int) (req r : PrefillReq) : Prop :=
  (req.priority - r.priority) * -sign > a.prioritySchedulingPreemptionThreshold

instance (a : PrefillAdder) (sign : Int) (req r : PrefillReq) :
    Decidable (a.Preemptible sign req r) :=
  inferInstanceAs (Decidable (_ > _))

/-- The loop that picks requests until enough is removed; returns what is missing then. -/
def preemptLoop (a : PrefillAdder) (sign : Int) (req : PrefillReq) :
    List PrefillReq → ℚ → List PrefillReq × ℚ
  | [], minTokensToRemove => ([], minTokensToRemove)
  | r :: rs, minTokensToRemove =>
      if a.Preemptible sign req r then
        let minTokensToRemove := minTokensToRemove - a.getRunningRequestTotalTokenOffset r
        if minTokensToRemove ≤ 0 then ([r], minTokensToRemove)
        else
          let (picked, minTokensToRemove) := preemptLoop a sign req rs minTokensToRemove
          (r :: picked, minTokensToRemove)
      else ([], minTokensToRemove)

/-- The arguments of one call of `release_req`: an index, and how many requests then remain. -/
abbrev ReleaseCall := Nat × Nat

/-- The loop that releases the picked requests, from index `i` on. -/
def releaseLoop (a : PrefillAdder) (picked : List ReqId) (numReqs : Nat) :
    Nat → Nat → List PrefillReq → ℚ × List ReleaseCall × List PrefillReq
  | _, _, [] => (0, [], [])
  | i, counter, r :: rs =>
      if r.rid ∈ picked then
        let (removed, calls, kept) := releaseLoop a picked numReqs (i + 1) (counter + 1) rs
        (a.getRunningRequestTotalTokenOffset r + removed, (i, numReqs - (counter + 1)) :: calls,
          kept)
      else
        let (removed, calls, kept) := releaseLoop a picked numReqs (i + 1) counter rs
        (removed, calls, r :: kept)

/-- `min_tokens_to_remove`, before anything is. -/
def minTokensToRemove (a : PrefillAdder) (req : PrefillReq) : ℚ :=
  (req.extendInputLen + min req.maxNewTokens a.clipMaxNewTokens : Int) - a.remTotalTokens

/--
Preempt running requests for a more urgent one.  Returns whether it was done, and the calls of
`release_req`.
-/
def preemptToSchedule (a : PrefillAdder) (req : PrefillReq)
    (scheduleLowPriorityValuesFirst : Bool) : Bool × List ReleaseCall × PrefillAdder :=
  let sign := prioritySign scheduleLowPriorityValuesFirst
  let sortedValidRunningReqs := a.validRunningReqs.insertionSort fun x y =>
    preemptKey sign x ≤ preemptKey sign y
  let (preemptibleReqs, missing) :=
    a.preemptLoop sign req sortedValidRunningReqs (a.minTokensToRemove req)
  if preemptibleReqs = [] ∨ missing > 0 then (false, [], a)
  else
    let (removed, calls, kept) := a.releaseLoop (preemptibleReqs.map (·.rid)) a.runningBatch.length
      0 0 a.runningBatch
    (true, calls, { a with
      remTotalTokenOffset := a.remTotalTokenOffset - removed
      runningBatch := kept
      preemptList := a.preemptList ++ preemptibleReqs })

end PrefillAdder

end Peek
