/-
The scheduling engine for vLLM (`python/peek/offline/engine_vllm.py`) and its hook
(`vllm_on_schedule` in `python/peek/offline/scheduler.py`).

A cycle takes back the counts it gave in the last one, by looking the recorded hashes up
again; groups the new requests by their first hashes; scores, orders and counts the groups.
Without server-side reordering there is no engine, and a cycle only counts.

Times and scores are `float`: the operations are a parameter.
-/
import Peek.Base.Groups
import Peek.Base.Map
import Peek.Base.PyFloat
import Peek.Offline.VllmPool
import Mathlib.Algebra.BigOperators.Group.List.Basic
import Mathlib.Data.List.Sort

namespace Peek

/-- The loop of `detect_sharing`. -/
def sharedKeyLoop {κ : Type} [DecidableEq κ] : List κ → List κ → Bool
  | _, [] => false
  | seen, key :: rest => if key ∈ seen then true else sharedKeyLoop (key :: seen) rest

/-- `detect_sharing` -/
def detectSharedKey {κ : Type} [DecidableEq κ] (prefixKeys : List κ) : Bool :=
  sharedKeyLoop [] prefixKeys

namespace QueuedReq

/-- Nothing of it is computed, and it has a block to look up. -/
def isNew (r : QueuedReq) : Bool := decide (r.numComputedTokens = 0 ∧ r.blockHashes.length > 0)

/-- The length of the key is `_KEY_LEN`. -/
def vllmKeyLen : Nat := 8

/-- The hashes a request is grouped by. -/
def hashKey (r : QueuedReq) : List BlockHash :=
  if r.blockHashes.length ≥ vllmKeyLen then r.blockHashes.take vllmKeyLen
  else if r.blockHashes.length > 0 then r.blockHashes
  else []

end QueuedReq

/-- Is a first hash shared by two new requests? -/
def newShared (waiting : List QueuedReq) : Bool :=
  detectSharedKey ((waiting.filter QueuedReq.isNew).map fun r => r.blockHashes.headD 0)

/-- A cycle goes on only if more than one request is new, and two share their first block. -/
def worthwhile (waiting : List QueuedReq) : Bool :=
  decide ((waiting.filter QueuedReq.isNew).length > 1) && newShared waiting

/-- An entry of `scored`. -/
structure ScoredGroup (F : Type) where
  score : F
  key : List BlockHash
  members : List QueuedReq
  cachedBlocks : Nat

namespace ScoredGroup

variable {F : Type}

/-- `members[0]` -/
def rep (g : ScoredGroup F) : QueuedReq := g.members.headD default

/-- `members.sort(...)`, the shortest first. -/
def sortMembers (g : ScoredGroup F) : ScoredGroup F :=
  { g with
    members := g.members.insertionSort fun r r' => r.blockHashes.length ≤ r'.blockHashes.length }

end ScoredGroup

/-- The attributes of an engine. -/
structure VllmPeekEngine (F : Type) where
  groupIds : List Nat
  /-- `_prev_protected`, from the first cycle on. -/
  prevProtected : Option (List (BlockHash × List Nat))
  groupFirstSeen : Map (List BlockHash) F

namespace VllmPeekEngine

variable {F : Type} (f : PyFloat F) {numBlocks : Nat}

/-- `__init__` -/
def new (groupIds : List Nat) : VllmPeekEngine F := ⟨groupIds, none, ∅⟩

/-- `_BATCH_EST` -/
def batchEst : Nat := 32

/-- One turn of `_match_and_score_groups`. -/
def scoreGroup (pool : QueuePool numBlocks) (groupIds : List Nat)
    (g : List BlockHash × List QueuedReq) : ScoredGroup F :=
  let rep := g.2.headD default
  let cachedBlocks := pool.cachedPrefixLength groupIds rep.blockHashes
  let cacheFrac := f.div (f.ofRat cachedBlocks) (f.ofRat (max rep.blockHashes.length 1 : Nat))
  let futureRefs := g.2.length - batchEst
  let score := f.add (f.sub (f.mul cacheFrac (f.ofRat 10000)) (f.ofRat futureRefs))
    (f.mul (f.ofRat g.2.length) (f.ofRat (1 / 1000)))
  ⟨score, g.1, g.2, cachedBlocks⟩

/-- `_match_and_score_groups` -/
def matchAndScoreGroups (pool : QueuePool numBlocks) (groupIds : List Nat)
    (groups : List (List BlockHash × List QueuedReq)) : List (ScoredGroup F) :=
  groups.map (scoreGroup f pool groupIds)

/-- When a group first appeared; groups that are gone are forgotten. -/
def seeGroups (now : F) (activeKeys : List (List BlockHash)) (seen : Map (List BlockHash) F) :
    Map (List BlockHash) F :=
  let kept := (seen.keys.filter fun key => key ∉ activeKeys).foldl (fun m key => m.erase key) seen
  activeKeys.foldl (fun m key => if (m.lookup key).isSome then m else m.insert key now) kept

/-- How many members a group waits for, and how long. -/
def thresholds (queueDepth : Nat) : Nat × F :=
  if queueDepth < 8 then (1, f.ofRat 0)
  else if queueDepth ≤ 32 then (2, f.ofRat (1 / 100))
  else (4, f.ofRat (3 / 100))

/-- `sort(key=lambda x: x[0], reverse=True)` -/
def sortByScore (groups : List (ScoredGroup F)) : List (ScoredGroup F) :=
  groups.insertionSort fun g g' => ! f.lt g.score g'.score

/-- Is a group scheduled now? -/
def isReady (now : F) (queueDepth : Nat) (firstSeen : Map (List BlockHash) F)
    (g : ScoredGroup F) : Bool :=
  let (threshold, maxWait) := thresholds f queueDepth
  let age := f.sub now ((firstSeen.lookup g.key).getD now)
  decide (g.members.length ≥ threshold) || f.le maxWait age

/-- If no group is ready, the best of the others is. -/
def promote (ready buffering : List (ScoredGroup F)) :
    List (ScoredGroup F) × List (ScoredGroup F) :=
  if ready = [] then
    match sortByScore f buffering with
    | [] => ([], [])
    | best :: rest => ([best], rest)
  else (ready, buffering)

/-- `_reorder_by_score`: the new order, the groups with their members sorted in place, and the
times. -/
def reorderByScore (now : F) (queueDepth : Nat) (firstSeen : Map (List BlockHash) F)
    (groups : List (List BlockHash × List QueuedReq)) (scored : List (ScoredGroup F)) :
    List QueuedReq × List (ScoredGroup F) × Map (List BlockHash) F :=
  let firstSeen := seeGroups now (groups.map (·.1)) firstSeen
  let ready := scored.filter fun g => isReady f now queueDepth firstSeen g
  let buffering := scored.filter fun g => ! isReady f now queueDepth firstSeen g
  let (ready, buffering) := promote f ready buffering
  let reordered := ((sortByScore f ready).map ScoredGroup.sortMembers).flatMap (·.members) ++
    ((sortByScore f buffering).map ScoredGroup.sortMembers).flatMap (·.members)
  (reordered, scored.map ScoredGroup.sortMembers, firstSeen)

/-- `_reset_queue_refs` -/
def resetQueueRefs (e : VllmPeekEngine F) (pool : QueuePool numBlocks) : QueuePool numBlocks :=
  match e.prevProtected with
  | some prev => prev.foldl (fun pool p => pool.clearQueueRefs (pool.cachedBlocks p.1 p.2)) pool
  | none => pool.resetQueueRefCounts

/-- How many groups are protected: two thirds of those that fit into the pool. -/
def protectK (numBlocks : Nat) (scored : List (ScoredGroup F)) : Nat :=
  let capacityGroups :=
    if scored.length > 0 ∧ numBlocks > 0 then
      numBlocks / max 1 ((scored.map fun g => g.rep.blockHashes.length).sum / scored.length)
    else scored.length
  min scored.length (max 1 (capacityGroups * 2 / 3))

/-- `now - first_seen > recency_cutoff and len(members) <= 1` -/
def isStaleSingleton (now : F) (firstSeen : Map (List BlockHash) F) (g : ScoredGroup F) : Bool :=
  f.lt (f.ofRat (1 / 2)) (f.sub now ((firstSeen.lookup g.key).getD now)) &&
    decide (g.members.length ≤ 1)

/-- Count the hashes that are found, and record them. -/
def protectTurn (groupIds : List Nat) (s : QueuePool numBlocks × List (BlockHash × List Nat))
    (bh : BlockHash) : QueuePool numBlocks × List (BlockHash × List Nat) :=
  let blocks := s.1.cachedBlocks bh groupIds
  if blocks ≠ [] then (s.1.incQueueRefCount blocks, s.2 ++ [(bh, groupIds)]) else s

/-- One turn of the loop over the groups. -/
def protectGroup (groupIds : List Nat) (now : F) (firstSeen : Map (List BlockHash) F)
    (s : QueuePool numBlocks × List (BlockHash × List Nat)) (g : ScoredGroup F) :
    QueuePool numBlocks × List (BlockHash × List Nat) :=
  if g.cachedBlocks = 0 then s
  else if isStaleSingleton f now firstSeen g then s
  else (g.rep.blockHashes.take g.cachedBlocks).foldl (protectTurn groupIds) s

/-- `_protect_top_groups` -/
def protectTopGroups (e : VllmPeekEngine F) (now : F) (pool : QueuePool numBlocks)
    (scored : List (ScoredGroup F)) : QueuePool numBlocks × VllmPeekEngine F :=
  let (pool, isProtected) := (scored.take (protectK numBlocks scored)).foldl
    (protectGroup f e.groupIds now e.groupFirstSeen) (pool, [])
  (pool, { e with prevProtected := some isProtected })

/-- `VllmPeekEngine.run`; the clock is read twice. -/
def run (e : VllmPeekEngine F) (pool : QueuePool numBlocks) (now now' : F)
    (waiting : List QueuedReq) : QueuePool numBlocks × VllmPeekEngine F × List QueuedReq :=
  if worthwhile waiting = false then (pool, e, waiting)
  else
    let newReqs := waiting.filter QueuedReq.isNew
    let other := waiting.filter fun r => ! r.isNew
    let pool := e.resetQueueRefs pool
    let groups := groupBy QueuedReq.hashKey newReqs
    let scored := matchAndScoreGroups f pool e.groupIds groups
    let (reordered, scored, firstSeen) :=
      reorderByScore f now waiting.length e.groupFirstSeen groups scored
    let (pool, e) := protectTopGroups f { e with groupFirstSeen := firstSeen } now' pool scored
    (pool, e, reordered ++ other)

end VllmPeekEngine

/-! ### The hook -/

/-- What the hook reads of a scheduler and the environment, when it is called. -/
structure VllmGates where
  /-- `enable_queue_aware_eviction`; `false` also where there is no pool to ask. -/
  queueAware : Bool
  enableCaching : Bool
  /-- `len(kv_mgr.managers)`, if it has that attribute. -/
  managers : Option Nat
  /-- `PEEK_OFFLINE_SERVER_REORDER` is `1`. -/
  serverReorder : Bool

namespace VllmGates

def groupIds (gates : VllmGates) : List Nat :=
  match gates.managers with
  | some k => List.range k
  | none => [0]

end VllmGates

/-- The pool, and the engine once there is one. -/
structure VllmState (numBlocks : Nat) (F : Type) where
  pool : QueuePool numBlocks
  engine : Option (VllmPeekEngine F)

namespace VllmState

variable {F : Type} (f : PyFloat F) {numBlocks : Nat}

/-- `vllm_on_schedule` -/
def vllmOnSchedule (s : VllmState numBlocks F) (gates : VllmGates) (now now' : F)
    (waiting : List QueuedReq) : VllmState numBlocks F × List QueuedReq :=
  if ! gates.queueAware then (s, waiting)
  else if ! gates.enableCaching then (s, waiting)
  else if waiting = [] then (s, waiting)
  else if ! gates.serverReorder then
    if worthwhile waiting then
      ({ s with
          pool := s.pool.updateQueueRefCounts (waiting.filter QueuedReq.isNew) gates.groupIds },
        waiting)
    else (s, waiting)
  else
    let engine := s.engine.getD (VllmPeekEngine.new gates.groupIds)
    let (pool, engine, waiting) := engine.run f s.pool now now' waiting
    (⟨pool, some engine⟩, waiting)

end VllmState

end Peek
