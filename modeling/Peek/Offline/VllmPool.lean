/-
Queue counts on vLLM's blocks (`python/peek/offline/vllm_patches/install.py` and
`update_queue_ref_counts` in `python/peek/offline/scheduler.py`).

The patch adds a counter to every block of the pool.  Nothing in vLLM resets it: a block keeps its
count when it is evicted, and when it is cached again under another hash.  Which blocks are cached
under which hash is vLLM's business; what `get_cached_block` finds is part of the state.
-/
import Peek.Online.DemandIndex
import Peek.Sglang.SchedulePolicy

namespace Peek

/-- A request in vLLM's waiting queue. -/
structure QueuedReq where
  requestId : ReqId
  numComputedTokens : Nat
  blockHashes : List BlockHash
  deriving DecidableEq

instance : Inhabited QueuedReq := ⟨⟨"", 0, []⟩⟩

/-- The blocks of a pool, as the patched code sees them. -/
structure QueuePool (numBlocks : Nat) where
  queueRefCount : Fin numBlocks → Nat
  isNull : Fin numBlocks → Bool
  /-- vLLM's `get_cached_block`: the blocks cached under a hash, one for each group. -/
  getCachedBlock : BlockHash → List Nat → Option (List (Fin numBlocks))

namespace QueuePool

variable {numBlocks : Nat}

def resetQueueRefCounts (pool : QueuePool numBlocks) : QueuePool numBlocks :=
  { pool with queueRefCount := fun _ => 0 }

def incTurn (pool : QueuePool numBlocks) (b : Fin numBlocks) : QueuePool numBlocks :=
  if pool.isNull b then pool
  else
    { pool with
      queueRefCount := Function.update pool.queueRefCount b (pool.queueRefCount b + 1) }

def incQueueRefCount (pool : QueuePool numBlocks) (blocks : List (Fin numBlocks)) :
    QueuePool numBlocks :=
  blocks.foldl incTurn pool

/-- `for b in blocks: b.queue_ref_count = 0` -/
def clearQueueRefs (pool : QueuePool numBlocks) (blocks : List (Fin numBlocks)) :
    QueuePool numBlocks :=
  { pool with queueRefCount := fun b => if b ∈ blocks then 0 else pool.queueRefCount b }

/-- What is cached under a hash; callers ask whether it is anything. -/
def cachedBlocks (pool : QueuePool numBlocks) (bh : BlockHash) (groupIds : List Nat) :
    List (Fin numBlocks) :=
  (pool.getCachedBlock bh groupIds).getD []

/-- Count a request along its hashes, up to the first that is not cached. -/
def countLoop (groupIds : List Nat) : List BlockHash → QueuePool numBlocks → QueuePool numBlocks
  | [], pool => pool
  | bh :: rest, pool =>
      let blocks := pool.cachedBlocks bh groupIds
      if blocks ≠ [] then countLoop groupIds rest (pool.incQueueRefCount blocks) else pool

/-- `update_queue_ref_counts` -/
def updateQueueRefCounts (pool : QueuePool numBlocks) (newRequests : List QueuedReq)
    (groupIds : List Nat) : QueuePool numBlocks :=
  newRequests.foldl (fun pool req => countLoop groupIds req.blockHashes pool)
    pool.resetQueueRefCounts

/-- `vllm_cached_prefix_length` -/
def cachedPrefixLength (pool : QueuePool numBlocks) (groupIds : List Nat) :
    List BlockHash → Nat
  | [] => 0
  | bh :: rest =>
      if pool.cachedBlocks bh groupIds ≠ [] then pool.cachedPrefixLength groupIds rest + 1 else 0

/-! ### Who is counted -/

/-- The pool after some lookups were counted. -/
def countAll (pool : QueuePool numBlocks) (lookups : List (BlockHash × List Nat)) :
    QueuePool numBlocks :=
  lookups.foldl (fun pool e => pool.incQueueRefCount (pool.cachedBlocks e.1 e.2)) pool

variable (pool : QueuePool numBlocks)

/-- Counting changes counts only. -/
theorem getCachedBlock_incTurn (b : Fin numBlocks) :
    (pool.incTurn b).getCachedBlock = pool.getCachedBlock := by
  unfold incTurn
  split <;> rfl

theorem isNull_incTurn (b : Fin numBlocks) : (pool.incTurn b).isNull = pool.isNull := by
  unfold incTurn
  split <;> rfl

theorem getCachedBlock_incQueueRefCount (blocks : List (Fin numBlocks)) :
    (pool.incQueueRefCount blocks).getCachedBlock = pool.getCachedBlock := by
  unfold incQueueRefCount
  induction blocks generalizing pool with
  | nil => rfl
  | cons b blocks ih =>
      rw [List.foldl_cons, ih]
      exact getCachedBlock_incTurn pool b

theorem cachedBlocks_congr {pool' : QueuePool numBlocks}
    (h : pool'.getCachedBlock = pool.getCachedBlock) (bh : BlockHash) (groupIds : List Nat) :
    pool'.cachedBlocks bh groupIds = pool.cachedBlocks bh groupIds := by
  unfold cachedBlocks
  rw [h]

/-- The lookups all see the same cache, so they are counted as one list of blocks. -/
theorem countAll_eq (lookups : List (BlockHash × List Nat)) :
    pool.countAll lookups =
      pool.incQueueRefCount (lookups.flatMap fun e => pool.cachedBlocks e.1 e.2) := by
  unfold countAll
  induction lookups generalizing pool with
  | nil => rfl
  | cons e lookups ih =>
      rw [List.foldl_cons, ih, List.flatMap_cons]
      unfold incQueueRefCount
      rw [List.foldl_append]
      congr 1
      apply List.flatMap_congr
      intro e' _
      exact cachedBlocks_congr pool (getCachedBlock_incQueueRefCount pool _) e'.1 e'.2

theorem getCachedBlock_countAll (lookups : List (BlockHash × List Nat)) :
    (pool.countAll lookups).getCachedBlock = pool.getCachedBlock := by
  rw [countAll_eq]
  exact getCachedBlock_incQueueRefCount pool _

theorem queueRefCount_incTurn (b b' : Fin numBlocks) :
    (pool.incTurn b').queueRefCount b =
      pool.queueRefCount b + if pool.isNull b = false ∧ b' = b then 1 else 0 := by
  unfold incTurn
  by_cases hb : b' = b
  · subst hb
    cases hnull : pool.isNull b' with
    | true => simp
    | false => simp
  · have hother : ¬ (pool.isNull b = false ∧ b' = b) := fun h => hb h.2
    rw [if_neg hother, Nat.add_zero]
    split
    · rfl
    · exact Function.update_of_ne (Ne.symm hb) _ _

/-- **A block is counted as often as it is found**, if it is not the null block. -/
theorem queueRefCount_incQueueRefCount (blocks : List (Fin numBlocks)) (b : Fin numBlocks) :
    (pool.incQueueRefCount blocks).queueRefCount b =
      pool.queueRefCount b + if pool.isNull b then 0 else blocks.count b := by
  unfold incQueueRefCount
  induction blocks generalizing pool with
  | nil => simp
  | cons b' blocks ih =>
      rw [List.foldl_cons, ih, isNull_incTurn, queueRefCount_incTurn, List.count_cons]
      cases pool.isNull b with
      | true => simp
      | false =>
          simp only [true_and, Bool.false_eq_true, if_false, beq_iff_eq]
          omega

/-- Counting adds to a count what does not depend on it. -/
theorem queueRefCount_countAll_eq_iff {pool' : QueuePool numBlocks}
    (hcached : pool'.getCachedBlock = pool.getCachedBlock) (hnull : pool'.isNull = pool.isNull)
    (lookups : List (BlockHash × List Nat)) (b : Fin numBlocks) :
    (pool'.countAll lookups).queueRefCount b = (pool.countAll lookups).queueRefCount b ↔
      pool'.queueRefCount b = pool.queueRefCount b := by
  rw [countAll_eq, countAll_eq, queueRefCount_incQueueRefCount, queueRefCount_incQueueRefCount,
    hnull]
  simp only [cachedBlocks_congr pool hcached]
  exact Nat.add_right_cancel_iff

/-- A count comes from before, or from a lookup that found the block. -/
theorem pos_countAll {b : Fin numBlocks} {lookups : List (BlockHash × List Nat)}
    (h : 0 < (pool.countAll lookups).queueRefCount b) :
    0 < pool.queueRefCount b ∨ ∃ e ∈ lookups, b ∈ pool.cachedBlocks e.1 e.2 := by
  rw [countAll_eq, queueRefCount_incQueueRefCount] at h
  by_cases hb : b ∈ lookups.flatMap fun e => pool.cachedBlocks e.1 e.2
  · exact Or.inr (List.mem_flatMap.mp hb)
  · rw [List.count_eq_zero.mpr hb, ite_self] at h
    exact Or.inl h

/-- What the loop counts of one request. -/
def countedHashes (groupIds : List Nat) (blockHashes : List BlockHash) :
    List (BlockHash × List Nat) :=
  (blockHashes.takeWhile fun bh => pool.cachedBlocks bh groupIds ≠ []).map fun bh => (bh, groupIds)

theorem countLoop_eq (groupIds : List Nat) (blockHashes : List BlockHash) :
    countLoop groupIds blockHashes pool =
      pool.countAll (pool.countedHashes groupIds blockHashes) := by
  induction blockHashes generalizing pool with
  | nil => rfl
  | cons bh rest ih =>
      unfold countLoop countedHashes
      simp only
      by_cases hfound : pool.cachedBlocks bh groupIds ≠ []
      · rw [if_pos hfound, ih, List.takeWhile_cons_of_pos (by simpa using hfound), List.map_cons]
        unfold countAll
        rw [List.foldl_cons]
        unfold countedHashes
        simp only [cachedBlocks_congr pool (getCachedBlock_incQueueRefCount pool _)]
      · rw [if_neg hfound, List.takeWhile_cons_of_neg (by simpa using hfound)]
        rfl

/-- **`update_queue_ref_counts` forgets all counts and counts what it finds.** -/
theorem updateQueueRefCounts_eq (newRequests : List QueuedReq) (groupIds : List Nat) :
    pool.updateQueueRefCounts newRequests groupIds =
      pool.resetQueueRefCounts.countAll
        (newRequests.flatMap fun req => pool.countedHashes groupIds req.blockHashes) := by
  have hloop : ∀ p : QueuePool numBlocks, p.getCachedBlock = pool.getCachedBlock →
      newRequests.foldl (fun pool req => countLoop groupIds req.blockHashes pool) p =
        p.countAll (newRequests.flatMap fun req => pool.countedHashes groupIds req.blockHashes) := by
    induction newRequests with
    | nil => exact fun _ _ => rfl
    | cons req newRequests ih =>
        intro p hp
        have hsame : p.countedHashes groupIds req.blockHashes =
            pool.countedHashes groupIds req.blockHashes := by
          unfold countedHashes
          simp only [cachedBlocks_congr pool hp]
        rw [List.foldl_cons, countLoop_eq, ih _ ((getCachedBlock_countAll p _).trans hp),
          List.flatMap_cons, hsame]
        unfold countAll
        rw [List.foldl_append]
  exact hloop pool.resetQueueRefCounts rfl

end QueuePool

end Peek
