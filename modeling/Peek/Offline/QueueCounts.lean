/-
What `update_queue_ref_counts` counts (`python/peek/offline/scheduler.py`).

Each waiting request is followed along its hashes, up to the first that is not cached, and every
block on the way is counted.  So a block ends up with the number of places in the queue from
which a request would read it (`queueRefCount_eq_card`): however the requests overlap, whatever
is missing from the cache in between, and whatever the counts were before.
-/
import Peek.Offline.VllmPool
import Mathlib.Algebra.BigOperators.Fin
import Mathlib.Data.Finset.Sigma
import Mathlib.Data.List.GetD

namespace Peek

namespace QueuePool

variable {numBlocks : Nat} (pool : QueuePool numBlocks) (groupIds : List Nat)

/-- Is the block read at a position, with all hashes up to it cached? -/
def ReadAt (b : Fin numBlocks) (hashes : List BlockHash) (j : Nat) : Prop :=
  b ∈ pool.cachedBlocks (hashes.getD j 0) groupIds ∧
    ∀ bh ∈ hashes.take (j + 1), pool.cachedBlocks bh groupIds ≠ []

instance (b : Fin numBlocks) (hashes : List BlockHash) : DecidablePred (pool.ReadAt groupIds b hashes) :=
  fun j => inferInstanceAs (Decidable (b ∈ pool.cachedBlocks (hashes.getD j 0) groupIds ∧
    ∀ bh ∈ hashes.take (j + 1), pool.cachedBlocks bh groupIds ≠ []))

/-- The pairs of a waiting request and a position at which it reads the block. -/
def readers (newRequests : List QueuedReq) (b : Fin numBlocks) : Finset (Σ _ : Nat, Nat) :=
  (Finset.range newRequests.length).sigma fun i =>
    let hashes := (newRequests.getD i default).blockHashes
    (Finset.range hashes.length).filter (pool.ReadAt groupIds b hashes)

/-- What is counted along one request is what it reads. -/
theorem count_countedHashes (hdistinct : ∀ bh, (pool.cachedBlocks bh groupIds).Nodup)
    (b : Fin numBlocks) (hashes : List BlockHash) :
    ((pool.countedHashes groupIds hashes).flatMap fun e => pool.cachedBlocks e.1 e.2).count b =
      ((Finset.range hashes.length).filter (pool.ReadAt groupIds b hashes)).card := by
  show _ = ((List.range hashes.length).filter (pool.ReadAt groupIds b hashes)).length
  rw [← List.countP_eq_length_filter]
  unfold countedHashes
  induction hashes with
  | nil => rfl
  | cons bh rest ih =>
      rw [List.length_cons, List.range_succ_eq_map, List.countP_cons, List.countP_map]
      by_cases hfound : pool.cachedBlocks bh groupIds = []
      · -- nothing is read from a miss on
        have hnone : ∀ j, ¬ pool.ReadAt groupIds b (bh :: rest) j := fun j h =>
          h.2 bh List.mem_cons_self hfound
        rw [List.takeWhile_cons_of_neg (by simpa using hfound)]
        simp [hnone]
      · have hnext : ∀ j, pool.ReadAt groupIds b (bh :: rest) (j + 1) ↔
            pool.ReadAt groupIds b rest j := by
          intro j
          unfold ReadAt
          simp [hfound]
        have hhere : pool.ReadAt groupIds b (bh :: rest) 0 ↔ b ∈ pool.cachedBlocks bh groupIds := by
          unfold ReadAt
          simp [hfound]
        rw [List.takeWhile_cons_of_pos (by simpa using hfound), List.map_cons, List.flatMap_cons,
          List.count_append, ih, (hdistinct bh).count, Nat.add_comm]
        simp [Function.comp_def, hnext, hhere]

/--
**What a block is counted for.**  For all waiting requests, every lookup that returns distinct
blocks and all counts before, a block that is not the null block is counted once for each
request and position at which it is read, and every other block not at all.
-/
theorem queueRefCount_eq_card (newRequests : List QueuedReq)
    (hdistinct : ∀ bh, (pool.cachedBlocks bh groupIds).Nodup) (b : Fin numBlocks) :
    (pool.updateQueueRefCounts newRequests groupIds).queueRefCount b =
      if pool.isNull b then 0 else (pool.readers groupIds newRequests b).card := by
  have hsum : ((newRequests.flatMap fun req => pool.countedHashes groupIds req.blockHashes).flatMap
      fun e => pool.cachedBlocks e.1 e.2).count b = (pool.readers groupIds newRequests b).card := by
    unfold readers
    rw [Finset.card_sigma, Finset.sum_range, List.flatMap_assoc, List.count_flatMap,
      ← Fin.sum_univ_fun_getElem]
    refine Finset.sum_congr rfl fun i _ => ?_
    rw [List.getD_eq_getElem _ _ i.isLt]
    exact pool.count_countedHashes groupIds hdistinct b _
  have hreset : ∀ lookups : List (BlockHash × List Nat),
      (lookups.flatMap fun e => pool.resetQueueRefCounts.cachedBlocks e.1 e.2) =
        lookups.flatMap fun e => pool.cachedBlocks e.1 e.2 := fun _ => rfl
  rw [updateQueueRefCounts_eq, countAll_eq, queueRefCount_incQueueRefCount, hreset, hsum]
  exact Nat.zero_add _

/-- Four blocks, of which the last is the null block.  Two hashes have blocks. -/
def fourBlocks : QueuePool 4 where
  queueRefCount _ := 9
  isNull b := b = 3
  getCachedBlock bh _ := if bh ≤ 1 then some [0, 3] else none

/-- Two requests: one with the same hash twice, one with a hash in the middle that is not cached. -/
def twoReaders : List QueuedReq := [⟨"a", 0, [0, 1, 0]⟩, ⟨"b", 0, [1, 7, 0]⟩]

/-- What comes twice is counted twice, and what comes after the gap is not. -/
theorem queueRefCount_eq_card_gap :
    (fourBlocks.updateQueueRefCounts twoReaders [0]).queueRefCount 0 =
        (fourBlocks.readers [0] twoReaders 0).card ∧
      (fourBlocks.readers [0] twoReaders 0).card = 4 := by
  have hdistinct : ∀ bh, (fourBlocks.cachedBlocks bh [0]).Nodup := by
    intro bh
    unfold cachedBlocks fourBlocks
    by_cases hbh : bh ≤ 1
    · simp [hbh]
    · simp [hbh]
  exact ⟨fourBlocks.queueRefCount_eq_card [0] twoReaders hdistinct 0, by decide⟩

end QueuePool

end Peek
