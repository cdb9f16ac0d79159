/-
Taking new blocks from the pool (`_peek_get_new_blocks`, as a whole).

The scan of the free queue stops early, so what it has put off depends on where it stopped.  It
stops before the end of its window only with enough blocks that are not in demand; otherwise it
has seen the whole window.  So what is taken can be read off the window (`peekGetNewBlocks_eq`).
What is taken leaves the queue, and is allocated block by block as vLLM does it.

The functions of vLLM that do this are parameters, with what is documented of them.
-/
import Peek.Online.BlockPool
import Peek.Base.Sorting

namespace Peek

namespace BlockPool

variable (cluster : Bool) (index : DemandIndex)

/-! ### What is taken from a window -/

/-- The blocks of a window that nobody waits for, in the order of the queue. -/
def undemanded (window : List KVCacheBlock) : List KVCacheBlock :=
  window.filter fun b => demandOf index b = 0

/-- The other blocks of a window, by their priorities and then by their positions. -/
def demandedByPriority (window : List KVCacheBlock) : List KVCacheBlock :=
  ((window.zipIdx.filter fun e => demandOf index e.1 ≠ 0).insertionSort fun x y =>
    toLex (priorityOf cluster index x.1, x.2) ≤ toLex (priorityOf cluster index y.1, y.2)).map (·.1)

/-- The part of the free queue that a scan may look at. -/
def window (evictionScanCap : Int) (pool : BlockPool) (numBlocks : Nat) : List KVCacheBlock :=
  pool.freeBlockQueue.take (scanCap evictionScanCap numBlocks)

/-- What is put off is what is in demand, with its priority and its position. -/
theorem lowDemand_scanAll (passed : List KVCacheBlock) : (scanAll cluster index passed).lowDemand =
    (passed.zipIdx.filter fun e => demandOf index e.1 ≠ 0).map fun e =>
      (priorityOf cluster index e.1, e.2, e.1) := by
  induction passed using List.reverseRecOn with
  | nil => rfl
  | append_singleton passed cur ih =>
      have hstep : scanAll cluster index (passed ++ [cur]) =
          scanTurn cluster index (scanAll cluster index passed) cur := by
        unfold scanAll
        rw [List.foldl_append]
        rfl
      rw [hstep, scanTurn_eq, List.zipIdx_append, List.filter_append, List.map_append, ← ih,
        (scanAll_scanned cluster index passed).scanned]
      by_cases hd : demandOf index cur = 0
      · rw [if_pos hd]
        simp [hd]
      · rw [if_neg hd]
        simp [hd]

theorem sortLowDemand_scanAll (passed : List KVCacheBlock) :
    (sortLowDemand (scanAll cluster index passed).lowDemand).map (·.2.2) =
      demandedByPriority cluster index passed := by
  have hsort := List.map_insertionSort
    (r := fun x y : KVCacheBlock × Nat =>
      toLex (priorityOf cluster index x.1, x.2) ≤ toLex (priorityOf cluster index y.1, y.2))
    (s := fun x y : Int × Nat × KVCacheBlock => toLex (x.1, x.2.1) ≤ toLex (y.1, y.2.1))
    (fun e => (priorityOf cluster index e.1, e.2, e.1))
    (passed.zipIdx.filter fun e => demandOf index e.1 ≠ 0) fun _ _ _ _ => Iff.rfl
  unfold sortLowDemand demandedByPriority
  rw [lowDemand_scanAll, ← hsort, List.map_map]
  rfl

theorem picked_scanAll (passed : List KVCacheBlock) :
    (scanAll cluster index passed).picked = undemanded index passed :=
  (scanAll_scanned cluster index passed).picked

/-- A block of a window is in demand or not. -/
theorem undemanded_append_perm (l : List KVCacheBlock) :
    (undemanded index l ++ demandedByPriority cluster index l).Perm l := by
  have hrest : (demandedByPriority cluster index l).Perm
      (l.filter fun b => demandOf index b ≠ 0) := by
    unfold demandedByPriority
    refine ((List.perm_insertionSort _ _).map _).trans (List.Perm.of_eq ?_)
    conv_rhs => rw [← List.zipIdx_map_fst 0 l]
    rw [List.filter_map]
    rfl
  refine (hrest.append_left _).trans ?_
  unfold undemanded
  simp only [ne_eq, decide_not]
  exact List.filter_append_perm _ l

/-- The scan does not pick more than it was asked for, and does not leave its window. -/
theorem scanLoop_within (numBlocks cap : Nat) : ∀ (rest : List KVCacheBlock) (s : Scan),
    s.picked.length ≤ numBlocks → s.scanned ≤ cap →
    (scanLoop cluster index numBlocks cap rest s).picked.length ≤ numBlocks ∧
      (scanLoop cluster index numBlocks cap rest s).scanned ≤ cap := by
  intro rest
  induction rest with
  | nil => intro s hpicked hscanned; exact ⟨hpicked, hscanned⟩
  | cons cur rest ih =>
      intro s hpicked hscanned
      unfold scanLoop
      by_cases hgo : s.picked.length < numBlocks ∧ s.scanned < cap
      · rw [if_pos hgo, scanTurn_eq]
        split
        · refine ih _ ?_ hgo.2
          rw [List.length_append, List.length_singleton]
          exact hgo.1
        · exact ih _ hpicked hgo.2
      · rw [if_neg hgo]
        exact ⟨hpicked, hscanned⟩

/--
**What the scan has seen.**  It ends in its window: with enough picked, or at the window's end.
-/
theorem scanFree_window (evictionScanCap : Int) (pool : BlockPool) (numBlocks : Nat) :
    ∃ passed, passed <+: window evictionScanCap pool numBlocks ∧
      scanFree evictionScanCap cluster index pool numBlocks = scanAll cluster index passed ∧
      (undemanded index passed).length ≤ numBlocks ∧
      (passed = window evictionScanCap pool numBlocks ∨
        (undemanded index passed).length = numBlocks) := by
  obtain ⟨passed, left, hqueue, heq, hend⟩ :=
    scanFree_eq cluster index evictionScanCap pool numBlocks
  have hwithin := scanLoop_within cluster index numBlocks
    (scanCap evictionScanCap numBlocks) pool.freeBlockQueue ⟨[], [], 0⟩ (Nat.zero_le _) (Nat.zero_le _)
  have hscan : scanFree evictionScanCap cluster index pool numBlocks = scanLoop cluster index
    numBlocks (scanCap evictionScanCap numBlocks) pool.freeBlockQueue ⟨[], [], 0⟩ := rfl
  rw [← hscan, heq, picked_scanAll, (scanAll_scanned cluster index passed).scanned] at hwithin
  rw [picked_scanAll] at hend
  have hpre : passed <+: window evictionScanCap pool numBlocks := by
    unfold window
    rw [hqueue, List.prefix_take_iff]
    exact ⟨List.prefix_append _ _, hwithin.2⟩
  refine ⟨passed, hpre, heq, hwithin.1, ?_⟩
  rcases hend with hleft | henough | hcap
  · refine Or.inl (hpre.eq_of_length_le ?_)
    unfold window
    rw [hqueue, hleft, List.append_nil]
    exact List.length_take_le' _ _
  · exact Or.inr (Nat.le_antisymm hwithin.1 henough)
  · refine Or.inl (hpre.eq_of_length_le ?_)
    unfold window
    exact (List.length_take_le _ _).trans hcap

/-- **What is taken, read off the window.** -/
theorem topUp_scanFree (evictionScanCap : Int) (pool : BlockPool) (numBlocks : Nat) :
    topUp numBlocks (scanFree evictionScanCap cluster index pool numBlocks) =
      (undemanded index (window evictionScanCap pool numBlocks)).take numBlocks ++
        (demandedByPriority cluster index (window evictionScanCap pool numBlocks)).take
          (numBlocks - (undemanded index (window evictionScanCap pool numBlocks)).length) := by
  obtain ⟨passed, hpre, heq, hle, hend⟩ :=
    scanFree_window cluster index evictionScanCap pool numBlocks
  rw [heq]
  unfold topUp
  rw [picked_scanAll]
  set W := window evictionScanCap pool numBlocks
  by_cases hfew : (undemanded index passed).length < numBlocks
  · -- the whole window was seen
    have hall : passed = W := hend.resolve_right (Nat.ne_of_lt hfew)
    have htake := List.take_of_length_le (Nat.le_of_lt hfew)
    rw [hall] at htake
    rw [if_pos hfew, List.map_take, sortLowDemand_scanAll, hall, htake]
  · have hlen : (undemanded index passed).length = numBlocks :=
      Nat.le_antisymm hle (Nat.le_of_not_lt hfew)
    have hpicked : undemanded index passed <+: undemanded index W := List.IsPrefix.filter _ hpre
    have hmany := hpicked.length_le
    rw [hlen] at hmany
    have htake := List.prefix_iff_eq_take.mp hpicked
    rw [hlen] at htake
    rw [if_neg hfew, Nat.sub_eq_zero_of_le hmany, List.take_zero, List.append_nil, ← htake]

variable {cluster index} in
/-- **When the choice is the hook's**, and what it is. -/
theorem peekGetNewBlocks_eq (evictionScanCap : Int) {pool : BlockPool} {n : Nat}
    (hon : pool.enableCaching = true) (hdemand : index.blockHashDemand.entries ≠ []) (hn : 1 ≤ n)
    (hle : n ≤ pool.getNumFreeBlocks) :
    peekGetNewBlocks evictionScanCap cluster index pool n =
      if n ≤ (window evictionScanCap pool n).length then
        some ((undemanded index (window evictionScanCap pool n)).take n ++
          (demandedByPriority cluster index (window evictionScanCap pool n)).take
            (n - (undemanded index (window evictionScanCap pool n)).length))
      else none := by
  have hsum := (undemanded_append_perm cluster index (window evictionScanCap pool n)).length_eq
  rw [List.length_append] at hsum
  unfold peekGetNewBlocks
  have hcan : ¬ ((n : Int) ≤ 0 ∨ pool.enableCaching = false) := by
    rw [hon]
    simp only [Bool.true_eq_false, or_false]
    omega
  rw [if_neg hcan, if_neg (by omega), if_neg hdemand, Int.toNat_natCast,
    topUp_scanFree]
  simp only [List.length_append, List.length_take]
  by_cases hwide : n ≤ (window evictionScanCap pool n).length
  · rw [if_pos hwide, if_neg (by omega)]
  · rw [if_neg hwide, if_pos (by omega)]

end BlockPool

/-! ### The state of the pool -/

abbrev BlockId := Nat

/-- vLLM's block pool, with what the hook reads and writes of it. -/
structure BlockState (σ : Type) where
  enableCaching : Bool
  metricsCollector : Bool
  /-- The linked list of the free blocks, from its head. -/
  freeBlockQueue : List BlockId
  blockHash : BlockId → Option (BlockHash × Nat)
  refCnt : BlockId → Int
  /-- What else vLLM keeps. -/
  rest : σ

/-- The functions of vLLM that the hook calls. -/
structure VllmBlockPool (σ : Type) where
  /-- `free_block_queue.remove` -/
  remove : BlockState σ → BlockId → BlockState σ
  /-- `_maybe_evict_cached_block` -/
  maybeEvictCachedBlock : BlockState σ → BlockId → BlockState σ
  /-- `metrics_collector.on_block_allocated` -/
  onBlockAllocated : BlockState σ → BlockId → BlockState σ
  /-- The stock `get_new_blocks`; no blocks if it raises an exception. -/
  getNewBlocks : BlockState σ → Int → Option (List BlockId) × BlockState σ

/--
What vLLM documents: `remove` takes a block out of the free list, evicting a block changes what
is cached, and nothing of this changes a reference count.
-/
structure VllmBlockPool.Documented {σ : Type} (v : VllmBlockPool σ) : Prop where
  remove_queue : ∀ s b, b ∈ s.freeBlockQueue →
    (v.remove s b).freeBlockQueue = s.freeBlockQueue.erase b
  remove_refCnt : ∀ s b, (v.remove s b).refCnt = s.refCnt
  evict_queue : ∀ s b, (v.maybeEvictCachedBlock s b).freeBlockQueue = s.freeBlockQueue
  evict_refCnt : ∀ s b, (v.maybeEvictCachedBlock s b).refCnt = s.refCnt
  allocated_queue : ∀ s b, (v.onBlockAllocated s b).freeBlockQueue = s.freeBlockQueue
  allocated_refCnt : ∀ s b, (v.onBlockAllocated s b).refCnt = s.refCnt

namespace BlockState

variable {σ : Type} (v : VllmBlockPool σ)

/-- What the scan sees. -/
def pool (s : BlockState σ) : BlockPool :=
  { enableCaching := s.enableCaching
    freeBlockQueue := s.freeBlockQueue.map fun b => ⟨b, s.blockHash b⟩ }

/-- The loop over the picked blocks; `false` where its assertion fails. -/
def allocateLoop : List BlockId → BlockState σ → Bool × BlockState σ
  | [], s => (true, s)
  | blk :: rest, s =>
      let s := v.maybeEvictCachedBlock s blk
      if s.refCnt blk = 0 then
        let s := { s with refCnt := Function.update s.refCnt blk (s.refCnt blk + 1) }
        let s := if s.metricsCollector then v.onBlockAllocated s blk else s
        allocateLoop rest s
      else (false, s)

/-- `_peek_get_new_blocks`; no blocks if an exception is raised. -/
def peekGetNewBlocks (evictionScanCap : Int) (cluster : Bool) (index : DemandIndex)
    (s : BlockState σ) (numBlocks : Int) : Option (List BlockId) × BlockState σ :=
  match s.pool.peekGetNewBlocks evictionScanCap cluster index numBlocks with
  | none => v.getNewBlocks s numBlocks
  | some picked =>
      let picked := picked.map (·.blockId)
      let s := picked.foldl v.remove s
      match allocateLoop v picked s with
      | (true, s) => (some picked, s)
      | (false, s) => (none, s)

variable {v} {s : BlockState σ}

/-- **Detaching**: what stays in the queue stays in its order. -/
theorem foldl_remove (hv : v.Documented) : ∀ (picked : List BlockId) (s : BlockState σ),
    s.freeBlockQueue.Nodup → picked.Nodup → (∀ b ∈ picked, b ∈ s.freeBlockQueue) →
    (picked.foldl v.remove s).freeBlockQueue = s.freeBlockQueue.filter (fun b => b ∉ picked) ∧
      (picked.foldl v.remove s).refCnt = s.refCnt := by
  intro picked
  induction picked with
  | nil => intro s _ _ _; exact ⟨by simp, rfl⟩
  | cons blk picked ih =>
      intro s hnd hpicked hmem
      rw [List.nodup_cons] at hpicked
      rw [List.forall_mem_cons] at hmem
      have hremove := hv.remove_queue s blk hmem.1
      have hstay : ∀ b ∈ picked, b ∈ (v.remove s blk).freeBlockQueue := by
        intro b hb
        rw [hremove, hnd.mem_erase_iff]
        exact ⟨fun heq => hpicked.1 (heq ▸ hb), hmem.2 b hb⟩
      obtain ⟨hqueue, href⟩ := ih (v.remove s blk) (hremove ▸ hnd.erase blk) hpicked.2 hstay
      refine ⟨?_, href.trans (hv.remove_refCnt s blk)⟩
      rw [List.foldl_cons, hqueue, hremove, hnd.erase_eq_filter, List.filter_filter]
      refine List.filter_congr fun b _ => ?_
      by_cases hb : b = blk
      · simp [hb]
      · simp [hb]

/-- **Allocating**: every block is counted once, and the queue is not touched. -/
theorem allocateLoop_spec (hv : v.Documented) : ∀ (picked : List BlockId) (s : BlockState σ),
    picked.Nodup → (∀ b ∈ picked, s.refCnt b = 0) →
    ∃ s', allocateLoop v picked s = (true, s') ∧ s'.freeBlockQueue = s.freeBlockQueue ∧
      ∀ b, s'.refCnt b = if b ∈ picked then 1 else s.refCnt b := by
  intro picked
  induction picked with
  | nil => intro s _ _; exact ⟨s, rfl, rfl, fun b => (if_neg List.not_mem_nil).symm⟩
  | cons blk picked ih =>
      intro s hpicked hzero
      rw [List.nodup_cons] at hpicked
      rw [List.forall_mem_cons] at hzero
      set s1 := v.maybeEvictCachedBlock s blk with hs1
      have href1 : s1.refCnt = s.refCnt := hv.evict_refCnt s blk
      set s2 : BlockState σ :=
        { s1 with refCnt := Function.update s1.refCnt blk (s1.refCnt blk + 1) } with hs2
      set s3 := if s2.metricsCollector then v.onBlockAllocated s2 blk else s2 with hs3
      have href3 : s3.refCnt = Function.update s.refCnt blk 1 := by
        have href2 : s2.refCnt = Function.update s.refCnt blk 1 := by
          rw [hs2]
          simp only
          rw [href1, hzero.1]
          rfl
        rw [hs3]
        split
        · rw [hv.allocated_refCnt, href2]
        · exact href2
      have hqueue3 : s3.freeBlockQueue = s.freeBlockQueue := by
        rw [hs3]
        split
        · exact (hv.allocated_queue s2 blk).trans (hv.evict_queue s blk)
        · exact hv.evict_queue s blk
      have hzero3 : ∀ b ∈ picked, s3.refCnt b = 0 := by
        intro b hb
        have hne : b ≠ blk := fun heq => hpicked.1 (heq ▸ hb)
        rw [href3, Function.update_of_ne hne]
        exact hzero.2 b hb
      obtain ⟨s', hloop, hqueue, href⟩ := ih s3 hpicked.2 hzero3
      refine ⟨s', ?_, hqueue.trans hqueue3, fun b => ?_⟩
      · rw [allocateLoop, ← hs1, if_pos (by rw [href1]; exact hzero.1)]
        exact hloop
      · rw [href, href3]
        by_cases hb : b = blk
        · subst hb
          rw [if_neg hpicked.1, Function.update_self, if_pos List.mem_cons_self]
        · rw [Function.update_of_ne hb]
          simp [List.mem_cons, hb]

/-- What the hook has chosen leaves the queue, is used once and is returned. -/
theorem peekGetNewBlocks_of_some (hv : v.Documented) {evictionScanCap : Int} {cluster : Bool}
    {index : DemandIndex} {n : Int} {picked : List KVCacheBlock}
    (hpool : s.pool.peekGetNewBlocks evictionScanCap cluster index n = some picked)
    (hnd : s.freeBlockQueue.Nodup) (hfree : ∀ b ∈ s.freeBlockQueue, s.refCnt b = 0)
    (hnodup : (picked.map (·.blockId)).Nodup)
    (hqueue : ∀ b ∈ picked.map (·.blockId), b ∈ s.freeBlockQueue) :
    ∃ s', s.peekGetNewBlocks v evictionScanCap cluster index n =
        (some (picked.map (·.blockId)), s') ∧
      s'.freeBlockQueue = s.freeBlockQueue.filter (fun b => b ∉ picked.map (·.blockId)) ∧
      ∀ b, s'.refCnt b = if b ∈ picked.map (·.blockId) then 1 else s.refCnt b := by
  obtain ⟨hdetached, href⟩ := foldl_remove hv (picked.map (·.blockId)) s hnd hnodup hqueue
  obtain ⟨s', hloop, hkept, hcnt⟩ := allocateLoop_spec hv (picked.map (·.blockId))
    ((picked.map (·.blockId)).foldl v.remove s) hnodup fun b hb => by
      rw [href]
      exact hfree b (hqueue b hb)
  refine ⟨s', ?_, hkept.trans hdetached, fun b => by rw [hcnt, href]⟩
  unfold peekGetNewBlocks
  rw [hpool]
  simp only [hloop]

open BlockPool

/--
**Which blocks are taken.**  With caching on, a free queue of unused blocks, somebody waiting and
`n` blocks to be had: if the window of the scan has `n` blocks, then `n` distinct blocks of it are
returned.  These are the first `n` that nobody waits for, if there are as many, and otherwise all
of them and then the others by priority and position.  They are used once, and the rest of the
queue keeps its order.  If the window is too short, it is the stock allocation of the state as it
was.
-/
theorem peekGetNewBlocks_chooses {σ : Type} {v : VllmBlockPool σ} (hv : v.Documented)
    (evictionScanCap : Int) (cluster : Bool) (index : DemandIndex) {s : BlockState σ} {n : Nat}
    (hon : s.enableCaching = true) (hnd : s.freeBlockQueue.Nodup)
    (hfree : ∀ b ∈ s.freeBlockQueue, s.refCnt b = 0)
    (hdemand : index.blockHashDemand.entries ≠ []) (hn : 1 ≤ n)
    (hle : n ≤ s.freeBlockQueue.length) :
    let W := window evictionScanCap s.pool n
    let result := s.peekGetNewBlocks v evictionScanCap cluster index n
    (n ≤ W.length → ∃ picked : List KVCacheBlock,
      result.1 = some (picked.map (·.blockId)) ∧ picked.length = n ∧
      (picked.map (·.blockId)).Nodup ∧ (∀ b ∈ picked, b ∈ W) ∧
      (n ≤ (undemanded index W).length → picked = (undemanded index W).take n) ∧
      ((undemanded index W).length < n → picked = undemanded index W ++
        (demandedByPriority cluster index W).take (n - (undemanded index W).length)) ∧
      result.2.freeBlockQueue = s.freeBlockQueue.filter (fun b => b ∉ picked.map (·.blockId)) ∧
      ∀ b, result.2.refCnt b = if b ∈ picked.map (·.blockId) then 1 else s.refCnt b) ∧
    (W.length < n → result = v.getNewBlocks s n) := by
  intro W result
  have hpool : s.pool.peekGetNewBlocks evictionScanCap cluster index n = _ :=
    peekGetNewBlocks_eq evictionScanCap hon hdemand hn (by simpa [getNumFreeBlocks, pool] using hle)
  have hresult : result = s.peekGetNewBlocks v evictionScanCap cluster index n := rfl
  constructor
  · intro hwide
    rw [if_pos hwide] at hpool
    set picked := (undemanded index W).take n ++
      (demandedByPriority cluster index W).take (n - (undemanded index W).length) with hpicked
    have hperm := undemanded_append_perm cluster index W
    have hsub : picked.Sublist (undemanded index W ++ demandedByPriority cluster index W) :=
      (List.take_sublist _ _).append (List.take_sublist _ _)
    have hids : W.map (·.blockId) = s.freeBlockQueue.take (scanCap evictionScanCap n) := by
      show ((s.freeBlockQueue.map _).take _).map _ = _
      rw [← List.map_take, List.map_map]
      exact List.map_id _
    have hnodup : (picked.map (·.blockId)).Nodup := by
      refine ((hperm.map _).nodup_iff.mpr ?_).sublist (hsub.map _)
      rw [hids]
      exact hnd.sublist (List.take_sublist _ _)
    have hmem : ∀ b ∈ picked, b ∈ W := fun b hb => hperm.subset (hsub.subset hb)
    have hqueue : ∀ b ∈ picked.map (·.blockId), b ∈ s.freeBlockQueue := by
      intro b hb
      obtain ⟨blk, hblk, rfl⟩ := List.mem_map.mp hb
      have hin := List.mem_map_of_mem (f := fun b : KVCacheBlock => b.blockId) (hmem blk hblk)
      rw [hids] at hin
      exact List.mem_of_mem_take hin
    obtain ⟨s', hreturn, hkept, hcnt⟩ := peekGetNewBlocks_of_some hv hpool hnd hfree hnodup hqueue
    rw [← hresult] at hreturn
    have hlen := hperm.length_eq
    rw [List.length_append] at hlen
    refine ⟨picked, by rw [hreturn], ?_, hnodup, hmem, fun hmany => ?_, fun hfew => ?_, ?_, fun b => ?_⟩
    · rw [hpicked, List.length_append, List.length_take, List.length_take]
      omega
    · rw [hpicked, Nat.sub_eq_zero_of_le hmany, List.take_zero, List.append_nil]
    · rw [hpicked, List.take_of_length_le (Nat.le_of_lt hfew)]
    · rw [hreturn]
      exact hkept
    · rw [hreturn]
      exact hcnt b
  · intro hshort
    rw [if_neg (Nat.not_le_of_lt hshort)] at hpool
    rw [hresult]
    unfold peekGetNewBlocks
    rw [hpool]

/-! ### A pool -/

/-- What is cached, by its hash. -/
abbrev CachedBlocks := List ((BlockHash × Nat) × BlockId)

/-- A block is taken out of the free list, or of what is cached. -/
def plainPool : VllmBlockPool CachedBlocks where
  remove s b := { s with freeBlockQueue := s.freeBlockQueue.erase b }
  maybeEvictCachedBlock s b :=
    { s with
      blockHash := Function.update s.blockHash b none, rest := s.rest.filter fun e => e.2 ≠ b }
  onBlockAllocated s _ := s
  getNewBlocks s numBlocks :=
    if numBlocks > s.freeBlockQueue.length then (none, s)
    else
      let picked := s.freeBlockQueue.take numBlocks.toNat
      (some picked,
        { s with
          freeBlockQueue := s.freeBlockQueue.drop numBlocks.toNat
          refCnt := fun b => if b ∈ picked then s.refCnt b + 1 else s.refCnt b
          blockHash := fun b => if b ∈ picked then none else s.blockHash b
          rest := s.rest.filter fun e => e.2 ∉ picked })

theorem plainPool_documented : plainPool.Documented where
  remove_queue _ _ _ := rfl
  remove_refCnt _ _ := rfl
  evict_queue _ _ := rfl
  evict_refCnt _ _ := rfl
  allocated_queue _ _ := rfl
  allocated_refCnt _ _ := rfl

/-- Four free blocks, three of which are cached; two of these are in demand. -/
def fourFree : BlockState CachedBlocks where
  enableCaching := true
  metricsCollector := true
  freeBlockQueue := [1, 2, 3, 4]
  blockHash b := if b = 4 then none else some (b, 0)
  refCnt _ := 0
  rest := [((1, 0), 1), ((2, 0), 2), ((3, 0), 3)]

/-- Two requests wait for the third block, one for the first. -/
def threeWaiting : DemandIndex :=
  ((DemandIndex.new.bumpRid false [3] 1).bumpRid false [3] 2).bumpRid false [1] 3

/-- The two blocks nobody waits for are taken, and the one in least demand. -/
theorem peekGetNewBlocks_takes :
    (fourFree.peekGetNewBlocks plainPool 0 false threeWaiting 3).1 = some [2, 4, 1] ∧
    ∃ picked : List KVCacheBlock,
      (fourFree.peekGetNewBlocks plainPool 0 false threeWaiting 3).1 =
        some (picked.map (·.blockId)) ∧
      picked = undemanded threeWaiting (window 0 fourFree.pool 3) ++
        (demandedByPriority false threeWaiting (window 0 fourFree.pool 3)).take 1 ∧
      ∀ b, (fourFree.peekGetNewBlocks plainPool 0 false threeWaiting 3).2.refCnt b =
        if b ∈ picked.map (·.blockId) then 1 else 0 := by
  obtain ⟨picked, hreturn, -, -, -, -, hfew, -, hcnt⟩ := (peekGetNewBlocks_chooses
    plainPool_documented 0 false threeWaiting (s := fourFree) (n := 3) rfl (by decide)
    (fun _ _ => rfl) (by decide) (by decide) (by decide)).1 (by decide)
  exact ⟨by decide, picked, hreturn, hfew (by decide), hcnt⟩

end BlockState

end Peek
