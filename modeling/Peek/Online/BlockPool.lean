/-
The vLLM hook's choice of blocks to evict (`_peek_get_new_blocks`, in
`python/peek/online/engines/vllm/patch_hook.py`).

The free queue is walked from its front.  Blocks that no waiting request wants are picked as
they come; the others are put off, and taken by priority if there are too few.  In plain mode
the priority of a block is its demand.  In cluster mode it is weighted by the depth, and a deeper
block of a chain may rank above the blocks it hangs on.

The modes that look at the time of the last access are left out.
-/
import Peek.Online.VllmSync
import Mathlib.Data.Prod.Lex

namespace Peek

structure KVCacheBlock where
  blockId : Nat
  /-- The hash and the group of what is cached in the block. -/
  blockHash : Option (BlockHash × Nat)
  deriving DecidableEq

/-- `get_block_hash` -/
def getBlockHash (bh : BlockHash × Nat) : BlockHash := bh.1

structure BlockPool where
  enableCaching : Bool
  /-- Of the blocks in use by no request, the one freed first is in front. -/
  freeBlockQueue : List KVCacheBlock

namespace BlockPool

def getNumFreeBlocks (pool : BlockPool) : Nat := pool.freeBlockQueue.length

/-- The priority of a block in demand; a higher one is harder to evict. -/
def evictionPriority (cluster : Bool) (index : DemandIndex) (raw : BlockHash) (d : Int) : Int :=
  if cluster then d * (1 + ((index.blockHashMaxDepth.lookup raw).getD 1 : Nat)) else d

/-- The variables of the scan. -/
structure Scan where
  picked : List KVCacheBlock
  /-- Priority, position and block of what is put off. -/
  lowDemand : List (Int × Nat × KVCacheBlock)
  scanned : Nat

def scanTurn (cluster : Bool) (index : DemandIndex) (s : Scan) (cur : KVCacheBlock) : Scan :=
  match cur.blockHash with
  | none => { s with picked := s.picked ++ [cur], scanned := s.scanned + 1 }
  | some bh =>
      let raw := getBlockHash bh
      let d := (index.blockHashDemand.lookup raw).getD 0
      if d = 0 then { s with picked := s.picked ++ [cur], scanned := s.scanned + 1 }
      else
        { s with
          lowDemand := s.lowDemand ++ [(evictionPriority cluster index raw d, s.scanned, cur)]
          scanned := s.scanned + 1 }

/-- The scan, until enough is picked, or the cap is reached, or the queue ends. -/
def scanLoop (cluster : Bool) (index : DemandIndex) (numBlocks cap : Nat) :
    List KVCacheBlock → Scan → Scan
  | [], s => s
  | cur :: rest, s =>
      if s.picked.length < numBlocks ∧ s.scanned < cap then
        scanLoop cluster index numBlocks cap rest (scanTurn cluster index s cur)
      else s

/-- `_EVICTION_SCAN_CAP`, or what it is by default. -/
def scanCap (evictionScanCap : Int) (numBlocks : Nat) : Nat :=
  if evictionScanCap > 0 then evictionScanCap.toNat else max (numBlocks * 4) 256

/-- `low_demand.sort(key=lambda x: (x[0], x[1]))` -/
def sortLowDemand (lowDemand : List (Int × Nat × KVCacheBlock)) :
    List (Int × Nat × KVCacheBlock) :=
  lowDemand.insertionSort fun x y => toLex (x.1, x.2.1) ≤ toLex (y.1, y.2.1)

/-- The scan that looks for `numBlocks` blocks. -/
def scanFree (evictionScanCap : Int) (cluster : Bool) (index : DemandIndex) (pool : BlockPool)
    (numBlocks : Nat) : Scan :=
  scanLoop cluster index numBlocks (scanCap evictionScanCap numBlocks) pool.freeBlockQueue ⟨[], [], 0⟩

/-- If the scan did not pick enough, the lowest priorities of what was put off. -/
def topUp (numBlocks : Nat) (s : Scan) : List KVCacheBlock :=
  if s.picked.length < numBlocks then
    s.picked ++ ((sortLowDemand s.lowDemand).take (numBlocks - s.picked.length)).map (·.2.2)
  else s.picked

/-- `_peek_get_new_blocks`; `none` where the choice is left to vLLM. -/
def peekGetNewBlocks (evictionScanCap : Int) (cluster : Bool) (index : DemandIndex)
    (pool : BlockPool) (numBlocks : Int) : Option (List KVCacheBlock) :=
  if numBlocks ≤ 0 ∨ pool.enableCaching = false then none
  else if numBlocks > pool.getNumFreeBlocks then none
  else if index.blockHashDemand.entries = [] then none
  else
    let picked := topUp numBlocks.toNat
      (scanFree evictionScanCap cluster index pool numBlocks.toNat)
    if picked.length < numBlocks.toNat then none else some picked

theorem peekGetNewBlocks_eq_some_iff {evictionScanCap : Int} {cluster : Bool} {index : DemandIndex}
    {pool : BlockPool} {numBlocks : Int} {picked : List KVCacheBlock} :
    peekGetNewBlocks evictionScanCap cluster index pool numBlocks = some picked ↔
      0 < numBlocks ∧ pool.enableCaching = true ∧ numBlocks ≤ pool.getNumFreeBlocks ∧
        index.blockHashDemand.entries ≠ [] ∧ numBlocks.toNat ≤ picked.length ∧
        picked = topUp numBlocks.toNat
          (scanFree evictionScanCap cluster index pool numBlocks.toNat) := by
  unfold peekGetNewBlocks
  by_cases h1 : numBlocks ≤ 0 ∨ pool.enableCaching = false
  · rw [if_pos h1]
    refine iff_of_false (by simp) fun hc => ?_
    rcases h1 with hn | hoff
    · exact absurd hc.1 (not_lt_of_ge hn)
    · exact absurd (hoff.symm.trans hc.2.1) Bool.false_ne_true
  rw [if_neg h1]
  rw [not_or, Bool.not_eq_false, Int.not_le] at h1
  by_cases h2 : numBlocks > pool.getNumFreeBlocks
  · rw [if_pos h2]
    exact iff_of_false (by simp) fun hc => absurd hc.2.2.1 (not_le_of_gt h2)
  rw [if_neg h2]
  by_cases h3 : index.blockHashDemand.entries = []
  · rw [if_pos h3]
    exact iff_of_false (by simp) fun hc => hc.2.2.2.1 h3
  rw [if_neg h3]
  simp only
  split
  · rename_i hshort
    refine iff_of_false (by simp) fun hc => ?_
    rw [← hc.2.2.2.2.2] at hshort
    exact absurd hc.2.2.2.2.1 (Nat.not_le_of_lt hshort)
  · rename_i hlong
    rw [Option.some.injEq, eq_comm]
    constructor
    · rintro rfl
      exact ⟨h1.1, h1.2, not_lt.mp h2, h3, not_lt.mp hlong, rfl⟩
    · exact fun hc => hc.2.2.2.2.2

/-! ### What the scan finds -/

section

variable (cluster : Bool) (index : DemandIndex)

/-- How much the hash of a block is in demand. -/
def demandOf (b : KVCacheBlock) : Int :=
  match b.blockHash with
  | none => 0
  | some bh => (index.blockHashDemand.lookup (getBlockHash bh)).getD 0

def priorityOf (b : KVCacheBlock) : Int :=
  match b.blockHash with
  | none => 0
  | some bh => evictionPriority cluster index (getBlockHash bh) (demandOf index b)

theorem scanTurn_eq (s : Scan) (cur : KVCacheBlock) :
    scanTurn cluster index s cur =
      if demandOf index cur = 0 then
        { s with picked := s.picked ++ [cur], scanned := s.scanned + 1 }
      else
        { s with
          lowDemand := s.lowDemand ++ [(priorityOf cluster index cur, s.scanned, cur)]
          scanned := s.scanned + 1 } := by
  unfold scanTurn priorityOf demandOf
  cases cur.blockHash with
  | none => rw [if_pos rfl]
  | some bh => rfl

/-- What the scan knows of the blocks it has passed. -/
structure Scanned (front : List KVCacheBlock) (s : Scan) : Prop where
  scanned : s.scanned = front.length
  picked : s.picked = front.filter fun b => demandOf index b = 0
  lowDemand : ∀ e, e ∈ s.lowDemand ↔ front[e.2.1]? = some e.2.2 ∧ demandOf index e.2.2 ≠ 0 ∧
    e.1 = priorityOf cluster index e.2.2
  length : s.picked.length + s.lowDemand.length = front.length

theorem scanned_nil : Scanned cluster index [] ⟨[], [], 0⟩ where
  scanned := rfl
  picked := rfl
  lowDemand e := by simp
  length := rfl

variable {cluster index}

theorem Scanned.turn {front : List KVCacheBlock} {s : Scan} (h : Scanned cluster index front s)
    (cur : KVCacheBlock) :
    Scanned cluster index (front ++ [cur]) (scanTurn cluster index s cur) := by
  have hat : ∀ i b, (front ++ [cur])[i]? = some b ↔
      front[i]? = some b ∨ i = front.length ∧ b = cur := by
    intro i b
    rw [List.getElem?_append]
    by_cases hi : i < front.length
    · rw [if_pos hi]
      exact (or_iff_left fun hc => absurd hc.1 (Nat.ne_of_lt hi)).symm
    · rw [if_neg hi, List.getElem?_singleton, List.getElem?_eq_none (Nat.le_of_not_lt hi)]
      by_cases hi0 : i - front.length = 0
      · rw [if_pos hi0, Option.some.injEq, eq_comm]
        have : i = front.length := by omega
        simp [this]
      · rw [if_neg hi0]
        have : i ≠ front.length := by omega
        simp [this]
  rw [scanTurn_eq]
  by_cases hd : demandOf index cur = 0
  · rw [if_pos hd]
    refine ⟨by simp [h.scanned], ?_, fun e => ?_, ?_⟩
    · rw [List.filter_append, ← h.picked]
      simp [hd]
    · rw [h.lowDemand, hat]
      refine and_congr_left fun he => (or_iff_left fun hc => ?_).symm
      exact he.1 (hc.2 ▸ hd)
    · have := h.length
      simp only [List.length_append, List.length_singleton]
      omega
  · rw [if_neg hd]
    refine ⟨by simp [h.scanned], ?_, fun e => ?_, ?_⟩
    · rw [List.filter_append, ← h.picked]
      simp [hd]
    · rw [List.mem_append, h.lowDemand, hat, List.mem_singleton]
      constructor
      · rintro (he | rfl)
        · exact ⟨Or.inl he.1, he.2⟩
        · exact ⟨Or.inr ⟨h.scanned, rfl⟩, hd, rfl⟩
      · rintro ⟨he | ⟨hi, hb⟩, hdem, hprio⟩
        · exact Or.inl ⟨he, hdem, hprio⟩
        · refine Or.inr ?_
          obtain ⟨p, i, b⟩ := e
          simp only at hi hb hprio
          rw [hprio, hi, hb, h.scanned]
    · have := h.length
      simp only [List.length_append, List.length_singleton]
      omega

variable (cluster index)

/-- A scan that does not stop. -/
def scanAll (passed : List KVCacheBlock) : Scan :=
  passed.foldl (scanTurn cluster index) ⟨[], [], 0⟩

theorem scanAll_scanned (passed : List KVCacheBlock) :
    Scanned cluster index passed (scanAll cluster index passed) := by
  unfold scanAll
  induction passed using List.reverseRecOn with
  | nil => exact scanned_nil cluster index
  | append_singleton passed cur ih =>
      rw [List.foldl_append]
      exact ih.turn cur

/-- The scan passes some of the queue, and stops for one of three reasons. -/
theorem scanLoop_eq (numBlocks cap : Nat) : ∀ (rest : List KVCacheBlock) (s : Scan),
    ∃ passed left, rest = passed ++ left ∧
      scanLoop cluster index numBlocks cap rest s = passed.foldl (scanTurn cluster index) s ∧
      (left = [] ∨ numBlocks ≤ (passed.foldl (scanTurn cluster index) s).picked.length ∨
        cap ≤ (passed.foldl (scanTurn cluster index) s).scanned) := by
  intro rest
  induction rest with
  | nil =>
      intro s
      exact ⟨[], [], rfl, rfl, Or.inl rfl⟩
  | cons cur rest ih =>
      intro s
      unfold scanLoop
      by_cases hgo : s.picked.length < numBlocks ∧ s.scanned < cap
      · rw [if_pos hgo]
        obtain ⟨passed, left, rfl, heq, hend⟩ := ih (scanTurn cluster index s cur)
        exact ⟨cur :: passed, left, rfl, heq, hend⟩
      · rw [if_neg hgo]
        rw [not_and_or, not_lt, not_lt] at hgo
        exact ⟨[], cur :: rest, rfl, rfl, Or.inr hgo⟩

/-- **Where the scan ends.** -/
theorem scanFree_eq (evictionScanCap : Int) (pool : BlockPool) (numBlocks : Nat) :
    ∃ passed left, pool.freeBlockQueue = passed ++ left ∧
      scanFree evictionScanCap cluster index pool numBlocks = scanAll cluster index passed ∧
      (left = [] ∨ numBlocks ≤ (scanAll cluster index passed).picked.length ∨
        scanCap evictionScanCap numBlocks ≤ passed.length) := by
  obtain ⟨passed, left, hqueue, heq, hend⟩ := scanLoop_eq cluster index numBlocks
    (scanCap evictionScanCap numBlocks) pool.freeBlockQueue ⟨[], [], 0⟩
  refine ⟨passed, left, hqueue, heq, ?_⟩
  rw [← (scanAll_scanned cluster index passed).scanned]
  exact hend

end

end BlockPool

end Peek
