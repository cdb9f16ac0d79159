/-
Evicting blocks of a hash chain.

A block hash covers the block and all blocks before it in the prompt, so it fixes them: `earlier`
gives the hashes before a hash.  A deeper block is of no use once a shallower one of its chain is
gone.  vLLM frees the blocks of a request from the last to the first, and stock eviction from the
front of the free queue takes a chain's tail before its head.

The hook keeps to that as long as no block ranks above one that it hangs on.  In plain mode none
does, because whoever wants a block wants all the blocks before it (`demandOf_le`).
-/
import Peek.Base.Sorting
import Peek.Online.BlockPool
import Mathlib.Algebra.Order.BigOperators.Group.List
import Mathlib.Algebra.Order.Group.Nat

namespace Peek

/-- The hashes of a request are a chain: each fixes those before it. -/
def HashChain (earlier : BlockHash → List BlockHash) (blockHashes : List BlockHash) : Prop :=
  ∀ i h, blockHashes[i]? = some h → earlier h = blockHashes.take i

namespace HashChain

variable {earlier : BlockHash → List BlockHash} {blockHashes : List BlockHash} {h h' : BlockHash}

/-- A hash stands at one place only. -/
theorem nodup (hc : HashChain earlier blockHashes) : blockHashes.Nodup := by
  rw [List.nodup_iff_injective_getElem]
  intro i j hij
  have hi := hc i _ (List.getElem?_eq_getElem i.isLt)
  have hj := hc j _ (List.getElem?_eq_getElem j.isLt)
  have hij : blockHashes[i.val] = blockHashes[j.val] := hij
  rw [hij, hj] at hi
  have hlen := congrArg List.length hi
  rw [List.length_take, List.length_take] at hlen
  have := i.isLt
  have := j.isLt
  exact Fin.ext (by omega)

/-- **Who wants a block wants all the blocks before it.** -/
theorem count_le (hc : HashChain earlier blockHashes) (hh : h ∈ earlier h') :
    blockHashes.count h' ≤ blockHashes.count h := by
  by_cases hmem : h' ∈ blockHashes
  · obtain ⟨i, hi, rfl⟩ := List.getElem_of_mem hmem
    rw [hc i _ (List.getElem?_eq_getElem hi)] at hh
    have hpos : 0 < blockHashes.count h := List.count_pos_iff.mpr (List.mem_of_mem_take hh)
    have hone := List.nodup_iff_count_le_one.mp hc.nodup blockHashes[i]
    omega
  · rw [List.count_eq_zero.mpr hmem]
    exact Nat.zero_le _

end HashChain

/-! ### The hashes of an index are those of the requests -/

namespace VllmHook

variable {f : VllmFlags} {order : List Rid → List Rid} {P : List BlockHash → Prop}

/-- Every snapshot has the property. -/
def Snapshots (P : List BlockHash → Prop) (d : DemandIndex) : Prop :=
  ∀ rid snap, d.ridToHashes.lookup rid = some snap → P snap

theorem snapshots_new : Snapshots P DemandIndex.new := by
  intro rid snap h
  simp [DemandIndex.new] at h

theorem Snapshots.dropRid {d : DemandIndex} (h : Snapshots P d) (cluster : Bool) (ridInt : Rid) :
    Snapshots P (d.dropRid cluster ridInt) := by
  intro rid snap hs
  rw [DemandIndex.ridToHashes_dropRid] at hs
  split at hs
  · simp at hs
  · exact h rid snap hs

theorem Snapshots.bumpRid {d : DemandIndex} (h : Snapshots P d) (cluster : Bool)
    {blockHashes : List BlockHash} (hP : P blockHashes) (ridInt : Rid) :
    Snapshots P (d.bumpRid cluster blockHashes ridInt) := by
  intro rid snap hs
  rw [DemandIndex.ridToHashes_bumpRid] at hs
  split at hs
  · rw [← Option.some.inj hs]
    exact hP
  · exact h rid snap hs

theorem Snapshots.arriveTurn {h : VllmHook} (hs : Snapshots P h.demand) (ints : Finset Rid)
    {req : VllmReq} (hP : P req.blockHashes) :
    Snapshots P (VllmHook.arriveTurn f (h, ints) req).1.demand := by
  unfold VllmHook.arriveTurn
  simp only
  split
  · exact hs
  · show Snapshots P (if f.eviction then _ else _)
    split
    · apply Snapshots.bumpRid
      · split
        · exact hs
        · exact hs.dropRid _ _
      · exact hP
    · split
      · exact hs
      · exact hs.dropRid _ _

theorem Snapshots.drop {h : VllmHook} (hs : Snapshots P h.demand) (ridInt : Rid) :
    Snapshots P (h.drop f ridInt).demand := by
  show Snapshots P (if f.eviction then _ else _)
  split
  · exact hs.dropRid _ _
  · exact hs

theorem Snapshots.sync {h : VllmHook} (hs : Snapshots P h.demand) {wq : List VllmReq}
    (hP : ∀ req ∈ wq, P req.blockHashes) : Snapshots P (h.sync f order wq).demand := by
  unfold VllmHook.sync
  split
  · exact hs
  · have harr : Snapshots P (wq.foldl (VllmHook.arriveTurn f) (h, ∅)).1.demand :=
      List.foldlRecOn wq (VllmHook.arriveTurn f)
        (motive := fun p => Snapshots P p.1.demand) hs
        fun p hp req hreq => hp.arriveTurn p.2 (hP req hreq)
    refine List.foldlRecOn _ (departTurn f _) (motive := fun h => Snapshots P h.demand) harr ?_
    intro h hs i _
    unfold departTurn
    split
    · exact hs.drop i
    · exact hs

theorem Snapshots.finishRequests {h : VllmHook} (hs : Snapshots P h.demand)
    (requestIds : List ReqId) : Snapshots P (h.finishRequests f requestIds).demand := by
  refine List.foldlRecOn requestIds (finishTurn f) (motive := fun h => Snapshots P h.demand) hs ?_
  intro h hs ridStr _
  unfold finishTurn
  split
  · split
    · exact hs.drop _
    · exact hs
  · exact hs

/-- The requests that a call hands to the hook. -/
def Call.requests : Call → List VllmReq
  | .sync waiting => waiting
  | .finishRequests _ => []

/-- **Over any run the snapshots are those of requests that were waiting.** -/
theorem runCalls_snapshots (calls : List Call)
    (hP : ∀ c ∈ calls, ∀ req ∈ c.requests, P req.blockHashes) :
    Snapshots P (runCalls f order calls).demand := by
  unfold runCalls
  refine List.foldlRecOn calls (call f order) (motive := fun h => Snapshots P h.demand)
    (show Snapshots P new.demand from snapshots_new) ?_
  intro h hs c hc
  cases c with
  | sync waiting => exact hs.sync (hP _ hc)
  | finishRequests requestIds => exact hs.finishRequests requestIds

end VllmHook

/-! ### Demand along a chain -/

/-- `b'` lies deeper than `b` in one chain. -/
def Deeper (earlier : BlockHash → List BlockHash) (b' b : KVCacheBlock) : Prop :=
  ∃ bh' bh, b'.blockHash = some bh' ∧ b.blockHash = some bh ∧
    getBlockHash bh ∈ earlier (getBlockHash bh')

namespace BlockPool

variable {earlier : BlockHash → List BlockHash} {cluster : Bool} {index : DemandIndex}

/-- What an index over chained requests knows. -/
structure ChainIndex (earlier : BlockHash → List BlockHash) (cluster : Bool)
    (index : DemandIndex) : Prop where
  ok : DemandIndex.OK cluster index
  chained : VllmHook.Snapshots (HashChain earlier) index

theorem runCalls_chainIndex {f : VllmFlags} (hev : f.eviction = true) {order : List Rid → List Rid}
    (horder : ∀ l, (order l).Perm l) {calls : List VllmHook.Call}
    (hchain : ∀ c ∈ calls, ∀ req ∈ c.requests, HashChain earlier req.blockHashes) :
    ChainIndex earlier f.cluster (VllmHook.runCalls f order calls).demand where
  ok := (VllmHook.run_indexed horder hev calls).ok
  chained := VllmHook.runCalls_snapshots calls hchain

theorem demandOf_nonneg (h : ChainIndex earlier cluster index) (b : KVCacheBlock) :
    0 ≤ demandOf index b := by
  unfold demandOf
  cases b.blockHash with
  | none => exact Int.le_refl 0
  | some bh =>
      show 0 ≤ (index.blockHashDemand.lookup (getBlockHash bh)).getD 0
      rw [h.ok.demand.getD]
      exact Int.natCast_nonneg _

/-- **Demand does not grow along a chain.** -/
theorem demandOf_le (h : ChainIndex earlier cluster index) {b b' : KVCacheBlock}
    (hdeep : Deeper earlier b' b) : demandOf index b' ≤ demandOf index b := by
  obtain ⟨bh', bh, hb', hb, hmem⟩ := hdeep
  unfold demandOf
  rw [hb', hb]
  show (index.blockHashDemand.lookup (getBlockHash bh')).getD 0 ≤
    (index.blockHashDemand.lookup (getBlockHash bh)).getD 0
  rw [h.ok.demand.getD, h.ok.demand.getD]
  refine Int.ofNat_le.mpr (List.sum_le_sum fun e he => ?_)
  exact (h.chained e.1 e.2 (AList.mem_lookup_iff.mpr he)).count_le hmem

/-! ### What is picked -/

/-- With a cached block, every free block that lies deeper in its chain is picked as well. -/
def KeepsChains (earlier : BlockHash → List BlockHash) (pool : BlockPool)
    (picked : List KVCacheBlock) : Prop :=
  ∀ b ∈ picked, ∀ b' ∈ pool.freeBlockQueue, Deeper earlier b' b → b' ∈ picked

/-- A deeper block of a chain was freed before a shallower one. -/
def FreedInReverse (earlier : BlockHash → List BlockHash) (pool : BlockPool) : Prop :=
  pool.freeBlockQueue.Pairwise fun x y => ¬ Deeper earlier y x

/-- No block in demand ranks above one that it hangs on. -/
def RankedAlongChains (earlier : BlockHash → List BlockHash) (cluster : Bool)
    (index : DemandIndex) (pool : BlockPool) : Prop :=
  ∀ b ∈ pool.freeBlockQueue, ∀ b' ∈ pool.freeBlockQueue, Deeper earlier b' b →
    demandOf index b' ≠ 0 → priorityOf cluster index b' ≤ priorityOf cluster index b

/-- Sorting by priority, and by position among equals. -/
theorem mem_sortLowDemand {low : List (Int × Nat × KVCacheBlock)} {e : Int × Nat × KVCacheBlock} :
    e ∈ sortLowDemand low ↔ e ∈ low :=
  (List.perm_insertionSort _ low).mem_iff

theorem pairwise_sortLowDemand (low : List (Int × Nat × KVCacheBlock)) :
    (sortLowDemand low).Pairwise fun x y => toLex (x.1, x.2.1) ≤ toLex (y.1, y.2.1) :=
  pairwise_sorted (fun x : Int × Nat × KVCacheBlock => toLex (x.1, x.2.1)) low

/-- What a call that does not leave the choice to vLLM has picked. -/
theorem peekGetNewBlocks_eq_some {evictionScanCap : Int} {pool : BlockPool} {numBlocks : Int}
    {picked : List KVCacheBlock}
    (h : peekGetNewBlocks evictionScanCap cluster index pool numBlocks = some picked) :
    ∃ passed left s, pool.freeBlockQueue = passed ++ left ∧ Scanned cluster index passed s ∧
      (picked = s.picked ∨ ∃ k, picked = s.picked ++
        ((sortLowDemand s.lowDemand).take k).map (·.2.2)) := by
  obtain ⟨-, -, -, -, -, rfl⟩ := peekGetNewBlocks_eq_some_iff.mp h
  obtain ⟨passed, left, hqueue, heq, -⟩ := scanFree_eq cluster index evictionScanCap pool
    numBlocks.toNat
  refine ⟨passed, left, _, hqueue, scanAll_scanned cluster index passed, ?_⟩
  rw [heq]
  unfold topUp
  split
  · exact Or.inr ⟨_, rfl⟩
  · exact Or.inl rfl

/-- **Ranked along the chains, the choice keeps them.** -/
theorem keepsChains_of_ranked (hindex : ChainIndex earlier cluster index) {pool : BlockPool}
    (hfreed : FreedInReverse earlier pool) (hrank : RankedAlongChains earlier cluster index pool)
    {evictionScanCap numBlocks : Int} {picked : List KVCacheBlock}
    (h : peekGetNewBlocks evictionScanCap cluster index pool numBlocks = some picked) :
    KeepsChains earlier pool picked := by
  obtain ⟨passed, left, s, hqueue, hscan, hpicked⟩ := peekGetNewBlocks_eq_some h
  intro b hb b' hb' hdeep
  -- the deeper block stands in front of the shallower one, so it was passed too
  have hpassed : b ∈ passed → b' ∈ passed := by
    intro hin
    rw [hqueue] at hb'
    rcases List.mem_append.mp hb' with hb' | hb'
    · exact hb'
    · rw [FreedInReverse, hqueue] at hfreed
      exact absurd hdeep ((List.pairwise_append.mp hfreed).2.2 b hin b' hb')
  have hfree : b' ∈ passed → demandOf index b' = 0 → b' ∈ picked := by
    intro hin hzero
    have hmem : b' ∈ s.picked := by
      rw [hscan.picked, List.mem_filter, decide_eq_true_eq]
      exact ⟨hin, hzero⟩
    rcases hpicked with rfl | ⟨k, rfl⟩
    · exact hmem
    · exact List.mem_append_left _ hmem
  have hundemanded : b ∈ s.picked → b' ∈ picked := by
    intro hin
    rw [hscan.picked, List.mem_filter, decide_eq_true_eq] at hin
    have hle := demandOf_le hindex hdeep
    have hnonneg := demandOf_nonneg hindex b'
    exact hfree (hpassed hin.1) (by omega)
  rcases hpicked with rfl | ⟨k, rfl⟩
  · exact hundemanded hb
  rcases List.mem_append.mp hb with hb | hb
  · exact hundemanded hb
  obtain ⟨x, hx, rfl⟩ := List.mem_map.mp hb
  obtain ⟨hat, -, hprio⟩ := (hscan.lowDemand x).mp (mem_sortLowDemand.mp (List.mem_of_mem_take hx))
  have hin := hpassed (List.mem_of_getElem? hat)
  by_cases hzero : demandOf index b' = 0
  · exact hfree hin hzero
  obtain ⟨j, hj, rfl⟩ := List.getElem_of_mem hin
  obtain ⟨i, hi⟩ : ∃ i, x.2.1 = i := ⟨_, rfl⟩
  rw [hi] at hat
  obtain ⟨hlen, hxi⟩ := List.getElem?_eq_some_iff.mp hat
  refine List.mem_append_right _ ?_
  have hxq : x.2.2 ∈ pool.freeBlockQueue := by
    rw [hqueue]
    exact List.mem_append_left _ (List.mem_of_getElem? hat)
  have hle := hrank x.2.2 hxq passed[j] hb' hdeep hzero
  rcases Nat.lt_trichotomy i j with hij | hij | hij
  · rw [FreedInReverse, hqueue] at hfreed
    have hnot := List.pairwise_iff_getElem.mp (List.pairwise_append.mp hfreed).1 i j hlen hj hij
    rw [hxi] at hnot
    exact absurd hdeep hnot
  · subst hij
    rw [hxi]
    exact hb
  · have hmem : (priorityOf cluster index passed[j], j, passed[j]) ∈ s.lowDemand :=
      (hscan.lowDemand _).mpr ⟨List.getElem?_eq_getElem hj, hzero, rfl⟩
    have hlt : toLex (priorityOf cluster index passed[j], j) < toLex (x.1, x.2.1) := by
      rw [Prod.Lex.toLex_lt_toLex, hprio, hi]
      exact (lt_or_eq_of_le hle).imp id fun heq => ⟨heq, hij⟩
    exact List.mem_map.mpr ⟨_, mem_take_sorted (fun x : Int × Nat × KVCacheBlock =>
      toLex (x.1, x.2.1)) hx hmem hlt, rfl⟩

/-- With a cap as long as the queue, a request that undemanded blocks do not meet sees it all. -/
theorem scanFree_all {pool : BlockPool} {numBlocks : Nat}
    (hlong : (scanAll cluster index pool.freeBlockQueue).picked.length < numBlocks) :
    scanFree pool.getNumFreeBlocks cluster index pool numBlocks =
      scanAll cluster index pool.freeBlockQueue := by
  obtain ⟨passed, left, hqueue, heq, hend⟩ := scanFree_eq cluster index pool.getNumFreeBlocks pool
    numBlocks
  have hleft : left = [] := by
    rcases hend with hleft | hpicked | hcap
    · exact hleft
    · have hfew : (scanAll cluster index passed).picked.length ≤
          (scanAll cluster index pool.freeBlockQueue).picked.length := by
        rw [(scanAll_scanned cluster index passed).picked,
          (scanAll_scanned cluster index pool.freeBlockQueue).picked, hqueue, List.filter_append,
          List.length_append]
        exact Nat.le_add_right _ _
      omega
    · have hlen : pool.getNumFreeBlocks = passed.length + left.length := by
        unfold getNumFreeBlocks
        rw [hqueue, List.length_append]
      unfold scanCap at hcap
      refine List.length_eq_zero_iff.mp ?_
      split at hcap <;> omega
  rw [heq, hqueue, hleft, List.append_nil]

theorem entries_ne_nil {b : KVCacheBlock} (h : demandOf index b ≠ 0) :
    index.blockHashDemand.entries ≠ [] := by
  intro hnil
  apply h
  unfold demandOf
  cases b.blockHash with
  | none => rfl
  | some bh =>
      show (index.blockHashDemand.lookup (getBlockHash bh)).getD 0 = 0
      rw [Map.entries_eq_nil_iff.mp hnil]
      rfl

/-- **Where a deeper block ranks above, some request breaks the chain.** -/
theorem exists_broken {pool : BlockPool} (hcaching : pool.enableCaching = true)
    {b b' : KVCacheBlock} (hb : b ∈ pool.freeBlockQueue) (hdemand : demandOf index b ≠ 0)
    (hdemand' : demandOf index b' ≠ 0)
    (hlt : priorityOf cluster index b < priorityOf cluster index b') :
    ∃ evictionScanCap numBlocks picked,
      peekGetNewBlocks evictionScanCap cluster index pool numBlocks = some picked ∧
        b ∈ picked ∧ b' ∉ picked := by
  have hscan := scanAll_scanned cluster index pool.freeBlockQueue
  set s := scanAll cluster index pool.freeBlockQueue with hs
  obtain ⟨i, hi, hib⟩ := List.getElem_of_mem hb
  set x : Int × Nat × KVCacheBlock := (priorityOf cluster index b, i, b) with hx
  have hlow : x ∈ s.lowDemand :=
    (hscan.lowDemand x).mpr ⟨by rw [List.getElem?_eq_getElem hi, hib], hdemand, rfl⟩
  -- ask for one block more than what nobody wants and what is sorted before `b`
  obtain ⟨front, rest, hsplit⟩ := List.append_of_mem (mem_sortLowDemand.mpr hlow)
  have hlen : front.length + 1 ≤ s.lowDemand.length := by
    have heq : (sortLowDemand s.lowDemand).length = s.lowDemand.length :=
      List.length_insertionSort _ _
    rw [hsplit, List.length_append, List.length_cons] at heq
    omega
  have htop : topUp (s.picked.length + (front.length + 1)) s =
      s.picked ++ (front ++ [x]).map (·.2.2) := by
    have htake : front.length + 1 = (front ++ [x]).length := by
      rw [List.length_append, List.length_singleton]
    unfold topUp
    rw [if_pos (by omega), Nat.add_sub_cancel_left, hsplit, List.append_cons, htake, List.take_left]
  have hsome : peekGetNewBlocks pool.getNumFreeBlocks cluster index pool
      (s.picked.length + (front.length + 1) : Nat) =
        some (s.picked ++ (front ++ [x]).map (·.2.2)) := by
    refine peekGetNewBlocks_eq_some_iff.mpr ⟨by omega, hcaching, ?_, entries_ne_nil hdemand, ?_, ?_⟩
    · have := hscan.length
      unfold getNumFreeBlocks
      omega
    · rw [Int.toNat_natCast, List.length_append, List.length_map, List.length_append]
      exact Nat.le_refl _
    · rw [Int.toNat_natCast, scanFree_all (Nat.lt_add_of_pos_right (Nat.succ_pos _)), ← hs, htop]
  refine ⟨_, _, _, hsome, ?_, ?_⟩
  · exact List.mem_append_right _
      (List.mem_map.mpr ⟨x, List.mem_append_right _ List.mem_cons_self, rfl⟩)
  · rw [List.mem_append, not_or]
    refine ⟨fun hmem => ?_, fun hmem => ?_⟩
    · rw [hscan.picked, List.mem_filter, decide_eq_true_eq] at hmem
      exact hdemand' hmem.2
    · -- what is taken with `b` does not rank above it
      obtain ⟨e, he, rfl⟩ := List.mem_map.mp hmem
      have hle : e.1 ≤ x.1 := by
        rcases List.mem_append.mp he with he | he
        · have hsorted := pairwise_sortLowDemand s.lowDemand
          rw [hsplit] at hsorted
          exact Prod.Lex.monotone_fst (toLex (e.1, e.2.1)) (toLex (x.1, x.2.1))
            ((List.pairwise_append.mp hsorted).2.2 e he x List.mem_cons_self)
        · rw [List.mem_singleton.mp he]
      have hmem : e ∈ s.lowDemand := by
        refine mem_sortLowDemand.mp ?_
        rw [hsplit, List.append_cons]
        exact List.mem_append_left _ he
      have hprio := ((hscan.lowDemand e).mp hmem).2.2
      rw [← hprio] at hlt
      exact absurd hle (not_le_of_gt hlt)

/-- In plain mode the rank is the demand, which does not grow along a chain. -/
theorem ranked_plain (hindex : ChainIndex earlier false index) (pool : BlockPool) :
    RankedAlongChains earlier false index pool := by
  intro b _ b' _ hdeep _
  have hle := demandOf_le hindex hdeep
  obtain ⟨bh', bh, hb', hb, -⟩ := hdeep
  have hprio : ∀ {b : KVCacheBlock} {bh : BlockHash × Nat}, b.blockHash = some bh →
      priorityOf false index b = demandOf index b := by
    intro b bh hb
    unfold priorityOf
    rw [hb]
    rfl
  rw [hprio hb', hprio hb]
  exact hle

/-- A chain of two blocks, freed from the last to the first. -/
def chainOfTwo (h : BlockHash) : List BlockHash := if h = 20 then [10] else []

def twoFree : BlockPool := ⟨true, [⟨1, some (20, 0)⟩, ⟨0, some (10, 0)⟩]⟩

/-- A waiting request wants both. -/
def wantsBoth : List VllmHook.Call := [.sync [⟨"a", [1, 2], [], [10, 20]⟩]]

theorem hashChain_wantsBoth :
    ∀ c ∈ wantsBoth, ∀ req ∈ c.requests, HashChain chainOfTwo req.blockHashes := by
  intro c hc req hreq i h hi
  rw [List.mem_singleton.mp hc] at hreq
  rw [List.mem_singleton.mp hreq] at hi ⊢
  match i, hi with
  | 0, hi =>
      rw [← Option.some.inj hi]
      rfl
  | 1, hi =>
      rw [← Option.some.inj hi]
      rfl

theorem freedInReverse_twoFree : FreedInReverse chainOfTwo twoFree := by
  refine List.Pairwise.cons (fun y hy hdeep => ?_) (List.pairwise_singleton _ _)
  obtain ⟨bh', bh, hb', hb, hmem⟩ := hdeep
  rw [List.mem_singleton.mp hy] at hb'
  rw [← Option.some.inj hb'] at hmem
  exact absurd hmem List.not_mem_nil

end BlockPool

end Peek
