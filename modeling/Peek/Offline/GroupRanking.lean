/-
The order that group scheduling puts its groups in.

A group is worth what its members reuse: the cached tokens of their longest common prefix, once
for each member.  The groups are ranked by less than that.  The trie names a group by the path
at which its search stopped, which is the one token that it asked for, and SGLang's cache is
probed by whole segments.  So what is counted is at most one token for each member (`counted`),
and the order is the intended one just when that count does not mislead (`emits_by_reuse_iff`).
-/
import Peek.Offline.GroupSchedule

namespace Peek

open Radix

namespace GroupSchedule

/-! ### What a group is worth -/

/--
The longest common prefix of a group, in the tokens that the trie files.  A request on its own
is not listed by the trie; `loneDepth` says how much of its prompt is looked at.
-/
def commonTokens (seqs : List (List Token)) (loneDepth : Nat) : List Nat → List Token
  | [idx] => (seqs.getD idx []).take loneDepth
  | indices =>
      let filed := indices.map fun idx => (seqs.getD idx []).take 128
      (filed.headD []).take (commonLen filed)

/-- What its members reuse. -/
def reuse (cachedLen : List Token → Nat) (seqs : List (List Token)) (loneDepth : Nat)
    (indices : List Nat) : Nat :=
  cachedLen (commonTokens seqs loneDepth indices) * indices.length

/-- The queue is emitted group by group, and no group before one that reuses more. -/
structure EmitsByReuse {α : Type} (queue' queue : List α) (groups : List (List Nat))
    (reuse : List Nat → Nat) : Prop where
  inGroups : queue' = groups.flatten.filterMap fun idx => queue[idx]?
  descending : groups.Pairwise fun g g' => reuse g' ≤ reuse g

/-! ### What it is ranked by -/

/-- The first token of a group of two and more, or the whole prompt of a request on its own. -/
def counted (cachedLen : List Token → Nat) (seqs : List (List Token)) : List Nat → Nat
  | [idx] => cachedLen (seqs.getD idx [])
  | indices => cachedLen ((seqs.getD (indices.headD 0) []).take 1) * indices.length

/-- Of any two groups, the one that is ranked first reuses as much as the other. -/
def RanksAlike (groups : List (List Nat)) (counted reuse : List Nat → Nat) : Prop :=
  groups.Pairwise fun g g' =>
    (counted g' ≤ counted g → reuse g' ≤ reuse g) ∧ (counted g < counted g' → reuse g ≤ reuse g')

instance (groups : List (List Nat)) (counted reuse : List Nat → Nat) :
    Decidable (RanksAlike groups counted reuse) :=
  inferInstanceAs (Decidable (groups.Pairwise _))

variable {cachedLen : List Token → Nat} (seqs : List (List Token))

/-- Of two and more, the first of a group shows the token they share. -/
theorem counted_of_two {token : Token} {indices : List Nat} (hlen : 2 ≤ indices.length)
    (hfirst : ∀ i ∈ indices, firstToken seqs i = some token) :
    counted cachedLen seqs indices = cachedLen [token] * indices.length := by
  match indices with
  | i :: j :: rest =>
      have hi := hfirst i List.mem_cons_self
      obtain ⟨ts, hts⟩ := List.head?_eq_some_iff.mp hi
      show cachedLen ((seqs.getD i []).take 1) * _ = _
      rw [hts]
      rfl

/-- **The score of a group** is what is counted here. -/
theorem score_of_mem_listed (hnil : cachedLen [] = 0) {g : TokenGroup} (hg : g ∈ listed seqs) :
    score cachedLen g = counted cachedLen seqs g.2 := by
  unfold listed at hg
  rcases List.mem_append.mp hg with hg | hg
  · obtain ⟨token, htoken, rfl⟩ := List.mem_map.mp hg
    have hperm := sortMembers_perm seqs (startingWith seqs token)
    have htwo := (List.mem_filter.mp htoken).2
    rw [decide_eq_true_iff] at htwo
    rw [counted_of_two seqs (by rw [hperm.length_eq]; exact htwo) fun i hi => ?_]
    · unfold score
      rw [if_pos (by simp)]
    · have hi := (List.mem_filter.mp (hperm.mem_iff.mp hi)).2
      exact of_decide_eq_true hi
  · obtain ⟨i, -, rfl⟩ := List.mem_map.mp hg
    show (if seqs.getD i [] ≠ [] then cachedLen (seqs.getD i []) else 0) * 1 =
      cachedLen (seqs.getD i [])
    rw [Nat.mul_one]
    split
    · rfl
    · rename_i hempty
      rw [not_not.mp hempty, hnil]

/-- The groups come in the order of any number just when the count ranks them like it. -/
theorem emitted_descending_iff (hnil : cachedLen [] = 0) (reuse : List Nat → Nat) :
    ((emitted cachedLen seqs).Pairwise fun g g' => reuse g' ≤ reuse g) ↔
      RanksAlike ((listed seqs).map (·.2)) (counted cachedLen seqs) reuse := by
  have : Std.Total fun g g' : TokenGroup => score cachedLen g' ≤ score cachedLen g :=
    ⟨fun g g' => Nat.le_total _ _⟩
  have : IsTrans TokenGroup fun g g' => score cachedLen g' ≤ score cachedLen g :=
    ⟨fun g g' g'' h h' => Nat.le_trans h' h⟩
  rw [emitted_eq, List.pairwise_map]
  unfold sortScored RanksAlike
  rw [pairwise_insertionSort_iff, List.pairwise_map]
  refine List.Pairwise.iff_of_mem fun {g g'} hg hg' => ?_
  rw [score_of_mem_listed seqs hnil hg, score_of_mem_listed seqs hnil hg', Nat.not_le]

/-- A queue that is emitted by groups is emitted by reuse just when the count ranks them like it. -/
theorem emitsByReuse_iff {α : Type} {queue queue' : List α} {probe : List Token → Nat}
    (hprobe : probe = cachedLen) (hnil : cachedLen [] = 0)
    (hrun : queue' = (emitted probe seqs).flatten.filterMap fun idx => queue[idx]?)
    (reuse : List Nat → Nat) : EmitsByReuse queue' queue (emitted probe seqs) reuse ↔
      RanksAlike ((listed seqs).map (·.2)) (counted cachedLen seqs) reuse := by
  subst hprobe
  rw [← emitted_descending_iff seqs hnil]
  exact ⟨fun h => h.descending, fun h => ⟨hrun, h⟩⟩

end GroupSchedule

/-! ### On both servers -/

/-- How many of the tokens SGLang's cache holds, from the first on. -/
def RadixCache.cachedLen (c : RadixCache) (tokens : List Token) : Nat :=
  (c.matchPrefix ⟨tokens, none⟩).1.deviceIndices.length

/-- How many of the hashes vLLM's pool has blocks for, from the first on. -/
def QueuePool.cachedLen {numBlocks : Nat} (pool : QueuePool numBlocks) (groupIds : List Nat)
    (hashes : List BlockHash) : Nat :=
  (hashes.takeWhile fun bh => pool.cachedBlocks bh groupIds ≠ []).length

theorem QueuePool.cachedPrefixLength_eq {numBlocks : Nat} (pool : QueuePool numBlocks)
    (groupIds : List Nat) : pool.cachedPrefixLength groupIds = pool.cachedLen groupIds := by
  funext hashes
  unfold QueuePool.cachedLen
  induction hashes with
  | nil => rfl
  | cons bh rest ih =>
      unfold QueuePool.cachedPrefixLength
      by_cases hbh : pool.cachedBlocks bh groupIds = []
      · simp [hbh]
      · simp [hbh, ih]

namespace GroupSchedule

/-- Does `sglang_group_schedule` emit the groups by what they reuse of the cache? -/
def SglangByReuse (c : RadixCache) (waitingQueue : List Req) (reorderThreshold : Int)
    (loneDepth : Nat) : Prop :=
  let seqs := waitingQueue.map (·.originInputIds)
  EmitsByReuse (sglangGroupSchedule waitingQueue c reorderThreshold) waitingQueue
    (emitted c.cachedPrefixLength seqs) (reuse c.cachedLen seqs loneDepth)

/-- Does `vllm_group_schedule` emit the groups by what they reuse of the pool? -/
def VllmByReuse {numBlocks : Nat} (pool : QueuePool numBlocks) (groupIds : List Nat)
    (newReqs : List QueuedReq) (reorderThreshold : Int) (loneDepth : Nat) : Prop :=
  let hashSeqs := newReqs.map (·.blockHashes)
  EmitsByReuse (vllmGroupSchedule newReqs pool groupIds reorderThreshold) newReqs
    (emitted (pool.cachedPrefixLength groupIds) hashSeqs)
    (reuse (pool.cachedLen groupIds) hashSeqs loneDepth)

/--
**When groups are emitted by what they reuse.**  For every cache with pages of one token that
some run of calls makes, every pool and all queues that are reordered, they are just when no two
groups are misranked by the one token that is counted of a group, and by the whole segments
that are counted of a request on its own.
-/
theorem emits_by_reuse_iff {disable : Bool} {c : RadixCache}
    (hreach : RadixCache.Reachable 1 disable c) {numBlocks : Nat} (pool : QueuePool numBlocks)
    (groupIds : List Nat) (loneDepth : Nat) :
    (∀ (waitingQueue : List Req) (reorderThreshold : Int),
      reorderThreshold ≤ waitingQueue.length → detectSharing waitingQueue = true →
      let seqs := waitingQueue.map (·.originInputIds)
      (SglangByReuse c waitingQueue reorderThreshold loneDepth ↔
        RanksAlike ((listed seqs).map (·.2)) (counted c.wholeLen seqs)
          (reuse c.cachedLen seqs loneDepth))) ∧
    (∀ (newReqs : List QueuedReq) (reorderThreshold : Int),
      1 < newReqs.length → reorderThreshold ≤ newReqs.length →
      detectSharedKey (firstHashes newReqs) = true →
      let hashSeqs := newReqs.map (·.blockHashes)
      (VllmByReuse pool groupIds newReqs reorderThreshold loneDepth ↔
        RanksAlike ((listed hashSeqs).map (·.2)) (counted (pool.cachedLen groupIds) hashSeqs)
          (reuse (pool.cachedLen groupIds) hashSeqs loneDepth))) := by
  constructor
  · intro waitingQueue reorderThreshold hlen hshare seqs
    obtain ⟨hsound, -, -⟩ := hreach.sound Nat.one_pos
    have hwhole : c.cachedPrefixLength = c.wholeLen := funext hsound.cachedPrefixLength_eq
    have hnil : c.wholeLen [] = 0 := by rw [← hwhole]; rfl
    have hrun : sglangGroupSchedule waitingQueue c reorderThreshold =
        groupAndScoreSglang waitingQueue c := by
      unfold sglangGroupSchedule
      rw [if_neg (not_lt_of_ge hlen), hshare]
      rfl
    exact emitsByReuse_iff seqs hwhole hnil hrun _
  · intro newReqs reorderThreshold htwo hlen hshare hashSeqs
    have hnil : pool.cachedLen groupIds [] = 0 := rfl
    have hrun : vllmGroupSchedule newReqs pool groupIds reorderThreshold =
        (emitted (pool.cachedPrefixLength groupIds) hashSeqs).flatten.filterMap
          fun idx => newReqs[idx]? := by
      unfold vllmGroupSchedule
      rw [if_neg (not_or.mpr ⟨Nat.not_le_of_lt htwo, not_lt_of_ge hlen⟩), hshare]
      rfl
    exact emitsByReuse_iff hashSeqs (pool.cachedPrefixLength_eq groupIds) hnil hrun _

/-- A cache that has seen a prompt of two tokens and a prompt of one. -/
def pairAndOne : RadixCache := (RadixCache.onePair.insert (HeldCache.plainPrompt [3])).2

theorem pairAndOne_reachable : RadixCache.Reachable 1 false pairAndOne :=
  RadixCache.onePair_reachable.tail
    (RadixCache.Step.insert RadixCache.onePair (HeldCache.plainPrompt [3]))

/-- A pool with a block for each of three hashes. -/
def threeBlocks : QueuePool 3 where
  queueRefCount _ := 0
  isNull _ := false
  getCachedBlock bh _ := (([1, 2, 3].zip (List.finRange 3)).lookup bh).map fun block => [block]

/-- Requests for SGLang with these prompts. -/
def waiting (prompts : List (List Token)) : List Req :=
  prompts.map fun tokens => { (default : Req) with originInputIds := tokens }

/-- Requests for vLLM with these hashes. -/
def arrived (hashSeqs : List (List BlockHash)) : List QueuedReq :=
  hashSeqs.map fun hashes => { (default : QueuedReq) with blockHashes := hashes }

/-- Two prompts of one cached token go before one that reuses less. -/
theorem emits_by_reuse_ones :
    SglangByReuse pairAndOne (waiting [[1], [3], [3]]) 2 128 ∧
      VllmByReuse threeBlocks [0] (arrived [[1], [3], [3]]) 2 128 := by
  have hiff := emits_by_reuse_iff pairAndOne_reachable threeBlocks [0] 128
  have hwhole : pairAndOne.wholeLen = pairAndOne.cachedPrefixLength :=
    funext fun tokens => ((pairAndOne_reachable.sound Nat.one_pos).1.cachedPrefixLength_eq tokens).symm
  have hsglang := hiff.1 (waiting [[1], [3], [3]]) 2 (by decide) (by decide)
  have hvllm := hiff.2 (arrived [[1], [3], [3]]) 2 (by decide) (by decide) (by decide)
  rw [hwhole] at hsglang
  exact ⟨hsglang.mpr (by decide), hvllm.mpr (by decide)⟩

/-- The prompts of two cached tokens reuse more, and go last. -/
theorem emits_by_count :
    RadixCache.Reachable 1 false pairAndOne ∧
      detectSharing (waiting [[1, 2], [1, 2], [3], [3]]) = true ∧
      ¬ SglangByReuse pairAndOne (waiting [[1, 2], [1, 2], [3], [3]]) 2 128 ∧
      detectSharedKey (firstHashes (arrived [[1, 2], [1, 2], [3], [3], [3]])) = true ∧
      ¬ VllmByReuse threeBlocks [0] (arrived [[1, 2], [1, 2], [3], [3], [3]]) 2 128 := by
  refine ⟨pairAndOne_reachable, by decide, fun h => ?_, by decide, fun h => ?_⟩
  · have hdesc := h.descending
    rw [emitted_eq] at hdesc
    revert hdesc
    decide
  · have hdesc := h.descending
    rw [emitted_eq] at hdesc
    revert hdesc
    decide

end GroupSchedule

end Peek
