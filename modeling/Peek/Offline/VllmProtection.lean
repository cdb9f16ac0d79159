/-
Which groups a cycle of the vLLM engine protects (`_protect_top_groups`).

The pass is said to protect the top K groups.  But it goes over `scored`, which is in the order
in which the groups arrived: `_reorder_by_score` sorts other lists.  So the groups it protects are
the first K, and they are the best only if no later one scores higher (`protects_top_iff`).
-/
import Peek.Base.Sorting
import Peek.Offline.StaleRefs
import Mathlib.Tactic.NormNum

namespace Peek

namespace VllmPeekEngine

variable {F : Type} (f : PyFloat F) {numBlocks : Nat}

/-! ### The groups of a cycle, and which of them it protects -/

/-- The groups of the new requests, in the order in which they arrived. -/
def arrivals (waiting : List QueuedReq) : List (List BlockHash × List QueuedReq) :=
  groupBy QueuedReq.hashKey (waiting.filter QueuedReq.isNew)

/-- `scored`, when the protection starts. -/
def cycleScored (e : VllmPeekEngine F) (pool : QueuePool numBlocks) (waiting : List QueuedReq) :
    List (ScoredGroup F) :=
  (matchAndScoreGroups f (e.resetQueueRefs pool) e.groupIds (arrivals waiting)).map
    ScoredGroup.sortMembers

/-- `_group_first_seen`, when the protection starts. -/
def cycleSeen (e : VllmPeekEngine F) (now : F) (waiting : List QueuedReq) :
    Map (List BlockHash) F :=
  seeGroups now ((arrivals waiting).map (·.1)) e.groupFirstSeen

/-- What the loop of `_protect_top_groups` does with each group: `true` if it gets to its blocks. -/
def protectLoop (now : F) (firstSeen : Map (List BlockHash) F) (protectK : Nat) :
    Nat → List (ScoredGroup F) → List (ScoredGroup F × Bool)
  | _, [] => []
  | i, g :: scored =>
      if i ≥ protectK then (g :: scored).map fun g => (g, false)
      else if g.cachedBlocks = 0 then (g, false) :: protectLoop now firstSeen protectK (i + 1) scored
      else if isStaleSingleton f now firstSeen g then
        (g, false) :: protectLoop now firstSeen protectK (i + 1) scored
      else (g, true) :: protectLoop now firstSeen protectK (i + 1) scored

/-- The groups of a cycle, each with whether it is protected. -/
def cycleProtection (e : VllmPeekEngine F) (pool : QueuePool numBlocks) (now now' : F)
    (waiting : List QueuedReq) : List (ScoredGroup F × Bool) :=
  protectLoop f now' (e.cycleSeen now waiting)
    (protectK numBlocks (e.cycleScored f pool waiting)) 0 (e.cycleScored f pool waiting)

/-- Count the cached blocks of a group, if it is protected. -/
def protectTo (groupIds : List Nat) (s : QueuePool numBlocks × List (BlockHash × List Nat))
    (x : ScoredGroup F × Bool) : QueuePool numBlocks × List (BlockHash × List Nat) :=
  if x.2 then (x.1.rep.blockHashes.take x.1.cachedBlocks).foldl (protectTurn groupIds) s else s

theorem foldl_protectTo_false (groupIds : List Nat) (l : List (ScoredGroup F))
    (s : QueuePool numBlocks × List (BlockHash × List Nat)) :
    (l.map fun g => (g, false)).foldl (protectTo groupIds) s = s := by
  induction l with
  | nil => rfl
  | cons g l ih => exact ih

theorem foldl_protectLoop (groupIds : List Nat) (now : F) (firstSeen : Map (List BlockHash) F)
    (k : Nat) : ∀ (l : List (ScoredGroup F)) (i : Nat)
      (s : QueuePool numBlocks × List (BlockHash × List Nat)),
    (protectLoop f now firstSeen k i l).foldl (protectTo groupIds) s =
      (l.take (k - i)).foldl (protectGroup f groupIds now firstSeen) s := by
  intro l
  induction l with
  | nil => intro i s; simp [protectLoop]
  | cons g l ih =>
      intro i s
      unfold protectLoop
      by_cases hi : i ≥ k
      · rw [if_pos hi, foldl_protectTo_false, Nat.sub_eq_zero_of_le hi]
        rfl
      · obtain ⟨j, hj⟩ : ∃ j, k - i = j + 1 := ⟨k - i - 1, by omega⟩
        have hnext : k - (i + 1) = j := by omega
        rw [if_neg hi, hj, List.take_succ_cons, List.foldl_cons, ← hnext, ← ih]
        unfold protectGroup
        by_cases hcached : g.cachedBlocks = 0
        · rw [if_pos hcached, if_pos hcached]
          rfl
        · rw [if_neg hcached, if_neg hcached]
          by_cases hstale : isStaleSingleton f now firstSeen g = true
          · rw [if_pos hstale, if_pos hstale]
            rfl
          · rw [if_neg hstale, if_neg hstale]
            rfl

/-- **What a cycle counts and records** are the cached blocks of the groups it protects. -/
theorem run_protects (e : VllmPeekEngine F) (pool : QueuePool numBlocks) (now now' : F)
    {waiting : List QueuedReq} (h : worthwhile waiting = true) :
    ((e.run f pool now now' waiting).1, (e.run f pool now now' waiting).2.1.prevProtected) =
      (((e.cycleProtection f pool now now' waiting).foldl (protectTo e.groupIds)
          (e.resetQueueRefs pool, [])).1,
        some ((e.cycleProtection f pool now now' waiting).foldl (protectTo e.groupIds)
          (e.resetQueueRefs pool, [])).2) := by
  unfold cycleProtection
  rw [foldl_protectLoop, Nat.sub_zero]
  unfold run
  rw [if_neg (by simp [h])]
  rfl

/-- The groups with a cached block that the gate for stale singletons lets through. -/
def Protectable (now : F) (firstSeen : Map (List BlockHash) F) (g : ScoredGroup F) : Prop :=
  g.cachedBlocks ≠ 0 ∧ isStaleSingleton f now firstSeen g = false

/-- No group that a cycle leaves out scores higher than one that it protects. -/
def ProtectsTop (e : VllmPeekEngine F) (pool : QueuePool numBlocks) (now now' : F)
    (waiting : List QueuedReq) : Prop :=
  ∀ x ∈ e.cycleProtection f pool now now' waiting,
    x.2 = false → Protectable f now' (e.cycleSeen now waiting) x.1 →
  ∀ y ∈ e.cycleProtection f pool now now' waiting, y.2 = true → f.le x.1.score y.1.score = true

/-! ### What a cycle starts from -/

/-- The score of a group that waits. -/
def arrivalScore (e : VllmPeekEngine F) (pool : QueuePool numBlocks)
    (g : List BlockHash × List QueuedReq) : F := (scoreGroup f pool e.groupIds g).score

/-- A block of the first request is cached, and the group is neither small nor old. -/
def ArrivalProtectable (e : VllmPeekEngine F) (pool : QueuePool numBlocks) (now now' : F)
    (g : List BlockHash × List QueuedReq) : Prop :=
  pool.cachedPrefixLength e.groupIds (g.2.headD default).blockHashes ≠ 0 ∧
    ¬ (f.lt (f.ofRat (1 / 2)) (f.sub now' ((e.groupFirstSeen.lookup g.1).getD now)) = true ∧
      g.2.length ≤ 1)

/-- How many hashes the shortest request of a group has. -/
def shortest (g : List BlockHash × List QueuedReq) : Nat :=
  ((g.2.map fun r => r.blockHashes.length).min?).getD 0

/-- Two thirds of the groups for whose prefixes there are blocks, and at least one. -/
def slots (numBlocks : Nat) (groups : List (List BlockHash × List QueuedReq)) : Nat :=
  let capacity :=
    if groups.length > 0 ∧ numBlocks > 0 then
      numBlocks / max 1 ((groups.map shortest).sum / groups.length)
    else groups.length
  min groups.length (max 1 (capacity * 2 / 3))

/-- No group that arrived too late for the slots scores higher than one that did not. -/
def BestFirst (e : VllmPeekEngine F) (pool : QueuePool numBlocks) (now now' : F)
    (waiting : List QueuedReq) : Prop :=
  ∀ late ∈ (arrivals waiting).drop (slots numBlocks (arrivals waiting)),
    ArrivalProtectable f e pool now now' late →
  ∀ early ∈ (arrivals waiting).take (slots numBlocks (arrivals waiting)),
    ArrivalProtectable f e pool now now' early →
    f.le (e.arrivalScore f pool late) (e.arrivalScore f pool early) = true

variable {f}

/-! ### The first K -/

theorem protectLoop_eq (now : F) (firstSeen : Map (List BlockHash) F) (k : Nat) :
    ∀ (l : List (ScoredGroup F)) (i : Nat), protectLoop f now firstSeen k i l =
      ((l.take (k - i)).map fun g =>
        (g, decide (g.cachedBlocks ≠ 0) && ! isStaleSingleton f now firstSeen g)) ++
      (l.drop (k - i)).map fun g => (g, false) := by
  intro l
  induction l with
  | nil => intro i; simp [protectLoop]
  | cons g l ih =>
      intro i
      unfold protectLoop
      by_cases hi : i ≥ k
      · rw [if_pos hi, Nat.sub_eq_zero_of_le hi]
        rfl
      · obtain ⟨j, hj⟩ : ∃ j, k - i = j + 1 := ⟨k - i - 1, by omega⟩
        have hnext : k - (i + 1) = j := by omega
        rw [if_neg hi, hj, List.take_succ_cons, List.drop_succ_cons, List.map_cons, List.cons_append,
          ih, hnext]
        by_cases hcached : g.cachedBlocks = 0
        · rw [if_pos hcached]
          simp [hcached]
        · rw [if_neg hcached]
          by_cases hstale : isStaleSingleton f now firstSeen g = true
          · rw [if_pos hstale]
            simp [hstale]
          · rw [if_neg hstale]
            simp [hcached, hstale]

/-- What is protected, and what is left out although it could be. -/
theorem protectsTop_iff_take (e : VllmPeekEngine F) (pool : QueuePool numBlocks) (now now' : F)
    (waiting : List QueuedReq) : e.ProtectsTop f pool now now' waiting ↔
      ∀ late ∈ (e.cycleScored f pool waiting).drop (protectK numBlocks (e.cycleScored f pool waiting)),
        Protectable f now' (e.cycleSeen now waiting) late →
      ∀ early ∈ (e.cycleScored f pool waiting).take (protectK numBlocks (e.cycleScored f pool waiting)),
        Protectable f now' (e.cycleSeen now waiting) early →
        f.le late.score early.score = true := by
  unfold ProtectsTop cycleProtection
  rw [protectLoop_eq, Nat.sub_zero]
  constructor
  · intro h late hlate hl early hearly he
    refine h (late, false) ?_ rfl hl (early, true) ?_ rfl
    · exact List.mem_append_right _ (List.mem_map_of_mem hlate)
    · refine List.mem_append_left _ (List.mem_map.mpr ⟨early, hearly, ?_⟩)
      simp [he.1, he.2]
  · intro h x hx hxf hxp y hy hyt
    have hlate : x.1 ∈ (e.cycleScored f pool waiting).drop
        (protectK numBlocks (e.cycleScored f pool waiting)) := by
      rcases List.mem_append.mp hx with hx | hx
      · obtain ⟨g, -, rfl⟩ := List.mem_map.mp hx
        simp [hxp.1, hxp.2] at hxf
      · obtain ⟨g, hg, rfl⟩ := List.mem_map.mp hx
        exact hg
    rcases List.mem_append.mp hy with hy | hy
    · obtain ⟨g, hg, rfl⟩ := List.mem_map.mp hy
      simp only [Bool.and_eq_true, decide_eq_true_eq, Bool.not_eq_true'] at hyt
      exact h x.1 hlate hxp g hg hyt
    · obtain ⟨g, -, rfl⟩ := List.mem_map.mp hy
      simp at hyt

/-! ### From what a cycle starts from -/

theorem cachedPrefixLength_congr {pool pool' : QueuePool numBlocks}
    (h : pool'.getCachedBlock = pool.getCachedBlock) (groupIds : List Nat) :
    ∀ hashes, pool'.cachedPrefixLength groupIds hashes = pool.cachedPrefixLength groupIds hashes := by
  intro hashes
  induction hashes with
  | nil => rfl
  | cons bh hashes ih =>
      unfold QueuePool.cachedPrefixLength
      rw [QueuePool.cachedBlocks_congr pool h, ih]

/-- The cycle scores the groups as they arrived. -/
theorem cycleScored_eq (e : VllmPeekEngine F) (pool : QueuePool numBlocks)
    (waiting : List QueuedReq) : e.cycleScored f pool waiting =
      (arrivals waiting).map fun g => (scoreGroup f pool e.groupIds g).sortMembers := by
  unfold cycleScored matchAndScoreGroups
  rw [List.map_map]
  refine List.map_congr_left fun g _ => ?_
  show (scoreGroup f _ _ g).sortMembers = _
  unfold scoreGroup
  simp only [cachedPrefixLength_congr (resetQueueRefs_keeps e pool).1]

theorem arrivals_ne_nil {waiting : List QueuedReq} {g : List BlockHash × List QueuedReq}
    (hg : g ∈ arrivals waiting) : g.2 ≠ [] :=
  (groupBy_spec QueuedReq.hashKey (waiting.filter QueuedReq.isNew)).2.1 g hg

/-- Sorted, a group is represented by its shortest member. -/
theorem length_rep_sortMembers (pool : QueuePool numBlocks) (groupIds : List Nat)
    {g : List BlockHash × List QueuedReq} (hne : g.2 ≠ []) :
    (scoreGroup f pool groupIds g).sortMembers.rep.blockHashes.length = shortest g := by
  have hperm := List.perm_insertionSort
    (fun r r' : QueuedReq => r.blockHashes.length ≤ r'.blockHashes.length) g.2
  have hsorted := pairwise_sorted (fun r : QueuedReq => r.blockHashes.length) g.2
  unfold shortest
  cases hl : g.2.insertionSort fun r r' => r.blockHashes.length ≤ r'.blockHashes.length with
  | nil =>
      rw [hl] at hperm
      exact absurd hperm.symm.eq_nil hne
  | cons r rest =>
      rw [hl] at hperm hsorted
      have hmin : (g.2.map fun r => r.blockHashes.length).min? = some r.blockHashes.length := by
        rw [List.min?_eq_some_iff]
        refine ⟨List.mem_map_of_mem (hperm.subset List.mem_cons_self), fun n hn => ?_⟩
        obtain ⟨r', hr', rfl⟩ := List.mem_map.mp hn
        rcases List.mem_cons.mp (hperm.symm.subset hr') with rfl | hr'
        · exact Nat.le_refl _
        · exact (List.pairwise_cons.mp hsorted).1 r' hr'
      rw [hmin]
      show ((g.2.insertionSort fun r r' => r.blockHashes.length ≤ r'.blockHashes.length).headD
        default).blockHashes.length = _
      rw [hl]
      rfl

theorem protectK_cycleScored (e : VllmPeekEngine F) (pool : QueuePool numBlocks)
    (waiting : List QueuedReq) :
    protectK numBlocks (e.cycleScored f pool waiting) = slots numBlocks (arrivals waiting) := by
  have hlens : (e.cycleScored f pool waiting).map (fun g => g.rep.blockHashes.length) =
      (arrivals waiting).map shortest := by
    rw [cycleScored_eq, List.map_map]
    exact List.map_congr_left fun g hg => length_rep_sortMembers pool e.groupIds (arrivals_ne_nil hg)
  have hlen : (e.cycleScored f pool waiting).length = (arrivals waiting).length := by
    rw [cycleScored_eq, List.length_map]
  unfold protectK slots
  rw [hlens, hlen]

/-! ### When a group was first seen -/

theorem lookup_foldl_erase (keys : List (List BlockHash)) (key : List BlockHash) :
    ∀ seen : Map (List BlockHash) F, key ∉ keys →
      (keys.foldl (fun m k => m.erase k) seen).lookup key = seen.lookup key := by
  induction keys with
  | nil => intro seen _; rfl
  | cons k keys ih =>
      intro seen hkey
      rw [List.mem_cons, not_or] at hkey
      rw [List.foldl_cons, ih _ hkey.2, Map.lookup_erase_of, if_neg hkey.1]

theorem lookup_foldl_see (now : F) (key : List BlockHash) : ∀ (keys : List (List BlockHash))
    (seen : Map (List BlockHash) F),
    ((keys.foldl (fun m k => if (m.lookup k).isSome then m else m.insert k now) seen).lookup key) =
      if (seen.lookup key).isSome then seen.lookup key
      else if key ∈ keys then some now else none := by
  intro keys
  induction keys with
  | nil =>
      intro seen
      cases h : seen.lookup key <;> simp [h]
  | cons k keys ih =>
      intro seen
      rw [List.foldl_cons, ih]
      by_cases hk : key = k
      · subst hk
        cases h : seen.lookup key <;> simp [h]
      · have hstep : (if (seen.lookup k).isSome then seen else seen.insert k now).lookup key =
            seen.lookup key := by
          split
          · rfl
          · rw [Map.lookup_insert_of, if_neg hk]
        rw [hstep]
        simp [hk]

/-- **A group that is there keeps its time**, and a new one gets the time of the cycle. -/
theorem lookup_cycleSeen (e : VllmPeekEngine F) (now : F) {waiting : List QueuedReq}
    {g : List BlockHash × List QueuedReq} (hg : g ∈ arrivals waiting) :
    (e.cycleSeen now waiting).lookup g.1 = some ((e.groupFirstSeen.lookup g.1).getD now) := by
  have hkey := List.mem_map_of_mem (f := fun g : List BlockHash × List QueuedReq => g.1) hg
  unfold cycleSeen seeGroups
  simp only
  rw [lookup_foldl_see, lookup_foldl_erase]
  · cases e.groupFirstSeen.lookup g.1 with
    | none =>
        rw [if_pos hkey]
        rfl
    | some t => rfl
  · rw [List.mem_filter, decide_eq_true_eq]
    exact fun hgone => hgone.2 hkey

theorem protectable_iff (e : VllmPeekEngine F) (pool : QueuePool numBlocks) (now now' : F)
    {waiting : List QueuedReq} {g : List BlockHash × List QueuedReq} (hg : g ∈ arrivals waiting) :
    Protectable f now' (e.cycleSeen now waiting) (scoreGroup f pool e.groupIds g).sortMembers ↔
      ArrivalProtectable f e pool now now' g := by
  unfold Protectable ArrivalProtectable isStaleSingleton
  refine and_congr Iff.rfl ?_
  have hlen : (scoreGroup f pool e.groupIds g).sortMembers.members.length = g.2.length :=
    List.length_insertionSort _ _
  rw [show (scoreGroup f pool e.groupIds g).sortMembers.key = g.1 from rfl, lookup_cycleSeen e now hg,
    hlen, Option.getD_some, ← Bool.not_eq_true, Bool.and_eq_true, decide_eq_true_eq]

theorem protectsTop_iff (e : VllmPeekEngine F) (pool : QueuePool numBlocks) (now now' : F)
    (waiting : List QueuedReq) :
    e.ProtectsTop f pool now now' waiting ↔ e.BestFirst f pool now now' waiting := by
  rw [protectsTop_iff_take, protectK_cycleScored, cycleScored_eq, ← List.map_drop, ← List.map_take]
  unfold BestFirst
  rw [List.forall_mem_map]
  refine forall₂_congr fun late hlate => ?_
  rw [protectable_iff e pool now now' (List.mem_of_mem_drop hlate)]
  refine forall_congr' fun _ => ?_
  rw [List.forall_mem_map]
  refine forall₂_congr fun early hearly => ?_
  rw [protectable_iff e pool now now' (List.mem_of_mem_take hearly)]
  rfl

/--
**When the best groups are protected.**  A cycle that comes to protection counts and records the
cached blocks of the groups it protects.  Of those that can be protected none that is left out
scores higher than one that is not, if and only if the best are among the first to arrive: no
group that arrived when the slots were taken scores higher than one that got a slot.
-/
theorem protects_top_iff {F : Type} (f : PyFloat F) {numBlocks : Nat} (e : VllmPeekEngine F)
    (pool : QueuePool numBlocks) (now now' : F) {waiting : List QueuedReq}
    (h : worthwhile waiting = true) :
    ((e.run f pool now now' waiting).1, (e.run f pool now now' waiting).2.1.prevProtected) =
      (((e.cycleProtection f pool now now' waiting).foldl (protectTo e.groupIds)
          (e.resetQueueRefs pool, [])).1,
        some ((e.cycleProtection f pool now now' waiting).foldl (protectTo e.groupIds)
          (e.resetQueueRefs pool, [])).2) ∧
    (e.ProtectsTop f pool now now' waiting ↔ e.BestFirst f pool now now' waiting) :=
  ⟨run_protects f e pool now now' h, protectsTop_iff e pool now now' waiting⟩

/-- Two blocks, each cached under a hash. -/
def twoBlocks : QueuePool 2 where
  queueRefCount _ := 0
  isNull _ := false
  getCachedBlock bh _ := (([10, 20].zip (List.finRange 2)).lookup bh).map fun block => [block]

/-- Requests with these hashes, of which nothing is computed. -/
def queueOf (hashes : List (List BlockHash)) : List QueuedReq := hashes.map fun bhs => ⟨"r", 0, bhs⟩

theorem arrivalScore_exact (e : VllmPeekEngine ℚ) (pool : QueuePool numBlocks)
    (g : List BlockHash × List QueuedReq) : e.arrivalScore PyFloat.exact pool g =
      (pool.cachedPrefixLength e.groupIds (g.2.headD default).blockHashes : ℚ) /
        (max (g.2.headD default).blockHashes.length 1 : Nat) * 10000 - (g.2.length - batchEst : Nat) +
        g.2.length * (1 / 1000) := rfl

/-- The group that is cached as a whole, and the one of which half is, by their scores. -/
theorem arrivalScore_twoBlocks :
    (new [0] : VllmPeekEngine ℚ).arrivalScore PyFloat.exact twoBlocks ([20], queueOf [[20], [20]]) =
      10000 + 2 / 1000 ∧
    (new [0] : VllmPeekEngine ℚ).arrivalScore PyFloat.exact twoBlocks
      ([10, 11], queueOf [[10, 11], [10, 11]]) = 5000 + 2 / 1000 := by
  have h20 : twoBlocks.cachedPrefixLength [0] [20] = 1 := by decide
  have h10 : twoBlocks.cachedPrefixLength [0] [10, 11] = 1 := by decide
  constructor
  · rw [arrivalScore_exact]
    show (twoBlocks.cachedPrefixLength [0] [20] : ℚ) / ((1 : Nat) : ℚ) * 10000 - ((0 : Nat) : ℚ) +
      ((2 : Nat) : ℚ) * (1 / 1000) = _
    rw [h20]
    norm_num
  · rw [arrivalScore_exact]
    show (twoBlocks.cachedPrefixLength [0] [10, 11] : ℚ) / ((2 : Nat) : ℚ) * 10000 - ((0 : Nat) : ℚ) +
      ((2 : Nat) : ℚ) * (1 / 1000) = _
    rw [h10]
    norm_num

/-- The group that is cached as a whole comes first and gets the slot. -/
theorem protects_top_first :
    worthwhile (queueOf [[20], [20], [10, 11], [10, 11]]) = true ∧
    (new [0] : VllmPeekEngine ℚ).ProtectsTop PyFloat.exact twoBlocks 0 0
      (queueOf [[20], [20], [10, 11], [10, 11]]) := by
  have hworth : worthwhile (queueOf [[20], [20], [10, 11], [10, 11]]) = true := by decide
  refine ⟨hworth, (protects_top_iff PyFloat.exact (new [0]) twoBlocks 0 0 hworth).2.mpr ?_⟩
  intro late hlate _ early hearly _
  have hlate : late = ([10, 11], queueOf [[10, 11], [10, 11]]) := List.mem_singleton.mp hlate
  have hearly : early = ([20], queueOf [[20], [20]]) := List.mem_singleton.mp hearly
  rw [hlate, hearly, arrivalScore_twoBlocks.1, arrivalScore_twoBlocks.2]
  show decide ((5000 : ℚ) + 2 / 1000 ≤ 10000 + 2 / 1000) = true
  norm_num

/-- The same groups, the other way round: the one that is half cached gets the slot. -/
theorem not_protects_top :
    worthwhile (queueOf [[10, 11], [10, 11], [20], [20]]) = true ∧
    ¬ (new [0] : VllmPeekEngine ℚ).ProtectsTop PyFloat.exact twoBlocks 0 0
      (queueOf [[10, 11], [10, 11], [20], [20]]) := by
  refine ⟨by decide, fun htop => ?_⟩
  have hle := (protectsTop_iff _ _ _ _ _).mp htop ([20], queueOf [[20], [20]])
    (show _ ∈ [_] from List.mem_singleton_self _) ⟨by decide, fun hstale => absurd hstale.2 (by decide)⟩
    ([10, 11], queueOf [[10, 11], [10, 11]]) (show _ ∈ [_] from List.mem_singleton_self _)
    ⟨by decide, fun hstale => absurd hstale.2 (by decide)⟩
  rw [arrivalScore_twoBlocks.1, arrivalScore_twoBlocks.2] at hle
  have hle : (10000 : ℚ) + 2 / 1000 ≤ 5000 + 2 / 1000 := of_decide_eq_true hle
  norm_num at hle

end VllmPeekEngine

end Peek
