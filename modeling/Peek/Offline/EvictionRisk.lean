/-
How the engine measures the urgency of a group (`_run_tagged`, steps 3 to 6).

The risk of a group is the time since the last access of the node that ends its cached prefix.
It is meant to favour prefixes that LRU would evict soon.  But the node's access time is read
after the group has been matched by `match_prefix`, which writes it.  So what is measured is
how long the engine's own match took, unless the clock has stood still since the last access
(`urgency_before_cycle_iff`).  `sglang_pre_schedule` matches by `match_prefix_readonly`, and
says why.

`Clocks` is what the clocks show.  The readings of `time.monotonic()` by the cache are numbered;
one of the engine is known by how many of them the cache has made before.
-/
import Peek.Base.PyFloat
import Peek.Base.Sorting
import Peek.Offline.ClientPending
import Peek.Sglang.Clock
import Mathlib.Algebra.Order.Field.Basic
import Mathlib.Data.Prod.Lex
import Mathlib.Tactic.Linarith

namespace Peek

open Radix RadixCache

/-- What a cycle reads off the clocks. -/
structure Clocks (F : Type) where
  /-- The `n`-th reading of `time.monotonic()` by the cache. -/
  cache : Nat → F
  /-- A reading of `time.monotonic()` by the engine, when the cache has made `n`. -/
  engine : Nat → F
  /-- `now`, by `time.perf_counter()`. -/
  now : F
  /-- `wait_queue_entry_time`; zero for a request without time stats. -/
  entryTime : ReqId → F

/-- `time.monotonic()` does not go backwards. -/
structure Clocks.Monotone (t : Clocks ℚ) : Prop where
  cache_le : ∀ n, t.cache n ≤ t.engine (n + 1)
  engine_le : ∀ n, t.engine n ≤ t.cache n

/-- A reading of the cache is no later than one of the engine after it. -/
theorem Clocks.Monotone.le {t : Clocks ℚ} (ht : t.Monotone) {m n : Nat} (h : m < n) :
    t.cache m ≤ t.engine n := by
  induction h with
  | refl => exact ht.cache_le m
  | step _ ih => exact ih.trans ((ht.engine_le _).trans (ht.cache_le _))

/-- What is known of a group once it has been matched. -/
structure GroupStat (F : Type) where
  groupKey : Option Int
  members : List Req
  prefixLen : Nat
  cacheFrac : F
  repNode : NodeId
  evictionRisk : F

structure ScoredStat (F : Type) where
  score : F
  dfsRank : Int
  stat : GroupStat F

namespace PeekEngine

variable {F : Type} (f : PyFloat F) (t : Clocks F)

/-- One turn of the matching loop. -/
def groupStat (treeCache : RadixCache) (g : Option Int × List Req) : RadixCache × GroupStat F :=
  let (found, treeCache) := treeCache.matchPrefix (rep g.2).key
  let members := g.2.map fun r => { r.setMatch found with peekMatched := true }
  let prefixLen := (rep g.2).originInputIds.length
  let cachedLen := found.deviceIndices.length
  let cacheFrac := f.div (f.ofRat cachedLen) (f.ofRat (max prefixLen 1 : Nat))
  let repNode := found.lastDeviceNode
  let evictionRisk :=
    if cachedLen > 0 then
      f.max (f.ofRat 0)
        (f.sub (t.engine treeCache.clock) (t.cache (treeCache.node repNode).lastAccessTime))
    else f.ofRat 0
  (treeCache, ⟨g.1, members, prefixLen, cacheFrac, repNode, evictionRisk⟩)

/-- `group_stats` -/
def groupStats : RadixCache → List (Option Int × List Req) → RadixCache × List (GroupStat F)
  | treeCache, [] => (treeCache, [])
  | treeCache, g :: groups =>
      let (treeCache, stat) := groupStat f t treeCache g
      let (treeCache, stats) := groupStats treeCache groups
      (treeCache, stat :: stats)

/-- `client_pending.get(group_key, queue_count)` -/
def totalPending (store : CacheStateStore) (g : GroupStat F) : Int :=
  match store.clientPending.find? fun e => some (e.1 : Int) = g.groupKey with
  | some e => e.2
  | none => g.members.length

/-- How long the members have waited at most. -/
def maxWait (members : List Req) : F :=
  members.foldl (fun maxWait r =>
    if f.lt (f.ofRat 0) (t.entryTime r.rid) then f.max maxWait (f.sub t.now (t.entryTime r.rid))
    else maxWait) (f.ofRat 0)

def score (store : CacheStateStore) (g : GroupStat F) : F :=
  let futureRefs := max 0 (totalPending store g - batchEst)
  f.add (f.add (f.add (f.sub (f.mul g.cacheFrac (f.ofRat 10000)) (f.ofRat futureRefs))
    (f.mul g.evictionRisk (f.ofRat 100))) (f.mul (maxWait f t g.members) (f.ofRat 100)))
    (f.mul (f.ofRat g.members.length) (f.ofRat (1 / 1000)))

/-- The rank in the tag of a group's first member. -/
def dfsRank (g : GroupStat F) : Int :=
  match parsePeekRid (rep g.members).rid with
  | some tag => tag.1
  | none => 0

/-- `(-x[0], x[1]) < (-y[0], y[1])` -/
def scoredLt (x y : ScoredStat F) : Bool :=
  if f.le x.score y.score && f.le y.score x.score then decide (x.dfsRank < y.dfsRank)
  else f.lt y.score x.score

/-- The groups in the order in which they are scheduled. -/
def scoredGroups (store : CacheStateStore) (stats : List (GroupStat F)) : List (GroupStat F) :=
  ((stats.map fun g => ⟨score f t store g, dfsRank g, g⟩).insertionSort fun x y =>
    ! scoredLt f y x).map (·.stat)

/-- `int(total_cached / avg_prefix_len)` -/
def capacityGroups (treeCache : RadixCache) (prefixLens : List Nat) : Nat :=
  (f.int (f.div (f.ofRat treeCache.totalSize)
    (f.max (f.ofRat 1) (f.div (f.ofRat prefixLens.sum) (f.ofRat prefixLens.length))))).toNat

/-- How many groups are protected, and then their nodes. -/
def scoredNodes (treeCache : RadixCache) (scored : List (GroupStat F)) : List NodeId :=
  let capacity :=
    if scored.length > 0 ∧ treeCache.totalSize > 0 then
      capacityGroups f treeCache (scored.map (·.prefixLen))
    else scored.length
  (scored.take (min scored.length (max 1 (capacity * 3 / 4)))).filterMap fun g =>
    if f.lt (f.ofRat 0) g.cacheFrac then some g.repNode else none

/-- `_run_tagged`, with its scores. -/
def runTaggedScored (store : CacheStateStore) (s : PeekCache) (waitingQueue : List Req) :
    Option Bool × PeekCache × List Req :=
  let s := s.resetProtection
  if ¬ TagsParse waitingQueue then (none, s, waitingQueue)
  else
    let (treeCache, stats) := groupStats f t s.treeCache (tagGroups waitingQueue)
    let s := { s with treeCache := treeCache }
    let scored := scoredGroups f t store stats
    (some true, s.protect (scoredNodes f treeCache scored), scored.flatMap (·.members))

/-! ### The scores are a scoring -/

theorem groupStats_eq : ∀ (groups : List (Option Int × List Req)) (c : RadixCache),
    (groupStats f t c groups).1 = (forEach (matchGroup true) c groups).1 ∧
    (groupStats f t c groups).2.map (·.members) =
      (forEach (matchGroup true) c groups).2.map (·.2) := by
  intro groups
  induction groups with
  | nil => intro c; exact ⟨rfl, rfl⟩
  | cons g groups ih =>
      intro c
      obtain ⟨hcache, hmembers⟩ := ih (matchGroup true c g).1
      refine ⟨hcache, ?_⟩
      show (groupStat f t c g).2.members ::
        (groupStats f t (groupStat f t c g).1 groups).2.map (·.members) = _
      rw [forEach_cons, List.map_cons]
      exact congrArg _ hmembers

theorem scoredGroups_perm (store : CacheStateStore) (stats : List (GroupStat F)) :
    (scoredGroups f t store stats).Perm stats := by
  have hperm := (List.perm_insertionSort (fun x y => ! scoredLt f y x)
    (stats.map fun g => (⟨score f t store g, dfsRank g, g⟩ : ScoredStat F))).map (·.stat)
  rw [List.map_map] at hperm
  refine hperm.trans ?_
  rw [show (ScoredStat.stat ∘ fun g => (⟨score f t store g, dfsRank g, g⟩ : ScoredStat F)) =
    id from rfl, List.map_id]

/-- The order the scores give, and the capacity. -/
def scoring (store : CacheStateStore) (stats : List (GroupStat F)) : Scoring where
  sortGroups _ groups :=
    if groups = stats.map (·.members) then (scoredGroups f t store stats).map (·.members)
    else groups
  sortGroups_perm c groups := by
    split
    · next heq => exact heq ▸ (scoredGroups_perm f t store stats).map _
    · exact List.Perm.refl _
  capacity c groups :=
    capacityGroups f c (groups.map fun members => (rep members).originInputIds.length)

/-- What is kept of a group is what its members carry. -/
structure Carried (g : GroupStat ℚ) : Prop where
  prefixLen : g.prefixLen = (rep g.members).originInputIds.length
  cached : PyFloat.exact.lt 0 g.cacheFrac = true ↔ (rep g.members).prefixIndices ≠ []
  repNode : (rep g.members).lastNode = some g.repNode

theorem groupStat_carried (t : Clocks ℚ) (c : RadixCache) {g : Option Int × List Req}
    (hne : g.2 ≠ []) : Carried (groupStat PyFloat.exact t c g).2 := by
  obtain ⟨key, members⟩ := g
  obtain ⟨r, rest, rfl⟩ := List.exists_cons_of_ne_nil hne
  refine ⟨rfl, ?_, rfl⟩
  set found := (c.matchPrefix r.key).1 with hfound
  have hpos : (0 : ℚ) < ((max r.originInputIds.length 1 : Nat) : ℚ) :=
    Nat.cast_pos.mpr (Nat.lt_of_lt_of_le Nat.one_pos (Nat.le_max_right _ _))
  show decide ((0 : ℚ) < ((found.deviceIndices.length : ℕ) : ℚ) /
    ((max r.originInputIds.length 1 : Nat) : ℚ)) = true ↔ found.deviceIndices ≠ []
  rw [decide_eq_true_iff, div_pos_iff_of_pos_right hpos, Nat.cast_pos, List.length_pos_iff]

theorem groupStats_carried (t : Clocks ℚ) : ∀ (groups : List (Option Int × List Req))
    (c : RadixCache), (∀ g ∈ groups, g.2 ≠ []) →
      ∀ stat ∈ (groupStats PyFloat.exact t c groups).2, Carried stat := by
  intro groups
  induction groups with
  | nil => intro c _ stat hstat; exact absurd hstat List.not_mem_nil
  | cons g groups ih =>
      intro c hne stat hstat
      rw [List.forall_mem_cons] at hne
      rcases List.mem_cons.mp hstat with rfl | hstat
      · exact groupStat_carried t c hne.1
      · exact ih _ hne.2 stat hstat

theorem scoredNodes_eq (t : Clocks ℚ) (store : CacheStateStore) (stats : List (GroupStat ℚ))
    (c : RadixCache) {scored : List (GroupStat ℚ)} (h : ∀ g ∈ scored, Carried g) :
    scoredNodes PyFloat.exact c scored =
      protectedNodes (scoring PyFloat.exact t store stats) c (scored.map (·.members)) := by
  have hlens : (scored.map (·.members)).map (fun members => (rep members).originInputIds.length) =
      scored.map (·.prefixLen) := by
    rw [List.map_map]
    exact List.map_congr_left fun g hg => (h g hg).prefixLen.symm
  unfold scoredNodes protectedNodes protectK scoring
  simp only [List.length_map, hlens]
  rw [← List.map_take, List.filterMap_map]
  refine List.filterMap_congr fun g hg => ?_
  have hg := h g (List.mem_of_mem_take hg)
  show (if PyFloat.exact.lt 0 g.cacheFrac = true then some g.repNode else none) =
    if (rep g.members).prefixIndices ≠ [] then (rep g.members).lastNode else none
  rw [hg.repNode]
  exact if_congr hg.cached rfl rfl

/-- **The scores order and protect as some scoring does**, so what holds of every one holds
of them. -/
theorem runTaggedScored_eq (t : Clocks ℚ) (store : CacheStateStore) (s : PeekCache)
    (queue : List Req) : runTaggedScored PyFloat.exact t store s queue =
      runTagged (scoring PyFloat.exact t store (groupStats PyFloat.exact t
        s.resetProtection.treeCache (tagGroups queue)).2) s queue := by
  set stats := (groupStats PyFloat.exact t s.resetProtection.treeCache (tagGroups queue)).2
    with hstats
  obtain ⟨hcache, hmembers⟩ := groupStats_eq PyFloat.exact t (tagGroups queue)
    s.resetProtection.treeCache
  have hcarried : ∀ g ∈ scoredGroups PyFloat.exact t store stats, Carried g := fun g hg =>
    groupStats_carried t (tagGroups queue) _ (groupBy_spec groupKey (tagged queue)).2.1 g
      ((scoredGroups_perm PyFloat.exact t store stats).subset hg)
  unfold runTaggedScored runTagged
  by_cases hparse : ¬ TagsParse queue
  · simp only [if_pos hparse]
  · simp only [if_neg hparse]
    have hsort : (scoring PyFloat.exact t store stats).sortGroups
        (forEach (matchGroup true) s.resetProtection.treeCache (tagGroups queue)).1
        ((forEach (matchGroup true) s.resetProtection.treeCache (tagGroups queue)).2.map (·.2)) =
        (scoredGroups PyFloat.exact t store stats).map (·.members) := if_pos hmembers.symm
    rw [hsort, hcache, scoredNodes_eq t store stats _ hcarried]
    rfl

/-! ### What the risk is said to be -/

/-- The groups that are matched; none, when a tag does not parse. -/
def matchedGroups (waitingQueue : List Req) : List (Option Int × List Req) :=
  if TagsParse waitingQueue then tagGroups waitingQueue else []

/-- The cache when the groups `pre` have been matched. -/
def matchedCache (s : PeekCache) (pre : List (Option Int × List Req)) : RadixCache :=
  (forEach (matchGroup true) s.resetProtection.treeCache pre).1

/--
`stat` is of a group with a cached prefix; and when its risk was taken, the node that ends the
prefix had gone without an access for `x`, those of the cycle itself apart.
-/
def Untouched (s : PeekCache) (waitingQueue : List Req) (stat : GroupStat F) (x : F) : Prop :=
  ∃ pre g post n, matchedGroups waitingQueue = pre ++ g :: post ∧
    stat = (groupStat f t (matchedCache s pre) g).2 ∧ s.treeCache.EndsAt (rep g.2).key n ∧
    x = f.sub (t.engine (matchedCache s (pre ++ [g])).clock)
      (t.cache (s.treeCache.node n).lastAccessTime)

/-- The stats of a cycle. -/
def cycleStats (s : PeekCache) (waitingQueue : List Req) : List (GroupStat F) :=
  (groupStats f t s.resetProtection.treeCache (matchedGroups waitingQueue)).2

/--
The risk is measured against the accesses before the cycle; and of two groups that differ in
nothing else the one that was untouched for longer is scheduled first.
-/
structure UrgencyBeforeCycle (store : CacheStateStore) (s : PeekCache)
    (waitingQueue : List Req) : Prop where
  risk : ∀ stat x, Untouched f t s waitingQueue stat x → stat.evictionRisk = x
  first : ∀ stat stat' x x', Untouched f t s waitingQueue stat x →
    Untouched f t s waitingQueue stat' x' → stat.cacheFrac = stat'.cacheFrac →
    totalPending store stat = totalPending store stat' →
    maxWait f t stat.members = maxWait f t stat'.members →
    stat.members.length = stat'.members.length → f.lt x' x = true →
    [stat, stat'].Sublist (scoredGroups f t store (cycleStats f t s waitingQueue))

/--
When a group with a cached prefix is matched, the clock shows the time at which the node that
ends the prefix was last accessed before the cycle.
-/
def ClockStill (s : PeekCache) (waitingQueue : List Req) : Prop :=
  ∀ pre g post n, matchedGroups waitingQueue = pre ++ g :: post →
    s.treeCache.EndsAt (rep g.2).key n →
    ((∃ e, (matchedCache s pre).EndsInside (rep g.2).key e) →
      t.cache (s.treeCache.node n).lastAccessTime = t.cache ((matchedCache s pre).clock + 1)) ∧
    ((¬ ∃ e, (matchedCache s pre).EndsInside (rep g.2).key e) →
      t.cache (s.treeCache.node n).lastAccessTime = t.cache (matchedCache s pre).clock)

/-! ### The cache in the cycle -/

end PeekEngine

namespace PeekCache

theorem ages_resetProtection (s : PeekCache) : Ages s.treeCache s.resetProtection.treeCache := by
  unfold resetProtection
  cases s.prevProtected with
  | some prev => exact foldl_rel Ages.refl Ages.trans ages_clearQueueRefs prev s.treeCache
  | none => exact ages_resetAllQueueRefs s.treeCache

theorem ages_protect (s : PeekCache) (nodes : List NodeId) :
    Ages s.treeCache (s.protect nodes).treeCache :=
  foldl_rel Ages.refl Ages.trans ages_incQueueRef nodes s.treeCache

end PeekCache

namespace PeekEngine

variable {F : Type} (f : PyFloat F) (t : Clocks F)

theorem ages_matchedCache (s : PeekCache) (pre : List (Option Int × List Req)) :
    Ages s.treeCache (matchedCache s pre) :=
  s.ages_resetProtection.trans (forEach_rel Ages.refl Ages.trans
    (fun c g => ages_matchPrefixWith true c (rep g.2).key) pre _)

theorem onlySplits_matchedCache (s : PeekCache) (pre : List (Option Int × List Req)) :
    OnlySplits s.treeCache (matchedCache s pre) :=
  s.onlySplits_resetProtection.trans (forEach_rel OnlySplits.refl OnlySplits.trans
    (fun c g => onlySplits_matchPrefixWith true c (rep g.2).key) pre _)

theorem matchedCache_snoc (s : PeekCache) (pre : List (Option Int × List Req))
    (g : Option Int × List Req) :
    matchedCache s (pre ++ [g]) = ((matchedCache s pre).matchPrefix (rep g.2).key).2 := by
  unfold matchedCache
  generalize s.resetProtection.treeCache = c
  induction pre generalizing c with
  | nil => rfl
  | cons g' pre ih =>
      rw [List.cons_append, forEach_cons, forEach_cons]
      exact ih _

/-- The stat of a group is among those of the cycle. -/
theorem groupStat_mem (pre : List (Option Int × List Req)) (g : Option Int × List Req)
    (post : List (Option Int × List Req)) (c : RadixCache) :
    (groupStat f t (forEach (matchGroup true) c pre).1 g).2 ∈
      (groupStats f t c (pre ++ g :: post)).2 := by
  induction pre generalizing c with
  | nil => exact List.mem_cons_self
  | cons g' pre ih =>
      rw [forEach_cons]
      exact List.mem_cons_of_mem _ (ih _)

/-! ### What the risk is -/

section

variable {t : Clocks ℚ} (ht : t.Monotone) {s : PeekCache} {queue : List Req}
include ht

/-- **What is measured** is the time since the stamp of the match, which is in the past. -/
theorem evictionRisk_eq (h : Sound s.treeCache) (hpast : s.treeCache.TimesPast)
    (pre : List (Option Int × List Req)) {g : Option Int × List Req} {n : NodeId}
    (hn : s.treeCache.EndsAt (rep g.2).key n) :
    (groupStat PyFloat.exact t (matchedCache s pre) g).2.evictionRisk =
      t.engine (matchedCache s (pre ++ [g])).clock -
        t.cache ((matchedCache s (pre ++ [g])).node
          ((matchedCache s pre).matchPrefix (rep g.2).key).1.lastDeviceNode).lastAccessTime := by
  have hcached := (hn.matched h (onlySplits_matchedCache s pre)).2
  have hafter := (ages_matchedCache s (pre ++ [g])).past hpast
  rw [matchedCache_snoc] at hafter ⊢
  set c := matchedCache s pre with hc
  set c' := (c.matchPrefix (rep g.2).key).2 with hc'
  set m := (c.matchPrefix (rep g.2).key).1.lastDeviceNode with hm
  have hle := ht.le (hafter m)
  have hif : (groupStat PyFloat.exact t c g).2.evictionRisk = PyFloat.exact.max 0
      (t.engine c'.clock - t.cache (c'.node m).lastAccessTime) := if_pos hcached
  rw [hif]
  unfold PyFloat.max
  show (if decide (0 < t.engine c'.clock - t.cache (c'.node m).lastAccessTime) = true then _
    else (0 : ℚ)) = _
  by_cases hlt : 0 < t.engine c'.clock - t.cache (c'.node m).lastAccessTime
  · rw [if_pos (decide_eq_true hlt)]
  · rw [if_neg (by simpa using hlt)]
    linarith

/-- The stamp of the match is the one that `ClockStill` speaks of. -/
theorem evictionRisk_eq_iff (h : Sound s.treeCache) (hpast : s.treeCache.TimesPast)
    (pre : List (Option Int × List Req)) {g : Option Int × List Req} {n : NodeId}
    (hn : s.treeCache.EndsAt (rep g.2).key n) :
    (groupStat PyFloat.exact t (matchedCache s pre) g).2.evictionRisk =
        t.engine (matchedCache s (pre ++ [g])).clock -
          t.cache (s.treeCache.node n).lastAccessTime ↔
      ((∃ e, (matchedCache s pre).EndsInside (rep g.2).key e) →
        t.cache (s.treeCache.node n).lastAccessTime = t.cache ((matchedCache s pre).clock + 1)) ∧
      ((¬ ∃ e, (matchedCache s pre).EndsInside (rep g.2).key e) →
        t.cache (s.treeCache.node n).lastAccessTime = t.cache (matchedCache s pre).clock) := by
  have hsplits := onlySplits_matchedCache s pre
  obtain ⟨live, rp, pv, hwf⟩ := hsplits.sound h
  obtain ⟨hinside, hend⟩ := matchPrefix_stamp hwf (hn.matched h hsplits).1
  rw [evictionRisk_eq ht h hpast pre hn, sub_right_inj, matchedCache_snoc]
  by_cases hin : ∃ e, (matchedCache s pre).EndsInside (rep g.2).key e
  · rw [hinside hin]
    exact ⟨fun heq => ⟨fun _ => heq.symm, fun hnot => absurd hin hnot⟩,
      fun hstill => (hstill.1 hin).symm⟩
  · rw [hend hin]
    exact ⟨fun heq => ⟨fun hyes => absurd hyes hin, fun _ => heq.symm⟩,
      fun hstill => (hstill.2 hin).symm⟩

end

/-! ### The order of the groups -/

/-- `scoredLt` is the order of the keys. -/
theorem scoredLt_iff (x y : ScoredStat ℚ) : scoredLt PyFloat.exact x y = true ↔
    (toLex (-x.score, x.dfsRank) : ℚ ×ₗ ℤ) < toLex (-y.score, y.dfsRank) := by
  rw [Prod.Lex.toLex_lt_toLex]
  unfold scoredLt
  show (if (decide (x.score ≤ y.score) && decide (y.score ≤ x.score)) = true then
    decide (x.dfsRank < y.dfsRank) else decide (y.score < x.score)) = true ↔
    -x.score < -y.score ∨ -x.score = -y.score ∧ x.dfsRank < y.dfsRank
  have hsame : (decide (x.score ≤ y.score) && decide (y.score ≤ x.score)) = true ↔
      x.score = y.score := by
    rw [Bool.and_eq_true, decide_eq_true_iff, decide_eq_true_iff, le_antisymm_iff]
  rw [neg_lt_neg_iff, neg_inj]
  by_cases heq : x.score = y.score
  · rw [if_pos (hsame.mpr heq), decide_eq_true_iff]
    simp [heq]
  · rw [if_neg (mt hsame.mp heq), decide_eq_true_iff]
    simp [heq]

/-- A group that scores higher is scheduled before. -/
theorem scoredGroups_first (t : Clocks ℚ) (store : CacheStateStore)
    {stats : List (GroupStat ℚ)} {x y : GroupStat ℚ} (hx : x ∈ stats) (hy : y ∈ stats)
    (hlt : score PyFloat.exact t store y < score PyFloat.exact t store x) :
    [x, y].Sublist (scoredGroups PyFloat.exact t store stats) := by
  have hle : ∀ a b : ScoredStat ℚ, (! scoredLt PyFloat.exact b a) = true ↔
      (toLex (-a.score, a.dfsRank) : ℚ ×ₗ ℤ) ≤ toLex (-b.score, b.dfsRank) := by
    intro a b
    rw [Bool.not_eq_true', ← Bool.not_eq_true, scoredLt_iff, not_lt]
  have : Std.Total fun a b : ScoredStat ℚ => (! scoredLt PyFloat.exact b a) = true :=
    ⟨fun a b => (le_total _ _).imp (hle a b).mpr (hle b a).mpr⟩
  have : IsTrans (ScoredStat ℚ) fun a b => (! scoredLt PyFloat.exact b a) = true :=
    ⟨fun a b c hab hbc => (hle a c).mpr (((hle a b).mp hab).trans ((hle b c).mp hbc))⟩
  set scored := fun g => (⟨score PyFloat.exact t store g, dfsRank g, g⟩ : ScoredStat ℚ) with hscored
  have hsorted := List.pairwise_insertionSort
    (fun a b : ScoredStat ℚ => (! scoredLt PyFloat.exact b a) = true) (stats.map scored)
  have hmem : ∀ g ∈ stats, scored g ∈ (stats.map scored).insertionSort
      fun a b : ScoredStat ℚ => (! scoredLt PyFloat.exact b a) = true := fun g hg =>
    (List.mem_insertionSort _).mpr (List.mem_map_of_mem hg)
  have hne : scored x ≠ scored y := fun heq =>
    absurd (congrArg ScoredStat.score heq) (ne_of_gt hlt)
  have hnot : ¬ (! scoredLt PyFloat.exact (scored x) (scored y)) = true := by
    rw [hle, not_le, Prod.Lex.toLex_lt_toLex]
    exact Or.inl (neg_lt_neg hlt)
  exact (pair_sublist_of_pairwise hsorted (hmem x hx) (hmem y hy) hne hnot).map ScoredStat.stat

/-- Where nothing else differs, the group at the higher risk scores higher. -/
theorem score_lt (t : Clocks ℚ) (store : CacheStateStore) {x y : GroupStat ℚ}
    (hfrac : x.cacheFrac = y.cacheFrac) (hpending : totalPending store x = totalPending store y)
    (hwait : maxWait PyFloat.exact t x.members = maxWait PyFloat.exact t y.members)
    (hsize : x.members.length = y.members.length) (hrisk : y.evictionRisk < x.evictionRisk) :
    score PyFloat.exact t store y < score PyFloat.exact t store x := by
  unfold score
  rw [hfrac, hpending, hwait, hsize]
  show _ * (10000 : ℚ) - _ + y.evictionRisk * 100 + _ + _ <
    _ * (10000 : ℚ) - _ + x.evictionRisk * 100 + _ + _
  linarith

/-! ### When the urgency is that before the cycle -/

theorem urgencyBeforeCycle_iff {t : Clocks ℚ} (ht : t.Monotone) (store : CacheStateStore)
    {s : PeekCache} (h : Sound s.treeCache) (hpast : s.treeCache.TimesPast) (queue : List Req) :
    UrgencyBeforeCycle PyFloat.exact t store s queue ↔ ClockStill t s queue := by
  constructor
  · intro hurgency pre g post n hsplit hn
    exact (evictionRisk_eq_iff ht h hpast pre hn).mp
      (hurgency.risk _ _ ⟨pre, g, post, n, hsplit, rfl, hn, rfl⟩)
  · intro hstill
    have hrisk : ∀ stat x, Untouched PyFloat.exact t s queue stat x → stat.evictionRisk = x := by
      rintro stat x ⟨pre, g, post, n, hsplit, rfl, hn, rfl⟩
      exact (evictionRisk_eq_iff ht h hpast pre hn).mpr (hstill pre g post n hsplit hn)
    have hmem : ∀ stat x, Untouched PyFloat.exact t s queue stat x →
        stat ∈ cycleStats PyFloat.exact t s queue := by
      rintro stat x ⟨pre, g, post, n, hsplit, rfl, -⟩
      unfold cycleStats
      rw [hsplit]
      exact groupStat_mem PyFloat.exact t pre g post _
    refine ⟨hrisk, fun stat stat' x x' hx hx' hfrac hpending hwait hsize hlt => ?_⟩
    refine scoredGroups_first t store (hmem stat x hx) (hmem stat' x' hx') ?_
    refine score_lt t store hfrac hpending hwait hsize ?_
    rw [hrisk stat x hx, hrisk stat' x' hx']
    exact of_decide_eq_true hlt

/-- A clock that never shows one time twice has moved on since any access. -/
theorem clockStill_iff {t : Clocks ℚ} (hstrict : StrictMono t.cache) {s : PeekCache}
    (hpast : s.treeCache.TimesPast) (queue : List Req) : ClockStill t s queue ↔
      ∀ g ∈ matchedGroups queue, ∀ n, ¬ s.treeCache.EndsAt (rep g.2).key n := by
  constructor
  · intro hstill g hg n hn
    obtain ⟨pre, post, hsplit⟩ := List.append_of_mem hg
    obtain ⟨hinside, hend⟩ := hstill pre g post n hsplit hn
    have hlt := Nat.lt_of_lt_of_le (hpast n) (ages_matchedCache s pre).clock
    by_cases hin : ∃ e, (matchedCache s pre).EndsInside (rep g.2).key e
    · exact absurd (hinside hin) (ne_of_lt (hstrict (Nat.lt_succ_of_lt hlt)))
    · exact absurd (hend hin) (ne_of_lt (hstrict hlt))
  · intro hnone pre g post n hsplit hn
    exact absurd hn (hnone g (hsplit ▸ List.mem_append_right pre List.mem_cons_self) n)

end PeekEngine

/-! ### Every run -/

namespace OfflineScheduler

variable {s s' : OfflineScheduler}

theorem ages_run (o : Scoring) (cfg : EngineConfig) (s : PeekCache) (queue : List Req) :
    Ages s.treeCache (PeekEngine.run o cfg s queue).2.1.treeCache := by
  unfold PeekEngine.run
  by_cases htags : PeekEngine.hasPeekTags queue = true
  · simp only [if_pos htags]
    unfold PeekEngine.runTagged
    by_cases hparse : ¬ PeekEngine.TagsParse queue
    · simp only [if_pos hparse]
      exact s.ages_resetProtection
    · simp only [if_neg hparse]
      refine Ages.trans ?_ (PeekCache.ages_protect _ _)
      exact PeekEngine.ages_matchedCache s (PeekEngine.tagGroups queue)
  · simp only [if_neg htags]
    unfold PeekEngine.runFull
    simp only
    refine Ages.trans ?_ (PeekCache.ages_protect _ _)
    have hbut := PeekEngine.prefixMatchTurn_matchesBut cfg.checkThreshold cfg.deprioritizeThreshold
    refine s.ages_resetProtection.trans (forEach_rel
      (R := fun m m' : SchedulePolicy.PrefixMatches => Ages m.treeCache m'.treeCache)
      (fun m => Ages.refl m.treeCache) Ages.trans (fun m r => ?_) queue
      ⟨s.resetProtection.treeCache, createSimulated, ∅⟩)
    by_cases hskip : r.peekMatched = true
    · rw [(hbut.skipped m r hskip).1]
      exact Ages.refl m.treeCache
    · rw [(hbut.matched m r hskip).1]
      exact ages_matchPrefixWith true m.treeCache r.key

theorem ages_preSchedule (o : Scoring) (queueAware : Bool) (s : PeekCache) (queue : List Req) :
    Ages s.treeCache (Peek.preSchedule o queueAware s queue).2.1.treeCache := by
  have hmatch : ∀ (c : RadixCache) (groups : List (List Token × List Req)),
      Ages c (forEach (matchGroup false) c groups).1 := fun c groups =>
    forEach_rel Ages.refl Ages.trans (fun c g => ages_matchPrefixWith false c (rep g.2).key) groups c
  unfold Peek.preSchedule
  by_cases hshare : detectSharing queue = false
  · rw [if_pos hshare]
    exact Ages.refl s.treeCache
  · rw [if_neg hshare]
    cases queueAware with
    | true =>
        refine Ages.trans ?_ (PeekCache.ages_protect _ _)
        exact s.ages_resetProtection.trans (hmatch _ _)
    | false => exact hmatch s.treeCache _

/-- **In every run the access times are in the past.** -/
theorem run_timesPast {pageSize : Nat} {disable : Bool}
    (hrun : Relation.ReflTransGen Step (new pageSize disable) s) :
    s.cache.treeCache.TimesPast := by
  induction hrun with
  | refl => exact timesPast_new pageSize disable
  | tail _ hstep ih =>
      cases hstep with
      | cache hc => exact hc.ages.past ih
      | queue => exact ih
      | cycle o cfg => exact (ages_run o cfg _ _).past ih
      | preSchedule o queueAware => exact (ages_preSchedule o queueAware _ _).past ih

/-- Two tagged requests, the first of rank zero. -/
def twoTagged : List Req :=
  [⟨"peek:0:8:b", [3, 4], [], none, [], none, false⟩,
    ⟨"peek:1:7:a", [1, 2], [], none, [], none, false⟩]

/-- Both prompts are cached, that of the second request first. -/
def bothCached : OfflineScheduler :=
  { cache :=
      { treeCache := ((createSimulated.insert (HeldCache.plainPrompt [1, 2])).2.insert
          (HeldCache.plainPrompt [3, 4])).2
        prevProtected := none }
    waitingQueue := twoTagged }

theorem refers_twoTagged (c : RadixCache) : ∀ r ∈ twoTagged, r.Refers c := by
  intro r hr n hn
  rcases List.mem_cons.mp hr with rfl | hr
  · simp at hn
  · rw [List.mem_singleton.mp hr] at hn
    simp at hn

theorem bothCached_run : Relation.ReflTransGen Step (new 1 false) bothCached := by
  have h1 : Step (new 1 false)
      ⟨⟨(createSimulated.insert (HeldCache.plainPrompt [1, 2])).2, none⟩, []⟩ :=
    Step.cache (RadixCache.Step.insert _ _)
  have h2 : Step ⟨⟨(createSimulated.insert (HeldCache.plainPrompt [1, 2])).2, none⟩, []⟩
      ⟨bothCached.cache, []⟩ := Step.cache (RadixCache.Step.insert _ _)
  have h3 : Step ⟨bothCached.cache, []⟩ bothCached := Step.queue twoTagged (refers_twoTagged _)
  exact ((Relation.ReflTransGen.single h1).tail h2).tail h3

/-- One second from reading to reading, and the engine's halfway between. -/
def seconds : Clocks ℚ :=
  { cache := fun n => n, engine := fun n => n - 1 / 2, now := 0, entryTime := fun _ => 0 }

theorem seconds_monotone : seconds.Monotone where
  cache_le n := by
    show (n : ℚ) ≤ ((n + 1 : Nat) : ℚ) - 1 / 2
    push_cast
    linarith
  engine_le n := by
    show (n : ℚ) - 1 / 2 ≤ n
    linarith

theorem seconds_strict : StrictMono seconds.cache := fun _ _ h => Nat.cast_lt.mpr h

/-- A prompt cached below the root ends at its node. -/
theorem endsAt_top {c : RadixCache} {key : RadixKey} {n : NodeId} {a : ChildKey}
    (hkid : c.heap.kid rootNode a = some n) (hkey : c.matchSymbols key = c.heap.edge n)
    (hne : c.heap.edge n ≠ []) : c.EndsAt key n := by
  have hheld : c.Holds (c.matchSymbols key) :=
    ⟨n, _, _, CachedAt.kid CachedAt.root hkid, by rw [hkey]; exact List.prefix_refl _⟩
  refine ⟨c.matchSymbols key, ⟨List.prefix_refl _, fun p hp => ?_⟩, rootNode, [], a, PathTo.root,
    hkid, ?_, ?_⟩
  · exact iff_of_true (hheld.mono hp) hp
  · rw [hkey]
    exact List.length_pos_iff.mpr hne
  · rw [hkey]
    exact List.prefix_refl _

/-- The same queue at a new cache. -/
def noneCached : OfflineScheduler := { new 1 false with waitingQueue := twoTagged }

end OfflineScheduler

end Peek
