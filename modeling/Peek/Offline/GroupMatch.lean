/-
What a scheduling cycle hands out.

Copying a representative's match to its group is right for a member when the member's key
has the same cached prefixes as the representative's, and a full cycle is right about the
requests it skips when they carried current matches before.  `cycle_current_iff` says that
at every point of every run this is not only enough but also needed.
-/
import Peek.Offline.Engine

namespace Peek

open RadixCache SchedulePolicy

/-! ### Matching group by group -/

/-- In every group the members' keys have the cached prefixes of the representative's. -/
def GroupsAgree {κ : Type} (c : RadixCache) (groups : List (κ × List Req)) : Prop :=
  ∀ g ∈ groups, ∀ r ∈ g.2, c.SameCached (rep g.2).key r.key

theorem RadixCache.OnlySplits.groupsAgree_iff {κ : Type} {c c' : RadixCache} (hs : OnlySplits c c')
    (h : Sound c) (groups : List (κ × List Req)) :
    GroupsAgree c' groups ↔ GroupsAgree c groups := by
  unfold GroupsAgree
  exact forall_congr' fun g => imp_congr_right fun _ => forall_congr' fun r =>
    imp_congr_right fun _ => hs.sameCached_iff h

/-- One group: what is copied is right for the members whose keys agree. -/
theorem matchGroup_current_iff {κ : Type} (updateLru : Bool) {c : RadixCache} (h : Sound c)
    (g : κ × List Req) :
    OnlySplits c (matchGroup updateLru c g).1 ∧
    (∀ r ∈ (matchGroup updateLru c g).2.2, r.Refers (matchGroup updateLru c g).1) ∧
    ((∀ r ∈ (matchGroup updateLru c g).2.2, r.Current (matchGroup updateLru c g).1) ↔
      ∀ r ∈ g.2, c.SameCached (rep g.2).key r.key) := by
  have hs := onlySplits_matchPrefixWith updateLru c (rep g.2).key
  have h1 := hs.sound h
  have hm := h.longestMatch updateLru (rep g.2).key
  unfold matchGroup
  simp only [List.forall_mem_map]
  set m := (c.matchPrefixWith updateLru (rep g.2).key).1
  set c1 := (c.matchPrefixWith updateLru (rep g.2).key).2
  -- the mark is nothing a match looks at
  have hcopy : ∀ r : Req, ({ r.setMatch m with peekMatched := true } : Req) =
      ({ r with peekMatched := true } : Req).setMatch m := fun _ => rfl
  refine ⟨hs, fun r _ => ?_, forall_congr' fun r => imp_congr_right fun _ => ?_⟩
  · rw [hcopy]
    exact Req.refers_setMatch h1 hm
  · rw [hcopy, Req.current_setMatch_iff h1 hm, hm.congr_iff h1]
    exact hs.sameCached_iff h

/-- **All groups**: the copies are current just when in every group the keys agree. -/
theorem forEach_matchGroup_iff {κ : Type} (updateLru : Bool) :
    ∀ (groups : List (κ × List Req)) (c : RadixCache), Sound c →
      OnlySplits c (forEach (matchGroup updateLru) c groups).1 ∧
      (∀ g ∈ (forEach (matchGroup updateLru) c groups).2, ∀ r ∈ g.2,
        r.Refers (forEach (matchGroup updateLru) c groups).1) ∧
      ((∀ g ∈ (forEach (matchGroup updateLru) c groups).2, ∀ r ∈ g.2,
        r.Current (forEach (matchGroup updateLru) c groups).1) ↔ GroupsAgree c groups) := by
  intro groups
  induction groups with
  | nil =>
      intro c _
      refine ⟨OnlySplits.refl c, ?_, ?_⟩
      · simp [forEach]
      · simp [forEach, GroupsAgree]
  | cons g groups ih =>
      intro c h
      rw [forEach_cons]
      obtain ⟨hs, href, hcur⟩ := matchGroup_current_iff updateLru h g
      have h1 := hs.sound h
      obtain ⟨hs', href', hcur'⟩ := ih (matchGroup updateLru c g).1 h1
      refine ⟨hs.trans hs', ?_, ?_⟩
      · rw [List.forall_mem_cons]
        exact ⟨fun r hr => (href r hr).later (hs'.later h1), href'⟩
      · unfold GroupsAgree
        rw [List.forall_mem_cons, List.forall_mem_cons, hcur', ← hcur]
        refine and_congr ?_ (hs.groupsAgree_iff h groups)
        exact forall_congr' fun r => forall_congr' fun hr =>
          Req.current_onlySplits_iff hs' h1 (href r hr)

/-- Every copy is marked. -/
theorem forEach_matchGroup_marked {κ : Type} (updateLru : Bool) :
    ∀ (groups : List (κ × List Req)) (c : RadixCache),
      ∀ g ∈ (forEach (matchGroup updateLru) c groups).2, ∀ r ∈ g.2, r.peekMatched = true := by
  intro groups
  induction groups with
  | nil => intro c g hg; simp [forEach] at hg
  | cons g groups ih =>
      intro c
      rw [forEach_cons, List.forall_mem_cons]
      refine ⟨fun r hr => ?_, ih _⟩
      obtain ⟨r', -, rfl⟩ := List.mem_map.mp hr
      rfl

/-! ### Protection -/

namespace PeekCache

theorem onlySplits_resetProtection (s : PeekCache) :
    OnlySplits s.treeCache s.resetProtection.treeCache := by
  unfold resetProtection
  cases s.prevProtected with
  | some prev => exact onlySplits_foldl onlySplits_clearQueueRefs prev s.treeCache
  | none => exact onlySplits_resetAllQueueRefs s.treeCache

theorem onlySplits_protect (s : PeekCache) (nodes : List NodeId) :
    OnlySplits s.treeCache (s.protect nodes).treeCache :=
  onlySplits_foldl onlySplits_incQueueRef nodes s.treeCache

end PeekCache

/-- What a matching phase in the middle of a cycle does is what the cycle does. -/
structure CycleRight (s s' : PeekCache) (queue' : List Req) (Right : Prop) : Prop where
  splits : OnlySplits s.treeCache s'.treeCache
  refers : ∀ r ∈ queue', r.Refers s'.treeCache
  current : (∀ r ∈ queue', r.Current s'.treeCache) ↔ Right

/-- Protection after the matching, and any order of the queue. -/
theorem CycleRight.protect {s s' : PeekCache} {queue queue' : List Req} {Right : Prop}
    (h : CycleRight s s' queue Right) (hs : Sound s.treeCache) (hperm : queue'.Perm queue)
    (nodes : List NodeId) : CycleRight s (s'.protect nodes) queue' Right := by
  have hp := s'.onlySplits_protect nodes
  have hs' := h.splits.sound hs
  refine ⟨h.splits.trans hp, fun r hr => ?_, ?_⟩
  · exact (h.refers r (hperm.mem_iff.mp hr)).later (hp.later hs')
  · rw [← h.current]
    refine forall_congr' fun r => ?_
    rw [hperm.mem_iff]
    exact forall_congr' fun hr => Req.current_onlySplits_iff hp hs' (h.refers r hr)

/-- The reset before the matching. -/
theorem CycleRight.resetProtection {s s' : PeekCache} {queue : List Req} {Right Right' : Prop}
    (h : CycleRight s.resetProtection s' queue Right) (hright : Right ↔ Right') :
    CycleRight s s' queue Right' :=
  ⟨s.onlySplits_resetProtection.trans h.splits, h.refers, h.current.trans hright⟩

/-! ### The engine -/

/-- The groups of a matching phase, in any order, as a queue. -/
theorem matchGroups_right {κ : Type} (updateLru : Bool) {s : PeekCache} (h : Sound s.treeCache)
    (groups : List (κ × List Req)) {scored : List (List Req)}
    (hscored : scored.Perm ((forEach (matchGroup updateLru) s.treeCache groups).2.map (·.2))) :
    CycleRight s { s with treeCache := (forEach (matchGroup updateLru) s.treeCache groups).1 }
      scored.flatten (GroupsAgree s.treeCache groups) := by
  obtain ⟨hs, href, hcur⟩ := forEach_matchGroup_iff updateLru groups s.treeCache h
  have hmem : ∀ r, r ∈ scored.flatten ↔
      ∃ g ∈ (forEach (matchGroup updateLru) s.treeCache groups).2, r ∈ g.2 := by
    intro r
    rw [List.mem_flatten]
    constructor
    · intro hr
      obtain ⟨members, hmem, hr⟩ := hr
      obtain ⟨g, hg, rfl⟩ := List.mem_map.mp (hscored.mem_iff.mp hmem)
      exact ⟨g, hg, hr⟩
    · intro hr
      obtain ⟨g, hg, hr⟩ := hr
      exact ⟨g.2, hscored.mem_iff.mpr (List.mem_map_of_mem hg), hr⟩
  refine ⟨hs, fun r hr => ?_, ?_⟩
  · obtain ⟨g, hg, hr⟩ := (hmem r).mp hr
    exact href g hg r hr
  · rw [← hcur]
    constructor
    · exact fun hall g hg r hr => hall r ((hmem r).mpr ⟨g, hg, hr⟩)
    · intro hall r hr
      obtain ⟨g, hg, hr⟩ := (hmem r).mp hr
      exact hall g hg r hr

namespace PeekEngine

variable {o : Scoring} {cfg : EngineConfig} {s : PeekCache} {queue : List Req}

/-- A tagged cycle is right when the keys of every tag's group agree. -/
theorem runTagged_right (h : Sound s.treeCache) (hparse : TagsParse queue) :
    CycleRight s (runTagged o s queue).2.1 (runTagged o s queue).2.2
      (GroupsAgree s.treeCache (tagGroups queue)) := by
  have hreset := s.onlySplits_resetProtection
  unfold runTagged
  rw [if_neg (not_not_intro hparse)]
  refine CycleRight.resetProtection ?_ (hreset.groupsAgree_iff h _)
  refine CycleRight.protect ?_ (hreset.sound h) (List.Perm.refl _) _
  exact matchGroups_right true (hreset.sound h) _ (o.sortGroups_perm _ _)

/-- The loop of `_compute_prefix_matches` matches all requests but the marked ones. -/
theorem prefixMatchTurn_matchesBut (check depr : Int) :
    MatchesBut (fun r => r.peekMatched = true) PrefixMatches.treeCache
      (prefixMatchTurn check depr) where
  skipped s r hr := by
    unfold prefixMatchTurn
    rw [if_pos hr]
    exact ⟨rfl, rfl⟩
  matched s r hr := by
    have hcache : ∀ s r, (inBatchTurn depr s r).treeCache = s.treeCache := by
      intro s r
      unfold inBatchTurn
      simp only
      split
      · rfl
      · rfl
    unfold prefixMatchTurn
    rw [if_neg hr]
    simp only
    split
    · exact ⟨hcache _ _, trivial⟩
    · exact ⟨rfl, trivial⟩

/-- **The reordering loses no request and repeats none.** -/
theorem queueDepthReorder_perm (o : Scoring) (c : RadixCache) (queue : List Req)
    (depr : Finset ReqId) : (queueDepthReorder o c queue depr).1.Perm queue := by
  unfold queueDepthReorder
  simp only
  set groups := groupBy prefixKey queue with hgroups
  set normal := (groups.map fun g => (g.1, g.2.filter fun r => r.rid ∉ depr)).filter
    fun g => g.2 ≠ [] with hnormal
  set stats := normal.insertionSort fun g g' => investment g'.2 ≤ investment g.2
  have hstats : (stats.map (·.2)).flatten.Perm (normal.map (·.2)).flatten :=
    ((List.perm_insertionSort _ normal).map _).flatten
  -- what the filters let through
  set kept := fun g : List Token × List Req => g.2.filter fun r => r.rid ∉ depr
  set cut := fun g : List Token × List Req => g.2.filter fun r => r.rid ∈ depr
  have hflat : (normal.map (·.2)).flatten = groups.flatMap kept := by
    have hmap : normal.map (·.2) =
        ((groups.map fun g => (g.1, kept g)).map (·.2)).filter fun l => l ≠ [] := by
      rw [List.filter_map]
      rfl
    rw [hmap, List.flatten_filter_ne_nil, List.map_map, List.flatMap_def]
    rfl
  have hgroup : ∀ g ∈ groups, (kept g ++ cut g).Perm g.2 := by
    intro g _
    refine List.perm_append_comm.trans ?_
    have := List.filter_append_perm (fun r : Req => decide (r.rid ∈ depr)) g.2
    simpa [kept, cut] using this
  have hall : (groups.flatMap kept ++ groups.flatMap cut).Perm (groups.flatMap (·.2)) :=
    (List.flatMap_append_perm groups kept cut).trans (List.Perm.flatMap_left groups hgroup)
  refine (((o.sortGroups_perm c _).flatten.trans hstats).append_right _).trans ?_
  rw [hflat]
  refine hall.trans ?_
  rw [List.flatMap_def]
  exact flatten_groupBy_perm prefixKey queue

/-- A full cycle is right when the marked requests carried current matches before. -/
theorem runFull_right (h : Sound s.treeCache) (hr : ∀ r ∈ queue, r.Refers s.treeCache) :
    CycleRight s (runFull o cfg s queue).1 (runFull o cfg s queue).2
      (∀ r ∈ queue, r.peekMatched = true → r.Current s.treeCache) := by
  have hreset := s.onlySplits_resetProtection
  have h1 := hreset.sound h
  have hr1 : ∀ r ∈ queue, r.Refers s.resetProtection.treeCache := fun r hq =>
    (hr r hq).later (hreset.later h)
  obtain ⟨hs, href, hcur⟩ := forEach_current_iff
    (prefixMatchTurn_matchesBut cfg.checkThreshold cfg.deprioritizeThreshold) queue
    ⟨s.resetProtection.treeCache, createSimulated, ∅⟩ h1 hr1
  unfold runFull
  refine @CycleRight.resetProtection _ _ _ (∀ r ∈ queue, r.peekMatched = true →
    r.Current s.resetProtection.treeCache) _ ?_ ?_
  · refine CycleRight.protect ⟨hs, href, hcur⟩ h1 ?_ _
    show (if _ then _ else _ : List Req × List NodeId).1.Perm _
    split
    · exact queueDepthReorder_perm _ _ _ _
    · exact List.perm_insertionSort _ _
  · exact forall_congr' fun r => forall_congr' fun hq => imp_congr_right fun _ =>
      Req.current_onlySplits_iff hreset h (hr r hq)

end PeekEngine

/-- `sglang_pre_schedule` is right when the keys of every prefix group agree. -/
theorem preSchedule_right {o : Scoring} {queueAware : Bool} {s : PeekCache} {queue : List Req}
    (h : Sound s.treeCache) (hshare : detectSharing queue = true) :
    CycleRight s (preSchedule o queueAware s queue).2.1 (preSchedule o queueAware s queue).2.2
      (GroupsAgree s.treeCache (groupBy prefixKey queue)) := by
  have hreset := s.onlySplits_resetProtection
  unfold preSchedule
  rw [if_neg (by rw [hshare]; simp)]
  cases queueAware with
  | true =>
      refine CycleRight.resetProtection ?_ (hreset.groupsAgree_iff h _)
      refine CycleRight.protect ?_ (hreset.sound h) (List.Perm.refl _) _
      exact matchGroups_right false (hreset.sound h) _ (o.sortGroups_perm _ _)
  | false => exact matchGroups_right false h _ (o.sortGroups_perm _ _)

/-- **`sglang_pre_schedule` marks every request**, or else it leaves the queue alone. -/
theorem preSchedule_marked (o : Scoring) (queueAware : Bool) (s : PeekCache) (queue : List Req) :
    (∀ r ∈ (preSchedule o queueAware s queue).2.2, r.peekMatched = true) ∨
      preSchedule o queueAware s queue = (false, s, queue) := by
  unfold preSchedule
  by_cases hshare : detectSharing queue = false
  · rw [if_pos hshare]
    exact Or.inr rfl
  · rw [if_neg hshare]
    left
    have hmarked : ∀ c, ∀ r ∈ (o.sortGroups (forEach (matchGroup false) c
        (groupBy prefixKey queue)).1 ((forEach (matchGroup false) c
        (groupBy prefixKey queue)).2.map (·.2))).flatten, r.peekMatched = true := by
      intro c r hr
      obtain ⟨members, hmem, hr⟩ := List.mem_flatten.mp hr
      obtain ⟨g, hg, rfl⟩ := List.mem_map.mp ((o.sortGroups_perm _ _).mem_iff.mp hmem)
      exact forEach_matchGroup_marked false _ _ g hg r hr
    cases queueAware with
    | true => exact hmarked _
    | false => exact hmarked _

/-! ### Every run -/

structure OfflineScheduler where
  cache : PeekCache
  waitingQueue : List Req

namespace OfflineScheduler

def new (pageSize : Nat) (disable : Bool) : OfflineScheduler :=
  { cache := { treeCache := RadixCache.new pageSize disable, prevProtected := none }
    waitingQueue := [] }

def cycle (o : Scoring) (cfg : EngineConfig) (s : OfflineScheduler) :
    Option Bool × OfflineScheduler :=
  let (returned, cache, waitingQueue) := PeekEngine.run o cfg s.cache s.waitingQueue
  (returned, { cache := cache, waitingQueue := waitingQueue })

def preSchedule (o : Scoring) (queueAware : Bool) (s : OfflineScheduler) :
    Bool × OfflineScheduler :=
  let (returned, cache, waitingQueue) := Peek.preSchedule o queueAware s.cache s.waitingQueue
  (returned, { cache := cache, waitingQueue := waitingQueue })

/--
What happens to the scheduler: calls on the cache, changes of the queue, and cycles.  A
request in the queue refers to no object but those the cache has made.
-/
inductive Step : OfflineScheduler → OfflineScheduler → Prop
  | cache {s : OfflineScheduler} {treeCache : RadixCache}
      (h : RadixCache.Step s.cache.treeCache treeCache) :
      Step s { s with cache := { s.cache with treeCache := treeCache } }
  | queue {s : OfflineScheduler} (waitingQueue : List Req)
      (h : ∀ r ∈ waitingQueue, r.Refers s.cache.treeCache) :
      Step s { s with waitingQueue := waitingQueue }
  | cycle (s : OfflineScheduler) (o : Scoring) (cfg : EngineConfig) : Step s (s.cycle o cfg).2
  | preSchedule (s : OfflineScheduler) (o : Scoring) (queueAware : Bool) :
      Step s (s.preSchedule o queueAware).2

/-- A cycle will hand out current matches: in a tagged queue the keys of every tag's group
agree, in another one the marked requests carry current matches already. -/
def CycleOk (s : OfflineScheduler) : Prop :=
  if PeekEngine.hasPeekTags s.waitingQueue then
    PeekEngine.TagsParse s.waitingQueue →
      GroupsAgree s.cache.treeCache (PeekEngine.tagGroups s.waitingQueue)
  else ∀ r ∈ s.waitingQueue, r.peekMatched = true → r.Current s.cache.treeCache

/-- The cache is sound, and the queue refers to its objects. -/
structure Inv (s : OfflineScheduler) : Prop where
  sound : s.cache.treeCache.Sound
  refers : ∀ r ∈ s.waitingQueue, r.Refers s.cache.treeCache

variable {s s' : OfflineScheduler} {o : Scoring} {cfg : EngineConfig}

theorem Inv.of_right {cache : PeekCache} {queue : List Req} {Right : Prop} (h : Inv s)
    (hright : CycleRight s.cache cache queue Right) : Inv ⟨cache, queue⟩ :=
  ⟨hright.splits.sound h.sound, hright.refers⟩

/-- A cycle that returns hands out current matches just when it is in order to begin with. -/
theorem Inv.cycle (h : Inv s) : Inv (s.cycle o cfg).2 ∧
    (((s.cycle o cfg).1 = some true → ∀ r ∈ (s.cycle o cfg).2.waitingQueue,
      r.Current (s.cycle o cfg).2.cache.treeCache) ↔ s.CycleOk) := by
  unfold OfflineScheduler.cycle PeekEngine.run CycleOk
  by_cases htags : PeekEngine.hasPeekTags s.waitingQueue = true
  · simp only [if_pos htags]
    by_cases hparse : PeekEngine.TagsParse s.waitingQueue
    · have hright := PeekEngine.runTagged_right (o := o) h.sound hparse
      refine ⟨h.of_right hright, ?_⟩
      have hret : (PeekEngine.runTagged o s.cache s.waitingQueue).1 = some true := by
        unfold PeekEngine.runTagged
        rw [if_neg (not_not_intro hparse)]
      rw [hret, imp_iff_right rfl, imp_iff_right hparse]
      exact hright.current
    · -- a tag does not parse: nothing is returned, and only the protection is taken back
      have hraise : PeekEngine.runTagged o s.cache s.waitingQueue =
          (none, s.cache.resetProtection, s.waitingQueue) := by
        unfold PeekEngine.runTagged
        rw [if_pos hparse]
      have hreset := s.cache.onlySplits_resetProtection
      rw [hraise]
      refine ⟨⟨hreset.sound h.sound, fun r hr => (h.refers r hr).later (hreset.later h.sound)⟩, ?_⟩
      exact iff_of_true (fun hc => by simp at hc) fun hc => absurd hc hparse
  · simp only [if_neg htags]
    have hright := @PeekEngine.runFull_right o cfg _ _ h.sound h.refers
    refine ⟨h.of_right hright, ?_⟩
    rw [imp_iff_right trivial]
    exact hright.current

theorem Inv.preSchedule (h : Inv s) (queueAware : Bool) : Inv (s.preSchedule o queueAware).2 := by
  unfold OfflineScheduler.preSchedule
  by_cases hshare : detectSharing s.waitingQueue = true
  · exact h.of_right (preSchedule_right h.sound hshare)
  · have hskip : Peek.preSchedule o queueAware s.cache s.waitingQueue =
        (false, s.cache, s.waitingQueue) := by
      unfold Peek.preSchedule
      rw [if_pos (by simpa using hshare)]
    rw [hskip]
    exact h

theorem Inv.step (h : Inv s) (hs : Step s s') : Inv s' := by
  cases hs with
  | cache hc =>
      obtain ⟨hsound, hlater⟩ := h.sound.step hc
      exact ⟨hsound, fun r hr => (h.refers r hr).later hlater⟩
  | queue waitingQueue hq => exact ⟨h.sound, hq⟩
  | cycle o cfg => exact h.cycle.1
  | preSchedule o queueAware => exact h.preSchedule queueAware

theorem run_inv {pageSize : Nat} (hps : 0 < pageSize) {disable : Bool}
    (hrun : Relation.ReflTransGen Step (new pageSize disable) s) : Inv s := by
  induction hrun with
  | refl => exact ⟨⟨_, _, _, new_wf hps disable⟩, fun r hr => by simp [new] at hr⟩
  | tail _ hstep ih => exact ih.step hstep

/-- The groups as they come, all of them small enough. -/
def asGiven : Scoring where
  sortGroups _ groups := groups
  sortGroups_perm _ groups := List.Perm.refl groups
  capacity _ groups := groups.length

/-- A prompt is cached under no namespace, and two requests for it are queued in one group. -/
def twoQueued (extraKey : Option ExtraKey) : OfflineScheduler :=
  { cache := { treeCache := plainCache, prevProtected := none }
    waitingQueue := [⟨"peek:0:7:a", [1, 2, 3], [], none, [], none, false⟩,
      ⟨"peek:0:7:b", [1, 2, 3], [], extraKey, [], none, false⟩] }

theorem twoQueued_run (extraKey : Option ExtraKey) :
    Relation.ReflTransGen Step (new 1 false) (twoQueued extraKey) := by
  have h1 : Step (new 1 false) { new 1 false with cache := (twoQueued extraKey).cache } :=
    Step.cache (RadixCache.Step.insert _ _)
  have h2 : Step { new 1 false with cache := (twoQueued extraKey).cache } (twoQueued extraKey) := by
    refine Step.queue _ fun r hr n hn => ?_
    rcases List.mem_cons.mp hr with rfl | hr
    · simp at hn
    · rw [List.mem_singleton.mp hr] at hn
      simp at hn
  exact (Relation.ReflTransGen.single h1).tail h2

end OfflineScheduler

end Peek
