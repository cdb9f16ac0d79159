/-
Which queue counts are stale (`_reset_queue_refs` in `python/peek/offline/engine_vllm.py`).

A block is to be counted for the requests that wait.  A cycle that goes on takes old counts back
before it counts, but an engine finds the blocks it has counted by their hashes; a block that has
lost its hash keeps its count.  A cycle that does not go on takes nothing back.  Where neither
happens, no count is stale (`Orderly.noStale`).
-/
import Peek.Offline.VllmEngine

namespace Peek

variable {F : Type} {f : PyFloat F} {numBlocks : Nat}

/-! ### What is counted and recorded -/

/-- A pool, and what is recorded of its counts. -/
abbrev CountRecord (numBlocks : Nat) := QueuePool numBlocks × List (BlockHash × List Nat)

namespace CountRecord

/-- `s'` is `s` after some lookups, all of them `P`, were counted and recorded. -/
def Records (P : BlockHash × List Nat → Prop) (s s' : CountRecord numBlocks) : Prop :=
  ∃ lookups, s' = (s.1.countAll lookups, s.2 ++ lookups) ∧ ∀ e ∈ lookups, P e

variable {P : BlockHash × List Nat → Prop}

theorem Records.refl (s : CountRecord numBlocks) : Records P s s :=
  ⟨[], by rw [List.append_nil]; rfl, fun e he => absurd he List.not_mem_nil⟩

theorem Records.trans {s s' s'' : CountRecord numBlocks} (h : Records P s s')
    (h' : Records P s' s'') : Records P s s'' := by
  obtain ⟨l, rfl, hl⟩ := h
  obtain ⟨l', rfl, hl'⟩ := h'
  refine ⟨l ++ l', ?_, fun e he => ?_⟩
  · rw [← List.append_assoc]
    unfold QueuePool.countAll
    rw [List.foldl_append]
  · exact (List.mem_append.mp he).elim (hl e) (hl' e)

theorem Records.foldl {α : Type} {turn : CountRecord numBlocks → α → CountRecord numBlocks}
    {l : List α} (h : ∀ a ∈ l, ∀ s, Records P s (turn s a)) (s : CountRecord numBlocks) :
    Records P s (l.foldl turn s) := by
  induction l generalizing s with
  | nil => exact Records.refl s
  | cons a l ih =>
      rw [List.foldl_cons]
      exact (h a List.mem_cons_self s).trans (ih (fun a' ha' => h a' (List.mem_cons_of_mem a ha')) _)

end CountRecord

open CountRecord

/-- Only a member can have hashes. -/
theorem ScoredGroup.rep_mem {g : ScoredGroup F} {bh : BlockHash} (h : bh ∈ g.rep.blockHashes) :
    g.rep ∈ g.members := by
  unfold ScoredGroup.rep at h ⊢
  cases hm : g.members with
  | nil =>
      rw [hm] at h
      exact absurd h List.not_mem_nil
  | cons r members => exact List.mem_cons_self

namespace VllmPeekEngine

variable {P : BlockHash × List Nat → Prop} {e : VllmPeekEngine F} {pool : QueuePool numBlocks}

theorem records_protectTurn {groupIds : List Nat} {bh : BlockHash} (h : P (bh, groupIds))
    (s : CountRecord numBlocks) : Records P s (protectTurn groupIds s bh) := by
  unfold protectTurn
  simp only
  split
  · exact ⟨[(bh, groupIds)], rfl, fun e he => (List.mem_singleton.mp he) ▸ h⟩
  · exact Records.refl s

theorem records_protectGroup {groupIds : List Nat} {now : F} {firstSeen : Map (List BlockHash) F}
    {g : ScoredGroup F} (h : ∀ bh ∈ g.rep.blockHashes, P (bh, groupIds))
    (s : CountRecord numBlocks) : Records P s (protectGroup f groupIds now firstSeen s g) := by
  unfold protectGroup
  split
  · exact Records.refl s
  · split
    · exact Records.refl s
    · exact Records.foldl (fun bh hbh => records_protectTurn (h bh (List.mem_of_mem_take hbh))) s

/-- Protecting records what it counts. -/
theorem protectTopGroups_spec {now : F} {scored : List (ScoredGroup F)}
    (h : ∀ g ∈ scored, ∀ bh ∈ g.rep.blockHashes, P (bh, e.groupIds)) :
    ∃ lookups, (protectTopGroups f e now pool scored).1 = pool.countAll lookups ∧
      (protectTopGroups f e now pool scored).2.prevProtected = some lookups ∧
      ∀ p ∈ lookups, P p := by
  have hrecords : Records P (pool, []) ((scored.take (protectK numBlocks scored)).foldl
      (protectGroup f e.groupIds now e.groupFirstSeen) (pool, [])) :=
    Records.foldl (fun g hg => records_protectGroup (h g (List.mem_of_mem_take hg))) (pool, [])
  obtain ⟨lookups, heq, hP⟩ := hrecords
  refine ⟨lookups, ?_, ?_, hP⟩
  · exact congrArg Prod.fst heq
  · exact congrArg some ((congrArg Prod.snd heq).trans (List.nil_append _))

/-- The members of a scored group wait. -/
theorem mem_of_scored {groupIds : List Nat} {waiting : List QueuedReq} {g : ScoredGroup F}
    (hg : g ∈ (matchAndScoreGroups f pool groupIds
      (groupBy QueuedReq.hashKey (waiting.filter QueuedReq.isNew))).map ScoredGroup.sortMembers)
    {r : QueuedReq} (hr : r ∈ g.members) : r ∈ waiting := by
  unfold matchAndScoreGroups at hg
  rw [List.map_map, List.mem_map] at hg
  obtain ⟨⟨key, members⟩, hmem, rfl⟩ := hg
  have hr : r ∈ members := (List.perm_insertionSort _ _).mem_iff.mp hr
  rw [(mem_groupBy.mp hmem).1] at hr
  exact (List.mem_filter.mp (List.mem_filter.mp hr).1).1

/-! ### What a reset misses -/

/-- Clearing by hashes changes the counts only, and only of the blocks that are found. -/
theorem clearAll_eq (prev : List (BlockHash × List Nat)) :
    prev.foldl (fun pool p => pool.clearQueueRefs (pool.cachedBlocks p.1 p.2)) pool =
      { pool with
        queueRefCount := fun b =>
          if ∃ p ∈ prev, b ∈ pool.cachedBlocks p.1 p.2 then 0 else pool.queueRefCount b } := by
  induction prev generalizing pool with
  | nil => simp
  | cons p prev ih =>
      rw [List.foldl_cons, ih]
      unfold QueuePool.clearQueueRefs
      congr 1
      funext b
      show (if ∃ p' ∈ prev, b ∈ pool.cachedBlocks p'.1 p'.2 then 0
        else if b ∈ pool.cachedBlocks p.1 p.2 then 0 else pool.queueRefCount b) = _
      simp only [List.exists_mem_cons_iff]
      by_cases hrest : ∃ p' ∈ prev, b ∈ pool.cachedBlocks p'.1 p'.2
      · rw [if_pos hrest, if_pos (Or.inr hrest)]
      · rw [if_neg hrest]
        by_cases hb : b ∈ pool.cachedBlocks p.1 p.2
        · rw [if_pos hb, if_pos (Or.inl hb)]
        · rw [if_neg hb, if_neg (not_or.mpr ⟨hb, hrest⟩)]

/-- Every counted block is cached under a hash that the engine has recorded. -/
def FindsAll (e : VllmPeekEngine F) (pool : QueuePool numBlocks) : Prop :=
  ∀ prev ∈ e.prevProtected, ∀ b, 0 < pool.queueRefCount b →
    ∃ p ∈ prev, b ∈ pool.cachedBlocks p.1 p.2

instance : Decidable (e.FindsAll pool) :=
  inferInstanceAs (Decidable (∀ prev ∈ e.prevProtected, ∀ b, 0 < pool.queueRefCount b →
    ∃ p ∈ prev, b ∈ pool.cachedBlocks p.1 p.2))

/-- A reset leaves the cache as it is. -/
theorem resetQueueRefs_keeps (e : VllmPeekEngine F) (pool : QueuePool numBlocks) :
    (e.resetQueueRefs pool).getCachedBlock = pool.getCachedBlock ∧
      (e.resetQueueRefs pool).isNull = pool.isNull := by
  unfold resetQueueRefs
  split
  · rw [clearAll_eq]
    exact ⟨rfl, rfl⟩
  · exact ⟨rfl, rfl⟩

/-- **A reset takes all counts back** if and only if it finds all counted blocks. -/
theorem resetQueueRefs_zero_iff :
    (∀ b, (e.resetQueueRefs pool).queueRefCount b = 0) ↔ e.FindsAll pool := by
  unfold resetQueueRefs FindsAll
  cases e.prevProtected with
  | none => exact ⟨fun _ prev hprev => absurd hprev (by simp), fun _ _ => rfl⟩
  | some prev =>
      simp only [clearAll_eq, Option.mem_some_iff, forall_eq']
      apply forall_congr'
      intro b
      by_cases hfound : ∃ p ∈ prev, b ∈ pool.cachedBlocks p.1 p.2
      · rw [if_pos hfound]
        exact ⟨fun _ _ => hfound, fun _ => rfl⟩
      · rw [if_neg hfound]
        exact ⟨fun hzero hpos => absurd hpos (by omega), fun h => by
          by_contra hne
          exact hfound (h (Nat.pos_of_ne_zero hne))⟩

/-- A cycle that goes on takes back what it finds, then counts hashes of waiting requests and
records them. -/
theorem run_spec (e : VllmPeekEngine F) (pool : QueuePool numBlocks) (now now' : F)
    {waiting : List QueuedReq} (h : worthwhile waiting = true) :
    ∃ lookups, (e.run f pool now now' waiting).1 = (e.resetQueueRefs pool).countAll lookups ∧
      (e.run f pool now now' waiting).2.1.prevProtected = some lookups ∧
      ∀ p ∈ lookups, ∃ r ∈ waiting, p.1 ∈ r.blockHashes := by
  unfold run
  rw [if_neg (by rw [h]; exact Bool.noConfusion)]
  apply protectTopGroups_spec (P := fun p => ∃ r ∈ waiting, p.1 ∈ r.blockHashes)
  intro g hg bh hbh
  exact ⟨g.rep, mem_of_scored hg (ScoredGroup.rep_mem hbh), hbh⟩

end VllmPeekEngine

/-! ### A cycle -/

namespace VllmState

variable {s : VllmState numBlocks F} {gates : VllmGates} {now now' : F} {waiting : List QueuedReq}

/-- Does the cycle get to the counts? -/
def goesOn (gates : VllmGates) (waiting : List QueuedReq) : Bool :=
  gates.queueAware && gates.enableCaching && worthwhile waiting

/-- The lookups that a cycle counts. -/
def counted (f : PyFloat F) (s : VllmState numBlocks F) (gates : VllmGates) (now now' : F)
    (waiting : List QueuedReq) : List (BlockHash × List Nat) :=
  if goesOn gates waiting = false then []
  else if gates.serverReorder then
    let engine := s.engine.getD (VllmPeekEngine.new gates.groupIds)
    (engine.run f s.pool now now' waiting).2.1.prevProtected.getD []
  else (waiting.filter QueuedReq.isNew).flatMap fun r =>
    s.pool.countedHashes gates.groupIds r.blockHashes

/-- A block that has a count after the cycle was cached, in that cycle, under a hash of a
waiting request, and was counted for it. -/
def NoStale (f : PyFloat F) (s : VllmState numBlocks F) (gates : VllmGates) (now now' : F)
    (waiting : List QueuedReq) : Prop :=
  ∀ b, 0 < (s.vllmOnSchedule f gates now now' waiting).1.pool.queueRefCount b →
    ∃ r ∈ waiting, ∃ p ∈ s.counted f gates now now' waiting,
      p.1 ∈ r.blockHashes ∧ b ∈ s.pool.cachedBlocks p.1 p.2

def FindsAll (s : VllmState numBlocks F) : Prop := ∀ e ∈ s.engine, e.FindsAll s.pool

/-- A cycle that does not go on has nothing to take back, and one that takes counts back by
hashes finds every counted block. -/
def Orderly (s : VllmState numBlocks F) (gates : VllmGates) (waiting : List QueuedReq) : Prop :=
  (∀ b, 0 < s.pool.queueRefCount b → goesOn gates waiting = true) ∧
    (goesOn gates waiting = true → gates.serverReorder = true → s.FindsAll)

instance : Decidable (NoStale f s gates now now' waiting) :=
  inferInstanceAs (Decidable (∀ _, _ → ∃ r ∈ waiting, ∃ p ∈ s.counted f gates now now' waiting, _))

instance : Decidable s.FindsAll :=
  inferInstanceAs (Decidable (∀ e ∈ s.engine, e.FindsAll s.pool))

instance : Decidable (Orderly s gates waiting) :=
  inferInstanceAs (Decidable ((∀ _, _ → _) ∧ (_ → _ → s.FindsAll)))

/-- A cycle that does not go on leaves the pool alone. -/
theorem vllmOnSchedule_of_not_goesOn (h : goesOn gates waiting = false) :
    (s.vllmOnSchedule f gates now now' waiting).1.pool = s.pool := by
  unfold goesOn at h
  unfold vllmOnSchedule
  by_cases hq : gates.queueAware = true
  · by_cases hc : gates.enableCaching = true
    · rw [hq, hc, Bool.true_and, Bool.true_and] at h
      rw [hq, hc, if_neg (by decide), if_neg (by decide)]
      split
      · rfl
      · split
        · rw [if_neg (by rw [h]; exact Bool.noConfusion)]
        · simp only [VllmPeekEngine.run, h, if_true]
    · rw [hq, Bool.eq_false_iff.mpr hc]
      rfl
  · rw [Bool.eq_false_iff.mpr hq]
    rfl

/-- Without server-side reordering, a cycle that goes on counts afresh. -/
theorem vllmOnSchedule_of_count (h : goesOn gates waiting = true)
    (hserver : gates.serverReorder = false) :
    (s.vllmOnSchedule f gates now now' waiting).1.pool =
      s.pool.resetQueueRefCounts.countAll (s.counted f gates now now' waiting) := by
  have hcounted : s.counted f gates now now' waiting =
      (waiting.filter QueuedReq.isNew).flatMap fun r =>
        s.pool.countedHashes gates.groupIds r.blockHashes := by
    unfold counted
    rw [h, hserver]
    rfl
  unfold goesOn at h
  rw [Bool.and_eq_true, Bool.and_eq_true] at h
  have hne : waiting ≠ [] := by
    intro hnil
    rw [hnil] at h
    exact absurd h.2 (by decide)
  rw [hcounted, ← QueuePool.updateQueueRefCounts_eq]
  unfold vllmOnSchedule
  rw [h.1.1, h.1.2, h.2, hserver, if_neg (by decide), if_neg (by decide), if_neg hne,
    if_pos (by decide), if_pos rfl]

/-- With it, the engine counts what it records. -/
theorem vllmOnSchedule_of_engine (s : VllmState numBlocks F) (now now' : F)
    (h : goesOn gates waiting = true) (hserver : gates.serverReorder = true) :
    (s.vllmOnSchedule f gates now now' waiting).1.pool =
        ((s.engine.getD (VllmPeekEngine.new gates.groupIds)).resetQueueRefs s.pool).countAll
          (s.counted f gates now now' waiting) ∧
      (∃ e, (s.vllmOnSchedule f gates now now' waiting).1.engine = some e ∧
        e.prevProtected = some (s.counted f gates now now' waiting)) ∧
      ∀ p ∈ s.counted f gates now now' waiting, ∃ r ∈ waiting, p.1 ∈ r.blockHashes := by
  have hgo := h
  unfold goesOn at h
  rw [Bool.and_eq_true, Bool.and_eq_true] at h
  obtain ⟨lookups, hpool, hrecord, hwaiting⟩ := VllmPeekEngine.run_spec (f := f)
    (s.engine.getD (VllmPeekEngine.new gates.groupIds)) s.pool now now' h.2
  have hcounted : s.counted f gates now now' waiting = lookups := by
    unfold counted
    rw [hgo, if_neg (by decide), if_pos hserver]
    simp only
    rw [hrecord]
    rfl
  have hne : waiting ≠ [] := by
    intro hnil
    rw [hnil] at h
    exact absurd h.2 (by decide)
  rw [hcounted, ← hpool, ← hrecord]
  unfold vllmOnSchedule
  rw [h.1.1, h.1.2, hserver, if_neg (by decide), if_neg (by decide), if_neg hne,
    if_neg (by decide)]
  exact ⟨rfl, ⟨_, rfl, rfl⟩, hwaiting⟩

/-- What a cycle counts are hashes of waiting requests. -/
theorem waiting_of_counted {p : BlockHash × List Nat}
    (hp : p ∈ s.counted f gates now now' waiting) : ∃ r ∈ waiting, p.1 ∈ r.blockHashes := by
  by_cases hgo : goesOn gates waiting = true
  · by_cases hserver : gates.serverReorder = true
    · exact (vllmOnSchedule_of_engine s now now' hgo hserver).2.2 p hp
    · unfold counted at hp
      rw [hgo, if_neg (by decide), if_neg hserver, List.mem_flatMap] at hp
      obtain ⟨r, hr, hp⟩ := hp
      unfold QueuePool.countedHashes at hp
      obtain ⟨bh, hbh, rfl⟩ := List.mem_map.mp hp
      exact ⟨r, (List.mem_filter.mp hr).1, (List.takeWhile_subset _) hbh⟩
  · unfold counted at hp
    rw [if_pos (Bool.eq_false_iff.mpr hgo)] at hp
    exact absurd hp List.not_mem_nil

/-- After the cycle every count is what the cycle itself has counted. -/
def Fresh (f : PyFloat F) (s : VllmState numBlocks F) (gates : VllmGates) (now now' : F)
    (waiting : List QueuedReq) : Prop :=
  ∀ b, (s.vllmOnSchedule f gates now now' waiting).1.pool.queueRefCount b =
    (s.pool.resetQueueRefCounts.countAll (s.counted f gates now now' waiting)).queueRefCount b

/-- The engine that a cycle runs finds all counted blocks; a new one has no record. -/
theorem findsAll_iff (groupIds : List Nat) :
    s.FindsAll ↔ (s.engine.getD (VllmPeekEngine.new groupIds)).FindsAll s.pool := by
  unfold FindsAll
  cases s.engine with
  | none =>
      refine ⟨fun _ prev hprev => ?_, fun _ e he => ?_⟩
      · exact absurd hprev (by simp [VllmPeekEngine.new])
      · exact absurd he (by simp)
  | some e => simp

/-- **The counts are fresh after orderly cycles, and after no others.** -/
theorem fresh_iff_orderly : Fresh f s gates now now' waiting ↔ Orderly s gates waiting := by
  by_cases hgo : goesOn gates waiting = true
  · have horderly : Orderly s gates waiting ↔ (gates.serverReorder = true → s.FindsAll) :=
      ⟨fun h => h.2 hgo, fun h => ⟨fun _ _ => hgo, fun _ => h⟩⟩
    rw [horderly]
    unfold Fresh
    by_cases hserver : gates.serverReorder = true
    · -- what is left of the old counts is what the reset has missed
      rw [(vllmOnSchedule_of_engine s now now' hgo hserver).1, forall_prop_of_true hserver,
        findsAll_iff gates.groupIds, ← VllmPeekEngine.resetQueueRefs_zero_iff]
      obtain ⟨hcached, hnull⟩ := VllmPeekEngine.resetQueueRefs_keeps
        (s.engine.getD (VllmPeekEngine.new gates.groupIds)) s.pool
      exact forall_congr' fun b => QueuePool.queueRefCount_countAll_eq_iff
        s.pool.resetQueueRefCounts hcached hnull _ b
    · rw [vllmOnSchedule_of_count hgo (Bool.eq_false_iff.mpr hserver)]
      exact ⟨fun _ h => absurd h hserver, fun _ _ => rfl⟩
  · have hcounted : s.counted f gates now now' waiting = [] := by
      unfold counted
      rw [if_pos (Bool.eq_false_iff.mpr hgo)]
    unfold Fresh
    rw [vllmOnSchedule_of_not_goesOn (Bool.eq_false_iff.mpr hgo), hcounted]
    refine ⟨fun h => ⟨fun b hb => ?_, fun h => absurd h hgo⟩, fun h b => ?_⟩
    · rw [h b] at hb
      exact absurd hb (Nat.lt_irrefl 0)
    · exact Nat.eq_zero_of_not_pos fun hb => hgo (h.1 b hb)

/-- A block whose count is fresh was found. -/
theorem Fresh.found (h : Fresh f s gates now now' waiting) {b : Fin numBlocks}
    (hb : 0 < (s.vllmOnSchedule f gates now now' waiting).1.pool.queueRefCount b) :
    ∃ p ∈ s.counted f gates now now' waiting, b ∈ s.pool.cachedBlocks p.1 p.2 := by
  rw [h b] at hb
  exact (QueuePool.pos_countAll _ hb).resolve_left (Nat.lt_irrefl 0)

/-- **An orderly cycle leaves no stale count.** -/
theorem Orderly.noStale (h : Orderly s gates waiting) : NoStale f s gates now now' waiting := by
  intro b hb
  obtain ⟨p, hp, hfound⟩ := (fresh_iff_orderly.mpr h).found hb
  obtain ⟨r, hr, hmem⟩ := waiting_of_counted hp
  exact ⟨r, hr, p, hp, hmem, hfound⟩

/-! ### Runs -/

/-- A cycle, or anything that changes which blocks are cached under which hashes: vLLM allocates
blocks, evicts them and caches them again, and no count changes. -/
inductive Event (numBlocks : Nat) (F : Type) where
  | schedule (gates : VllmGates) (now now' : F) (waiting : List QueuedReq)
  | recache (getCachedBlock : BlockHash → List Nat → Option (List (Fin numBlocks)))

/-- The state after an event. -/
def step (f : PyFloat F) (s : VllmState numBlocks F) : Event numBlocks F → VllmState numBlocks F
  | .schedule gates now now' waiting => (s.vllmOnSchedule f gates now now' waiting).1
  | .recache getCachedBlock => { s with pool := { s.pool with getCachedBlock := getCachedBlock } }

/-- `P` holds of every step of a run. -/
def AllSteps (f : PyFloat F) (P : VllmState numBlocks F → Event numBlocks F → Prop) :
    VllmState numBlocks F → List (Event numBlocks F) → Prop
  | _, [] => True
  | s, event :: events => P s event ∧ AllSteps f P (s.step f event) events

instance decidableAllSteps {P : VllmState numBlocks F → Event numBlocks F → Prop}
    [∀ s event, Decidable (P s event)] :
    (s : VllmState numBlocks F) → (events : List (Event numBlocks F)) →
      Decidable (AllSteps f P s events)
  | _, [] => isTrue trivial
  | s, event :: events =>
      @instDecidableAnd _ _ inferInstance (decidableAllSteps (s.step f event) events)

/-- What an invariant gives at each step, it gives along the run. -/
theorem AllSteps.imp {P Q : VllmState numBlocks F → Event numBlocks F → Prop}
    {I : VllmState numBlocks F → Prop}
    (hstep : ∀ s event, I s → P s event → Q s event ∧ I (s.step f event))
    {events : List (Event numBlocks F)} (hinv : I s) (h : AllSteps f P s events) :
    AllSteps f Q s events := by
  induction events generalizing s with
  | nil => trivial
  | cons event events ih =>
      obtain ⟨hq, hinv'⟩ := hstep s event hinv h.1
      exact ⟨hq, ih hinv' h.2⟩

namespace Event

/-- If it is a cycle, it is orderly. -/
def IsOrderly (s : VllmState numBlocks F) : Event numBlocks F → Prop
  | .schedule gates _ _ waiting => s.Orderly gates waiting
  | .recache _ => True

/-- If it is a cycle, it leaves no stale count. -/
def LeavesNoStale (f : PyFloat F) (s : VllmState numBlocks F) : Event numBlocks F → Prop
  | .schedule gates now now' waiting => s.NoStale f gates now now' waiting
  | .recache _ => True

instance (s : VllmState numBlocks F) : (event : Event numBlocks F) → Decidable (event.IsOrderly s)
  | .schedule gates _ _ waiting => inferInstanceAs (Decidable (s.Orderly gates waiting))
  | .recache _ => isTrue trivial

instance (s : VllmState numBlocks F) :
    (event : Event numBlocks F) → Decidable (event.LeavesNoStale f s)
  | .schedule gates now now' waiting =>
      inferInstanceAs (Decidable (s.NoStale f gates now now' waiting))
  | .recache _ => isTrue trivial

/-- No cycle is skipped while a block is counted, all of them run the engine, and a counted block
stays cached under a recorded hash. -/
def Keeps (s : VllmState numBlocks F) : Event numBlocks F → Prop
  | .schedule gates _ _ waiting =>
      gates.serverReorder = true ∧ ∀ b, 0 < s.pool.queueRefCount b → goesOn gates waiting = true
  | .recache getCachedBlock => ∀ e ∈ s.engine, ∀ prev ∈ e.prevProtected, ∀ b,
      0 < s.pool.queueRefCount b → (∃ p ∈ prev, b ∈ s.pool.cachedBlocks p.1 p.2) →
        ∃ p ∈ prev, b ∈ (getCachedBlock p.1 p.2).getD []

end Event

/-- No block has a count, and there is no engine yet. -/
def start (pool : QueuePool numBlocks) : VllmState numBlocks F := ⟨pool.resetQueueRefCounts, none⟩

/-- An engine finds again what it has counted in its last cycle. -/
theorem findsAll_step (hinv : s.FindsAll) {event : Event numBlocks F} (h : event.Keeps s) :
    (s.step f event).FindsAll := by
  cases event with
  | recache getCachedBlock =>
      intro e he prev hprev b hb
      exact h e he prev hprev b hb (hinv e he prev hprev b hb)
  | schedule gates now now' waiting =>
      show (s.vllmOnSchedule f gates now now' waiting).1.FindsAll
      intro e he prev hprev b hb
      by_cases hgo : goesOn gates waiting = true
      · obtain ⟨hpool, ⟨e', he', hrecord⟩, -⟩ := vllmOnSchedule_of_engine (f := f) s now now' hgo h.1
        rw [Option.mem_def, he', Option.some.injEq] at he
        rw [← he, Option.mem_def, hrecord, Option.some.injEq] at hprev
        have hfresh : Fresh f s gates now now' waiting :=
          fresh_iff_orderly.mpr ⟨fun _ _ => hgo, fun _ _ => hinv⟩
        obtain ⟨p, hp, hfound⟩ := hfresh.found hb
        refine ⟨p, hprev ▸ hp, ?_⟩
        rw [hpool, QueuePool.cachedBlocks_congr _ (QueuePool.getCachedBlock_countAll _ _),
          QueuePool.cachedBlocks_congr _ (VllmPeekEngine.resetQueueRefs_keeps _ _).1]
        exact hfound
      · rw [vllmOnSchedule_of_not_goesOn (Bool.eq_false_iff.mpr hgo)] at hb
        exact absurd (h.2 b hb) hgo

/-- **Nothing is stale while what is protected stays cached** and no cycle is skipped. -/
theorem orderly_of_keeps {pool : QueuePool numBlocks} {events : List (Event numBlocks F)}
    (h : AllSteps f (fun s event => event.Keeps s) (start pool) events) :
    AllSteps f (fun s event => event.IsOrderly s) (start pool) events := by
  refine AllSteps.imp (I := FindsAll) (fun s event hinv hkeeps => ⟨?_, ?_⟩) ?_ h
  · cases event with
    | recache getCachedBlock => trivial
    | schedule gates now now' waiting => exact ⟨hkeeps.2, fun _ _ => hinv⟩
  · exact findsAll_step hinv hkeeps
  · intro e he
    exact absurd he (by simp [start])

/-- **No stale protection.**  In every run whose cycles are orderly, each cycle leaves counts only
on blocks that it has itself counted, found under a hash of a request that waits. -/
theorem noStale_run {pool : QueuePool numBlocks} {events : List (Event numBlocks F)}
    (h : AllSteps f (fun s event => event.IsOrderly s) (start pool) events) :
    AllSteps f (fun s event => event.LeavesNoStale f s) (start pool) events := by
  refine AllSteps.imp (I := fun _ => True) (fun s event _ horderly => ⟨?_, trivial⟩) trivial h
  cases event with
  | recache getCachedBlock => trivial
  | schedule gates now now' waiting => exact Orderly.noStale horderly

/-! ### Runs that go wrong, and one that does not -/

/-- Requests that wait, one for each list of hashes. -/
def waitingFor (hashes : List (List BlockHash)) : List QueuedReq :=
  hashes.map fun blockHashes => ⟨"", 0, blockHashes⟩

def cycleOf (hashes : List (List BlockHash)) : Event 2 ℚ :=
  .schedule ⟨true, true, none, true⟩ 0 0 (waitingFor hashes)

/-- Block 1 is cached under the hash; with `both`, block 0 under 8. -/
def cachedAs (bh : BlockHash) (both : Bool) : BlockHash → List Nat → Option (List (Fin 2)) :=
  fun h _ => if h = bh then some [1] else if h = 8 ∧ both = true then some [0] else none

def samplePool : QueuePool 2 := ⟨fun _ => 0, fun _ => false, cachedAs 7 false⟩

/-- Block 1 is counted under the hash 7, evicted and cached again under 9.  The next cycle looks 7
up and finds nothing, so the block stays counted.  And a cycle with one request is skipped. -/
theorem stale_after_recache :
    ¬ AllSteps PyFloat.exact (fun s event => event.LeavesNoStale PyFloat.exact s)
        (start samplePool)
        [cycleOf [[7], [7]], .recache (cachedAs 9 false), cycleOf [[5], [5]]] ∧
      ¬ AllSteps PyFloat.exact (fun s event => event.LeavesNoStale PyFloat.exact s)
        (start samplePool) [cycleOf [[7], [7]], cycleOf [[7]]] := by
  decide +kernel

/-- Block 1 is counted, block 0 is cached, and the next cycle counts block 0 instead. -/
theorem noStale_run_recached :
    AllSteps PyFloat.exact (fun s event => event.LeavesNoStale PyFloat.exact s) (start samplePool)
      [cycleOf [[7], [7]], .recache (cachedAs 7 true), cycleOf [[8], [8]]] :=
  noStale_run (by decide +kernel)

end VllmState

end Peek
