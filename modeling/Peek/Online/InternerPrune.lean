/-
When the interner holds no more than the queue.

Two hooks intern ids, and only `_sync` lets them go: those it tracks and does not find in the queue
any more.  A rid that was interned for `_patched_calc_priority` alone is tracked only if the next
sync meets it; if it left before, nothing ever takes it out.  `slowSyncs_pruned_iff` says which runs
are free of that.
-/
import Peek.Online.CalcPriority

namespace Peek

/-! ### Interning a queue -/

/-- Interning a queue interns its rids, and leaves the others as they were. -/
theorem interned_internQueue (wq : List Req) (n : Interner) (rid : ReqId) :
    (∃ i, (internQueue n wq).2.ridInterner.lookup rid = some i) ↔
      (∃ i, n.ridInterner.lookup rid = some i) ∨ ∃ r ∈ wq, r.rid = rid := by
  have hintern : ∀ (n : Interner) (ridStr : ReqId),
      (∃ i, (n.intern ridStr).2.ridInterner.lookup rid = some i) ↔
        (∃ i, n.ridInterner.lookup rid = some i) ∨ ridStr = rid := by
    intro n ridStr
    rw [Interner.lookup_intern]
    by_cases heq : rid = ridStr
    · rw [if_pos heq]
      exact iff_of_true ⟨_, rfl⟩ (Or.inr heq.symm)
    · rw [if_neg heq, or_iff_left (Ne.symm heq)]
  suffices key : ∀ (wq : List Req) (p : Map ReqId Rid × Interner),
      (∃ i, (wq.foldl (fun p r => (p.1.insert r.rid (p.2.intern r.rid).1,
        (p.2.intern r.rid).2)) p).2.ridInterner.lookup rid = some i) ↔
        (∃ i, p.2.ridInterner.lookup rid = some i) ∨ ∃ r ∈ wq, r.rid = rid from
    key wq (∅, n)
  intro wq
  induction wq with
  | nil => intro p; simp
  | cons r wq ih =>
      intro p
      rw [List.foldl_cons, ih, hintern, List.exists_mem_cons_iff, or_assoc]

/-- It tracks nothing new. -/
theorem Tracks.internQueue {s : Session} {T : ReqId → Option (List Token)} (h : Tracks s T)
    (wq : List Req) : Tracks { s with interner := (Peek.internQueue s.interner wq).2 } T := by
  suffices key : ∀ (wq : List Req) (p : Map ReqId Rid × Interner),
      Tracks { s with interner := p.2 } T →
      Tracks { s with interner := (wq.foldl (fun p r => (p.1.insert r.rid (p.2.intern r.rid).1,
        (p.2.intern r.rid).2)) p).2 } T from
    key wq (∅, s.interner) h
  intro wq
  induction wq with
  | nil => exact fun _ h => h
  | cons r wq ih => exact fun p h => ih _ (h.intern r.rid)

/-! ### Calls -/

/-- What the two hooks are called for, with the waiting queue of that moment. -/
inductive HookCall where
  | sync (wq : List Req)
  | calcPriority (wq : List Req)

namespace SglangScheduler

section

variable (f : CalcFlags) (order : Map Token NodeId → List NodeId) (seen : List Rid → List Rid)
  (q : QueueSort)

/-- The rids have changed since the last sync. -/
def TakesSlowPath (s : SglangScheduler) (wq : List Req) : Prop :=
  ¬ (wq.length = s.hook.lastRids.card ∧ SglangHook.currentStrs wq = s.hook.lastRids)

instance (s : SglangScheduler) (wq : List Req) : Decidable (s.TakesSlowPath wq) :=
  inferInstanceAs (Decidable (¬ _))

def withQueue (s : SglangScheduler) (wq : List Req) : SglangScheduler :=
  { s with waitingQueue := wq }

def call (s : SglangScheduler) : HookCall → SglangScheduler
  | .sync wq => { s.withQueue wq with hook := s.hook.sync seen wq }
  | .calcPriority wq => ((s.withQueue wq).calcPriority f order q).2

/-- The rids handed to `calc_priority` since the last sync that took the slow path. -/
def handedAfter (s : SglangScheduler) (handed : Finset ReqId) : HookCall → Finset ReqId
  | .sync wq => if s.TakesSlowPath wq then ∅ else handed
  | .calcPriority wq =>
      if (s.withQueue wq).Fallback f then handed else handed ∪ SglangHook.currentStrs wq

/-- `P` holds of every sync of a run that takes the slow path, with the state it starts from. -/
def EachSlowSync (P : SglangScheduler → Finset ReqId → List Req → Prop) :
    SglangScheduler → Finset ReqId → List HookCall → Prop
  | _, _, [] => True
  | s, handed, c :: calls =>
      (∀ wq, c = .sync wq → s.TakesSlowPath wq → P s handed wq) ∧
        EachSlowSync P (s.call f order seen q c) (s.handedAfter f handed c) calls

/-- After the sync both tables hold only rids of its queue. -/
def PrunedAfter (s : SglangScheduler) (_handed : Finset ReqId) (wq : List Req) : Prop :=
  let interner := (s.hook.sync seen wq).session.interner
  (∀ rid i, interner.ridInterner.lookup rid = some i → rid ∈ SglangHook.currentStrs wq) ∧
    ∀ i rid, interner.ridUnintern.lookup i = some rid → rid ∈ SglangHook.currentStrs wq

/-- Whoever was handed over was in the last queue that was synced, or still waits. -/
def HandedStillWaits (s : SglangScheduler) (handed : Finset ReqId) (wq : List Req) : Prop :=
  handed ⊆ s.hook.lastRids ∪ SglangHook.currentStrs wq

instance (s : SglangScheduler) (handed : Finset ReqId) (wq : List Req) :
    Decidable (s.HandedStillWaits handed wq) :=
  inferInstanceAs (Decidable (handed ⊆ s.hook.lastRids ∪ SglangHook.currentStrs wq))

end

/-! ### What the tables hold -/

/-- The hook tracks the queue of the last sync, and has interned that and what was handed over. -/
structure Holds (s : SglangScheduler) (handed : Finset ReqId) : Prop where
  tracks : ∃ T, Tracks s.hook.session T ∧ ∀ rid, T rid ≠ none ↔ rid ∈ s.hook.lastRids
  interned : ∀ rid, (∃ i, s.hook.session.interner.ridInterner.lookup rid = some i) ↔
    rid ∈ s.hook.lastRids ∨ rid ∈ handed

section

variable {f : CalcFlags} {order : Map Token NodeId → List NodeId} {seen : List Rid → List Rid}
  {q : QueueSort} {s : SglangScheduler} {handed : Finset ReqId}

theorem new_holds (pageSize : Nat) (disable : Bool) : (new pageSize disable).Holds ∅ where
  tracks := ⟨_, Tracks.new, fun rid => iff_of_false (fun h => h rfl) (Finset.notMem_empty rid)⟩
  interned rid := by
    refine iff_of_false ?_ (by simp [new, SglangHook.new])
    rintro ⟨i, hi⟩
    simp [new, SglangHook.new, Session.new, Interner.new] at hi

/-- What `calc_priority` does to the hook: it interns the queue, if it does anything. -/
theorem hook_calcPriority (s : SglangScheduler) : (s.calcPriority f order q).2.hook =
    if s.Fallback f then s.hook else
      { s.hook with session := { s.hook.session with
        interner := (internQueue s.hook.session.interner (if f.lazyMatchPrefix then s.waitingQueue
          else (forEach matchTurn s.treeCache s.waitingQueue).2)).2 } } := by
  unfold calcPriority
  by_cases hf : s.Fallback f
  · rw [if_pos hf, if_pos hf]
  · rw [if_neg hf, if_neg hf]
    by_cases hlazy : f.lazyMatchPrefix = true
    · simp only [if_pos hlazy]
      rfl
    · simp only [if_neg hlazy]
      rfl

theorem Holds.calcPriority (h : s.Holds handed) (wq : List Req) :
    (s.call f order seen q (.calcPriority wq)).Holds (s.handedAfter f handed (.calcPriority wq)) := by
  obtain ⟨T, hT, hlast⟩ := h.tracks
  have hhook := @hook_calcPriority f order q (s.withQueue wq)
  unfold call handedAfter
  by_cases hf : (s.withQueue wq).Fallback f
  · rw [if_pos hf] at hhook
    simp only [if_pos hf]
    exact ⟨hhook ▸ h.tracks, hhook ▸ h.interned⟩
  · rw [if_neg hf] at hhook
    simp only [if_neg hf]
    set wq' := if f.lazyMatchPrefix then wq else (forEach matchTurn s.treeCache wq).2 with hwq'
    have hrids : wq'.map Req.rid = wq.map Req.rid := by
      rw [hwq']
      split
      · rfl
      · exact map_forEach Req.rid (fun _ _ => rfl) wq s.treeCache
    refine ⟨⟨T, ?_, ?_⟩, fun rid => ?_⟩
    · rw [hhook]
      exact hT.internQueue wq'
    · rw [hhook]
      exact hlast
    · rw [hhook]
      refine (interned_internQueue wq' _ rid).trans ?_
      have hmem : (∃ r ∈ wq', r.rid = rid) ↔ rid ∈ SglangHook.currentStrs wq := by
        rw [SglangHook.mem_currentStrs, ← List.mem_map, ← List.mem_map, hrids]
      have hinterned := h.interned rid
      rw [hmem, Finset.mem_union, ← or_assoc]
      exact or_congr_left hinterned

theorem names_queue (wq : List Req) :
    (wq.map fun r => (r.rid, r.tokens)).map (·.1) = wq.map Req.rid := by
  rw [List.map_map]
  rfl

/-- What the slow path does to the hook. -/
theorem sync_of_slow {wq : List Req} (hslow : s.TakesSlowPath wq) : s.hook.sync seen wq =
    { session := s.hook.session.diff seen (wq.map fun r => (r.rid, r.tokens))
      lastRids := SglangHook.currentStrs wq } := by
  unfold SglangHook.sync
  rw [if_neg hslow]

variable (horder : ∀ l, (seen l).Perm l)
include horder

/-- **What a sync leaves in the table** of whom it does not find in the queue. -/
theorem Holds.lookup_sync (h : s.Holds handed) {wq : List Req} (hslow : s.TakesSlowPath wq)
    {rid : ReqId} (hrid : rid ∉ SglangHook.currentStrs wq) :
    (∃ i, (s.hook.sync seen wq).session.interner.ridInterner.lookup rid = some i) ↔
      rid ∈ handed ∧ rid ∉ s.hook.lastRids := by
  obtain ⟨T, hT, hlast⟩ := h.tracks
  obtain ⟨-, -, -, hothers⟩ := hT.diff horder (wq.map fun r => (r.rid, r.tokens))
  rw [names_queue] at hothers
  rw [SglangHook.mem_currentStrs, ← List.mem_map] at hrid
  rw [sync_of_slow hslow, hothers rid hrid]
  by_cases hrid' : T rid = none
  · have hnot : rid ∉ s.hook.lastRids := fun hmem => (hlast rid).mpr hmem hrid'
    rw [if_pos hrid', h.interned, or_iff_right hnot, and_iff_left hnot]
  · rw [if_neg hrid']
    refine iff_of_false (by simp) fun hc => hc.2 ((hlast rid).mp hrid')

/-- **A sync prunes the tables just when everyone handed over is accounted for.** -/
theorem Holds.prunedAfter_iff (h : s.Holds handed) {wq : List Req} (hslow : s.TakesSlowPath wq) :
    PrunedAfter seen s handed wq ↔ s.HandedStillWaits handed wq := by
  have hlookup : ∀ rid, rid ∉ SglangHook.currentStrs wq → _ := fun _ => h.lookup_sync horder hslow
  constructor
  · intro hpruned rid hmem
    rw [Finset.mem_union]
    by_contra hnot
    rw [not_or] at hnot
    obtain ⟨i, hi⟩ := (hlookup rid hnot.2).mpr ⟨hmem, hnot.1⟩
    exact hnot.2 (hpruned.1 rid i hi)
  · intro hwaits
    have hforward : ∀ rid i, (s.hook.sync seen wq).session.interner.ridInterner.lookup rid = some i →
        rid ∈ SglangHook.currentStrs wq := by
      intro rid i hi
      by_contra hnot
      obtain ⟨hmem, hlast⟩ := (hlookup rid hnot).mp ⟨i, hi⟩
      exact (Finset.mem_union.mp (hwaits hmem)).elim hlast hnot
    refine ⟨hforward, fun i rid hi => hforward rid i ?_⟩
    exact ((s.hook.sync seen wq).session.interner.inverse rid i).mpr hi

/-- A sync that prunes the tables starts a new count. -/
theorem Holds.sync (h : s.Holds handed) {wq : List Req}
    (hpruned : s.TakesSlowPath wq → PrunedAfter seen s handed wq) :
    (s.call f order seen q (.sync wq)).Holds (s.handedAfter f handed (.sync wq)) := by
  unfold call handedAfter
  by_cases hslow : s.TakesSlowPath wq
  · obtain ⟨T, hT, hlast⟩ := h.tracks
    have htracks := (hT.diff horder (wq.map fun r => (r.rid, r.tokens))).1
    have hsync := @sync_of_slow seen s wq hslow
    have hwaiting : ∀ rid, (if rid ∈ wq.map Req.rid then (T rid).or
        ((wq.map fun r => (r.rid, r.tokens)).lookup rid) else none) ≠ none ↔
        rid ∈ SglangHook.currentStrs wq := by
      intro rid
      rw [SglangHook.mem_currentStrs, ← List.mem_map]
      by_cases hmem : rid ∈ wq.map Req.rid
      · rw [if_pos hmem]
        refine iff_of_true ?_ hmem
        have hfound := SglangHook.queueTokens_ne_none_iff.mpr (List.mem_map.mp hmem)
        unfold SglangHook.queueTokens at hfound
        cases hT' : T rid with
        | none => exact hfound
        | some ts => simp
      · rw [if_neg hmem]
        exact iff_of_false (fun hc => hc rfl) hmem
    rw [names_queue] at htracks
    have hpruned := hpruned hslow
    unfold PrunedAfter at hpruned
    rw [hsync] at hpruned
    simp only [hsync, if_pos hslow]
    refine ⟨⟨_, htracks, hwaiting⟩, fun rid => ?_⟩
    rw [or_iff_left (Finset.notMem_empty rid)]
    refine ⟨fun ⟨i, hi⟩ => hpruned.1 rid i hi, fun hmem => ?_⟩
    exact htracks.interned rid ((hwaiting rid).mpr hmem)
  · have hsync : s.hook.sync seen wq = s.hook := by
      unfold SglangHook.sync
      rw [if_pos (not_not.mp hslow)]
    simp only [hsync, if_neg hslow]
    exact ⟨h.tracks, h.interned⟩

end

/--
**When the interner does not leak.**  In every run of syncs and `calc_priority` calls, every sync
that takes the slow path leaves only rids of its queue in the tables, if and only if at each of
them everyone handed to `calc_priority` since the one before was in the queue of that one or is in
this one.
-/
theorem slowSyncs_pruned_iff (f : CalcFlags) (order : Map Token NodeId → List NodeId)
    (seen : List Rid → List Rid) (q : QueueSort) (horder : ∀ l, (seen l).Perm l) (pageSize : Nat)
    (disable : Bool) (calls : List HookCall) :
    EachSlowSync f order seen q (PrunedAfter seen) (new pageSize disable) ∅ calls ↔
      EachSlowSync f order seen q HandedStillWaits (new pageSize disable) ∅ calls := by
  suffices key : ∀ (calls : List HookCall) (s : SglangScheduler) (handed : Finset ReqId),
      s.Holds handed → (EachSlowSync f order seen q (PrunedAfter seen) s handed calls ↔
        EachSlowSync f order seen q HandedStillWaits s handed calls) from
    key calls _ ∅ (new_holds pageSize disable)
  intro calls
  induction calls with
  | nil => exact fun _ _ _ => Iff.rfl
  | cons c calls ih =>
      intro s handed h
      have hiff : (∀ wq, c = .sync wq → s.TakesSlowPath wq → PrunedAfter seen s handed wq) ↔
          ∀ wq, c = .sync wq → s.TakesSlowPath wq → s.HandedStillWaits handed wq :=
        forall_congr' fun wq => imp_congr_right fun _ => forall_congr' fun hslow =>
          h.prunedAfter_iff horder hslow
      unfold EachSlowSync
      rw [← hiff]
      refine and_congr_right fun hpruned => ih _ _ ?_
      cases c with
      | sync wq => exact h.sync horder (hpruned wq rfl)
      | calcPriority wq => exact h.calcPriority wq

/-- A request that comes and goes between two syncs. -/
def passer : Req := ⟨"p", [1], [], none, [], none, false⟩

theorem slowSyncs_pruned_iff_stays :
    EachSlowSync lazyOne Map.values id (peekSort {}) (PrunedAfter id) (new 1 false) ∅
      [.calcPriority [passer], .sync [passer], .sync []] := by
  refine (slowSyncs_pruned_iff lazyOne Map.values id (peekSort {}) (fun _ => List.Perm.refl _) 1
    false _).mpr ⟨fun wq h => ?_, fun wq h _ => ?_, fun wq h _ => ?_, trivial⟩
  · cases h
  · cases h
    decide
  · cases h
    decide

/-- It is interned for the sort, and the sync that follows does not know of it. -/
theorem not_pruned_passer :
    ¬ EachSlowSync lazyOne Map.values id (peekSort {}) (PrunedAfter id) (new 1 false) ∅
      [.calcPriority [passer], .sync [⟨"r", [2], [], none, [], none, false⟩]] := by
  intro h
  have hpruned := h.2.1 _ rfl (by decide)
  exact absurd (hpruned.1 "p" 1 (by decide)) (by decide)

end SglangScheduler

end Peek
