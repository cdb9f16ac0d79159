/-
The vLLM hook over whole runs of the scheduler.

Two results.  The demand index stays right whatever is called in whatever order
(`run_indexed`).  The tables as a whole do not: `finish_requests` drops a rid from every
table but `_last_rids`, so when the rid is submitted again and the waiting rids are once
more those of the last sync, `_sync` sees no change and the request stays out of the
tables.  `run_inSync_iff` says that this is the only way it happens: the tables are in line
after every sync of a run just when no sync is skipped for a queue with a rid that was
finished since the queue was last compared.

vLLM itself adds a request to its waiting queue, takes finished ones out, and leaves
some queue behind after scheduling; any queue, as far as the results here go.
-/
import Peek.Online.VllmHook

namespace Peek

namespace VllmHook

/-! ### Any order of calls -/

inductive Call where
  | sync (waiting : List VllmReq)
  | finishRequests (requestIds : List ReqId)

def call (f : VllmFlags) (order : List Rid → List Rid) (h : VllmHook) : Call → VllmHook
  | .sync waiting => h.sync f order waiting
  | .finishRequests requestIds => h.finishRequests f requestIds

def runCalls (f : VllmFlags) (order : List Rid → List Rid) (calls : List Call) : VllmHook :=
  calls.foldl (call f order) new

section

variable {f : VllmFlags} {order : List Rid → List Rid} (horder : ∀ l, (order l).Perm l)
include horder

/-- What a sync tracks, when it has work to do: the waiting requests and no others. -/
theorem tracks_sync {h : VllmHook} {T : ReqId → Option (List Token)} (hT : Tracks h.session T)
    {wq : List VllmReq} (hfast : ¬ h.FastPath wq) :
    ∃ T', Tracks (h.sync f order wq).session T' ∧
      (∀ x, T' x ≠ none ↔ x ∈ currentStrs wq) ∧
      ∀ x ∉ currentStrs wq, (h.sync f order wq).session.interner.ridInterner.lookup x =
        if T x = none then h.session.interner.ridInterner.lookup x else none := by
  obtain ⟨h1, -, -, hothers⟩ := hT.diff horder (wq.map pair)
  have hmem : ∀ x, x ∈ (wq.map pair).map (·.1) ↔ x ∈ currentStrs wq := by
    intro x
    unfold currentStrs pair
    rw [List.mem_toFinset, List.map_map]
    rfl
  rw [session_sync f order hfast]
  refine ⟨_, h1, fun x => ?_, fun x hx => hothers x fun hc => hx ((hmem x).mp hc)⟩
  rw [← hmem]
  by_cases hx : x ∈ (wq.map pair).map (·.1)
  · rw [if_pos hx]
    refine ⟨fun _ => hx, fun _ hor => ?_⟩
    rw [Option.or_eq_none_iff, List.lookup_eq_none_iff] at hor
    obtain ⟨p, hp, rfl⟩ := List.mem_map.mp hx
    simpa using hor.2 p hp
  · rw [if_neg hx]
    exact ⟨fun hc => absurd rfl hc, fun hc => absurd hc hx⟩

theorem exists_tracks_sync {h : VllmHook} {T : ReqId → Option (List Token)}
    (hT : Tracks h.session T) (wq : List VllmReq) :
    ∃ T', Tracks (h.sync f order wq).session T' := by
  by_cases hfast : h.FastPath wq
  · refine ⟨T, ?_⟩
    unfold sync
    rw [if_pos hfast]
    exact hT
  · obtain ⟨T', hT', -⟩ := tracks_sync horder hT hfast
    exact ⟨T', hT'⟩

/-- **The demand index is right after every call**, in any order of calls. -/
theorem run_indexed (hev : f.eviction = true) (calls : List Call) :
    Indexed f (runCalls f order calls) := by
  suffices key : (∃ T, Tracks (runCalls f order calls).session T) ∧
      Indexed f (runCalls f order calls) from key.2
  refine List.foldlRecOn calls (call f order)
    (motive := fun h => (∃ T, Tracks h.session T) ∧ Indexed f h)
    ⟨⟨_, Tracks.new⟩, new_indexed f⟩ ?_
  intro h hp c _
  obtain ⟨⟨T, hT⟩, hi⟩ := hp
  cases c with
  | sync waiting => exact ⟨exists_tracks_sync horder hT waiting, hi.sync hev hT waiting⟩
  | finishRequests requestIds => exact hi.finishRequests hev hT requestIds

end

/-- A hash that stands twice in a prompt, and a prompt that is finished and comes back. -/
theorem run_indexed_repeated :
    let f : VllmFlags := ⟨true, true, true, true, true, 128⟩
    let a : VllmReq := ⟨"a", [1, 2, 1], [], [10, 20, 10]⟩
    Indexed f (runCalls f id
      [.sync [a, ⟨"b", [1], [], [10]⟩], .finishRequests ["a", "x"], .sync [a]]) :=
  run_indexed (fun _ => List.Perm.refl _) rfl _

end VllmHook

/-! ### The scheduler -/

/-- vLLM's waiting queue: where a new request goes in it is the queue's own business. -/
structure RequestQueue where
  add : List VllmReq → VllmReq → List VllmReq
  add_perm : ∀ wq req, (add wq req).Perm (req :: wq)

/-- First come, first served. -/
def RequestQueue.fcfs : RequestQueue where
  add wq req := wq ++ [req]
  add_perm wq req := List.perm_append_singleton req wq

structure VllmScheduler where
  waiting : List VllmReq
  hook : VllmHook
  /-- The rids finished since the last sync that compared the queue.  No code reads it. -/
  finished : Finset ReqId

inductive VllmEvent where
  | addRequest (request : VllmReq)
  /-- A scheduling step, and the waiting queue vLLM leaves behind. -/
  | schedule (left : List VllmReq)
  | finishRequests (requestIds : List ReqId)

namespace VllmScheduler

open VllmHook

def new : VllmScheduler := { waiting := [], hook := VllmHook.new, finished := ∅ }

variable (f : VllmFlags) (order : List Rid → List Rid) (q : RequestQueue)

/-- `_sync` on a waiting queue. -/
def syncWith (s : VllmScheduler) (wq : List VllmReq) : VllmScheduler :=
  { s with
    hook := s.hook.sync f order wq
    finished := if s.hook.FastPath wq then s.finished else ∅ }

/-- The queue an event passes to `_sync`, if it calls it. -/
def passed (s : VllmScheduler) : VllmEvent → Option (List VllmReq)
  | .addRequest request => some (q.add s.waiting request)
  | .schedule _ => some s.waiting
  | .finishRequests _ => none

def step (s : VllmScheduler) : VllmEvent → VllmScheduler
  | .addRequest request =>
      let waiting := q.add s.waiting request
      { s.syncWith f order waiting with waiting := waiting }
  | .schedule left =>
      let t := s.syncWith f order s.waiting
      { t with waiting := left, hook := t.hook.reorderWaiting f s.waiting }
  | .finishRequests requestIds =>
      { waiting := s.waiting.filter fun r => r.requestId ∉ requestIds
        hook := s.hook.finishRequests f requestIds
        finished := s.finished ∪ requestIds.toFinset }

/-- `P` holds of every queue a run passes to `_sync`, in the state it finds. -/
def EachSync (P : VllmScheduler → List VllmReq → Prop) : VllmScheduler → List VllmEvent → Prop
  | _, [] => True
  | s, e :: events =>
      (∀ wq, s.passed q e = some wq → P s wq) ∧ EachSync P (s.step f order q e) events

/-- **The tables hold exactly these rids.** -/
structure InSync (h : VllmHook) (rids : Finset ReqId) : Prop where
  interned : ∀ rid, (∃ i, h.session.interner.ridInterner.lookup rid = some i) ↔ rid ∈ rids
  pending : ∀ i, (∃ tokens, h.session.peekTree.paths.lookup i = some tokens) ↔
    ∃ rid ∈ rids, h.session.interner.ridInterner.lookup rid = some i
  seen : ∀ i, i ∈ h.session.seenThisSession ↔
    ∃ rid ∈ rids, h.session.interner.ridInterner.lookup rid = some i
  hashes : f.eviction = true → ∀ i, (∃ snap, h.demand.ridToHashes.lookup i = some snap) ↔
    ∃ rid ∈ rids, h.session.interner.ridInterner.lookup rid = some i

/-- The sync leaves the tables in line with the queue it was passed. -/
def InSyncAfter (s : VllmScheduler) (wq : List VllmReq) : Prop :=
  InSync f (s.hook.sync f order wq) (currentStrs wq)

/-- A sync is not skipped for a queue with a rid finished since the last comparison. -/
def NoneFinished (s : VllmScheduler) (wq : List VllmReq) : Prop :=
  s.hook.FastPath wq → ∀ req ∈ wq, req.requestId ∉ s.finished

instance (s : VllmScheduler) (wq : List VllmReq) : Decidable (s.NoneFinished wq) :=
  inferInstanceAs (Decidable (_ → _))

/-! ### What a run preserves -/

/-- Tracked and interned are the rids of the last comparison, less the finished ones. -/
structure Inv (s : VllmScheduler) (T : ReqId → Option (List Token)) : Prop where
  tracks : Tracks s.hook.session T
  tracked : ∀ x, T x ≠ none ↔ x ∈ s.hook.lastRids ∧ x ∉ s.finished
  interned : ∀ x i, s.hook.session.interner.ridInterner.lookup x = some i → T x ≠ none
  indexed : f.eviction = true → Indexed f s.hook

variable {f order q} {s : VllmScheduler} {T : ReqId → Option (List Token)}

theorem new_inv : Inv f new fun _ => none where
  tracks := Tracks.new
  tracked x := by simp [new, VllmHook.new]
  interned x i hi := by simp [new, VllmHook.new, Session.new, Interner.new] at hi
  indexed _ := new_indexed f

/-- When what is tracked is what is given, the tables hold exactly that. -/
theorem Inv.inSync (h : Inv f s T) {rids : Finset ReqId} (hrids : ∀ x, T x ≠ none ↔ x ∈ rids) :
    InSync f s.hook rids := by
  have hseen : ∀ i, i ∈ s.hook.session.seenThisSession ↔
      ∃ rid ∈ rids, s.hook.session.interner.ridInterner.lookup rid = some i := by
    intro i
    rw [h.tracks.seen]
    refine exists_congr fun x => ?_
    rw [hrids, and_comm]
  refine ⟨fun x => ?_, fun i => ?_, hseen, fun hev i => ?_⟩
  · rw [← hrids]
    exact ⟨fun ⟨i, hi⟩ => h.interned x i hi, h.tracks.interned x⟩
  · rw [← hseen, h.tracks.seen]
    constructor
    · rintro ⟨tokens, ht⟩
      obtain ⟨x, hx, hTx⟩ := (h.tracks.paths i tokens).mp ht
      exact ⟨x, hx, by rw [hTx]; simp⟩
    · rintro ⟨x, hx, hTx⟩
      obtain ⟨tokens, ht⟩ := Option.ne_none_iff_exists'.mp hTx
      exact ⟨tokens, (h.tracks.paths i tokens).mpr ⟨x, hx, ht⟩⟩
  · rw [← hseen, ← (h.indexed hev).keys, Option.isSome_iff_exists]

section

variable (horder : ∀ l, (order l).Perm l)
include horder

/-- **A sync that is not skipped tracks exactly its queue.** -/
theorem Inv.syncWith_slow (h : Inv f s T) {wq : List VllmReq} (hfast : ¬ s.hook.FastPath wq) :
    ∃ T', Inv f (s.syncWith f order wq) T' ∧ ∀ x, T' x ≠ none ↔ x ∈ currentStrs wq := by
  obtain ⟨T', hT', hmem, hothers⟩ := tracks_sync (f := f) horder h.tracks hfast
  have hlast : (s.hook.sync f order wq).lastRids = currentStrs wq := by
    unfold VllmHook.sync
    rw [if_neg hfast]
  refine ⟨T', ⟨hT', fun x => ?_, fun x i hi => ?_, fun hev => ?_⟩, hmem⟩
  · show T' x ≠ none ↔ x ∈ (s.hook.sync f order wq).lastRids ∧ x ∉ if _ then _ else _
    rw [hmem, hlast, if_neg hfast]
    simp
  · by_contra hx
    have hi : (s.hook.sync f order wq).session.interner.ridInterner.lookup x = some i := hi
    rw [hothers x fun hc => (hmem x).mpr hc hx] at hi
    by_cases hold : T x = none
    · rw [if_pos hold] at hi
      exact h.interned x i hi hold
    · rw [if_neg hold] at hi
      simp at hi
  · exact (h.indexed hev).sync hev h.tracks wq

/-- **A sync brings the tables in line unless it is skipped for a finished rid.** -/
theorem Inv.inSyncAfter_iff (h : Inv f s T) (wq : List VllmReq) :
    InSyncAfter f order s wq ↔ NoneFinished s wq := by
  by_cases hfast : s.hook.FastPath wq
  · have hsync : s.hook.sync f order wq = s.hook := by
      unfold VllmHook.sync
      rw [if_pos hfast]
    have hmem : ∀ x, x ∈ s.hook.lastRids ↔ ∃ req ∈ wq, req.requestId = x := by
      intro x
      rw [← hfast.2]
      unfold currentStrs
      rw [List.mem_toFinset, List.mem_map]
    unfold InSyncAfter
    rw [hsync]
    constructor
    · intro hin _ req hreq hfin
      -- a finished rid of the queue is not tracked, hence not interned
      have hlast := (hmem req.requestId).mpr ⟨req, hreq, rfl⟩
      obtain ⟨i, hi⟩ := (hin.interned req.requestId).mpr (hfast.2 ▸ hlast)
      exact ((h.tracked _).mp (h.interned _ i hi)).2 hfin
    · intro hnone
      refine h.inSync fun x => ?_
      rw [h.tracked, hfast.2]
      refine ⟨And.left, fun hx => ⟨hx, ?_⟩⟩
      obtain ⟨req, hreq, rfl⟩ := (hmem x).mp hx
      exact hnone hfast req hreq
  · refine ⟨fun _ hc => absurd hc hfast, fun _ => ?_⟩
    obtain ⟨T', h', hmem⟩ := h.syncWith_slow horder hfast
    exact h'.inSync hmem

/-- A sync that meets the condition leaves every rid of its queue tracked. -/
theorem Inv.syncWith (h : Inv f s T) {wq : List VllmReq} (hnone : NoneFinished s wq) :
    ∃ T', Inv f (s.syncWith f order wq) T' ∧ ∀ req ∈ wq, T' req.requestId ≠ none := by
  have hstr : ∀ req ∈ wq, req.requestId ∈ currentStrs wq := fun req hreq => by
    unfold currentStrs
    rw [List.mem_toFinset]
    exact List.mem_map_of_mem hreq
  by_cases hfast : s.hook.FastPath wq
  · have hsame : s.syncWith f order wq = s := by
      unfold VllmScheduler.syncWith VllmHook.sync
      rw [if_pos hfast, if_pos hfast]
    rw [hsame]
    exact ⟨T, h, fun req hreq => (h.tracked _).mpr ⟨hfast.2 ▸ hstr req hreq, hnone hfast req hreq⟩⟩
  · obtain ⟨T', h', hmem⟩ := h.syncWith_slow horder hfast
    exact ⟨T', h', fun req hreq => (hmem _).mpr (hstr req hreq)⟩

omit horder in
/-- Reordering a queue whose rids are all tracked touches no table. -/
theorem reorderWaiting_eq {h : VllmHook} (hT : Tracks h.session T) {wq : List VllmReq}
    (hwq : ∀ req ∈ wq, T req.requestId ≠ none) : h.reorderWaiting f wq = h := by
  unfold VllmHook.reorderWaiting
  split
  · rfl
  · refine List.foldlRecOn wq internTurn (motive := fun h' => h' = h) rfl ?_
    intro h' heq req hreq
    obtain ⟨i, hi⟩ := hT.interned _ (hwq req hreq)
    subst heq
    unfold internTurn
    rw [Interner.intern_of_some hi]

omit horder in
/-- Finishing requests takes them out of what is tracked. -/
theorem Inv.finishRequests (h : Inv f s T) (requestIds : List ReqId) :
    ∃ T', Inv f (s.step f order q (.finishRequests requestIds)) T' := by
  suffices key : ∀ (ids : List ReqId) (h' : VllmHook) (fin : Finset ReqId)
      (T : ReqId → Option (List Token)), Inv f ⟨s.waiting, h', fin⟩ T →
      ∃ T', Inv f ⟨s.waiting, ids.foldl (finishTurn f) h', fin ∪ ids.toFinset⟩ T' by
    obtain ⟨T', h'⟩ := key requestIds s.hook s.finished T ⟨h.tracks, h.tracked, h.interned, h.indexed⟩
    exact ⟨T', h'.tracks, h'.tracked, h'.interned, h'.indexed⟩
  intro ids
  induction ids with
  | nil => intro h' fin T h; exact ⟨T, by simpa using h⟩
  | cons rid ids ih =>
      intro h' fin T h
      rw [List.foldl_cons, List.toFinset_cons, Finset.union_insert, ← Finset.insert_union]
      have hskip : T rid = none → Inv f ⟨s.waiting, h', insert rid fin⟩ T := by
        intro hrid
        refine ⟨h.tracks, fun x => ?_, h.interned, h.indexed⟩
        show T x ≠ none ↔ x ∈ h'.lastRids ∧ x ∉ insert rid fin
        rw [h.tracked x, Finset.mem_insert, not_or]
        refine and_congr_right fun hx => ⟨fun hfin => ⟨?_, hfin⟩, And.right⟩
        rintro rfl
        exact (h.tracked x).mpr ⟨hx, hfin⟩ hrid
      unfold finishTurn
      cases hl : h'.session.interner.ridInterner.lookup rid with
      | none =>
          refine ih _ _ T (hskip ?_)
          by_contra hrid
          obtain ⟨i, hi⟩ := h.tracks.interned rid hrid
          rw [hl] at hi
          simp at hi
      | some ridInt =>
          have hseen : ridInt ∈ h'.session.seenThisSession :=
            (h.tracks.seen_iff hl).mpr (h.interned rid ridInt hl)
          simp only [if_pos hseen]
          refine ih _ _ _ ⟨h.tracks.depart ridInt, fun x => ?_, fun x i hi => ?_, fun hev => ?_⟩
          · show (if h'.session.interner.ridInterner.lookup x = some ridInt then none else T x) ≠
              none ↔ x ∈ h'.lastRids ∧ x ∉ insert rid fin
            rw [Finset.mem_insert, not_or]
            by_cases hx : h'.session.interner.ridInterner.lookup x = some ridInt
            · rw [if_pos hx, h'.session.interner.injective hx hl]
              simp
            · have hxr : x ≠ rid := fun hxr => hx (hxr ▸ hl)
              rw [if_neg hx, h.tracked x]
              simp [hxr]
          · have hi : (h'.session.interner.forget ridInt).ridInterner.lookup x = some i := hi
            rw [Interner.lookup_forget] at hi
            by_cases hx : h'.session.interner.ridInterner.lookup x = some ridInt
            · rw [if_pos hx] at hi; simp at hi
            · rw [if_neg hx] at hi
              rw [if_neg hx]
              exact h.interned x i hi
          · exact (h.indexed hev).drop hev h.tracks.nodup ridInt

/-- **One event keeps the invariant**, if its sync meets the condition. -/
theorem Inv.step (h : Inv f s T) (e : VllmEvent)
    (hnone : ∀ wq, s.passed q e = some wq → NoneFinished s wq) :
    ∃ T', Inv f (s.step f order q e) T' := by
  cases e with
  | addRequest request =>
      obtain ⟨T', h', -⟩ := h.syncWith horder (hnone _ rfl)
      exact ⟨T', h'.tracks, h'.tracked, h'.interned, h'.indexed⟩
  | schedule left =>
      obtain ⟨T', h', hwq⟩ := h.syncWith horder (hnone _ rfl)
      have hsame := reorderWaiting_eq (f := f) h'.tracks hwq
      refine ⟨T', ?_, ?_, ?_, ?_⟩
      · show Tracks ((s.syncWith f order s.waiting).hook.reorderWaiting f s.waiting).session T'
        rw [hsame]; exact h'.tracks
      · show ∀ x, T' x ≠ none ↔
          x ∈ ((s.syncWith f order s.waiting).hook.reorderWaiting f s.waiting).lastRids ∧ _
        rw [hsame]; exact h'.tracked
      · show ∀ x i, ((s.syncWith f order s.waiting).hook.reorderWaiting f
          s.waiting).session.interner.ridInterner.lookup x = some i → _
        rw [hsame]; exact h'.interned
      · show f.eviction = true →
          Indexed f ((s.syncWith f order s.waiting).hook.reorderWaiting f s.waiting)
        rw [hsame]; exact h'.indexed
  | finishRequests requestIds => exact h.finishRequests requestIds

/--
**When the vLLM tables are in line.**  In every run, every sync leaves the tables with
exactly the rids of the waiting queue it was passed, if and only if no sync is skipped
for a queue with a rid that was finished since the queue was last compared.
-/
theorem run_inSync_iff (events : List VllmEvent) :
    EachSync f order q (InSyncAfter f order) new events ↔
      EachSync f order q NoneFinished new events := by
  suffices key : ∀ (events : List VllmEvent) (s : VllmScheduler), (∃ T, Inv f s T) →
      (EachSync f order q (InSyncAfter f order) s events ↔
        EachSync f order q NoneFinished s events) from key events new ⟨_, new_inv⟩
  intro events
  induction events with
  | nil => intro s _; exact Iff.rfl
  | cons e events ih =>
      intro s h
      obtain ⟨T, h⟩ := h
      have hiff : (∀ wq, s.passed q e = some wq → InSyncAfter f order s wq) ↔
          ∀ wq, s.passed q e = some wq → NoneFinished s wq :=
        forall_congr' fun wq => imp_congr_right fun _ => h.inSyncAfter_iff horder wq
      unfold EachSync
      rw [hiff]
      exact and_congr_right fun hnone => ih _ (h.step horder e hnone)

end

/-- A request that is finished and submitted again, with a scheduling step in between. -/
theorem run_inSync_iff_rescheduled :
    let f : VllmFlags := ⟨true, true, true, true, true, 128⟩
    let a : VllmReq := ⟨"a", [1, 2], [], [10]⟩
    EachSync f id .fcfs (InSyncAfter f id) new
      [.addRequest a, .finishRequests ["a"], .schedule [], .addRequest a] := by
  intro f a
  refine (run_inSync_iff (fun _ => List.Perm.refl _) _).mpr ⟨?_, ?_, ?_, ?_, trivial⟩
  · intro wq h
    cases h
    decide
  · intro wq h
    cases h
  · intro wq h
    cases h
    decide
  · intro wq h
    cases h
    decide

/-- The same without the scheduling step: the last sync is skipped. -/
theorem not_inSync_resubmitted :
    let f : VllmFlags := ⟨true, true, true, true, true, 128⟩
    let a : VllmReq := ⟨"a", [1, 2], [], [10]⟩
    ¬ EachSync f id .fcfs (InSyncAfter f id) new
      [.addRequest a, .finishRequests ["a"], .addRequest a] := by
  intro f a hrun
  obtain ⟨-, -, hlast, -⟩ := hrun
  obtain ⟨i, hi⟩ := ((hlast _ rfl).interned "a").mpr (by decide)
  have hi := congrArg Option.isSome hi
  revert hi
  show _ = true → False
  decide

end VllmScheduler

end Peek
