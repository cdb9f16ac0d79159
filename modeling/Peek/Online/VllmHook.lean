/-
The vLLM hook's tables (`python/peek/online/engines/vllm/patch_hook.py`).

`_sync` is called on every `schedule` and every `add_request`; `finish_requests` drops
finished rids at once.  The tables are those of the SGLang hook and the demand index.
`_reorder_waiting` is modelled as far as it touches them: it interns every waiting rid.
The phase timings are left out.
-/
import Peek.Online.DemandIndex
import Peek.Online.SessionDiff

namespace Peek

structure VllmReq where
  requestId : ReqId
  promptTokenIds : List Token
  outputTokenIds : List Token
  blockHashes : List BlockHash
  deriving DecidableEq

/-- `_req_tokens` -/
def VllmReq.tokens (req : VllmReq) : List Token := req.promptTokenIds ++ req.outputTokenIds

/-- The environment flags the hook reads, and whether the waiting queue is a plain deque. -/
structure VllmFlags where
  eviction : Bool
  cluster : Bool
  scheduler : Bool
  fcfs : Bool
  peekLpm : Bool
  lpmFallbackThreshold : Nat

structure VllmHook where
  session : Session
  demand : DemandIndex
  lastRids : Finset ReqId

namespace VllmHook

def new : VllmHook := { session := Session.new, demand := DemandIndex.new, lastRids := ∅ }

/-- `{r.request_id for r in wq_list}` -/
def currentStrs (wq : List VllmReq) : Finset ReqId := (wq.map (·.requestId)).toFinset

/-- The waiting rids are those of the last sync. -/
def FastPath (h : VllmHook) (wq : List VllmReq) : Prop :=
  wq.length = h.lastRids.card ∧ currentStrs wq = h.lastRids

instance (h : VllmHook) (wq : List VllmReq) : Decidable (h.FastPath wq) :=
  inferInstanceAs (Decidable (_ ∧ _))

/-- One turn of the first loop of `_sync`. -/
def arriveTurn (f : VllmFlags) (p : VllmHook × Finset Rid) (req : VllmReq) :
    VllmHook × Finset Rid :=
  let (h, currentInts) := p
  let (ridInt, interner) := h.session.interner.intern req.requestId
  let s := { h.session with interner := interner }
  if ridInt ∈ s.seenThisSession then ({ h with session := s }, insert ridInt currentInts)
  else
    let demand := match (s.peekTree.pyInsert ridInt req.tokens).1 with
      | .ok () => h.demand
      | .error _ => h.demand.dropRid f.cluster ridInt
    let demand :=
      if f.eviction then demand.bumpRid f.cluster req.blockHashes ridInt else demand
    ({ h with session := s.track ridInt req.tokens, demand := demand }, insert ridInt currentInts)

/-- Drop a tracked rid from every table but `_last_rids`. -/
def drop (f : VllmFlags) (h : VllmHook) (ridInt : Rid) : VllmHook :=
  { h with
    session := h.session.depart ridInt
    demand := if f.eviction then h.demand.dropRid f.cluster ridInt else h.demand }

/-- One turn of the second loop of `_sync`. -/
def departTurn (f : VllmFlags) (currentInts : Finset Rid) (h : VllmHook) (ridInt : Rid) :
    VllmHook :=
  if ridInt ∉ currentInts then h.drop f ridInt else h

/-- `_sync`; `order` is the order in which Python goes through the tracked ids. -/
def sync (f : VllmFlags) (order : List Rid → List Rid) (h : VllmHook) (wq : List VllmReq) :
    VllmHook :=
  if h.FastPath wq then h
  else
    let (h, currentInts) := wq.foldl (arriveTurn f) (h, ∅)
    let h := (order h.session.seenThisSession).foldl (departTurn f currentInts) h
    { h with lastRids := currentStrs wq }

def finishTurn (f : VllmFlags) (h : VllmHook) (ridStr : ReqId) : VllmHook :=
  match h.session.interner.ridInterner.lookup ridStr with
  | some ridInt => if ridInt ∈ h.session.seenThisSession then h.drop f ridInt else h
  | none => h

/-- What `_patched_finish_requests` does once vLLM has finished the requests. -/
def finishRequests (f : VllmFlags) (h : VllmHook) (requestIds : List ReqId) : VllmHook :=
  requestIds.foldl (finishTurn f) h

def internTurn (h : VllmHook) (req : VllmReq) : VllmHook :=
  { h with
    session := { h.session with interner := (h.session.interner.intern req.requestId).2 } }

/-- What `_reorder_waiting` does to the tables. -/
def reorderWaiting (f : VllmFlags) (h : VllmHook) (wq : List VllmReq) : VllmHook :=
  if f.scheduler = false ∨ f.fcfs = false ∨ wq.length ≤ 1 ∨
      f.peekLpm = true ∧ wq.length > f.lpmFallbackThreshold then h
  else wq.foldl internTurn h

/-! ### The session's part -/

/-- A waiting request, as the session sees it. -/
def pair (req : VllmReq) : ReqId × List Token := (req.requestId, req.tokens)

theorem session_arriveTurn (f : VllmFlags) (h : VllmHook) (ints : Finset Rid) (req : VllmReq) :
    ((arriveTurn f (h, ints) req).1.session, (arriveTurn f (h, ints) req).2) =
      Session.arriveTurn (h.session, ints) req.requestId req.tokens := by
  unfold arriveTurn Session.arriveTurn Session.arrive
  set ridInt := (h.session.interner.intern req.requestId).1 with hr
  set s : Session := { h.session with interner := (h.session.interner.intern req.requestId).2 }
    with hs
  by_cases hseen : ridInt ∈ h.session.seenThisSession
  · have htrack : s.track ridInt req.tokens = s := by
      unfold Session.track
      rw [if_pos hseen]
    simp only [← hr, ← hs, htrack, if_pos hseen]
  · simp only [← hr, ← hs, if_neg hseen]

theorem session_arrive (f : VllmFlags) : ∀ (wq : List VllmReq) (h : VllmHook) (ints : Finset Rid),
    ((wq.foldl (arriveTurn f) (h, ints)).1.session, (wq.foldl (arriveTurn f) (h, ints)).2) =
      (wq.map pair).foldl (fun p req => Session.arriveTurn p req.1 req.2) (h.session, ints) := by
  intro wq
  induction wq with
  | nil => intro h ints; rfl
  | cons req wq ih =>
      intro h ints
      rw [List.foldl_cons, List.map_cons, List.foldl_cons]
      show _ = List.foldl _ (Session.arriveTurn (h.session, ints) req.requestId req.tokens) _
      rw [← session_arriveTurn f h ints req]
      exact ih (arriveTurn f (h, ints) req).1 (arriveTurn f (h, ints) req).2

theorem session_depart (f : VllmFlags) (ints : Finset Rid) : ∀ (rids : List Rid) (h : VllmHook),
    (rids.foldl (departTurn f ints) h).session = Session.departAll ints h.session rids := by
  intro rids
  induction rids with
  | nil => intro h; rfl
  | cons i rids ih =>
      intro h
      have hturn : (departTurn f ints h i).session = Session.departTurn ints h.session i := by
        unfold departTurn Session.departTurn
        by_cases hi : i ∉ ints
        · rw [if_pos hi, if_pos hi]; rfl
        · rw [if_neg hi, if_neg hi]
      rw [List.foldl_cons, ih, hturn]
      rfl

/-- **A sync that has work to do is a diff of the session.** -/
theorem session_sync (f : VllmFlags) (order : List Rid → List Rid) {h : VllmHook}
    {wq : List VllmReq} (hfast : ¬ h.FastPath wq) :
    (sync f order h wq).session = h.session.diff order (wq.map pair) := by
  unfold sync
  rw [if_neg hfast]
  show (List.foldl (departTurn f (wq.foldl (arriveTurn f) (h, ∅)).2)
    (wq.foldl (arriveTurn f) (h, ∅)).1 _).session = _
  have harr := session_arrive f wq h ∅
  rw [session_depart]
  unfold Session.diff Session.arriveAll
  rw [← harr]

/-! ### The index's part -/

/-- **The index counts the snapshots of the tracked rids**, and of no others. -/
structure Indexed (f : VllmFlags) (h : VllmHook) : Prop where
  ok : DemandIndex.OK f.cluster h.demand
  keys : ∀ i, (h.demand.ridToHashes.lookup i).isSome ↔ i ∈ h.session.seenThisSession

theorem new_indexed (f : VllmFlags) : Indexed f new where
  ok := DemandIndex.new_ok f.cluster
  keys i := by simp [new, DemandIndex.new, Session.new]

section

variable {f : VllmFlags} (hev : f.eviction = true)
include hev

/-- Dropping a tracked rid drops its snapshot. -/
theorem Indexed.drop {h : VllmHook} (hi : Indexed f h) (hnd : h.session.seenThisSession.Nodup)
    (ridInt : Rid) : Indexed f (h.drop f ridInt) := by
  unfold VllmHook.drop
  rw [if_pos hev]
  refine ⟨hi.ok.dropRid ridInt, fun i => ?_⟩
  show ((h.demand.dropRid f.cluster ridInt).ridToHashes.lookup i).isSome ↔
    i ∈ h.session.seenThisSession.erase ridInt
  rw [DemandIndex.ridToHashes_dropRid, hnd.mem_erase_iff]
  by_cases hr : i = ridInt
  · rw [if_pos hr]; simp [hr]
  · rw [if_neg hr, hi.keys]; simp [hr]

/-- Taking a request in counts it, if it is new. -/
theorem Indexed.arriveTurn {h : VllmHook} {T : ReqId → Option (List Token)}
    (hT : Tracks h.session T) (hi : Indexed f h) (ints : Finset Rid) (req : VllmReq) :
    Indexed f (VllmHook.arriveTurn f (h, ints) req).1 := by
  unfold VllmHook.arriveTurn
  simp only
  set ridInt := (h.session.interner.intern req.requestId).1 with hr
  have h1 := hT.intern req.requestId
  set s : Session := { h.session with interner := (h.session.interner.intern req.requestId).2 }
    with hs
  have hid : s.interner.ridInterner.lookup req.requestId = some ridInt := by
    rw [hs, Interner.lookup_intern, if_pos rfl]
  by_cases hseen : ridInt ∈ s.seenThisSession
  · rw [if_pos hseen]
    exact ⟨hi.ok, hi.keys⟩
  · rw [if_neg hseen]
    have hpaths : s.peekTree.paths.lookup ridInt = none := by
      rw [h1.paths_of hid]
      by_contra hne
      exact hseen ((h1.seen_iff hid).mpr hne)
    have hnew : h.demand.ridToHashes.lookup ridInt = none := by
      have := (hi.keys ridInt).not.mpr hseen
      simpa using this
    have hseen' : (s.track ridInt req.tokens).seenThisSession = ridInt :: s.seenThisSession := by
      unfold Session.track
      rw [if_neg hseen, Tracks.insertPending_of_none hpaths]
    have hins := @PendingTree.pyInsert_of_none h.session.peekTree ridInt req.tokens hpaths
    simp only [hins, if_pos hev]
    refine ⟨hi.ok.bumpRid hnew req.blockHashes, fun i => ?_⟩
    show ((h.demand.bumpRid f.cluster req.blockHashes ridInt).ridToHashes.lookup i).isSome ↔
      i ∈ (s.track ridInt req.tokens).seenThisSession
    rw [DemandIndex.ridToHashes_bumpRid, hseen', List.mem_cons]
    by_cases hir : i = ridInt
    · rw [if_pos hir]; simp [hir]
    · rw [if_neg hir, hi.keys]; simp [hir, hs]

/-- **A sync keeps the index right.** -/
theorem Indexed.sync {h : VllmHook} {T : ReqId → Option (List Token)} (hT : Tracks h.session T)
    (hi : Indexed f h) {order : List Rid → List Rid} (wq : List VllmReq) :
    Indexed f (VllmHook.sync f order h wq) := by
  unfold VllmHook.sync
  by_cases hfast : h.FastPath wq
  · rw [if_pos hfast]; exact hi
  · rw [if_neg hfast]
    have harr : ∀ p : VllmHook × Finset Rid, (∃ T, Tracks p.1.session T) ∧ Indexed f p.1 →
        ∀ req, (∃ T, Tracks (VllmHook.arriveTurn f p req).1.session T) ∧
          Indexed f (VllmHook.arriveTurn f p req).1 := by
      intro p hp req
      obtain ⟨⟨T, hT⟩, hi⟩ := hp
      have hsession : (VllmHook.arriveTurn f p req).1.session =
          (p.1.session.arrive req.requestId req.tokens).2 :=
        congrArg Prod.fst (session_arriveTurn f p.1 p.2 req)
      exact ⟨⟨_, hsession ▸ hT.arrive req.requestId req.tokens⟩, hi.arriveTurn hev hT p.2 req⟩
    have hdep : ∀ ints (h : VllmHook), (∃ T, Tracks h.session T) ∧ Indexed f h →
        ∀ i, (∃ T, Tracks (VllmHook.departTurn f ints h i).session T) ∧
          Indexed f (VllmHook.departTurn f ints h i) := by
      intro ints h hp i
      unfold VllmHook.departTurn
      by_cases hi : i ∉ ints
      · rw [if_pos hi]
        obtain ⟨⟨T, hT⟩, hi⟩ := hp
        exact ⟨⟨_, hT.depart i⟩, hi.drop hev hT.nodup i⟩
      · rw [if_neg hi]; exact hp
    have h1 : (∃ T, Tracks (wq.foldl (VllmHook.arriveTurn f) (h, ∅)).1.session T) ∧
        Indexed f (wq.foldl (VllmHook.arriveTurn f) (h, ∅)).1 :=
      List.foldlRecOn wq (VllmHook.arriveTurn f)
        (motive := fun p => (∃ T, Tracks p.1.session T) ∧ Indexed f p.1)
        ⟨⟨T, hT⟩, hi⟩ fun p hp req _ => harr p hp req
    have h2 := List.foldlRecOn (order (wq.foldl (VllmHook.arriveTurn f) (h, ∅)).1.session.seenThisSession)
        (VllmHook.departTurn f (wq.foldl (VllmHook.arriveTurn f) (h, ∅)).2)
        (motive := fun h => (∃ T, Tracks h.session T) ∧ Indexed f h)
        h1 fun h hp i _ => hdep _ h hp i
    exact ⟨h2.2.ok, h2.2.keys⟩

/-- **Finishing requests keeps the index right.** -/
theorem Indexed.finishRequests {h : VllmHook} {T : ReqId → Option (List Token)}
    (hT : Tracks h.session T) (hi : Indexed f h) (requestIds : List ReqId) :
    (∃ T, Tracks (h.finishRequests f requestIds).session T) ∧
      Indexed f (h.finishRequests f requestIds) := by
  unfold VllmHook.finishRequests
  refine List.foldlRecOn requestIds (finishTurn f)
    (motive := fun h => (∃ T, Tracks h.session T) ∧ Indexed f h) ⟨⟨T, hT⟩, hi⟩ ?_
  intro h hp ridStr _
  obtain ⟨⟨T, hT⟩, hi⟩ := hp
  unfold finishTurn
  cases hl : h.session.interner.ridInterner.lookup ridStr with
  | none => exact ⟨⟨T, hT⟩, hi⟩
  | some ridInt =>
      simp only
      by_cases hseen : ridInt ∈ h.session.seenThisSession
      · rw [if_pos hseen]
        exact ⟨⟨_, hT.depart ridInt⟩, hi.drop hev hT.nodup ridInt⟩
      · rw [if_neg hseen]; exact ⟨⟨T, hT⟩, hi⟩

end

end VllmHook

end Peek
