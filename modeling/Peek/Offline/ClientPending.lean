/-
What the server knows of the client's pending requests (step 9 of `_run_tagged`, and the
contract of `CacheStateStore`).

The client's counts are meant to cover the server's queue: every waiting request is pending.
They do as long as a request is taken out of the dispatcher no earlier than out of the queue.
Step 9 takes out the first requests of the new order before anything is known about their
admission, so whether they do depends on what is admitted (`clientPending_covers`).

A request is known by its original rid.  `issued` keeps what the client knows of each rid, its
token ids and prompt index, which is what a removal on completion passes.
-/
import Peek.Offline.QueueKept
import Peek.Offline.Tags

namespace Peek

namespace PeekDispatcher

variable {hash : List Token → Nat} {d : PeekDispatcher} {maxDepth : Nat}

/-! ### The dispatcher between two calls -/

/-- The counts are exact, and the server has them. -/
structure InStep (hash : List Token → Nat) (maxDepth : Nat) (d : PeekDispatcher) : Prop where
  filed : ∃ p, Filed maxDepth d p
  exact : d.Exact
  counted : (Dict.keys d.groupCount).Nodup
  hashed : ∀ key h, d.groupHashes.lookup key = some h → h = hash key
  pushed : d.stateStore = d.pushPendingToServer.stateStore

theorem inStep_new (hash : List Token → Nat) (maxDepth : Nat) : InStep hash maxDepth (new maxDepth) where
  filed := ⟨_, filed_new maxDepth⟩
  exact key := (if_pos (TrieNode.promptsAt_new key)).symm
  counted := List.nodup_nil
  hashed _ _ h := by simp [new] at h
  pushed := rfl

theorem InStep.ownDepth (h : InStep hash maxDepth d) : d.maxDepth = maxDepth := by
  obtain ⟨p, hfiled⟩ := h.filed
  exact hfiled.ownDepth

/-- Every recorded hash is the hash of its key. -/
theorem hashed_submit (h : ∀ key n, d.groupHashes.lookup key = some n → n = hash key)
    (request : ClientRequest) (key : List Token) (n : Nat)
    (hkey : (d.submit hash request).1.groupHashes.lookup key = some n) : n = hash key := by
  rw [groupHashes_submit] at hkey
  split at hkey
  · rcases Dict.eq_or_lookup_of_set hkey with ⟨hk, hn⟩ | ⟨-, hkey⟩
    · rw [hn, hk]
    · exact h key n hkey
  · exact h key n hkey

theorem hashed_remove (h : ∀ key n, d.groupHashes.lookup key = some n → n = hash key)
    (tokenIds : List Token) (promptIndex : Nat) (key : List Token) (n : Nat)
    (hkey : (d.remove tokenIds promptIndex).groupHashes.lookup key = some n) : n = hash key := by
  obtain ⟨groupCount, groupHashes, dirty, heq, hcases⟩ := remove_cases d tokenIds promptIndex
  rw [heq] at hkey
  have hkey : groupHashes.lookup key = some n := hkey
  rcases hcases with ⟨-, -, rfl⟩ | ⟨count, -, ⟨-, -, rfl⟩ | ⟨-, -, rfl⟩⟩
  · exact h key n hkey
  · rw [Dict.lookup_del] at hkey
    split at hkey
    · simp at hkey
    · exact h key n hkey
  · exact h key n hkey

theorem counted_remove (h : (Dict.keys d.groupCount).Nodup) (tokenIds : List Token)
    (promptIndex : Nat) : (Dict.keys (d.remove tokenIds promptIndex).groupCount).Nodup := by
  obtain ⟨groupCount, groupHashes, dirty, heq, hcases⟩ := remove_cases d tokenIds promptIndex
  rw [heq]
  show (Dict.keys groupCount).Nodup
  rcases hcases with ⟨-, rfl, -⟩ | ⟨count, -, ⟨-, rfl, -⟩ | ⟨-, rfl, -⟩⟩
  · exact h
  · exact Dict.nodup_del _ (Dict.nodup_set _ _ h)
  · exact Dict.nodup_set _ _ h

theorem pushed_remove (d : PeekDispatcher) (tokenIds : List Token) (promptIndex : Nat) :
    (d.remove tokenIds promptIndex).stateStore =
      (d.remove tokenIds promptIndex).pushPendingToServer.stateStore := by
  obtain ⟨_, _, _, heq, -⟩ := remove_cases d tokenIds promptIndex
  rw [heq]
  rfl

theorem InStep.submit (h : InStep hash maxDepth d) (request : ClientRequest) :
    InStep hash maxDepth (d.submit hash request).1 := by
  obtain ⟨p, hfiled⟩ := h.filed
  refine ⟨⟨_, hfiled.submit request⟩, h.exact.submit hfiled request, ?_,
    hashed_submit h.hashed request, ?_⟩
  · rw [groupCount_submit]
    exact Dict.nodup_set _ _ h.counted
  · unfold PeekDispatcher.submit
    simp only
    split <;> rfl

/-- A removal that finds its prompt, or an empty group. -/
theorem InStep.remove (h : InStep hash maxDepth d) {tokenIds : List Token} {promptIndex : Nat}
    (hgood : promptIndex ∈ d.trie.promptsAt (d.groupKey tokenIds) ∨
      d.trie.promptsAt (d.groupKey tokenIds) = []) :
    InStep hash maxDepth (d.remove tokenIds promptIndex) := by
  obtain ⟨p, hfiled⟩ := h.filed
  have hexact : (d.remove tokenIds promptIndex).Exact := by
    rcases hgood with hmem | hnil
    · exact h.exact.remove hfiled hmem
    · exact h.exact.of_same (h.exact.remove_of_empty hfiled promptIndex hnil)
  exact ⟨⟨_, hfiled.remove tokenIds promptIndex⟩, hexact, counted_remove h.counted _ _,
    hashed_remove h.hashed tokenIds promptIndex, pushed_remove d tokenIds promptIndex⟩

/-- A counted group is written under its hash. -/
theorem Filed.hash_counted {p : Prompts} (h : Filed maxDepth d p)
    (hhashed : ∀ key n, d.groupHashes.lookup key = some n → n = hash key)
    {e : List Token × Int} (he : e ∈ d.groupCount) :
    (d.groupHashes.lookup e.1).getD 0 = hash e.1 := by
  have hkey : e.1 ∈ Dict.keys d.groupHashes := (h.hashes e.1).mp (List.mem_map_of_mem he)
  obtain ⟨n, hn⟩ := Option.isSome_iff_exists.mp ((Dict.lookup_isSome_iff _ _).mpr hkey)
  rw [hn, Option.getD_some]
  exact hhashed _ _ hn

/-- **What the server reads for a group** is the number of its pending prompts, unless another
counted group has the same hash. -/
theorem InStep.lookup_clientPending (h : InStep hash maxDepth d) {key : List Token}
    (hne : d.trie.promptsAt key ≠ [])
    (hinj : ∀ key', d.trie.promptsAt key' ≠ [] → hash key' = hash key → key' = key) :
    d.stateStore.clientPending.lookup (hash key) =
      some ((d.trie.promptsAt key).length : Int) := by
  obtain ⟨p, hfiled⟩ := h.filed
  have hhash : ∀ e ∈ d.groupCount, (d.groupHashes.lookup e.1).getD 0 = hash e.1 :=
    fun e he => hfiled.hash_counted h.hashed he
  have hcounted : ∀ e ∈ d.groupCount, d.trie.promptsAt e.1 ≠ [] := by
    intro e he hnil
    have hlook := (Dict.mem_iff_lookup h.counted).mp he
    rw [h.exact, if_pos hnil] at hlook
    simp at hlook
  have hmem : (key, ((d.trie.promptsAt key).length : Int)) ∈ d.groupCount := by
    rw [Dict.mem_iff_lookup h.counted, h.exact, if_neg hne]
  have hlookup := Dict.lookup_ofList
    (fun e : List Token × Int => (d.groupHashes.lookup e.1).getD 0) (·.2) hmem (fun e he heq => ?_)
  · rw [hhash _ hmem] at hlookup
    rw [h.pushed]
    exact hlookup
  · rw [hhash e he, hhash _ hmem] at heq
    have hlook := (Dict.mem_iff_lookup h.counted).mp he
    rw [hinj e.1 (hcounted e he) heq, h.exact, if_neg hne, Option.some.injEq] at hlook
    exact hlook.symm

/-- No count is negative. -/
theorem InStep.clientPending_nonneg (h : InStep hash maxDepth d) (g : Nat) :
    0 ≤ (d.stateStore.clientPending.lookup g).getD 0 := by
  cases hlook : d.stateStore.clientPending.lookup g with
  | none => exact Int.le_refl 0
  | some count =>
      rw [h.pushed] at hlook
      obtain ⟨e, he, -, rfl⟩ := Dict.exists_of_lookup_ofList hlook
      have hcount := (Dict.mem_iff_lookup h.counted).mp he
      rw [h.exact] at hcount
      by_cases hnil : d.trie.promptsAt e.1 = []
      · rw [if_pos hnil] at hcount
        simp at hcount
      · rw [if_neg hnil, Option.some.injEq] at hcount
        rw [Option.getD_some, ← hcount]
        exact Int.natCast_nonneg _

theorem rid_submit (h : ∀ key n, d.groupHashes.lookup key = some n → n = hash key)
    {request : ClientRequest} (hdict : request.isDict = true) :
    ∃ rank, (d.submit hash request).2.rid =
      some (peekRid rank (hash (d.groupKey request.tokenIds)) (origRid request d.nextIdx)) := by
  have hhash : ((if (d.groupHashes.lookup (d.groupKey request.tokenIds)).isNone then
      Dict.set d.groupHashes (d.groupKey request.tokenIds) (hash (d.groupKey request.tokenIds))
      else d.groupHashes).lookup (d.groupKey request.tokenIds)).getD 0 =
        hash (d.groupKey request.tokenIds) := by
    cases hlook : d.groupHashes.lookup (d.groupKey request.tokenIds) with
    | none => rw [if_pos Option.isNone_none, Dict.lookup_set, if_pos rfl, Option.getD_some]
    | some n =>
        rw [if_neg (by simp), hlook, Option.getD_some]
        exact h _ _ hlook
  unfold submit
  simp only [hdict, if_true, hhash]
  exact ⟨_, rfl⟩

theorem ridToRemoveInfo_submit {request : ClientRequest} (hdict : request.isDict = true) :
    (d.submit hash request).1.ridToRemoveInfo =
      Dict.set d.ridToRemoveInfo (origRid request d.nextIdx) (request.tokenIds, d.nextIdx) := by
  unfold submit
  simp only [hdict, if_true]
  rfl

end PeekDispatcher

/-! ### The engine with the dispatcher attached -/

namespace PeekEngine

/-- `_BATCH_EST` -/
def batchEst : Nat := 32

/-- Take one request out of the dispatcher, if the dispatcher still knows it. -/
def removeScheduledTurn (d : PeekDispatcher) (r : Req) : PeekDispatcher :=
  if isTagged r.rid then
    match parsePeekRid r.rid with
    | none => d
    | some (_, _, origRid) =>
        match d.ridToRemoveInfo.lookup origRid with
        | none => d
        | some (tokenIds, promptIndex) =>
            { d with ridToRemoveInfo := Dict.del d.ridToRemoveInfo origRid }.remove tokenIds
              promptIndex
  else d

/-- Step 9: what comes first in the queue is taken for scheduled. -/
def removeScheduled (d : PeekDispatcher) (waitingQueue : List Req) : PeekDispatcher :=
  (waitingQueue.take batchEst).foldl removeScheduledTurn d

/-- `PeekEngine.run` with a dispatcher; a run that raises does not get to step 9. -/
def runAttached (o : Scoring) (cfg : EngineConfig) (s : PeekCache) (d : PeekDispatcher)
    (waitingQueue : List Req) : PeekCache × List Req × PeekDispatcher :=
  let (returned, s, scored) := run o cfg s waitingQueue
  (s, scored,
    if hasPeekTags waitingQueue ∧ returned.isSome then removeScheduled d scored else d)

end PeekEngine

/-! ### Runs -/

/-- The client, the server, and the requests between them. -/
structure ServedRun where
  dispatcher : PeekDispatcher
  cache : PeekCache
  /-- Sent, and not in the waiting queue yet. -/
  inTransit : List Req
  waitingQueue : List Req
  /-- Admitted, and not completed. -/
  running : List Req
  /-- The token ids and prompt index of every request submitted, by its original rid. -/
  issued : List (ReqId × List Token × Nat)

namespace ServedRun

def new (maxDepth : Nat) (cache : PeekCache) : ServedRun :=
  { dispatcher := PeekDispatcher.new maxDepth, cache := cache, inTransit := [], waitingQueue := []
    running := [], issued := [] }

/-- The client's own rid in a tagged one. -/
def origin (rid : ReqId) : Option ReqId := (parsePeekRid rid).map fun tag => tag.2.2

/-- What a removal of the request passes. -/
def ticket (s : ServedRun) (r : Req) : Option (List Token × Nat) :=
  (origin r.rid).bind fun rid => s.issued.lookup rid

/-- The request as it arrives at the server. -/
def arriving (sent : ClientRequest) (extraKey : Option ExtraKey) : Req :=
  { rid := sent.rid.getD "", originInputIds := sent.tokenIds, outputIds := [], extraKey := extraKey
    prefixIndices := [], lastNode := none, peekMatched := false }

inductive Event where
  | submit (request : ClientRequest) (extraKey : Option ExtraKey)
  | arrive (r : Req)
  | cycle (o : Scoring) (cfg : EngineConfig) (stay left : List Req)
  | complete (r : Req) (told : Bool) (tokenIds : List Token) (promptIndex : Nat)

/--
One event.  Every request is a dictionary and goes through the dispatcher; it arrives some
time later.  After a cycle some of the queue is admitted, whatever part of it.  The client may
remove a completed request from the dispatcher, or leave that to the server.
-/
inductive Step (hash : List Token → Nat) : ServedRun → Event → ServedRun → Prop
  | submit (s : ServedRun) (request : ClientRequest) (extraKey : Option ExtraKey)
      (hdict : request.isDict = true) :
      Step hash s (.submit request extraKey)
        { s with
          dispatcher := (s.dispatcher.submit hash request).1
          inTransit := arriving (s.dispatcher.submit hash request).2 extraKey :: s.inTransit
          issued := Dict.set s.issued (PeekDispatcher.origRid request s.dispatcher.nextIdx)
            (request.tokenIds, s.dispatcher.nextIdx) }
  | arrive (s : ServedRun) (r : Req) (hr : r ∈ s.inTransit) :
      Step hash s (.arrive r)
        { s with inTransit := s.inTransit.erase r, waitingQueue := s.waitingQueue ++ [r] }
  | cycle (s : ServedRun) (o : Scoring) (cfg : EngineConfig) (stay left : List Req)
      (hleft : (stay ++ left).Perm
        (PeekEngine.runAttached o cfg s.cache s.dispatcher s.waitingQueue).2.1) :
      Step hash s (.cycle o cfg stay left)
        { s with
          cache := (PeekEngine.runAttached o cfg s.cache s.dispatcher s.waitingQueue).1
          dispatcher := (PeekEngine.runAttached o cfg s.cache s.dispatcher s.waitingQueue).2.2
          waitingQueue := stay
          running := left ++ s.running }
  | complete (s : ServedRun) (r : Req) (told : Bool) (tokenIds : List Token) (promptIndex : Nat)
      (hr : r ∈ s.running) (hticket : s.ticket r = some (tokenIds, promptIndex)) :
      Step hash s (.complete r told tokenIds promptIndex)
        { s with
          dispatcher := if told then s.dispatcher.remove tokenIds promptIndex else s.dispatcher
          running := s.running.erase r }

/--
What is asked of an event: submitted rids are new, and so are the hashes of new groups; the
requests a cycle takes out of the dispatcher are admitted after it; a request that the client
removes is still in the dispatcher, or no prompt of its group is.
-/
def Orderly (hash : List Token → Nat) (s : ServedRun) : Event → Prop
  | .submit request _ =>
      PeekDispatcher.origRid request s.dispatcher.nextIdx ∉ Dict.keys s.issued ∧
      ∀ e ∈ s.issued, hash (s.dispatcher.groupKey e.2.1) =
        hash (s.dispatcher.groupKey request.tokenIds) →
          s.dispatcher.groupKey e.2.1 = s.dispatcher.groupKey request.tokenIds
  | .arrive _ => True
  | .cycle o cfg stay _ =>
      ∀ r ∈ (PeekEngine.runAttached o cfg s.cache s.dispatcher s.waitingQueue).2.1.take
        PeekEngine.batchEst, r ∉ stay
  | .complete _ told tokenIds promptIndex =>
      told = true → promptIndex ∈ s.dispatcher.trie.promptsAt (s.dispatcher.groupKey tokenIds) ∨
        s.dispatcher.trie.promptsAt (s.dispatcher.groupKey tokenIds) = []

/-- The server reads for each group at least as many pending requests as are waiting. -/
def Covers (s : ServedRun) : Prop :=
  ∀ g : Nat, ((s.waitingQueue.filter fun r => PeekEngine.groupKey r = some (g : Int)).length : Int) ≤
    (s.dispatcher.stateStore.clientPending.lookup g).getD 0

/-! ### The invariant -/

variable {hash : List Token → Nat} {maxDepth : Nat} {s s' : ServedRun}

/-- The tagged rids of the requests that are still to be admitted, and of those that were. -/
def ahead (s : ServedRun) : List ReqId := (s.inTransit ++ s.waitingQueue).map Req.rid

def admitted (s : ServedRun) : List ReqId := s.running.map Req.rid

/-- The tag was made when the prompt `i` was submitted under `rid`. -/
def Tags (hash : List Token → Nat) (maxDepth : Nat) (issued : List (ReqId × List Token × Nat))
    (tagged rid : ReqId) (tokenIds : List Token) (i : Nat) : Prop :=
  (∃ rank, tagged = PeekDispatcher.peekRid rank (hash (tokenIds.take maxDepth)) rid) ∧
    issued.lookup rid = some (tokenIds, i)

theorem Tags.origin {issued : List (ReqId × List Token × Nat)} {tagged rid : ReqId}
    {tokenIds : List Token} {i : Nat} (h : Tags hash maxDepth issued tagged rid tokenIds i) :
    origin tagged = some rid := by
  obtain ⟨⟨rank, rfl⟩, -⟩ := h
  unfold ServedRun.origin
  rw [PeekDispatcher.parsePeekRid_peekRid]
  rfl

/-- No two requests were given one prompt index, or one hash for two groups. -/
structure Distinct (hash : List Token → Nat) (maxDepth : Nat)
    (issued : List (ReqId × List Token × Nat)) : Prop where
  index : ∀ rid rid' tokenIds tokenIds' i, issued.lookup rid = some (tokenIds, i) →
    issued.lookup rid' = some (tokenIds', i) → rid = rid'
  hash : ∀ rid rid' tokenIds tokenIds' i i', issued.lookup rid = some (tokenIds, i) →
    issued.lookup rid' = some (tokenIds', i') →
      hash (tokenIds.take maxDepth) = hash (tokenIds'.take maxDepth) →
        tokenIds.take maxDepth = tokenIds'.take maxDepth

/-- The dispatcher can still find the request, and has its prompt. -/
def Pending (maxDepth : Nat) (issued : List (ReqId × List Token × Nat)) (d : PeekDispatcher)
    (rid : ReqId) : Prop :=
  ∀ tokenIds i, issued.lookup rid = some (tokenIds, i) →
    d.ridToRemoveInfo.lookup rid = some (tokenIds, i) ∧
      i ∈ d.trie.promptsAt (tokenIds.take maxDepth)

structure Inv (hash : List Token → Nat) (maxDepth : Nat) (s : ServedRun) : Prop where
  inStep : PeekDispatcher.InStep hash maxDepth s.dispatcher
  distinct : Distinct hash maxDepth s.issued
  index_lt : ∀ rid tokenIds i, s.issued.lookup rid = some (tokenIds, i) → i < s.dispatcher.nextIdx
  apart : ((s.ahead ++ s.admitted).map origin).Nodup
  tags : ∀ tagged ∈ s.ahead ++ s.admitted, ∃ rid tokenIds i,
    Tags hash maxDepth s.issued tagged rid tokenIds i
  pending : ∀ tagged ∈ s.ahead, ∀ rid, origin tagged = some rid →
    Pending maxDepth s.issued s.dispatcher rid
  traced : ∀ key i, i ∈ s.dispatcher.trie.promptsAt key →
    ∃ rid tokenIds, s.issued.lookup rid = some (tokenIds, i) ∧ tokenIds.take maxDepth = key

theorem new_inv (hash : List Token → Nat) (maxDepth : Nat) (cache : PeekCache) :
    Inv hash maxDepth (new maxDepth cache) where
  inStep := PeekDispatcher.inStep_new hash maxDepth
  distinct :=
    { index := fun _ _ _ _ _ h => by simp [new] at h
      hash := fun _ _ _ _ _ _ h => by simp [new] at h }
  index_lt _ _ _ h := by simp [new] at h
  apart := List.nodup_nil
  tags _ h := absurd h List.not_mem_nil
  pending _ h := absurd h List.not_mem_nil
  traced key i h := by
    have hnil : (new maxDepth cache).dispatcher.trie.promptsAt key = [] := TrieNode.promptsAt_new key
    rw [hnil] at h
    exact absurd h List.not_mem_nil

theorem Inv.waiting_apart (h : Inv hash maxDepth s) :
    (s.waitingQueue.map fun r => origin r.rid).Nodup := by
  have hsub : List.Sublist (s.waitingQueue.map fun r => origin r.rid)
      ((s.ahead ++ s.admitted).map origin) := by
    unfold ahead
    rw [List.map_append, List.map_append, List.map_append, List.map_map, List.map_map]
    exact (List.sublist_append_right _ _).trans (List.sublist_append_left _ _)
  exact hsub.nodup h.apart

/-- A waiting request has a prompt, filed where those of its group are. -/
theorem Inv.prompt_of_waiting (h : Inv hash maxDepth s) {r : Req} (hr : r ∈ s.waitingQueue)
    {g : Nat} (hgroup : PeekEngine.groupKey r = some (g : Int)) :
    ∃ rid tokenIds i, origin r.rid = some rid ∧ s.issued.lookup rid = some (tokenIds, i) ∧
      hash (tokenIds.take maxDepth) = g ∧
      i ∈ s.dispatcher.trie.promptsAt (tokenIds.take maxDepth) := by
  have hahead : r.rid ∈ s.ahead := List.mem_map_of_mem (List.mem_append_right _ hr)
  obtain ⟨rid, tokenIds, i, htags⟩ := h.tags r.rid (List.mem_append_left _ hahead)
  refine ⟨rid, tokenIds, i, htags.origin, htags.2, ?_, ?_⟩
  · obtain ⟨rank, heq⟩ := htags.1
    unfold PeekEngine.groupKey at hgroup
    rw [heq, PeekDispatcher.parsePeekRid_peekRid, Option.map_some, Option.some.injEq] at hgroup
    exact Int.ofNat_inj.mp hgroup
  · exact (h.pending r.rid hahead rid htags.origin tokenIds i htags.2).2

/-- **In order, the counts cover the queue.** -/
theorem Inv.covers (h : Inv hash maxDepth s) : Covers s := by
  intro g
  set waiting := s.waitingQueue.filter fun r => PeekEngine.groupKey r = some (g : Int) with hwaiting
  have hprompt : ∀ r ∈ waiting, ∃ rid tokenIds i, origin r.rid = some rid ∧
      s.issued.lookup rid = some (tokenIds, i) ∧ hash (tokenIds.take maxDepth) = g ∧
      i ∈ s.dispatcher.trie.promptsAt (tokenIds.take maxDepth) := by
    intro r hr
    rw [hwaiting, List.mem_filter, decide_eq_true_eq] at hr
    exact h.prompt_of_waiting hr.1 hr.2
  by_cases hnil : waiting = []
  · rw [hnil]
    exact h.inStep.clientPending_nonneg g
  obtain ⟨r0, hr0⟩ := List.exists_mem_of_ne_nil _ hnil
  obtain ⟨rid0, tokenIds0, i0, -, hlook0, hhash0, hi0⟩ := hprompt r0 hr0
  set key := tokenIds0.take maxDepth with hkey
  have hlookup := h.inStep.lookup_clientPending (List.ne_nil_of_mem hi0) fun key' hne heq => by
    obtain ⟨i, hi⟩ := List.exists_mem_of_ne_nil _ hne
    obtain ⟨rid, tokenIds, hlook, rfl⟩ := h.traced key' i hi
    exact h.distinct.hash _ _ _ _ _ _ hlook hlook0 heq
  rw [hhash0] at hlookup
  rw [hlookup, Option.getD_some]
  -- the prompts of the waiting requests are different entries of the group's list
  have hticket : ∀ r ∈ waiting, ∃ rid tokenIds i, origin r.rid = some rid ∧
      s.issued.lookup rid = some (tokenIds, i) ∧ (s.ticket r).getD ([], 0) = (tokenIds, i) ∧
      i ∈ s.dispatcher.trie.promptsAt key := by
    intro r hr
    obtain ⟨rid, tokenIds, i, hrid, hlook, hhash, hi⟩ := hprompt r hr
    refine ⟨rid, tokenIds, i, hrid, hlook, ?_, ?_⟩
    · unfold ticket
      rw [hrid, Option.bind_some, hlook, Option.getD_some]
    · rw [h.distinct.hash _ _ _ _ _ _ hlook hlook0 (hhash.trans hhash0.symm)] at hi
      exact hi
  have hnodup : (waiting.map fun r => ((s.ticket r).getD ([], 0)).2).Nodup := by
    have hapart : (waiting.map fun r => origin r.rid).Nodup :=
      (List.filter_sublist.map _).nodup h.waiting_apart
    refine List.Nodup.map_on (fun x hx y hy hxy => ?_) hapart.of_map
    obtain ⟨rid, tokenIds, i, hrid, hlook, htick, -⟩ := hticket x hx
    obtain ⟨rid', tokenIds', i', hrid', hlook', htick', -⟩ := hticket y hy
    rw [htick, htick'] at hxy
    have hxy : i = i' := hxy
    subst hxy
    refine List.inj_on_of_nodup_map hapart hx hy ?_
    rw [hrid, hrid', h.distinct.index _ _ _ _ _ hlook hlook']
  have hsub : (waiting.map fun r => ((s.ticket r).getD ([], 0)).2) ⊆
      s.dispatcher.trie.promptsAt key := by
    intro i hi
    obtain ⟨r, hr, rfl⟩ := List.mem_map.mp hi
    obtain ⟨rid, tokenIds, i, -, -, htick, hi⟩ := hticket r hr
    rw [htick]
    exact hi
  have hle := (List.subperm_of_subset hnodup hsub).length_le
  rw [List.length_map] at hle
  exact Int.ofNat_le.mpr hle

/-! ### What the events keep -/

theorem Tags.set {issued : List (ReqId × List Token × Nat)} {tagged rid : ReqId}
    {tokenIds : List Token} {i : Nat} (h : Tags hash maxDepth issued tagged rid tokenIds i)
    {rid' : ReqId} (hnew : rid' ∉ Dict.keys issued) (v : List Token × Nat) :
    Tags hash maxDepth (Dict.set issued rid' v) tagged rid tokenIds i ∧ rid ≠ rid' := by
  have hne : rid ≠ rid' := by
    rintro rfl
    exact hnew ((Dict.lookup_isSome_iff _ _).mp (by rw [h.2]; rfl))
  refine ⟨⟨h.1, ?_⟩, hne⟩
  rw [Dict.lookup_set, if_neg (Ne.symm hne)]
  exact h.2

/-- A new rid with a new index, and a hash that only its own group has. -/
theorem Distinct.set {issued : List (ReqId × List Token × Nat)} (h : Distinct hash maxDepth issued)
    {rid : ReqId} {tokenIds : List Token} {n : Nat}
    (hlt : ∀ rid tokenIds i, issued.lookup rid = some (tokenIds, i) → i < n)
    (hhash : ∀ rid' tokenIds' i, issued.lookup rid' = some (tokenIds', i) →
      hash (tokenIds'.take maxDepth) = hash (tokenIds.take maxDepth) →
        tokenIds'.take maxDepth = tokenIds.take maxDepth) :
    Distinct hash maxDepth (Dict.set issued rid (tokenIds, n)) where
  index rid1 rid2 tokenIds1 tokenIds2 i h1 h2 := by
    rcases Dict.eq_or_lookup_of_set h1 with ⟨hr1, hv1⟩ | ⟨-, h1⟩
    · rcases Dict.eq_or_lookup_of_set h2 with ⟨hr2, -⟩ | ⟨-, h2⟩
      · rw [hr1, hr2]
      · have := hlt _ _ _ h2
        have hi : i = n := congrArg Prod.snd hv1
        omega
    · rcases Dict.eq_or_lookup_of_set h2 with ⟨-, hv2⟩ | ⟨-, h2⟩
      · have := hlt _ _ _ h1
        have hi : i = n := congrArg Prod.snd hv2
        omega
      · exact h.index _ _ _ _ _ h1 h2
  hash rid1 rid2 tokenIds1 tokenIds2 i1 i2 h1 h2 heq := by
    rcases Dict.eq_or_lookup_of_set h1 with ⟨-, hv1⟩ | ⟨-, h1⟩
    · rw [(Prod.mk.inj hv1).1] at heq ⊢
      rcases Dict.eq_or_lookup_of_set h2 with ⟨-, hv2⟩ | ⟨-, h2⟩
      · rw [(Prod.mk.inj hv2).1]
      · exact (hhash _ _ _ h2 heq.symm).symm
    · rcases Dict.eq_or_lookup_of_set h2 with ⟨-, hv2⟩ | ⟨-, h2⟩
      · rw [(Prod.mk.inj hv2).1] at heq ⊢
        exact hhash _ _ _ h1 heq
      · exact h.hash _ _ _ _ _ _ h1 h2 heq

/-- The groups are told apart by as many tokens as the dispatcher was made with. -/
theorem groupKey_eq (hstep : PeekDispatcher.InStep hash maxDepth s.dispatcher)
    (tokenIds : List Token) : s.dispatcher.groupKey tokenIds = tokenIds.take maxDepth := by
  unfold PeekDispatcher.groupKey
  rw [hstep.ownDepth]

/-- What is sent carries a tag that leads to its entry. -/
theorem tags_submit (hstep : PeekDispatcher.InStep hash maxDepth s.dispatcher)
    {request : ClientRequest} (extraKey : Option ExtraKey) (hdict : request.isDict = true) :
    Tags hash maxDepth
      (Dict.set s.issued (PeekDispatcher.origRid request s.dispatcher.nextIdx)
        (request.tokenIds, s.dispatcher.nextIdx))
      (arriving (s.dispatcher.submit hash request).2 extraKey).rid
      (PeekDispatcher.origRid request s.dispatcher.nextIdx) request.tokenIds
      s.dispatcher.nextIdx := by
  obtain ⟨rank, hrid⟩ := PeekDispatcher.rid_submit hstep.hashed hdict
  refine ⟨⟨rank, ?_⟩, by rw [Dict.lookup_set, if_pos rfl]⟩
  rw [← groupKey_eq hstep]
  unfold arriving
  rw [hrid]
  rfl

/-- A prompt that the trie has is an old one, or the new one. -/
theorem Inv.traced_submit (h : Inv hash maxDepth s) {request : ClientRequest}
    (hnew : PeekDispatcher.origRid request s.dispatcher.nextIdx ∉ Dict.keys s.issued)
    {key : List Token} {i : Nat}
    (hi : i ∈ (s.dispatcher.submit hash request).1.trie.promptsAt key) :
    ∃ rid tokenIds, (Dict.set s.issued (PeekDispatcher.origRid request s.dispatcher.nextIdx)
        (request.tokenIds, s.dispatcher.nextIdx)).lookup rid = some (tokenIds, i) ∧
      tokenIds.take maxDepth = key := by
  obtain ⟨p, hfiled⟩ := h.inStep.filed
  rw [PeekDispatcher.trie_submit, PrefixTrie.promptsAt_insert, hfiled.trieDepth,
    List.mem_append] at hi
  rcases hi with hi | hi
  · obtain ⟨rid, tokenIds, hlook, hkey⟩ := h.traced key i hi
    have hne : PeekDispatcher.origRid request s.dispatcher.nextIdx ≠ rid := by
      rintro rfl
      exact hnew ((Dict.lookup_isSome_iff _ _).mp (by rw [hlook]; rfl))
    refine ⟨rid, tokenIds, ?_, hkey⟩
    rw [Dict.lookup_set, if_neg hne]
    exact hlook
  · by_cases hkey : key = request.tokenIds.take maxDepth
    · rw [if_pos hkey, List.mem_singleton] at hi
      refine ⟨PeekDispatcher.origRid request s.dispatcher.nextIdx, request.tokenIds, ?_, hkey.symm⟩
      rw [hi, Dict.lookup_set, if_pos rfl]
    · rw [if_neg hkey] at hi
      exact absurd hi List.not_mem_nil

/-- After a call to `submit`, the new request can be found, and so can every other one. -/
theorem Pending.submit {d : PeekDispatcher} (hstep : PeekDispatcher.InStep hash maxDepth d)
    {request : ClientRequest} (hdict : request.isDict = true)
    {issued : List (ReqId × List Token × Nat)} {rid : ReqId}
    (h : rid ≠ PeekDispatcher.origRid request d.nextIdx → Pending maxDepth issued d rid) :
    Pending maxDepth
      (Dict.set issued (PeekDispatcher.origRid request d.nextIdx) (request.tokenIds, d.nextIdx))
      (d.submit hash request).1 rid := by
  intro tokenIds i hlook
  obtain ⟨p, hfiled⟩ := hstep.filed
  rw [PeekDispatcher.ridToRemoveInfo_submit hdict, PeekDispatcher.trie_submit,
    PrefixTrie.promptsAt_insert, hfiled.trieDepth, Dict.lookup_set]
  rcases Dict.eq_or_lookup_of_set hlook with ⟨hr, hv⟩ | ⟨hr, hlook⟩
  · obtain ⟨rfl, rfl⟩ := Prod.mk.inj hv
    rw [if_pos hr.symm, if_pos rfl]
    exact ⟨rfl, List.mem_append_right _ List.mem_cons_self⟩
  · obtain ⟨hfind, hi⟩ := h hr tokenIds i hlook
    rw [if_neg (Ne.symm hr)]
    exact ⟨hfind, List.mem_append_left _ hi⟩

theorem Inv.submit (h : Inv hash maxDepth s) {request : ClientRequest}
    (extraKey : Option ExtraKey) (hdict : request.isDict = true)
    (hord : Orderly hash s (.submit request extraKey)) :
    Inv hash maxDepth
      { s with
        dispatcher := (s.dispatcher.submit hash request).1
        inTransit := arriving (s.dispatcher.submit hash request).2 extraKey :: s.inTransit
        issued := Dict.set s.issued (PeekDispatcher.origRid request s.dispatcher.nextIdx)
          (request.tokenIds, s.dispatcher.nextIdx) } := by
  obtain ⟨hnew, hhash⟩ := hord
  have htagsSelf := tags_submit h.inStep extraKey hdict
  set rid := PeekDispatcher.origRid request s.dispatcher.nextIdx with hridDef
  set sent := arriving (s.dispatcher.submit hash request).2 extraKey with hsent
  refine ⟨h.inStep.submit request, h.distinct.set h.index_lt ?_, ?_, ?_, ?_, ?_,
    fun key i hi => h.traced_submit hnew hi⟩
  · intro rid' tokenIds' i hlook heq
    have hsame := hhash _ (Dict.mem_of_lookup hlook)
    simp only [groupKey_eq h.inStep] at hsame
    exact hsame heq
  · intro rid' tokenIds i hlook
    show i < (s.dispatcher.submit hash request).1.nextIdx
    rw [PeekDispatcher.nextIdx_submit]
    rcases Dict.eq_or_lookup_of_set hlook with ⟨-, hv⟩ | ⟨-, hlook⟩
    · rw [(Prod.mk.inj hv).2]
      exact Nat.lt_succ_self _
    · exact Nat.lt_succ_of_lt (h.index_lt _ _ _ hlook)
  · show (origin sent.rid :: (s.ahead ++ s.admitted).map origin).Nodup
    rw [List.nodup_cons]
    refine ⟨fun hmem => ?_, h.apart⟩
    obtain ⟨tagged, hmem, heq⟩ := List.mem_map.mp hmem
    obtain ⟨rid', tokenIds, i, htags⟩ := h.tags tagged hmem
    rw [htags.origin, htagsSelf.origin, Option.some.injEq] at heq
    exact (htags.set hnew (request.tokenIds, s.dispatcher.nextIdx)).2 heq
  · intro tagged hmem
    rcases List.mem_cons.mp (show tagged ∈ sent.rid :: (s.ahead ++ s.admitted) from hmem)
      with rfl | hmem
    · exact ⟨_, _, _, htagsSelf⟩
    · obtain ⟨rid', tokenIds, i, htags⟩ := h.tags tagged hmem
      exact ⟨rid', tokenIds, i, (htags.set hnew _).1⟩
  · intro tagged hmem rid' horigin
    apply Pending.submit h.inStep hdict
    intro hne
    rcases List.mem_cons.mp (show tagged ∈ sent.rid :: s.ahead from hmem) with rfl | hmem
    · rw [htagsSelf.origin, Option.some.injEq] at horigin
      exact absurd horigin.symm hne
    · exact h.pending tagged hmem rid' horigin

/-- Some requests go, and the dispatcher forgets prompts of requests that are not ahead. -/
theorem Inv.of_subperm (h : Inv hash maxDepth s) (hissued : s'.issued = s.issued)
    (hsub : (s'.ahead ++ s'.admitted).Subperm (s.ahead ++ s.admitted))
    (hstep : PeekDispatcher.InStep hash maxDepth s'.dispatcher)
    (hnext : s'.dispatcher.nextIdx = s.dispatcher.nextIdx)
    (htraced : ∀ key i, i ∈ s'.dispatcher.trie.promptsAt key →
      i ∈ s.dispatcher.trie.promptsAt key)
    (hpending : ∀ tagged ∈ s'.ahead, ∀ rid, origin tagged = some rid →
      Pending maxDepth s.issued s'.dispatcher rid) : Inv hash maxDepth s' where
  inStep := hstep
  distinct := by
    rw [hissued]
    exact h.distinct
  index_lt := by
    rw [hissued, hnext]
    exact h.index_lt
  apart := by
    obtain ⟨l, hperm, hl⟩ := hsub
    exact (hperm.map origin).nodup_iff.mp ((hl.map origin).nodup h.apart)
  tags tagged hmem := by
    rw [hissued]
    exact h.tags tagged (hsub.subset hmem)
  pending tagged hmem rid horigin := by
    rw [hissued]
    exact hpending tagged hmem rid horigin
  traced key i hi := by
    rw [hissued]
    exact h.traced key i (htraced key i hi)

theorem Inv.arrive (h : Inv hash maxDepth s) {r : Req} (hr : r ∈ s.inTransit) :
    Inv hash maxDepth
      { s with inTransit := s.inTransit.erase r, waitingQueue := s.waitingQueue ++ [r] } := by
  have hperm : (s.inTransit.erase r ++ (s.waitingQueue ++ [r])).Perm
      (s.inTransit ++ s.waitingQueue) := by
    rw [← List.append_assoc]
    exact (List.perm_append_singleton r _).trans
      ((List.perm_cons_erase hr).append_right s.waitingQueue).symm
  have hahead := hperm.map Req.rid
  refine h.of_subperm rfl (hahead.append_right _).subperm h.inStep rfl (fun _ _ hi => hi) ?_
  intro tagged hmem
  exact h.pending tagged (hahead.mem_iff.mp hmem)

/-! ### Taking a prompt out -/

/-- A removal leaves the other requests findable. -/
theorem Pending.remove {issued : List (ReqId × List Token × Nat)} {d : PeekDispatcher}
    (hdist : Distinct hash maxDepth issued) {rid rid' : ReqId} {tokenIds : List Token} {i : Nat}
    (hlook : issued.lookup rid = some (tokenIds, i)) (hne : rid' ≠ rid)
    (h : Pending maxDepth issued d rid') : Pending maxDepth issued (d.remove tokenIds i) rid' := by
  intro tokenIds' i' hlook'
  obtain ⟨hfind, hi⟩ := h tokenIds' i' hlook'
  have hii : i' ≠ i := by
    rintro rfl
    exact hne (hdist.index _ _ _ _ _ hlook' hlook)
  obtain ⟨_, _, _, heq, -⟩ := PeekDispatcher.remove_cases d tokenIds i
  refine ⟨?_, ?_⟩
  · rw [heq]
    exact hfind
  · rw [PeekDispatcher.trie_remove, PrefixTrie.promptsAt_remove]
    split
    · exact (List.mem_erase_of_ne hii).mpr hi
    · exact hi

/-- What taking requests out leaves: the indices, some of the prompts, and the other requests. -/
structure Shrunk (maxDepth : Nat) (issued : List (ReqId × List Token × Nat))
    (d d' : PeekDispatcher) (out : List (Option ReqId)) : Prop where
  nextIdx : d'.nextIdx = d.nextIdx
  prompts : ∀ key i, i ∈ d'.trie.promptsAt key → i ∈ d.trie.promptsAt key
  pending : ∀ rid, some rid ∉ out → Pending maxDepth issued d rid → Pending maxDepth issued d' rid

theorem Shrunk.refl (maxDepth : Nat) (issued : List (ReqId × List Token × Nat))
    (d : PeekDispatcher) : Shrunk maxDepth issued d d [] where
  nextIdx := rfl
  prompts _ _ h := h
  pending _ _ h := h

theorem Shrunk.trans {issued : List (ReqId × List Token × Nat)} {d d' d'' : PeekDispatcher}
    {rid : Option ReqId} {out : List (Option ReqId)} (h : Shrunk maxDepth issued d d' [rid])
    (h' : Shrunk maxDepth issued d' d'' out) : Shrunk maxDepth issued d d'' (rid :: out) where
  nextIdx := h'.nextIdx.trans h.nextIdx
  prompts key i hi := h.prompts key i (h'.prompts key i hi)
  pending rid' hnot hpend := by
    rw [List.mem_cons, not_or] at hnot
    exact h'.pending rid' hnot.2 (h.pending rid' (mt List.mem_singleton.mp hnot.1) hpend)

theorem shrunk_remove {issued : List (ReqId × List Token × Nat)} (d : PeekDispatcher)
    (hdist : Distinct hash maxDepth issued) {rid : ReqId} {tokenIds : List Token} {i : Nat}
    (hlook : issued.lookup rid = some (tokenIds, i)) :
    Shrunk maxDepth issued d (d.remove tokenIds i) [some rid] := by
  refine ⟨?_, fun key j hj => ?_, fun rid' hnot hpend => ?_⟩
  · obtain ⟨_, _, _, heq, -⟩ := PeekDispatcher.remove_cases d tokenIds i
    rw [heq]
    rfl
  · rw [PeekDispatcher.trie_remove, PrefixTrie.promptsAt_remove] at hj
    split at hj
    · exact List.mem_of_mem_erase hj
    · exact hj
  · refine hpend.remove hdist hlook fun heq => hnot ?_
    rw [heq]
    exact List.mem_singleton_self _

theorem removeScheduledTurn_eq {issued : List (ReqId × List Token × Nat)} {d : PeekDispatcher}
    {r : Req} {rid : ReqId} {tokenIds : List Token} {i : Nat}
    (htags : Tags hash maxDepth issued r.rid rid tokenIds i)
    (hfind : d.ridToRemoveInfo.lookup rid = some (tokenIds, i)) :
    PeekEngine.removeScheduledTurn d r =
      { d with ridToRemoveInfo := Dict.del d.ridToRemoveInfo rid }.remove tokenIds i := by
  obtain ⟨⟨rank, heq⟩, -⟩ := htags
  unfold PeekEngine.removeScheduledTurn
  rw [heq, if_pos (PeekDispatcher.isTagged_peekRid _ _ _), PeekDispatcher.parsePeekRid_peekRid]
  simp only [hfind]

/-- **One request is taken out.** -/
theorem removeScheduledTurn_spec {issued : List (ReqId × List Token × Nat)} {d : PeekDispatcher}
    (hdist : Distinct hash maxDepth issued) (hstep : PeekDispatcher.InStep hash maxDepth d)
    {r : Req} {rid : ReqId} {tokenIds : List Token} {i : Nat}
    (htags : Tags hash maxDepth issued r.rid rid tokenIds i)
    (hpend : Pending maxDepth issued d rid) :
    PeekDispatcher.InStep hash maxDepth (PeekEngine.removeScheduledTurn d r) ∧
      Shrunk maxDepth issued d (PeekEngine.removeScheduledTurn d r) [some rid] := by
  obtain ⟨hfind, hi⟩ := hpend tokenIds i htags.2
  rw [removeScheduledTurn_eq htags hfind]
  set d' := { d with ridToRemoveInfo := Dict.del d.ridToRemoveInfo rid } with hd'
  have hstep' : PeekDispatcher.InStep hash maxDepth d' := by
    obtain ⟨p, hfiled⟩ := hstep.filed
    exact ⟨⟨p, hfiled.ownDepth, hfiled.trieDepth, hfiled.next, hfiled.tidy, hfiled.prompts,
      hfiled.hashes⟩, hstep.exact, hstep.counted, hstep.hashed, hstep.pushed⟩
  have hshrunk := shrunk_remove d' hdist htags.2
  refine ⟨hstep'.remove (Or.inl ?_), hshrunk.nextIdx, hshrunk.prompts, fun rid' hnot hother => ?_⟩
  · unfold PeekDispatcher.groupKey
    rw [hstep'.ownDepth]
    exact hi
  · refine hshrunk.pending rid' hnot fun tokenIds' i' hlook' => ?_
    refine ⟨?_, (hother tokenIds' i' hlook').2⟩
    show (Dict.del d.ridToRemoveInfo rid).lookup rid' = some (tokenIds', i')
    rw [Dict.lookup_del, if_neg fun h => hnot (by rw [h]; exact List.mem_singleton_self _)]
    exact (hother tokenIds' i' hlook').1

/-- **All the scheduled requests are taken out**, and no others. -/
theorem removeScheduled_spec {issued : List (ReqId × List Token × Nat)}
    (hdist : Distinct hash maxDepth issued) (scheduled : List Req) :
    ∀ d : PeekDispatcher, PeekDispatcher.InStep hash maxDepth d →
      (scheduled.map fun r => origin r.rid).Nodup →
      (∀ r ∈ scheduled, ∃ rid tokenIds i, Tags hash maxDepth issued r.rid rid tokenIds i ∧
        Pending maxDepth issued d rid) →
      PeekDispatcher.InStep hash maxDepth (scheduled.foldl PeekEngine.removeScheduledTurn d) ∧
        Shrunk maxDepth issued d (scheduled.foldl PeekEngine.removeScheduledTurn d)
          (scheduled.map fun r => origin r.rid) := by
  induction scheduled with
  | nil =>
      intro d hstep _ _
      exact ⟨hstep, Shrunk.refl maxDepth issued d⟩
  | cons r scheduled ih =>
      intro d hstep hnodup hall
      rw [List.map_cons, List.nodup_cons] at hnodup
      obtain ⟨rid, tokenIds, i, htags, hpend⟩ := hall r List.mem_cons_self
      obtain ⟨hstep', hshrunk⟩ := removeScheduledTurn_spec hdist hstep htags hpend
      rw [← htags.origin] at hshrunk
      obtain ⟨hlast, hrest⟩ := ih _ hstep' hnodup.2 fun r' hr' => by
        obtain ⟨rid', tokenIds', i', htags', hpend'⟩ := hall r' (List.mem_cons_of_mem _ hr')
        refine ⟨rid', tokenIds', i', htags', hshrunk.pending rid' (fun hin => ?_) hpend'⟩
        rw [List.mem_singleton, ← htags'.origin] at hin
        exact hnodup.1 (hin ▸ List.mem_map_of_mem (f := fun r : Req => origin r.rid) hr')
      exact ⟨hlast, hshrunk.trans hrest⟩

/-! ### Every event keeps the invariant -/

/-- A request ahead and an admitted one have different rids. -/
theorem Inv.ahead_ne_admitted (h : Inv hash maxDepth s) {tagged tagged' : ReqId}
    (hahead : tagged ∈ s.ahead) (hadm : tagged' ∈ s.admitted) : origin tagged ≠ origin tagged' := by
  have hapart := h.apart
  rw [List.map_append, List.nodup_append] at hapart
  exact hapart.2.2 _ (List.mem_map_of_mem hahead) _ (List.mem_map_of_mem hadm)

theorem Inv.complete (h : Inv hash maxDepth s) {r : Req} {told : Bool} {tokenIds : List Token}
    {i : Nat} (hr : r ∈ s.running) (hticket : s.ticket r = some (tokenIds, i))
    (hord : Orderly hash s (.complete r told tokenIds i)) :
    Inv hash maxDepth
      { s with
        dispatcher := if told then s.dispatcher.remove tokenIds i else s.dispatcher
        running := s.running.erase r } := by
  have hadm : r.rid ∈ s.admitted := List.mem_map_of_mem hr
  obtain ⟨rid, tokenIds', i', htags⟩ := h.tags r.rid (List.mem_append_right _ hadm)
  unfold ticket at hticket
  rw [htags.origin, Option.bind_some, htags.2, Option.some.injEq] at hticket
  obtain ⟨rfl, rfl⟩ := Prod.mk.inj hticket
  have hsub : (s.ahead ++ (s.running.erase r).map Req.rid).Subperm (s.ahead ++ s.admitted) :=
    ((List.erase_sublist.map Req.rid).append_left s.ahead).subperm
  cases told with
  | false =>
      exact h.of_subperm rfl hsub h.inStep rfl (fun _ _ hi => hi) fun tagged hmem =>
        h.pending tagged hmem
  | true =>
      have hshrunk := shrunk_remove s.dispatcher h.distinct htags.2
      refine h.of_subperm rfl hsub (h.inStep.remove (hord rfl)) hshrunk.nextIdx hshrunk.prompts ?_
      intro tagged hmem rid' horigin
      refine hshrunk.pending rid' (fun hin => ?_) (h.pending tagged hmem rid' horigin)
      rw [List.mem_singleton, ← horigin, ← htags.origin] at hin
      exact h.ahead_ne_admitted hmem hadm hin

/-- Every waiting request is tagged, and its tag parses. -/
theorem Inv.tagsParse (h : Inv hash maxDepth s) :
    (∀ r ∈ s.waitingQueue, isTagged r.rid = true) ∧ PeekEngine.TagsParse s.waitingQueue := by
  have htag : ∀ r ∈ s.waitingQueue, ∃ rank n rid, r.rid = PeekDispatcher.peekRid rank n rid := by
    intro r hr
    have hmem : r.rid ∈ s.ahead := List.mem_map_of_mem (List.mem_append_right _ hr)
    obtain ⟨rid, _, _, ⟨⟨rank, heq⟩, -⟩⟩ := h.tags r.rid (List.mem_append_left _ hmem)
    exact ⟨rank, _, rid, heq⟩
  refine ⟨fun r hr => ?_, fun r hr => ?_⟩
  · obtain ⟨rank, n, rid, heq⟩ := htag r hr
    rw [heq]
    exact PeekDispatcher.isTagged_peekRid rank n rid
  · obtain ⟨rank, n, rid, heq⟩ := htag r (List.mem_of_mem_filter hr)
    unfold PeekEngine.groupKey
    rw [heq, PeekDispatcher.parsePeekRid_peekRid]
    exact Option.some_ne_none _

/-- A cycle reorders the queue. -/
theorem Inv.runAttached_perm (h : Inv hash maxDepth s) (o : Scoring) (cfg : EngineConfig) :
    ((PeekEngine.runAttached o cfg s.cache s.dispatcher s.waitingQueue).2.1.map Req.rid).Perm
      (s.waitingQueue.map Req.rid) := by
  obtain ⟨htag, hparse⟩ := h.tagsParse
  have hrid : ∀ queue : List Req, (queue.map Req.sent).map Req.rid = queue.map Req.rid := by
    intro queue
    rw [List.map_map]
    rfl
  rw [← hrid, ← hrid s.waitingQueue]
  apply List.Perm.map
  show ((PeekEngine.run o cfg s.cache s.waitingQueue).2.2.map Req.sent).Perm _
  unfold PeekEngine.run
  by_cases htags : PeekEngine.hasPeekTags s.waitingQueue
  · rw [if_pos htags]
    have hall : PeekEngine.tagged s.waitingQueue = s.waitingQueue :=
      List.filter_eq_self.mpr htag
    have hsent := PeekEngine.sent_runTagged (o := o) (s := s.cache) hparse
    rw [hall] at hsent
    exact hsent
  · rw [if_neg htags]
    exact PeekEngine.sent_runFull

/-- A request that is taken for scheduled, and does not stay, has the rid of none that is ahead
after the cycle. -/
theorem Inv.scheduled_apart (h : Inv hash maxDepth s) {scored stay left : List Req} {k : Nat}
    (hperm : (scored.map Req.rid).Perm (s.waitingQueue.map Req.rid))
    (hleft : (stay ++ left).Perm scored) (hgone : ∀ r ∈ scored.take k, r ∉ stay) {r : Req}
    (hr : r ∈ s.inTransit ++ stay) :
    origin r.rid ∉ (scored.take k).map fun r => origin r.rid := by
  intro hin
  obtain ⟨r', hr', heq⟩ := List.mem_map.mp hin
  have hscored := List.mem_of_mem_take hr'
  rcases List.mem_append.mp hr with htransit | hstays
  · have hwait : r'.rid ∈ s.waitingQueue.map Req.rid :=
      hperm.subset (List.mem_map_of_mem hscored)
    have hapart := h.apart
    unfold ahead at hapart
    rw [List.map_append, List.map_append, List.map_append, List.nodup_append,
      List.nodup_append] at hapart
    exact hapart.1.2.2 _ (List.mem_map_of_mem (List.mem_map_of_mem htransit)) _
      (List.mem_map_of_mem hwait) heq.symm
  · have hapart : (scored.map fun r => origin r.rid).Nodup := by
      have hmap := hperm.map origin
      rw [List.map_map, List.map_map] at hmap
      exact hmap.symm.nodup h.waiting_apart
    have hsame := List.inj_on_of_nodup_map hapart hscored
      (hleft.subset (List.mem_append_left _ hstays)) heq
    exact hgone r' hr' (hsame ▸ hstays)

theorem Inv.cycle (h : Inv hash maxDepth s) {o : Scoring} {cfg : EngineConfig}
    {stay left : List Req}
    (hleft : (stay ++ left).Perm
      (PeekEngine.runAttached o cfg s.cache s.dispatcher s.waitingQueue).2.1)
    (hord : Orderly hash s (.cycle o cfg stay left)) :
    Inv hash maxDepth
      { s with
        cache := (PeekEngine.runAttached o cfg s.cache s.dispatcher s.waitingQueue).1
        dispatcher := (PeekEngine.runAttached o cfg s.cache s.dispatcher s.waitingQueue).2.2
        waitingQueue := stay
        running := left ++ s.running } := by
  have hperm := h.runAttached_perm o cfg
  set scored := (PeekEngine.runAttached o cfg s.cache s.dispatcher s.waitingQueue).2.1 with hscored
  have hwaiting : (stay.map Req.rid ++ left.map Req.rid).Perm (s.waitingQueue.map Req.rid) := by
    rw [← List.map_append]
    exact (hleft.map Req.rid).trans hperm
  have hsub : ((s.inTransit ++ stay).map Req.rid ++ (left ++ s.running).map Req.rid).Subperm
      (s.ahead ++ s.admitted) := by
    unfold ahead admitted
    rw [List.map_append, List.map_append, List.map_append, List.append_assoc, List.append_assoc,
      ← List.append_assoc (stay.map Req.rid)]
    exact ((hwaiting.append_right _).append_left _).subperm
  have hstay : ∀ tagged ∈ (s.inTransit ++ stay).map Req.rid, tagged ∈ s.ahead := by
    intro tagged hmem
    unfold ahead
    rw [List.map_append, List.mem_append] at hmem ⊢
    exact hmem.imp id fun hin => hwaiting.subset (List.mem_append_left _ hin)
  have hapart : (scored.map fun r => origin r.rid).Nodup := by
    have hmap := hperm.map origin
    rw [List.map_map, List.map_map] at hmap
    exact hmap.symm.nodup h.waiting_apart
  unfold PeekEngine.runAttached
  simp only
  split
  · obtain ⟨hstep, hshrunk⟩ := removeScheduled_spec h.distinct (scored.take PeekEngine.batchEst)
      s.dispatcher h.inStep (((List.take_sublist _ _).map _).nodup hapart) fun r hr => by
        have hmem : r.rid ∈ s.ahead := by
          unfold ahead
          rw [List.map_append]
          exact List.mem_append_right _
            (hperm.subset (List.mem_map_of_mem (List.mem_of_mem_take hr)))
        obtain ⟨rid, tokenIds, i, htags⟩ := h.tags r.rid (List.mem_append_left _ hmem)
        exact ⟨rid, tokenIds, i, htags, h.pending r.rid hmem rid htags.origin⟩
    refine h.of_subperm rfl hsub hstep hshrunk.nextIdx hshrunk.prompts ?_
    intro tagged hmem rid horigin
    refine hshrunk.pending rid ?_ (h.pending tagged (hstay tagged hmem) rid horigin)
    obtain ⟨r, hr, rfl⟩ := List.mem_map.mp hmem
    rw [← horigin]
    exact h.scheduled_apart hperm hleft hord hr
  · refine h.of_subperm rfl hsub h.inStep rfl (fun _ _ hi => hi) ?_
    intro tagged hmem
    exact h.pending tagged (hstay tagged hmem)

/-- **One event.** -/
theorem Inv.step (h : Inv hash maxDepth s) {e : Event} (hstep : Step hash s e s')
    (hord : Orderly hash s e) : Inv hash maxDepth s' := by
  cases hstep with
  | submit request extraKey hdict => exact h.submit extraKey hdict hord
  | arrive r hr => exact h.arrive hr
  | cycle o cfg stay left hleft => exact h.cycle hleft hord
  | complete r told tokenIds i hr hticket => exact h.complete hr hticket hord

/-- An orderly run, step by step. -/
def Runs (hash : List Token → Nat) : ServedRun → ServedRun → Prop :=
  Relation.ReflTransGen fun s s' => ∃ e, Step hash s e s' ∧ Orderly hash s e

/--
**In every orderly run the counts cover the queue**: whatever is submitted, admitted and
completed in whatever order, the server reads for no group fewer pending requests than wait.
-/
theorem clientPending_covers (hash : List Token → Nat) (maxDepth : Nat) (cache : PeekCache)
    (s : ServedRun) (hrun : Runs hash (new maxDepth cache) s) : Covers s := by
  have hinv : Inv hash maxDepth s := by
    induction hrun with
    | refl => exact new_inv hash maxDepth cache
    | tail _ hstep ih =>
        obtain ⟨e, hstep, hord⟩ := hstep
        exact ih.step hstep hord
  exact hinv.covers

/-- One request is submitted, and arrives. -/
def oneArrived : ServedRun :=
  let (dispatcher, sent) := (PeekDispatcher.new 128).submit (fun _ => 7)
    (PeekDispatcher.plainRequest [1, 2])
  { new 128 ⟨RadixCache.new 1 false, none⟩ with
    dispatcher := dispatcher, waitingQueue := [arriving sent none]
    issued := [("req-0", [1, 2], 0)] }

/-- It is admitted in the next cycle, or it is not. -/
def oneCycle (taken : Bool) : ServedRun :=
  let (cache, scored, dispatcher) := PeekEngine.runAttached OfflineScheduler.asGiven ⟨32, 32⟩
    oneArrived.cache oneArrived.dispatcher oneArrived.waitingQueue
  { oneArrived with
    cache := cache, dispatcher := dispatcher
    waitingQueue := if taken then [] else scored
    running := (if taken then scored else []) ++ oneArrived.running }

theorem oneArrived_runs :
    Runs (fun _ => 7) (new 128 ⟨RadixCache.new 1 false, none⟩) oneArrived := by
  set sent := arriving ((PeekDispatcher.new 128).submit (fun _ => 7)
    (PeekDispatcher.plainRequest [1, 2])).2 none with hsent
  have hsubmit : Step (fun _ => 7) (new 128 ⟨RadixCache.new 1 false, none⟩)
      (.submit (PeekDispatcher.plainRequest [1, 2]) none)
      { oneArrived with inTransit := [sent], waitingQueue := [] } := .submit _ _ _ rfl
  have harrive : Step (fun _ => 7) { oneArrived with inTransit := [sent], waitingQueue := [] }
      (.arrive sent) { oneArrived with inTransit := [sent].erase sent } :=
    .arrive _ _ List.mem_cons_self
  rw [List.erase_cons_head] at harrive
  refine .head ⟨_, hsubmit, by decide, fun e he => ?_⟩ (.single ⟨_, harrive, trivial⟩)
  exact absurd he List.not_mem_nil

/-- While the request waits, and after it is admitted. -/
theorem clientPending_covers_admitted :
    oneArrived.waitingQueue.length = 1 ∧ Covers oneArrived ∧ Covers (oneCycle true) := by
  have hruns : Runs (fun _ => 7) (new 128 ⟨RadixCache.new 1 false, none⟩) (oneCycle true) :=
    oneArrived_runs.tail
      ⟨.cycle OfflineScheduler.asGiven ⟨32, 32⟩ [] _, .cycle _ _ _ [] _ (List.Perm.refl _),
        fun _ _ => List.not_mem_nil⟩
  exact ⟨rfl, clientPending_covers _ _ _ _ oneArrived_runs, clientPending_covers _ _ _ _ hruns⟩

/-- It is not admitted, and the client's count is gone. -/
theorem waiting_not_covered :
    Relation.ReflTransGen (fun s s' => ∃ e, Step (fun _ => 7) s e s')
      (new 128 ⟨RadixCache.new 1 false, none⟩) (oneCycle false) ∧
    (oneCycle false).waitingQueue.map Req.rid = ["peek:0:7:req-0"] ∧
    (oneCycle false).dispatcher.stateStore.clientPending = [] ∧
    ¬ Covers (oneCycle false) := by
  refine ⟨?_, by decide, by decide, fun hcovers => ?_⟩
  · have harrived : Relation.ReflTransGen (fun s s' => ∃ e, Step (fun _ => 7) s e s')
        (new 128 ⟨RadixCache.new 1 false, none⟩) oneArrived :=
      oneArrived_runs.lift id fun _ _ ⟨e, hstep, _⟩ => ⟨e, hstep⟩
    exact harrived.tail ⟨.cycle OfflineScheduler.asGiven ⟨32, 32⟩ _ [],
      .cycle _ _ _ _ [] (List.append_nil _ ▸ List.Perm.refl _)⟩
  · have hseven := hcovers 7
    revert hseven
    decide

end ServedRun

end Peek
