/-
The client's dispatcher (`PeekDispatcher` in `python/peek/offline/reorder.py`).

Every request goes into a trie of pending prompts, is ranked among the groups the trie
knows, tagged, and sent.  How many prompts of a group are pending is counted apart from the
trie, and pushed to the server whenever it may have changed.

`hash(key) & 0xFFFFFFFF` is a parameter, `hash`.
-/
import Peek.Offline.PrefixTrie
import Peek.Sglang.SchedulePolicy

namespace Peek

/-- What client and server exchange: pending counts, by the hash of the group key. -/
structure CacheStateStore where
  clientPending : List (Nat × Int)
  deriving DecidableEq

/-- A request as the client has it; only a `dict` is tagged. -/
structure ClientRequest where
  isDict : Bool
  tokenIds : List Token
  id : Option ReqId
  rid : Option ReqId
  peekGroupOrder : Option Nat
  peekGroupKey : Option Nat
  deriving DecidableEq

structure PeekDispatcher where
  maxDepth : Nat
  trie : PrefixTrie
  nextIdx : Nat
  /-- Pending count per group key. -/
  groupCount : List (List Token × Int)
  groupHashes : List (List Token × Nat)
  /-- DFS-ordered group keys. -/
  dfsKeys : List (List Token)
  structureDirty : Bool
  stateStore : CacheStateStore
  /-- Token ids and prompt index of a request, for the server to remove it. -/
  ridToRemoveInfo : List (ReqId × List Token × Nat)

namespace PeekDispatcher

def new (maxDepth : Nat) : PeekDispatcher :=
  { maxDepth := maxDepth, trie := PrefixTrie.new maxDepth, nextIdx := 0, groupCount := []
    groupHashes := [], dfsKeys := [], structureDirty := false, stateStore := ⟨[]⟩
    ridToRemoveInfo := [] }

/-- `_push_pending_to_server`; every key has a hash (`Filed.hashes`). -/
def pushPendingToServer (d : PeekDispatcher) : PeekDispatcher :=
  { d with
    stateStore :=
      { clientPending :=
          Dict.ofList (fun e => (d.groupHashes.lookup e.1).getD 0) (·.2) d.groupCount } }

def groupKey (d : PeekDispatcher) (tokenIds : List Token) : List Token := tokenIds.take d.maxDepth

/-- `request.get("id", request.get("rid", f"req-{idx}"))` -/
def origRid (request : ClientRequest) (idx : Nat) : ReqId :=
  request.id.getD (request.rid.getD s!"req-{idx}")

/-- `f"peek:{rank}:{group_key_hash}:{orig_rid}"` -/
def peekRid (rank groupKeyHash : Nat) (origRid : ReqId) : ReqId :=
  s!"peek:{rank}:{groupKeyHash}:{origRid}"

/-- The groups, the largest first; groups of one size stay in the order of the walk. -/
def rankedKeys (groupCount : List (List Token × Int)) (dfsKeys : List (List Token)) :
    List (List Token) :=
  dfsKeys.insertionSort fun x y => (groupCount.lookup y).getD 0 ≤ (groupCount.lookup x).getD 0

variable (hash : List Token → Nat)

/-- Insert into the trie, rank, and tag; returns the request that is sent. -/
def submit (d : PeekDispatcher) (request : ClientRequest) : PeekDispatcher × ClientRequest :=
  let idx := d.nextIdx
  let tokenIds := request.tokenIds
  let key := d.groupKey tokenIds
  let trie := d.trie.insert tokenIds idx
  let isNewGroup := (d.groupCount.lookup key).isNone
  let groupCount := Dict.set d.groupCount key ((d.groupCount.lookup key).getD 0 + 1)
  let groupHashes :=
    if (d.groupHashes.lookup key).isNone then Dict.set d.groupHashes key (hash key)
    else d.groupHashes
  let stale := isNewGroup ∨ d.structureDirty
  let dfsKeys := if stale then trie.dfsGroupKeys true else d.dfsKeys
  let rankMap := Dict.ofList (·.1) (·.2) (rankedKeys groupCount dfsKeys).zipIdx
  let rank := (rankMap.lookup key).getD 0
  let groupKeyHash := (groupHashes.lookup key).getD 0
  let d :=
    { d with
      trie := trie, nextIdx := idx + 1, groupCount := groupCount, groupHashes := groupHashes
      dfsKeys := dfsKeys, structureDirty := if stale then false else d.structureDirty }
  if request.isDict then
    let origRid := origRid request idx
    let request :=
      { request with
        rid := some (peekRid rank groupKeyHash origRid)
        peekGroupOrder := some rank, peekGroupKey := some groupKeyHash }
    let d := { d with ridToRemoveInfo := Dict.set d.ridToRemoveInfo origRid (tokenIds, idx) }
    (d.pushPendingToServer, request)
  else (d.pushPendingToServer, request)

/-- Remove a scheduled request from the trie and update the counts. -/
def remove (d : PeekDispatcher) (tokenIds : List Token) (promptIndex : Nat) : PeekDispatcher :=
  let key := d.groupKey tokenIds
  let d := { d with trie := (d.trie.remove tokenIds promptIndex).2 }
  let d :=
    match d.groupCount.lookup key with
    | none => d
    | some count =>
        let groupCount := Dict.set d.groupCount key (count - 1)
        if count - 1 ≤ 0 then
          { d with
            groupCount := Dict.del groupCount key, groupHashes := Dict.del d.groupHashes key
            structureDirty := true }
        else { d with groupCount := groupCount }
  d.pushPendingToServer

/-! ### Runs -/

/-- The calls a client and a server make. -/
inductive Call where
  | submit (request : ClientRequest)
  | remove (tokenIds : List Token) (promptIndex : Nat)
  deriving DecidableEq

def step (d : PeekDispatcher) : Call → PeekDispatcher
  | .submit request => (d.submit hash request).1
  | .remove tokenIds promptIndex => d.remove tokenIds promptIndex

/-- A new dispatcher after a run of calls. -/
def run (maxDepth : Nat) (calls : List Call) : PeekDispatcher :=
  calls.foldl (step hash) (new maxDepth)

theorem run_concat (maxDepth : Nat) (calls : List Call) (call : Call) :
    run hash maxDepth (calls ++ [call]) = (run hash maxDepth calls).step hash call := by
  unfold run
  rw [List.foldl_append]
  rfl

/-! ### What the trie is for -/

/-- The prompts that were submitted and not removed, under their keys. -/
structure Prompts where
  filed : List (List Token × Nat)
  next : Nat

namespace Prompts

def step (maxDepth : Nat) (p : Prompts) : Call → Prompts
  | .submit request =>
      { filed := p.filed ++ [(request.tokenIds.take maxDepth, p.next)], next := p.next + 1 }
  | .remove tokenIds promptIndex =>
      { p with filed := p.filed.erase (tokenIds.take maxDepth, promptIndex) }

def run (maxDepth : Nat) (calls : List Call) : Prompts :=
  calls.foldl (step maxDepth) { filed := [], next := 0 }

theorem run_concat (maxDepth : Nat) (calls : List Call) (call : Call) :
    run maxDepth (calls ++ [call]) = (run maxDepth calls).step maxDepth call := by
  unfold run
  rw [List.foldl_append]
  rfl

/-- The prompts under `key`, the oldest first. -/
def promptsAt (p : Prompts) (key : List Token) : List Nat :=
  (p.filed.filter fun e => e.1 = key).map (·.2)

theorem promptsAt_submit (maxDepth : Nat) (p : Prompts) (request : ClientRequest)
    (key : List Token) : (p.step maxDepth (.submit request)).promptsAt key =
      p.promptsAt key ++ if key = request.tokenIds.take maxDepth then [p.next] else [] := by
  unfold promptsAt step
  rw [List.filter_append, List.map_append]
  congr 1
  by_cases h : request.tokenIds.take maxDepth = key
  · rw [if_pos h.symm, List.filter_cons_of_pos (by simpa using h)]
    rfl
  · rw [if_neg (Ne.symm h), List.filter_cons_of_neg (by simpa using h)]
    rfl

theorem promptsAt_remove (maxDepth : Nat) (p : Prompts) (tokenIds : List Token)
    (promptIndex : Nat) (key : List Token) :
    (p.step maxDepth (.remove tokenIds promptIndex)).promptsAt key =
      if key = tokenIds.take maxDepth then (p.promptsAt key).erase promptIndex
      else p.promptsAt key := by
  unfold promptsAt step
  simp only
  generalize tokenIds.take maxDepth = k
  induction p.filed with
  | nil => exact (ite_self []).symm
  | cons e filed ih =>
      by_cases he : e = (k, promptIndex)
      · subst he
        rw [List.erase_cons_head]
        by_cases hk : key = k
        · rw [if_pos hk, List.filter_cons_of_pos (by simpa using hk.symm), List.map_cons,
            List.erase_cons_head]
        · rw [if_neg hk, List.filter_cons_of_neg (by simpa using Ne.symm hk)]
      · rw [List.erase_cons_tail (by simpa using he)]
        by_cases hk' : e.1 = key
        · rw [List.filter_cons_of_pos (by simpa using hk'), List.map_cons, ih,
            List.filter_cons_of_pos (by simpa using hk'), List.map_cons]
          by_cases hk : key = k
          · have hi : e.2 ≠ promptIndex := fun hi => he (Prod.ext (hk'.trans hk) hi)
            rw [if_pos hk, if_pos hk, List.erase_cons_tail (by simpa using hi)]
          · rw [if_neg hk, if_neg hk]
        · rw [List.filter_cons_of_neg (by simpa using hk'), ih,
            List.filter_cons_of_neg (by simpa using hk')]

theorem mem_promptsAt (p : Prompts) (key : List Token) (promptIndex : Nat) :
    promptIndex ∈ p.promptsAt key ↔ (key, promptIndex) ∈ p.filed := by
  unfold promptsAt
  rw [List.mem_map]
  constructor
  · intro h
    obtain ⟨e, he, rfl⟩ := h
    rw [List.mem_filter, decide_eq_true_eq] at he
    rw [← he.2]
    exact he.1
  · intro h
    exact ⟨_, List.mem_filter.mpr ⟨h, decide_eq_true rfl⟩, rfl⟩

end Prompts

variable {hash : List Token → Nat} {d : PeekDispatcher} {p : Prompts} {maxDepth : Nat}

/-- The trie holds the prompts, and every counted group has a hash.  This holds in any run. -/
structure Filed (maxDepth : Nat) (d : PeekDispatcher) (p : Prompts) : Prop where
  ownDepth : d.maxDepth = maxDepth
  trieDepth : d.trie.maxDepth = maxDepth
  next : d.nextIdx = p.next
  tidy : d.trie.root.Tidy
  prompts : ∀ key, d.trie.promptsAt key = p.promptsAt key
  hashes : ∀ key, key ∈ Dict.keys d.groupCount ↔ key ∈ Dict.keys d.groupHashes

theorem filed_new (maxDepth : Nat) : Filed maxDepth (new maxDepth) ⟨[], 0⟩ where
  ownDepth := rfl
  trieDepth := rfl
  next := rfl
  tidy := TrieNode.tidy_new
  prompts key := TrieNode.promptsAt_new key
  hashes _ := Iff.rfl

section

variable (d) (request : ClientRequest) (tokenIds : List Token) (promptIndex : Nat)

theorem trie_submit :
    (d.submit hash request).1.trie = d.trie.insert request.tokenIds d.nextIdx := by
  unfold submit
  simp only
  split <;> rfl

theorem groupCount_submit : (d.submit hash request).1.groupCount =
    Dict.set d.groupCount (d.groupKey request.tokenIds)
      ((d.groupCount.lookup (d.groupKey request.tokenIds)).getD 0 + 1) := by
  unfold submit
  simp only
  split <;> rfl

theorem groupHashes_submit : (d.submit hash request).1.groupHashes =
    if (d.groupHashes.lookup (d.groupKey request.tokenIds)).isNone then
      Dict.set d.groupHashes (d.groupKey request.tokenIds) (hash (d.groupKey request.tokenIds))
    else d.groupHashes := by
  unfold submit
  simp only
  split <;> rfl

theorem nextIdx_submit : (d.submit hash request).1.nextIdx = d.nextIdx + 1 := by
  unfold submit
  simp only
  split <;> rfl

theorem maxDepth_submit : (d.submit hash request).1.maxDepth = d.maxDepth := by
  unfold submit
  simp only
  split <;> rfl

/-- What a removal writes: the group is counted down, or forgotten, or not counted at all. -/
theorem remove_cases : ∃ groupCount groupHashes dirty,
    d.remove tokenIds promptIndex =
      { d with
        trie := (d.trie.remove tokenIds promptIndex).2, groupCount := groupCount
        groupHashes := groupHashes, structureDirty := dirty }.pushPendingToServer ∧
    (d.groupCount.lookup (d.groupKey tokenIds) = none ∧ groupCount = d.groupCount ∧
        groupHashes = d.groupHashes ∨
      ∃ count, d.groupCount.lookup (d.groupKey tokenIds) = some count ∧
        (count - 1 ≤ 0 ∧
            groupCount = Dict.del (Dict.set d.groupCount (d.groupKey tokenIds) (count - 1))
              (d.groupKey tokenIds) ∧
            groupHashes = Dict.del d.groupHashes (d.groupKey tokenIds) ∨
          ¬ count - 1 ≤ 0 ∧
            groupCount = Dict.set d.groupCount (d.groupKey tokenIds) (count - 1) ∧
            groupHashes = d.groupHashes)) := by
  unfold remove
  simp only
  cases hc : d.groupCount.lookup (d.groupKey tokenIds) with
  | none => exact ⟨_, _, _, rfl, Or.inl ⟨rfl, rfl, rfl⟩⟩
  | some count =>
      simp only
      by_cases hle : count - 1 ≤ 0
      · rw [if_pos hle]
        exact ⟨_, _, _, rfl, Or.inr ⟨count, rfl, Or.inl ⟨hle, rfl, rfl⟩⟩⟩
      · rw [if_neg hle]
        exact ⟨_, _, _, rfl, Or.inr ⟨count, rfl, Or.inr ⟨hle, rfl, rfl⟩⟩⟩

theorem trie_remove :
    (d.remove tokenIds promptIndex).trie = (d.trie.remove tokenIds promptIndex).2 := by
  obtain ⟨_, _, _, h, -⟩ := remove_cases d tokenIds promptIndex
  rw [h]
  rfl

/-- What `remove` writes: one count less, and no entry where none is left. -/
theorem lookup_groupCount_remove (key : List Token) :
    (d.remove tokenIds promptIndex).groupCount.lookup key =
      if d.groupKey tokenIds = key then
        (d.groupCount.lookup key).bind fun count =>
          if count - 1 ≤ 0 then none else some (count - 1)
      else d.groupCount.lookup key := by
  obtain ⟨groupCount, groupHashes, dirty, h, hcases⟩ := remove_cases d tokenIds promptIndex
  rw [h]
  show groupCount.lookup key = _
  by_cases hk : d.groupKey tokenIds = key
  · rw [if_pos hk]
    rw [hk] at hcases
    rcases hcases with ⟨hc, rfl, -⟩ | ⟨count, hc, ⟨hle, rfl, -⟩ | ⟨hle, rfl, -⟩⟩
    · rw [hc]
      rfl
    · rw [hc, Dict.lookup_del, if_pos rfl, Option.bind_some, if_pos hle]
    · rw [hc, Dict.lookup_set, if_pos rfl, Option.bind_some, if_neg hle]
  · rw [if_neg hk]
    rcases hcases with ⟨-, rfl, -⟩ | ⟨count, -, ⟨-, rfl, -⟩ | ⟨-, rfl, -⟩⟩
    · rfl
    · rw [Dict.lookup_del, if_neg hk, Dict.lookup_set, if_neg hk]
    · rw [Dict.lookup_set, if_neg hk]

end

/-- A group has an entry just when it is counted. -/
theorem mem_groupCount_iff (key : List Token) :
    key ∈ Dict.keys d.groupCount ↔ d.groupCount.lookup key ≠ none := by
  rw [← Dict.lookup_isSome_iff, Option.isSome_iff_ne_none]

theorem Filed.submit (h : Filed maxDepth d p) (request : ClientRequest) :
    Filed maxDepth (d.submit hash request).1 (p.step maxDepth (.submit request)) where
  ownDepth := (maxDepth_submit d request).trans h.ownDepth
  trieDepth := by
    rw [trie_submit]
    exact h.trieDepth
  next := by
    rw [nextIdx_submit, h.next]
    rfl
  tidy := by
    rw [trie_submit]
    exact PrefixTrie.tidy_insert h.tidy _ _
  prompts key := by
    rw [trie_submit, PrefixTrie.promptsAt_insert, Prompts.promptsAt_submit, h.prompts, h.trieDepth,
      h.next]
  hashes key := by
    rw [groupCount_submit, groupHashes_submit, Dict.mem_keys_set, h.hashes]
    by_cases hk : d.groupKey request.tokenIds ∈ Dict.keys d.groupHashes
    · rw [if_neg (by rw [Option.isNone_iff_eq_none, Dict.lookup_eq_none_iff]; exact not_not.mpr hk)]
      exact or_iff_left_of_imp fun heq => heq ▸ hk
    · rw [if_pos (by rw [Option.isNone_iff_eq_none, Dict.lookup_eq_none_iff]; exact hk),
        Dict.mem_keys_set]

theorem Filed.remove (h : Filed maxDepth d p) (tokenIds : List Token) (promptIndex : Nat) :
    Filed maxDepth (d.remove tokenIds promptIndex)
      (p.step maxDepth (.remove tokenIds promptIndex)) := by
  obtain ⟨groupCount, groupHashes, dirty, heq, hcases⟩ := remove_cases d tokenIds promptIndex
  refine ⟨?_, ?_, ?_, ?_, fun key => ?_, fun key => ?_⟩
  · rw [heq]
    exact h.ownDepth
  · rw [trie_remove, PrefixTrie.maxDepth_remove]
    exact h.trieDepth
  · rw [heq]
    exact h.next
  · rw [trie_remove]
    exact PrefixTrie.tidy_remove h.tidy _ _
  · rw [trie_remove, PrefixTrie.promptsAt_remove, Prompts.promptsAt_remove, h.prompts, h.trieDepth]
  · rw [heq]
    show key ∈ Dict.keys groupCount ↔ key ∈ Dict.keys groupHashes
    rcases hcases with ⟨-, rfl, rfl⟩ | ⟨count, hc, ⟨-, rfl, rfl⟩ | ⟨-, rfl, rfl⟩⟩
    · exact h.hashes key
    · rw [Dict.mem_keys_del, Dict.mem_keys_del, Dict.mem_keys_set, h.hashes]
      exact and_congr_left fun hne => or_iff_left hne
    · have hk : d.groupKey tokenIds ∈ Dict.keys d.groupCount :=
        (mem_groupCount_iff _).mpr (by rw [hc]; exact Option.some_ne_none count)
      rw [Dict.mem_keys_set, ← h.hashes]
      exact or_iff_left_of_imp fun heq => heq ▸ hk

/-- **The trie holds what was submitted and not removed**, after any run of calls. -/
theorem run_filed (maxDepth : Nat) (calls : List Call) :
    Filed maxDepth (run hash maxDepth calls) (Prompts.run maxDepth calls) := by
  induction calls using List.reverseRecOn with
  | nil => exact filed_new maxDepth
  | append_singleton calls call ih =>
      rw [run_concat, Prompts.run_concat]
      cases call with
      | submit request => exact ih.submit request
      | remove tokenIds promptIndex => exact ih.remove tokenIds promptIndex

/-! ### The counts -/

/-- The counts, the trie and the hashes speak of the same groups. -/
structure Booked (d : PeekDispatcher) : Prop where
  count : ∀ key count, d.groupCount.lookup key = some count →
    count = (d.trie.promptsAt key).length
  groups : ∀ key, key ∈ Dict.keys d.groupCount ↔ key ∈ d.trie.dfsGroupKeys true
  hashes : ∀ key, key ∈ Dict.keys d.groupCount ↔ key ∈ Dict.keys d.groupHashes

/-- The counts are the numbers of prompts, and no group is counted that has none. -/
def Exact (d : PeekDispatcher) : Prop :=
  ∀ key, d.groupCount.lookup key =
    if d.trie.promptsAt key = [] then none else some ((d.trie.promptsAt key).length : Int)

theorem Filed.booked_iff (h : Filed maxDepth d p) : d.Booked ↔ d.Exact := by
  constructor
  · intro hb key
    have hmem : d.groupCount.lookup key ≠ none ↔ d.trie.promptsAt key ≠ [] := by
      rw [← mem_groupCount_iff, hb.groups, PrefixTrie.mem_dfsGroupKeys_iff h.tidy]
    cases hc : d.groupCount.lookup key with
    | none => rw [if_pos (not_not.mp fun hne => hmem.mpr hne hc)]
    | some count =>
        rw [if_neg (hmem.mp (by rw [hc]; exact Option.some_ne_none count)), hb.count key count hc]
  · intro he
    refine ⟨fun key count hc => ?_, fun key => ?_, h.hashes⟩
    · rw [he key] at hc
      by_cases hnil : d.trie.promptsAt key = []
      · rw [if_pos hnil] at hc
        simp at hc
      · rw [if_neg hnil, Option.some.injEq] at hc
        exact hc.symm
    · rw [mem_groupCount_iff, PrefixTrie.mem_dfsGroupKeys_iff h.tidy, he key]
      by_cases hnil : d.trie.promptsAt key = []
      · rw [if_pos hnil]
        exact iff_of_false (fun hne => hne rfl) fun hne => hne hnil
      · rw [if_neg hnil]
        exact iff_of_true (Option.some_ne_none _) hnil

theorem Exact.submit (he : d.Exact) (h : Filed maxDepth d p) (request : ClientRequest) :
    (d.submit hash request).1.Exact := by
  intro key
  have hkey : d.groupKey request.tokenIds = request.tokenIds.take d.trie.maxDepth := by
    unfold groupKey
    rw [h.ownDepth, h.trieDepth]
  rw [groupCount_submit, Dict.lookup_set, trie_submit, PrefixTrie.promptsAt_insert, ← hkey]
  by_cases hk : d.groupKey request.tokenIds = key
  · rw [if_pos hk, if_pos hk.symm, if_neg (by simp), hk, he key, List.length_append]
    by_cases hnil : d.trie.promptsAt key = []
    · rw [if_pos hnil, hnil]
      rfl
    · rw [if_neg hnil]
      rfl
  · rw [if_neg hk, if_neg (Ne.symm hk), List.append_nil]
    exact he key

/-- Removing a prompt that is there takes one off its count. -/
theorem Exact.remove (he : d.Exact) (h : Filed maxDepth d p) {tokenIds : List Token}
    {promptIndex : Nat} (hmem : promptIndex ∈ d.trie.promptsAt (d.groupKey tokenIds)) :
    (d.remove tokenIds promptIndex).Exact := by
  intro key
  have hkey : d.groupKey tokenIds = tokenIds.take d.trie.maxDepth := by
    unfold groupKey
    rw [h.ownDepth, h.trieDepth]
  rw [lookup_groupCount_remove, trie_remove, PrefixTrie.promptsAt_remove, ← hkey]
  by_cases hk : d.groupKey tokenIds = key
  · rw [hk] at hmem
    have hlen := List.length_erase_of_mem hmem
    have hpos : 0 < (d.trie.promptsAt key).length := List.length_pos_of_mem hmem
    rw [if_pos hk, if_pos hk.symm, he key, if_neg (List.ne_nil_of_mem hmem), Option.bind_some]
    by_cases hlast : (d.trie.promptsAt key).erase promptIndex = []
    · rw [if_pos hlast]
      rw [hlast, List.length_nil] at hlen
      rw [if_pos (by omega)]
    · have := List.length_pos_iff.mpr hlast
      rw [if_neg hlast, if_neg (by omega), hlen, Option.some.injEq]
      omega
  · rw [if_neg hk, if_neg (Ne.symm hk)]
    exact he key

/-- The removal finds its prompt, or a group without any. -/
def Harmless (maxDepth : Nat) (p : Prompts) (tokenIds : List Token) (promptIndex : Nat) : Prop :=
  (tokenIds.take maxDepth, promptIndex) ∈ p.filed ∨ ∀ e ∈ p.filed, e.1 ≠ tokenIds.take maxDepth

theorem Filed.mem_iff (h : Filed maxDepth d p) (tokenIds : List Token) (promptIndex : Nat) :
    promptIndex ∈ d.trie.promptsAt (d.groupKey tokenIds) ↔
      (tokenIds.take maxDepth, promptIndex) ∈ p.filed := by
  unfold groupKey
  rw [h.prompts, Prompts.mem_promptsAt, h.ownDepth]

theorem Filed.empty_iff (h : Filed maxDepth d p) (tokenIds : List Token) :
    d.trie.promptsAt (d.groupKey tokenIds) = [] ↔ ∀ e ∈ p.filed, e.1 ≠ tokenIds.take maxDepth := by
  rw [List.eq_nil_iff_forall_not_mem]
  constructor
  · intro hnone e he hkey
    refine hnone e.2 ((h.mem_iff tokenIds e.2).mpr ?_)
    rw [← hkey]
    exact he
  · intro hnone i hi
    exact hnone _ ((h.mem_iff tokenIds i).mp hi) rfl

/-- Removing from a group without prompts changes neither the trie nor the counts. -/
theorem Exact.remove_of_empty (he : d.Exact) (h : Filed maxDepth d p) {tokenIds : List Token}
    (promptIndex : Nat) (hnil : d.trie.promptsAt (d.groupKey tokenIds) = []) :
    (d.remove tokenIds promptIndex).trie = d.trie ∧
      (d.remove tokenIds promptIndex).groupCount = d.groupCount := by
  constructor
  · rw [trie_remove, PrefixTrie.remove_of_absent]
    rw [h.trieDepth, ← h.ownDepth]
    show promptIndex ∉ d.trie.promptsAt (d.groupKey tokenIds)
    rw [hnil]
    exact List.not_mem_nil
  · have hc : d.groupCount.lookup (d.groupKey tokenIds) = none := by
      rw [he, if_pos hnil]
    unfold PeekDispatcher.remove
    simp only [hc]
    rfl

theorem Exact.of_same {d' : PeekDispatcher} (he : d.Exact)
    (h : d'.trie = d.trie ∧ d'.groupCount = d.groupCount) : d'.Exact := by
  intro key
  rw [h.1, h.2]
  exact he key

/-- **As long as all removals are harmless the counts are exact.** -/
theorem run_exact {calls : List Call}
    (hgood : ∀ pre tokenIds promptIndex post, calls = pre ++ .remove tokenIds promptIndex :: post →
      Harmless maxDepth (Prompts.run maxDepth pre) tokenIds promptIndex) :
    (run hash maxDepth calls).Exact := by
  induction calls using List.reverseRecOn with
  | nil => intro key; exact (if_pos (TrieNode.promptsAt_new key)).symm
  | append_singleton calls call ih =>
      have ih := ih fun pre tokenIds promptIndex post hsplit =>
        hgood pre tokenIds promptIndex (post ++ [call]) (by rw [hsplit]; simp)
      have hfiled := @run_filed hash maxDepth calls
      rw [run_concat]
      cases call with
      | submit request => exact ih.submit hfiled request
      | remove tokenIds promptIndex =>
          rcases hgood calls tokenIds promptIndex [] rfl with hmem | hnone
          · exact ih.remove hfiled ((hfiled.mem_iff tokenIds promptIndex).mpr hmem)
          · exact ih.of_same (ih.remove_of_empty hfiled promptIndex
              ((hfiled.empty_iff tokenIds).mpr hnone))

/--
**When the books are right.**  After every call of a run the counts, the trie and the hashes
agree, and no removal of an absent prompt changes the trie or a count: this holds of a run if
and only if every removal in it finds its prompt, or a group none of whose prompts is pending.
-/
theorem run_booked_iff (hash : List Token → Nat) (maxDepth : Nat) (calls : List Call) :
    (∀ pre call post, calls = pre ++ call :: post →
      ((run hash maxDepth pre).step hash call).Booked ∧
      ∀ tokenIds promptIndex, call = .remove tokenIds promptIndex →
        promptIndex ∉ (run hash maxDepth pre).trie.promptsAt (tokenIds.take maxDepth) →
        ((run hash maxDepth pre).step hash call).trie = (run hash maxDepth pre).trie ∧
        ((run hash maxDepth pre).step hash call).groupCount = (run hash maxDepth pre).groupCount) ↔
    ∀ pre tokenIds promptIndex post, calls = pre ++ .remove tokenIds promptIndex :: post →
      Harmless maxDepth (Prompts.run maxDepth pre) tokenIds promptIndex := by
  constructor
  · intro hbooked pre tokenIds promptIndex post hsplit
    have hfiled := @run_filed hash maxDepth pre
    unfold Harmless
    rw [← hfiled.mem_iff, ← hfiled.empty_iff]
    by_contra hbad
    rw [not_or] at hbad
    obtain ⟨habsent, hsome⟩ := hbad
    have hexact : (run hash maxDepth pre).Exact := by
      rcases List.eq_nil_or_concat pre with rfl | ⟨pre', call, rfl⟩
      · exact absurd (TrieNode.promptsAt_new _) hsome
      · rw [List.concat_eq_append] at hsplit hfiled ⊢
        rw [← hfiled.booked_iff, run_concat]
        exact (hbooked pre' call (.remove tokenIds promptIndex :: post)
          (by rw [hsplit, List.append_assoc]; rfl)).1
    have hsame := ((hbooked pre _ post hsplit).2 tokenIds promptIndex rfl (by
      unfold groupKey at habsent
      rwa [hfiled.ownDepth] at habsent)).2
    -- the group has prompts, so it is counted, and the removal counts it down
    set d := run hash maxDepth pre with hd
    have hcount := lookup_groupCount_remove d tokenIds promptIndex (d.groupKey tokenIds)
    rw [show (d.remove tokenIds promptIndex).groupCount = d.groupCount from hsame, if_pos rfl,
      hexact (d.groupKey tokenIds), if_neg hsome, Option.bind_some] at hcount
    by_cases hlast : (((d.trie.promptsAt (d.groupKey tokenIds)).length : Int) - 1) ≤ 0
    · rw [if_pos hlast] at hcount
      simp at hcount
    · rw [if_neg hlast, Option.some.injEq] at hcount
      omega
  · intro hgood pre call post hsplit
    have hfiled := @run_filed hash maxDepth pre
    have hexact : (run hash maxDepth pre).Exact := run_exact fun pre' tokenIds promptIndex post' h =>
      hgood pre' tokenIds promptIndex (post' ++ call :: post) (by rw [hsplit, h]; simp)
    have hexact' : ((run hash maxDepth pre).step hash call).Exact := by
      rw [← run_concat]
      refine run_exact fun pre' tokenIds promptIndex post' h => ?_
      exact hgood pre' tokenIds promptIndex (post' ++ post) (by
        rw [hsplit, ← List.singleton_append, ← List.append_assoc, h]; simp)
    have hfiled' := @run_filed hash maxDepth (pre ++ [call])
    rw [run_concat] at hfiled'
    refine ⟨hfiled'.booked_iff.mpr hexact', ?_⟩
    intro tokenIds promptIndex hcall habsent
    subst hcall
    rcases hgood pre tokenIds promptIndex post hsplit with hmem | hnone
    · rw [← hfiled.mem_iff] at hmem
      unfold groupKey at hmem
      rw [hfiled.ownDepth] at hmem
      exact absurd hmem habsent
    · exact hexact.remove_of_empty hfiled promptIndex ((hfiled.empty_iff tokenIds).mpr hnone)

/-- A request, to be tagged, with the given tokens. -/
def plainRequest (tokenIds : List Token) : ClientRequest :=
  ⟨true, tokenIds, none, none, none, none⟩

/-- Of two equal prompts the first is removed twice; the second is pending and not counted. -/
theorem run_not_booked :
    (run (fun _ => 7) 128 [.submit (plainRequest [1, 2]), .submit (plainRequest [1, 2]),
      .remove [1, 2] 0, .remove [1, 2] 0]).trie.promptsAt [1, 2] = [1] ∧
    (run (fun _ => 7) 128 [.submit (plainRequest [1, 2]), .submit (plainRequest [1, 2]),
      .remove [1, 2] 0, .remove [1, 2] 0]).groupCount = [] ∧
    ¬ (run (fun _ => 7) 128 [.submit (plainRequest [1, 2]), .submit (plainRequest [1, 2]),
      .remove [1, 2] 0, .remove [1, 2] 0]).Booked := by
  refine ⟨by decide, by decide, fun hbooked => ?_⟩
  have hgroup := (hbooked.groups [1, 2]).mpr (by decide)
  revert hgroup
  decide

end PeekDispatcher

end Peek
