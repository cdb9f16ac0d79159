/-
When the ranks of a dispatcher keep the locality of its trie.

`submit` says that locality is the primary order of the groups and that counts break ties.  But
it sorts all groups by their counts, whatever node they lie below.  So the groups below a node
keep together until the count of some other group falls among theirs; and they do for as long
as none does (`ranks_local_iff`).
-/
import Peek.Offline.Dispatcher
import Peek.Offline.TrieOrder

namespace Peek

open TrieNode FiledPrompt

/-- Keys in the order of some walk: what is below a path stands together. -/
structure Walked (keys : List (List Token)) : Prop where
  nodup : keys.Nodup
  together : ∀ path, Contiguous (fun key => path <+: key) keys

/-- The walk comes to no path twice. -/
theorem TrieNode.nodup_walk {node : TrieNode} {es : List FiledPrompt} (h : Files node es)
    (countAware : Bool) : ∀ q, ((walk countAware node q).map (·.2)).Nodup := by
  induction h with
  | intro node es prompts nodup counts kids absent ih =>
      intro q
      have h : Files node es := Files.intro node es prompts nodup counts kids absent
      have hbelow : ∀ x ∈ pathKids countAware (node, q), ∀ p ∈ (walk countAware x.1 x.2).map (·.2),
          ∃ token, x.2 = q ++ [token] ∧ q ++ [token] <+: p := by
        intro x hx p hp
        obtain ⟨y, hy, rfl⟩ := List.mem_map.mp hp
        obtain ⟨token, child, hc, rfl⟩ := h.mem_pathKids.mp hx
        obtain ⟨r, hr, -⟩ := nodeAt_of_mem_walk (h.kids hc) hy
        exact ⟨token, rfl, hr ▸ List.prefix_append _ _⟩
      rw [walk_eq, List.map_cons, List.nodup_cons, List.map_flatMap, List.nodup_flatMap]
      refine ⟨fun hq => ?_, fun x hx => ?_, ?_⟩
      · obtain ⟨x, hx, hq⟩ := List.mem_flatMap.mp hq
        obtain ⟨token, -, hpre⟩ := hbelow x hx q hq
        have hlen := hpre.length_le
        rw [List.length_append, List.length_singleton] at hlen
        omega
      · obtain ⟨token, child, hc, rfl⟩ := h.mem_pathKids.mp hx
        exact ih token child hc _
      · refine (List.pairwise_map.mp (nodup_paths_pathKids h)).imp_of_mem fun hx hy hxy p hp hp' => ?_
        obtain ⟨t, ht, hpre⟩ := hbelow _ hx p hp
        obtain ⟨t', ht', hpre'⟩ := hbelow _ hy p hp'
        rw [ht, ht', eq_of_prefix_child hpre hpre'] at hxy
        exact hxy rfl

theorem PrefixTrie.walked_dfsGroupKeys {t : PrefixTrie} {es : List FiledPrompt}
    (h : Files t.root es) (countAware : Bool) : Walked (t.dfsGroupKeys countAware) where
  nodup := by
    have hkeys : t.dfsGroupKeys countAware =
        ((walk countAware t.root []).filter fun x => x.1.promptIndices ≠ []).map (·.2) := by
      rw [dfsGroupKeys_eq]
      induction walk countAware t.root [] with
      | nil => rfl
      | cons x l ih =>
          rw [List.flatMap_cons, ih]
          by_cases hx : x.1.promptIndices = [] <;> simp [hx]
    rw [hkeys]
    exact (nodup_walk h countAware []).sublist (List.filter_sublist.map _)
  together path := by
    rw [dfsGroupKeys_eq]
    refine (contiguous_walk h countAware path []).flatMap fun x _ key hkey => ?_
    split at hkey
    · rw [List.mem_singleton.mp hkey]
    · exact absurd hkey List.not_mem_nil

namespace PeekDispatcher

variable {hash : List Token → Nat} {maxDepth : Nat} (d : PeekDispatcher) (request : ClientRequest)

/-! ### The rank map -/

/-- The trie when a request is ranked. -/
def trieAt : PrefixTrie := d.trie.insert request.tokenIds d.nextIdx

/-- The pending count of a group when a request is ranked; a group that is not counted has 0. -/
def countAt (key : List Token) : Int :=
  ((Dict.set d.groupCount (d.groupKey request.tokenIds)
    ((d.groupCount.lookup (d.groupKey request.tokenIds)).getD 0 + 1)).lookup key).getD 0

/-- The order of the walk when a request is ranked: a new one if the groups have changed. -/
def walkAt : List (List Token) :=
  if (d.groupCount.lookup (d.groupKey request.tokenIds)).isNone ∨ d.structureDirty then
    (d.trieAt request).dfsGroupKeys true
  else d.dfsKeys

/-- The groups in the order of their ranks. -/
def rankedAt : List (List Token) :=
  rankedKeys (Dict.set d.groupCount (d.groupKey request.tokenIds)
    ((d.groupCount.lookup (d.groupKey request.tokenIds)).getD 0 + 1)) (d.walkAt request)

/-- `rank_map` -/
def rankMap : List (List Token × Nat) := Dict.ofList (·.1) (·.2) (d.rankedAt request).zipIdx

/-- The rank in the tag is the one in the map. -/
theorem submit_order (h : request.isDict = true) : (d.submit hash request).2.peekGroupOrder =
    some (((d.rankMap request).lookup (d.groupKey request.tokenIds)).getD 0) := by
  unfold submit
  simp only
  rw [if_pos h]
  rfl

theorem dfsKeys_submit : (d.submit hash request).1.dfsKeys = d.walkAt request := by
  unfold submit
  simp only
  split <;> rfl

theorem dfsKeys_remove (tokenIds : List Token) (promptIndex : Nat) :
    (d.remove tokenIds promptIndex).dfsKeys = d.dfsKeys := by
  obtain ⟨_, _, _, h, -⟩ := remove_cases d tokenIds promptIndex
  rw [h]
  rfl

/-- The groups below any one node have the ranks of an interval. -/
def RanksLocal : Prop := ∀ path, (d.trieAt request).root.nodeAt path ≠ none →
  ∃ lo hi, ∀ key rank, (d.rankMap request).lookup key = some rank →
    (path <+: key ↔ lo ≤ rank ∧ rank < hi)

/--
No group outside a node has a count among those of the groups below it.  One that comes earlier
in the walk may have the largest of these counts, one that comes later the smallest.
-/
def NoneAmong : Prop := ∀ path, (d.trieAt request).root.nodeAt path ≠ none →
  ∀ key ∈ d.walkAt request, ¬ path <+: key →
  ∀ a ∈ d.walkAt request, path <+: a → ∀ b ∈ d.walkAt request, path <+: b →
    ((d.walkAt request).idxOf key < (d.walkAt request).idxOf a →
      ¬ (d.countAt request b ≤ d.countAt request key ∧
        d.countAt request key < d.countAt request a)) ∧
    ((d.walkAt request).idxOf a < (d.walkAt request).idxOf key →
      ¬ (d.countAt request b < d.countAt request key ∧
        d.countAt request key ≤ d.countAt request a))

variable {d request}

theorem mem_rankedAt (key : List Token) : key ∈ d.rankedAt request ↔ key ∈ d.walkAt request :=
  List.mem_insertionSort _

theorem nodup_rankedAt (h : Walked (d.walkAt request)) : (d.rankedAt request).Nodup :=
  (List.perm_insertionSort _ _).nodup_iff.mpr h.nodup

theorem lookup_rankMap (h : Walked (d.walkAt request)) (key : List Token) (rank : Nat) :
    (d.rankMap request).lookup key = some rank ↔
      key ∈ d.walkAt request ∧ rank = (d.rankedAt request).idxOf key := by
  have hnd := nodup_rankedAt h
  have hat : ∀ e ∈ (d.rankedAt request).zipIdx,
      e.1 ∈ d.rankedAt request ∧ e.2 = (d.rankedAt request).idxOf e.1 := by
    intro e he
    rw [List.mem_zipIdx_iff_getElem?] at he
    obtain ⟨hi, hget⟩ := List.getElem?_eq_some_iff.mp he
    rw [← hget, hnd.idxOf_getElem]
    exact ⟨List.getElem_mem hi, rfl⟩
  constructor
  · intro hl
    obtain ⟨e, he, rfl, rfl⟩ := Dict.exists_of_lookup_ofList hl
    rw [← mem_rankedAt]
    exact hat e he
  · intro hkey
    obtain ⟨hkey, rfl⟩ := hkey
    rw [← mem_rankedAt] at hkey
    have hmem : (key, (d.rankedAt request).idxOf key) ∈ (d.rankedAt request).zipIdx :=
      List.mem_zipIdx_iff_getElem?.mpr (List.getElem?_idxOf hkey)
    refine Dict.lookup_ofList (·.1) (·.2) hmem fun e he heq => ?_
    rw [(hat e he).2, heq]

/-- A group is ranked first if its count is larger, or the same and it comes first in the walk. -/
theorem rank_lt_iff (h : Walked (d.walkAt request)) {a b : List Token} (ha : a ∈ d.walkAt request)
    (hb : b ∈ d.walkAt request) :
    (d.rankedAt request).idxOf a < (d.rankedAt request).idxOf b ↔
      d.countAt request b < d.countAt request a ∨ d.countAt request a = d.countAt request b ∧
        (d.walkAt request).idxOf a < (d.walkAt request).idxOf b :=
  idxOf_sorted_lt_iff (fun key => OrderDual.toDual (d.countAt request key)) h.nodup ha hb

/-- **At one request**: what keeps the ranks local. -/
theorem ranksLocal_iff (h : Walked (d.walkAt request)) :
    d.RanksLocal request ↔ d.NoneAmong request := by
  unfold RanksLocal NoneAmong
  refine forall₂_congr fun path _ => ?_
  have hranks : (∃ lo hi, ∀ key rank, (d.rankMap request).lookup key = some rank →
      (path <+: key ↔ lo ≤ rank ∧ rank < hi)) ↔
      ∃ lo hi, ∀ key ∈ d.walkAt request, path <+: key ↔
        lo ≤ (d.rankedAt request).idxOf key ∧ (d.rankedAt request).idxOf key < hi := by
    refine exists₂_congr fun lo hi => ?_
    constructor
    · intro hall key hkey
      exact hall key _ ((lookup_rankMap h key _).mpr ⟨hkey, rfl⟩)
    · intro hall key rank hl
      obtain ⟨hkey, rfl⟩ := (lookup_rankMap h key rank).mp hl
      exact hall key hkey
  have hinj : ∀ x ∈ d.walkAt request, ∀ y ∈ d.walkAt request,
      (d.rankedAt request).idxOf x = (d.rankedAt request).idxOf y → x = y := fun x hx y _ heq =>
    (List.idxOf_inj ((mem_rankedAt x).mpr hx)).mp heq
  rw [hranks, interval_iff hinj]
  refine forall₃_congr fun key hkey hout => forall₃_congr fun a ha hpa => forall₃_congr fun b hb hpb => ?_
  rw [rank_lt_iff h ha hkey, rank_lt_iff h hkey hb]
  -- in the walk the outsider comes before both or after both
  obtain ⟨lo, hi, hin⟩ := (h.together path).interval
  have hka : (d.walkAt request).idxOf key ≠ (d.walkAt request).idxOf a := fun heq =>
    hout (((List.idxOf_inj hkey).mp heq) ▸ hpa)
  have ha' := (hin a ha).mp hpa
  have hb' := (hin b hb).mp hpb
  have hkey' := (hin key hkey).not.mp hout
  omega

/-! ### Runs -/

/-- The trie of a dispatcher holds the prompts of some history. -/
theorem run_trie (maxDepth : Nat) (calls : List Call) :
    ∃ rest, PrefixTrie.Holds maxDepth (run hash maxDepth calls).trie rest := by
  induction calls using List.reverseRecOn with
  | nil => exact ⟨[], PrefixTrie.holds_new maxDepth⟩
  | append_singleton calls call ih =>
      obtain ⟨rest, hrest⟩ := ih
      rw [run_concat]
      cases call with
      | submit request =>
          refine ⟨rest ++ [(request.tokenIds, (run hash maxDepth calls).nextIdx)], ?_⟩
          show PrefixTrie.Holds maxDepth (submit hash _ request).1.trie _
          rw [trie_submit]
          exact hrest.insert request.tokenIds _
      | remove tokenIds promptIndex =>
          refine ⟨PrefixTrie.remainingStep maxDepth rest (.remove tokenIds promptIndex), ?_⟩
          show PrefixTrie.Holds maxDepth (PeekDispatcher.remove _ tokenIds promptIndex).trie _
          rw [trie_remove]
          exact hrest.step (.remove tokenIds promptIndex)

theorem walked_walkAt (hwalked : Walked d.dfsKeys) {rest : List (List Token × Nat)}
    (htrie : PrefixTrie.Holds maxDepth d.trie rest) (request : ClientRequest) :
    Walked (d.walkAt request) := by
  unfold walkAt
  split
  · exact PrefixTrie.walked_dfsGroupKeys (htrie.insert request.tokenIds d.nextIdx).files true
  · exact hwalked

/-- **The cached keys are those of some walk**, after any run of calls. -/
theorem run_walked (maxDepth : Nat) (calls : List Call) :
    Walked (run hash maxDepth calls).dfsKeys := by
  induction calls using List.reverseRecOn with
  | nil => exact ⟨List.nodup_nil, fun path => contiguous_of_none (by simp [run, new])⟩
  | append_singleton calls call ih =>
      rw [run_concat]
      cases call with
      | submit request =>
          obtain ⟨rest, hrest⟩ := @run_trie hash maxDepth calls
          show Walked (submit hash _ request).1.dfsKeys
          rw [dfsKeys_submit]
          exact walked_walkAt ih hrest request
      | remove tokenIds promptIndex =>
          show Walked (PeekDispatcher.remove _ tokenIds promptIndex).dfsKeys
          rw [dfsKeys_remove]
          exact ih

/--
**When ranks keep the locality of the trie.**  In a run of submissions and removals, the groups
below any node have an interval of ranks whenever a request is tagged, if and only if at none of
these requests a group outside some node has a count among those of the groups below it.
-/
theorem ranks_local_iff (hash : List Token → Nat) (maxDepth : Nat) (calls : List Call) :
    (∀ pre request post, calls = pre ++ .submit request :: post → request.isDict = true →
      (run hash maxDepth pre).RanksLocal request) ↔
    ∀ pre request post, calls = pre ++ .submit request :: post → request.isDict = true →
      (run hash maxDepth pre).NoneAmong request := by
  refine forall₃_congr fun pre request post => forall₂_congr fun _ _ => ?_
  obtain ⟨rest, hrest⟩ := @run_trie hash maxDepth pre
  exact ranksLocal_iff (walked_walkAt (run_walked maxDepth pre) hrest request)

/-- Three prompts of one group, two of another, and one that shares a token with the first. -/
theorem ranks_not_local :
    (run (fun _ => 7) 128 [.submit (plainRequest [1, 2]), .submit (plainRequest [1, 2]),
      .submit (plainRequest [1, 2]), .submit (plainRequest [9]),
      .submit (plainRequest [9])]).rankMap (plainRequest [1, 3]) =
        [([1, 2], 0), ([9], 1), ([1, 3], 2)] ∧
    ¬ (run (fun _ => 7) 128 [.submit (plainRequest [1, 2]), .submit (plainRequest [1, 2]),
      .submit (plainRequest [1, 2]), .submit (plainRequest [9]),
      .submit (plainRequest [9])]).RanksLocal (plainRequest [1, 3]) := by
  have hmap : (run (fun _ => 7) 128 [.submit (plainRequest [1, 2]), .submit (plainRequest [1, 2]),
      .submit (plainRequest [1, 2]), .submit (plainRequest [9]),
      .submit (plainRequest [9])]).rankMap (plainRequest [1, 3]) =
        [([1, 2], 0), ([9], 1), ([1, 3], 2)] := by decide
  refine ⟨hmap, fun hlocal => ?_⟩
  obtain ⟨lo, hi, hin⟩ := hlocal [1] (by decide)
  rw [hmap] at hin
  have hfirst := (hin [1, 2] 0 (by decide)).mp (by decide)
  have hother := (hin [9] 1 (by decide)).not.mp (by decide)
  have hlast := (hin [1, 3] 2 (by decide)).mp (by decide)
  omega

end PeekDispatcher

end Peek
