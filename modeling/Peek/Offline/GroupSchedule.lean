/-
Group-level scheduling (`_group_and_score_sglang`, `sglang_group_schedule`,
`vllm_group_schedule` and `sglang_post_match_reorder` in `python/peek/offline/scheduler.py`).

The first three sort the waiting requests into the groups that a trie finds, and put the groups
in the order of a score.  The trie is asked for groups that share one token.  So a group is all
the sequences that start with a token, if there are two or more of them (`groupsOf_eq`), and
what the group is scored by is that token alone.
-/
import Peek.Offline.CachedPrefix
import Peek.Offline.Scheduler
import Peek.Offline.TrieGroups
import Peek.Offline.VllmEngine

namespace Peek

/-- An entry of `groups`: the prefix tokens, and the indices of the members. -/
abbrev TokenGroup := List Token × List Nat

namespace GroupSchedule

/-- The groups of a trie of the sequences, and every index that is in none of them. -/
def groupsOf (seqs : List (List Token)) : List TokenGroup :=
  let groups := (PrefixTrie.insertAll 128 seqs.zipIdx).prefixGroupsWithTokens 1
  let groupedIndices := groups.flatMap (·.2)
  groups ++ ((List.range seqs.length).filter fun idx => idx ∉ groupedIndices).map fun idx =>
    (seqs.getD idx [], [idx])

/-- `cached_len * len(indices)` -/
def score (cachedLen : List Token → Nat) (g : TokenGroup) : Nat :=
  (if g.1 ≠ [] then cachedLen g.1 else 0) * g.2.length

/-- `scored.sort(key=lambda x: x[0], reverse=True)` -/
def sortScored (cachedLen : List Token → Nat) (groups : List TokenGroup) : List TokenGroup :=
  groups.insertionSort fun g g' => score cachedLen g' ≤ score cachedLen g

/-- Is the pair `(len(seqs[i]), i)` at most that of `j`? -/
def ByLength (seqs : List (List Token)) (i j : Nat) : Prop :=
  (seqs.getD i []).length < (seqs.getD j []).length ∨
    (seqs.getD i []).length = (seqs.getD j []).length ∧ i ≤ j

instance (seqs : List (List Token)) : DecidableRel (ByLength seqs) := fun i j =>
  inferInstanceAs (Decidable ((seqs.getD i []).length < (seqs.getD j []).length ∨
    (seqs.getD i []).length = (seqs.getD j []).length ∧ i ≤ j))

/-- `group_reqs.sort()` -/
def sortMembers (seqs : List (List Token)) (indices : List Nat) : List Nat :=
  indices.insertionSort (ByLength seqs)

/-- The groups as they are emitted. -/
def emitted (cachedLen : List Token → Nat) (seqs : List (List Token)) : List (List Nat) :=
  (sortScored cachedLen (groupsOf seqs)).map fun g => sortMembers seqs g.2

end GroupSchedule

/-- `_group_and_score_sglang`, with groups that share one token. -/
def groupAndScoreSglang (waitingQueue : List Req) (treeCache : RadixCache) : List Req :=
  let seqs := waitingQueue.map (·.originInputIds)
  (GroupSchedule.emitted treeCache.cachedPrefixLength seqs).flatten.filterMap fun idx =>
    waitingQueue[idx]?

/-- `sglang_group_schedule` -/
def sglangGroupSchedule (waitingQueue : List Req) (treeCache : RadixCache)
    (reorderThreshold : Int) : List Req :=
  if (waitingQueue.length : Int) < reorderThreshold then waitingQueue
  else if detectSharing waitingQueue = false then waitingQueue
  else groupAndScoreSglang waitingQueue treeCache

/-- The first hashes of the requests that have one. -/
def firstHashes (newReqs : List QueuedReq) : List BlockHash :=
  (newReqs.filter fun r => r.blockHashes.length > 0).map fun r => r.blockHashes.headD 0

/-- `vllm_group_schedule` -/
def vllmGroupSchedule {numBlocks : Nat} (newReqs : List QueuedReq) (blockPool : QueuePool numBlocks)
    (groupIds : List Nat) (reorderThreshold : Int) : List QueuedReq :=
  if newReqs.length ≤ 1 ∨ (newReqs.length : Int) < reorderThreshold then newReqs
  else if detectSharedKey (firstHashes newReqs) = false then newReqs
  else
    let hashSeqs := newReqs.map (·.blockHashes)
    (GroupSchedule.emitted (blockPool.cachedPrefixLength groupIds) hashSeqs).flatten.filterMap
      fun idx => newReqs[idx]?

/-- `sglang_post_match_reorder` -/
def sglangPostMatchReorder (waitingQueue : List Req) : List Req :=
  if waitingQueue.length ≤ 1 then waitingQueue
  else
    let groups := groupBy (fun r : Req => r.lastNode) waitingQueue
    let scored := groups.map fun g => ((g.2.map fun r => r.prefixIndices.length).sum, g.2)
    (scored.insertionSort fun x y => y.1 ≤ x.1).flatMap (·.2)

namespace GroupSchedule

/-! ### The groups in closed form -/

/-- The token a sequence starts with. -/
def firstToken (seqs : List (List Token)) (i : Nat) : Option Token := (seqs.getD i []).head?

/-- The tokens that sequences start with, in the order in which they first occur. -/
def firstTokens (seqs : List (List Token)) : List Token := (seqs.filterMap List.head?).eraseDups

/-- The sequences that start with a token. -/
def startingWith (seqs : List (List Token)) (token : Token) : List Nat :=
  (List.range seqs.length).filter fun i => firstToken seqs i = some token

/-- The tokens that make a group, the last of them in front. -/
def groupTokens (seqs : List (List Token)) : List Token :=
  (firstTokens seqs).reverse.filter fun token => 2 ≤ (startingWith seqs token).length

/-- Does another sequence start like this one? -/
def IsGrouped (seqs : List (List Token)) (i : Nat) : Prop :=
  ∃ token ∈ groupTokens seqs, firstToken seqs i = some token

instance (seqs : List (List Token)) : DecidablePred (IsGrouped seqs) := fun i =>
  inferInstanceAs (Decidable (∃ token ∈ groupTokens seqs, firstToken seqs i = some token))

/-- The groups as they are listed, before they are scored. -/
def listed (seqs : List (List Token)) : List TokenGroup :=
  (groupTokens seqs).map (fun token => ([token], sortMembers seqs (startingWith seqs token))) ++
    ((List.range seqs.length).filter fun i => ¬ IsGrouped seqs i).map fun i =>
      (seqs.getD i [], [i])

end GroupSchedule

/-! ### What the trie lists -/

namespace PrefixTrie

open FiledPrompt TrieNode

theorem eraseDups_concat (tokens : List Token) (t : Token) : (tokens ++ [t]).eraseDups =
    if t ∈ tokens.eraseDups then tokens.eraseDups else tokens.eraseDups ++ [t] := by
  rw [List.eraseDups_append]
  unfold List.removeAll
  by_cases ht : t ∈ tokens
  · rw [if_pos (List.mem_eraseDups.mpr ht)]
    simp [ht]
  · rw [if_neg fun hc => ht (List.mem_eraseDups.mp hc)]
    simp [ht, List.eraseDups_cons]

/-- The children of the root are filed in the order in which their tokens first occur. -/
theorem keys_insertAll {maxDepth : Nat} (hd : 0 < maxDepth) (prompts : List (List Token × Nat)) :
    Dict.keys (insertAll maxDepth prompts).root.children =
      (prompts.filterMap fun e => e.1.head?).eraseDups := by
  induction prompts using List.reverseRecOn with
  | nil => rfl
  | append_singleton prompts e ih =>
      have hdepth := (insertAll_holds maxDepth prompts).depth
      obtain ⟨d, rfl⟩ := Nat.exists_eq_succ_of_ne_zero (Nat.ne_of_gt hd)
      rw [show insertAll (d + 1) (prompts ++ [e]) = (insertAll (d + 1) prompts).insert e.1 e.2 by
        unfold insertAll; rw [List.foldl_append]; rfl]
      obtain ⟨tokens, i⟩ := e
      unfold PrefixTrie.insert
      rw [hdepth, List.filterMap_append]
      cases tokens with
      | nil =>
          show Dict.keys (insertAll (d + 1) prompts).root.children = (_ ++ []).eraseDups
          rw [List.append_nil]
          exact ih
      | cons t ts =>
          show Dict.keys (Dict.set _ t _) = (_ ++ [t]).eraseDups
          rw [Dict.keys_set, eraseDups_concat, ← ih]

/-- The paths of one token at which groups are found, the last child in front. -/
theorem paths_classNodes {node : TrieNode} {es : List FiledPrompt} (h : Files node es) :
    (classNodes 1 node).map (·.2) = ((Dict.keys node.children).reverse.filter fun token =>
      2 ≤ (agreeing [token] es).length).map fun token => [token] := by
  have hat : nodesAt 1 (node, []) = downKids (node, []) :=
    List.flatMap_singleton' (downKids (node, []))
  have hpaths : (downKids (node, [])).map (·.2) =
      (Dict.keys node.children).reverse.map fun token => [token] := by
    unfold downKids Dict.keys
    rw [List.map_reverse, List.map_map, List.map_reverse, List.map_map]
    rfl
  have hshared : ∀ x ∈ nodesAt 1 (node, []),
      x.1.sharedByIndices = decide (2 ≤ (agreeing x.2 es).length) := by
    intro x hx
    rw [Bool.eq_iff_iff, (h.of_mem_nodesAt (Nat.le_refl 1) hx).1.sharedByIndices_iff,
      decide_eq_true_iff, length_agreeing]
  unfold classNodes
  rw [List.filter_congr hshared, hat]
  have hfilter := List.filter_map (f := fun x : TrieNode × List Token => x.2)
    (l := downKids (node, [])) (p := fun p => decide (2 ≤ (agreeing p es).length))
  rw [hpaths, List.filter_map] at hfilter
  exact hfilter.symm

end PrefixTrie

namespace GroupSchedule

open FiledPrompt TrieNode PrefixTrie

variable (seqs : List (List Token))

theorem zipIdx_eq : seqs.zipIdx = (List.range seqs.length).map fun i => (seqs.getD i [], i) := by
  refine List.ext_getElem (by simp) fun i h h' => ?_
  rw [List.length_zipIdx] at h
  simp [h]

/-- The sequences that the trie files under a token. -/
theorem agreeing_one (token : Token) :
    (agreeing [token] (seqs.zipIdx.map (filed 128))).map (·.2) = startingWith seqs token := by
  unfold agreeing startingWith
  rw [zipIdx_eq, List.map_map, List.filter_map, List.map_map]
  refine (List.map_id _).trans (List.filter_congr fun i _ => ?_)
  show decide ([token] <+: (seqs.getD i []).take 128) = decide (firstToken seqs i = some token)
  unfold firstToken
  cases seqs.getD i [] with
  | nil => simp
  | cons t ts => simp [eq_comm]

/-- The pair that members are sorted by tells them apart. -/
theorem ByLength.antisymm {i j : Nat} (hij : ByLength seqs i j) (hji : ByLength seqs j i) :
    i = j := by
  unfold ByLength at hij hji
  omega

/-- The members of a group are sorted the same, however they are listed. -/
theorem sortMembers_congr {l l' : List Nat} (h : l.Perm l') :
    sortMembers seqs l = sortMembers seqs l' := by
  have : Std.Total (ByLength seqs) := ⟨fun i j => by unfold ByLength; omega⟩
  have : IsTrans Nat (ByLength seqs) := ⟨fun i j k => by unfold ByLength; omega⟩
  unfold sortMembers
  refine List.Perm.eq_of_pairwise (fun i j _ _ => ByLength.antisymm seqs)
    (List.pairwise_insertionSort _ l) (List.pairwise_insertionSort _ l') ?_
  exact (List.perm_insertionSort _ l).trans (h.trans (List.perm_insertionSort _ l').symm)

theorem sortMembers_perm (l : List Nat) : (sortMembers seqs l).Perm l :=
  List.perm_insertionSort _ l

theorem keys_root :
    Dict.keys (insertAll 128 seqs.zipIdx).root.children = firstTokens seqs := by
  rw [keys_insertAll (show 0 < 128 by omega)]
  unfold firstTokens
  conv_rhs => rw [← List.zipIdx_map_fst 0 seqs, List.filterMap_map]
  rfl

/-- The groups of the trie are the classes of two and more that share their first token. -/
theorem trieGroups_eq :
    ((insertAll 128 seqs.zipIdx).prefixGroupsWithTokens 1).map
        (fun g => (g.1, sortMembers seqs g.2)) =
      (groupTokens seqs).map fun token => ([token], sortMembers seqs (startingWith seqs token)) := by
  have hfiles := (insertAll_holds 128 seqs.zipIdx).files
  have hkeys := keys_root seqs
  set root := (insertAll 128 seqs.zipIdx).root with hroot
  set es := seqs.zipIdx.map (filed 128) with hes
  have hgroups : ((insertAll 128 seqs.zipIdx).prefixGroupsWithTokens 1).map
      (fun g => (g.1, sortMembers seqs g.2)) = (classNodes 1 root).map fun x =>
        (x.2, sortMembers seqs ((agreeing x.2 es).map (·.2))) := by
    have heq := prefixGroupsWithTokens_eq hfiles (Nat.le_refl 1)
    rw [Nat.cast_one] at heq
    rw [heq, List.map_map]
    refine List.map_congr_left fun x hx => ?_
    exact Prod.ext rfl (sortMembers_congr seqs (hfiles.class_perm (Nat.le_refl 1) hx))
  have hpaths : (classNodes 1 root).map (·.2) = (groupTokens seqs).map fun token => [token] := by
    rw [paths_classNodes hfiles, hkeys]
    unfold groupTokens
    refine congrArg _ (List.filter_congr fun token _ => ?_)
    rw [← agreeing_one, List.length_map]
  have hmap := congrArg (List.map fun p : List Token =>
    (p, sortMembers seqs ((agreeing p es).map (·.2)))) hpaths
  rw [List.map_map, List.map_map] at hmap
  rw [hgroups]
  refine hmap.trans (List.map_congr_left fun token _ => ?_)
  exact Prod.ext rfl (congrArg (sortMembers seqs) (agreeing_one seqs token))

/-- **The groups** are these classes, and all the others on their own. -/
theorem groupsOf_eq :
    (groupsOf seqs).map (fun g => (g.1, sortMembers seqs g.2)) = listed seqs := by
  have htrie := trieGroups_eq seqs
  have hmem : ∀ i < seqs.length,
      i ∈ ((insertAll 128 seqs.zipIdx).prefixGroupsWithTokens 1).flatMap (·.2) ↔
        IsGrouped seqs i := by
    intro i hi
    have hcongr := congrArg (fun groups : List TokenGroup => i ∈ groups.flatMap (·.2)) htrie
    simp only [List.flatMap_map, List.mem_flatMap, (sortMembers_perm seqs _).mem_iff] at hcongr
    rw [List.mem_flatMap, hcongr.to_iff]
    unfold IsGrouped startingWith
    simp only [List.mem_filter, List.mem_range, hi, true_and, decide_eq_true_eq]
  have hrest : ((List.range seqs.length).filter fun i =>
      i ∉ ((insertAll 128 seqs.zipIdx).prefixGroupsWithTokens 1).flatMap (·.2)) =
      (List.range seqs.length).filter fun i => ¬ IsGrouped seqs i :=
    List.filter_congr fun i hi => decide_eq_decide.mpr (not_congr (hmem i (List.mem_range.mp hi)))
  unfold groupsOf listed
  simp only [List.map_append, List.map_map]
  rw [htrie, hrest]
  rfl

/-! ### No index is lost -/

theorem nodup_groupTokens : (groupTokens seqs).Nodup := by
  have hnodup := (insertAll_holds 128 seqs.zipIdx).files.nodup
  rw [keys_root] at hnodup
  exact (List.nodup_reverse.mpr hnodup).filter _

/-- Every index is in one group, once. -/
theorem listed_perm : ((listed seqs).flatMap (·.2)).Perm (List.range seqs.length) := by
  set isIn := fun i => decide (IsGrouped seqs i) with hisIn
  have hclasses : ((groupTokens seqs).flatMap fun token =>
      sortMembers seqs (startingWith seqs token)).Perm ((List.range seqs.length).filter isIn) := by
    refine (List.Perm.flatMap_left _ fun token _ => sortMembers_perm seqs _).trans ?_
    have hparts := flatMap_filter_perm (firstToken seqs) ((groupTokens seqs).map some)
      ((List.range seqs.length).filter isIn) ?_ ?_
    · rw [List.flatMap_map] at hparts
      refine List.Perm.trans (List.Perm.of_eq (List.flatMap_congr fun token htoken => ?_)) hparts
      unfold startingWith
      rw [List.filter_filter]
      refine List.filter_congr fun i _ => ?_
      by_cases hi : firstToken seqs i = some token
      · have hin : IsGrouped seqs i := ⟨token, htoken, hi⟩
        simp [hi, hisIn, hin]
      · simp [hi]
    · exact (nodup_groupTokens seqs).map fun a b hab => Option.some.inj hab
    · intro i hi
      rw [List.mem_filter, hisIn, decide_eq_true_eq] at hi
      obtain ⟨-, token, htoken, hi⟩ := hi
      exact List.mem_map.mpr ⟨token, htoken, hi.symm⟩
  unfold listed
  rw [List.flatMap_append, List.flatMap_map, List.flatMap_map, List.flatMap_singleton']
  refine (hclasses.append_right _).trans ?_
  have := List.filter_append_perm isIn (List.range seqs.length)
  simpa [hisIn] using this

/-- What is emitted, from the list in closed form. -/
theorem emitted_eq (cachedLen : List Token → Nat) :
    emitted cachedLen seqs = (sortScored cachedLen (listed seqs)).map (·.2) := by
  have hsort := List.map_insertionSort (fun g g' => score cachedLen g' ≤ score cachedLen g)
    (fun g g' => score cachedLen g' ≤ score cachedLen g)
    (fun g : TokenGroup => (g.1, sortMembers seqs g.2)) (groupsOf seqs) fun g _ g' _ => by
      unfold score
      rw [(sortMembers_perm seqs g.2).length_eq, (sortMembers_perm seqs g'.2).length_eq]
  rw [groupsOf_eq] at hsort
  unfold emitted sortScored
  rw [← hsort, List.map_map]
  rfl

/-- **The order that is emitted is a permutation.** -/
theorem emitted_perm (cachedLen : List Token → Nat) :
    (emitted cachedLen seqs).flatten.Perm (List.range seqs.length) := by
  rw [emitted_eq, ← List.flatMap_def]
  exact ((List.perm_insertionSort _ _).flatMap_right _).trans (listed_perm seqs)

end GroupSchedule

end Peek
