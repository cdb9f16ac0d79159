/-
Reordering a batch of prompts (`_full_duplication_ratio` and `reorder_for_prefix_sharing` in
`python/peek/offline/reorder.py`).

Three gates keep the order as it is: too many sequences that occur twice, too few that share a
prefix, prefixes that are too short.  Past the gates the order is the depth-first order of a trie
of the first 128 tokens, in which what shares a prefix stands together (`reorder_permutes`).
-/
import Peek.Offline.TrieGroups

namespace Peek

/-- `counts[key] = counts.get(key, 0) + 1`, for all sequences. -/
def countSequences (sequences : List (List Token)) : List (List Token × Nat) :=
  sequences.foldl (fun counts key => Dict.set counts key ((counts.lookup key).getD 0 + 1)) []

section

variable {F : Type} (f : PyFloat F)

/-- Fraction of sequences that are exact duplicates of another. -/
def fullDuplicationRatio (sequences : List (List Token)) : F :=
  let n := sequences.length
  if n = 0 then f.ofRat 0
  else
    let duplicated := (((countSequences sequences).map (·.2)).filter (· ≥ 2)).sum
    f.ofRat (duplicated / n)

/-- The order of the sequences; position by position, the index of the sequence that goes there. -/
def reorderForPrefixSharing (tokenIdSequences : List (List Token)) (minSharingDepth : Int)
    (minCoverage : F) (minAvgSharingDepth : Int) (maxDuplication : F) : List Nat :=
  let n := tokenIdSequences.length
  if n = 0 then []
  else if f.lt maxDuplication (fullDuplicationRatio f tokenIdSequences) then List.range n
  else
    let trie := PrefixTrie.insertAll 128 tokenIdSequences.zipIdx
    let (coverage, _, avgSharingDepth) := trie.sharingScore f minSharingDepth
    if f.lt coverage minCoverage then List.range n
    else if f.lt avgSharingDepth (f.ofRat minAvgSharingDepth) then List.range n
    else trie.dfsOrder true

end

/-! ### Counting duplicates -/

/-- Every sequence is a key, with the number of its occurrences. -/
theorem countSequences_spec (sequences : List (List Token)) :
    (Dict.keys (countSequences sequences)).Nodup ∧
      (∀ s, s ∈ Dict.keys (countSequences sequences) ↔ s ∈ sequences) ∧
      ∀ s, ((countSequences sequences).lookup s).getD 0 = sequences.count s := by
  induction sequences using List.reverseRecOn with
  | nil => exact ⟨List.nodup_nil, fun s => Iff.rfl, fun s => rfl⟩
  | append_singleton sequences key ih =>
      obtain ⟨hnd, hmem, hcount⟩ := ih
      have hstep : countSequences (sequences ++ [key]) = Dict.set (countSequences sequences) key
          (((countSequences sequences).lookup key).getD 0 + 1) := by
        unfold countSequences
        rw [List.foldl_append]
        rfl
      rw [hstep]
      refine ⟨Dict.nodup_set _ _ hnd, fun s => ?_, fun s => ?_⟩
      · rw [Dict.mem_keys_set, hmem, List.mem_append, List.mem_singleton]
      · rw [Dict.lookup_set, List.count_append, List.count_singleton]
        by_cases hs : key = s
        · subst hs
          simp [hcount]
        · simp [hs, hcount]

theorem sum_filter_map {α : Type} (c : α → Nat) (l : List α) :
    ((l.map c).filter (· ≥ 2)).sum = (l.map fun a => if 2 ≤ c a then c a else 0).sum := by
  induction l with
  | nil => rfl
  | cons a l ih =>
      rw [List.map_cons, List.map_cons, List.sum_cons, ← ih]
      by_cases h : 2 ≤ c a
      · rw [List.filter_cons_of_pos (by simpa using h), List.sum_cons, if_pos h]
      · rw [List.filter_cons_of_neg (by simpa using h), if_neg h, Nat.zero_add]

/-- **What is added up** is the number of sequences that occur twice. -/
theorem duplicated_eq (sequences : List (List Token)) :
    (((countSequences sequences).map (·.2)).filter (· ≥ 2)).sum =
      sequences.countP fun s => 2 ≤ sequences.count s := by
  obtain ⟨hnd, hmem, hcount⟩ := countSequences_spec sequences
  have hvalues : (countSequences sequences).map (·.2) =
      (Dict.keys (countSequences sequences)).map fun s => sequences.count s := by
    unfold Dict.keys
    rw [List.map_map]
    refine List.map_congr_left fun e he => ?_
    show e.2 = sequences.count e.1
    rw [← hcount, (Dict.mem_iff_lookup hnd).mp he]
    rfl
  set keys := Dict.keys (countSequences sequences)
  set twice := sequences.filter fun s => 2 ≤ sequences.count s with htwice
  have hparts := flatMap_filter_perm (fun s : List Token => s) keys twice hnd fun s hs =>
    (hmem s).mpr (List.mem_of_mem_filter hs)
  have hpart : ∀ k, (twice.filter fun s => s = k).length =
      if 2 ≤ sequences.count k then sequences.count k else 0 := by
    intro k
    rw [htwice, List.filter_filter, ← List.countP_eq_length_filter]
    by_cases hk : 2 ≤ sequences.count k
    · rw [if_pos hk, List.count_eq_countP]
      refine List.countP_congr fun s _ => ?_
      by_cases hs : s = k
      · simp [hs, hk]
      · simp [hs]
    · rw [if_neg hk, List.countP_eq_zero]
      intro s _ hs
      simp only [Bool.and_eq_true, decide_eq_true_eq] at hs
      exact hk (hs.1 ▸ hs.2)
  rw [hvalues, sum_filter_map, List.countP_eq_length_filter, ← hparts.length_eq, List.length_flatMap]
  simp only [hpart]

theorem fullDuplicationRatio_eq {F : Type} (f : PyFloat F) (sequences : List (List Token)) :
    fullDuplicationRatio f sequences =
      f.ofRat ((sequences.countP fun s => 2 ≤ sequences.count s) / sequences.length) := by
  unfold fullDuplicationRatio
  simp only [duplicated_eq]
  split
  · next hnone => simp [hnone]
  · rfl

/-! ### The order -/

open PrefixTrie FiledPrompt

theorem filed_of_mem_zipIdx {maxDepth : Nat} {sequences : List (List Token)} {e : FiledPrompt}
    (he : e ∈ sequences.zipIdx.map (filed maxDepth)) :
    ∃ s, sequences[e.2]? = some s ∧ e.1 = s.take maxDepth := by
  obtain ⟨x, hx, rfl⟩ := List.mem_map.mp he
  exact ⟨x.1, List.mem_zipIdx_iff_getElem?.mp hx, rfl⟩

/-- The depth-first order is a permutation. -/
theorem dfsOrder_perm (maxDepth : Nat) (sequences : List (List Token)) (countAware : Bool) :
    ((insertAll maxDepth sequences.zipIdx).dfsOrder countAware).Perm
      (List.range sequences.length) := by
  have hperm := (dfsEntries_perm countAware (insertAll_holds maxDepth sequences.zipIdx).files).map (·.2)
  rw [← dfsOrder_eq, List.map_map] at hperm
  rw [List.range_eq_range', ← List.zipIdx_map_snd 0 sequences]
  exact hperm

/-- Sequences that agree on as many tokens as the trie keeps stand together in it. -/
theorem contiguous_dfsOrder {maxDepth : Nat} (sequences : List (List Token)) (countAware : Bool)
    {path : List Token} (hpath : path.length ≤ maxDepth) :
    Contiguous (fun i => ∃ s, sequences[i]? = some s ∧ path <+: s)
      ((insertAll maxDepth sequences.zipIdx).dfsOrder countAware) := by
  have hfiles := (insertAll_holds maxDepth sequences.zipIdx).files
  rw [dfsOrder_eq, ← List.flatMap_singleton' (List.map _ _), List.flatMap_map]
  refine (contiguous_dfsEntries countAware hfiles path).flatMap fun e he i hi => ?_
  rw [List.mem_singleton.mp hi]
  obtain ⟨s, hs, he1⟩ := filed_of_mem_zipIdx ((dfsEntries_perm countAware hfiles).mem_iff.mp he)
  rw [hs, he1, List.prefix_take_iff]
  constructor
  · intro h
    obtain ⟨s', hs', hpre⟩ := h
    rw [Option.some.inj hs']
    exact ⟨hpre, hpath⟩
  · intro h
    exact ⟨s, rfl, h.1⟩

/--
**Reordering a batch.**  The result is always a permutation of the indices.  It is the identity
where the sequences with a duplicate, the coverage or the average depth of the trie are on the
wrong side of their thresholds; otherwise the sequences that agree on any prefix of up to 128
tokens stand together.
-/
theorem reorder_permutes {F : Type} (f : PyFloat F) (sequences : List (List Token))
    (minSharingDepth : Int) (minCoverage : F) (minAvgSharingDepth : Int) (maxDuplication : F) :
    let order := reorderForPrefixSharing f sequences minSharingDepth minCoverage
      minAvgSharingDepth maxDuplication
    let ratio := f.ofRat ((sequences.countP fun s => 2 ≤ sequences.count s) / sequences.length)
    let score := (insertAll 128 sequences.zipIdx).sharingScore f minSharingDepth
    let skipped := f.lt maxDuplication ratio ∨ f.lt score.1 minCoverage ∨
      f.lt score.2.2 (f.ofRat minAvgSharingDepth)
    order.Perm (List.range sequences.length) ∧
    (skipped → order = List.range sequences.length) ∧
    (¬ skipped → ∀ d ≤ 128, ∀ path : List Token, path.length = d →
      Contiguous (fun i => ∃ s, sequences[i]? = some s ∧ path <+: s) order) := by
  intro order ratio score skipped
  by_cases hnone : sequences.length = 0
  · have horder : order = [] := if_pos hnone
    rw [horder, hnone]
    exact ⟨List.Perm.refl _, fun _ => rfl, fun _ _ _ _ _ => contiguous_of_none (by simp)⟩
  have horder : order = if skipped then List.range sequences.length
      else (insertAll 128 sequences.zipIdx).dfsOrder true := by
    show reorderForPrefixSharing f sequences _ _ _ _ = _
    unfold reorderForPrefixSharing
    simp only [if_neg hnone, fullDuplicationRatio_eq]
    by_cases hratio : f.lt maxDuplication ratio = true
    · rw [if_pos hratio, if_pos (Or.inl hratio)]
    · by_cases hcoverage : f.lt score.1 minCoverage = true
      · rw [if_neg hratio, if_pos hcoverage, if_pos (Or.inr (Or.inl hcoverage))]
      · by_cases hdepth : f.lt score.2.2 (f.ofRat minAvgSharingDepth) = true
        · rw [if_neg hratio, if_neg hcoverage, if_pos hdepth, if_pos (Or.inr (Or.inr hdepth))]
        · rw [if_neg hratio, if_neg hcoverage, if_neg hdepth,
            if_neg (not_or.mpr ⟨hratio, not_or.mpr ⟨hcoverage, hdepth⟩⟩)]
  by_cases hskip : skipped
  · rw [horder, if_pos hskip]
    exact ⟨List.Perm.refl _, fun _ => rfl, fun hnot => absurd hskip hnot⟩
  · rw [horder, if_neg hskip]
    refine ⟨dfsOrder_perm 128 sequences true, fun h => absurd h hskip, fun _ d hd path hlen => ?_⟩
    exact contiguous_dfsOrder sequences true (hlen.le.trans hd)

end Peek
