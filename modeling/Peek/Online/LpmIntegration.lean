/-
Peek's sort of the waiting queue (`python/peek/online/lpm_integration.py`).

`peek_sort_inplace` walks the queue once to find out which requests repeat a prefix that
an earlier one has claimed, and then sorts.  The claims are tuples of tokens in a set; no
auxiliary tree is built.
-/
import Peek.Pending.Cluster
import Peek.Sglang.SchedulePolicy
import Mathlib.Data.Prod.Lex
import Mathlib.Data.String.Basic

namespace Peek

/-- Stands for the cluster of a request that is in none. -/
def singletonNodeId : Nat := 2 ^ 31

/-- The keyword arguments of `peek_sort_inplace`. -/
structure SortOptions where
  checkThreshold : Int := 32
  deprioritizeThreshold : Int := 32
  rankByClusterSize : Bool := true
  mainHits : Option (Map Rid Int) := none
  peekLpmSort : Bool := false

/-- `_mh`: the dual walk's result, or else the length of what the last match found. -/
def mainHit (ridToInt : Map ReqId Rid) (mainHits : Option (Map Rid Int)) (r : Req) : Int :=
  match mainHits, ridToInt.lookup r.rid with
  | some hits, some rid => (hits.lookup rid).getD 0
  | _, _ => r.prefixIndices.length

/-- What the first pass over the queue collects. -/
structure SortPass where
  perRidSortInfo : Map ReqId NodeId
  seenPrefixes : Finset (List Token)
  deprioritized : Finset ReqId

/-- The cluster node a request is sorted under. -/
def clusterNode (ridToInt : Map ReqId Rid) (allInfo : Map Rid (Option (NodeId × Nat × Nat)))
    (r : Req) : NodeId :=
  match (ridToInt.lookup r.rid).bind fun rid => (allInfo.lookup rid).join with
  | none => singletonNodeId
  | some (node, _, _) => node

/-- The first `deprioritizeThreshold` tokens, claimed by the first cold request to have them. -/
def claimPrefix (o : SortOptions) (mainHit : Req → Int) (s : SortPass) (r : Req) : SortPass :=
  if o.checkThreshold < 0 ∨ o.deprioritizeThreshold < 0 then s
  else if mainHit r > o.checkThreshold then s
  else if (r.tokens.length : Int) < o.deprioritizeThreshold then s
  else
    let prefixKey := r.tokens.take o.deprioritizeThreshold.toNat
    if prefixKey ∈ s.seenPrefixes then { s with deprioritized := insert r.rid s.deprioritized }
    else { s with seenPrefixes := insert prefixKey s.seenPrefixes }

/-- One turn of the first pass. -/
def sortPassTurn (ridToInt : Map ReqId Rid) (allInfo : Map Rid (Option (NodeId × Nat × Nat)))
    (o : SortOptions) (s : SortPass) (r : Req) : SortPass :=
  let s := if o.peekLpmSort then s
    else { s with perRidSortInfo := s.perRidSortInfo.insert r.rid (clusterNode ridToInt allInfo r) }
  claimPrefix o (mainHit ridToInt o.mainHits) s r

/-- `[waiting_queue[i] for i in _lpm_sort_order(keys)]` -/
def lpmSort (mainHit : Req → Int) (deprioritized : Finset ReqId) (waitingQueue : List Req) :
    List Req :=
  let keys := waitingQueue.map fun r => (mainHit r, decide (r.rid ∈ deprioritized))
  (PendingTree.lpmSortOrder keys).map fun i => waitingQueue.getD i default

/-- `(-main_hit, node_id, is_depr, rid)` -/
def clusterKey (mainHit : Req → Int) (s : SortPass) (r : Req) : Int ×ₗ Nat ×ₗ Nat ×ₗ ReqId :=
  toLex (-mainHit r, toLex ((s.perRidSortInfo.lookup r.rid).getD singletonNodeId,
    toLex (if r.rid ∈ s.deprioritized then 1 else 0, r.rid)))

/-- `(-main_hit, is_depr, rid)` -/
def plainKey (mainHit : Req → Int) (s : SortPass) (r : Req) : Int ×ₗ Nat ×ₗ ReqId :=
  toLex (-mainHit r, toLex (if r.rid ∈ s.deprioritized then 1 else 0, r.rid))

/-- Sort the queue; returns it and the deprioritized requests. -/
def peekSortInplace (waitingQueue : List Req) (ridToInt : Map ReqId Rid) (tree : PendingTree)
    (o : SortOptions) : List Req × Finset ReqId :=
  let allInfo := if o.peekLpmSort then ∅ else tree.allClusterInfo
  let mh := mainHit ridToInt o.mainHits
  let s := waitingQueue.foldl (sortPassTurn ridToInt allInfo o) ⟨∅, ∅, ∅⟩
  if o.peekLpmSort then (lpmSort mh s.deprioritized waitingQueue, s.deprioritized)
  else if o.rankByClusterSize then
    (waitingQueue.insertionSort fun a b => clusterKey mh s a ≤ clusterKey mh s b, s.deprioritized)
  else (waitingQueue.insertionSort fun a b => plainKey mh s a ≤ plainKey mh s b, s.deprioritized)

/-! ### The queue is reordered -/

theorem getD_of_lt {α : Type} (l : List α) (a : α) {i : Nat} (h : i < l.length) :
    l.getD i a = l[i] := by
  rw [List.getD_eq_getElem?_getD, List.getElem?_eq_getElem h]
  rfl

theorem getD_map_of_lt {α β : Type} (f : α → β) (l : List α) (a : α) (b : β) {i : Nat}
    (h : i < l.length) : (l.map f).getD i b = f (l.getD i a) := by
  rw [getD_of_lt _ _ (by rwa [List.length_map]), getD_of_lt _ _ h, List.getElem_map]

theorem map_getD_range (queue : List Req) :
    (List.range queue.length).map (fun i => queue.getD i default) = queue := by
  refine List.ext_getElem (by simp) fun i h1 h2 => ?_
  rw [List.getElem_map, List.getElem_range, getD_of_lt _ _ h2]

theorem lpmSort_perm (mh : Req → Int) (depr : Finset ReqId) (queue : List Req) :
    (lpmSort mh depr queue).Perm queue := by
  unfold lpmSort PendingTree.lpmSortOrder
  have hperm := (List.perm_insertionSort (fun a b => PendingTree.lpmCompare
    ((queue.map fun r => (mh r, decide (r.rid ∈ depr))).getD a (0, false))
    ((queue.map fun r => (mh r, decide (r.rid ∈ depr))).getD b (0, false)) ≠ .gt)
    (List.range queue.length)).map fun i => queue.getD i default
  rw [map_getD_range] at hperm
  simpa only [List.length_map] using hperm

/-- **The sort moves requests around and does nothing else.** -/
theorem peekSortInplace_perm (waitingQueue : List Req) (ridToInt : Map ReqId Rid)
    (tree : PendingTree) (o : SortOptions) :
    (peekSortInplace waitingQueue ridToInt tree o).1.Perm waitingQueue := by
  unfold peekSortInplace
  by_cases hlpm : o.peekLpmSort = true
  · simp only [if_pos hlpm]
    exact lpmSort_perm _ _ waitingQueue
  · simp only [if_neg hlpm]
    split
    · exact List.perm_insertionSort _ waitingQueue
    · exact List.perm_insertionSort _ waitingQueue

end Peek
