/-
How many pending requests start with a given path, and how many end there (`pending_demand`
and `terminators_at` in `src/tree.rs`).

The walk is the one of `descend`, which also stops inside an edge; it answers with the count
of the node it stopped at, if it used up the path.  That node is the only one all requests
past the path run through, so its count is theirs.  The root keeps no count, and the answer
for the empty path is zero.  A request ends at a node, so a descent that stops short of one
has found none.
-/
import Peek.Pending.Invariant

namespace Peek

open Radix

namespace Tree

def pendingDemandLoop (t : Tree) (path : List Token) : Nat → NodeId → Nat → Nat
  | 0, _, _ => 0
  | fuel + 1, node, consumed =>
      if consumed = path.length then (t.node node).pendingCount
      else
        match (t.node node).children.lookup (path.getD consumed 0) with
        | none => 0
        | some child =>
            let edge := (t.node child).edge
            let common := matchEdgeLen edge (path.drop consumed)
            let consumed := consumed + common
            if consumed = path.length then (t.node child).pendingCount
            else if common < edge.length then 0
            else t.pendingDemandLoop path fuel child consumed

/-- Count pending requests whose tokens begin with `path`. -/
def pendingDemand (t : Tree) (path : List Token) : Nat :=
  t.pendingDemandLoop path (path.length + 1) ROOT 0

/-- Count pending requests whose tokens end exactly at `path`. -/
def terminatorsAt (t : Tree) (path : List Token) : Nat :=
  let d := t.descend path
  if d.consumed ≠ path.length then 0
  else if d.endOffset ≠ (t.node d.endNode).edge.length then 0
  else (t.node d.endNode).terminators.length

variable {t : Tree} {live : Set NodeId} {rp : NodeId → List Token} {E : Requests}

/-- The walk is a descent, and the count is that of the node where it ends. -/
theorem pendingDemandLoop_eq (h : Labelled t.heap live rp) (path : List Token) :
    ∀ (fuel : Nat) (n : NodeId) (k : Nat), n ∈ live → k ≤ path.length → path.length < k + fuel →
      t.pendingDemandLoop path fuel n k =
        if (t.descendLoop path fuel n k).consumed = path.length
        then (t.node (t.descendLoop path fuel n k).endNode).pendingCount else 0 := by
  intro fuel
  induction fuel with
  | zero => intro n k _ hk hlt; omega
  | succ fuel ih =>
      intro n k hn hk hlt
      rw [pendingDemandLoop, descendLoop]
      by_cases hend : k = path.length
      · rw [if_pos hend, if_pos hend, if_pos hend]
      · rw [if_neg hend, if_neg hend]
        have ha := getElem?_of_ne_length hk hend
        cases hkid : (t.node n).children.lookup (path.getD k 0) with
        | none => rw [if_neg hend]
        | some c =>
            have hpos : 0 < lcpLen (t.node c).edge (path.drop k) := h.walk_pos hn ha hkid
            have hle := lcpLen_le_right (t.node c).edge (path.drop k)
            rw [List.length_drop] at hle
            simp only [matchEdgeLen_eq]
            by_cases hcut : lcpLen (t.node c).edge (path.drop k) < (t.node c).edge.length
            · rw [if_pos hcut, if_pos hcut]
            · rw [if_neg hcut, if_neg hcut]
              have hih := ih c (k + lcpLen (t.node c).edge (path.drop k)) (h.kidLive hn hkid)
                (by omega) (by omega)
              by_cases hdone : k + lcpLen (t.node c).edge (path.drop k) = path.length
              · rw [if_pos hdone]
                obtain ⟨fuel, rfl⟩ := Nat.exists_eq_succ_of_ne_zero (by omega : fuel ≠ 0)
                rw [descendLoop, if_pos hdone, if_pos hdone]
              · rw [if_neg hdone, hih]

/-- Where the descent uses up the tokens, it ends at the first node that all requests past them
run through. -/
theorem node_past (h : Counted t live rp E) {q : List Token} (hq : q ≠ [])
    (hend : (t.descend q).consumed = q.length) :
    (t.descend q).endNode ∈ live ∧ (t.descend q).endNode ≠ ROOT ∧
      (∀ n ∈ live, q <+: rp n ↔ rp (t.descend q).endNode <+: rp n) ∧
      E.countFrom q = (t.node (t.descend q).endNode).pendingCount := by
  have hs := descend_stopped h.labelled q
  rw [hend] at hs
  have hm := (h.labelled.stopped_path hs).1
  have hpast : ∀ n ∈ live, q <+: rp n ↔ rp (t.descend q).endNode <+: rp n :=
    fun n hn => h.labelled.stopped_prefix_iff hs hn
  have hr : (t.descend q).endNode ≠ ROOT := by
    intro hr
    have hpre := (hpast _ hm).mpr (List.prefix_refl _)
    rw [hr, show rp ROOT = [] from h.labelled.rootPath, List.prefix_nil] at hpre
    exact hq hpre
  refine ⟨hm, hr, hpast, ?_⟩
  rw [h.count _ hm hr]
  refine countFrom_congr fun e he => ?_
  obtain ⟨n, hn, hp⟩ := h.covers e he
  rw [← hp]
  exact hpast n hn

/-- Nobody passes where the walk has not been. -/
theorem countFrom_eq_zero (h : Counted t live rp E) {ts : List Token} {j : Nat}
    (hj : (t.descend ts).consumed < j) (hlen : j ≤ ts.length) : E.countFrom (ts.take j) = 0 := by
  refine List.countP_eq_zero.mpr fun e he hpre => ?_
  have hheld := h.held he (List.isPrefixOf_iff_prefix.mp hpre)
  have := (h.labelled.held_take_iff (descend_stopped h.labelled ts) hlen).mp hheld
  omega

/-- **The demand of a path** is the number of requests that start with it. -/
theorem pendingDemand_eq (h : Counted t live rp E) {path : List Token} (hpath : path ≠ []) :
    t.pendingDemand path = E.countFrom path := by
  unfold pendingDemand
  rw [pendingDemandLoop_eq h.labelled path _ ROOT 0 h.labelled.rootLive (Nat.zero_le _) (by omega)]
  show (if (t.descend path).consumed = path.length
    then (t.node (t.descend path).endNode).pendingCount else 0) = _
  by_cases hdone : (t.descend path).consumed = path.length
  · obtain ⟨-, -, -, hcount⟩ := node_past h hpath hdone
    rw [if_pos hdone, hcount]
  · have hle := consumed_le h.labelled path
    have hzero := countFrom_eq_zero h (Nat.lt_of_le_of_ne hle hdone) (Nat.le_refl _)
    rw [List.take_length] at hzero
    rw [if_neg hdone, hzero]

/-- A descent that uses up the path and the last edge has reached the node of that path. -/
theorem path_of_descend (h : Labelled t.heap live rp) {path : List Token}
    (hpath : (t.descend path).consumed = path.length)
    (hedge : (t.descend path).endOffset = (t.node (t.descend path).endNode).edge.length) :
    (t.descend path).endNode ∈ live ∧ rp (t.descend path).endNode = path := by
  obtain ⟨hn, -, -, above, hp, htake⟩ := h.stopped_path (descend_stopped h path)
  rw [hpath, hedge, List.take_length, ← heap_edge, List.take_length] at htake
  exact ⟨hn, hp.trans htake.symm⟩

/-- The terminators of a node are the requests whose tokens are its path. -/
theorem length_terminators (h : Counted t live rp E) (hE : E.NodupKeys) {n : NodeId} (hn : n ∈ live) :
    (t.node n).terminators.length = E.countP fun e => e.2 = rp n := by
  have hends : (t.node n).terminators.Perm ((E.filter fun e => e.2 = rp n).map (·.1)) := by
    refine (List.perm_ext_iff_of_nodup (h.termsNodup n hn) ?_).mpr fun r => ?_
    · exact (List.filter_sublist.map Sigma.fst).nodup hE
    · rw [h.terms n hn, List.mem_map]
      constructor
      · intro hr
        exact ⟨_, List.mem_filter.mpr ⟨hr, decide_eq_true rfl⟩, rfl⟩
      · rintro ⟨e, he, rfl⟩
        obtain ⟨he, hpath⟩ := List.mem_filter.mp he
        rwa [← of_decide_eq_true hpath]
  rw [hends.length_eq, List.length_map, List.countP_eq_length_filter]

/-- **The terminators at a path** are the requests whose tokens are that path. -/
theorem terminatorsAt_eq (h : Counted t live rp E) (hE : E.NodupKeys) (path : List Token) :
    t.terminatorsAt path = E.countP fun e => e.2 = path := by
  have hnone (hno : ∀ n ∈ live, rp n ≠ path) : E.countP (fun e => e.2 = path) = 0 := by
    refine List.countP_eq_zero.mpr fun e he hpath => ?_
    obtain ⟨n, hn, hp⟩ := h.covers e he
    exact hno n hn (hp.trans (of_decide_eq_true hpath))
  unfold terminatorsAt
  simp only
  by_cases hpath : (t.descend path).consumed = path.length
  · rw [if_neg (not_not.mpr hpath)]
    by_cases hedge : (t.descend path).endOffset = (t.node (t.descend path).endNode).edge.length
    · obtain ⟨hn, hp⟩ := path_of_descend h.labelled hpath hedge
      rw [if_neg (not_not.mpr hedge), length_terminators h hE hn, hp]
    · rw [if_pos hedge]
      refine (hnone fun n hn hp => hedge ?_).symm
      rw [← hp, descend_of_covered h.labelled hn]
  · rw [if_pos hpath]
    refine (hnone fun n hn hp => hpath ?_).symm
    rw [← hp, descend_of_covered h.labelled hn]

end Tree

namespace PendingTree

def pendingDemand (p : PendingTree) (path : List Token) : Nat := p.tree.pendingDemand path

def terminatorsAt (p : PendingTree) (path : List Token) : Nat := p.tree.terminatorsAt path

theorem Sound.pendingDemand_eq {p : PendingTree} (h : Sound p) {path : List Token}
    (hpath : path ≠ []) : p.pendingDemand path = p.pendingFrom path := by
  obtain ⟨live, rp, hc, -⟩ := h
  exact Tree.pendingDemand_eq hc hpath

/-- **No demand means no request**: none pending starts with the path. -/
theorem Sound.pendingDemand_eq_zero_iff {p : PendingTree} (h : Sound p) {path : List Token}
    (hpath : path ≠ []) :
    p.pendingDemand path = 0 ↔ ∀ rid tokens, p.paths.lookup rid = some tokens → ¬ path <+: tokens := by
  rw [h.pendingDemand_eq hpath]
  unfold pendingFrom
  rw [List.countP_eq_zero]
  constructor
  · intro hnone rid tokens hlook hpre
    exact hnone ⟨rid, tokens⟩ (mem_entries_iff.mpr hlook) (List.isPrefixOf_iff_prefix.mpr hpre)
  · intro hnone e he hpre
    exact hnone e.1 e.2 (mem_entries_iff.mp he) (List.isPrefixOf_iff_prefix.mp hpre)

/-- How many pending requests have exactly the tokens of `path`. -/
def pendingAt (p : PendingTree) (path : List Token) : Nat :=
  p.paths.entries.countP fun e => e.2 = path

theorem Sound.terminatorsAt_eq {p : PendingTree} (h : Sound p) (path : List Token) :
    p.terminatorsAt path = p.pendingAt path := by
  obtain ⟨live, rp, hc, -⟩ := h
  exact Tree.terminatorsAt_eq hc p.paths.nodupKeys path

/-- **Both counts are right after every run**, wherever the path ends. -/
theorem demand_and_terminators (ops : List Op) {path : List Token} (hpath : path ≠ []) :
    (run ops).pendingDemand path = (run ops).pendingFrom path ∧
      (run ops).terminatorsAt path = (run ops).pendingAt path :=
  ⟨(sound_run ops).pendingDemand_eq hpath, (sound_run ops).terminatorsAt_eq path⟩

/-- At a node, inside an edge, past the tree and where the tree goes another way. -/
theorem demand_and_terminators_split :
    let ops := [.insert 1 [5, 6, 7], .insert 2 [5, 6, 8], .insert 3 [5, 6], .insert 4 [5, 6]]
    ((run ops).pendingDemand [5, 6] = 4 ∧ (run ops).terminatorsAt [5, 6] = 2) ∧
      ((run ops).pendingDemand [5] = 4 ∧ (run ops).terminatorsAt [5] = 0) ∧
      ((run ops).pendingDemand [5, 6, 7, 9] = 0 ∧ (run ops).terminatorsAt [5, 6, 7, 9] = 0) ∧
      ((run ops).pendingDemand [5, 7] = 0 ∧ (run ops).terminatorsAt [5, 7] = 0) :=
  ⟨demand_and_terminators _ (by decide), demand_and_terminators _ (by decide),
    demand_and_terminators _ (by decide), demand_and_terminators _ (by decide)⟩

end PendingTree

end Peek
