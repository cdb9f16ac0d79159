/-
A pending tree in which nothing is shared.

If no two pending requests have the first token in common, every node but the root is passed by
one request at most.  So no request has a cluster, and its score is the length of its prompt: the
score does not come to nothing, since a request passes its own edges.
-/
import Peek.Pending.ReqScores

namespace Peek

open Radix

/-- No first token in common. -/
def Unlike (ts us : List Token) : Prop := ∀ t, ts.head? = some t → us.head? ≠ some t

theorem unlike_iff {ts us : List Token} : Unlike ts us ↔ lcpLen ts us = 0 := by
  unfold Unlike
  cases ts with
  | nil => simp
  | cons t ts =>
      cases us with
      | nil => simp
      | cons u us =>
          rw [lcpLen_cons]
          by_cases h : t = u
          · simp [h]
          · simp [h, Ne.symm h]

instance (ts us : List Token) : Decidable (Unlike ts us) := decidable_of_iff _ unlike_iff.symm

theorem Unlike.symm {ts us : List Token} (h : Unlike ts us) : Unlike us ts :=
  fun t hus hts => h t hts hus

namespace PendingTree

/-- No two pending requests have the first token in common. -/
def Unshared (p : PendingTree) : Prop :=
  p.paths.entries.Pairwise fun e e' => Unlike e.2 e'.2

instance (p : PendingTree) : Decidable p.Unshared := inferInstanceAs (Decidable (List.Pairwise _ _))

variable {p : PendingTree} {live : Set NodeId} {rp : NodeId → List Token}

theorem countP_le_one {α : Type} {q : α → Bool} {l : List α}
    (h : l.Pairwise fun a b => ¬ (q a = true ∧ q b = true)) : l.countP q ≤ 1 := by
  induction l with
  | nil => exact Nat.zero_le 1
  | cons a l ih =>
      obtain ⟨ha, hl⟩ := List.pairwise_cons.mp h
      rw [List.countP_cons]
      by_cases hq : q a = true
      · have hnone : l.countP q = 0 := List.countP_eq_zero.mpr fun b hb hqb => ha b hb ⟨hq, hqb⟩
        rw [if_pos hq, hnone]
      · rw [if_neg hq]
        exact ih hl

/-- A path that is not empty is passed by one request at most. -/
theorem Unshared.pendingFrom_le_one (h : p.Unshared) {path : List Token} (hpath : path ≠ []) :
    Requests.countFrom p.paths.entries path ≤ 1 := by
  obtain ⟨t, tl, rfl⟩ := List.exists_cons_of_ne_nil hpath
  refine countP_le_one (List.Pairwise.imp (fun {e e'} hunlike hboth => ?_) h)
  have hhead : ∀ ts : List Token, (t :: tl).isPrefixOf ts = true → ts.head? = some t := by
    intro ts hts
    obtain ⟨rest, rfl⟩ := List.isPrefixOf_iff_prefix.mp hts
    rfl
  exact hunlike t (hhead _ hboth.1) (hhead _ hboth.2)

theorem Unshared.clusterLoop_eq_none (h : p.Unshared)
    (hc : p.tree.Counted live rp p.paths.entries) (fuel : Nat) {n : NodeId} (hn : n ∈ live)
    (depth : Nat) : p.tree.clusterLoop fuel n depth = none := by
  induction fuel generalizing n depth with
  | zero => rfl
  | succ fuel ih =>
      unfold Tree.clusterLoop
      by_cases hr : n = ROOT
      · rw [if_pos hr]
      · have hpath : rp n ≠ [] := by
          intro hnil
          refine hr (hc.labelled.path_injective hn hc.labelled.rootLive ?_)
          exact hnil.trans hc.labelled.rootPath.symm
        have hle := h.pendingFrom_le_one hpath
        rw [← hc.count n hn hr] at hle
        rw [if_neg hr]
        simp only
        rw [if_neg (by omega)]
        exact ih (hc.labelled.parent_live hn hr) _

/-- **Nobody has a cluster.** -/
theorem Unshared.lookup_allClusterInfo (h : p.Unshared) (hp : p.Sound) (rid : Rid) :
    (p.allClusterInfo.lookup rid).join = none := by
  obtain ⟨live, rp, hc, -⟩ := hp
  have hnone : ∀ rid ts, p.tree.clusterInfo rid ts = none := by
    intro rid ts
    have hlive := (hc.labelled.stopped_path (Tree.descend_stopped hc.labelled ts)).1
    unfold Tree.clusterInfo
    simp only
    split
    · rfl
    · split
      · rfl
      · exact h.clusterLoop_eq_none hc _ hlive _
  suffices key : ∀ (es : List ((_ : Rid) × List Token))
      (out : Map Rid (Option (NodeId × Nat × Nat))), (out.lookup rid).join = none →
      ((es.foldl (fun out e => out.insert e.1 (p.tree.clusterInfo e.1 e.2)) out).lookup
        rid).join = none from key _ ∅ rfl
  intro es
  induction es with
  | nil => exact fun out hout => hout
  | cons e es ih =>
      intro out hout
      refine ih _ ?_
      rw [Map.lookup_insert_of, hnone]
      split
      · rfl
      · exact hout

/-- **The score of a request is the length of its prompt.** -/
theorem Unshared.lookup_computeReqScores (h : p.Unshared) (hp : p.Sound) (rid : Rid) :
    p.computeReqScores.lookup rid =
      (p.paths.lookup rid).map fun ts => (ts.length : Int) := by
  rw [hp.lookup_computeReqScores]
  cases hl : p.paths.lookup rid with
  | none => rfl
  | some ts =>
      have hperm := Map.perm_erase_cons hl
      have hothers : ∀ e ∈ (p.paths.erase rid).entries, Unlike ts e.2 := by
        have hpair := (hperm.pairwise_iff fun {e e'} h => Unlike.symm h).mp h
        exact (List.pairwise_cons.mp hpair).1
      have hself : lcpLen ts ts = ts.length := lcpLen_eq_length_iff.mpr (List.prefix_refl ts)
      have hzero : ((p.paths.erase rid).entries.map fun e => lcpLen ts e.2).sum = 0 := by
        refine List.sum_eq_zero fun k hk => ?_
        obtain ⟨e, he, rfl⟩ := List.mem_map.mp hk
        exact unlike_iff.mp (hothers e he)
      rw [Option.map_some, Option.map_some]
      unfold Requests.sharedTokens
      rw [(hperm.map _).sum_eq, List.map_cons, List.sum_cons, hself, hzero]
      rfl

end PendingTree

end Peek
