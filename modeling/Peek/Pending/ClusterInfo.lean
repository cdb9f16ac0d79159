/-
Which cluster a pending request belongs to (`cluster_info` and `all_cluster_info` of
`src/tree.rs` and `src/pending.rs`).

The climb starts where the request ends and stops at the first node that two requests pass.
Counts do not fall on the way up, so that node is the deepest such one, and no depth below it
has two requests either: its path is all that the request shares with another one.
-/
import Peek.Pending.NoSharing
import Peek.Pending.SharedPrefix

namespace Peek

open Radix

namespace Tree

variable {t : Tree} {live : Set NodeId} {rp : NodeId → List Token} {E : Requests}

/-- Some node is the first that all requests past `q` run through. -/
theorem exists_node_past (h : Counted t live rp E) {q : List Token} (hq : q ≠ []) (hheld : Held live rp q) :
    ∃ m ∈ live, m ≠ ROOT ∧ (∀ n ∈ live, q <+: rp n ↔ rp m <+: rp n) ∧
      E.countFrom q = (t.node m).pendingCount := by
  obtain ⟨hm, hr, hpast, hcount⟩ := node_past h hq (consumed_of_held h.labelled hheld)
  exact ⟨_, hm, hr, hpast, hcount⟩

/-! ### The climb -/

/-- `m` is the deepest node on the way to `cur` that two requests pass. -/
structure IsCluster (t : Tree) (live : Set NodeId) (rp : NodeId → List Token) (cur m : NodeId) : Prop where
  mem : m ∈ live
  notRoot : m ≠ ROOT
  above : rp m <+: rp cur
  shared : 2 ≤ (t.node m).pendingCount
  deepest : ∀ n ∈ live, n ≠ ROOT → rp n <+: rp cur → 2 ≤ (t.node n).pendingCount → rp n <+: rp m

/-- No node on the way to `cur` is passed by two requests. -/
def NoCluster (t : Tree) (live : Set NodeId) (rp : NodeId → List Token) (cur : NodeId) : Prop :=
  ∀ n ∈ live, n ≠ ROOT → rp n <+: rp cur → (t.node n).pendingCount < 2

/-- The climb finds the cluster, and its depth is the length of the path there. -/
theorem clusterLoop_cases (h : Labelled t.heap live rp) :
    ∀ (fuel : Nat) (cur : NodeId), cur ∈ live → (rp cur).length < fuel →
      (NoCluster t live rp cur ∧ t.clusterLoop fuel cur (rp cur).length = none) ∨
      ∃ m, IsCluster t live rp cur m ∧ t.clusterLoop fuel cur (rp cur).length =
        some (m, (rp m).length, (t.node m).pendingCount) := by
  intro fuel
  induction fuel with
  | zero => intro cur _ hlt; omega
  | succ fuel ih =>
      intro cur hcur hlt
      rw [clusterLoop]
      by_cases hroot : cur = ROOT
      · rw [if_pos hroot]
        refine Or.inl ⟨fun n hn hr hpre => ?_, rfl⟩
        rw [hroot] at hpre
        exact absurd (h.eq_root_of_prefix hn hpre) hr
      · rw [if_neg hroot]
        simp only
        by_cases hshared : (t.node cur).pendingCount ≥ 2
        · rw [if_pos hshared]
          exact Or.inr ⟨cur, ⟨hcur, hroot, List.prefix_refl _, hshared, fun n _ _ hpre _ => hpre⟩, rfl⟩
        · rw [if_neg hshared]
          have hpath : rp cur = rp (t.node cur).parent ++ (t.node cur).edge := h.path_eq hcur hroot
          have hlen := h.parent_length_lt hcur hroot
          have hdepth : (rp cur).length - (t.node cur).edge.length = (rp (t.node cur).parent).length := by
            rw [hpath, List.length_append]
            omega
          have hup : ∀ n ∈ live, rp n <+: rp cur ↔ n = cur ∨ rp n <+: rp (t.node cur).parent :=
            fun n hn => h.prefix_parent_iff hn hcur hroot
          simp only [heap_parent] at hlen
          rw [hdepth]
          rcases ih (t.node cur).parent (h.parent_live hcur hroot) (by omega) with
            ⟨hno, heq⟩ | ⟨m, hm, heq⟩
          · refine Or.inl ⟨fun n hn hr hpre => ?_, heq⟩
            rcases (hup n hn).mp hpre with rfl | hpre
            · omega
            · exact hno n hn hr hpre
          · refine Or.inr ⟨m, ⟨hm.mem, hm.notRoot, (hup m hm.mem).mpr (Or.inr hm.above), hm.shared,
              fun n hn hr hpre hcount => ?_⟩, heq⟩
            rcases (hup n hn).mp hpre with rfl | hpre
            · exact absurd hcount hshared
            · exact hm.deepest n hn hr hpre hcount

end Tree

namespace PendingTree

/-- The cluster of `rid`; `none` if `rid` is not pending or alone. -/
def clusterInfo (p : PendingTree) (rid : Rid) : Option (NodeId × Nat × Nat) :=
  match p.paths.lookup rid with
  | none => none
  | some tokens => p.tree.clusterInfo rid tokens

variable {p : PendingTree} {live : Set NodeId} {rp : NodeId → List Token}

theorem clusterInfo_cases (h : p.tree.Counted live rp p.paths.entries) {rid : Rid} {ts : List Token}
    (hl : p.paths.lookup rid = some ts) : ∃ n ∈ live, rp n = ts ∧
      ((p.tree.NoCluster live rp n ∧ p.clusterInfo rid = none) ∨
      ∃ m, p.tree.IsCluster live rp n m ∧ p.clusterInfo rid =
        some (m, (rp m).length, (p.tree.node m).pendingCount)) := by
  obtain ⟨n, hn, hp⟩ := h.covers _ (mem_entries_iff.mpr hl)
  have hp : rp n = ts := hp
  subst hp
  have hterm : rid ∈ (p.tree.node n).terminators := (h.terms n hn rid).mpr (mem_entries_iff.mpr hl)
  have hinfo : p.clusterInfo rid = p.tree.clusterLoop ((rp n).length + 1) n (rp n).length := by
    unfold clusterInfo
    rw [hl]
    simp only
    unfold Tree.clusterInfo
    rw [Tree.descend_of_covered h.labelled hn]
    simp only
    rw [if_neg (by simp), if_neg (not_not.mpr hterm)]
  refine ⟨n, hn, rfl, ?_⟩
  rw [hinfo]
  exact Tree.clusterLoop_cases h.labelled _ n hn (Nat.lt_succ_self _)

/-! ### What the cluster is -/

/-- A depth of the request's tokens where two requests pass lies above a node where two pass. -/
theorem exists_shared_node (h : p.tree.Counted live rp p.paths.entries) {n : NodeId} (hn : n ∈ live)
    {j : Nat} (hj : 0 < j) (hlen : j ≤ (rp n).length) (hcount : 2 ≤ p.pendingFrom ((rp n).take j)) :
    ∃ m ∈ live, m ≠ ROOT ∧ rp m <+: rp n ∧ 2 ≤ (p.tree.node m).pendingCount ∧ j ≤ (rp m).length := by
  have hq : (rp n).take j ≠ [] := fun hnil => by
    have := congrArg List.length hnil
    rw [List.length_take, List.length_nil] at this
    omega
  obtain ⟨m, hm, hr, hpast, heq⟩ := Tree.exists_node_past h hq ⟨n, hn, List.take_prefix _ _⟩
  refine ⟨m, hm, hr, (hpast n hn).mp (List.take_prefix _ _), heq ▸ hcount, ?_⟩
  have := ((hpast m hm).mpr (List.prefix_refl _)).length_le
  rwa [List.length_take, Nat.min_eq_left hlen] at this

theorem longestSharedPrefix_of_noCluster (h : p.tree.Counted live rp p.paths.entries)
    (hcomp : p.tree.Compressed live) {rid : Rid} {n : NodeId} (hn : n ∈ live)
    (hl : p.paths.lookup rid = some (rp n)) (hno : p.tree.NoCluster live rp n) :
    p.longestSharedPrefix rid = 0 := by
  by_contra hpos
  have hsound : Sound p := ⟨live, rp, h, hcomp⟩
  obtain ⟨hlen, hcount⟩ := (hsound.le_longestSharedPrefix_iff hl (Nat.pos_of_ne_zero hpos)).mp (Nat.le_refl _)
  obtain ⟨m, hm, hr, hpre, hshared, -⟩ := exists_shared_node h hn (Nat.pos_of_ne_zero hpos) hlen hcount
  have := hno m hm hr hpre
  omega

/-- **The depth of the cluster** is what the request shares with another one. -/
theorem longestSharedPrefix_of_isCluster (h : p.tree.Counted live rp p.paths.entries)
    (hcomp : p.tree.Compressed live) {rid : Rid} {n m : NodeId} (hn : n ∈ live)
    (hl : p.paths.lookup rid = some (rp n)) (hm : p.tree.IsCluster live rp n m) :
    p.longestSharedPrefix rid = (rp m).length := by
  have hsound : Sound p := ⟨live, rp, h, hcomp⟩
  have hlen := hm.above.length_le
  have hpos : 0 < (rp m).length := List.length_pos_iff.mpr (h.labelled.path_ne_nil hm.mem hm.notRoot)
  refine Nat.le_antisymm ?_ ?_
  · rcases Nat.eq_zero_or_pos (p.longestSharedPrefix rid) with hzero | hshared
    · omega
    · obtain ⟨hle, hcount⟩ := (hsound.le_longestSharedPrefix_iff hl hshared).mp (Nat.le_refl _)
      obtain ⟨k, hk, hr, hpre, hshared, hjk⟩ := exists_shared_node h hn hshared hle hcount
      have := (hm.deepest k hk hr hpre hshared).length_le
      omega
  · refine (hsound.le_longestSharedPrefix_iff hl hpos).mpr ⟨hlen, ?_⟩
    have hcount := hm.shared
    rw [h.count m hm.mem hm.notRoot] at hcount
    rwa [← List.prefix_iff_eq_take.mp hm.above]

/-- Nothing in common with any other request: nobody else begins with the first token. -/
theorem Sound.longestSharedPrefix_eq_zero_iff (hp : Sound p) {rid : Rid} {ts : List Token}
    (hl : p.paths.lookup rid = some ts) : p.longestSharedPrefix rid = 0 ↔
      ∀ q us, q ≠ rid → p.paths.lookup q = some us → Unlike ts us := by
  have hcommon : p.longestSharedPrefix rid = (p.others rid).longestCommon ts := by
    rw [hp.longestSharedPrefix_eq, hl]
    rfl
  rw [hcommon, Requests.longestCommon_eq_zero_iff]
  constructor
  · intro hall q us hq hus
    exact unlike_iff.mpr (hall ⟨q, us⟩ (List.mem_filter.mpr ⟨mem_entries_iff.mpr hus, decide_eq_true hq⟩))
  · intro hall e he
    obtain ⟨he, hq⟩ := List.mem_filter.mp he
    exact unlike_iff.mp (hall e.1 e.2 (of_decide_eq_true hq) (mem_entries_iff.mp he))

/-- **The cluster of a request**: none, or the node at the end of what it shares. -/
theorem Sound.clusterInfo_eq (hp : Sound p) : ∃ live rp, p.tree.Counted live rp p.paths.entries ∧
    ∀ rid ts, p.paths.lookup rid = some ts →
      (p.longestSharedPrefix rid = 0 ∧ p.clusterInfo rid = none) ∨
      ∃ m ∈ live, rp m = ts.take (p.longestSharedPrefix rid) ∧ 2 ≤ p.pendingFrom (rp m) ∧
        0 < p.longestSharedPrefix rid ∧
        p.clusterInfo rid = some (m, p.longestSharedPrefix rid, p.pendingFrom (rp m)) := by
  obtain ⟨live, rp, h, hcomp⟩ := hp
  refine ⟨live, rp, h, fun rid ts hl => ?_⟩
  obtain ⟨n, hn, rfl, ⟨hno, hinfo⟩ | ⟨m, hm, hinfo⟩⟩ := clusterInfo_cases h hl
  · exact Or.inl ⟨longestSharedPrefix_of_noCluster h hcomp hn hl hno, hinfo⟩
  · have hdepth := longestSharedPrefix_of_isCluster h hcomp hn hl hm
    have hcount : (p.tree.node m).pendingCount = p.pendingFrom (rp m) := h.count m hm.mem hm.notRoot
    have hpos : 0 < (rp m).length :=
      List.length_pos_iff.mpr (h.labelled.path_ne_nil hm.mem hm.notRoot)
    refine Or.inr ⟨m, hm.mem, ?_, hcount ▸ hm.shared, hdepth ▸ hpos, ?_⟩
    · rw [hdepth]
      exact List.prefix_iff_eq_take.mp hm.above
    · rw [hinfo, hdepth, hcount]

/-- Depth and size are those of the cluster's node, whoever asks. -/
theorem Sound.clusterInfo_node (hp : Sound p) : ∃ depth size : NodeId → Nat,
    ∀ rid node d s, p.clusterInfo rid = some (node, d, s) →
      d = depth node ∧ s = size node ∧ 1 ≤ d ∧ 2 ≤ s := by
  obtain ⟨live, rp, h, -⟩ := hp
  refine ⟨fun m => (rp m).length, fun m => (p.tree.node m).pendingCount, fun rid node d s heq => ?_⟩
  cases hl : p.paths.lookup rid with
  | none =>
      unfold clusterInfo at heq
      rw [hl] at heq
      cases heq
  | some ts =>
      obtain ⟨n, -, -, ⟨-, hnone⟩ | ⟨m, hm, hsome⟩⟩ := clusterInfo_cases h hl
      · rw [hnone] at heq
        cases heq
      · rw [hsome] at heq
        obtain ⟨rfl, rfl, rfl⟩ : m = node ∧ (rp m).length = d ∧ (p.tree.node m).pendingCount = s := by
          simpa using heq
        have hne := h.labelled.path_ne_nil hm.mem hm.notRoot
        exact ⟨rfl, rfl, List.length_pos_iff.mpr hne, hm.shared⟩

/-! ### All requests at once -/

/-- One entry for each pending request, and it is its cluster. -/
theorem lookup_allClusterInfo (p : PendingTree) (rid : Rid) : p.allClusterInfo.lookup rid =
    (p.paths.lookup rid).map fun _ => p.clusterInfo rid := by
  have hfold : ∀ (es : List ((_ : Rid) × List Token)) (out : Map Rid (Option (NodeId × Nat × Nat))),
      es.NodupKeys → (es.foldl (fun out e => out.insert e.1 (p.tree.clusterInfo e.1 e.2)) out).lookup rid =
        ((es.dlookup rid).map (p.tree.clusterInfo rid)).or (out.lookup rid) := by
    intro es
    induction es with
    | nil => intro out _; rfl
    | cons e es ih =>
        obtain ⟨r, ts⟩ := e
        intro out hnd
        obtain ⟨hnot, hnd⟩ := List.nodupKeys_cons.mp hnd
        rw [List.foldl_cons, ih _ hnd, Map.lookup_insert_of]
        by_cases hr : rid = r
        · subst hr
          have hnone : es.dlookup rid = none := List.dlookup_eq_none.mpr hnot
          rw [hnone, List.dlookup_cons_eq, if_pos rfl]
          rfl
        · rw [List.dlookup_cons_ne _ _ hr, if_neg hr]
  have hlookup : p.paths.entries.dlookup rid = p.paths.lookup rid := rfl
  unfold allClusterInfo clusterInfo
  rw [hfold _ _ p.paths.nodupKeys, hlookup, AList.lookup_empty, Option.or_none]
  cases p.paths.lookup rid with
  | none => rfl
  | some ts => rfl

/-- **The clusters after every run.** -/
theorem cluster_infos (ops : List Op) :
    (∀ rid ts, (run ops).paths.lookup rid = some ts →
      ((run ops).clusterInfo rid = none ↔
        ∀ q us, q ≠ rid → (run ops).paths.lookup q = some us → Unlike ts us) ∧
      ∀ node depth size, (run ops).clusterInfo rid = some (node, depth, size) →
        depth = (run ops).longestSharedPrefix rid ∧ size = (run ops).pendingFrom (ts.take depth) ∧
          2 ≤ size) ∧
    (∀ rid rid' ts ts' node depth size node' depth' size',
      (run ops).paths.lookup rid = some ts → (run ops).paths.lookup rid' = some ts' →
      (run ops).clusterInfo rid = some (node, depth, size) →
      (run ops).clusterInfo rid' = some (node', depth', size') →
        (node = node' ↔ ts.take depth = ts'.take depth')) ∧
    ∀ rid, (run ops).allClusterInfo.lookup rid =
      ((run ops).paths.lookup rid).map fun _ => (run ops).clusterInfo rid := by
  obtain ⟨live, rp, h, hinfo⟩ := (sound_run ops).clusterInfo_eq
  refine ⟨fun rid ts hl => ⟨?_, fun node depth size heq => ?_⟩, ?_, lookup_allClusterInfo _⟩
  · rw [← (sound_run ops).longestSharedPrefix_eq_zero_iff hl]
    rcases hinfo rid ts hl with ⟨hzero, hnone⟩ | ⟨m, -, -, -, hpos, hsome⟩
    · exact iff_of_true hnone hzero
    · exact iff_of_false (by rw [hsome]; exact Option.some_ne_none _) (by omega)
  · rcases hinfo rid ts hl with ⟨-, hnone⟩ | ⟨m, -, hpath, hcount, -, hsome⟩
    · rw [hnone] at heq
      exact absurd heq.symm (Option.some_ne_none _)
    · rw [hsome] at heq
      obtain ⟨rfl, rfl, rfl⟩ : m = node ∧ _ = depth ∧ _ = size := by simpa using heq
      exact ⟨rfl, by rw [hpath], hcount⟩
  · intro rid rid' ts ts' node depth size node' depth' size' hl hl' heq heq'
    rcases hinfo rid ts hl with ⟨-, hnone⟩ | ⟨m, hm, hpath, -, -, hsome⟩
    · rw [hnone] at heq
      exact absurd heq.symm (Option.some_ne_none _)
    · rcases hinfo rid' ts' hl' with ⟨-, hnone'⟩ | ⟨m', hm', hpath', -, -, hsome'⟩
      · rw [hnone'] at heq'
        exact absurd heq'.symm (Option.some_ne_none _)
      · rw [hsome] at heq
        rw [hsome'] at heq'
        obtain ⟨rfl, rfl, rfl⟩ : m = node ∧ _ = depth ∧ _ = size := by simpa using heq
        obtain ⟨rfl, rfl, rfl⟩ : m' = node' ∧ _ = depth' ∧ _ = size' := by simpa using heq'
        rw [← hpath, ← hpath']
        exact ⟨fun hmm => by rw [hmm], h.labelled.path_injective hm hm'⟩

/-- Two nested clusters and a request of its own. -/
theorem cluster_infos_nested :
    let ops := [.insert 1 [5, 6, 7, 8], .insert 2 [5, 6, 7, 9], .insert 3 [5, 4], .insert 4 [2]]
    ((run ops).clusterInfo 4 = none ↔
      ∀ q us, q ≠ 4 → (run ops).paths.lookup q = some us → Unlike [2] us) ∧
    (3 = (run ops).longestSharedPrefix 1 ∧ 2 = (run ops).pendingFrom [5, 6, 7] ∧ 2 ≤ 2) ∧
    ((4 : NodeId) = 1 ↔ [5, 6, 7] = [5]) := by
  intro ops
  have h := cluster_infos ops
  exact ⟨(h.1 4 [2] (by decide)).1, (h.1 1 [5, 6, 7, 8] (by decide)).2 4 3 2 (by decide),
    h.2.1 1 3 [5, 6, 7, 8] [5, 4] 4 3 2 1 1 3 (by decide) (by decide) (by decide) (by decide)⟩

end PendingTree

end Peek
