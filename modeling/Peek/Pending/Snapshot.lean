/-
The tree as a flat list (`snapshot_for_walk` of `src/pending.rs`).

The dump is taken slot by slot, and only the freelist tells live slots from dead ones; the slots it
does not name are the nodes below the root.  A reader has the entries and nothing else: it finds a
parent by its id, climbs to the root, and strings the edges together.
-/
import Peek.Base.Dict
import Peek.Base.ParentChain
import Peek.Pending.Invariant

namespace Peek

open Radix ParentChain

/-- `(node_id, parent_id, edge_tokens, terminators, pending_count)` -/
structure WalkEntry where
  nodeId : NodeId
  parentId : NodeId
  edge : List Token
  terminators : List Rid
  pendingCount : Nat
  deriving DecidableEq

section

-- the order in which a hash set yields its elements
variable (setOrder : List Rid → List Rid)

def Tree.walkEntry (t : Tree) (id : NodeId) : WalkEntry :=
  let node := t.node id
  { nodeId := id
    parentId := node.parent
    edge := node.edge
    terminators := setOrder node.terminators
    pendingCount := node.pendingCount }

/-- Every slot but the free ones, in the order of the arena. -/
def PendingTree.snapshotForWalk (p : PendingTree) : List WalkEntry :=
  (List.range p.tree.nodes.size).filterMap fun id =>
    if id ≠ ROOT ∧ id ∈ p.tree.free then none else some (p.tree.walkEntry setOrder id)

end

/-! ### Reading a snapshot -/

namespace Snapshot

/-- `{node_id: parent_id}` -/
def parentOf (snap : List WalkEntry) (id : NodeId) : NodeId :=
  (List.lookup id (Dict.ofList (·.nodeId) (·.parentId) snap)).getD ROOT

/-- `{node_id: edge_tokens}` -/
def edgeOf (snap : List WalkEntry) (id : NodeId) : List Token :=
  (List.lookup id (Dict.ofList (·.nodeId) (·.edge) snap)).getD []

/-- The edges from the root to the entry, strung together. -/
def tokensTo (snap : List WalkEntry) (id : NodeId) : List Token :=
  (ROOT :: (climbed (parentOf snap) ROOT snap.length id).reverse).flatMap (edgeOf snap)

/-- Every terminator, with the entry it is listed in. -/
def terminatorsOf (snap : List WalkEntry) : List (Rid × NodeId) :=
  snap.flatMap fun e => e.terminators.map fun rid => (rid, e.nodeId)

/-- `{rid: tokens}` -/
def paths (snap : List WalkEntry) : List (Rid × List Token) :=
  Dict.ofList (·.1) (fun e => tokensTo snap e.2) (terminatorsOf snap)

end Snapshot

namespace PendingTree

open Snapshot

variable {setOrder : List Rid → List Rid} {p : PendingTree} {live : Set NodeId}
  {rp : NodeId → List Token}

/-! ### The entries -/

/-- The entries are those of the live nodes. -/
theorem mem_snapshotForWalk (h : p.tree.Counted live rp p.paths.entries) {e : WalkEntry} :
    e ∈ p.snapshotForWalk setOrder ↔ ∃ n ∈ live, e = p.tree.walkEntry setOrder n := by
  have hlive : ∀ n, n ∈ live ↔ n < p.tree.nodes.size ∧ ¬ (n ≠ ROOT ∧ n ∈ p.tree.free) := by
    intro n
    constructor
    · intro hn
      exact ⟨h.arena.lt_size hn, fun hfree => h.arena.disjoint n hn hfree.2⟩
    · rintro ⟨hlt, hfree⟩
      by_cases hr : n = ROOT
      · rw [hr]
        exact h.labelled.rootLive
      · exact ((h.arena.slots n).mp hlt).resolve_right fun hf => hfree ⟨hr, hf⟩
  unfold snapshotForWalk
  rw [List.mem_filterMap]
  constructor
  · rintro ⟨n, hn, he⟩
    split at he
    · cases he
    · rename_i hfree
      exact ⟨n, (hlive n).mpr ⟨List.mem_range.mp hn, hfree⟩, (Option.some.inj he).symm⟩
  · rintro ⟨n, hn, rfl⟩
    obtain ⟨hlt, hfree⟩ := (hlive n).mp hn
    exact ⟨n, List.mem_range.mpr hlt, if_neg hfree⟩

theorem nodup_snapshotForWalk (setOrder : List Rid → List Rid) (p : PendingTree) :
    ((p.snapshotForWalk setOrder).map (·.nodeId)).Nodup := by
  have hids : (p.snapshotForWalk setOrder).map (·.nodeId) =
      (List.range p.tree.nodes.size).filter fun id => ¬ (id ≠ ROOT ∧ id ∈ p.tree.free) := by
    unfold snapshotForWalk
    rw [List.map_filterMap, ← List.filterMap_eq_filter]
    refine List.filterMap_congr fun id _ => ?_
    by_cases hfree : id ≠ ROOT ∧ id ∈ p.tree.free
    · rw [if_pos hfree, Option.guard, if_neg (by rw [decide_eq_true_eq]; exact not_not.mpr hfree)]
      rfl
    · rw [if_neg hfree, Option.guard, if_pos (decide_eq_true hfree)]
      rfl
  rw [hids]
  exact List.nodup_range.filter _

/-- What a reader finds under the id of a live node is what the node has. -/
theorem lookup_snapshot (h : p.tree.Counted live rp p.paths.entries) {n : NodeId} (hn : n ∈ live)
    {β : Type} (field : WalkEntry → β) :
    List.lookup n (Dict.ofList (·.nodeId) field (p.snapshotForWalk setOrder)) =
      some (field (p.tree.walkEntry setOrder n)) := by
  refine Dict.lookup_ofList (·.nodeId) field (e := p.tree.walkEntry setOrder n)
    ((mem_snapshotForWalk h).mpr ⟨n, hn, rfl⟩) fun e he hid => ?_
  obtain ⟨m, -, rfl⟩ := (mem_snapshotForWalk h).mp he
  have hmn : m = n := hid
  rw [hmn]

theorem parentOf_snapshot (h : p.tree.Counted live rp p.paths.entries) {n : NodeId} (hn : n ∈ live) :
    parentOf (p.snapshotForWalk setOrder) n = (p.tree.node n).parent := by
  unfold parentOf
  rw [lookup_snapshot h hn]
  rfl

theorem edgeOf_snapshot (h : p.tree.Counted live rp p.paths.entries) {n : NodeId} (hn : n ∈ live) :
    edgeOf (p.snapshotForWalk setOrder) n = (p.tree.node n).edge := by
  unfold edgeOf
  rw [lookup_snapshot h hn]
  rfl

/-! ### The climb -/

/-- **Every climb over the entries ends at the root.** -/
theorem up_snapshot (h : p.tree.Counted live rp p.paths.entries) :
    ∀ n ∈ live, ∃ k, Up (parentOf (p.snapshotForWalk setOrder)) ROOT k n := by
  refine h.labelled.up_induction ⟨0, Up.root⟩ fun n hn hr hup => ?_
  obtain ⟨k, hup⟩ := hup
  refine ⟨k + 1, Up.step hr ?_⟩
  rwa [parentOf_snapshot h hn]

/-- There are entries enough for a climb. -/
theorem up_le_length (h : p.tree.Counted live rp p.paths.entries) {n : NodeId} (hn : n ∈ live)
    {k : Nat} (hup : Up (parentOf (p.snapshotForWalk setOrder)) ROOT k n) :
    k ≤ (p.snapshotForWalk setOrder).length := by
  have hmem : ∀ m, m ∈ ((p.snapshotForWalk setOrder).map (·.nodeId)).toFinset ↔ m ∈ live := by
    intro m
    rw [List.mem_toFinset, List.mem_map]
    constructor
    · rintro ⟨e, he, rfl⟩
      obtain ⟨m, hm, rfl⟩ := (mem_snapshotForWalk h).mp he
      exact hm
    · intro hm
      exact ⟨_, (mem_snapshotForWalk h).mpr ⟨m, hm, rfl⟩, rfl⟩
  have hcard := hup.le_card (fun m hm hr => (hmem _).mpr (by
    have hm := (hmem m).mp hm
    rw [parentOf_snapshot h hm]
    exact h.labelled.parent_live hm hr)) ((hmem n).mpr hn)
  rwa [List.toFinset_card_of_nodup (nodup_snapshotForWalk setOrder p), List.length_map] at hcard

/-- The edges on the way to a node spell its path. -/
theorem flatMap_climbed (h : p.tree.Counted live rp p.paths.entries) {k : Nat} {n : NodeId}
    (hup : Up (parentOf (p.snapshotForWalk setOrder)) ROOT k n) (hn : n ∈ live) :
    (climbed (parentOf (p.snapshotForWalk setOrder)) ROOT k n).reverse.flatMap
      (edgeOf (p.snapshotForWalk setOrder)) = rp n := by
  induction hup with
  | root => exact h.labelled.rootPath.symm
  | @step k n hr _ ih =>
      have hparent : parentOf (p.snapshotForWalk setOrder) n ∈ live := by
        rw [parentOf_snapshot h hn]
        exact h.labelled.parent_live hn hr
      rw [climbed, if_neg hr, List.reverse_cons, List.flatMap_append, ih hparent,
        h.labelled.path_eq hn hr, parentOf_snapshot h hn, List.flatMap_singleton, edgeOf_snapshot h hn]
      rfl

theorem tokensTo_snapshot (h : p.tree.Counted live rp p.paths.entries) {n : NodeId} (hn : n ∈ live) :
    tokensTo (p.snapshotForWalk setOrder) n = rp n := by
  obtain ⟨k, hup⟩ : ∃ k, Up (parentOf (p.snapshotForWalk setOrder)) ROOT k n := up_snapshot h n hn
  have hroot : edgeOf (p.snapshotForWalk setOrder) ROOT = [] :=
    (edgeOf_snapshot h h.labelled.rootLive).trans h.labelled.rootEdge
  unfold tokensTo
  rw [List.flatMap_cons, hroot, List.nil_append, climbed_of_le hup (up_le_length h hn hup)]
  exact flatMap_climbed h hup hn

/-! ### The requests -/

/-- The terminators a reader finds are the pending requests, at the nodes where their prompts end. -/
theorem mem_terminatorsOf (hset : ∀ rids, (setOrder rids).Perm rids)
    (h : p.tree.Counted live rp p.paths.entries) {rid : Rid} {n : NodeId} :
    (rid, n) ∈ terminatorsOf (p.snapshotForWalk setOrder) ↔
      n ∈ live ∧ p.paths.lookup rid = some (rp n) := by
  unfold terminatorsOf
  simp only [List.mem_flatMap, List.mem_map, Prod.mk.injEq]
  constructor
  · rintro ⟨e, he, rid, hrid, rfl, rfl⟩
    obtain ⟨m, hm, rfl⟩ := (mem_snapshotForWalk h).mp he
    exact ⟨hm, mem_entries_iff.mp ((h.terms m hm rid).mp ((hset _).mem_iff.mp hrid))⟩
  · rintro ⟨hn, hl⟩
    refine ⟨p.tree.walkEntry setOrder n, (mem_snapshotForWalk h).mpr ⟨n, hn, rfl⟩, rid, ?_, rfl, rfl⟩
    exact (hset _).mem_iff.mpr ((h.terms n hn rid).mpr (mem_entries_iff.mpr hl))

/-- **A pending prompt ends in one entry**, and the edges on the way there are its tokens. -/
theorem exists_entry (hset : ∀ rids, (setOrder rids).Perm rids)
    (h : p.tree.Counted live rp p.paths.entries) {rid : Rid} {ts : List Token}
    (hl : p.paths.lookup rid = some ts) :
    ∃ e ∈ p.snapshotForWalk setOrder,
      (∀ e' ∈ p.snapshotForWalk setOrder, rid ∈ e'.terminators ↔ e' = e) ∧
        tokensTo (p.snapshotForWalk setOrder) e.nodeId = ts := by
  obtain ⟨n, hn, hpath⟩ := h.covers ⟨rid, ts⟩ (mem_entries_iff.mpr hl)
  refine ⟨p.tree.walkEntry setOrder n, (mem_snapshotForWalk h).mpr ⟨n, hn, rfl⟩, fun e' he' => ?_,
    (tokensTo_snapshot h hn).trans hpath⟩
  obtain ⟨m, hm, rfl⟩ := (mem_snapshotForWalk h).mp he'
  have hterm : rid ∈ (p.tree.walkEntry setOrder m).terminators ↔ p.paths.lookup rid = some (rp m) := by
    show rid ∈ setOrder (p.tree.node m).terminators ↔ _
    rw [(hset _).mem_iff, h.terms m hm, mem_entries_iff]
  rw [hterm, hl, Option.some.injEq]
  constructor
  · intro hts
    rw [h.labelled.path_injective hm hn (hts.symm.trans hpath.symm)]
  · intro heq
    have hid : m = n := congrArg WalkEntry.nodeId heq
    rw [hid]
    exact hpath.symm

/-- **Nothing is lost**: what a reader puts together is the map of the pending requests. -/
theorem lookup_snapshotPaths (hset : ∀ rids, (setOrder rids).Perm rids)
    (h : p.tree.Counted live rp p.paths.entries) (rid : Rid) :
    List.lookup rid (Snapshot.paths (p.snapshotForWalk setOrder)) = p.paths.lookup rid := by
  have hread : ∀ e ∈ terminatorsOf (p.snapshotForWalk setOrder),
      p.paths.lookup e.1 = some (tokensTo (p.snapshotForWalk setOrder) e.2) := by
    rintro ⟨r, n⟩ he
    obtain ⟨hn, hl⟩ := (mem_terminatorsOf hset h).mp he
    rw [hl, tokensTo_snapshot h hn]
  cases hl : p.paths.lookup rid with
  | some ts =>
      obtain ⟨n, hn, hpath⟩ := h.covers ⟨rid, ts⟩ (mem_entries_iff.mpr hl)
      have hmem := (mem_terminatorsOf hset h).mpr ⟨hn, hl.trans (congrArg some hpath.symm)⟩
      have hfound := Dict.lookup_ofList (·.1)
        (fun e => tokensTo (p.snapshotForWalk setOrder) e.2) hmem fun e he hrid => by
          have hrid : e.1 = rid := hrid
          have hother := hread e he
          rw [hrid, hl] at hother
          rw [tokensTo_snapshot h hn, hpath]
          exact (Option.some.inj hother).symm
      refine hfound.trans ?_
      rw [tokensTo_snapshot h hn, hpath]
  | none =>
      cases hfound : List.lookup rid (Snapshot.paths (p.snapshotForWalk setOrder)) with
      | none => rfl
      | some ts =>
          obtain ⟨e, he, hrid, -⟩ := Dict.exists_of_lookup_ofList hfound
          have hpending := hread e he
          rw [hrid, hl] at hpending
          cases hpending

/--
**The snapshot loses nothing.**  Its entries are the nodes below the root, each once; the parent of
every other entry is another entry, and all climbs end at the root; every pending rid is listed in
one entry, and the edges from the root down to it are its tokens.  So the map of the pending
requests can be had from the snapshot alone.
-/
theorem snapshot_loses_nothing (setOrder : List Rid → List Rid)
    (hset : ∀ rids, (setOrder rids).Perm rids) (ops : List Op) :
    let snap := (run ops).snapshotForWalk setOrder
    (snap.map (·.nodeId)).Nodup ∧
    (∀ e, e ∈ snap ↔ ∃ n, (run ops).Reachable n ∧ e = (run ops).tree.walkEntry setOrder n) ∧
    (∀ e ∈ snap, e.nodeId ≠ ROOT → ∃ e' ∈ snap, e' ≠ e ∧ e'.nodeId = e.parentId) ∧
    (∀ e ∈ snap, ∃ k, Up (parentOf snap) ROOT k e.nodeId) ∧
    (∀ rid ts, (run ops).paths.lookup rid = some ts → ∃ e ∈ snap,
      (∀ e' ∈ snap, rid ∈ e'.terminators ↔ e' = e) ∧ tokensTo snap e.nodeId = ts) ∧
    ∀ rid, List.lookup rid (Snapshot.paths snap) = (run ops).paths.lookup rid := by
  obtain ⟨live, rp, h, -⟩ := sound_run ops
  intro snap
  refine ⟨nodup_snapshotForWalk setOrder _, fun e => ?_, fun e he hr => ?_, fun e he => ?_,
    fun rid ts hl => exists_entry hset h hl, lookup_snapshotPaths hset h⟩
  · rw [mem_snapshotForWalk h]
    simp only [reachable_iff h]
  · obtain ⟨n, hn, rfl⟩ := (mem_snapshotForWalk h).mp he
    have hparent := h.labelled.parent_live hn hr
    refine ⟨_, (mem_snapshotForWalk h).mpr ⟨_, hparent, rfl⟩, fun heq => ?_, rfl⟩
    have hself : (run ops).tree.heap.parent n = n := congrArg WalkEntry.nodeId heq
    have hlt := h.labelled.parent_length_lt hn hr
    rw [hself] at hlt
    omega
  · obtain ⟨n, hn, rfl⟩ := (mem_snapshotForWalk h).mp he
    exact up_snapshot h n hn

/-- Some slots free, and one that was handed out a second time. -/
theorem snapshot_loses_nothing_split :
    let p := run [.insert 1 [5, 6, 7], .insert 2 [5, 6, 8], .insert 3 [9], .remove 3, .insert 4 [5],
      .remove 1]
    (p.snapshotForWalk id).map (·.nodeId) = [0, 1, 4] ∧
    List.lookup 2 (Snapshot.paths (p.snapshotForWalk id)) = some [5, 6, 8] := by
  have h := snapshot_loses_nothing id (fun _ => List.Perm.refl _)
    [.insert 1 [5, 6, 7], .insert 2 [5, 6, 8], .insert 3 [9], .remove 3, .insert 4 [5], .remove 1]
  exact ⟨by decide +kernel, (h.2.2.2.2.2 2).trans (by decide +kernel)⟩

end PendingTree

end Peek
