/-
What a request's score comes to (`compute_req_scores` of `src/pending.rs`).

Each edge on the way down adds its length once for every request that passes it.  No request
ends inside an edge, so a node's score is what its path has in common with the pending requests,
one after the other (`sharedTokens_kid`); how the tree is cut into nodes does not show.
-/
import Mathlib.Algebra.Ring.Nat
import Peek.Pending.Cluster
import Peek.Pending.Invariant
import Peek.Radix.Forest

namespace Peek

open Radix StackWalk

/-- What the requests have in common with `ts`, token by token. -/
def Requests.sharedTokens (E : Requests) (ts : List Token) : Nat :=
  (E.map fun e => lcpLen ts e.2).sum

namespace PendingTree

variable {t : Tree} {live : Set NodeId} {rp : NodeId → List Token} {E : Requests}

/-! ### Down one edge -/

/-- A request takes the whole of a child's edge, or nothing of it. -/
theorem lcpLen_kid (h : t.Counted live rp E) {n c : NodeId} {a : Token} (hn : n ∈ live)
    (hkid : t.heap.kid n a = some c) {e : (_ : Rid) × List Token} (he : e ∈ E) :
    lcpLen (rp c) e.2 =
      lcpLen (rp n) e.2 + if (rp c).isPrefixOf e.2 then (t.node c).edge.length else 0 := by
  obtain ⟨tl, hedge, hpath⟩ := h.labelled.kid_path_cons hn hkid
  have hedge : (t.node c).edge = a :: tl := hedge
  rw [hedge, hpath, lcpLen_append]
  congr 1
  by_cases hpre : rp n ++ a :: tl <+: e.2
  · have hnpre := (List.prefix_append (rp n) (a :: tl)).trans hpre
    rw [if_pos hnpre, if_pos (List.isPrefixOf_iff_prefix.mpr hpre)]
    exact lcpLen_eq_length_iff.mpr (drop_prefix_of_append hpre)
  · rw [if_neg (mt List.isPrefixOf_iff_prefix.mp hpre)]
    split
    · rename_i hnpre
      obtain ⟨rest, hrest⟩ := hnpre
      rw [← hrest, List.drop_left]
      cases rest with
      | nil => rfl
      | cons b rest =>
          rw [lcpLen_cons]
          refine if_neg fun hab => hpre ?_
          -- with its first token it would go through the child
          rw [← hpath]
          have hnext : rp n ++ [a] <+: e.2 := by
            rw [← hrest, hab]
            exact ⟨rest, by rw [List.append_assoc]; rfl⟩
          exact h.prefix_kid hn hkid he hnext
    · rfl

theorem sum_map_ite {α : Type} (p : α → Bool) (k : Nat) (l : List α) :
    (l.map fun x => if p x then k else 0).sum = l.countP p * k := by
  induction l with
  | nil => exact (Nat.zero_mul k).symm
  | cons x l ih =>
      rw [List.map_cons, List.sum_cons, ih, List.countP_cons]
      by_cases hx : p x = true
      · rw [if_pos hx, if_pos hx, Nat.add_mul, Nat.one_mul, Nat.add_comm]
      · rw [if_neg hx, if_neg hx, Nat.add_zero, Nat.zero_add]

/-- **An edge adds its length for every request that passes it.** -/
theorem sharedTokens_kid (h : t.Counted live rp E) {n c : NodeId} {a : Token} (hn : n ∈ live)
    (hkid : t.heap.kid n a = some c) : E.sharedTokens (rp c) =
      E.sharedTokens (rp n) + (t.node c).pendingCount * (t.node c).edge.length := by
  rw [h.count c (h.labelled.kidLive hn hkid) (h.labelled.kid_ne_root hn hkid)]
  unfold Requests.sharedTokens Requests.countFrom
  rw [← sum_map_ite, ← List.sum_map_add]
  exact congrArg List.sum (List.map_congr_left fun e he => lcpLen_kid h hn hkid he)

/-! ### The walk -/

/-- `order` yields the values of a map, in whatever order. -/
def YieldsValues (order : Map Token NodeId → List NodeId) : Prop :=
  ∀ m, (order m).Perm (Map.values m)

variable {order : Map Token NodeId → List NodeId}

/-- The children in the order in which they are popped. -/
def kids (order : Map Token NodeId → List NodeId) (t : Tree) (n : NodeId) : List NodeId :=
  (order (t.node n).children).reverse

theorem listsKids (horder : YieldsValues order) (t : Tree) : ListsKids t.heap (kids order t) := by
  intro n k
  unfold kids
  rw [List.mem_reverse, (horder _).mem_iff, Map.mem_values]
  rfl

theorem isForest (horder : YieldsValues order) (h : t.Counted live rp E) :
    IsForest (kids order t) live := by
  refine h.labelled.isForest (listsKids horder t) fun n hn => ?_
  unfold kids
  exact List.nodup_reverse.mpr ((horder _).nodup_iff.mpr (Map.nodup_values fun a b k hk hk' =>
    h.labelled.kid_key_unique hn hk hk'))

/-- Write a node's score for every request that ends there. -/
def scoreNode (t : Tree) (score : NodeId → Int) (result : Map Rid Int) (n : NodeId) :
    Map Rid Int :=
  (t.node n).terminators.foldl (fun result rid => result.insert rid (score n)) result

/-- The loop visits the nodes one after the other, each with its score. -/
theorem reqScoresLoopIn_eq (horder : YieldsValues order) (h : t.Counted live rp E) (fuel : Nat)
    (stack : List NodeId) (hstack : ∀ n ∈ stack, n ∈ live) (result : Map Rid Int) :
    reqScoresLoopIn order t fuel (stack.map fun n => (n, (E.sharedTokens (rp n) : Int))) result =
      (visited (kids order t) fuel stack).foldl
        (scoreNode t fun n => (E.sharedTokens (rp n) : Int)) result := by
  induction fuel generalizing stack result with
  | zero => rfl
  | succ fuel ih =>
      cases stack with
      | nil => rfl
      | cons n stack =>
          have hn := hstack n List.mem_cons_self
          have hkids : ∀ c ∈ kids order t n, c ∈ live := fun c hc => by
            obtain ⟨a, hk⟩ := (listsKids horder t n c).mp hc
            exact h.labelled.kidLive hn hk
          have hpushed : ((order (t.node n).children).map fun c =>
              (c, (E.sharedTokens (rp n) : Int) +
                ((t.node c).pendingCount : Int) * ((t.node c).edge.length : Int))).reverse =
              (kids order t n).map fun c => (c, (E.sharedTokens (rp c) : Int)) := by
            unfold kids
            rw [← List.map_reverse]
            refine List.map_congr_left fun c hc => ?_
            obtain ⟨a, hk⟩ := (listsKids horder t n c).mp hc
            rw [sharedTokens_kid h hn hk]
            push_cast
            rfl
          rw [List.map_cons, reqScoresLoopIn]
          simp only
          rw [hpushed, ← List.map_append, ih]
          · rfl
          · intro k hk
            rcases List.mem_append.mp hk with hk | hk
            · exact hkids k hk
            · exact hstack k (List.mem_cons_of_mem _ hk)

theorem lookup_insertAll (rids : List Rid) (score : Int) (result : Map Rid Int) (rid : Rid) :
    (rids.foldl (fun result rid => result.insert rid score) result).lookup rid =
      if rid ∈ rids then some score else result.lookup rid := by
  induction rids generalizing result with
  | nil => rfl
  | cons r rids ih =>
      rw [List.foldl_cons, ih, Map.lookup_insert_of]
      by_cases hmem : rid ∈ rids
      · rw [if_pos hmem, if_pos (List.mem_cons_of_mem _ hmem)]
      · rw [if_neg hmem]
        exact if_congr (by simp [hmem]) rfl rfl

theorem lookup_scoreNodes {score : NodeId → Int} {rid : Rid} {m : NodeId}
    (hm : rid ∈ (t.node m).terminators) (vs : List NodeId)
    (hone : ∀ n ∈ vs, rid ∈ (t.node n).terminators → n = m) (result : Map Rid Int) :
    (vs.foldl (scoreNode t score) result).lookup rid =
      if m ∈ vs then some (score m) else result.lookup rid := by
  induction vs using List.reverseRecOn with
  | nil => rfl
  | append_singleton vs n ih =>
      rw [List.foldl_append, List.foldl_cons, List.foldl_nil]
      unfold scoreNode
      rw [lookup_insertAll]
      by_cases hn : rid ∈ (t.node n).terminators
      · have hnm := hone n (List.mem_append_right _ List.mem_cons_self) hn
        rw [if_pos hn, hnm, if_pos (List.mem_append_right _ List.mem_cons_self)]
      · have hne : m ≠ n := fun heq => hn (heq ▸ hm)
        rw [if_neg hn]
        refine (ih fun k hk => hone k (List.mem_append_left _ hk)).trans ?_
        exact if_congr (by simp [hne]) rfl rfl

theorem lookup_scoreNodes_of_absent {score : NodeId → Int} {rid : Rid} (vs : List NodeId)
    (hno : ∀ n ∈ vs, rid ∉ (t.node n).terminators) (result : Map Rid Int) :
    (vs.foldl (scoreNode t score) result).lookup rid = result.lookup rid := by
  induction vs using List.reverseRecOn with
  | nil => rfl
  | append_singleton vs n ih =>
      rw [List.foldl_append, List.foldl_cons, List.foldl_nil]
      unfold scoreNode
      rw [lookup_insertAll, if_neg (hno n (List.mem_append_right _ List.mem_cons_self))]
      exact ih fun k hk => hno k (List.mem_append_left _ hk)

/-- **The scores**: one for each pending request, and it is what the request has in common with
the pending requests. -/
theorem Sound.lookup_computeReqScoresIn (horder : YieldsValues order) {p : PendingTree} (hp : Sound p)
    (rid : Rid) : (p.computeReqScoresIn order).lookup rid =
      (p.paths.lookup rid).map fun ts => (Requests.sharedTokens p.paths.entries ts : Int) := by
  obtain ⟨live, rp, h, -⟩ := hp
  have hroot : ROOT ∈ live := h.labelled.rootLive
  have hzero : Requests.sharedTokens p.paths.entries (rp ROOT) = 0 := by
    unfold Requests.sharedTokens
    rw [show rp ROOT = [] from h.labelled.rootPath]
    simp
  have hvisited := (isForest horder h).mem_visited_iff (Finset.range p.tree.nodes.size)
    (fun m hm => Finset.mem_range.mpr (h.arena.lt_size hm)) hroot
    (Nat.le_of_eq (Finset.card_range _))
  have hlive : ∀ n ∈ visited (kids order p.tree) p.tree.nodes.size [ROOT], n ∈ live := fun n hn =>
    (isForest horder h).mem_of_under ((hvisited n).mp hn) hroot
  have hwalk : p.computeReqScoresIn order = (visited (kids order p.tree) p.tree.nodes.size [ROOT]).foldl
      (scoreNode p.tree fun n => (Requests.sharedTokens p.paths.entries (rp n) : Int)) ∅ := by
    have heq := reqScoresLoopIn_eq horder h p.tree.nodes.size [ROOT] (by simpa using hroot) ∅
    rw [List.map_singleton, hzero] at heq
    exact heq
  have hterm : ∀ n ∈ live, rid ∈ (p.tree.node n).terminators ↔
      p.paths.lookup rid = some (rp n) := fun n hn => (h.terms n hn rid).trans mem_entries_iff
  rw [hwalk]
  cases hl : p.paths.lookup rid with
  | none =>
      rw [lookup_scoreNodes_of_absent _ fun n hn hmem => ?_]
      · rfl
      · rw [hterm n (hlive n hn), hl] at hmem
        simp at hmem
  | some ts =>
      obtain ⟨m, hm, hpath⟩ := h.covers _ (mem_entries_iff.mpr hl)
      have hpath : rp m = ts := hpath
      have hmem := (hterm m hm).mpr (hpath ▸ hl)
      rw [lookup_scoreNodes hmem _ fun n hn hother => ?_, if_pos, hpath]
      · rfl
      · exact (hvisited m).mpr ((under_iff_below (listsKids horder _)).mpr
          (h.labelled.live_iff_below.mp hm))
      · rw [hterm n (hlive n hn), hl, Option.some.injEq] at hother
        exact (h.labelled.path_injective hm (hlive n hn) (hpath.trans hother)).symm

theorem Sound.lookup_computeReqScores {p : PendingTree} (hp : Sound p) (rid : Rid) :
    p.computeReqScores.lookup rid =
      (p.paths.lookup rid).map fun ts => (Requests.sharedTokens p.paths.entries ts : Int) := by
  rw [← computeReqScoresIn_values]
  exact hp.lookup_computeReqScoresIn (fun _ => List.Perm.refl _) rid

/-- Requests that are pending in both trees have the same in common with what is pending. -/
theorem sharedTokens_congr {p q : PendingTree} (h : ∀ rid, p.paths.lookup rid = q.paths.lookup rid)
    (ts : List Token) :
    Requests.sharedTokens p.paths.entries ts = Requests.sharedTokens q.paths.entries ts := by
  unfold Requests.sharedTokens
  exact ((Map.perm_of_lookup h).map _).sum_eq

/-- **The scores after every run**: one for each pending request, the tokens it has in common with
each of them; two trees with the same requests give the same scores. -/
theorem req_scores (horder : YieldsValues order) (ops : List Op) :
    (∀ rid, ((run ops).computeReqScoresIn order).lookup rid = ((run ops).paths.lookup rid).map
      fun ts => (Requests.sharedTokens (run ops).paths.entries ts : Int)) ∧
    ∀ (order' : Map Token NodeId → List NodeId) (ops' : List Op), YieldsValues order' →
      (∀ rid, (run ops).paths.lookup rid = (run ops').paths.lookup rid) →
      ∀ rid, ((run ops).computeReqScoresIn order).lookup rid =
        ((run ops').computeReqScoresIn order').lookup rid := by
  refine ⟨(sound_run ops).lookup_computeReqScoresIn horder, fun order' ops' horder' hsame rid => ?_⟩
  rw [(sound_run ops).lookup_computeReqScoresIn horder,
    (sound_run ops').lookup_computeReqScoresIn horder', hsame rid]
  exact Option.map_congr fun ts _ => by rw [sharedTokens_congr hsame ts]

/-- Children pushed in either order, and a tree that has split an edge and fused it again. -/
theorem req_scores_split :
    (computeReqScoresIn (fun m => (Map.values m).reverse)
        (run [.insert 1 [5, 6, 7], .insert 2 [5, 6, 8], .insert 3 [5, 6, 7, 9], .remove 2])).lookup 3 =
      (computeReqScoresIn Map.values (run [.insert 1 [5, 6, 7], .insert 3 [5, 6, 7, 9]])).lookup 3 := by
  have hpaths : (run [.insert 1 [5, 6, 7], .insert 2 [5, 6, 8], .insert 3 [5, 6, 7, 9], .remove 2]).paths =
      (run [.insert 1 [5, 6, 7], .insert 3 [5, 6, 7, 9]]).paths := by decide
  exact (req_scores (fun _ => List.reverse_perm _) _).2 _ _ (fun _ => List.Perm.refl _)
    (fun rid => by rw [hpaths]) 3

end PendingTree

end Peek
