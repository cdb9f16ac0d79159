/-
The pending request that goes on longest with some tokens (`longest_match_along` and
`sample_terminator_in_subtree` of `src/tree.rs`).

The walk is a descent; whoever ends below the node where it stopped has all the consumed tokens.
A live node but the root has a request below it, so the search for one finds one, in whatever
order the children and the terminators come.
-/
import Peek.Pending.History
import Peek.Pending.NoSharing
import Peek.Pending.SharedPrefix

namespace Peek

open Radix StackWalk PendingTree

namespace Tree

section Sample

-- In which order a hash map yields its values, and a hash set its members.
variable (order : Map Token NodeId → List NodeId) (setOrder : List Rid → List Rid)

/-- The loop of `sample_terminator_in_subtree`, the stack's top in front. -/
def sampleLoop (t : Tree) : Nat → List NodeId → Option Rid
  | 0, _ => none
  | _ + 1, [] => none
  | fuel + 1, id :: stack =>
      let n := t.node id
      match (setOrder n.terminators).head? with
      | some r => some r
      | none => sampleLoop t fuel ((order n.children).reverse ++ stack)

/-- Any request that ends in the subtree of `node`; no node is popped twice. -/
def sampleTerminatorInSubtree (t : Tree) (node : NodeId) : Option Rid :=
  sampleLoop order setOrder t t.nodes.size [node]

/-- What is returned behind the loop of `longest_match_along`. -/
def matchedTo (t : Tree) (node : NodeId) (consumed : Nat) : Nat × Option Rid :=
  if consumed = 0 then (0, none) else (consumed, sampleTerminatorInSubtree order setOrder t node)

def longestMatchLoop (t : Tree) (tokens : List Token) : Nat → NodeId → Nat → Nat × Option Rid
  | 0, node, consumed => matchedTo order setOrder t node consumed
  | fuel + 1, node, consumed =>
      if consumed = tokens.length then matchedTo order setOrder t node consumed
      else
        match (t.node node).children.lookup (tokens.getD consumed 0) with
        | none => matchedTo order setOrder t node consumed
        | some child =>
            let edge := (t.node child).edge
            let common := matchEdgeLen edge (tokens.drop consumed)
            let consumed := consumed + common
            if common < edge.length then (consumed, sampleTerminatorInSubtree order setOrder t child)
            else longestMatchLoop t tokens fuel child consumed

/-- How much of `tokens` the tree has, and a request that has as much. -/
def longestMatchAlong (t : Tree) (tokens : List Token) : Nat × Option Rid :=
  longestMatchLoop order setOrder t tokens (tokens.length + 1) ROOT 0

end Sample

variable {order : Map Token NodeId → List NodeId} {setOrder : List Rid → List Rid}
variable {t : Tree} {live : Set NodeId} {rp : NodeId → List Token} {E : Requests}

/-! ### The sample -/

/-- The search takes the first terminator that the stack walk comes to. -/
theorem sampleLoop_eq (t : Tree) (fuel : Nat) (stack : List NodeId) :
    sampleLoop order setOrder t fuel stack =
      (visited (kids order t) fuel stack).findSome? fun n => (setOrder (t.node n).terminators).head? := by
  induction fuel generalizing stack with
  | zero => rfl
  | succ fuel ih =>
      cases stack with
      | nil => rfl
      | cons n stack =>
          rw [sampleLoop, visited, List.findSome?_cons]
          cases hhead : (setOrder (t.node n).terminators).head? with
          | some r => rfl
          | none => exact ih _

/-- **The search finds a request below the node**: no live subtree is without one. -/
theorem sample_spec (horder : YieldsValues order) (hset : ∀ rids, (setOrder rids).Perm rids)
    (h : Counted t live rp E) (hcomp : Compressed t live) {n : NodeId} (hn : n ∈ live) (hr : n ≠ ROOT) :
    ∃ rid m, sampleTerminatorInSubtree order setOrder t n = some rid ∧ m ∈ live ∧ rp n <+: rp m ∧
      rid ∈ (t.node m).terminators := by
  have hvisited : ∀ m, m ∈ visited (kids order t) t.nodes.size [n] ↔ Below t.heap n m := by
    intro m
    rw [(isForest horder h).mem_visited_iff (Finset.range t.nodes.size)
      (fun k hk => Finset.mem_range.mpr (h.arena.lt_size hk)) hn (Nat.le_of_eq (Finset.card_range _))]
    exact under_iff_below (listsKids horder t)
  unfold sampleTerminatorInSubtree
  rw [sampleLoop_eq]
  cases hfound : (visited (kids order t) t.nodes.size [n]).findSome?
      fun k => (setOrder (t.node k).terminators).head? with
  | some rid =>
      obtain ⟨m, hm, hhead⟩ := List.exists_of_findSome?_eq_some hfound
      have hbelow := (hvisited m).mp hm
      refine ⟨rid, m, rfl, h.labelled.below_live hn hbelow, h.labelled.below_prefix hn hbelow, ?_⟩
      exact (hset _).mem_iff.mp (List.mem_of_mem_head? hhead)
  | none =>
      obtain ⟨e, he, hpre⟩ := exists_request h hcomp hn hr
      obtain ⟨m, hm, hp⟩ := h.covers e he
      have hterm : e.1 ∈ (t.node m).terminators := (h.terms m hm e.1).mpr (hp ▸ he)
      have hbelow := h.labelled.below_of_prefix hn hm (hp ▸ hpre)
      have hnone := List.findSome?_eq_none_iff.mp hfound m ((hvisited m).mpr hbelow)
      have hempty := List.head?_eq_none_iff.mp hnone
      exact absurd ((hset _).mem_iff.mpr hterm) (hempty ▸ List.not_mem_nil)

/-! ### The walk -/

/-- The walk is a descent, and the sample is taken below the node where it ends. -/
theorem longestMatchLoop_eq (h : Labelled t.heap live rp) (ts : List Token) :
    ∀ (fuel : Nat) (n : NodeId) (k : Nat), n ∈ live → k ≤ ts.length → ts.length < k + fuel →
      longestMatchLoop order setOrder t ts fuel n k =
        matchedTo order setOrder t (t.descendLoop ts fuel n k).endNode
          (t.descendLoop ts fuel n k).consumed := by
  intro fuel
  induction fuel with
  | zero => intro n k _ _ hlt; omega
  | succ fuel ih =>
      intro n k hn hk hlt
      rw [longestMatchLoop, descendLoop]
      by_cases hend : k = ts.length
      · rw [if_pos hend, if_pos hend]
      · rw [if_neg hend, if_neg hend]
        have ha := getElem?_of_ne_length hk hend
        cases hkid : (t.node n).children.lookup (ts.getD k 0) with
        | none => rfl
        | some c =>
            have hpos : 0 < lcpLen (t.node c).edge (ts.drop k) := h.walk_pos hn ha hkid
            have hle := lcpLen_le_right (t.node c).edge (ts.drop k)
            rw [List.length_drop] at hle
            simp only [matchEdgeLen_eq]
            by_cases hcut : lcpLen (t.node c).edge (ts.drop k) < (t.node c).edge.length
            · have hne : ¬ k + lcpLen (t.node c).edge (ts.drop k) = 0 := by omega
              rw [if_pos hcut, if_pos hcut]
              exact (if_neg hne).symm
            · rw [if_neg hcut, if_neg hcut]
              exact ih c _ (h.kidLive hn hkid) (by omega) (by omega)

/-- What a descent consumes is the most that any request has in common with the tokens. -/
theorem consumed_descend (h : Counted t live rp E) (hcomp : Compressed t live) (ts : List Token) :
    (t.descend ts).consumed = E.longestCommon ts := by
  have hs := descend_stopped h.labelled ts
  refine E.longestCommon_eq fun j hj => ?_
  by_cases hlen : j ≤ ts.length
  · rw [← h.labelled.held_take_iff hs hlen, and_iff_right hlen, Requests.countFrom, Nat.one_le_iff_ne_zero,
      ← Nat.pos_iff_ne_zero, List.countP_pos_iff]
    constructor
    · rintro ⟨n, hn, hpre⟩
      have hr : n ≠ ROOT := by
        rintro rfl
        rw [show rp ROOT = [] from h.labelled.rootPath, List.prefix_nil, List.take_eq_nil_iff] at hpre
        rcases hpre with hzero | hnil
        · omega
        · rw [hnil, List.length_nil] at hlen
          omega
      obtain ⟨e, he, hbelow⟩ := exists_request h hcomp hn hr
      exact ⟨e, he, List.isPrefixOf_iff_prefix.mpr (hpre.trans hbelow)⟩
    · rintro ⟨e, he, hpre⟩
      exact h.held he (List.isPrefixOf_iff_prefix.mp hpre)
  · have := consumed_le h.labelled ts
    exact iff_of_false (by omega) fun hboth => hlen hboth.1

end Tree

namespace PendingTree

variable {order : Map Token NodeId → List NodeId} {setOrder : List Rid → List Rid} {p : PendingTree}

def longestMatchAlong (order : Map Token NodeId → List NodeId) (setOrder : List Rid → List Rid)
    (p : PendingTree) (tokens : List Token) : Nat × Option Rid :=
  p.tree.longestMatchAlong order setOrder tokens

/-- Nothing in common with any request: none begins with the first token. -/
theorem longestCommon_eq_zero_iff (p : PendingTree) (ts : List Token) :
    Requests.longestCommon p.paths.entries ts = 0 ↔
      ∀ rid us, p.paths.lookup rid = some us → Unlike ts us := by
  rw [Requests.longestCommon_eq_zero_iff]
  constructor
  · intro hall rid us hl
    exact unlike_iff.mpr (hall _ (mem_entries_iff.mpr hl))
  · intro hall e he
    exact unlike_iff.mp (hall e.1 e.2 (mem_entries_iff.mp he))

/-- **The answer**: nothing, or the greatest common length and a request that has it. -/
theorem Sound.longestMatchAlong_cases (horder : YieldsValues order)
    (hset : ∀ rids, (setOrder rids).Perm rids) (hp : Sound p) (ts : List Token) :
    (Requests.longestCommon p.paths.entries ts = 0 ∧
      p.longestMatchAlong order setOrder ts = (0, none)) ∨
    ∃ rid us, p.longestMatchAlong order setOrder ts =
        (Requests.longestCommon p.paths.entries ts, some rid) ∧
      1 ≤ Requests.longestCommon p.paths.entries ts ∧ p.paths.lookup rid = some us ∧
      lcpLen ts us = Requests.longestCommon p.paths.entries ts := by
  obtain ⟨live, rp, h, hcomp⟩ := hp
  have hs := Tree.descend_stopped h.labelled ts
  have hcommon := Tree.consumed_descend h hcomp ts
  have hanswer : p.longestMatchAlong order setOrder ts = Tree.matchedTo order setOrder p.tree
      (p.tree.descend ts).endNode (p.tree.descend ts).consumed :=
    Tree.longestMatchLoop_eq h.labelled ts _ ROOT 0 h.labelled.rootLive (Nat.zero_le _) (by omega)
  rw [hanswer, ← hcommon, Tree.matchedTo]
  by_cases hzero : (p.tree.descend ts).consumed = 0
  · rw [if_pos hzero]
    exact Or.inl ⟨hzero, rfl⟩
  · rw [if_neg hzero]
    obtain ⟨hn, hlen, -, above, hpath, htake⟩ := h.labelled.stopped_path hs
    have hpre : ts.take (p.tree.descend ts).consumed <+: rp (p.tree.descend ts).endNode := by
      rw [htake, hpath]
      exact (List.prefix_append_right_inj above).mpr (List.take_prefix _ _)
    have hr : (p.tree.descend ts).endNode ≠ ROOT := by
      intro hr
      have := hpre.length_le
      rw [hr, show rp ROOT = [] from h.labelled.rootPath, List.length_take, List.length_nil] at this
      omega
    obtain ⟨rid, m, hsample, hm, hbelow, hterm⟩ := Tree.sample_spec horder hset h hcomp hn hr
    have hmem := (h.terms m hm rid).mp hterm
    refine Or.inr ⟨rid, rp m, by rw [hsample], Nat.pos_of_ne_zero hzero, mem_entries_iff.mp hmem, ?_⟩
    have hpre := hpre.trans hbelow
    refine Nat.le_antisymm ?_ (le_lcpLen_iff.mpr ⟨hlen, ?_, ?_⟩)
    · rcases Nat.eq_zero_or_pos (lcpLen ts (rp m)) with hnone | hsome
      · omega
      · rw [hcommon]
        exact (Requests.le_longestCommon_iff _ ts hsome).mpr ⟨_, hmem, Nat.le_refl _⟩
    · have := hpre.length_le
      rwa [List.length_take, Nat.min_eq_left hlen] at this
    · have := List.prefix_iff_eq_take.mp hpre
      rwa [List.length_take, Nat.min_eq_left hlen] at this

/-- **The longest match after every run**: its length is the greatest there is, a request comes
with it that attains it, and only tokens that nobody begins with get no request. -/
theorem longest_match_along (horder : YieldsValues order) (hset : ∀ rids, (setOrder rids).Perm rids)
    (ops : List Op) (ts : List Token) :
    ((run ops).longestMatchAlong order setOrder ts).1 =
      Requests.longestCommon (run ops).paths.entries ts ∧
    ((run ops).longestMatchAlong order setOrder ts = (0, none) ↔
      ∀ rid us, (run ops).paths.lookup rid = some us → Unlike ts us) ∧
    (1 ≤ Requests.longestCommon (run ops).paths.entries ts →
      ∃ rid us, ((run ops).longestMatchAlong order setOrder ts).2 = some rid ∧
        (run ops).paths.lookup rid = some us ∧
        lcpLen ts us = Requests.longestCommon (run ops).paths.entries ts) := by
  rw [← longestCommon_eq_zero_iff]
  rcases (sound_run ops).longestMatchAlong_cases horder hset ts with
    ⟨hzero, hnone⟩ | ⟨rid, us, hsome, hpos, hl, hlcp⟩
  · rw [hnone, hzero]
    exact ⟨rfl, iff_of_true rfl rfl, fun hpos => absurd hpos (Nat.not_succ_le_zero 0)⟩
  · rw [hsome]
    refine ⟨rfl, iff_of_false (fun heq => ?_) (by omega), fun _ => ⟨rid, us, rfl, hl, hlcp⟩⟩
    have : some rid = none := congrArg Prod.snd heq
    exact Option.some_ne_none rid this

/-- Children from behind, and a walk that stops inside an edge. -/
theorem longest_match_along_inside :
    ((run [.insert 1 [5, 6, 7], .insert 2 [5, 6, 8, 9], .insert 3 [5, 6, 8, 4]]).longestMatchAlong
        (fun m => (Map.values m).reverse) List.reverse [5, 6, 8, 9, 9]).1 =
      Requests.longestCommon (run [.insert 1 [5, 6, 7], .insert 2 [5, 6, 8, 9],
        .insert 3 [5, 6, 8, 4]]).paths.entries [5, 6, 8, 9, 9] :=
  (longest_match_along (fun _ => List.reverse_perm _) List.reverse_perm _ _).1

end PendingTree

end Peek
