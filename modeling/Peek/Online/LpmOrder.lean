/-
The stock order worked out over the pending tree (`prefix_position` of `src/tree.rs`, `lpm_order`
of `src/pending.rs`).

`peek_sort_inplace` claims a prefix by its tokens, `lpm_order` by the position where they end in the
pending tree.  Below a pending prompt there is one position for every prefix and one prefix for
every position (`prefixPosition_injective`), so both loops claim and repeat the same
(`PositionClaims`).
-/
import Peek.Online.LpmParity
import Peek.Pending.Invariant

namespace Peek

open Radix

/-! ### Positions -/

namespace Tree

/-- Where the tokens end: the last node entered, and how far along its edge. -/
def prefixPosition (t : Tree) (tokens : List Token) : NodeId × Nat :=
  let d := t.descend tokens
  (d.endNode, d.endOffset)

/-- **A position stands for the tokens that lead to it**, if the tree holds them all. -/
theorem prefixPosition_injective {t : Tree} {live : Set NodeId} {rp : NodeId → List Token}
    (h : Labelled t.heap live rp) {p q : List Token} (hp : Held live rp p) (hq : Held live rp q)
    (heq : t.prefixPosition p = t.prefixPosition q) : p = q := by
  have hcut : ∀ {ts : List Token}, Held live rp ts →
      ∃ above, rp (t.descend ts).endNode = above ++ (t.node (t.descend ts).endNode).edge ∧
        ts = above ++ (t.node (t.descend ts).endNode).edge.take (t.descend ts).endOffset := by
    intro ts hts
    obtain ⟨-, -, -, above, hpath, htake⟩ := h.stopped_path (descend_stopped h ts)
    rw [consumed_of_held h hts, List.take_length] at htake
    exact ⟨above, hpath, htake⟩
  obtain ⟨above, hpath, hp⟩ := hcut hp
  obtain ⟨above', hpath', hq⟩ := hcut hq
  obtain ⟨hnode, hoffset⟩ := Prod.mk.inj heq
  rw [hnode] at hpath hp
  rw [hoffset] at hp
  have habove : above = above' := List.append_cancel_right (hpath.symm.trans hpath')
  exact hp.trans (habove ▸ hq.symm)

end Tree

namespace PendingTree

/-- Whether the request repeats a claimed prefix, and what is claimed after its turn. -/
def claimPosition (p : PendingTree) (checkThreshold : Int) (deprioritizeThreshold : Nat)
    (seenPrefixes : Finset (NodeId × Nat)) (rid : Rid) (mainHit : Int) :
    Bool × Finset (NodeId × Nat) :=
  if mainHit ≤ checkThreshold ∧ deprioritizeThreshold > 0 then
    match p.paths.lookup rid with
    | none => (false, seenPrefixes)
    | some tokens =>
        if tokens.length ≥ deprioritizeThreshold then
          let claim := p.tree.prefixPosition (tokens.take deprioritizeThreshold)
          (decide (claim ∈ seenPrefixes), Insert.insert claim seenPrefixes)
        else (false, seenPrefixes)
  else (false, seenPrefixes)

/-- One turn of the loop: the key of the request, behind the keys so far. -/
def lpmOrderTurn (p : PendingTree) (checkThreshold : Int) (deprioritizeThreshold : Nat)
    (s : List (Int × Bool) × Finset (NodeId × Nat)) (req : Rid × Int) :
    List (Int × Bool) × Finset (NodeId × Nat) :=
  let (isDeprioritized, seenPrefixes) :=
    p.claimPosition checkThreshold deprioritizeThreshold s.2 req.1 req.2
  (s.1 ++ [(req.2, isDeprioritized)], seenPrefixes)

/-- The admission order of the requests, as indices into `reqs`. -/
def lpmOrder (p : PendingTree) (reqs : List (Rid × Int)) (checkThreshold : Int)
    (deprioritizeThreshold : Nat) : List Nat :=
  lpmSortOrder (reqs.foldl (p.lpmOrderTurn checkThreshold deprioritizeThreshold) ([], ∅)).1

/-- Prefixes of pending prompts are told apart by where they end. -/
theorem Sound.prefixPosition_eq_iff {p : PendingTree} (hp : Sound p) {r r' : Rid}
    {ts ts' pre pre' : List Token} (hlookup : p.paths.lookup r = some ts) (hpre : pre <+: ts)
    (hlookup' : p.paths.lookup r' = some ts') (hpre' : pre' <+: ts') :
    p.tree.prefixPosition pre = p.tree.prefixPosition pre' ↔ pre = pre' := by
  obtain ⟨live, rp, h, -⟩ := hp
  constructor
  · exact Tree.prefixPosition_injective h.labelled (h.held (mem_entries_iff.mpr hlookup) hpre)
      (h.held (mem_entries_iff.mpr hlookup') hpre')
  · rintro rfl
    rfl

/--
**Positions stand for prefixes.**  In every pending tree that some calls make, prefixes of two
pending prompts, or of the same one, end at one position just when they are equal.
-/
theorem prefixPosition_run (ops : List Op) {r r' : Rid} {ts ts' pre pre' : List Token}
    (hlookup : (run ops).paths.lookup r = some ts) (hpre : pre <+: ts)
    (hlookup' : (run ops).paths.lookup r' = some ts') (hpre' : pre' <+: ts') :
    (run ops).tree.prefixPosition pre = (run ops).tree.prefixPosition pre' ↔ pre = pre' :=
  (sound_run ops).prefixPosition_eq_iff hlookup hpre hlookup' hpre'

/-- Two prompts part at their third token, and the one that is left with another at its second. -/
def partedTwice : List Op :=
  [.insert 1 [1, 2, 3], .insert 2 [1, 2, 4], .remove 1, .insert 3 [1, 5]]

/-- So what the two begin with ends inside the tree at different positions. -/
theorem prefixPosition_run_parted :
    (run partedTwice).tree.prefixPosition [1, 2] ≠ (run partedTwice).tree.prefixPosition [1, 5] := by
  have hiff := prefixPosition_run partedTwice
    (show (run partedTwice).paths.lookup 2 = some [1, 2, 4] by decide)
    (show [1, 2] <+: [1, 2, 4] by decide)
    (show (run partedTwice).paths.lookup 3 = some [1, 5] by decide)
    (show [1, 5] <+: [1, 5] by decide)
  exact fun heq => absurd (hiff.mp heq) (by decide)

end PendingTree

/-! ### The two loops -/

/-- Every waiting request is pending, with its own tokens. -/
def QueuePending (ridToInt : Map ReqId Rid) (tree : PendingTree) (queue : List Req) : Prop :=
  ∀ r ∈ queue, ((ridToInt.lookup r.rid).bind fun rid => tree.paths.lookup rid) = some r.tokens

instance (ridToInt : Map ReqId Rid) (tree : PendingTree) (queue : List Req) :
    Decidable (QueuePending ridToInt tree queue) :=
  inferInstanceAs (Decidable (∀ _ ∈ _, _))

/-- What `lpm_order` is asked for: the rid and the hit of every waiting request. -/
def lpmRequests (ridToInt : Map ReqId Rid) (mainHits : Option (Map Rid Int)) (queue : List Req) :
    List (Rid × Int) :=
  queue.map fun r => ((ridToInt.lookup r.rid).getD 0, mainHit ridToInt mainHits r)

/-- The keys that `peek_sort_inplace` sorts by. -/
def sortKeys (mainHit : Req → Int) (deprioritized : Finset ReqId) (queue : List Req) :
    List (Int × Bool) :=
  queue.map fun r => (mainHit r, decide (r.rid ∈ deprioritized))

/--
The set of prefixes and the set of positions say the same about prefixes of pending prompts, and
both sides have the same keys for the requests `before`.
-/
structure PositionClaims (tree : PendingTree) (mainHit : Req → Int) (before : List Req)
    (s : SortPass) (t : List (Int × Bool) × Finset (NodeId × Nat)) : Prop where
  seen : ∀ rid ts pre, tree.paths.lookup rid = some ts → pre <+: ts →
    (tree.tree.prefixPosition pre ∈ t.2 ↔ pre ∈ s.seenPrefixes)
  keys : t.1 = sortKeys mainHit s.deprioritized before
  deprioritized : ∀ rid ∈ s.deprioritized, rid ∈ before.map Req.rid

section

variable {tree : PendingTree} {mh : Req → Int} {before : List Req} {s : SortPass}
  {t : List (Int × Bool) × Finset (NodeId × Nat)} {r : Req}

/-- The first of its prefix, or a request that does not ask: nothing else changes its key. -/
theorem sortKeys_concat (hfresh : r.rid ∉ before.map Req.rid) {depr depr' : Finset ReqId}
    (hdepr : ∀ rid, rid ≠ r.rid → (rid ∈ depr' ↔ rid ∈ depr)) :
    sortKeys mh depr' (before ++ [r]) =
      sortKeys mh depr before ++ [(mh r, decide (r.rid ∈ depr'))] := by
  unfold sortKeys
  rw [List.map_append, List.map_singleton]
  refine congrArg (· ++ _) (List.map_congr_left fun q hq => ?_)
  have hne : q.rid ≠ r.rid := fun heq => hfresh (heq ▸ List.mem_map_of_mem hq)
  rw [decide_eq_decide.mpr (hdepr q.rid hne)]

/-- A request that is warm or short claims nothing on either side. -/
theorem PositionClaims.pass (h : PositionClaims tree mh before s t)
    (hfresh : r.rid ∉ before.map Req.rid) :
    PositionClaims tree mh (before ++ [r]) s (t.1 ++ [(mh r, false)], t.2) where
  seen := h.seen
  keys := by
    have hnot : r.rid ∉ s.deprioritized := fun hmem => hfresh (h.deprioritized r.rid hmem)
    rw [sortKeys_concat hfresh fun _ _ => Iff.rfl, h.keys, decide_eq_false hnot]
  deprioritized rid hrid := by
    rw [List.map_append]
    exact List.mem_append_left _ (h.deprioritized rid hrid)

/-- **A cold request claims in positions what it claims in tokens.** -/
theorem PositionClaims.claim (hsound : tree.Sound) (h : PositionClaims tree mh before s t)
    (hfresh : r.rid ∉ before.map Req.rid) {rid : Rid} (hlookup : tree.paths.lookup rid = some r.tokens)
    (d : Nat) :
    let position := tree.tree.prefixPosition (r.tokens.take d)
    PositionClaims tree mh (before ++ [r])
      (if r.tokens.take d ∈ s.seenPrefixes then { s with deprioritized := insert r.rid s.deprioritized }
        else { s with seenPrefixes := insert (r.tokens.take d) s.seenPrefixes })
      (t.1 ++ [(mh r, decide (position ∈ t.2))], insert position t.2) := by
  intro position
  have hself : r.tokens.take d <+: r.tokens := List.take_prefix _ _
  have hclaimed : position ∈ t.2 ↔ r.tokens.take d ∈ s.seenPrefixes := h.seen rid _ _ hlookup hself
  have hmap : ∀ {x}, x ∈ before.map Req.rid → x ∈ (before ++ [r]).map Req.rid := fun hx => by
    rw [List.map_append]
    exact List.mem_append_left _ hx
  by_cases hin : r.tokens.take d ∈ s.seenPrefixes
  · -- a sibling: the position is in the set already
    rw [if_pos hin, decide_eq_true (hclaimed.mpr hin), Finset.insert_eq_self.mpr (hclaimed.mpr hin)]
    refine ⟨h.seen, ?_, fun x hx => ?_⟩
    · show t.1 ++ [(mh r, true)] = sortKeys mh (insert r.rid s.deprioritized) (before ++ [r])
      have hrest : ∀ x, x ≠ r.rid → (x ∈ insert r.rid s.deprioritized ↔ x ∈ s.deprioritized) :=
        fun x hx => by rw [Finset.mem_insert, or_iff_right hx]
      rw [sortKeys_concat hfresh hrest, h.keys, decide_eq_true (Finset.mem_insert_self _ _)]
    · rcases Finset.mem_insert.mp hx with rfl | hx
      · simp
      · exact hmap (h.deprioritized x hx)
  · -- the pioneer of the prefix
    rw [if_neg hin, decide_eq_false (hclaimed.not.mpr hin)]
    have hpass := h.pass hfresh
    refine ⟨fun rid' ts pre hl hpre => ?_, hpass.keys, hpass.deprioritized⟩
    show tree.tree.prefixPosition pre ∈ insert position t.2 ↔
      pre ∈ insert (r.tokens.take d) s.seenPrefixes
    rw [Finset.mem_insert, Finset.mem_insert, h.seen rid' ts pre hl hpre,
      hsound.prefixPosition_eq_iff hl hpre hlookup hself]

variable {o : SortOptions} {ridToInt : Map ReqId Rid} {d : Nat}

/-- **A turn of the Python loop and a turn of the Rust loop keep step.** -/
theorem PositionClaims.turn (hsound : tree.Sound) (hlpm : o.peekLpmSort = true)
    (hdepr : o.deprioritizeThreshold = d) (hd : 1 ≤ d)
    (h : PositionClaims tree (mainHit ridToInt o.mainHits) before s t)
    (hfresh : r.rid ∉ before.map Req.rid) (hmh : 0 ≤ mainHit ridToInt o.mainHits r) {rid : Rid}
    (hlookup : tree.paths.lookup rid = some r.tokens) :
    PositionClaims tree (mainHit ridToInt o.mainHits) (before ++ [r])
      (sortPassTurn ridToInt ∅ o s r)
      (tree.lpmOrderTurn o.checkThreshold d t (rid, mainHit ridToInt o.mainHits r)) := by
  unfold PendingTree.lpmOrderTurn PendingTree.claimPosition
  simp only [hlookup]
  by_cases hcold : mainHit ridToInt o.mainHits r ≤ o.checkThreshold
  · have hasks : mainHit ridToInt o.mainHits r ≤ o.checkThreshold ∧ d > 0 := ⟨hcold, hd⟩
    rw [sortPassTurn_lpm hlpm (hmh.trans hcold) hdepr, if_pos hcold, if_pos hasks]
    by_cases hlen : r.tokens.length < d
    · rw [if_pos hlen, if_neg (Nat.not_le_of_lt hlen)]
      exact h.pass hfresh
    · rw [if_neg hlen, if_pos (Nat.le_of_not_lt hlen)]
      exact h.claim hsound hfresh hlookup d
  · -- too warm, as everything is under a negative threshold
    rw [if_neg fun hc => hcold hc.1]
    have hturn : sortPassTurn ridToInt ∅ o s r = s := by
      unfold sortPassTurn claimPrefix
      rw [if_pos hlpm]
      by_cases hoff : o.checkThreshold < 0 ∨ o.deprioritizeThreshold < 0
      · rw [if_pos hoff]
      · rw [if_neg hoff, if_pos (Int.lt_of_not_ge hcold)]
    rw [hturn]
    exact h.pass hfresh

/-- Over the whole queue the keys are the same. -/
theorem positionClaims_queue (hsound : tree.Sound) (hlpm : o.peekLpmSort = true)
    (hdepr : o.deprioritizeThreshold = d) (hd : 1 ≤ d) {queue : List Req}
    (hrids : (queue.map Req.rid).Nodup) (hsync : QueuePending ridToInt tree queue)
    (hmh : ∀ r ∈ queue, 0 ≤ mainHit ridToInt o.mainHits r) :
    PositionClaims tree (mainHit ridToInt o.mainHits) queue
      (queue.foldl (sortPassTurn ridToInt ∅ o) ⟨∅, ∅, ∅⟩)
      ((lpmRequests ridToInt o.mainHits queue).foldl
        (tree.lpmOrderTurn o.checkThreshold d) ([], ∅)) := by
  induction queue using List.reverseRecOn with
  | nil =>
      refine ⟨fun _ _ _ _ _ => ?_, rfl, fun rid hrid => ?_⟩
      · exact iff_of_false (Finset.notMem_empty _) (Finset.notMem_empty _)
      · exact absurd hrid (Finset.notMem_empty rid)
  | append_singleton queue r ih =>
      have hmem : r ∈ queue ++ [r] := List.mem_append_right _ List.mem_cons_self
      have hleft : ∀ q ∈ queue, q ∈ queue ++ [r] := fun q hq => List.mem_append_left _ hq
      rw [List.map_append, List.nodup_append] at hrids
      have hfresh : r.rid ∉ queue.map Req.rid := fun hq =>
        hrids.2.2 _ hq _ List.mem_cons_self rfl
      obtain ⟨rid, hrid, hlookup⟩ := Option.bind_eq_some_iff.mp (hsync r hmem)
      have hreqs : lpmRequests ridToInt o.mainHits (queue ++ [r]) =
          lpmRequests ridToInt o.mainHits queue ++ [(rid, mainHit ridToInt o.mainHits r)] := by
        unfold lpmRequests
        rw [List.map_append, List.map_singleton, hrid, Option.getD_some]
      rw [hreqs, List.foldl_append, List.foldl_append]
      have hbefore := ih hrids.1 (fun q hq => hsync q (hleft q hq)) fun q hq => hmh q (hleft q hq)
      exact hbefore.turn hsound hlpm hdepr hd hfresh (hmh r hmem) hlookup

end

/-! ### Parity -/

theorem lpmSortOrder_perm (keys : List (Int × Bool)) :
    (PendingTree.lpmSortOrder keys).Perm (List.range keys.length) :=
  List.perm_insertionSort _ _

/--
**`lpm_order` and `peek_sort_inplace` order the queue alike.**  The queue may be any whose rids
are distinct and pending with the requests' own tokens; the check threshold may be negative, as
long as no hit is.
-/
theorem lpmOrder_eq_peekSortInplace (ops : List PendingTree.Op) (ridToInt : Map ReqId Rid)
    (queue : List Req) (o : SortOptions) (hlpm : o.peekLpmSort = true)
    (hd : 1 ≤ o.deprioritizeThreshold) (hrids : (queue.map Req.rid).Nodup)
    (hsync : QueuePending ridToInt (PendingTree.run ops) queue)
    (hmh : ∀ r ∈ queue, 0 ≤ mainHit ridToInt o.mainHits r) :
    let order := (PendingTree.run ops).lpmOrder (lpmRequests ridToInt o.mainHits queue)
      o.checkThreshold o.deprioritizeThreshold.toNat
    order.Perm (List.range queue.length) ∧
      (peekSortInplace queue ridToInt (PendingTree.run ops) o).1 =
        order.map fun i => queue.getD i default := by
  intro order
  have hclaims := positionClaims_queue (d := o.deprioritizeThreshold.toNat)
    (PendingTree.sound_run ops) hlpm (by omega) (by omega) hrids hsync hmh
  have horder : order = PendingTree.lpmSortOrder (sortKeys (mainHit ridToInt o.mainHits)
      (queue.foldl (sortPassTurn ridToInt ∅ o) ⟨∅, ∅, ∅⟩).deprioritized queue) := by
    rw [← hclaims.keys]
    rfl
  rw [horder]
  constructor
  · have hperm := lpmSortOrder_perm (sortKeys (mainHit ridToInt o.mainHits)
      (queue.foldl (sortPassTurn ridToInt ∅ o) ⟨∅, ∅, ∅⟩).deprioritized queue)
    unfold sortKeys at hperm ⊢
    rwa [List.length_map] at hperm
  · unfold peekSortInplace
    simp only [hlpm, if_true]
    rfl

/-- A cold queue in which the last request repeats a prefix that ends within an edge. -/
theorem lpmOrder_eq_peekSortInplace_fork :
    let o : SortOptions :=
      { checkThreshold := 0, deprioritizeThreshold := 2, peekLpmSort := true }
    let tree := PendingTree.run [.insert 0 [1, 2, 3, 4], .insert 1 [1, 2, 3, 5], .insert 2 [1]]
    let ridToInt : Map ReqId Rid := (((∅ : Map ReqId Rid).insert "a" 0).insert "b" 1).insert "c" 2
    let queue : List Req :=
      [⟨"a", [1, 2, 3, 4], [], none, [], none, false⟩, ⟨"b", [1, 2, 3], [5], none, [], none, false⟩,
        ⟨"c", [1], [], none, [], none, false⟩]
    let order := tree.lpmOrder (lpmRequests ridToInt o.mainHits queue) o.checkThreshold 2
    (order.Perm (List.range queue.length) ∧
      (peekSortInplace queue ridToInt tree o).1 = order.map fun i => queue.getD i default) ∧
    order = [0, 2, 1] :=
  ⟨lpmOrder_eq_peekSortInplace _ _ _ _ rfl (by decide) (by decide) (by decide +kernel) (by decide),
    by decide +kernel⟩

end Peek
