/-
What the two lanes decide, and what their interleaving keeps.

Both lanes are permutations of the queue that ascend in the section.  The stride merge picks the
first request of either lane that is not picked yet, so whatever stands before a request in both
lanes stays before it (`strideMerge_spec`), whichever lane is up and whatever the clocks say.
-/
import Peek.Base.Sorting
import Peek.Online.ClusterLpm

namespace Peek

open LaneMerge

/-! ### The lanes -/

section

variable (metas : List LaneMeta)

/-- The section of the request at an index. -/
def sectionAt (i : Nat) : Nat := (metas.getD i default).sectionId

/-- A lane orders all indices, sections first. -/
structure IsLane (order : List Nat) : Prop where
  perm : order.Perm (List.range metas.length)
  sections : order.Pairwise fun i j => sectionAt metas i ≤ sectionAt metas j

theorem isLane_sortedIdx {κ : Type} [LinearOrder κ] [DecidableLE κ] (key : LaneMeta → κ)
    (hkey : ∀ m m', key m ≤ key m' → m.sectionId ≤ m'.sectionId) :
    IsLane metas (sortedIdx key metas) where
  perm := List.perm_insertionSort _ _
  sections := (pairwise_sorted (fun i => key (metas.getD i default))
    (List.range metas.length)).imp fun h => hkey _ _ h

theorem isLane_groupMajorOrder : IsLane metas (groupMajorOrder metas) := by
  unfold groupMajorOrder
  simp only
  set groups := groupBy
    (fun i => ((metas.getD i default).sectionId, (metas.getD i default).groupKey))
    (List.range metas.length) with hgroups
  have hflat : ∀ gs : List ((Nat × GroupKey) × List Nat),
      (gs.flatMap fun g => g.2.insertionSort fun i j =>
        memberKey (metas.getD i default) ≤ memberKey (metas.getD j default)).Perm
          (gs.map (·.2)).flatten := by
    intro gs
    induction gs with
    | nil => exact List.Perm.refl _
    | cons g gs ih =>
        rw [List.flatMap_cons, List.map_cons, List.flatten_cons]
        exact (List.perm_insertionSort _ g.2).append ih
  refine ⟨?_, ?_⟩
  · refine (hflat _).trans ?_
    refine ((List.perm_insertionSort _ groups).map _).flatten.trans ?_
    exact flatten_groupBy_perm _ _
  · have hmember : ∀ g ∈ groups, ∀ i ∈ g.2, sectionAt metas i = g.1.1 := by
      intro g hg i hi
      obtain ⟨hmem, -⟩ := mem_groupBy.mp (show (g.1, g.2) ∈ groupBy _ _ from hg)
      rw [hmem, List.mem_filter, decide_eq_true_eq] at hi
      exact congrArg Prod.fst hi.2
    rw [List.flatMap_def, List.pairwise_flatten]
    refine ⟨fun l hl => ?_, ?_⟩
    · obtain ⟨g, hg, rfl⟩ := List.mem_map.mp hl
      have hg := (List.perm_insertionSort _ _).subset hg
      refine (pairwise_of_before fun i j hij => ?_)
      have hi := (List.perm_insertionSort _ _).subset hij.left_mem
      have hj := (List.perm_insertionSort _ _).subset hij.right_mem
      exact le_of_eq ((hmember g hg i hi).trans (hmember g hg j hj).symm)
    · rw [List.pairwise_map]
      refine (pairwise_sorted (groupOrderKey metas) groups).imp_of_mem fun hg hg' hle i hi j hj => ?_
      have hg := (List.perm_insertionSort _ _).subset hg
      have hg' := (List.perm_insertionSort _ _).subset hg'
      rw [hmember _ hg i ((List.perm_insertionSort _ _).subset hi),
        hmember _ hg' j ((List.perm_insertionSort _ _).subset hj)]
      exact Prod.Lex.monotone_fst (groupOrderKey metas _) (groupOrderKey metas _) hle

theorem isLane_laneAOrder (groupMajor : Bool) : IsLane metas (laneAOrder groupMajor metas) := by
  unfold laneAOrder
  split
  · exact isLane_groupMajorOrder metas
  · exact isLane_sortedIdx metas laneAKey fun _ _ => Prod.Lex.monotone_fst _ _

theorem isLane_laneBOrder : IsLane metas (laneBOrder metas) :=
  isLane_sortedIdx metas laneBKey fun _ _ => Prod.Lex.monotone_fst _ _

end

/-! ### The stride merge -/

section

variable {F : Type} (f : PyFloat F) (aStride bStride : F)

/-- The merge in the middle: what is picked is in `order`. -/
structure Picking (a b : List Nat) (s : StrideState F) : Prop where
  merging : Merging a b s.aRest s.bRest s.order
  picked : ∀ i, i ∈ s.picked ↔ i ∈ s.order

variable {a b : List Nat} {s : StrideState F}

theorem Picking.dropWhile_eq (h : Picking a b s) (rest : List Nat) :
    rest.dropWhile (fun i => decide (i ∈ s.picked)) =
      rest.dropWhile fun i => decide (i ∈ s.order) := by
  have heq : (fun i => decide (i ∈ s.picked)) = fun i => decide (i ∈ s.order) := by
    funext i
    exact decide_eq_decide.mpr (h.picked i)
  rw [heq]

theorem Picking.insert_picked (h : Picking a b s) (i j : Nat) :
    j ∈ insert i s.picked ↔ j ∈ s.order ++ [i] := by
  rw [Finset.mem_insert, h.picked, List.mem_append, List.mem_singleton, or_comm]

/-- **One turn picks one request**, whichever lane is up. -/
theorem Picking.turn (h : Picking a b s) (ha : a.Nodup) (hab : a.Perm b)
    (hlen : s.order.length < a.length) :
    Picking a b (strideTurn f aStride bStride s) ∧
      (strideTurn f aStride bStride s).order.length = s.order.length + 1 := by
  have hb : b.Nodup := hab.nodup ha
  unfold strideTurn
  by_cases hup : VClock.le f s.aVclock s.bVclock = true
  · obtain ⟨i, rest, hdrop⟩ := h.merging.exists_next ha hlen
    rw [if_pos hup, h.dropWhile_eq, hdrop]
    exact ⟨⟨h.merging.pick ha hdrop, h.insert_picked i⟩, List.length_append⟩
  · obtain ⟨i, rest, hdrop⟩ := (h.merging.symm hab).exists_next hb (hab.length_eq ▸ hlen)
    rw [if_neg hup, h.dropWhile_eq, hdrop]
    exact ⟨⟨((h.merging.symm hab).pick hb hdrop).symm hab.symm, h.insert_picked i⟩,
      List.length_append⟩

/-- **The loop picks all**, if it has a turn for each. -/
theorem Picking.loop (ha : a.Nodup) (hab : a.Perm b) : ∀ (fuel : Nat) (s : StrideState F),
    Picking a b s → a.length ≤ s.order.length + fuel →
      Picking a b (strideLoop f aStride bStride a.length fuel s) ∧
        a.length ≤ (strideLoop f aStride bStride a.length fuel s).order.length := by
  intro fuel
  induction fuel with
  | zero =>
      intro s h hfuel
      exact ⟨h, hfuel⟩
  | succ fuel ih =>
      intro s h hfuel
      unfold strideLoop
      by_cases hlen : s.order.length < a.length
      · rw [if_pos hlen]
        obtain ⟨hturn, hone⟩ := h.turn f aStride bStride ha hab hlen
        refine ih _ hturn ?_
        rw [hone, Nat.add_assoc, Nat.add_comm 1]
        exact hfuel
      · rw [if_neg hlen]
        exact ⟨h, Nat.not_lt.mp hlen⟩

/-- **The merge keeps every pair on which the lanes agree**, for any share. -/
theorem strideMerge_spec (bigLaneShare : F) (ha : a.Nodup) (hab : a.Perm b) :
    (strideMerge f bigLaneShare a.length a b).Perm a ∧
      Respects a b (strideMerge f bigLaneShare a.length a b) := by
  obtain ⟨h, hlen⟩ := Picking.loop f (f.div (f.ofRat 1) bigLaneShare)
    (f.div (f.ofRat 1) (f.sub (f.ofRat 1) bigLaneShare)) ha hab a.length
    ⟨a, b, some _, some _, ∅, []⟩ ⟨merging_nil a b, by simp⟩ (Nat.le_add_left _ _)
  exact h.merging.result hlen

/-- **So does the order of the sort**, also where one lane alone decides it. -/
theorem laneOrder_spec (bigLaneShare : F) (groupMajor : Bool) (metas : List LaneMeta) :
    (laneOrder f bigLaneShare groupMajor metas).Perm (List.range metas.length) ∧
      Respects (laneAOrder groupMajor metas) (laneBOrder metas)
        (laneOrder f bigLaneShare groupMajor metas) := by
  have ha := (isLane_laneAOrder metas groupMajor).perm
  have hb := (isLane_laneBOrder metas).perm
  have hlen : (laneAOrder groupMajor metas).length = metas.length :=
    ha.length_eq.trans List.length_range
  unfold laneOrder
  split
  · exact ⟨ha, fun _ _ h _ => h⟩
  · split
    · exact ⟨hb, fun _ _ _ h => h⟩
    · obtain ⟨hperm, hrespects⟩ := strideMerge_spec f bigLaneShare
        (ha.symm.nodup List.nodup_range) (ha.trans hb.symm)
      rw [hlen] at hperm hrespects
      exact ⟨hperm.trans ha, hrespects⟩

end

/-! ### Sections -/

section

variable {F : Type} (o : ClpmOptions F) (mh : Req → Int)

/-- A cold request that is long enough to claim its first tokens. -/
def ClaimsPrefix (r : Req) : Prop :=
  mh r ≤ o.checkThreshold ∧ 0 ≤ o.checkThreshold ∧ 0 ≤ o.deprioritizeThreshold ∧
    o.deprioritizeThreshold ≤ (r.tokens.length : Int)

def prefixKeyOf (r : Req) : List Token := r.tokens.take o.deprioritizeThreshold.toNat

/-- Some request of `front` has claimed the prefix of `r`. -/
def Claimed (front : List Req) (r : Req) : Prop :=
  ClaimsPrefix o mh r ∧ ∃ q ∈ front, ClaimsPrefix o mh q ∧ prefixKeyOf o q = prefixKeyOf o r

instance (r : Req) : Decidable (ClaimsPrefix o mh r) :=
  inferInstanceAs (Decidable (_ ∧ _ ∧ _ ∧ _))

instance (front : List Req) (r : Req) : Decidable (Claimed o mh front r) :=
  inferInstanceAs (Decidable (_ ∧ ∃ q ∈ front, _ ∧ _))

/-- The section of a request that stands behind `front` in the queue. -/
def sectionBehind (front : List Req) (r : Req) : Nat :=
  if mh r > o.checkThreshold then 0 else if Claimed o mh front r then 2 else 1

/-- What the first pass knows when it has seen `front`. -/
structure PassSpec (front : List Req) (s : SectionPass) : Prop where
  seen : ∀ k, k ∈ s.seenPrefixes ↔ ∃ q ∈ front, ClaimsPrefix o mh q ∧ prefixKeyOf o q = k
  sections : ∀ before r rest, front = before ++ r :: rest →
    s.sectionOf.lookup r.rid = some (sectionBehind o mh before r)
  deprioritized : ∀ before r rest, front = before ++ r :: rest →
    (r.rid ∈ s.deprioritized ↔ sectionBehind o mh before r = 2)
  known : ∀ rid ∈ s.deprioritized, rid ∈ front.map Req.rid

variable {o mh}

/-- What a turn writes, in terms of what it has seen. -/
theorem PassSpec.turn_eq {front : List Req} {s : SectionPass} (h : PassSpec o mh front s)
    (r : Req) : sectionTurn o mh s r =
      { sectionOf := s.sectionOf.insert r.rid (sectionBehind o mh front r)
        deprioritized := if sectionBehind o mh front r = 2 then insert r.rid s.deprioritized
          else s.deprioritized
        seenPrefixes := if ClaimsPrefix o mh r then insert (prefixKeyOf o r) s.seenPrefixes
          else s.seenPrefixes } := by
  unfold sectionTurn
  by_cases hwarm : mh r > o.checkThreshold
  · have hno : ¬ ClaimsPrefix o mh r := fun hc => absurd hc.1 (not_le_of_gt hwarm)
    have hsec : sectionBehind o mh front r = 0 := if_pos hwarm
    rw [if_pos hwarm, hsec, if_neg hno, if_neg (show ¬ 0 = 2 by decide)]
  rw [if_neg hwarm]
  by_cases hclaims : ClaimsPrefix o mh r
  · have ⟨_, hcheck, hdepr, hlong⟩ := hclaims
    rw [if_neg (not_or.mpr ⟨not_lt_of_ge hcheck, not_lt_of_ge hdepr⟩),
      if_neg (not_lt_of_ge hlong), if_pos hclaims]
    show (if prefixKeyOf o r ∈ s.seenPrefixes then _ else _ : SectionPass) = _
    by_cases hseen : prefixKeyOf o r ∈ s.seenPrefixes
    · have hsec : sectionBehind o mh front r = 2 := by
        unfold sectionBehind
        rw [if_neg hwarm, if_pos ⟨hclaims, (h.seen _).mp hseen⟩]
      rw [if_pos hseen, hsec, if_pos rfl, Finset.insert_eq_of_mem hseen]
    · have hsec : sectionBehind o mh front r = 1 := by
        unfold sectionBehind
        rw [if_neg hwarm, if_neg fun hc => hseen ((h.seen _).mpr hc.2)]
      rw [if_neg hseen, hsec, if_neg (show ¬ 1 = 2 by decide)]
      rfl
  · have hsec : sectionBehind o mh front r = 1 := by
      unfold sectionBehind
      rw [if_neg hwarm, if_neg fun hc => hclaims hc.1]
    rw [hsec, if_neg (show ¬ 1 = 2 by decide), if_neg hclaims]
    by_cases hoff : o.checkThreshold < 0 ∨ o.deprioritizeThreshold < 0
    · rw [if_pos hoff]
    · rw [not_or] at hoff
      have hshort : (r.tokens.length : Int) < o.deprioritizeThreshold := by
        by_contra hlong
        exact hclaims ⟨le_of_not_gt hwarm, le_of_not_gt hoff.1, le_of_not_gt hoff.2,
          le_of_not_gt hlong⟩
      rw [if_neg (not_or.mpr hoff), if_pos hshort]

theorem passSpec_nil : PassSpec o mh [] ⟨∅, ∅, ∅⟩ where
  seen k := by simp
  sections before r rest h := by simp at h
  deprioritized before r rest h := by simp at h
  known rid h := absurd h (Finset.notMem_empty rid)

/-- A split of a longer list is one of the list, or at its end. -/
theorem split_concat {α : Type} {front before rest : List α} {r x : α}
    (h : front ++ [x] = before ++ r :: rest) :
    (front = before ∧ x = r) ∨ ∃ rest', front = before ++ r :: rest' := by
  rcases List.eq_nil_or_concat rest with rfl | ⟨rest', y, rfl⟩
  · obtain ⟨rfl, hx⟩ := List.append_inj' h rfl
    exact Or.inl ⟨rfl, (List.cons.inj hx).1⟩
  · rw [List.concat_eq_append, ← List.cons_append, ← List.append_assoc] at h
    exact Or.inr ⟨rest', (List.append_inj' h rfl).1⟩

theorem PassSpec.turn {front : List Req} {s : SectionPass} (h : PassSpec o mh front s) (r : Req)
    (hrid : r.rid ∉ front.map Req.rid) : PassSpec o mh (front ++ [r]) (sectionTurn o mh s r) := by
  have hold : ∀ before q rest, front = before ++ q :: rest → q.rid ≠ r.rid := by
    rintro before q rest rfl heq
    exact hrid (heq ▸ List.mem_map_of_mem (List.mem_append_right _ List.mem_cons_self))
  rw [h.turn_eq r]
  refine ⟨fun k => ?_, fun before q rest heq => ?_, fun before q rest heq => ?_, fun rid hmem => ?_⟩
  · show (k ∈ if ClaimsPrefix o mh r then insert (prefixKeyOf o r) s.seenPrefixes
      else s.seenPrefixes) ↔ _
    by_cases hclaims : ClaimsPrefix o mh r
    · rw [if_pos hclaims, Finset.mem_insert, h.seen]
      constructor
      · rintro (rfl | ⟨q, hq, hk⟩)
        · exact ⟨r, List.mem_append_right _ (List.mem_singleton_self r), hclaims, rfl⟩
        · exact ⟨q, List.mem_append_left _ hq, hk⟩
      · rintro ⟨q, hq, hqc, rfl⟩
        rcases List.mem_append.mp hq with hq | hq
        · exact Or.inr ⟨q, hq, hqc, rfl⟩
        · rw [List.mem_singleton.mp hq]
          exact Or.inl rfl
    · rw [if_neg hclaims, h.seen]
      constructor
      · rintro ⟨q, hq, hk⟩
        exact ⟨q, List.mem_append_left _ hq, hk⟩
      · rintro ⟨q, hq, hqc, hk⟩
        rcases List.mem_append.mp hq with hq | hq
        · exact ⟨q, hq, hqc, hk⟩
        · exact absurd (List.mem_singleton.mp hq ▸ hqc) hclaims
  · show (s.sectionOf.insert r.rid _).lookup q.rid = _
    rw [Map.lookup_insert_of]
    rcases split_concat heq with ⟨rfl, rfl⟩ | ⟨rest', hfront⟩
    · rw [if_pos rfl]
    · rw [if_neg (hold before q rest' hfront)]
      exact h.sections before q rest' hfront
  · show (q.rid ∈ if sectionBehind o mh front r = 2 then insert r.rid s.deprioritized
      else s.deprioritized) ↔ _
    rcases split_concat heq with ⟨rfl, rfl⟩ | ⟨rest', hfront⟩
    · by_cases hsec : sectionBehind o mh front r = 2
      · rw [if_pos hsec]
        exact iff_of_true (Finset.mem_insert_self _ _) hsec
      · rw [if_neg hsec]
        exact iff_of_false (fun hmem => hrid (h.known _ hmem)) hsec
    · rw [← h.deprioritized before q rest' hfront]
      split
      · rw [Finset.mem_insert, or_iff_right (hold before q rest' hfront)]
      · exact Iff.rfl
  · rw [List.map_append, List.mem_append]
    have hmem : rid ∈ if sectionBehind o mh front r = 2 then insert r.rid s.deprioritized
      else s.deprioritized := hmem
    split at hmem
    · rcases Finset.mem_insert.mp hmem with rfl | hmem
      · exact Or.inr List.mem_cons_self
      · exact Or.inl (h.known rid hmem)
    · exact Or.inl (h.known rid hmem)

/-- **The first pass**, over a queue of distinct rids. -/
theorem sectionPass_spec {queue : List Req} (hrids : (queue.map Req.rid).Nodup) :
    PassSpec o mh queue (sectionPass o mh queue) := by
  unfold sectionPass
  induction queue using List.reverseRecOn with
  | nil => exact passSpec_nil
  | append_singleton queue r ih =>
      rw [List.map_append, List.nodup_append] at hrids
      rw [List.foldl_append]
      refine (ih hrids.1).turn r fun hmem => ?_
      exact hrids.2.2 _ hmem _ List.mem_cons_self rfl

end

/-- `q` is the first in the queue to claim the prefix that `r` would claim after it. -/
def ClaimedBy {F : Type} (o : ClpmOptions F) (mh : Req → Int) (queue : List Req) (q r : Req) :
    Prop :=
  ∃ front rest, queue = front ++ q :: rest ∧ r ∈ rest ∧ ClaimsPrefix o mh q ∧
    ClaimsPrefix o mh r ∧ prefixKeyOf o q = prefixKeyOf o r ∧ ¬ Claimed o mh front q

/-- The first one in a list with a property. -/
theorem exists_first {α : Type} {P : α → Prop} {l : List α} (h : ∃ x ∈ l, P x) :
    ∃ front x rest, l = front ++ x :: rest ∧ P x ∧ ∀ y ∈ front, ¬ P y := by
  induction l with
  | nil => simp at h
  | cons a l ih =>
      by_cases ha : P a
      · exact ⟨[], a, l, rfl, ha, by simp⟩
      · obtain ⟨x, hx, hpx⟩ := h
        obtain rfl | hx := List.mem_cons.mp hx
        · exact absurd hpx ha
        obtain ⟨front, y, rest, rfl, hy, hfirst⟩ := ih ⟨x, hx, hpx⟩
        refine ⟨a :: front, y, rest, rfl, hy, fun z hz => ?_⟩
        rcases List.mem_cons.mp hz with rfl | hz
        · exact ha
        · exact hfirst z hz

/-- A sibling's prefix has a claimant, and that one is a pioneer. -/
theorem exists_claimedBy {F : Type} {o : ClpmOptions F} {mh : Req → Int} {before : List Req}
    {r : Req} (rest : List Req) (h : sectionBehind o mh before r = 2) :
    ∃ front q middle, before = front ++ q :: middle ∧ sectionBehind o mh front q = 1 ∧
      ClaimedBy o mh (before ++ r :: rest) q r := by
  have hclaimed : Claimed o mh before r := by
    unfold sectionBehind at h
    by_contra hnot
    rw [if_neg hnot] at h
    split at h <;> omega
  obtain ⟨hr, hq⟩ := hclaimed
  obtain ⟨front, q, middle, rfl, ⟨hqc, hkey⟩, hfirst⟩ := exists_first hq
  have hnot : ¬ Claimed o mh front q := by
    rintro ⟨-, p, hp, hpc, hpk⟩
    exact hfirst p hp ⟨hpc, hpk.trans hkey⟩
  refine ⟨front, q, middle, rfl, ?_, front, middle ++ r :: rest, ?_, ?_, hqc, hr, hkey, hnot⟩
  · unfold sectionBehind
    rw [if_neg (not_lt_of_ge hqc.1), if_neg hnot]
  · rw [List.append_assoc, List.cons_append]
  · exact List.mem_append_right _ List.mem_cons_self

/-! ### The sort -/

section

variable {F : Type} (f : PyFloat F) (o : ClpmOptions F) (ridToInt : Map ReqId Rid)
  (tree : PendingTree) (time : F) (dynLaneState : Option F) (queue : List Req)

/-- The lanes of a call, as requests. -/
def laneA : List Req :=
  (laneAOrder o.groupMajor (laneMetas f o ridToInt tree time queue)).map fun i => queue.getD i default

def laneB : List Req :=
  (laneBOrder (laneMetas f o ridToInt tree time queue)).map fun i => queue.getD i default

/-- The section that the first pass gives a request. -/
def sectionIn (r : Req) : Nat :=
  ((sectionPass o (mainHit ridToInt o.mainHits) queue).sectionOf.lookup r.rid).getD 1

/-- Sections first, and in each the longest cached prefix first. -/
def sectionHitKey (r : Req) : Nat ×ₗ Int :=
  toLex (sectionIn o ridToInt queue r, -mainHit ridToInt o.mainHits r)

/-- What the interleaving keeps. -/
structure Interleaved (result : ClpmResult F) : Prop where
  respects : Respects (laneA f o ridToInt tree time queue) (laneB f o ridToInt tree time queue)
    result.waitingQueue
  /-- Warm requests first, then cold pioneers, then siblings. -/
  sections : result.waitingQueue.Pairwise fun x y =>
    sectionIn o ridToInt queue x ≤ sectionIn o ridToInt queue y
  warm : ∀ r ∈ queue, sectionIn o ridToInt queue r = 0 ↔
    mainHit ridToInt o.mainHits r > o.checkThreshold
  sibling : ∀ r ∈ queue, sectionIn o ridToInt queue r = 2 ↔ r.rid ∈ result.deprioritized
  claimant : ∀ r ∈ queue, r.rid ∈ result.deprioritized →
    ∃ q, ClaimedBy o (mainHit ridToInt o.mainHits) queue q r ∧ Before result.waitingQueue q r
  byHit : o.arrivals = none → o.groupMajor = false → result.waitingQueue.Pairwise fun x y =>
    sectionHitKey o ridToInt queue x ≤ sectionHitKey o ridToInt queue y

theorem length_laneMetas : (laneMetas f o ridToInt tree time queue).length = queue.length :=
  List.length_map _

theorem getD_laneMetas {i : Nat} (hi : i < queue.length) :
    (laneMetas f o ridToInt tree time queue).getD i default =
      laneMeta f o ridToInt tree.allClusterInfo (sampledNow f o time) tree.computeReqScores
        (sectionPass o (mainHit ridToInt o.mainHits) queue).sectionOf (queue.getD i default) :=
  getD_map_of_lt _ queue default default hi

variable {queue}

/-- The place of a request in the queue decides its section. -/
theorem sectionIn_eq (hrids : (queue.map Req.rid).Nodup) {before rest : List Req} {r : Req}
    (hqueue : queue = before ++ r :: rest) :
    sectionIn o ridToInt queue r = sectionBehind o (mainHit ridToInt o.mainHits) before r := by
  unfold sectionIn
  rw [(sectionPass_spec hrids).sections before r rest hqueue, Option.getD_some]

/-- A key of the lanes that is read off the requests. -/
theorem pairwise_map_of_lane {κ : Type} [LE κ] {key : Req → κ} {keyAt : LaneMeta → κ}
    {order : List Nat} (hperm : order.Perm (List.range queue.length))
    (hkey : ∀ i < queue.length,
      keyAt ((laneMetas f o ridToInt tree time queue).getD i default) = key (queue.getD i default))
    (h : order.Pairwise fun i j =>
      keyAt ((laneMetas f o ridToInt tree time queue).getD i default) ≤
        keyAt ((laneMetas f o ridToInt tree time queue).getD j default)) :
    (order.map fun i => queue.getD i default).Pairwise fun x y => key x ≤ key y := by
  rw [List.pairwise_map]
  refine h.imp_of_mem fun hi hj hle => ?_
  rw [← hkey _ (List.mem_range.mp (hperm.subset hi)), ← hkey _ (List.mem_range.mp (hperm.subset hj))]
  exact hle

theorem map_perm_queue {order : List Nat} (hperm : order.Perm (List.range queue.length)) :
    (order.map fun i => queue.getD i default).Perm queue := by
  have hmap := hperm.map fun i => queue.getD i default
  rw [map_getD_range] at hmap
  exact hmap

/-- The lanes are made of the queue, and so is the result. -/
theorem lanes_perm : (laneA f o ridToInt tree time queue).Perm queue ∧
    (laneB f o ridToInt tree time queue).Perm queue ∧
    (peekClpmSortInplace f o ridToInt tree time dynLaneState queue).waitingQueue.Perm queue := by
  have hlen := length_laneMetas f o ridToInt tree time queue
  refine ⟨map_perm_queue ?_, map_perm_queue ?_, map_perm_queue ?_⟩
  · rw [← hlen]
    exact (isLane_laneAOrder _ _).perm
  · rw [← hlen]
    exact (isLane_laneBOrder _).perm
  · rw [← hlen]
    exact (laneOrder_spec f _ _ _).1

/-- **What stands before a request in both lanes stays before it.** -/
theorem respects_lanes (hrids : (queue.map Req.rid).Nodup) :
    Respects (laneA f o ridToInt tree time queue) (laneB f o ridToInt tree time queue)
      (peekClpmSortInplace f o ridToInt tree time dynLaneState queue).waitingQueue := by
  have hlen := length_laneMetas f o ridToInt tree time queue
  have ha := (isLane_laneAOrder (laneMetas f o ridToInt tree time queue) o.groupMajor).perm
  have hb := (isLane_laneBOrder (laneMetas f o ridToInt tree time queue)).perm
  rw [hlen] at ha hb
  refine (laneOrder_spec f _ _ _).2.map (ha.trans hb.symm).symm.subset fun i hi j hj heq => ?_
  have hi := List.mem_range.mp (ha.subset hi)
  have hj := List.mem_range.mp (ha.subset hj)
  rw [getD_of_lt _ _ hi, getD_of_lt _ _ hj] at heq
  exact (hrids.of_map.getElem_inj_iff).mp heq

/-- **The result ascends in every key that both lanes ascend in.** -/
theorem pairwise_waitingQueue {κ : Type} [LinearOrder κ] (key : Req → κ) (keyAt : LaneMeta → κ)
    (hrids : (queue.map Req.rid).Nodup)
    (hkey : ∀ i < queue.length,
      keyAt ((laneMetas f o ridToInt tree time queue).getD i default) = key (queue.getD i default))
    (ha : (laneAOrder o.groupMajor (laneMetas f o ridToInt tree time queue)).Pairwise fun i j =>
      keyAt ((laneMetas f o ridToInt tree time queue).getD i default) ≤
        keyAt ((laneMetas f o ridToInt tree time queue).getD j default))
    (hb : (laneBOrder (laneMetas f o ridToInt tree time queue)).Pairwise fun i j =>
      keyAt ((laneMetas f o ridToInt tree time queue).getD i default) ≤
        keyAt ((laneMetas f o ridToInt tree time queue).getD j default)) :
    (peekClpmSortInplace f o ridToInt tree time dynLaneState queue).waitingQueue.Pairwise
      fun x y => key x ≤ key y := by
  have hlen := length_laneMetas f o ridToInt tree time queue
  have hpermA := (isLane_laneAOrder (laneMetas f o ridToInt tree time queue) o.groupMajor).perm
  have hpermB := (isLane_laneBOrder (laneMetas f o ridToInt tree time queue)).perm
  rw [hlen] at hpermA hpermB
  obtain ⟨hA, hB, hresult⟩ := @lanes_perm F f o ridToInt tree time dynLaneState queue
  exact pairwise_of_agreed (pairwise_map_of_lane f o ridToInt tree time hpermA hkey ha)
    (pairwise_map_of_lane f o ridToInt tree time hpermB hkey hb) (hresult.trans hA.symm)
    (hresult.trans hB.symm) (hresult.symm.nodup hrids.of_map)
    (respects_lanes f o ridToInt tree time dynLaneState hrids)

theorem pairwise_sections (hrids : (queue.map Req.rid).Nodup) :
    (peekClpmSortInplace f o ridToInt tree time dynLaneState queue).waitingQueue.Pairwise
      fun x y => sectionIn o ridToInt queue x ≤ sectionIn o ridToInt queue y := by
  refine pairwise_waitingQueue f o ridToInt tree time dynLaneState _ LaneMeta.sectionId hrids
    (fun i hi => ?_) (isLane_laneAOrder _ _).sections (isLane_laneBOrder _).sections
  rw [getD_laneMetas f o ridToInt tree time queue hi]
  rfl

/-- The first two parts of a key are in order when the key is. -/
theorem lex_le_of_le {α β γ : Type} [LinearOrder α] [LinearOrder β] [LinearOrder γ] {a a' : α}
    {b b' : β} {c c' : γ} (h : toLex (a, toLex (b, c)) ≤ toLex (a', toLex (b', c'))) :
    toLex (a, b) ≤ toLex (a', b') := by
  rw [Prod.Lex.toLex_le_toLex] at h ⊢
  exact h.imp id fun h => ⟨h.1, Prod.Lex.monotone_fst _ _ h.2⟩

theorem lex_le_of_snd_le {α β γ : Type} [LinearOrder α] [LinearOrder β] [LinearOrder γ] {a a' : α}
    {b : β} {c c' : γ} (h : toLex (a, toLex (b, c)) ≤ toLex (a', toLex (b, c'))) :
    toLex (a, c) ≤ toLex (a', c') := by
  rw [Prod.Lex.toLex_le_toLex] at h ⊢
  refine h.imp id fun h => ⟨h.1, ?_⟩
  have hle := Prod.Lex.toLex_le_toLex.mp h.2
  exact hle.resolve_left (lt_irrefl b) |>.2

/-- Without arrivals there is nothing but the section and the hit for the lanes to differ on. -/
theorem pairwise_sectionHit (hrids : (queue.map Req.rid).Nodup) (harr : o.arrivals = none)
    (hgroup : o.groupMajor = false) :
    (peekClpmSortInplace f o ridToInt tree time dynLaneState queue).waitingQueue.Pairwise
      fun x y => sectionHitKey o ridToInt queue x ≤ sectionHitKey o ridToInt queue y := by
  set metas := laneMetas f o ridToInt tree time queue with hmetas
  have hmeta : ∀ i < metas.length, (metas.getD i default).effectiveMh = (metas.getD i default).mh ∧
      (metas.getD i default).arrivalNs = 0 := by
    intro i hi
    rw [hmetas, length_laneMetas] at hi
    rw [hmetas, getD_laneMetas f o ridToInt tree time queue hi]
    unfold laneMeta
    simp only [harr, Option.isSome_none, Bool.false_and, Bool.false_eq_true, if_false, and_self]
  refine pairwise_waitingQueue f o ridToInt tree time dynLaneState _
    (fun m => toLex (m.sectionId, -m.mh)) hrids (fun i hi => ?_) ?_ ?_
  · rw [getD_laneMetas f o ridToInt tree time queue hi]
    rfl
  · have hlane := isLane_laneAOrder metas o.groupMajor
    unfold laneAOrder at hlane ⊢
    rw [hgroup, if_neg Bool.false_ne_true] at hlane ⊢
    refine (pairwise_sorted (fun i => laneAKey (metas.getD i default))
      (List.range metas.length)).imp_of_mem fun {i j} hi hj hle => ?_
    have hi := List.mem_range.mp (hlane.perm.subset hi)
    have hj := List.mem_range.mp (hlane.perm.subset hj)
    have hle := lex_le_of_le hle
    rw [(hmeta i hi).1, (hmeta j hj).1] at hle
    exact hle
  · have hlane := isLane_laneBOrder metas
    refine (pairwise_sorted (fun i => laneBKey (metas.getD i default))
      (List.range metas.length)).imp_of_mem fun {i j} hi hj hle => ?_
    have hi := List.mem_range.mp (hlane.perm.subset hi)
    have hj := List.mem_range.mp (hlane.perm.subset hj)
    unfold laneBKey at hle
    rw [(hmeta i hi).2, (hmeta j hj).2] at hle
    exact lex_le_of_snd_le hle

/--
**The interleaving respects the lanes.**  For every share, and every setting of the sort, the
result keeps each pair on which the lanes agree; so it ascends in the section, no sibling comes
before the claimant of its prefix, and without arrivals and groups it is sorted by section and
cached prefix.
-/
theorem peekClpmSortInplace_interleaved (hrids : (queue.map Req.rid).Nodup) :
    Interleaved f o ridToInt tree time queue
      (peekClpmSortInplace f o ridToInt tree time dynLaneState queue) := by
  have hspec : PassSpec o (mainHit ridToInt o.mainHits) queue _ := sectionPass_spec hrids
  have hsections := pairwise_sections f o ridToInt tree time dynLaneState hrids
  obtain ⟨-, -, hperm⟩ := @lanes_perm F f o ridToInt tree time dynLaneState queue
  refine ⟨respects_lanes f o ridToInt tree time dynLaneState hrids, hsections, fun r hr => ?_,
    fun r hr => ?_, fun r hr hdepr => ?_,
    pairwise_sectionHit f o ridToInt tree time dynLaneState hrids⟩
  · obtain ⟨before, rest, hqueue⟩ := List.append_of_mem hr
    rw [sectionIn_eq o ridToInt hrids hqueue]
    unfold sectionBehind
    constructor
    · intro h
      by_contra hcold
      rw [if_neg hcold] at h
      split at h <;> omega
    · exact fun hwarm => if_pos hwarm
  · obtain ⟨before, rest, hqueue⟩ := List.append_of_mem hr
    rw [sectionIn_eq o ridToInt hrids hqueue]
    exact (hspec.deprioritized before r rest hqueue).symm
  · obtain ⟨before, rest, hqueue⟩ := List.append_of_mem hr
    have hsec := (hspec.deprioritized before r rest hqueue).mp hdepr
    obtain ⟨front, q, middle, rfl, hpioneer, hclaim⟩ := exists_claimedBy rest hsec
    rw [← hqueue] at hclaim
    refine ⟨q, hclaim, before_of_lt hsections (hperm.symm.subset ?_) (hperm.symm.subset hr) ?_⟩
    · rw [hqueue]
      exact List.mem_append_left _ (List.mem_append_right _ List.mem_cons_self)
    · have hfront : queue = front ++ q :: (middle ++ r :: rest) := by
        rw [hqueue, List.append_assoc, List.cons_append]
      rw [sectionIn_eq o ridToInt hrids hfront, sectionIn_eq o ridToInt hrids hqueue, hpioneer, hsec]
      exact Nat.lt_succ_self 1

end

/-- Of three cold requests the second one repeats the first token of the first one. -/
def threeCold : List Req :=
  [⟨"a", [1, 2], [], none, [], none, false⟩, ⟨"b", [1, 3], [], none, [], none, false⟩,
    ⟨"c", [2], [], none, [], none, false⟩]

theorem peekClpmSortInplace_interleaved_three :
    Interleaved PyFloat.exact
      { ClpmOptions.byDefault PyFloat.exact with checkThreshold := 0, deprioritizeThreshold := 1 } ∅
      PendingTree.new 0 threeCold
      (peekClpmSortInplace PyFloat.exact
        { ClpmOptions.byDefault PyFloat.exact with checkThreshold := 0, deprioritizeThreshold := 1 }
        ∅ PendingTree.new 0 none threeCold) ∧
    (peekClpmSortInplace PyFloat.exact
      { ClpmOptions.byDefault PyFloat.exact with checkThreshold := 0, deprioritizeThreshold := 1 }
      ∅ PendingTree.new 0 none threeCold).waitingQueue.map Req.rid = ["a", "c", "b"] :=
  ⟨peekClpmSortInplace_interleaved _ _ _ _ _ _ (by decide), by decide +kernel⟩

end Peek
