/-
What the two keys of `peek_sort_inplace` make of the queue.

Both modes sort by `(-main_hit, ..., rid)`.  Stock longest-prefix-match sorts by the hit alone, and
puts every request that repeats a claimed prefix behind all others; so the plain key agrees with it
on some queues only (`peekSortInplace_eq_stockLpm_iff`).  The cluster key looks at the cluster node
before it looks at who claimed the prefix, so a pioneer comes before its siblings just when hit and
node let it (`pioneerFirst_iff`).
-/
import Peek.Base.Sorting
import Peek.Online.LaneOrder
import Peek.Online.LpmParity

namespace Peek

open LaneMerge

/-! ### Who repeats a prefix -/

section

variable (o : SortOptions) (mh : Req → Int)

/-- The thresholds, as Cluster-LPM has them. -/
def SortOptions.thresholds : ClpmOptions Unit :=
  { checkThreshold := o.checkThreshold, deprioritizeThreshold := o.deprioritizeThreshold
    ageAlpha := (), bigLaneShare := (), sloBudgetS := () }

/-- The requests that stand before `r` in the queue. -/
def aheadOf (queue : List Req) (r : Req) : List Req :=
  queue.takeWhile fun q => decide (q.rid ≠ r.rid)

/-- Some request before `r` in the queue has claimed its prefix. -/
def Repeats (queue : List Req) (r : Req) : Prop :=
  Claimed o.thresholds mh (aheadOf queue r) r

instance (queue : List Req) (r : Req) : Decidable (Repeats o mh queue r) :=
  inferInstanceAs (Decidable (Claimed _ _ _ _))

theorem aheadOf_eq {queue before rest : List Req} {r : Req}
    (hrids : (queue.map Req.rid).Nodup) (hqueue : queue = before ++ r :: rest) :
    aheadOf queue r = before := by
  subst hqueue
  rw [List.map_append, List.nodup_append] at hrids
  unfold aheadOf
  rw [List.takeWhile_append_of_pos, List.takeWhile_cons_of_neg, List.append_nil]
  · simp
  · intro q hq
    refine decide_eq_true ?_
    exact hrids.2.2 _ (List.mem_map_of_mem hq) _ (List.mem_map_of_mem List.mem_cons_self)

variable {o} {ridToInt : Map ReqId Rid} {allInfo : Map Rid (Option (NodeId × Nat × Nat))}

/-- Two first passes that have claimed and deprioritized the same. -/
def SamePass (s : SortPass) (t : SectionPass) : Prop :=
  s.seenPrefixes = t.seenPrefixes ∧ s.deprioritized = t.deprioritized

/-- **Both sorts claim prefixes alike.** -/
theorem SamePass.turn {s : SortPass} {t : SectionPass} (h : SamePass s t) (r : Req) :
    SamePass (sortPassTurn ridToInt allInfo o s r)
      (sectionTurn o.thresholds (mainHit ridToInt o.mainHits) t r) := by
  have hclaim : ∀ s : SortPass, SamePass s t →
      SamePass (claimPrefix o (mainHit ridToInt o.mainHits) s r)
        (sectionTurn o.thresholds (mainHit ridToInt o.mainHits) t r) := by
    intro s ⟨hseen, hdepr⟩
    unfold claimPrefix sectionTurn
    show SamePass (if o.checkThreshold < 0 ∨ o.deprioritizeThreshold < 0 then s else
        if mainHit ridToInt o.mainHits r > o.checkThreshold then s else
        if (r.tokens.length : Int) < o.deprioritizeThreshold then s else
        if r.tokens.take o.deprioritizeThreshold.toNat ∈ s.seenPrefixes then _ else _)
      (if mainHit ridToInt o.mainHits r > o.checkThreshold then _ else
        if o.checkThreshold < 0 ∨ o.deprioritizeThreshold < 0 then _ else
        if (r.tokens.length : Int) < o.deprioritizeThreshold then _ else
        if r.tokens.take o.deprioritizeThreshold.toNat ∈ t.seenPrefixes then _ else _)
    rw [hseen]
    by_cases hoff : o.checkThreshold < 0 ∨ o.deprioritizeThreshold < 0
    · rw [if_pos hoff, if_pos hoff]
      split <;> exact ⟨hseen, hdepr⟩
    rw [if_neg hoff, if_neg hoff]
    split
    · exact ⟨hseen, hdepr⟩
    split
    · exact ⟨hseen, hdepr⟩
    split
    · exact ⟨rfl, congrArg (insert r.rid) hdepr⟩
    · exact ⟨rfl, hdepr⟩
  unfold sortPassTurn
  split
  · exact hclaim s h
  · exact hclaim _ h

theorem samePass (queue : List Req) :
    SamePass (queue.foldl (sortPassTurn ridToInt allInfo o) ⟨∅, ∅, ∅⟩)
      (sectionPass o.thresholds (mainHit ridToInt o.mainHits) queue) := by
  suffices key : ∀ (queue : List Req) (s : SortPass) (t : SectionPass), SamePass s t →
      SamePass (queue.foldl (sortPassTurn ridToInt allInfo o) s)
        (queue.foldl (sectionTurn o.thresholds (mainHit ridToInt o.mainHits)) t) from
    key queue _ _ ⟨rfl, rfl⟩
  intro queue
  induction queue with
  | nil => exact fun _ _ h => h
  | cons r queue ih => exact fun _ _ h => ih _ _ (h.turn r)

/-- **Deprioritized is who repeats a claimed prefix.** -/
theorem mem_deprioritized_iff {queue : List Req} (hrids : (queue.map Req.rid).Nodup) {r : Req}
    (hr : r ∈ queue) :
    r.rid ∈ (queue.foldl (sortPassTurn ridToInt allInfo o) ⟨∅, ∅, ∅⟩).deprioritized ↔
      Repeats o (mainHit ridToInt o.mainHits) queue r := by
  obtain ⟨before, rest, hqueue⟩ := List.append_of_mem hr
  rw [(samePass queue).2, (sectionPass_spec hrids).deprioritized before r rest hqueue]
  unfold Repeats sectionBehind
  rw [aheadOf_eq hrids hqueue]
  by_cases hclaimed : Claimed o.thresholds (mainHit ridToInt o.mainHits) before r
  · have hcold := not_lt_of_ge hclaimed.1.1
    rw [if_neg hcold, if_pos hclaimed]
    exact iff_of_true rfl hclaimed
  · rw [if_neg hclaimed]
    refine iff_of_false ?_ hclaimed
    split <;> omega

/-- The first pass keeps the cluster node of every request. -/
theorem lookup_perRidSortInfo (hlpm : o.peekLpmSort = false) {queue : List Req}
    (hrids : (queue.map Req.rid).Nodup) {r : Req} (hr : r ∈ queue) :
    (queue.foldl (sortPassTurn ridToInt allInfo o) ⟨∅, ∅, ∅⟩).perRidSortInfo.lookup r.rid =
      some (clusterNode ridToInt allInfo r) := by
  have hturn : ∀ (s : SortPass) (q : Req), (sortPassTurn ridToInt allInfo o s q).perRidSortInfo =
      s.perRidSortInfo.insert q.rid (clusterNode ridToInt allInfo q) := by
    intro s q
    unfold sortPassTurn claimPrefix
    simp only [hlpm, Bool.false_eq_true, if_false]
    split_ifs <;> rfl
  induction queue using List.reverseRecOn with
  | nil => exact absurd hr List.not_mem_nil
  | append_singleton queue q ih =>
      rw [List.map_append, List.nodup_append] at hrids
      rw [List.foldl_append, List.foldl_cons, List.foldl_nil, hturn, Map.lookup_insert_of]
      rcases List.mem_append.mp hr with hr | hr
      · have hne : r.rid ≠ q.rid := hrids.2.2 _ (List.mem_map_of_mem hr) _ List.mem_cons_self
        rw [if_neg hne]
        exact ih hrids.1 hr
      · rw [List.mem_singleton.mp hr, if_pos rfl]

end

/-! ### Stock order -/

section

variable (o : SortOptions) (mh : Req → Int) (queue : List Req)

/-- What repeats no claimed prefix, by hit and then as it stands; and then all repeats. -/
def stockLpm : List Req :=
  (queue.filter fun r => ¬ Repeats o mh queue r).insertionSort (fun a b => -mh a ≤ -mh b) ++
    queue.filter fun r => Repeats o mh queue r

theorem stockLpm_perm : (stockLpm o mh queue).Perm queue := by
  refine ((List.perm_insertionSort _ _).append_right _).trans ?_
  refine List.perm_append_comm.trans ?_
  have hnot : (fun r => decide ¬ Repeats o mh queue r) = fun r => ! decide (Repeats o mh queue r) := by
    funext r
    exact decide_not
  rw [hnot]
  exact List.filter_append_perm _ queue

variable {o mh queue} in
/-- **The sort that calls itself stock is stock.** -/
theorem lpmSort_eq_stockLpm {depr : Finset ReqId} (hnodup : queue.Nodup)
    (hdepr : ∀ r ∈ queue, r.rid ∈ depr ↔ Repeats o mh queue r) :
    lpmSort mh depr queue = stockLpm o mh queue := by
  set key : Req → Nat ×ₗ Int := fun r =>
    if Repeats o mh queue r then toLex (1, 0) else toLex (0, -mh r) with hkey
  have hsort : lpmSort mh depr queue = queue.insertionSort fun a b => key a ≤ key b := by
    refine lpmSort_eq_insertionSort fun a ha b hb => ?_
    have hda := hdepr a ha
    have hdb := hdepr b hb
    unfold PendingTree.lpmCompare
    by_cases hra : Repeats o mh queue a <;> by_cases hrb : Repeats o mh queue b
    all_goals simp [hkey, hda, hdb, hra, hrb, Prod.Lex.toLex_le_toLex, compare_le_iff_le]
  -- both keep the order of the queue where the key does not tell
  have hqueue : queue.Pairwise (Before queue) := pairwise_of_before fun _ _ h => h
  have hstock : (stockLpm o mh queue).Pairwise (KeyThen key (Before queue)) := by
    unfold stockLpm
    refine List.pairwise_append.mpr ⟨?_, ?_, fun a ha b hb => ?_⟩
    · refine ((pairwise_sorted_iff (fun r => -mh r) (Before queue) _).mpr
        ((hqueue.filter _).imp fun {a b} h (_ : -mh a = -mh b) => h)).imp_of_mem
          fun {a b} ha hb h => ?_
      have hna := of_decide_eq_true (List.mem_filter.mp ((List.mem_insertionSort _).mp ha)).2
      have hnb := of_decide_eq_true (List.mem_filter.mp ((List.mem_insertionSort _).mp hb)).2
      unfold KeyThen at h ⊢
      simpa [hkey, hna, hnb, Prod.Lex.toLex_lt_toLex] using h
    · refine (hqueue.filter _).imp_of_mem fun {a b} ha hb h => Or.inr ⟨?_, h⟩
      have hra := of_decide_eq_true (List.mem_filter.mp ha).2
      have hrb := of_decide_eq_true (List.mem_filter.mp hb).2
      simp only [hkey, hra, hrb, if_true]
    · have hna := of_decide_eq_true (List.mem_filter.mp ((List.mem_insertionSort _).mp ha)).2
      have hrb := of_decide_eq_true (List.mem_filter.mp hb).2
      refine Or.inl ?_
      simp [hkey, hna, hrb, Prod.Lex.toLex_lt_toLex]
  have hsorted := (pairwise_sorted_iff key (Before queue) queue).mpr 
    (hqueue.imp fun {a b} h (_ : key a = key b) => h)
  rw [hsort]
  refine List.Perm.eq_of_pairwise (fun a b ha hb hab hba => ?_) hsorted hstock
    ((List.perm_insertionSort _ queue).trans (stockLpm_perm o mh queue).symm)
  by_contra hne
  rcases hab with hab | ⟨heq, hab⟩
  · exact absurd hba.le (not_le_of_gt hab)
  · rcases hba with hba | ⟨-, hba⟩
    · exact absurd heq hba.ne'
    · exact hab.asymm hnodup hba

/-- When sorting by `(-main_hit, is_depr, rid)` comes to stock order. -/
structure PlainAgrees : Prop where
  /-- Ties of the others stand by rid already. -/
  ties : queue.Pairwise fun x y => ¬ Repeats o mh queue x → ¬ Repeats o mh queue y →
    mh x = mh y → x.rid ≤ y.rid
  /-- The repeats stand by hit, and their ties by rid. -/
  repeats : queue.Pairwise fun x y => Repeats o mh queue x → Repeats o mh queue y →
    mh y < mh x ∨ mh x = mh y ∧ x.rid ≤ y.rid
  /-- No repeat has more cached than another request. -/
  behind : ∀ x ∈ queue, ∀ y ∈ queue, ¬ Repeats o mh queue x → Repeats o mh queue y → mh y ≤ mh x

variable {o mh queue}

theorem plainKey_le_iff {s : SortPass} {a b : Req} : plainKey mh s a ≤ plainKey mh s b ↔
    mh b < mh a ∨ mh a = mh b ∧ ((a.rid ∉ s.deprioritized ∧ b.rid ∈ s.deprioritized) ∨
      (a.rid ∈ s.deprioritized ↔ b.rid ∈ s.deprioritized) ∧ a.rid ≤ b.rid) := by
  unfold plainKey
  rw [Prod.Lex.toLex_le_toLex, Prod.Lex.toLex_le_toLex]
  by_cases ha : a.rid ∈ s.deprioritized <;> by_cases hb : b.rid ∈ s.deprioritized
  all_goals simp [ha, hb]

theorem plainKey_rid {s : SortPass} {a b : Req} (h : plainKey mh s a = plainKey mh s b) :
    a.rid = b.rid :=
  congrArg (fun k : Int ×ₗ Nat ×ₗ ReqId => (ofLex (ofLex k).2).2) h

/-- Distinct requests have distinct rids. -/
theorem eq_of_rid_eq (hrids : (queue.map Req.rid).Nodup) {a b : Req} (ha : a ∈ queue)
    (hb : b ∈ queue) (h : a.rid = b.rid) : a = b :=
  List.inj_on_of_nodup_map hrids ha hb h

/-- **Stock order is sorted by the plain key just when both come to the same.** -/
theorem pairwise_stockLpm_iff {s : SortPass}
    (hdepr : ∀ r ∈ queue, r.rid ∈ s.deprioritized ↔ Repeats o mh queue r) :
    ((stockLpm o mh queue).Pairwise fun a b => plainKey mh s a ≤ plainKey mh s b) ↔
      PlainAgrees o mh queue := by
  have hkey : ∀ a ∈ queue, ∀ b ∈ queue, plainKey mh s a ≤ plainKey mh s b ↔
      mh b < mh a ∨ mh a = mh b ∧ ((¬ Repeats o mh queue a ∧ Repeats o mh queue b) ∨
        (Repeats o mh queue a ↔ Repeats o mh queue b) ∧ a.rid ≤ b.rid) := by
    intro a ha b hb
    rw [plainKey_le_iff, hdepr a ha, hdepr b hb]
  -- the front part of stock order is sorted by hit, so only its ties matter
  have hfront : (((queue.filter fun r => ¬ Repeats o mh queue r).insertionSort
      fun a b => -mh a ≤ -mh b).Pairwise fun a b => plainKey mh s a ≤ plainKey mh s b) ↔
      queue.Pairwise fun x y => ¬ Repeats o mh queue x → ¬ Repeats o mh queue y →
        mh x = mh y → x.rid ≤ y.rid := by
    have hmem : ∀ a ∈ (queue.filter fun r => ¬ Repeats o mh queue r).insertionSort
        fun a b => -mh a ≤ -mh b, a ∈ queue ∧ ¬ Repeats o mh queue a := by
      intro a ha
      have := List.mem_filter.mp ((List.mem_insertionSort _).mp ha)
      exact ⟨this.1, of_decide_eq_true this.2⟩
    rw [List.Pairwise.iff_of_mem (S := KeyThen (fun r => -mh r) fun a b => a.rid ≤ b.rid)
      fun {a b} ha hb => ?_, pairwise_sorted_iff, List.pairwise_filter]
    · refine List.Pairwise.iff fun a b => ?_
      simp only [decide_eq_true_eq, neg_inj]
    · obtain ⟨ha, hna⟩ := hmem a ha
      obtain ⟨hb, hnb⟩ := hmem b hb
      rw [hkey a ha b hb]
      unfold KeyThen
      rw [neg_lt_neg_iff, neg_inj]
      simp [hna, hnb]
  have hback : ((queue.filter fun r => Repeats o mh queue r).Pairwise fun a b =>
      plainKey mh s a ≤ plainKey mh s b) ↔
      queue.Pairwise fun x y => Repeats o mh queue x → Repeats o mh queue y →
        mh y < mh x ∨ mh x = mh y ∧ x.rid ≤ y.rid := by
    rw [List.pairwise_filter]
    refine List.Pairwise.iff_of_mem fun {a b} ha hb => ?_
    simp only [decide_eq_true_eq]
    refine forall_congr' fun hra => forall_congr' fun hrb => ?_
    rw [hkey a ha b hb]
    simp [hra, hrb]
  unfold stockLpm
  rw [List.pairwise_append, hfront, hback]
  constructor
  · rintro ⟨hties, hrepeats, hcross⟩
    refine ⟨hties, hrepeats, fun x hx y hy hnx hry => ?_⟩
    have hle := hcross x ((List.mem_insertionSort _).mpr (List.mem_filter.mpr ⟨hx, decide_eq_true hnx⟩))
      y (List.mem_filter.mpr ⟨hy, decide_eq_true hry⟩)
    exact ((hkey x hx y hy).mp hle).elim le_of_lt fun h => h.1.ge
  · rintro ⟨hties, hrepeats, hbehind⟩
    refine ⟨hties, hrepeats, fun x hx y hy => ?_⟩
    obtain ⟨hx, hnx⟩ := List.mem_filter.mp ((List.mem_insertionSort _).mp hx)
    obtain ⟨hy, hry⟩ := List.mem_filter.mp hy
    have hnx := of_decide_eq_true hnx
    have hry := of_decide_eq_true hry
    rw [hkey x hx y hy]
    exact (hbehind x hx y hy hnx hry).lt_or_eq.imp id fun h => ⟨h.symm, Or.inl ⟨hnx, hry⟩⟩

variable {ridToInt : Map ReqId Rid} {tree : PendingTree}

/-- The third mode, which calls itself stock, is stock on every queue. -/
theorem peekSortInplace_lpm_eq_stockLpm (hrids : (queue.map Req.rid).Nodup)
    (hlpm : o.peekLpmSort = true) :
    (peekSortInplace queue ridToInt tree o).1 =
      stockLpm o (mainHit ridToInt o.mainHits) queue := by
  unfold peekSortInplace
  simp only [hlpm, if_true]
  exact lpmSort_eq_stockLpm hrids.of_map fun r hr => mem_deprioritized_iff hrids hr

/--
**The plain key against stock order.**  With no ranking by cluster, the sort leaves the queue in
stock order just when ties stand by rid already and no repeat has more cached than another request.
-/
theorem peekSortInplace_eq_stockLpm_iff (hrids : (queue.map Req.rid).Nodup)
    (hrank : o.rankByClusterSize = false) (hlpm : o.peekLpmSort = false) :
    (peekSortInplace queue ridToInt tree o).1 = stockLpm o (mainHit ridToInt o.mainHits) queue ↔
      PlainAgrees o (mainHit ridToInt o.mainHits) queue := by
  unfold peekSortInplace
  simp only [hrank, hlpm, Bool.false_eq_true, if_false]
  rw [sorted_eq_iff _ (stockLpm_perm _ _ _) fun a ha b hb h => eq_of_rid_eq hrids ha hb (plainKey_rid h)]
  exact pairwise_stockLpm_iff fun r hr => mem_deprioritized_iff hrids hr

end

/-- Two cold requests that share nothing; the first one has the larger rid. -/
def unlikeQueue : List Req :=
  [⟨"b", [1], [], none, [], none, false⟩, ⟨"a", [2], [], none, [], none, false⟩]

/-- No ranking by cluster. -/
def plainOptions : SortOptions := { rankByClusterSize := false }

theorem peekSortInplace_eq_stockLpm_iff_unlike :
    ¬ PlainAgrees plainOptions (mainHit ∅ plainOptions.mainHits) unlikeQueue :=
  (@peekSortInplace_eq_stockLpm_iff plainOptions unlikeQueue ∅ PendingTree.new (by decide) rfl
    rfl).not.mp (by decide +kernel)

/-- Stock order leaves the tie as it stands, and the plain key turns it round. -/
theorem plain_ne_stockLpm_unlike : (unlikeQueue.map Req.rid).Nodup ∧
    ((peekSortInplace unlikeQueue ∅ PendingTree.new plainOptions).1.map Req.rid = ["a", "b"] ∧
      (stockLpm plainOptions (mainHit ∅ plainOptions.mainHits) unlikeQueue).map Req.rid =
        ["b", "a"]) := by
  decide +kernel

/-! ### Pioneers and siblings -/

section

variable {o : SortOptions} {mh : Req → Int} {queue : List Req} {ridToInt : Map ReqId Rid}
  {tree : PendingTree}

/-- The cluster node of a request in the queue. -/
def nodeOf (ridToInt : Map ReqId Rid) (tree : PendingTree) (r : Req) : NodeId :=
  clusterNode ridToInt tree.allClusterInfo r

/-- A sibling's prefix is claimed by one request before it, which is itself no sibling. -/
theorem ClaimedBy.repeats {q r : Req} (hrids : (queue.map Req.rid).Nodup)
    (h : ClaimedBy o.thresholds mh queue q r) :
    q ∈ queue ∧ r ∈ queue ∧ ¬ Repeats o mh queue q ∧ Repeats o mh queue r := by
  obtain ⟨front, rest, rfl, hr, hqc, hrc, hkey, hfirst⟩ := h
  obtain ⟨middle, rest, rfl⟩ := List.append_of_mem hr
  have hsplit : front ++ q :: (middle ++ r :: rest) = (front ++ q :: middle) ++ r :: rest := by
    rw [List.append_assoc, List.cons_append]
  refine ⟨List.mem_append_right _ List.mem_cons_self, ?_, ?_, ?_⟩
  · rw [hsplit]
    exact List.mem_append_right _ List.mem_cons_self
  · unfold Repeats
    rw [aheadOf_eq hrids rfl]
    exact hfirst
  · unfold Repeats
    rw [aheadOf_eq hrids hsplit]
    exact ⟨hrc, q, List.mem_append_right _ List.mem_cons_self, hqc, hkey⟩

theorem clusterKey_le_iff {s : SortPass} {a b : Req} {m n : NodeId}
    (ha : s.perRidSortInfo.lookup a.rid = some m) (hb : s.perRidSortInfo.lookup b.rid = some n) :
    clusterKey mh s a ≤ clusterKey mh s b ↔ mh b < mh a ∨ mh a = mh b ∧ (m < n ∨ m = n ∧
      ((a.rid ∉ s.deprioritized ∧ b.rid ∈ s.deprioritized) ∨
        (a.rid ∈ s.deprioritized ↔ b.rid ∈ s.deprioritized) ∧ a.rid ≤ b.rid)) := by
  unfold clusterKey
  rw [ha, hb, Prod.Lex.toLex_le_toLex, Prod.Lex.toLex_le_toLex, Prod.Lex.toLex_le_toLex]
  by_cases hda : a.rid ∈ s.deprioritized <;> by_cases hdb : b.rid ∈ s.deprioritized
  all_goals simp [hda, hdb]

theorem clusterKey_rid {s : SortPass} {a b : Req} (h : clusterKey mh s a = clusterKey mh s b) :
    a.rid = b.rid :=
  congrArg (fun k : Int ×ₗ Nat ×ₗ Nat ×ₗ ReqId => (ofLex (ofLex (ofLex k).2).2).2) h

/-- The order of the cluster key: by hit, by node, siblings last, by rid. -/
def ClusterBefore (o : SortOptions) (ridToInt : Map ReqId Rid) (tree : PendingTree)
    (queue : List Req) (a b : Req) : Prop :=
  let mh := mainHit ridToInt o.mainHits
  mh b < mh a ∨ mh a = mh b ∧ (nodeOf ridToInt tree a < nodeOf ridToInt tree b ∨
    nodeOf ridToInt tree a = nodeOf ridToInt tree b ∧
      ((¬ Repeats o mh queue a ∧ Repeats o mh queue b) ∨
        (Repeats o mh queue a ↔ Repeats o mh queue b) ∧ a.rid ≤ b.rid))

/-- **Of two requests the one with the lower cluster key comes first.** -/
theorem before_iff_clusterBefore (hrids : (queue.map Req.rid).Nodup)
    (hrank : o.rankByClusterSize = true) (hlpm : o.peekLpmSort = false) {a b : Req}
    (ha : a ∈ queue) (hb : b ∈ queue) (hne : a ≠ b) :
    Before (peekSortInplace queue ridToInt tree o).1 a b ↔
      ClusterBefore o ridToInt tree queue a b := by
  set s := queue.foldl (sortPassTurn ridToInt tree.allClusterInfo o) ⟨∅, ∅, ∅⟩ with hs
  have hresult : (peekSortInplace queue ridToInt tree o).1 = queue.insertionSort fun a b =>
      clusterKey (mainHit ridToInt o.mainHits) s a ≤ clusterKey (mainHit ridToInt o.mainHits) s b := by
    unfold peekSortInplace
    simp only [hrank, hlpm, Bool.false_eq_true, if_false, if_true]
    rfl
  have hle : ClusterBefore o ridToInt tree queue a b ↔
      clusterKey (mainHit ridToInt o.mainHits) s a ≤ clusterKey (mainHit ridToInt o.mainHits) s b := by
    rw [clusterKey_le_iff (lookup_perRidSortInfo hlpm hrids ha) (lookup_perRidSortInfo hlpm hrids hb),
      mem_deprioritized_iff hrids ha, mem_deprioritized_iff hrids hb]
    exact Iff.rfl
  have hsorted := pairwise_sorted (clusterKey (mainHit ridToInt o.mainHits) s) queue
  rw [hle, hresult]
  constructor
  · exact fun h => Before.rel (R := fun a b => clusterKey (mainHit ridToInt o.mainHits) s a ≤
      clusterKey (mainHit ridToInt o.mainHits) s b) hsorted h
  · intro h
    refine before_of_lt hsorted ((List.mem_insertionSort _).mpr ha)
      ((List.mem_insertionSort _).mpr hb) (lt_of_le_of_ne h fun heq => hne ?_)
    exact eq_of_rid_eq hrids ha hb (clusterKey_rid heq)

/-- A prefix has one claimant. -/
theorem ClaimedBy.unique {q q' r : Req} (h : ClaimedBy o.thresholds mh queue q r)
    (h' : ClaimedBy o.thresholds mh queue q' r) : q = q' := by
  obtain ⟨front, rest, rfl, -, hqc, -, hkey, hfirst⟩ := h
  obtain ⟨front', rest', heq, -, hqc', -, hkey', hfirst'⟩ := h'
  by_contra hne
  have hq : q ∈ front' ++ q' :: rest' := heq ▸ List.mem_append_right _ List.mem_cons_self
  rcases List.append_eq_append_iff.mp heq with ⟨middle, hfront, hrest⟩ | ⟨middle, hfront, hrest⟩
  · rcases List.cons_eq_append_iff.mp hrest with ⟨rfl, htail⟩ | ⟨middle, rfl, -⟩
    · exact hne (List.cons.inj htail).1.symm
    · refine hfirst' ⟨hqc', q, ?_, hqc, hkey.trans hkey'.symm⟩
      rw [hfront]
      exact List.mem_append_right _ List.mem_cons_self
  · rcases List.cons_eq_append_iff.mp hrest with ⟨rfl, htail⟩ | ⟨middle, rfl, -⟩
    · exact hne (List.cons.inj htail).1
    · refine hfirst ⟨hqc, q', ?_, hqc', hkey'.trans hkey.symm⟩
      rw [hfront]
      exact List.mem_append_right _ List.mem_cons_self

theorem Repeats.exists_claimedBy {r : Req} (hrids : (queue.map Req.rid).Nodup) (hr : r ∈ queue)
    (h : Repeats o mh queue r) : ∃ q, ClaimedBy o.thresholds mh queue q r := by
  obtain ⟨before, rest, rfl⟩ := List.append_of_mem hr
  unfold Repeats at h
  rw [aheadOf_eq hrids rfl] at h
  have hsec : sectionBehind o.thresholds mh before r = 2 := by
    unfold sectionBehind
    rw [if_neg (not_lt_of_ge h.1.1), if_pos h]
  obtain ⟨-, q, -, -, -, hclaimed⟩ := Peek.exists_claimedBy rest hsec
  exact ⟨q, hclaimed⟩

/-- Every deprioritized request comes after the claimant of its prefix. -/
def PioneerFirst (o : SortOptions) (ridToInt : Map ReqId Rid) (queue : List Req)
    (result : List Req × Finset ReqId) : Prop :=
  ∀ r ∈ queue, r.rid ∈ result.2 →
    ∃ q, ClaimedBy o.thresholds (mainHit ridToInt o.mainHits) queue q r ∧ Before result.1 q r

/--
**Pioneer first.**  In cluster-ranked mode every deprioritized request comes after its pioneer just
when no sibling has more cached than its pioneer or, with as much, a lower cluster node.
-/
theorem pioneerFirst_iff (hrids : (queue.map Req.rid).Nodup)
    (hrank : o.rankByClusterSize = true) (hlpm : o.peekLpmSort = false) :
    PioneerFirst o ridToInt queue (peekSortInplace queue ridToInt tree o) ↔
      ∀ q r, ClaimedBy o.thresholds (mainHit ridToInt o.mainHits) queue q r →
        mainHit ridToInt o.mainHits r < mainHit ridToInt o.mainHits q ∨
          mainHit ridToInt o.mainHits q = mainHit ridToInt o.mainHits r ∧
            nodeOf ridToInt tree q ≤ nodeOf ridToInt tree r := by
  have hdepr : ∀ r ∈ queue, r.rid ∈ (peekSortInplace queue ridToInt tree o).2 ↔
      Repeats o (mainHit ridToInt o.mainHits) queue r := by
    intro r hr
    unfold peekSortInplace
    simp only [hrank, hlpm, Bool.false_eq_true, if_false, if_true]
    exact mem_deprioritized_iff hrids hr
  have hpair : ∀ q r, ClaimedBy o.thresholds (mainHit ridToInt o.mainHits) queue q r →
      (Before (peekSortInplace queue ridToInt tree o).1 q r ↔
        mainHit ridToInt o.mainHits r < mainHit ridToInt o.mainHits q ∨
          mainHit ridToInt o.mainHits q = mainHit ridToInt o.mainHits r ∧
            nodeOf ridToInt tree q ≤ nodeOf ridToInt tree r) := by
    intro q r hclaimed
    obtain ⟨hq, hr, hnq, hrr⟩ := hclaimed.repeats hrids
    have hne : q ≠ r := fun heq => hnq (heq ▸ hrr)
    rw [before_iff_clusterBefore hrids hrank hlpm hq hr hne]
    unfold ClusterBefore
    simp only [hnq, hrr, not_false_eq_true, and_self, true_or, and_true, le_iff_lt_or_eq]
  constructor
  · intro h q r hclaimed
    obtain ⟨-, hr, -, hrr⟩ := hclaimed.repeats hrids
    obtain ⟨q', hclaimed', hbefore⟩ := h r hr ((hdepr r hr).mpr hrr)
    rw [hclaimed'.unique hclaimed] at hbefore
    exact (hpair q r hclaimed).mp hbefore
  · intro h r hr hmem
    obtain ⟨q, hclaimed⟩ := ((hdepr r hr).mp hmem).exists_claimedBy hrids hr
    exact ⟨q, hclaimed, (hpair q r hclaimed).mpr (h q r hclaimed)⟩

end

/-- A pioneer, a request that shares two tokens with it, and one that shares one. -/
def nestedQueue : List Req :=
  [⟨"a", [1, 2, 3], [], none, [], none, false⟩, ⟨"b", [1, 2, 4], [], none, [], none, false⟩,
    ⟨"c", [1, 5], [], none, [], none, false⟩]

/-- The pending tree of the queue, and the ids of its requests. -/
def nestedTree : PendingTree := PendingTree.run
  [.insert 0 [1, 2, 3], .insert 1 [1, 2, 4], .insert 2 [1, 5]]

def nestedIds : Map ReqId Rid := (((∅ : Map ReqId Rid).insert "a" 0).insert "b" 1).insert "c" 2

/-- What is pending is what waits, with the same tokens. -/
def QueueInSync (ridToInt : Map ReqId Rid) (tree : PendingTree) (queue : List Req) : Prop :=
  (∀ r ∈ queue, ((ridToInt.lookup r.rid).bind fun rid => tree.paths.lookup rid) = some r.tokens) ∧
    tree.len = queue.length

instance (ridToInt : Map ReqId Rid) (tree : PendingTree) (queue : List Req) :
    Decidable (QueueInSync ridToInt tree queue) :=
  inferInstanceAs (Decidable (_ ∧ _))

/-- One token is enough for a claim. -/
def claimOne : SortOptions := { checkThreshold := 1, deprioritizeThreshold := 1 }

/-- The sibling is of the outer cluster, whose node is the older one. -/
theorem not_pioneerFirst_nested : (nestedQueue.map Req.rid).Nodup ∧
    QueueInSync nestedIds nestedTree nestedQueue ∧
    (peekSortInplace nestedQueue nestedIds nestedTree claimOne).1.map Req.rid = ["c", "a", "b"] ∧
    ¬ PioneerFirst claimOne nestedIds nestedQueue
      (peekSortInplace nestedQueue nestedIds nestedTree claimOne) := by
  refine ⟨by decide, by decide +kernel, by decide +kernel, fun h => ?_⟩
  have horder : (peekSortInplace nestedQueue nestedIds nestedTree claimOne).1 =
      [nestedQueue.getD 2 default, nestedQueue.getD 0 default, nestedQueue.getD 1 default] := by
    decide +kernel
  obtain ⟨q, -, front, rest, heq, hq⟩ := h (nestedQueue.getD 2 default) (by decide) (by decide +kernel)
  rw [horder] at heq
  cases front with
  | nil => exact List.not_mem_nil hq
  | cons x front =>
      have hmem : nestedQueue.getD 2 default ∈ [nestedQueue.getD 0 default, nestedQueue.getD 1 default] := by
        rw [(List.cons.inj heq).2]
        exact List.mem_append_right _ List.mem_cons_self
      exact absurd hmem (by decide)

theorem pioneerFirst_iff_nested :
    PioneerFirst claimOne nestedIds nestedQueue
        (peekSortInplace nestedQueue nestedIds nestedTree claimOne) ↔
      ∀ q r, ClaimedBy claimOne.thresholds (mainHit nestedIds claimOne.mainHits) nestedQueue q r →
        mainHit nestedIds claimOne.mainHits r < mainHit nestedIds claimOne.mainHits q ∨
          mainHit nestedIds claimOne.mainHits q = mainHit nestedIds claimOne.mainHits r ∧
            nodeOf nestedIds nestedTree q ≤ nodeOf nestedIds nestedTree r :=
  pioneerFirst_iff (show (nestedQueue.map Req.rid).Nodup by decide) rfl rfl

end Peek
