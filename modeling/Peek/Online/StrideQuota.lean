/-
How the stride merge shares out its turns.

Every turn picks one request, so the state after `k` turns holds the first `k` of the result,
whatever the clocks say and however they are rounded.  In exact arithmetic a lane's clock stands
at its turns over its share, and `Stride.Fair` bounds how far either lane can fall behind.
-/
import Mathlib.Data.Rat.Floor
import Peek.Base.StrideClock
import Peek.Online.LaneOrder

namespace Peek

open LaneMerge

/-! ### Turn by turn -/

section

variable {F : Type} (f : PyFloat F) (share : F) (a b : List Nat)

/-- The merge before its first turn: each clock at the cost of a pick. -/
def strideStart : StrideState F where
  aRest := a
  bRest := b
  aVclock := some (f.div (f.ofRat 1) share)
  bVclock := some (f.div (f.ofRat 1) (f.sub (f.ofRat 1) share))
  picked := ∅
  order := []

/-- The merge after `k` turns. -/
def strideAfter (k : Nat) : StrideState F :=
  (strideTurn f (f.div (f.ofRat 1) share)
    (f.div (f.ofRat 1) (f.sub (f.ofRat 1) share)))^[k] (strideStart f share a b)

/-- `pick_a` -/
def pickA (s : StrideState F) : Bool := VClock.le f s.aVclock s.bVclock

/-- Of the first `k` turns, those of Lane A. -/
def aTurns (k : Nat) : Nat := (List.range k).countP fun j => pickA f (strideAfter f share a b j)

/-- What the loop does with the lanes `a` and `b`, turn by turn. -/
structure PicksEach : Prop where
  /-- Every turn appends one request. -/
  picks : ∀ k < a.length, ∃ i, (strideAfter f share a b (k + 1)).order =
    (strideAfter f share a b k).order ++ [i]
  /-- No clock is ever set to infinity. -/
  clocks : ∀ k ≤ a.length, (strideAfter f share a b k).aVclock.isSome = true ∧
    (strideAfter f share a b k).bVclock.isSome = true
  /-- The loop stops after one turn a request, and no sooner. -/
  length : ∀ k ≤ a.length, (strideAfter f share a b k).order.length = k
  stops : ∀ fuel, a.length ≤ fuel →
    strideLoop f (f.div (f.ofRat 1) share) (f.div (f.ofRat 1) (f.sub (f.ofRat 1) share)) a.length
      fuel (strideStart f share a b) = strideAfter f share a b a.length

variable {a b} {s : StrideState F} (aStride bStride : F)

/-- **What one turn does**: the lane that is up picks its first request that is left. -/
theorem Picking.turn_cases (h : Picking a b s) (ha : a.Nodup) (hab : a.Perm b)
    (hlen : s.order.length < a.length) :
    (∃ i rest, pickA f s = true ∧
      s.aRest.dropWhile (fun j => decide (j ∈ s.order)) = i :: rest ∧
      strideTurn f aStride bStride s =
        { s with
          aRest := rest, order := s.order ++ [i], picked := insert i s.picked
          aVclock := s.aVclock.map fun clock => f.add clock aStride }) ∨
    ∃ i rest, pickA f s = false ∧
      s.bRest.dropWhile (fun j => decide (j ∈ s.order)) = i :: rest ∧
      strideTurn f aStride bStride s =
        { s with
          bRest := rest, order := s.order ++ [i], picked := insert i s.picked
          bVclock := s.bVclock.map fun clock => f.add clock bStride } := by
  have hb : b.Nodup := hab.nodup ha
  unfold strideTurn
  cases hup : VClock.le f s.aVclock s.bVclock with
  | true =>
      obtain ⟨i, rest, hdrop⟩ := h.merging.exists_next ha hlen
      refine Or.inl ⟨i, rest, hup, hdrop, ?_⟩
      rw [if_pos rfl, h.dropWhile_eq, hdrop]
  | false =>
      obtain ⟨i, rest, hdrop⟩ := (h.merging.symm hab).exists_next hb (hab.length_eq ▸ hlen)
      refine Or.inr ⟨i, rest, hup, hdrop, ?_⟩
      rw [if_neg Bool.false_ne_true, h.dropWhile_eq, hdrop]

theorem picking_start : Picking a b (strideStart f share a b) where
  merging := merging_nil a b
  picked i := by simp [strideStart]

theorem strideAfter_succ (k : Nat) : strideAfter f share a b (k + 1) =
    strideTurn f (f.div (f.ofRat 1) share) (f.div (f.ofRat 1) (f.sub (f.ofRat 1) share))
      (strideAfter f share a b k) :=
  Function.iterate_succ_apply' _ _ _

/-- After `k` turns the merge has picked `k` requests. -/
theorem picking_after (ha : a.Nodup) (hab : a.Perm b) {k : Nat} (hk : k ≤ a.length) :
    Picking a b (strideAfter f share a b k) ∧ (strideAfter f share a b k).order.length = k := by
  induction k with
  | zero => exact ⟨picking_start f share, rfl⟩
  | succ k ih =>
      obtain ⟨hpick, hlen⟩ := ih (Nat.le_of_succ_le hk)
      obtain ⟨hturn, hone⟩ := hpick.turn f (f.div (f.ofRat 1) share)
        (f.div (f.ofRat 1) (f.sub (f.ofRat 1) share)) ha hab (by omega)
      rw [strideAfter_succ]
      exact ⟨hturn, by omega⟩

/-- The loop is as many turns as there are requests left to pick. -/
theorem Picking.strideLoop_eq (ha : a.Nodup) (hab : a.Perm b) (fuel : Nat) :
    ∀ s : StrideState F, Picking a b s → a.length ≤ s.order.length + fuel →
      strideLoop f aStride bStride a.length fuel s =
        (strideTurn f aStride bStride)^[a.length - s.order.length] s := by
  induction fuel with
  | zero =>
      intro s _ hfuel
      have hdone : a.length - s.order.length = 0 := Nat.sub_eq_zero_of_le hfuel
      rw [hdone]
      rfl
  | succ fuel ih =>
      intro s h hfuel
      unfold strideLoop
      by_cases hlen : s.order.length < a.length
      · obtain ⟨hturn, hone⟩ := h.turn f aStride bStride ha hab hlen
        have hleft : a.length - s.order.length =
            (a.length - (strideTurn f aStride bStride s).order.length) + 1 := by omega
        rw [if_pos hlen, ih _ hturn (by omega), hleft, Function.iterate_succ_apply]
      · rw [if_neg hlen, Nat.sub_eq_zero_of_le (Nat.not_lt.mp hlen)]
        rfl

/-- **Every turn of the loop picks a request**, whichever lane is up. -/
theorem picksEach (ha : a.Nodup) (hab : a.Perm b) : PicksEach f share a b where
  picks k hk := by
    obtain ⟨hpick, hlen⟩ := picking_after f share ha hab (Nat.le_of_lt hk)
    rw [strideAfter_succ]
    obtain ⟨i, rest, -, -, hturn⟩ | ⟨i, rest, -, -, hturn⟩ := hpick.turn_cases f
      (f.div (f.ofRat 1) share) (f.div (f.ofRat 1) (f.sub (f.ofRat 1) share)) ha hab (by omega)
    · exact ⟨i, by rw [hturn]⟩
    · exact ⟨i, by rw [hturn]⟩
  clocks k hk := by
    induction k with
    | zero => exact ⟨rfl, rfl⟩
    | succ k ih =>
        obtain ⟨hA, hB⟩ := ih (Nat.le_of_succ_le hk)
        obtain ⟨hpick, hlen⟩ := picking_after f share ha hab (Nat.le_of_succ_le hk)
        rw [strideAfter_succ]
        obtain ⟨i, rest, -, -, hturn⟩ | ⟨i, rest, -, -, hturn⟩ := hpick.turn_cases f
          (f.div (f.ofRat 1) share) (f.div (f.ofRat 1) (f.sub (f.ofRat 1) share)) ha hab (by omega)
        · rw [hturn]
          exact ⟨Option.isSome_map.trans hA, hB⟩
        · rw [hturn]
          exact ⟨hA, Option.isSome_map.trans hB⟩
  length k hk := (picking_after f share ha hab hk).2
  stops fuel hfuel := by
    refine Picking.strideLoop_eq f _ _ ha hab fuel _ (picking_start f share) ?_
    exact hfuel.trans (Nat.le_add_left _ _)

theorem strideMerge_eq (ha : a.Nodup) (hab : a.Perm b) :
    strideMerge f share a.length a b = (strideAfter f share a b a.length).order :=
  congrArg StrideState.order ((picksEach f share ha hab).stops a.length le_rfl)

/-- The first `k` of the result are those of the first `k` turns. -/
theorem strideAfter_prefix (ha : a.Nodup) (hab : a.Perm b) {k : Nat} (hk : k ≤ a.length) :
    (strideAfter f share a b k).order <+: strideMerge f share a.length a b := by
  rw [strideMerge_eq f share ha hab]
  induction hk using Nat.decreasingInduction with
  | self => exact List.prefix_rfl
  | of_succ k hk ih =>
      obtain ⟨i, hi⟩ := (picksEach f share ha hab).picks k hk
      rw [hi] at ih
      exact (List.prefix_append _ [i]).trans ih

end

/-! ### Exact clocks -/

section

variable {share : ℚ} {a b : List Nat} {s : StrideState ℚ} {x y : Nat}

/-- The merge after `x` turns of Lane A and `y` of Lane B, in exact arithmetic. -/
structure Paced (share : ℚ) (a b : List Nat) (s : StrideState ℚ) (x y : Nat) : Prop where
  picking : Picking a b s
  length : s.order.length = x + y
  aClock : s.aVclock = some ((x + 1) * (1 / share))
  bClock : s.bVclock = some ((y + 1) * (1 / (1 - share)))
  /-- A turn moves the pointer of its lane. -/
  aPassed : s.aRest.length + x ≤ a.length
  bPassed : s.bRest.length + y ≤ b.length
  fair : Stride.Fair share x y

theorem paced_start (hpos : 0 < share) (hlt : share < 1) :
    Paced share a b (strideStart PyFloat.exact share a b) 0 0 where
  picking := picking_start _ _
  length := rfl
  aClock := by
    rw [Nat.cast_zero, zero_add, one_mul]
    rfl
  bClock := by
    rw [Nat.cast_zero, zero_add, one_mul]
    rfl
  aPassed := le_rfl
  bPassed := le_rfl
  fair := Stride.fair_zero hpos hlt

/-- Lane A is up as long as one more turn is within its share. -/
theorem Paced.pickA_iff (h : Paced share a b s x y) (hpos : 0 < share) (hlt : share < 1) :
    pickA PyFloat.exact s = true ↔ (x : ℚ) + 1 ≤ share * (x + y + 2) := by
  rw [← Stride.clock_le_iff hpos hlt]
  unfold pickA
  rw [h.aClock, h.bClock]
  exact decide_eq_true_iff

theorem length_of_dropWhile_eq {α : Type} {p : α → Bool} {l rest : List α} {i : α}
    (h : l.dropWhile p = i :: rest) : rest.length + 1 ≤ l.length := by
  have hle := (List.dropWhile_sublist p (l := l)).length_le
  rw [h] at hle
  exact hle

/-- **The quota after one more turn.** -/
theorem Paced.turn (h : Paced share a b s x y) (hpos : 0 < share) (hlt : share < 1)
    (ha : a.Nodup) (hab : a.Perm b) (hlen : s.order.length < a.length) :
    if pickA PyFloat.exact s then
      Paced share a b (strideTurn PyFloat.exact (1 / share) (1 / (1 - share)) s) (x + 1) y
    else Paced share a b (strideTurn PyFloat.exact (1 / share) (1 / (1 - share)) s) x (y + 1) := by
  have hnext := (h.picking.turn PyFloat.exact (1 / share) (1 / (1 - share)) ha hab hlen).1
  have hiff := h.pickA_iff hpos hlt
  have hclock : ∀ (n : Nat) (stride : ℚ),
      PyFloat.exact.add ((n + 1) * stride) stride = ((n + 1 : Nat) + 1) * stride := by
    intro n stride
    show ((n : ℚ) + 1) * stride + stride = _
    rw [Nat.cast_succ]
    ring
  obtain ⟨i, rest, hup, hdrop, hturn⟩ | ⟨i, rest, hup, hdrop, hturn⟩ :=
    h.picking.turn_cases PyFloat.exact (1 / share) (1 / (1 - share)) ha hab hlen
  · have hpassed := length_of_dropWhile_eq hdrop
    have hold := h.aPassed
    rw [if_pos hup]
    rw [hturn] at hnext ⊢
    refine ⟨hnext, ?_, ?_, h.bClock, ?_, h.bPassed, h.fair.left hlt (hiff.mp hup)⟩
    · show (s.order ++ [i]).length = _
      rw [List.length_append, h.length, List.length_singleton]
      omega
    · show s.aVclock.map _ = _
      rw [h.aClock, Option.map_some, hclock]
    · show rest.length + _ ≤ _
      omega
  · have hpassed := length_of_dropWhile_eq hdrop
    have hold := h.bPassed
    have hup := Bool.eq_false_iff.mp hup
    rw [if_neg hup]
    rw [hturn] at hnext ⊢
    refine ⟨hnext, ?_, h.aClock, ?_, h.aPassed, ?_, h.fair.right hpos fun hle => hup (hiff.mpr hle)⟩
    · show (s.order ++ [i]).length = _
      rw [List.length_append, h.length, List.length_singleton]
      omega
    · show s.bVclock.map _ = _
      rw [h.bClock, Option.map_some, hclock]
    · show rest.length + _ ≤ _
      omega

/-- **The quota after any number of turns.** -/
theorem paced_after (hpos : 0 < share) (hlt : share < 1) (ha : a.Nodup) (hab : a.Perm b) {k : Nat}
    (hk : k ≤ a.length) : ∃ y, aTurns PyFloat.exact share a b k + y = k ∧
      Paced share a b (strideAfter PyFloat.exact share a b k)
        (aTurns PyFloat.exact share a b k) y := by
  induction k with
  | zero => exact ⟨0, rfl, paced_start hpos hlt⟩
  | succ k ih =>
      obtain ⟨y, hsum, hpaced⟩ := ih (Nat.le_of_succ_le hk)
      have hlen := hpaced.length
      have hturn := hpaced.turn hpos hlt ha hab (by omega)
      have hturns : aTurns PyFloat.exact share a b (k + 1) = aTurns PyFloat.exact share a b k +
          if pickA PyFloat.exact (strideAfter PyFloat.exact share a b k) then 1 else 0 := by
        unfold aTurns
        rw [List.range_succ, List.countP_append, List.countP_singleton]
      rw [strideAfter_succ, hturns]
      by_cases hup : pickA PyFloat.exact (strideAfter PyFloat.exact share a b k) = true
      · rw [if_pos hup] at hturn ⊢
        exact ⟨y, by omega, hturn⟩
      · rw [if_neg hup] at hturn ⊢
        exact ⟨y + 1, by omega, hturn⟩

theorem abs_aTurns_sub_lt (hpos : 0 < share) (hlt : share < 1) (ha : a.Nodup) (hab : a.Perm b)
    {k : Nat} (hk : k ≤ a.length) :
    |(aTurns PyFloat.exact share a b k : ℚ) - share * k| < 1 := by
  obtain ⟨y, hsum, hpaced⟩ := paced_after hpos hlt ha hab hk
  have habs := hpaced.fair.abs_sub_lt hpos hlt
  rw [hsum] at habs
  exact habs

/-- What a lane's pointer has passed is picked. -/
theorem mem_order_of_lt {lane rest order : List Nat} {x p i : Nat}
    (hgone : ∃ gone, lane = gone ++ rest ∧ gone ⊆ order) (hpassed : rest.length + x ≤ lane.length)
    (hp : p < x) (hi : lane[p]? = some i) : i ∈ order := by
  obtain ⟨gone, rfl, hsub⟩ := hgone
  rw [List.length_append] at hpassed
  rw [List.getElem?_append_left (by omega)] at hi
  exact hsub (List.mem_of_getElem? hi)

/-- **After `(p + 1) / q` turns the place `p` of a lane with share `q` is picked.** -/
theorem mem_strideAfter (hpos : 0 < share) (hlt : share < 1) (ha : a.Nodup) (hab : a.Perm b)
    {k p i : Nat} (hk : k ≤ a.length) :
    (((p : ℚ) + 1) / share ≤ k → a[p]? = some i →
      i ∈ (strideAfter PyFloat.exact share a b k).order) ∧
    (((p : ℚ) + 1) / (1 - share) ≤ k → b[p]? = some i →
      i ∈ (strideAfter PyFloat.exact share a b k).order) := by
  obtain ⟨y, hsum, hpaced⟩ := paced_after hpos hlt ha hab hk
  refine ⟨fun hturns hi => ?_, fun hturns hi => ?_⟩
  · have hp := hpaced.fair.lt_left hpos (hsum.symm ▸ hturns)
    exact mem_order_of_lt hpaced.picking.merging.behindA hpaced.aPassed hp hi
  · have hp := hpaced.fair.lt_right hlt (hsum.symm ▸ hturns)
    exact mem_order_of_lt hpaced.picking.merging.behindB hpaced.bPassed hp hi

/-- What is picked in the first `k` turns stands among the first `k` of the result. -/
theorem exists_index {F : Type} (f : PyFloat F) (share : F) (ha : a.Nodup) (hab : a.Perm b)
    {k i : Nat} (hi : i ∈ a)
    (hpicked : k ≤ a.length → i ∈ (strideAfter f share a b k).order) :
    ∃ j ≤ k - 1, (strideMerge f share a.length a b)[j]? = some i := by
  obtain ⟨hperm, -⟩ := strideMerge_spec f share ha hab
  by_cases hk : k ≤ a.length
  · obtain ⟨j, hj, hget⟩ := List.mem_iff_getElem.mp (hpicked hk)
    obtain ⟨rest, hrest⟩ := strideAfter_prefix f share ha hab hk
    have hlen := (picking_after f share ha hab hk).2
    refine ⟨j, by omega, ?_⟩
    rw [← hrest, List.getElem?_append_left hj, ← hget]
    exact List.getElem?_eq_getElem hj
  · obtain ⟨j, hj, hget⟩ := List.mem_iff_getElem.mp (hperm.symm.subset hi)
    rw [hperm.length_eq] at hj
    exact ⟨j, by omega, List.getElem?_eq_some_iff.mpr ⟨_, hget⟩⟩

/-- **Starvation bound**: place `p` of a lane with share `q` comes by index `⌈(p + 1) / q⌉ - 1`. -/
theorem index_strideMerge_le (hpos : 0 < share) (hlt : share < 1) (ha : a.Nodup) (hab : a.Perm b)
    {p i : Nat} :
    (a[p]? = some i → ∃ j ≤ ⌈((p : ℚ) + 1) / share⌉₊ - 1,
      (strideMerge PyFloat.exact share a.length a b)[j]? = some i) ∧
    (b[p]? = some i → ∃ j ≤ ⌈((p : ℚ) + 1) / (1 - share)⌉₊ - 1,
      (strideMerge PyFloat.exact share a.length a b)[j]? = some i) := by
  refine ⟨fun hi => ?_, fun hi => ?_⟩
  · refine exists_index _ _ ha hab (List.mem_of_getElem? hi) fun hk => ?_
    exact (mem_strideAfter hpos hlt ha hab hk).1 (Nat.le_ceil _) hi
  · refine exists_index _ _ ha hab (hab.symm.subset (List.mem_of_getElem? hi)) fun hk => ?_
    exact (mem_strideAfter hpos hlt ha hab hk).2 (Nat.le_ceil _) hi

end

/-! ### The lanes of a call -/

section

variable (metas : List LaneMeta) (groupMajor : Bool)

theorem length_laneAOrder : (laneAOrder groupMajor metas).length = metas.length :=
  (isLane_laneAOrder metas groupMajor).perm.length_eq.trans List.length_range

theorem nodup_laneAOrder : (laneAOrder groupMajor metas).Nodup :=
  (isLane_laneAOrder metas groupMajor).perm.symm.nodup List.nodup_range

theorem laneOrders_perm : (laneAOrder groupMajor metas).Perm (laneBOrder metas) :=
  (isLane_laneAOrder metas groupMajor).perm.trans (isLane_laneBOrder metas).perm.symm

/-- `bigLaneShare >= 1.0 - 1e-9` -/
theorem no_laneB {share : ℚ} (h : share < 1 - 1e-9) :
    ¬ PyFloat.exact.le (PyFloat.exact.sub (PyFloat.exact.ofRat 1) (PyFloat.exact.ofRat 1e-9))
      share = true :=
  fun hle => absurd (of_decide_eq_true hle) (not_le_of_gt h)

/-- The stride path is taken when both lanes have more than a sliver. -/
theorem laneOrder_eq_strideMerge {share : ℚ} (hlow : 1e-9 < share) (hhigh : share < 1 - 1e-9) :
    laneOrder PyFloat.exact share groupMajor metas = strideMerge PyFloat.exact share
      (laneAOrder groupMajor metas).length (laneAOrder groupMajor metas) (laneBOrder metas) := by
  have hB : ¬ PyFloat.exact.le share (PyFloat.exact.ofRat 1e-9) = true :=
    fun h => absurd (of_decide_eq_true h) (not_le_of_gt hlow)
  unfold laneOrder
  rw [if_neg (no_laneB hhigh), if_neg hB, length_laneAOrder]

/-- With no more than a sliver for Lane A, Lane B decides alone. -/
theorem laneOrder_eq_laneBOrder {share : ℚ} (hlow : share ≤ 1e-9) :
    laneOrder PyFloat.exact share groupMajor metas = laneBOrder metas := by
  have hhigh : share < 1 - 1e-9 := by
    norm_num at hlow ⊢
    linarith
  have hB : PyFloat.exact.le share (PyFloat.exact.ofRat 1e-9) = true := decide_eq_true hlow
  unfold laneOrder
  rw [if_neg (no_laneB hhigh), if_pos hB]

end

end Peek
