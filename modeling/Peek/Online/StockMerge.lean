/-
When the two lanes merge into a given order.

Turn by turn the lane that is up picks its first request that is left, and the next one of the
order has to be that one: it has to stand, in that lane, before all that follow it in the order
(`strideMerge_eq_iff`).  Which lane is up depends on the share alone (`LaneAUp`).
-/
import Peek.Online.StrideQuota

namespace Peek

open LaneMerge

/-! ### Turn by turn -/

section

variable {F : Type} (f : PyFloat F) (share : F) {a b l : List Nat}

/-- The lane that is up in turn `k`. -/
def laneUp (f : PyFloat F) (share : F) (a b : List Nat) (k : Nat) : List Nat :=
  if pickA f (strideAfter f share a b k) then a else b

theorem split_at {α : Type} {l : List α} {k : Nat} {x : α} (hx : l[k]? = some x) :
    l = l.take k ++ x :: l.drop (k + 1) := by
  obtain ⟨hk, hget⟩ := List.getElem?_eq_some_iff.mp hx
  rw [← hget, ← List.drop_eq_getElem_cons hk, List.take_append_drop]

/-- What comes after place `k` of a list without repetition. -/
theorem mem_drop_succ_iff {α : Type} {l : List α} (hnd : l.Nodup) {k : Nat} {x y : α}
    (hx : l[k]? = some x) : y ∈ l.drop (k + 1) ↔ y ∈ l ∧ y ∉ l.take k ∧ y ≠ x := by
  have hsplit := split_at hx
  have hnd' := hnd
  rw [hsplit, List.nodup_append, List.nodup_cons] at hnd'
  constructor
  · intro hy
    refine ⟨List.mem_of_mem_drop hy, fun hfront => ?_, fun heq => hnd'.2.1.1 (heq ▸ hy)⟩
    exact hnd'.2.2 y hfront y (List.mem_cons_of_mem x hy) rfl
  · intro ⟨hy, hfront, hne⟩
    rw [hsplit] at hy
    exact (List.mem_cons.mp ((List.mem_append.mp hy).resolve_left hfront)).resolve_left hne

theorem notMem_take {α : Type} {l : List α} (hnd : l.Nodup) {k : Nat} {x : α}
    (hx : l[k]? = some x) : x ∉ l.take k := by
  rw [split_at hx, List.nodup_append] at hnd
  exact fun hmem => hnd.2.2 x hmem x List.mem_cons_self rfl

/-- The turn picks `x`, the next of the order, if `x` comes first of what is left. -/
theorem picks_next_iff (ha : a.Nodup) (hab : a.Perm b) (hl : l.Perm a) {k x : Nat}
    (hx : l[k]? = some x) (horder : (strideAfter f share a b k).order = l.take k) :
    (strideAfter f share a b (k + 1)).order = l.take (k + 1) ↔
      ∀ y ∈ l.drop (k + 1), Before (laneUp f share a b k) x y := by
  have hk := (List.getElem?_eq_some_iff.mp hx).1
  rw [hl.length_eq] at hk
  have hnd : l.Nodup := hl.symm.nodup ha
  have hxa : x ∈ a := hl.subset (List.mem_of_getElem? hx)
  have hnot : x ∉ (strideAfter f share a b k).order := horder.symm ▸ notMem_take hnd hx
  obtain ⟨hpick, hlen⟩ := picking_after f share ha hab (Nat.le_of_lt hk)
  have hleft : ∀ lane : List Nat, l.Perm lane → ((∀ y ∈ l.drop (k + 1), Before lane x y) ↔
      ∀ y ∈ lane, y ∉ (strideAfter f share a b k).order → y ≠ x → Before lane x y) := by
    intro lane hlane
    rw [horder]
    constructor
    · intro h y hy hfront hne
      exact h y ((mem_drop_succ_iff hnd hx).mpr ⟨hlane.symm.subset hy, hfront, hne⟩)
    · intro h y hy
      obtain ⟨hy, hfront, hne⟩ := (mem_drop_succ_iff hnd hx).mp hy
      exact h y (hlane.subset hy) hfront hne
  unfold laneUp
  rw [strideAfter_succ, List.take_add_one, hx, Option.toList_some]
  obtain ⟨i, rest, hup, hdrop, hturn⟩ | ⟨i, rest, hup, hdrop, hturn⟩ := hpick.turn_cases f
    (f.div (f.ofRat 1) share) (f.div (f.ofRat 1) (f.sub (f.ofRat 1) share)) ha hab (by omega)
  · rw [hturn, hup, if_pos rfl, hleft a hl, ← hpick.merging.next_iff ha hdrop hxa hnot, horder]
    exact ⟨fun h => List.singleton_inj.mp (List.append_cancel_left h), fun h => by rw [h]⟩
  · rw [hturn, hup, if_neg Bool.false_ne_true, hleft b (hl.trans hab),
      ← (hpick.merging.symm hab).next_iff (hab.nodup ha) hdrop (hab.subset hxa) hnot, horder]
    exact ⟨fun h => List.singleton_inj.mp (List.append_cancel_left h), fun h => by rw [h]⟩

/-- **Merging into a given order**: at each place the lane that is up has the right one first. -/
theorem strideMerge_eq_iff (ha : a.Nodup) (hab : a.Perm b) (hl : l.Perm a) :
    strideMerge f share a.length a b = l ↔
      ∀ k x, l[k]? = some x → ∀ y ∈ l.drop (k + 1), Before (laneUp f share a b k) x y := by
  have hlen := hl.length_eq
  have hafter : ∀ k ≤ a.length, (strideAfter f share a b k).order = l.take k ↔
      ∀ j < k, ∀ x, l[j]? = some x → ∀ y ∈ l.drop (j + 1), Before (laneUp f share a b j) x y := by
    intro k hk
    induction k with
    | zero => exact iff_of_true rfl fun j hj => absurd hj (Nat.not_lt_zero j)
    | succ k ih =>
        have hlt : k < l.length := by omega
        have hx : l[k]? = some l[k] := List.getElem?_eq_getElem hlt
        have ih := ih (Nat.le_of_succ_le hk)
        constructor
        · intro horder
          obtain ⟨i, hi⟩ := (picksEach f share ha hab).picks k hk
          have hfront : (strideAfter f share a b k).order = l.take k := by
            rw [hi, List.take_add_one, hx, Option.toList_some] at horder
            exact (List.append_inj' horder rfl).1
          intro j hj x hjx
          rcases Nat.lt_succ_iff_lt_or_eq.mp hj with hj | rfl
          · exact ih.mp hfront j hj x hjx
          · exact (picks_next_iff f share ha hab hl hjx hfront).mp horder
        · intro h
          have hfront := ih.mpr fun j hj => h j (Nat.lt_succ_of_lt hj)
          exact (picks_next_iff f share ha hab hl hx hfront).mpr (h k (Nat.lt_succ_self k) _ hx)
  rw [strideMerge_eq f share ha hab]
  have hall := hafter a.length le_rfl
  rw [← hlen, List.take_length, hlen] at hall
  rw [hall]
  constructor
  · intro h k x hx
    exact h k (hlen ▸ (List.getElem?_eq_some_iff.mp hx).1) x hx
  · exact fun h k _ => h k

theorem pairwise_iff_places {α : Type} {R : α → α → Prop} {l : List α} :
    l.Pairwise R ↔ ∀ k x, l[k]? = some x → ∀ y ∈ l.drop (k + 1), R x y := by
  induction l with
  | nil => exact iff_of_true List.Pairwise.nil fun k x hx => by simp at hx
  | cons a l ih =>
      rw [List.pairwise_cons, ih]
      constructor
      · intro h k x hx y hy
        cases k with
        | zero =>
            rw [List.getElem?_cons_zero, Option.some.injEq] at hx
            exact hx ▸ h.1 y hy
        | succ k => exact h.2 k x hx y hy
      · exact fun h => ⟨fun y hy => h 0 a rfl y hy, fun k x hx y hy => h (k + 1) x hx y hy⟩

/-- One lane alone is the order, if in the lane each stands before all that follow it there. -/
theorem eq_iff_before (ha : a.Nodup) (hl : l.Perm a) :
    a = l ↔ ∀ k x, l[k]? = some x → ∀ y ∈ l.drop (k + 1), Before a x y := by
  rw [← pairwise_iff_places (R := Before a)]
  constructor
  · rintro rfl
    exact pairwise_of_before fun _ _ h => h
  · intro h
    refine List.Perm.eq_of_pairwise (fun x y _ _ hxy hyx => ?_)
      (pairwise_of_before fun _ _ hxy => hxy) h hl.symm
    exact absurd hyx (hxy.asymm ha)

end

/-! ### Which lane is up -/

/-- Lane A picks in turn `k`. -/
def LaneAUp (share : ℚ) (k : Nat) : Prop :=
  1 - 1e-9 ≤ share ∨ 1e-9 < share ∧ ⌊share * (k + 1)⌋ < ⌊share * (k + 2)⌋

instance (share : ℚ) (k : Nat) : Decidable (LaneAUp share k) :=
  inferInstanceAs (Decidable (_ ∨ _ ∧ _))

/-- **The turns of Lane A** are those in which its share comes to one more. -/
theorem pickA_iff_floor {share : ℚ} {a b : List Nat} (hpos : 0 < share) (hlt : share < 1)
    (ha : a.Nodup) (hab : a.Perm b) {k : Nat} (hk : k ≤ a.length) :
    pickA PyFloat.exact (strideAfter PyFloat.exact share a b k) = true ↔
      ⌊share * (k + 1)⌋ < ⌊share * (k + 2)⌋ := by
  obtain ⟨y, hsum, hpaced⟩ := paced_after hpos hlt ha hab hk
  set x := aTurns PyFloat.exact share a b k with hx
  have hcast : (x : ℚ) + y = k := by
    rw [← Nat.cast_add, hsum]
  have hfloor : ⌊share * (k + 1)⌋ = (x : ℤ) := by
    rw [Int.floor_eq_iff, ← hcast, Int.cast_natCast]
    have hlow := hpaced.fair.low
    exact ⟨hpaced.fair.high, by linarith⟩
  rw [hpaced.pickA_iff hpos hlt, hcast, hfloor, Int.lt_iff_add_one_le, Int.le_floor]
  push_cast
  exact Iff.rfl

/-- **When the lanes come to a given order.** -/
theorem laneOrder_eq_iff (share : ℚ) (groupMajor : Bool) (metas : List LaneMeta) {l : List Nat}
    (hl : l.Perm (List.range metas.length)) :
    laneOrder PyFloat.exact share groupMajor metas = l ↔
      ∀ k x, l[k]? = some x → ∀ y ∈ l.drop (k + 1),
        Before (if LaneAUp share k then laneAOrder groupMajor metas else laneBOrder metas) x y := by
  have ha := nodup_laneAOrder metas groupMajor
  have hab := laneOrders_perm metas groupMajor
  have hla := hl.trans (isLane_laneAOrder metas groupMajor).perm.symm
  by_cases hhigh : 1 - 1e-9 ≤ share
  · have horder : laneOrder PyFloat.exact share groupMajor metas = laneAOrder groupMajor metas :=
      if_pos (decide_eq_true hhigh)
    rw [horder, eq_iff_before ha hla]
    refine forall₂_congr fun k x => ?_
    rw [if_pos (show LaneAUp share k from Or.inl hhigh)]
  by_cases hlow : 1e-9 < share
  · have hpos : 0 < share := lt_trans (by norm_num) hlow
    have hlt : share < 1 := lt_trans (not_le.mp hhigh) (by norm_num)
    rw [laneOrder_eq_strideMerge metas groupMajor hlow (not_le.mp hhigh),
      strideMerge_eq_iff _ _ ha hab hla]
    refine forall₂_congr fun k x => imp_congr_right fun hx => ?_
    have hk := (List.getElem?_eq_some_iff.mp hx).1
    rw [hla.length_eq] at hk
    have hup := pickA_iff_floor hpos hlt ha hab (Nat.le_of_lt hk)
    have hiff : LaneAUp share k ↔ ⌊share * (k + 1)⌋ < ⌊share * (k + 2)⌋ := by
      unfold LaneAUp
      rw [or_iff_right hhigh, and_iff_right hlow]
    unfold laneUp
    rw [if_congr (hup.trans hiff.symm) rfl rfl]
  · rw [laneOrder_eq_laneBOrder metas groupMajor (not_lt.mp hlow),
      eq_iff_before (hab.nodup ha) (hla.trans hab)]
    refine forall₂_congr fun k x => ?_
    rw [if_neg fun h : LaneAUp share k => h.elim hhigh fun h => hlow h.1]

/-! ### Where two requests stand in a lane -/

/-- **A lane that is sorted by a key** has the smaller key first, and of equal ones the older. -/
theorem before_sortedIdx_iff {κ : Type} [LinearOrder κ] [DecidableLE κ] (key : LaneMeta → κ)
    (metas : List LaneMeta) {i j : Nat} (hi : i < metas.length) (hj : j < metas.length)
    (hij : i ≠ j) : Before (sortedIdx key metas) i j ↔
      key (metas.getD i default) < key (metas.getD j default) ∨
        key (metas.getD i default) = key (metas.getD j default) ∧ i < j := by
  have hsorted : (sortedIdx key metas).Pairwise
      (KeyThen (fun i => key (metas.getD i default)) (· < ·)) := by
    exact pairwise_keyThen (fun i => key (metas.getD i default)) List.pairwise_lt_range
  have hmem : ∀ {i : Nat}, i < metas.length → i ∈ sortedIdx key metas := fun hi =>
    (List.mem_insertionSort _).mpr (List.mem_range.mpr hi)
  constructor
  · intro h
    have hthen : KeyThen (fun i => key (metas.getD i default)) (· < ·) i j := h.rel hsorted
    exact hthen
  · intro h
    refine (before_or_before (hmem hi) (hmem hj) hij).resolve_right fun hback => ?_
    have hthen : KeyThen (fun i => key (metas.getD i default)) (· < ·) j i := hback.rel hsorted
    rcases And.intro h hthen with ⟨h | h, hback | hback⟩
    · exact absurd h hback.asymm
    · exact absurd hback.1 h.ne'
    · exact absurd h.1 hback.ne'
    · exact absurd h.2 hback.2.asymm

/-- What a group of one request is sorted by. -/
def singleKey (m : LaneMeta) : Nat ×ₗ Int ×ₗ Int :=
  toLex (m.sectionId, toLex (-m.groupScore, m.arrivalNs))

/-- **Groups of one request each** are sorted like requests. -/
theorem groupMajorOrder_of_singles {metas : List LaneMeta}
    (h : ((List.range metas.length).map fun i =>
      ((metas.getD i default).sectionId, (metas.getD i default).groupKey)).Nodup) :
    groupMajorOrder metas = sortedIdx singleKey metas := by
  set single : Nat → (Nat × GroupKey) × List Nat := fun i =>
    (((metas.getD i default).sectionId, (metas.getD i default).groupKey), [i]) with hsingle
  have hkey : ∀ i, groupOrderKey metas (single i) = singleKey (metas.getD i default) :=
    fun _ => rfl
  have hsort : ((List.range metas.length).map single).insertionSort
      (fun g g' => groupOrderKey metas g ≤ groupOrderKey metas g') =
        (sortedIdx singleKey metas).map single := by
    unfold sortedIdx
    refine (List.map_insertionSort _ _ single _ fun i _ j _ => ?_).symm
    rw [hkey, hkey]
  have hmembers : ∀ i : Nat, ([i].insertionSort fun i j =>
      memberKey (metas.getD i default) ≤ memberKey (metas.getD j default)) = [i] := fun _ => rfl
  unfold groupMajorOrder
  simp only
  rw [groupBy_of_nodup h, hsort, List.flatMap_map]
  simp only [hsingle, hmembers]
  exact List.flatMap_singleton' _

end Peek
