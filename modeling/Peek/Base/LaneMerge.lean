/-
Merging two orders of the same elements.

A merge picks the elements one after the other, each time the first one of either lane that is
not picked yet; which lane is up does not matter here.  Whatever stands before an element in
both lanes was picked before it (`Merging.agreed`), and so the result is sorted by every key
that both lanes are sorted by (`pairwise_of_agreed`).
-/
import Mathlib.Data.List.Nodup
import Mathlib.Data.List.TakeWhile
import Mathlib.Data.List.Perm.Basic
import Mathlib.Order.Lattice

namespace LaneMerge

variable {α : Type*}

/-- `x` stands before `y`. -/
def Before (l : List α) (x y : α) : Prop := ∃ front rest, l = front ++ y :: rest ∧ x ∈ front

namespace Before

variable {l : List α} {x y : α}

theorem left_mem (h : Before l x y) : x ∈ l := by
  obtain ⟨front, rest, rfl, hx⟩ := h
  exact List.mem_append_left _ hx

theorem right_mem (h : Before l x y) : y ∈ l := by
  obtain ⟨front, rest, rfl, -⟩ := h
  exact List.mem_append_right _ List.mem_cons_self

theorem append_right (h : Before l x y) (l' : List α) : Before (l ++ l') x y := by
  obtain ⟨front, rest, rfl, hx⟩ := h
  exact ⟨front, rest ++ l', by rw [List.append_assoc, List.cons_append], hx⟩

theorem append_left (h : Before l x y) (l' : List α) : Before (l' ++ l) x y := by
  obtain ⟨front, rest, rfl, hx⟩ := h
  exact ⟨l' ++ front, rest, by rw [List.append_assoc], List.mem_append_right _ hx⟩

theorem map {β : Type*} (f : α → β) (h : Before l x y) : Before (l.map f) (f x) (f y) := by
  obtain ⟨front, rest, rfl, hx⟩ := h
  exact ⟨front.map f, rest.map f, by rw [List.map_append, List.map_cons], List.mem_map_of_mem hx⟩

theorem of_map {β : Type*} {f : α → β} {x y : β} (h : Before (l.map f) x y) :
    ∃ i j, Before l i j ∧ f i = x ∧ f j = y := by
  obtain ⟨front, rest, heq, hx⟩ := h
  obtain ⟨front, tail, rfl, rfl, htail⟩ := List.map_eq_append_iff.mp heq
  obtain ⟨j, rest, rfl, rfl, rfl⟩ := List.map_eq_cons_iff.mp htail
  obtain ⟨i, hi, rfl⟩ := List.mem_map.mp hx
  exact ⟨i, j, ⟨front, rest, rfl, hi⟩, rfl, rfl⟩

/-- What stands before `y` is in front of its only occurrence. -/
theorem mem_front {front rest : List α} (hnd : (front ++ y :: rest).Nodup)
    (h : Before (front ++ y :: rest) x y) : x ∈ front := by
  obtain ⟨front', rest', heq, hx⟩ := h
  rw [List.nodup_append, List.nodup_cons] at hnd
  have hfront : y ∉ front := fun hin => hnd.2.2 y hin y List.mem_cons_self rfl
  obtain ⟨rfl, -, -⟩ := (List.append_cons_inj_of_notMem hfront hnd.2.1.1).mp heq
  exact hx

theorem rel {R : α → α → Prop} (hl : l.Pairwise R) (h : Before l x y) : R x y := by
  obtain ⟨front, rest, rfl, hx⟩ := h
  exact (List.pairwise_append.mp hl).2.2 x hx y List.mem_cons_self

end Before

theorem before_append {l l' : List α} {x y : α} (hx : x ∈ l) (hy : y ∈ l') :
    Before (l ++ l') x y := by
  obtain ⟨front, rest, rfl⟩ := List.append_of_mem hy
  exact ⟨l ++ front, rest, (List.append_assoc _ _ _).symm, List.mem_append_left _ hx⟩

/-- What stands before what in two lists on end. -/
theorem Before.of_append {l l' : List α} {x y : α} (h : Before (l ++ l') x y) :
    Before l x y ∨ x ∈ l ∧ y ∈ l' ∨ Before l' x y := by
  obtain ⟨front, rest, heq, hx⟩ := h
  rcases List.append_eq_append_iff.mp heq with ⟨middle, rfl, rfl⟩ | ⟨middle, rfl, hmiddle⟩
  · rcases List.mem_append.mp hx with hx | hx
    · exact Or.inr (Or.inl ⟨hx, List.mem_append_right _ List.mem_cons_self⟩)
    · exact Or.inr (Or.inr ⟨middle, rest, rfl, hx⟩)
  · rcases List.cons_eq_append_iff.mp hmiddle with ⟨rfl, rfl⟩ | ⟨tail, rfl, -⟩
    · refine Or.inr (Or.inl ⟨?_, List.mem_cons_self⟩)
      rwa [List.append_nil]
    · exact Or.inl ⟨front, tail, rfl, hx⟩

/-- Lists on end: two elements are of one list, or their lists stand as they do. -/
theorem Before.of_flatMap {β : Type*} {f : β → List α} {l : List β} {x y : α}
    (h : Before (l.flatMap f) x y) :
    (∃ a ∈ l, Before (f a) x y) ∨ ∃ a b, Before l a b ∧ x ∈ f a ∧ y ∈ f b := by
  induction l with
  | nil =>
      obtain ⟨front, rest, heq, -⟩ := h
      simp at heq
  | cons c l ih =>
      rw [List.flatMap_cons] at h
      rcases h.of_append with h | ⟨hx, hy⟩ | h
      · exact Or.inl ⟨c, List.mem_cons_self, h⟩
      · obtain ⟨b, hb, hy⟩ := List.mem_flatMap.mp hy
        exact Or.inr ⟨c, b, before_append (l := [c]) List.mem_cons_self hb, hx, hy⟩
      · rcases ih h with ⟨a, ha, h⟩ | ⟨a, b, hab, hx, hy⟩
        · exact Or.inl ⟨a, List.mem_cons_of_mem _ ha, h⟩
        · exact Or.inr ⟨a, b, hab.append_left [c], hx, hy⟩

/-- Of two elements one stands before the other. -/
theorem before_or_before {l : List α} {x y : α} (hx : x ∈ l) (hy : y ∈ l) (hne : x ≠ y) :
    Before l x y ∨ Before l y x := by
  obtain ⟨front, rest, rfl⟩ := List.append_of_mem hx
  rcases List.mem_append.mp hy with hfront | hrest
  · exact Or.inr (before_append hfront List.mem_cons_self)
  · have hrest := (List.mem_cons.mp hrest).resolve_left (Ne.symm hne)
    have hxy : Before ([x] ++ rest) x y := before_append (List.mem_singleton_self x) hrest
    exact Or.inl (hxy.append_left front)

theorem pairwise_of_before {R : α → α → Prop} {l : List α} (h : ∀ x y, Before l x y → R x y) :
    l.Pairwise R := by
  induction l with
  | nil => exact List.Pairwise.nil
  | cons a l ih =>
      refine List.Pairwise.cons (fun y hy => h a y ?_) (ih fun x y hxy => h x y ?_)
      · exact before_append (l := [a]) List.mem_cons_self hy
      · exact hxy.append_left [a]

theorem Before.asymm {l : List α} {x y : α} (hnd : l.Nodup) (h : Before l x y) :
    ¬ Before l y x := by
  intro hyx
  obtain ⟨front, rest, rfl, hx⟩ := h
  obtain ⟨front, middle, rfl⟩ := List.append_of_mem hx
  rw [List.append_assoc, List.cons_append] at hnd hyx
  have hy := hyx.mem_front hnd
  rw [List.nodup_append] at hnd
  refine hnd.2.2 y hy y (List.mem_cons_of_mem x (List.mem_append_right _ ?_)) rfl
  exact List.mem_cons_self

/-! ### The order of the lanes -/

/-- A list sorted by a key has the smaller one first. -/
theorem before_of_lt {β : Type*} [LinearOrder β] {f : α → β} {l : List α}
    (hl : l.Pairwise fun x y => f x ≤ f y) {x y : α} (hx : x ∈ l) (hy : y ∈ l)
    (hlt : f x < f y) : Before l x y := by
  have hne : x ≠ y := by
    rintro rfl
    exact lt_irrefl _ hlt
  rcases before_or_before hx hy hne with h | h
  · exact h
  · exact absurd (h.rel hl) (not_le_of_gt hlt)

/-- The result keeps every pair on which both lanes agree. -/
def Respects (a b result : List α) : Prop :=
  ∀ x y, Before a x y → Before b x y → Before result x y

theorem Respects.map {β : Type*} {f : α → β} {a b result : List α} (h : Respects a b result)
    (hab : b ⊆ a) (hinj : ∀ i ∈ a, ∀ j ∈ a, f i = f j → i = j) :
    Respects (a.map f) (b.map f) (result.map f) := by
  intro x y hxa hxb
  obtain ⟨i, j, hija, rfl, rfl⟩ := hxa.of_map
  obtain ⟨i', j', hijb, hi, hj⟩ := hxb.of_map
  have hi : i' = i := hinj i' (hab hijb.left_mem) i hija.left_mem hi
  have hj : j' = j := hinj j' (hab hijb.right_mem) j hija.right_mem hj
  rw [hi, hj] at hijb
  exact (h i j hija hijb).map f

/-- **A key that both lanes are sorted by sorts the result.** -/
theorem pairwise_of_agreed {β : Type*} [LinearOrder β] {f : α → β} {a b result : List α}
    (ha : a.Pairwise fun x y => f x ≤ f y) (hb : b.Pairwise fun x y => f x ≤ f y)
    (hra : result.Perm a) (hrb : result.Perm b) (hnd : result.Nodup)
    (h : Respects a b result) : result.Pairwise fun x y => f x ≤ f y := by
  refine pairwise_of_before fun x y hxy => ?_
  by_contra hnot
  have hlt : f y < f x := lt_of_not_ge hnot
  have hyx : Before result y x := h y x
    (before_of_lt ha (hra.subset hxy.right_mem) (hra.subset hxy.left_mem) hlt)
    (before_of_lt hb (hrb.subset hxy.right_mem) (hrb.subset hxy.left_mem) hlt)
  exact hxy.asymm hnd hyx

/-! ### Picking -/

/-- What is left of the lanes `a` and `b` after `picked` was picked out of them. -/
structure Merging (a b aRest bRest picked : List α) : Prop where
  behindA : ∃ gone, a = gone ++ aRest ∧ gone ⊆ picked
  behindB : ∃ gone, b = gone ++ bRest ∧ gone ⊆ picked
  nodup : picked.Nodup
  subset : picked ⊆ a
  agreed : ∀ x y, Before a x y → Before b x y → y ∈ picked → Before picked x y

theorem merging_nil (a b : List α) : Merging a b a b [] where
  behindA := ⟨[], rfl, List.Subset.refl _⟩
  behindB := ⟨[], rfl, List.Subset.refl _⟩
  nodup := List.nodup_nil
  subset := List.nil_subset a
  agreed _ _ _ _ h := absurd h List.not_mem_nil

namespace Merging

variable {a b aRest bRest picked : List α}

theorem symm (h : Merging a b aRest bRest picked) (hab : a.Perm b) :
    Merging b a bRest aRest picked where
  behindA := h.behindB
  behindB := h.behindA
  nodup := h.nodup
  subset := fun _ hx => hab.subset (h.subset hx)
  agreed x y ha hb hy := h.agreed x y hb ha hy

/-- **When everything is picked, the lanes are merged.** -/
theorem result (h : Merging a b aRest bRest picked) (hlen : a.length ≤ picked.length) :
    picked.Perm a ∧ Respects a b picked := by
  have hperm : picked.Perm a :=
    (List.subperm_of_subset h.nodup h.subset).perm_of_length_le hlen
  exact ⟨hperm, fun x y hxa hxb => h.agreed x y hxa hxb (hperm.symm.subset hxa.right_mem)⟩

variable [DecidableEq α]

/-- **The first one of a lane that is not picked yet is picked.** -/
theorem pick (h : Merging a b aRest bRest picked) (ha : a.Nodup) {x : α} {rest : List α}
    (hx : aRest.dropWhile (fun y => decide (y ∈ picked)) = x :: rest) :
    Merging a b rest bRest (picked ++ [x]) := by
  obtain ⟨gone, haeq, hgone⟩ := h.behindA
  have hsplit : a = (gone ++ aRest.takeWhile fun y => decide (y ∈ picked)) ++ x :: rest := by
    rw [List.append_assoc, ← hx, List.takeWhile_append_dropWhile]
    exact haeq
  have hfront : (gone ++ aRest.takeWhile fun y => decide (y ∈ picked)) ⊆ picked := by
    refine List.append_subset.mpr ⟨hgone, fun y hy => ?_⟩
    have hdec := List.mem_takeWhile_imp hy
    exact of_decide_eq_true hdec
  have hnew : x ∉ picked := by
    have := List.head?_dropWhile_not (fun y => decide (y ∈ picked)) aRest
    rw [hx] at this
    simpa using this
  refine ⟨⟨(gone ++ aRest.takeWhile fun y => decide (y ∈ picked)) ++ [x], ?_, ?_⟩, ?_, ?_, ?_, ?_⟩
  · rw [List.append_assoc _ [x]]
    exact hsplit
  · exact List.append_subset.mpr ⟨fun y hy => List.mem_append_left _ (hfront hy),
      List.subset_append_right _ _⟩
  · obtain ⟨goneB, hbeq, hgoneB⟩ := h.behindB
    exact ⟨goneB, hbeq, fun y hy => List.mem_append_left _ (hgoneB hy)⟩
  · rw [List.nodup_append]
    refine ⟨h.nodup, List.nodup_singleton x, fun y hy z hz => ?_⟩
    rw [List.mem_singleton.mp hz]
    exact fun heq => hnew (heq ▸ hy)
  · refine List.append_subset.mpr ⟨h.subset, fun y hy => ?_⟩
    rw [List.mem_singleton.mp hy, hsplit]
    exact List.mem_append_right _ List.mem_cons_self
  · -- what stands before `x` in its lane was picked already
    intro y z hya hyb hz
    rcases List.mem_append.mp hz with hz | hz
    · exact (h.agreed y z hya hyb hz).append_right [x]
    · rw [List.mem_singleton.mp hz] at hya ⊢
      rw [hsplit] at hya ha
      exact before_append (hfront (hya.mem_front ha)) (List.mem_singleton_self x)

/-- **Which one is picked**: the one that stands before all others that are left. -/
theorem next_iff (h : Merging a b aRest bRest picked) (ha : a.Nodup) {x : α} {rest : List α}
    (hx : aRest.dropWhile (fun y => decide (y ∈ picked)) = x :: rest) {z : α} (hz : z ∈ a)
    (hleft : z ∉ picked) : x = z ↔ ∀ y ∈ a, y ∉ picked → y ≠ z → Before a z y := by
  obtain ⟨gone, haeq, hgone⟩ := h.behindA
  have hsplit : a = (gone ++ aRest.takeWhile fun y => decide (y ∈ picked)) ++ x :: rest := by
    rw [List.append_assoc, ← hx, List.takeWhile_append_dropWhile]
    exact haeq
  have hfirst : ∀ y ∈ a, y ∉ picked → y ≠ x → Before a x y := by
    intro y hy hnot hne
    rw [hsplit] at hy ⊢
    rcases List.mem_append.mp hy with hy | hy
    · rcases List.mem_append.mp hy with hy | hy
      · exact absurd (hgone hy) hnot
      · have hdec := List.mem_takeWhile_imp hy
        exact absurd (of_decide_eq_true hdec) hnot
    · refine Before.append_left (before_append (l := [x]) List.mem_cons_self ?_) _
      exact (List.mem_cons.mp hy).resolve_left hne
  constructor
  · rintro rfl
    exact hfirst
  · intro hall
    by_contra hne
    have hxa : x ∈ a := hsplit ▸ List.mem_append_right _ List.mem_cons_self
    have hnew : x ∉ picked := by
      have := List.head?_dropWhile_not (fun y => decide (y ∈ picked)) aRest
      rw [hx] at this
      simpa using this
    exact (hall x hxa hnew hne).asymm ha (hfirst z hz hleft (Ne.symm hne))

/-- A lane that has nothing to pick any more has all been picked. -/
theorem exhausted (h : Merging a b aRest bRest picked)
    (hx : aRest.dropWhile (fun y => decide (y ∈ picked)) = []) : a ⊆ picked := by
  obtain ⟨gone, haeq, hgone⟩ := h.behindA
  rw [haeq]
  refine List.append_subset.mpr ⟨hgone, fun y hy => ?_⟩
  exact of_decide_eq_true (List.dropWhile_eq_nil_iff.mp hx y hy)

/-- As long as not everything is picked, a lane has something to pick. -/
theorem exists_next (h : Merging a b aRest bRest picked) (ha : a.Nodup)
    (hlen : picked.length < a.length) :
    ∃ x rest, aRest.dropWhile (fun y => decide (y ∈ picked)) = x :: rest := by
  cases hdrop : aRest.dropWhile fun y => decide (y ∈ picked) with
  | cons x rest => exact ⟨x, rest, rfl⟩
  | nil =>
      have hle := (List.subperm_of_subset ha (h.exhausted hdrop)).length_le
      exact absurd hlen (Nat.not_lt.mpr hle)

end Merging

end LaneMerge
