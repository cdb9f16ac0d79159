/-
Picking from the front until it is enough.

`pickUntil w l m` takes one element of `l` after the other, each worth `w` of it, until `m` is
used up or the list is.  What is picked begins the list; it is enough if and only if the whole
list would be (`missing_nonpos_iff`); and without its last element it is not
(`missing_pos_of_initial`).

A list sorted by a key that an eligibility test cannot pass over is eligible up to some point, so
that taking from the front while the test holds is taking all that pass it.
-/
import Mathlib.Algebra.Order.BigOperators.Group.List
import Mathlib.Algebra.Order.Group.Basic

namespace Greedy

variable {α K : Type*} [AddCommGroup K] [LinearOrder K]

/-- Pick until `m` is used up; returns what is picked, and what is missing then. -/
def pickUntil (w : α → K) : List α → K → List α × K
  | [], m => ([], m)
  | x :: xs, m =>
      if m - w x ≤ 0 then ([x], m - w x)
      else
        let (picked, missing) := pickUntil w xs (m - w x)
        (x :: picked, missing)

variable {w : α → K}

/-- What is picked begins the list, and is what the need falls by. -/
theorem pickUntil_spec (w : α → K) : ∀ (l : List α) (m : K),
    (pickUntil w l m).1 <+: l ∧
      (pickUntil w l m).2 = m - ((pickUntil w l m).1.map w).sum := by
  intro l
  induction l with
  | nil => intro m; exact ⟨List.prefix_refl _, (sub_zero m).symm⟩
  | cons x xs ih =>
      intro m
      unfold pickUntil
      by_cases hle : m - w x ≤ 0
      · rw [if_pos hle]
        exact ⟨List.prefix_append [x] xs, by simp⟩
      · rw [if_neg hle]
        obtain ⟨hpre, hsum⟩ := ih (m - w x)
        refine ⟨List.prefix_cons_inj x |>.mpr hpre, ?_⟩
        show (pickUntil w xs (m - w x)).2 = _
        rw [hsum, List.map_cons, List.sum_cons, sub_sub]

theorem pickUntil_ne_nil {l : List α} (hne : l ≠ []) (m : K) : (pickUntil w l m).1 ≠ [] := by
  obtain ⟨x, xs, rfl⟩ := List.exists_cons_of_ne_nil hne
  unfold pickUntil
  split
  · exact List.cons_ne_nil x []
  · exact List.cons_ne_nil x _

/-- **Nothing is picked once it is enough.** -/
theorem missing_pos_of_initial : ∀ {l : List α} {m : K} {pre : List α}, pre ≠ [] →
    pre <+: (pickUntil w l m).1 → pre ≠ (pickUntil w l m).1 → 0 < m - (pre.map w).sum := by
  intro l
  induction l with
  | nil =>
      intro m pre hne hpre _
      exact absurd (List.prefix_nil.mp hpre) hne
  | cons x xs ih =>
      intro m pre hne hpre hproper
      unfold pickUntil at hpre hproper
      obtain ⟨y, pre, rfl⟩ := List.exists_cons_of_ne_nil hne
      by_cases hle : m - w x ≤ 0
      · rw [if_pos hle] at hpre hproper
        obtain ⟨rfl, hrest⟩ := List.cons_prefix_cons.mp hpre
        exact absurd (congrArg (List.cons y) (List.prefix_nil.mp hrest)) hproper
      · rw [if_neg hle] at hpre hproper
        obtain ⟨rfl, hrest⟩ := List.cons_prefix_cons.mp hpre
        rw [List.map_cons, List.sum_cons, ← sub_sub]
        by_cases hnil : pre = []
        · rw [hnil, List.map_nil, List.sum_nil, sub_zero]
          exact not_le.mp hle
        · exact ih hnil hrest fun heq => hproper (congrArg (List.cons y) heq)

variable [IsOrderedAddMonoid K]

/-- **It is enough if and only if all together would be.** -/
theorem missing_nonpos_iff : ∀ {l : List α} {m : K}, (∀ x ∈ l, 0 ≤ w x) → l ≠ [] →
    ((pickUntil w l m).2 ≤ 0 ↔ m ≤ (l.map w).sum) := by
  intro l
  induction l with
  | nil => intro m _ hne; exact absurd rfl hne
  | cons x xs ih =>
      intro m hw _
      have hxs : ∀ y ∈ xs, 0 ≤ w y := fun y hy => hw y (List.mem_cons_of_mem x hy)
      have hsum : 0 ≤ (xs.map w).sum := List.sum_nonneg fun _ hv => by
        obtain ⟨y, hy, rfl⟩ := List.mem_map.mp hv
        exact hxs y hy
      unfold pickUntil
      rw [List.map_cons, List.sum_cons]
      by_cases hle : m - w x ≤ 0
      · rw [if_pos hle]
        refine iff_of_true hle ?_
        exact (sub_nonpos.mp hle).trans (le_add_of_nonneg_right hsum)
      · rw [if_neg hle]
        show (pickUntil w xs (m - w x)).2 ≤ 0 ↔ _
        by_cases hnil : xs = []
        · rw [hnil, List.map_nil, List.sum_nil, add_zero]
          exact sub_nonpos
        · rw [ih hxs hnil, sub_le_iff_le_add']

omit [AddCommGroup K] [LinearOrder K] [IsOrderedAddMonoid K] in
/-- A test that fails for all that come after one it fails for holds up to some point. -/
theorem takeWhile_eq_filter {p : α → Bool} : ∀ {l : List α},
    l.Pairwise (fun x y => p y = true → p x = true) → l.takeWhile p = l.filter p := by
  intro l
  induction l with
  | nil => intro _; rfl
  | cons x xs ih =>
      intro h
      obtain ⟨hx, hxs⟩ := List.pairwise_cons.mp h
      by_cases hp : p x = true
      · rw [List.takeWhile_cons_of_pos hp, List.filter_cons_of_pos hp, ih hxs]
      · rw [List.takeWhile_cons_of_neg hp, List.filter_cons_of_neg hp]
        exact (List.filter_eq_nil_iff.mpr fun y hy hpy => hp (hx y hy hpy)).symm

end Greedy
