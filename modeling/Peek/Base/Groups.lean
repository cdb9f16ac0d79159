/-
Grouping a list by a key.

Python's way: a dictionary of lists, in the order in which the keys first occur, filled by
appending one element after the other.  A group is what a filter by its key would give
(`mem_groupBy`), and the groups together are the list (`flatten_groupBy_perm`).
-/
import Mathlib.Data.List.Induction
import Mathlib.Data.List.Nodup

namespace Peek

variable {κ α : Type} [DecidableEq κ]

/-- `groups.setdefault(k, []).append(a)` -/
def appendTo (k : κ) (a : α) : List (κ × List α) → List (κ × List α)
  | [] => [(k, [a])]
  | (k', l) :: groups => if k' = k then (k', l ++ [a]) :: groups else (k', l) :: appendTo k a groups

/-- The elements of `l`, grouped by their keys. -/
def groupBy (key : α → κ) (l : List α) : List (κ × List α) :=
  l.foldl (fun groups a => appendTo (key a) a groups) []

/-- The group of `k`; empty if there is none. -/
def groupOf (k : κ) : List (κ × List α) → List α
  | [] => []
  | (k', l) :: groups => if k' = k then l else groupOf k groups

theorem keys_appendTo (k : κ) (a : α) (groups : List (κ × List α)) (k' : κ) :
    k' ∈ (appendTo k a groups).map (·.1) ↔ k' ∈ groups.map (·.1) ∨ k' = k := by
  induction groups with
  | nil => simp [appendTo]
  | cons g groups ih =>
      unfold appendTo
      by_cases hg : g.1 = k
      · rw [if_pos hg]
        simp only [List.map_cons, List.mem_cons]
        constructor
        · exact Or.inl
        · intro h
          exact h.elim id fun hk => Or.inl (hk.trans hg.symm)
      · rw [if_neg hg, List.map_cons, List.mem_cons, ih, List.map_cons, List.mem_cons, or_assoc]

theorem nodup_appendTo (k : κ) (a : α) {groups : List (κ × List α)}
    (h : (groups.map (·.1)).Nodup) : ((appendTo k a groups).map (·.1)).Nodup := by
  induction groups with
  | nil => simp [appendTo]
  | cons g groups ih =>
      rw [List.map_cons, List.nodup_cons] at h
      unfold appendTo
      by_cases hg : g.1 = k
      · rw [if_pos hg, List.map_cons, List.nodup_cons]
        exact h
      · rw [if_neg hg, List.map_cons, List.nodup_cons, keys_appendTo]
        exact ⟨fun hk => hk.elim h.1 hg, ih h.2⟩

theorem groupOf_appendTo (k k' : κ) (a : α) (groups : List (κ × List α)) :
    groupOf k' (appendTo k a groups) = groupOf k' groups ++ if k = k' then [a] else [] := by
  induction groups with
  | nil => simp [appendTo, groupOf]
  | cons g groups ih =>
      unfold appendTo
      by_cases hg : g.1 = k
      · rw [if_pos hg]
        unfold groupOf
        rw [hg]
        by_cases hk : k = k'
        · rw [if_pos hk, if_pos hk, if_pos hk]
        · rw [if_neg hk, if_neg hk, if_neg hk, List.append_nil]
      · rw [if_neg hg]
        unfold groupOf
        by_cases hk : g.1 = k'
        · rw [if_pos hk, if_pos hk, if_neg fun h => hg (hk.trans h.symm), List.append_nil]
        · rw [if_neg hk, if_neg hk, ih]

/-- Appending makes no empty group. -/
theorem forall_appendTo {k : κ} {a : α} {groups : List (κ × List α)}
    (h : ∀ g ∈ groups, g.2 ≠ []) : ∀ g ∈ appendTo k a groups, g.2 ≠ [] := by
  induction groups with
  | nil => simp [appendTo]
  | cons g groups ih =>
      rw [List.forall_mem_cons] at h
      unfold appendTo
      by_cases hg : g.1 = k
      · rw [if_pos hg, List.forall_mem_cons]
        exact ⟨by simp, h.2⟩
      · rw [if_neg hg, List.forall_mem_cons]
        exact ⟨h.1, ih h.2⟩

theorem mem_iff_groupOf {groups : List (κ × List α)} (hnd : (groups.map (·.1)).Nodup)
    (hne : ∀ g ∈ groups, g.2 ≠ []) {k : κ} {l : List α} :
    (k, l) ∈ groups ↔ groupOf k groups = l ∧ l ≠ [] := by
  induction groups with
  | nil =>
      unfold groupOf
      exact ⟨fun h => by simp at h, fun h => absurd h.1.symm h.2⟩
  | cons g groups ih =>
      rw [List.map_cons, List.nodup_cons] at hnd
      rw [List.forall_mem_cons] at hne
      unfold groupOf
      rw [List.mem_cons]
      by_cases hg : g.1 = k
      · rw [if_pos hg]
        have hnot : (k, l) ∉ groups := fun h => hnd.1 (hg ▸ List.mem_map_of_mem h)
        constructor
        · intro h
          rw [← h.resolve_right hnot] at hne
          exact ⟨by rw [← h.resolve_right hnot], hne.1⟩
        · intro h
          exact Or.inl (by rw [← h.1, ← hg])
      · rw [if_neg hg, ← ih hnd.2 hne.2]
        exact or_iff_right fun h => hg (congrArg Prod.fst h).symm

/-- Distinct keys, no empty group, and in each the elements that have its key, in order. -/
theorem groupBy_spec (key : α → κ) (l : List α) :
    ((groupBy key l).map (·.1)).Nodup ∧ (∀ g ∈ groupBy key l, g.2 ≠ []) ∧
      ∀ k, groupOf k (groupBy key l) = l.filter fun a => key a = k := by
  suffices h : ∀ (l : List α) (groups : List (κ × List α)), (groups.map (·.1)).Nodup →
      (∀ g ∈ groups, g.2 ≠ []) →
      ((l.foldl (fun groups a => appendTo (key a) a groups) groups).map (·.1)).Nodup ∧
      (∀ g ∈ l.foldl (fun groups a => appendTo (key a) a groups) groups, g.2 ≠ []) ∧
      ∀ k, groupOf k (l.foldl (fun groups a => appendTo (key a) a groups) groups) =
        groupOf k groups ++ l.filter fun a => key a = k by
    obtain ⟨h1, h2, h3⟩ := h l [] List.nodup_nil (by simp)
    exact ⟨h1, h2, fun k => (h3 k).trans (List.nil_append _)⟩
  intro l
  induction l with
  | nil => intro groups hnd hne; exact ⟨hnd, hne, fun k => (List.append_nil _).symm⟩
  | cons a l ih =>
      intro groups hnd hne
      rw [List.foldl_cons]
      obtain ⟨h1, h2, h3⟩ := ih _ (nodup_appendTo (key a) a hnd) (forall_appendTo hne)
      refine ⟨h1, h2, fun k => ?_⟩
      rw [h3, groupOf_appendTo, List.append_assoc, List.filter_cons]
      by_cases hk : key a = k
      · simp [hk]
      · simp [hk]

/-- **A group is what a filter by its key gives.** -/
theorem mem_groupBy {key : α → κ} {l : List α} {k : κ} {members : List α} :
    (k, members) ∈ groupBy key l ↔ members = (l.filter fun a => key a = k) ∧ members ≠ [] := by
  obtain ⟨hnd, hne, hgroup⟩ := groupBy_spec key l
  rw [mem_iff_groupOf hnd hne, hgroup, eq_comm]

theorem flatten_appendTo_perm (k : κ) (a : α) (groups : List (κ × List α)) :
    (((appendTo k a groups).map (·.2)).flatten).Perm (a :: (groups.map (·.2)).flatten) := by
  induction groups with
  | nil => exact List.Perm.refl _
  | cons g groups ih =>
      unfold appendTo
      by_cases hg : g.1 = k
      · rw [if_pos hg, List.map_cons, List.flatten_cons, List.map_cons, List.flatten_cons,
          List.append_assoc]
        exact List.perm_middle
      · rw [if_neg hg, List.map_cons, List.flatten_cons, List.map_cons, List.flatten_cons]
        exact (ih.append_left g.2).trans List.perm_middle

/-- **Grouping loses nothing and repeats nothing.** -/
theorem flatten_groupBy_perm (key : α → κ) (l : List α) :
    (((groupBy key l).map (·.2)).flatten).Perm l := by
  suffices h : ∀ (l : List α) (groups : List (κ × List α)),
      (((l.foldl (fun groups a => appendTo (key a) a groups) groups).map (·.2)).flatten).Perm
        ((groups.map (·.2)).flatten ++ l) from h l []
  intro l
  induction l with
  | nil => intro groups; rw [List.append_nil]; exact List.Perm.refl _
  | cons a l ih =>
      intro groups
      rw [List.foldl_cons]
      refine (ih _).trans ?_
      refine ((flatten_appendTo_perm (key a) a groups).append_right l).trans ?_
      exact List.perm_middle.symm

theorem appendTo_of_notMem {k : κ} (a : α) {groups : List (κ × List α)}
    (h : k ∉ groups.map (·.1)) : appendTo k a groups = groups ++ [(k, [a])] := by
  induction groups with
  | nil => rfl
  | cons g groups ih =>
      rw [List.map_cons, List.mem_cons, not_or] at h
      unfold appendTo
      rw [if_neg (Ne.symm h.1), ih h.2, List.cons_append]

/-- With distinct keys everything is a group of its own. -/
theorem groupBy_of_nodup {key : α → κ} {l : List α} (h : (l.map key).Nodup) :
    groupBy key l = l.map fun a => (key a, [a]) := by
  induction l using List.reverseRecOn with
  | nil => rfl
  | append_singleton l a ih =>
      rw [List.map_append, List.map_singleton, List.nodup_append] at h
      have hnot : key a ∉ (groupBy key l).map (·.1) := by
        rw [ih h.1, List.map_map]
        exact fun hmem => h.2.2 _ hmem _ List.mem_cons_self rfl
      show (l ++ [a]).foldl _ [] = _
      rw [List.foldl_append, List.map_append, ← ih h.1]
      exact appendTo_of_notMem a hnot

/-- **A list is its parts by key**, in any order of the keys. -/
theorem flatMap_filter_perm (key : α → κ) : ∀ (keys : List κ) (l : List α), keys.Nodup →
    (∀ a ∈ l, key a ∈ keys) → (keys.flatMap fun k => l.filter fun a => key a = k).Perm l := by
  intro keys
  induction keys with
  | nil =>
      intro l _ hcover
      rw [List.eq_nil_iff_forall_not_mem.mpr fun a ha => absurd (hcover a ha) List.not_mem_nil]
      exact List.Perm.refl _
  | cons k keys ih =>
      intro l hnd hcover
      rw [List.nodup_cons] at hnd
      have hrest : (keys.flatMap fun k => l.filter fun a => key a = k) =
          keys.flatMap fun k' => (l.filter fun a => !decide (key a = k)).filter fun a => key a = k' := by
        refine List.flatMap_congr fun k' hk' => ?_
        rw [List.filter_filter]
        refine List.filter_congr fun a _ => ?_
        by_cases ha : key a = k'
        · have hne : k' ≠ k := fun heq => hnd.1 (heq ▸ hk')
          simp [ha, hne]
        · simp [ha]
      have ih := ih (l.filter fun a => !decide (key a = k)) hnd.2 fun a ha => by
        rw [List.mem_filter] at ha
        have hne : key a ≠ k := by simpa using ha.2
        exact (List.mem_cons.mp (hcover a ha.1)).resolve_left hne
      rw [List.flatMap_cons, hrest]
      exact (ih.append_left _).trans (List.filter_append_perm _ l)

/-! ### The order of the groups -/

theorem mem_appendTo {k : κ} {a : α} {groups : List (κ × List α)} {g : κ × List α}
    (h : g ∈ appendTo k a groups) :
    g ∈ groups ∨ g = (k, [a]) ∨ ∃ l, (k, l) ∈ groups ∧ g = (k, l ++ [a]) := by
  induction groups with
  | nil => exact Or.inr (Or.inl (List.mem_singleton.mp h))
  | cons g' groups ih =>
      unfold appendTo at h
      by_cases hg : g'.1 = k
      · rw [if_pos hg] at h
        rcases List.mem_cons.mp h with rfl | h
        · refine Or.inr (Or.inr ⟨g'.2, ?_, by rw [hg]⟩)
          rw [← hg]
          exact List.mem_cons_self
        · exact Or.inl (List.mem_cons_of_mem _ h)
      · rw [if_neg hg] at h
        rcases List.mem_cons.mp h with rfl | h
        · exact Or.inl List.mem_cons_self
        · rcases ih h with h | h | ⟨l, hl, h⟩
          · exact Or.inl (List.mem_cons_of_mem _ h)
          · exact Or.inr (Or.inl h)
          · exact Or.inr (Or.inr ⟨l, List.mem_cons_of_mem _ hl, h⟩)

/-- Some element of the first group is ahead of all the second has. -/
def StartsAhead (R : α → α → Prop) (g g' : κ × List α) : Prop := ∃ a ∈ g.2, ∀ b ∈ g'.2, R a b

theorem pairwise_appendTo {R : α → α → Prop} {k : κ} {x : α} {groups : List (κ × List α)}
    (hne : ∀ g ∈ groups, g.2 ≠ []) (hx : ∀ g ∈ groups, ∀ a ∈ g.2, R a x)
    (h : groups.Pairwise (StartsAhead R)) : (appendTo k x groups).Pairwise (StartsAhead R) := by
  induction groups with
  | nil => exact List.pairwise_singleton _ _
  | cons g groups ih =>
      obtain ⟨hg, htail⟩ := List.pairwise_cons.mp h
      rw [List.forall_mem_cons] at hne hx
      unfold appendTo
      by_cases hk : g.1 = k
      · rw [if_pos hk]
        refine List.pairwise_cons.mpr ⟨fun g' hg' => ?_, htail⟩
        obtain ⟨a, ha, hahead⟩ := hg g' hg'
        exact ⟨a, List.mem_append_left _ ha, hahead⟩
      · rw [if_neg hk]
        refine List.pairwise_cons.mpr ⟨fun g' hg' => ?_, ih hne.2 hx.2 htail⟩
        rcases mem_appendTo hg' with hg' | rfl | ⟨l, hl, rfl⟩
        · exact hg g' hg'
        · obtain ⟨a, ha⟩ := List.exists_mem_of_ne_nil _ hne.1
          refine ⟨a, ha, fun b hb => ?_⟩
          rw [List.mem_singleton.mp hb]
          exact hx.1 a ha
        · obtain ⟨a, ha, hahead⟩ := hg (k, l) hl
          refine ⟨a, ha, fun b hb => ?_⟩
          rcases List.mem_append.mp hb with hb | hb
          · exact hahead b hb
          · rw [List.mem_singleton.mp hb]
            exact hx.1 a ha

/-- **The groups are in the order of their first elements.** -/
theorem pairwise_groupBy {R : α → α → Prop} {key : α → κ} {l : List α} (h : l.Pairwise R) :
    (groupBy key l).Pairwise (StartsAhead R) := by
  induction l using List.reverseRecOn with
  | nil => exact List.Pairwise.nil
  | append_singleton l x ih =>
      obtain ⟨hl, -, hx⟩ := List.pairwise_append.mp h
      have hfold : groupBy key (l ++ [x]) = appendTo (key x) x (groupBy key l) := by
        unfold groupBy
        rw [List.foldl_append]
        rfl
      rw [hfold]
      refine pairwise_appendTo (groupBy_spec key l).2.1 (fun g hg a ha => ?_) (ih hl)
      rw [(mem_groupBy.mp (show (g.1, g.2) ∈ groupBy key l from hg)).1] at ha
      exact hx a (List.mem_of_mem_filter ha) x List.mem_cons_self

end Peek
