/-
Sorting by a key.

`sorted(l, key=...)` is the library's stable insertion sort.  Its result ascends in the key, so
whoever takes some of it from the front takes everything with a lower key as well.
-/
import Mathlib.Data.List.Sort
import Mathlib.Order.Lattice

namespace Peek

variable {α κ : Type} [LinearOrder κ] [DecidableLE κ] (key : α → κ)

/-- `sorted(..., key=...)` -/
theorem pairwise_sorted (l : List α) :
    (l.insertionSort fun a b => key a ≤ key b).Pairwise fun a b => key a ≤ key b := by
  have : Std.Total fun a b : α => key a ≤ key b := ⟨fun a b => le_total (key a) (key b)⟩
  have : IsTrans α fun a b => key a ≤ key b := ⟨fun _ _ _ => le_trans⟩
  exact List.pairwise_insertionSort _ l

/-- What is sorted before something that is taken is taken. -/
theorem mem_take_sorted {l : List α} {k : Nat} {x y : α}
    (hx : x ∈ (l.insertionSort fun a b => key a ≤ key b).take k) (hy : y ∈ l)
    (hlt : key y < key x) : y ∈ (l.insertionSort fun a b => key a ≤ key b).take k := by
  have hsorted := pairwise_sorted key l
  have hy := (List.mem_insertionSort fun a b => key a ≤ key b).mpr hy
  rw [← List.take_append_drop k (l.insertionSort _)] at hsorted hy
  rcases List.mem_append.mp hy with hy | hy
  · exact hy
  · exact absurd ((List.pairwise_append.mp hsorted).2.2 x hx y hy) (not_le_of_gt hlt)

/-- Ascending in the key, and in `R` where the key does not tell. -/
def KeyThen (R : α → α → Prop) (a b : α) : Prop := key a < key b ∨ key a = key b ∧ R a b

omit [DecidableLE κ] in
theorem KeyThen.le {R : α → α → Prop} {a b : α} (h : KeyThen key R a b) : key a ≤ key b :=
  h.elim le_of_lt fun heq => heq.1.le

/-- What is inserted comes before those it ties with. -/
theorem pairwise_orderedInsert {R : α → α → Prop} {a : α} {l : List α}
    (hl : l.Pairwise (KeyThen key R)) (ha : ∀ b ∈ l, key a = key b → R a b) :
    (l.orderedInsert (fun a b => key a ≤ key b) a).Pairwise (KeyThen key R) := by
  induction l with
  | nil => exact List.pairwise_singleton _ a
  | cons c l ih =>
      obtain ⟨hc, hl⟩ := List.pairwise_cons.mp hl
      by_cases hle : key a ≤ key c
      · rw [List.orderedInsert_cons_of_le _ l hle]
        refine List.pairwise_cons.mpr ⟨fun b hb => ?_, List.pairwise_cons.mpr ⟨hc, hl⟩⟩
        have hab : key a ≤ key b := by
          rcases List.mem_cons.mp hb with rfl | hb
          · exact hle
          · exact hle.trans (hc b hb).le
        exact hab.lt_or_eq.imp id fun heq => ⟨heq, ha b hb heq⟩
      · rw [List.orderedInsert_of_not_le _ l hle]
        refine List.pairwise_cons.mpr ⟨fun b hb => ?_, ih hl fun b hb => ha b (List.mem_cons_of_mem c hb)⟩
        rcases (List.mem_orderedInsert _).mp hb with rfl | hb
        · exact Or.inl (lt_of_not_ge hle)
        · exact hc b hb

/-- **The sort is stable**: it leaves those with equal keys in the order they came in. -/
theorem pairwise_sorted_iff (R : α → α → Prop) (l : List α) :
    (l.insertionSort fun a b => key a ≤ key b).Pairwise (KeyThen key R) ↔
      l.Pairwise fun a b => key a = key b → R a b := by
  constructor
  · intro h
    rw [List.pairwise_iff_forall_sublist] at h ⊢
    intro a b hab heq
    have hle : key a ≤ key b := heq.le
    rcases h (List.pair_sublist_insertionSort hle hab) with hlt | ⟨-, hr⟩
    · exact absurd heq hlt.ne
    · exact hr
  · induction l with
    | nil => exact fun _ => List.Pairwise.nil
    | cons a l ih =>
        intro h
        obtain ⟨ha, hl⟩ := List.pairwise_cons.mp h
        refine pairwise_orderedInsert key (ih hl) fun b hb => ha b ?_
        exact (List.mem_insertionSort _).mp hb

theorem pairwise_keyThen {R : α → α → Prop} {l : List α} (h : l.Pairwise R) :
    (l.insertionSort fun a b => key a ≤ key b).Pairwise (KeyThen key R) := by
  refine (pairwise_sorted_iff key R l).mpr ?_
  exact List.Pairwise.imp (S := fun a b => key a = key b → R a b) (fun hab _ => hab) h

/-- A list that is sorted by a key that tells its elements apart is the sorted one. -/
theorem sorted_eq_iff {l l' : List α} (hperm : l'.Perm l)
    (hinj : ∀ a ∈ l, ∀ b ∈ l, key a = key b → a = b) :
    (l.insertionSort fun a b => key a ≤ key b) = l' ↔
      l'.Pairwise fun a b => key a ≤ key b := by
  constructor
  · rintro rfl
    exact pairwise_sorted key l
  · intro h
    refine List.Perm.eq_of_pairwise (fun a b ha hb hab hba => ?_) (pairwise_sorted key l) h
      ((List.perm_insertionSort _ l).trans hperm.symm)
    exact hinj a ((List.mem_insertionSort _).mp ha) b (hperm.subset hb) (le_antisymm hab hba)

/-- What need not come after comes before. -/
theorem pair_sublist_of_pairwise {R : α → α → Prop} {l : List α} {a b : α} (h : l.Pairwise R)
    (ha : a ∈ l) (hb : b ∈ l) (hne : a ≠ b) (hnot : ¬ R b a) : [a, b].Sublist l := by
  obtain ⟨pre, post, rfl⟩ := List.append_of_mem ha
  rw [List.pairwise_append] at h
  rcases List.mem_append.mp hb with hb | hb
  · exact absurd (h.2.2 b hb a List.mem_cons_self) hnot
  · have hb : b ∈ post := (List.mem_cons.mp hb).resolve_left (Ne.symm hne)
    exact ((List.singleton_sublist.mpr hb).cons_cons a).trans (List.sublist_append_right _ _)

/-- What is inserted is put behind everything it may not precede. -/
theorem orderedInsert_append {r : α → α → Prop} [DecidableRel r] {a : α} {l : List α}
    (h : ∀ b ∈ l, ¬ r a b) (rest : List α) :
    (l ++ rest).orderedInsert r a = l ++ rest.orderedInsert r a := by
  induction l with
  | nil => rfl
  | cons b l ih =>
      rw [List.forall_mem_cons] at h
      rw [List.cons_append, List.orderedInsert_of_not_le _ _ h.1, ih h.2, List.cons_append]

/-- The sort leaves what has the least key in front, as it came, and sorts the others. -/
theorem insertionSort_eq_append {least : κ} (hleast : ∀ a, least ≤ key a) (l : List α) :
    (l.insertionSort fun a b => key a ≤ key b) = (l.filter fun a => key a = least) ++
      (l.filter fun a => key a ≠ least).insertionSort fun a b => key a ≤ key b := by
  induction l with
  | nil => rfl
  | cons a l ih =>
      by_cases ha : key a = least
      · have hfirst : ∀ b ∈ l, key a ≤ key b := fun b _ => ha.le.trans (hleast b)
        rw [List.insertionSort_cons_of_forall_rel (fun a b => key a ≤ key b) hfirst, ih,
          List.filter_cons_of_pos (by simpa using ha), List.filter_cons_of_neg (by simpa using ha),
          List.cons_append]
      · rw [List.insertionSort_cons, ih, List.filter_cons_of_neg (by simpa using ha),
          List.filter_cons_of_pos (by simpa using ha), List.insertionSort_cons]
        refine orderedInsert_append (fun b hb hle => ha ?_) _
        have hb : key b = least := by simpa using (List.mem_filter.mp hb).2
        exact le_antisymm (hb ▸ hle) (hleast a)

/-! ### Pairs of a sorted list -/

section Pairs

variable {r : α → α → Prop} [DecidableRel r] (R : α → α → Prop)

/-- What is inserted stands before those it may precede, and after the others. -/
theorem pairwise_orderedInsert_iff [IsTrans α r] (a : α) {l : List α} (hl : l.Pairwise r) :
    (l.orderedInsert r a).Pairwise R ↔
      (∀ b ∈ l, (r a b → R a b) ∧ (¬ r a b → R b a)) ∧ l.Pairwise R := by
  induction l with
  | nil =>
      rw [List.orderedInsert_nil]
      exact iff_of_true (List.pairwise_singleton R a) ⟨by simp, List.Pairwise.nil⟩
  | cons c l ih =>
      obtain ⟨hc, hl⟩ := List.pairwise_cons.mp hl
      by_cases hac : r a c
      · rw [List.orderedInsert_cons_of_le r l hac, List.pairwise_cons]
        refine and_congr_left fun _ => forall₂_congr fun b hb => ?_
        have hab : r a b := by
          rcases List.mem_cons.mp hb with rfl | hb
          · exact hac
          · exact IsTrans.trans a c b hac (hc b hb)
        simp [hab]
      · rw [List.orderedInsert_of_not_le _ l hac, List.pairwise_cons, ih hl, List.pairwise_cons,
          List.forall_mem_cons]
        simp only [List.mem_orderedInsert, forall_eq_or_imp, hac, false_imp_iff, true_and,
          not_false_iff, true_imp_iff]
        tauto

/-- **When a stable sort leaves `R`**: two elements stand as the sort puts them. -/
theorem pairwise_insertionSort_iff [Std.Total r] [IsTrans α r] (l : List α) :
    (l.insertionSort r).Pairwise R ↔ l.Pairwise fun a b => (r a b → R a b) ∧ (¬ r a b → R b a) := by
  induction l with
  | nil => exact iff_of_true List.Pairwise.nil List.Pairwise.nil
  | cons a l ih =>
      rw [List.insertionSort_cons, pairwise_orderedInsert_iff R a (List.pairwise_insertionSort r l),
        ih, List.pairwise_cons]
      simp only [List.mem_insertionSort]

end Pairs

/-! ### Positions -/

section Positions

variable [BEq α] [LawfulBEq α] {l : List α} {a b : α}

omit [LinearOrder κ] [DecidableLE κ] in
theorem pairwise_idxOf (hnd : l.Nodup) : l.Pairwise fun a b => l.idxOf a < l.idxOf b := by
  rw [List.pairwise_iff_getElem]
  intro i j hi hj hij
  rw [hnd.idxOf_getElem i hi, hnd.idxOf_getElem j hj]
  exact hij

theorem rel_of_idxOf_lt {R : α → α → Prop} (h : l.Pairwise R) (ha : a ∈ l) (hb : b ∈ l)
    (hlt : l.idxOf a < l.idxOf b) : R a b := by
  have hrel := List.pairwise_iff_getElem.mp h _ _ (List.idxOf_lt_length_iff.mpr ha)
    (List.idxOf_lt_length_iff.mpr hb) hlt
  rwa [List.getElem_idxOf, List.getElem_idxOf] at hrel

/-- **Where the stable sort puts what**: by the key, and as before where the keys are equal. -/
theorem idxOf_sorted_lt_iff (hnd : l.Nodup) (ha : a ∈ l) (hb : b ∈ l) :
    (l.insertionSort fun a b => key a ≤ key b).idxOf a <
        (l.insertionSort fun a b => key a ≤ key b).idxOf b ↔
      KeyThen key (fun a b => l.idxOf a < l.idxOf b) a b := by
  have hsorted := pairwise_keyThen key (pairwise_idxOf hnd)
  have ha' := (List.mem_insertionSort fun a b => key a ≤ key b).mpr ha
  have hb' := (List.mem_insertionSort fun a b => key a ≤ key b).mpr hb
  constructor
  · exact rel_of_idxOf_lt hsorted ha' hb'
  · intro hab
    rcases Nat.lt_trichotomy ((l.insertionSort fun a b => key a ≤ key b).idxOf a)
      ((l.insertionSort fun a b => key a ≤ key b).idxOf b) with hlt | heq | hgt
    · exact hlt
    · rw [(List.idxOf_inj ha').mp heq] at hab
      rcases hab with hab | hab
      · exact absurd hab (lt_irrefl _)
      · exact absurd hab.2 (Nat.lt_irrefl _)
    · rcases rel_of_idxOf_lt hsorted hb' ha' hgt with hba | ⟨hkey, hba⟩
      · exact absurd hab.le (not_le_of_gt hba)
      · rcases hab with hab | hab
        · exact absurd hkey (ne_of_gt hab)
        · exact absurd hab.2 (Nat.lt_asymm hba)

end Positions

end Peek
