/-
Elements that stand together.

`Contiguous P l` says that nothing outside `P` stands between two elements of `P` in `l`: the
list is a part outside `P`, a part in `P`, and a part outside `P` again.
-/
import Mathlib.Data.Finset.Max
import Mathlib.Data.List.Sort

namespace Peek

variable {α β : Type}

/-- The elements in `P` stand together. -/
def Contiguous (P : α → Prop) (l : List α) : Prop :=
  ∃ pre mid post, l = pre ++ mid ++ post ∧ (∀ x ∈ mid, P x) ∧ (∀ x ∈ pre, ¬ P x) ∧
    ∀ x ∈ post, ¬ P x

theorem contiguous_of_none {P : α → Prop} {l : List α} (h : ∀ x ∈ l, ¬ P x) : Contiguous P l :=
  ⟨l, [], [], by simp, by simp, h, by simp⟩

/-- What each element is replaced by stands where the element stood. -/
theorem Contiguous.flatMap {P : α → Prop} {Q : β → Prop} {l : List α} {f : α → List β}
    (h : Contiguous P l) (hf : ∀ x ∈ l, ∀ y ∈ f x, Q y ↔ P x) : Contiguous Q (l.flatMap f) := by
  obtain ⟨pre, mid, post, rfl, hmid, hpre, hpost⟩ := h
  refine ⟨pre.flatMap f, mid.flatMap f, post.flatMap f, by simp, ?_, ?_, ?_⟩
  · intro y hy
    obtain ⟨x, hx, hy⟩ := List.mem_flatMap.mp hy
    exact (hf x (by simp [hx]) y hy).mpr (hmid x hx)
  · intro y hy
    obtain ⟨x, hx, hy⟩ := List.mem_flatMap.mp hy
    exact fun hq => hpre x hx ((hf x (by simp [hx]) y hy).mp hq)
  · intro y hy
    obtain ⟨x, hx, hy⟩ := List.mem_flatMap.mp hy
    exact fun hq => hpost x hx ((hf x (by simp [hx]) y hy).mp hq)

theorem Contiguous.congr {P Q : α → Prop} {l : List α} (h : Contiguous P l)
    (hpq : ∀ x ∈ l, P x ↔ Q x) : Contiguous Q l := by
  obtain ⟨pre, mid, post, rfl, hmid, hpre, hpost⟩ := h
  refine ⟨pre, mid, post, rfl, fun x hx => ?_, fun x hx => ?_, fun x hx => ?_⟩
  · exact (hpq x (by simp [hx])).mp (hmid x hx)
  · exact mt (hpq x (by simp [hx])).mpr (hpre x hx)
  · exact mt (hpq x (by simp [hx])).mpr (hpost x hx)

theorem Contiguous.cons {P : α → Prop} {a : α} {l : List α} (h : Contiguous P l) (ha : ¬ P a) :
    Contiguous P (a :: l) := by
  obtain ⟨pre, mid, post, rfl, hmid, hpre, hpost⟩ := h
  refine ⟨a :: pre, mid, post, by simp, hmid, fun x hx => ?_, hpost⟩
  rcases List.mem_cons.mp hx with rfl | hx
  · exact ha
  · exact hpre x hx

/-- Only one element is replaced by elements in `Q`, and they stand together. -/
theorem contiguous_flatMap_of_one {Q : β → Prop} {l : List α} {f : α → List β} {a : α}
    (hnd : l.Nodup) (ha : a ∈ l) (h : Contiguous Q (f a))
    (hothers : ∀ x ∈ l, x ≠ a → ∀ y ∈ f x, ¬ Q y) : Contiguous Q (l.flatMap f) := by
  obtain ⟨l1, l2, rfl⟩ := List.append_of_mem ha
  obtain ⟨pre, mid, post, hfa, hmid, hpre, hpost⟩ := h
  rw [List.nodup_append, List.nodup_cons] at hnd
  refine ⟨l1.flatMap f ++ pre, mid, post ++ l2.flatMap f, by simp [hfa], hmid, ?_, ?_⟩
  · intro y hy
    rcases List.mem_append.mp hy with hy | hy
    · obtain ⟨x, hx, hy⟩ := List.mem_flatMap.mp hy
      exact hothers x (by simp [hx]) (fun heq => hnd.2.2 x hx a List.mem_cons_self heq) y hy
    · exact hpre y hy
  · intro y hy
    rcases List.mem_append.mp hy with hy | hy
    · exact hpost y hy
    · obtain ⟨x, hx, hy⟩ := List.mem_flatMap.mp hy
      exact hothers x (by simp [hx]) (fun heq => hnd.2.1.1 (heq ▸ hx)) y hy

/-! ### Positions -/

/-- Elements that stand together have the positions of an interval. -/
theorem Contiguous.interval [BEq α] [LawfulBEq α] {P : α → Prop} {l : List α} (h : Contiguous P l) :
    ∃ lo hi, ∀ x ∈ l, P x ↔ lo ≤ l.idxOf x ∧ l.idxOf x < hi := by
  classical
  obtain ⟨pre, mid, post, rfl, hmid, hpre, hpost⟩ := h
  refine ⟨pre.length, (pre ++ mid).length, fun x hx => ?_⟩
  by_cases hxpre : x ∈ pre
  · have hlt := List.idxOf_lt_length_iff.mpr hxpre
    rw [List.append_assoc, List.idxOf_append_of_mem hxpre]
    exact iff_of_false (hpre x hxpre) fun hin => by omega
  · by_cases hxmid : x ∈ mid
    · have hlt := List.idxOf_lt_length_iff.mpr hxmid
      rw [List.append_assoc, List.idxOf_append_of_notMem hxpre, List.idxOf_append_of_mem hxmid,
        List.length_append]
      exact iff_of_true (hmid x hxmid) (by omega)
    · have hxpost : x ∈ post := by
        rw [List.mem_append, List.mem_append] at hx
        exact hx.resolve_left (not_or.mpr ⟨hxpre, hxmid⟩)
      have hnot : x ∉ pre ++ mid := List.mem_append.not.mpr (not_or.mpr ⟨hxpre, hxmid⟩)
      rw [List.idxOf_append_of_notMem hnot]
      exact iff_of_false (hpost x hxpost) fun hin => by omega

/-- Some elements have the numbers of an interval just when no other number is between theirs. -/
theorem interval_iff {P : α → Prop} {l : List α} {r : α → Nat}
    (hinj : ∀ x ∈ l, ∀ y ∈ l, r x = r y → x = y) :
    (∃ lo hi, ∀ x ∈ l, P x ↔ lo ≤ r x ∧ r x < hi) ↔
      ∀ x ∈ l, ¬ P x → ∀ a ∈ l, P a → ∀ b ∈ l, P b → ¬ (r a < r x ∧ r x < r b) := by
  constructor
  · intro h x hx hnot a ha hpa b hb hpb hbetween
    obtain ⟨lo, hi, hin⟩ := h
    have hlo := ((hin a ha).mp hpa).1
    have hhi := ((hin b hb).mp hpb).2
    exact hnot ((hin x hx).mpr ⟨by omega, by omega⟩)
  · intro h
    by_cases hsome : ∃ x ∈ l, P x
    · -- from the least of the numbers to the greatest
      classical
      obtain ⟨x0, hx0, hp0⟩ := hsome
      have hne : (l.filter fun x => P x).toFinset.Nonempty := ⟨x0, by simp [hx0, hp0]⟩
      obtain ⟨a, ha, hmin⟩ := Finset.exists_min_image _ r hne
      obtain ⟨b, hb, hmax⟩ := Finset.exists_max_image _ r hne
      simp only [List.mem_toFinset, List.mem_filter, decide_eq_true_eq] at ha hb hmin hmax
      refine ⟨r a, r b + 1, fun x hx => ⟨fun hp => ?_, fun hin => ?_⟩⟩
      · exact ⟨hmin x ⟨hx, hp⟩, Nat.lt_succ_of_le (hmax x ⟨hx, hp⟩)⟩
      · by_contra hnot
        have hxa : r a ≠ r x := fun heq => hnot (hinj a ha.1 x hx heq ▸ ha.2)
        have hxb : r x ≠ r b := fun heq => hnot (hinj x hx b hb.1 heq ▸ hb.2)
        exact h x hx hnot a ha.1 ha.2 b hb.1 hb.2 ⟨by omega, by omega⟩
    · exact ⟨0, 0, fun x hx => iff_of_false (fun hp => hsome ⟨x, hx, hp⟩) (by omega)⟩

end Peek
