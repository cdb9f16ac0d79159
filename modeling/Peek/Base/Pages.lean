/-
A list cut into pages.

All pages have the given size except perhaps the last.  Cutting a list at a page
boundary cuts its list of pages, which is how everything a paged cache does in tokens
is read as the same thing done in pages.
-/
import Peek.Radix.Lcp

namespace Peek

open Radix

variable {α : Type}

/-- The pages of `ts`; a page size of zero makes none. -/
def pages (ps : Nat) (ts : List α) : List (List α) :=
  if _h : ts = [] ∨ ps = 0 then [] else ts.take ps :: pages ps (ts.drop ps)
termination_by ts.length
decreasing_by
  rw [not_or] at _h
  have := List.length_pos_iff.mpr _h.1
  rw [List.length_drop]
  omega

@[simp] theorem pages_nil (ps : Nat) : pages ps ([] : List α) = [] := by
  unfold pages
  rw [dif_pos (Or.inl rfl)]

section

variable {ps : Nat} (hps : 0 < ps)
include hps

theorem pages_eq_cons {ts : List α} (h : ts ≠ []) :
    pages ps ts = ts.take ps :: pages ps (ts.drop ps) := by
  conv_lhs => unfold pages
  rw [dif_neg]
  rw [not_or]
  exact ⟨h, by omega⟩

theorem pages_eq_nil_iff {ts : List α} : pages ps ts = [] ↔ ts = [] := by
  constructor
  · intro h
    by_contra hne
    rw [pages_eq_cons hps hne] at h
    simp at h
  · intro h
    rw [h, pages_nil]

theorem pages_drop : ∀ (l : Nat) (ts : List α), pages ps (ts.drop (ps * l)) = (pages ps ts).drop l := by
  intro l
  induction l with
  | zero => intro ts; simp
  | succ l ih =>
      intro ts
      by_cases hts : ts = []
      · subst hts; simp
      · rw [pages_eq_cons hps hts, List.drop_succ_cons, ← ih, List.drop_drop, Nat.mul_succ,
          Nat.add_comm]

theorem pages_take : ∀ (l : Nat) (ts : List α), pages ps (ts.take (ps * l)) = (pages ps ts).take l := by
  intro l
  induction l with
  | zero => intro ts; simp
  | succ l ih =>
      intro ts
      by_cases hts : ts = []
      · subst hts; simp
      · have hne : ts.take (ps * (l + 1)) ≠ [] := by
          rw [Ne, List.take_eq_nil_iff, not_or]
          exact ⟨Nat.mul_ne_zero (by omega) (by omega), hts⟩
        rw [pages_eq_cons hps hne, pages_eq_cons hps hts, List.take_succ_cons, List.take_take,
          List.drop_take, Nat.mul_succ, Nat.add_sub_cancel, ih,
          Nat.min_eq_left (Nat.le_add_left ps (ps * l))]

/-- A boundary short of the list's end has a page after it. -/
theorem lt_length_pages_iff {ts : List α} {l : Nat} :
    l < (pages ps ts).length ↔ ps * l < ts.length := by
  have h : (pages ps (ts.drop (ps * l))) = [] ↔ ts.drop (ps * l) = [] := pages_eq_nil_iff hps
  rw [pages_drop hps, List.drop_eq_nil_iff, List.drop_eq_nil_iff] at h
  omega

/-- The pages spell the list. -/
theorem flatten_pages (ts : List α) : (pages ps ts).flatten = ts := by
  suffices key : ∀ n, ∀ ts : List α, ts.length = n → (pages ps ts).flatten = ts from key _ ts rfl
  intro n
  induction n using Nat.strong_induction_on with
  | _ n ih =>
      intro ts hn
      by_cases hts : ts = []
      · subst hts; simp
      · have hpos := List.length_pos_iff.mpr hts
        rw [pages_eq_cons hps hts, List.flatten_cons,
          ih _ (by rw [List.length_drop]; omega) (ts.drop ps) rfl, List.take_append_drop]

theorem mem_pages_length {ts pg : List α} (h : pg ∈ pages ps ts) : pg ≠ [] ∧ pg.length ≤ ps := by
  suffices key : ∀ n, ∀ ts : List α, ts.length = n → pg ∈ pages ps ts → pg ≠ [] ∧ pg.length ≤ ps from
    key _ ts rfl h
  intro n
  induction n using Nat.strong_induction_on with
  | _ n ih =>
      intro ts hn hmem
      by_cases hts : ts = []
      · subst hts; simp at hmem
      · have hpos := List.length_pos_iff.mpr hts
        rw [pages_eq_cons hps hts] at hmem
        rcases List.mem_cons.mp hmem with rfl | hmem
        · refine ⟨?_, by rw [List.length_take]; omega⟩
          rw [Ne, List.take_eq_nil_iff, not_or]
          exact ⟨by omega, hts⟩
        · exact ih _ (by rw [List.length_drop]; omega) _ rfl hmem

/-- A list of whole pages has only whole pages. -/
theorem length_of_mem_pages : ∀ (n : Nat) (ts : List α), ts.length = ps * n →
    ∀ pg ∈ pages ps ts, pg.length = ps := by
  intro n
  induction n with
  | zero =>
      intro ts hlen pg hpg
      rw [Nat.mul_zero] at hlen
      rw [List.length_eq_zero_iff.mp hlen, pages_nil] at hpg
      simp at hpg
  | succ n ih =>
      intro ts hlen pg hpg
      rw [Nat.mul_succ] at hlen
      have hne : ts ≠ [] := List.ne_nil_of_length_pos (by omega)
      rw [pages_eq_cons hps hne] at hpg
      rcases List.mem_cons.mp hpg with rfl | hpg
      · rw [List.length_take]; omega
      · exact ih (ts.drop ps) (by rw [List.length_drop]; omega) pg hpg

end

/-- Pages of one are the elements. -/
theorem pages_one (ts : List α) : pages 1 ts = ts.map fun t => [t] := by
  induction ts with
  | nil => simp
  | cons t ts ih => rw [pages_eq_cons Nat.one_pos (by simp)]; simpa using ih

/-! ### Comparing page by page -/

variable [DecidableEq α]

/-- An injection, or anything injective on the elements present, keeps the common prefix. -/
theorem lcpLen_map {β : Type} [DecidableEq β] {f : α → β} :
    ∀ (xs ys : List α), (∀ a ∈ xs, ∀ b ∈ ys, f a = f b → a = b) →
      lcpLen (xs.map f) (ys.map f) = lcpLen xs ys := by
  intro xs
  induction xs with
  | nil => intro ys _; simp
  | cons a as ih =>
      intro ys hinj
      cases ys with
      | nil => simp
      | cons b bs =>
          simp only [List.map_cons, lcpLen_cons]
          by_cases hab : a = b
          · rw [if_pos hab, if_pos (by rw [hab]), ih bs fun x hx y hy =>
              hinj x (List.mem_cons_of_mem _ hx) y (List.mem_cons_of_mem _ hy)]
          · rw [if_neg hab, if_neg]
            intro hf
            exact hab (hinj a List.mem_cons_self b List.mem_cons_self hf)

end Peek
