/-
Sums over the cells of a store.

A store gives every address a cell, `live` is the finite set of the addresses in use, and `w`
weighs a cell.  What becomes of the sum when the store changes depends only on the addresses
that were written: a cell may be rewritten at its old weight, cut in two, put in, taken out, or
written over.
-/
import Mathlib.Algebra.BigOperators.Group.Finset.Basic

namespace CellSum

variable {ι α M : Type*} [DecidableEq ι] [AddCommMonoid M] {w : α → M} {cell cell' : ι → α}
  {live : Finset ι} {n u : ι}

/-- What the cells in use weigh together. -/
def total (w : α → M) (cell : ι → α) (live : Finset ι) : M := ∑ n ∈ live, w (cell n)

omit [DecidableEq ι] in
theorem total_congr (h : ∀ n ∈ live, w (cell' n) = w (cell n)) :
    total w cell' live = total w cell live :=
  Finset.sum_congr rfl h

theorem total_insert (hn : n ∉ live) (h : ∀ m ∈ live, w (cell' m) = w (cell m)) :
    total w cell' (insert n live) = w (cell' n) + total w cell live := by
  unfold total
  rw [Finset.sum_insert hn, Finset.sum_congr rfl h]

theorem total_erase (hn : n ∈ live) (h : ∀ m ∈ live, m ≠ n → w (cell' m) = w (cell m)) :
    w (cell n) + total w cell' (live.erase n) = total w cell live := by
  unfold total
  rw [← Finset.add_sum_erase live _ hn]
  refine congrArg (w (cell n) + ·) (Finset.sum_congr rfl fun m hm => ?_)
  exact h m (Finset.mem_of_mem_erase hm) (Finset.ne_of_mem_erase hm)

/-- Writing over one cell exchanges its weight. -/
theorem total_write (hn : n ∈ live) (h : ∀ m ∈ live, m ≠ n → w (cell' m) = w (cell m)) :
    w (cell n) + total w cell' live = w (cell' n) + total w cell live := by
  have hnew : w (cell' n) + total w cell' (live.erase n) = total w cell' live :=
    total_erase hn fun _ _ _ => rfl
  rw [← hnew, ← total_erase hn h, add_left_comm]

/-- **Cutting a cell in two loses nothing** when the halves weigh what the cell did. -/
theorem total_split (hn : n ∈ live) (hu : u ∉ live)
    (h : ∀ m ∈ live, m ≠ n → w (cell' m) = w (cell m))
    (hcut : w (cell' u) + w (cell' n) = w (cell n)) :
    total w cell' (insert u live) = total w cell live := by
  have hrest : w (cell n) + total w cell' (live.erase n) = total w cell live := total_erase hn h
  have hnew : w (cell' n) + total w cell' (live.erase n) = total w cell' live :=
    total_erase hn fun _ _ _ => rfl
  rw [total_insert hu fun _ _ => rfl, ← hnew, ← hrest, ← hcut, add_assoc]

end CellSum
