/-
What a row of cells holds.

`Reads mem row xs` says that the cells of `row`, read in turn, hold `xs`.  Rows are cut and put
together like lists; writing the cells of one row leaves the rows apart from it as they were.
-/
import Mathlib.Data.List.Nodup
import Mathlib.Logic.Function.Basic

namespace Cells

variable {ι α : Type*} {mem mem' : ι → Option α} {row row' : List ι} {xs ys : List α}

/-- The cells of `row` hold `xs`. -/
def Reads (mem : ι → Option α) (row : List ι) (xs : List α) : Prop :=
  row.map mem = xs.map some

theorem reads_nil (mem : ι → Option α) : Reads mem [] [] := rfl

namespace Reads

theorem length_eq (h : Reads mem row xs) : row.length = xs.length := by
  have hlen := congrArg List.length h
  rwa [List.length_map, List.length_map] at hlen

theorem take (h : Reads mem row xs) (n : Nat) : Reads mem (row.take n) (xs.take n) := by
  unfold Reads
  rw [List.map_take, List.map_take, h]

theorem drop (h : Reads mem row xs) (n : Nat) : Reads mem (row.drop n) (xs.drop n) := by
  unfold Reads
  rw [List.map_drop, List.map_drop, h]

theorem append (h : Reads mem row xs) (h' : Reads mem row' ys) :
    Reads mem (row ++ row') (xs ++ ys) := by
  unfold Reads
  rw [List.map_append, List.map_append, h, h']

/-- A row that begins another holds what that one begins with. -/
theorem of_prefix (h : Reads mem row xs) (hpre : row' <+: row) :
    Reads mem row' (xs.take row'.length) := by
  have htake := h.take row'.length
  rwa [← List.prefix_iff_eq_take.mp hpre] at htake

/-- What is held is as long as the row. -/
theorem of_take {n : Nat} (h : Reads mem row (xs.take n)) : Reads mem row (xs.take row.length) := by
  rwa [h.length_eq, List.length_take, ← List.take_eq_take_min]

/-- Only the cells of the row matter. -/
theorem congr (h : Reads mem row xs) (hmem : ∀ i ∈ row, mem' i = mem i) : Reads mem' row xs :=
  (List.map_congr_left hmem).trans h

theorem getElem? (h : Reads mem row xs) (j : Nat) :
    (row[j]?).map mem = (xs[j]?).map some := by
  have hat := congrArg (·[j]?) h
  simpa only [List.getElem?_map] using hat

end Reads

/-! ### Writing -/

section

variable [DecidableEq ι]

/-- Write the cells of a row. -/
def write (mem : ι → Option α) : List ι → List α → ι → Option α
  | i :: is, x :: xs => Function.update (write mem is xs) i (some x)
  | _, _ => mem

/-- Other cells are left alone. -/
theorem write_of_notMem : ∀ {is : List ι} {xs : List α} {j : ι}, j ∉ is →
    write mem is xs j = mem j := by
  intro is
  induction is with
  | nil => intro xs j _; rfl
  | cons i is ih =>
      intro xs j hj
      cases xs with
      | nil => rfl
      | cons x xs =>
          rw [List.mem_cons, not_or] at hj
          rw [write, Function.update_of_ne hj.1]
          exact ih hj.2

/-- **What was written is read.** -/
theorem reads_write : ∀ {is : List ι} {xs : List α}, is.Nodup → is.length = xs.length →
    Reads (write mem is xs) is xs := by
  intro is
  induction is with
  | nil =>
      intro xs _ hlen
      rw [List.length_eq_zero_iff.mp hlen.symm]
      exact reads_nil _
  | cons i is ih =>
      intro xs hnd hlen
      cases xs with
      | nil => simp at hlen
      | cons x xs =>
          rw [List.nodup_cons] at hnd
          have hrest : Reads (write mem (i :: is) (x :: xs)) is xs := by
            refine (ih hnd.2 (Nat.succ.inj hlen)).congr fun j hj => ?_
            exact Function.update_of_ne (ne_of_mem_of_not_mem hj hnd.1) _ _
          exact List.cons_eq_cons.mpr ⟨Function.update_self i _ _, hrest⟩

end

end Cells
