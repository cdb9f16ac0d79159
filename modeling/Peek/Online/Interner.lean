/-
Request ids as integers (`python/peek/online/engines/*/patch_hook.py`).

Peek's tree speaks integers and the engines speak strings, so both hooks keep a table
each way and a counter that never rewinds.  That the tables are inverse to each other,
and that no id is above the counter, are fields: every table that can be built is so.
-/
import Peek.Pending.Tree
import Peek.Sglang.SchedulePolicy

namespace Peek

structure Interner where
  ridInterner : Map ReqId Rid
  ridUnintern : Map Rid ReqId
  counter : Nat
  inverse : ∀ ridStr ridInt,
    ridInterner.lookup ridStr = some ridInt ↔ ridUnintern.lookup ridInt = some ridStr
  bound : ∀ ridStr ridInt, ridInterner.lookup ridStr = some ridInt → ridInt ≤ counter

namespace Interner

def new : Interner :=
  { ridInterner := ∅, ridUnintern := ∅, counter := 0
    inverse := by simp
    bound := by simp }

theorem injective (n : Interner) {a b : ReqId} {i : Rid} (ha : n.ridInterner.lookup a = some i)
    (hb : n.ridInterner.lookup b = some i) : a = b := by
  have ha := (n.inverse a i).mp ha
  have hb := (n.inverse b i).mp hb
  rw [ha] at hb
  exact Option.some.inj hb

/-- A new id for a rid that has none, with its entries in both tables. -/
def add (n : Interner) (ridStr : ReqId) (h : n.ridInterner.lookup ridStr = none) : Interner where
  ridInterner := n.ridInterner.insert ridStr (n.counter + 1)
  ridUnintern := n.ridUnintern.insert (n.counter + 1) ridStr
  counter := n.counter + 1
  inverse x i := by
    have hfresh : ∀ y, n.ridInterner.lookup y ≠ some (n.counter + 1) := fun y hy =>
      absurd (n.bound y _ hy) (Nat.not_succ_le_self _)
    rw [Map.lookup_insert_of, Map.lookup_insert_of]
    by_cases hx : x = ridStr <;> by_cases hi : i = n.counter + 1
    · rw [if_pos hx, if_pos hi, hx, hi]; simp
    · rw [if_pos hx, if_neg hi, ← n.inverse, hx, h]
      simp [Ne.symm hi]
    · rw [if_neg hx, if_pos hi, hi]
      simp [hfresh x, Ne.symm hx]
    · rw [if_neg hx, if_neg hi]; exact n.inverse x i
  bound x i hxi := by
    rw [Map.lookup_insert_of] at hxi
    by_cases hx : x = ridStr
    · rw [if_pos hx, Option.some.injEq] at hxi
      exact Nat.le_of_eq hxi.symm
    · rw [if_neg hx] at hxi
      exact Nat.le_succ_of_le (n.bound x i hxi)

/-- `_intern` -/
def intern (n : Interner) (ridStr : ReqId) : Rid × Interner :=
  match h : n.ridInterner.lookup ridStr with
  | some ridInt => (ridInt, n)
  | none => (n.counter + 1, n.add ridStr h)

/-- Take a pair out of both tables. -/
def drop (n : Interner) (ridStr : ReqId) (ridInt : Rid)
    (h : n.ridUnintern.lookup ridInt = some ridStr) : Interner where
  ridInterner := n.ridInterner.erase ridStr
  ridUnintern := n.ridUnintern.erase ridInt
  counter := n.counter
  inverse x i := by
    rw [Map.lookup_erase_of, Map.lookup_erase_of]
    by_cases hx : x = ridStr <;> by_cases hi : i = ridInt
    · rw [if_pos hx, if_pos hi]; simp
    · rw [if_pos hx, if_neg hi, ← n.inverse, hx, (n.inverse _ _).mpr h]
      simp [Ne.symm hi]
    · rw [if_neg hx, if_pos hi, n.inverse, hi, h]
      simp [Ne.symm hx]
    · rw [if_neg hx, if_neg hi]; exact n.inverse x i
  bound x i hxi := by
    rw [Map.lookup_erase_of] at hxi
    by_cases hx : x = ridStr
    · rw [if_pos hx] at hxi; simp at hxi
    · rw [if_neg hx] at hxi; exact n.bound x i hxi

/-- `_forget_rid`: drop a departed rid's entries. -/
def forget (n : Interner) (ridInt : Rid) : Interner :=
  match h : n.ridUnintern.lookup ridInt with
  | some ridStr => n.drop ridStr ridInt h
  | none => n

/-! ### Lookups -/

theorem intern_of_some {n : Interner} {ridStr : ReqId} {ridInt : Rid}
    (h : n.ridInterner.lookup ridStr = some ridInt) : n.intern ridStr = (ridInt, n) := by
  unfold intern
  split
  · rename_i i hi
    rw [h, Option.some.injEq] at hi
    rw [hi]
  · rename_i hi
    rw [h] at hi
    simp at hi

theorem intern_of_none {n : Interner} {ridStr : ReqId} (h : n.ridInterner.lookup ridStr = none) :
    n.intern ridStr = (n.counter + 1, n.add ridStr h) := by
  unfold intern
  split
  · rename_i i hi
    rw [h] at hi
    simp at hi
  · rfl

/-- Interning gives the rid its id, and leaves the others theirs. -/
theorem lookup_intern (n : Interner) (ridStr x : ReqId) :
    (n.intern ridStr).2.ridInterner.lookup x =
      if x = ridStr then some (n.intern ridStr).1 else n.ridInterner.lookup x := by
  cases h : n.ridInterner.lookup ridStr with
  | some i =>
      rw [intern_of_some h]
      by_cases hx : x = ridStr
      · rw [if_pos hx, hx, h]
      · rw [if_neg hx]
  | none =>
      rw [intern_of_none h]
      exact Map.lookup_insert_of _ _ _ _

theorem counter_le_intern (n : Interner) (ridStr : ReqId) :
    n.counter ≤ (n.intern ridStr).2.counter := by
  cases h : n.ridInterner.lookup ridStr with
  | some i => rw [intern_of_some h]
  | none => rw [intern_of_none h]; exact Nat.le_succ _

theorem forget_of_some {n : Interner} {ridStr : ReqId} {ridInt : Rid}
    (h : n.ridUnintern.lookup ridInt = some ridStr) :
    n.forget ridInt = n.drop ridStr ridInt h := by
  unfold forget
  split
  · rename_i x hx
    rw [h, Option.some.injEq] at hx
    subst hx
    rfl
  · rename_i hx
    rw [h] at hx
    simp at hx

theorem forget_of_none {n : Interner} {ridInt : Rid} (h : n.ridUnintern.lookup ridInt = none) :
    n.forget ridInt = n := by
  unfold forget
  split
  · rename_i x hx
    rw [h] at hx
    simp at hx
  · rfl

/-- Forgetting an id takes out the rid that has it, and no other. -/
theorem lookup_forget (n : Interner) (ridInt : Rid) (x : ReqId) :
    (n.forget ridInt).ridInterner.lookup x =
      if n.ridInterner.lookup x = some ridInt then none else n.ridInterner.lookup x := by
  cases h : n.ridUnintern.lookup ridInt with
  | some ridStr =>
      rw [forget_of_some h]
      have hiff : n.ridInterner.lookup x = some ridInt ↔ x = ridStr := by
        rw [n.inverse, h, Option.some.injEq, eq_comm]
      show (n.ridInterner.erase ridStr).lookup x = _
      rw [Map.lookup_erase_of]
      by_cases hx : x = ridStr
      · rw [if_pos hx, if_pos (hiff.mpr hx)]
      · rw [if_neg hx, if_neg fun hc => hx (hiff.mp hc)]
  | none =>
      rw [forget_of_none h, if_neg]
      rw [n.inverse, h]
      simp

theorem counter_forget (n : Interner) (ridInt : Rid) :
    (n.forget ridInt).counter = n.counter := by
  cases h : n.ridUnintern.lookup ridInt with
  | some ridStr => rw [forget_of_some h]; rfl
  | none => rw [forget_of_none h]

end Interner

end Peek
