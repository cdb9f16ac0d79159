/-
Dictionaries of counts.

A count is bumped by writing one more, and dropped by writing one less or, at zero, by
taking the key out.  A dictionary kept that way has no entry for what is not counted:
`Counts` says so, and says what the other entries are.
-/
import Peek.Base.Map
import Mathlib.Logic.Function.Basic

namespace Peek

variable {κ : Type} [DecidableEq κ]

/-- `m` has the count of every key that is counted at all, and no other entry. -/
def Counts (m : Map κ Int) (t : κ → Nat) : Prop :=
  ∀ k, m.lookup k = if t k = 0 then none else some (t k : Int)

namespace Counts

variable {m : Map κ Int} {t : κ → Nat}

theorem empty : Counts (∅ : Map κ Int) fun _ => 0 := fun k => by simp

theorem congr {t' : κ → Nat} (h : Counts m t) (ht : ∀ k, t' k = t k) : Counts m t' := fun k => by
  rw [ht]; exact h k

/-- What `get(k, 0)` reads. -/
theorem getD (h : Counts m t) (k : κ) : (m.lookup k).getD 0 = t k := by
  rw [h]
  by_cases hk : t k = 0
  · rw [if_pos hk, hk]; rfl
  · rw [if_neg hk]; rfl

theorem mem_iff (h : Counts m t) {k : κ} : (m.lookup k).isSome ↔ 0 < t k := by
  rw [h]
  by_cases hk : t k = 0
  · rw [if_pos hk]; simp [hk]
  · rw [if_neg hk]; simp [Nat.pos_of_ne_zero hk]

/-- One more. -/
theorem bump (h : Counts m t) (k : κ) :
    Counts (m.insert k ((m.lookup k).getD 0 + 1)) (Function.update t k (t k + 1)) := by
  intro x
  rw [Map.lookup_insert_of, h.getD]
  by_cases hx : x = k
  · subst hx
    rw [if_pos rfl, Function.update_self, if_neg (Nat.succ_ne_zero _)]
    push_cast
    rfl
  · rw [if_neg hx, Function.update_of_ne hx]
    exact h x

/-- One less, when some are left. -/
theorem drop (h : Counts m t) {k : κ} (hk : 0 < (m.lookup k).getD 0 - 1) :
    Counts (m.insert k ((m.lookup k).getD 0 - 1)) (Function.update t k (t k - 1)) := by
  rw [h.getD] at hk ⊢
  intro x
  rw [Map.lookup_insert_of]
  by_cases hx : x = k
  · subst hx
    rw [if_pos rfl, Function.update_self, if_neg (by omega), Option.some.injEq]
    omega
  · rw [if_neg hx, Function.update_of_ne hx]
    exact h x

/-- One less, when none is left. -/
theorem erase (h : Counts m t) {k : κ} (hk : (m.lookup k).getD 0 - 1 ≤ 0) :
    Counts (m.erase k) (Function.update t k (t k - 1)) := by
  rw [h.getD] at hk
  intro x
  rw [Map.lookup_erase_of]
  by_cases hx : x = k
  · subst hx
    rw [if_pos rfl, Function.update_self, if_pos (by omega)]
  · rw [if_neg hx, Function.update_of_ne hx]
    exact h x

end Counts

end Peek
