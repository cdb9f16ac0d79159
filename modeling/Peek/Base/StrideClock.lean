/-
Two lanes that take turns by their clocks.

A lane with share `s` stands at `(a + 1) / s` after `a` turns, the other one at
`(b + 1) / (1 - s)`, and the lower clock is up.  `Fair` is what every turn keeps: no lane is ever
a whole turn away from its share of the turns so far, nor of those with the next one.
-/
import Mathlib.Algebra.Order.Floor.Semiring
import Mathlib.Tactic.FieldSimp
import Mathlib.Tactic.Linarith

namespace Stride

variable {K : Type*} [Field K] [LinearOrder K] [IsStrictOrderedRing K] {s : K}

/-- `a` turns out of `a + b` are the share `s`, up to one turn. -/
structure Fair (s : K) (a b : ℕ) : Prop where
  low : s * (a + b + 1) - 1 < a
  high : (a : K) ≤ s * (a + b + 1)

theorem fair_zero (hpos : 0 < s) (hlt : s < 1) : Fair s 0 0 where
  low := by
    rw [Nat.cast_zero]
    linarith
  high := by
    rw [Nat.cast_zero]
    linarith

/-- The first lane is up as long as one more turn is within its share. -/
theorem clock_le_iff (hpos : 0 < s) (hlt : s < 1) (a b : ℕ) :
    ((a : K) + 1) * (1 / s) ≤ (b + 1) * (1 / (1 - s)) ↔ (a : K) + 1 ≤ s * (a + b + 2) := by
  have hother : 0 < 1 - s := sub_pos.mpr hlt
  rw [mul_one_div, mul_one_div, div_le_div_iff₀ hpos hother]
  constructor <;> intro h <;> linarith

namespace Fair

variable {a b : ℕ}

/-- **A turn of the first lane**, when it is up. -/
theorem left (h : Fair s a b) (hlt : s < 1) (hup : (a : K) + 1 ≤ s * (a + b + 2)) :
    Fair s (a + 1) b where
  low := by
    have hlow := h.low
    rw [Nat.cast_succ]
    linarith
  high := by
    rw [Nat.cast_succ]
    linarith

/-- **A turn of the other one.** -/
theorem right (h : Fair s a b) (hpos : 0 < s) (hup : ¬ (a : K) + 1 ≤ s * (a + b + 2)) :
    Fair s a (b + 1) where
  low := by
    rw [not_le] at hup
    rw [Nat.cast_succ]
    linarith
  high := by
    have hhigh := h.high
    rw [Nat.cast_succ]
    linarith

/-- **The quota**: less than one turn away from the share of the turns so far. -/
theorem abs_sub_lt (h : Fair s a b) (hpos : 0 < s) (hlt : s < 1) :
    |(a : K) - s * (a + b : ℕ)| < 1 := by
  have hlow := h.low
  have hhigh := h.high
  rw [Nat.cast_add, abs_lt]
  constructor <;> linarith

/-- After `(p + 1) / s` turns the first lane has had more than `p`. -/
theorem lt_left (h : Fair s a b) (hpos : 0 < s) {p : ℕ}
    (hturns : ((p : K) + 1) / s ≤ (a + b : ℕ)) : p < a := by
  have hlow := h.low
  rw [div_le_iff₀ hpos, Nat.cast_add] at hturns
  have hcast : (p : K) < a := by linarith
  exact Nat.cast_lt.mp hcast

theorem lt_right (h : Fair s a b) (hlt : s < 1) {p : ℕ}
    (hturns : ((p : K) + 1) / (1 - s) ≤ (a + b : ℕ)) : p < b := by
  have hhigh := h.high
  rw [div_le_iff₀ (sub_pos.mpr hlt), Nat.cast_add] at hturns
  have hcast : (p : K) < b := by linarith
  exact Nat.cast_lt.mp hcast

end Fair

end Stride
