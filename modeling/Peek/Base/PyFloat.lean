/-
Floating-point arithmetic.

What the schedulers compute with `float` (shares, clocks, scores) is written over any type with
these operations, and no law is asked of them.  So a result about it holds of rounded arithmetic,
and `exact` is the arithmetic of the rationals.
-/
import Mathlib.Algebra.Order.Ring.Rat

namespace Peek

/-- The operations of `float` that the schedulers use. -/
structure PyFloat (F : Type) where
  ofRat : ℚ → F
  add : F → F → F
  sub : F → F → F
  mul : F → F → F
  div : F → F → F
  le : F → F → Bool
  lt : F → F → Bool
  /-- `int(x)`, of a finite number. -/
  int : F → Int

namespace PyFloat

variable {F : Type} (f : PyFloat F)

/-- `if x:` -/
def truthy (x : F) : Bool := ! (f.le x (f.ofRat 0) && f.le (f.ofRat 0) x)

/-- `max(x, y)`; the first one, if they are equal. -/
def max (x y : F) : F := if f.lt x y then y else x

def min (x y : F) : F := if f.lt y x then y else x

/-- Exact arithmetic. -/
def exact : PyFloat ℚ where
  ofRat q := q
  add := (· + ·)
  sub := (· - ·)
  mul := (· * ·)
  div := (· / ·)
  le x y := decide (x ≤ y)
  lt x y := decide (x < y)
  int x := x.num.tdiv x.den

end PyFloat

end Peek
