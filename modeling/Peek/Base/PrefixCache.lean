/-
Caches that hold prefixes.

All that the callback of a dual walk promises is the length of the longest prefix some
cache holds.  Which cache is open: `PrefixCache` asks only that a cache which holds a
path holds every shorter one, as any cache laid out as a tree of prefixes does.
-/
import Mathlib.Data.Nat.Find
import Mathlib.Data.List.Infix
import Mathlib.Data.List.TakeDrop

namespace Peek

/-- A prefix-closed set of paths, which holds at least the empty one. -/
structure PrefixCache (α : Type) where
  holds : List α → Bool
  nil : holds [] = true
  closed : ∀ p q, p <+: q → holds q = true → holds p = true

namespace PrefixCache

variable {α : Type} (c : PrefixCache α)

/-- The length of the longest prefix of `ts` the cache holds. -/
def matchLen (ts : List α) : Nat :=
  Nat.findGreatest (fun k => c.holds (ts.take k) = true) ts.length

theorem matchLen_le (ts : List α) : c.matchLen ts ≤ ts.length :=
  Nat.findGreatest_le _

theorem holds_take_matchLen (ts : List α) : c.holds (ts.take (c.matchLen ts)) = true :=
  Nat.findGreatest_spec (P := fun k => c.holds (ts.take k) = true) (Nat.zero_le _) c.nil

/-- **What the match length is**: a cut of `ts` is held just when it is no longer than that. -/
theorem holds_take_iff {ts : List α} {k : Nat} (hk : k ≤ ts.length) :
    c.holds (ts.take k) = true ↔ k ≤ c.matchLen ts := by
  constructor
  · intro h
    exact Nat.le_findGreatest hk h
  · intro h
    exact c.closed _ _ (List.take_prefix_take_left h) (c.holds_take_matchLen ts)

theorem holds_prefix_iff {p ts : List α} (hp : p <+: ts) :
    c.holds p = true ↔ p.length ≤ c.matchLen ts := by
  rw [← c.holds_take_iff hp.length_le, ← List.prefix_iff_eq_take.mp hp]

/-- Where the cache breaks off within `p`, it breaks off there for everything past `p`. -/
theorem matchLen_of_prefix {p ts : List α} (hp : p <+: ts) (hlt : c.matchLen p < p.length) :
    c.matchLen ts = c.matchLen p := by
  have hcut : ∀ k, k ≤ p.length → ts.take k = p.take k := by
    intro k hk
    obtain ⟨rest, rfl⟩ := hp
    exact List.take_append_of_le_length hk
  have hle := hp.length_le
  refine Nat.le_antisymm ?_ ?_
  · by_contra hc
    have h1 : c.holds (ts.take (c.matchLen p + 1)) = true :=
      (c.holds_take_iff (by omega)).mpr (by omega)
    rw [hcut _ (by omega)] at h1
    have := (c.holds_take_iff (by omega)).mp h1
    omega
  · refine (c.holds_take_iff (by omega)).mp ?_
    rw [hcut _ (c.matchLen_le p)]
    exact c.holds_take_matchLen p

end PrefixCache

end Peek
