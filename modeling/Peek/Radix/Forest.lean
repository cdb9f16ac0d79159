/-
The nodes of a labelled heap, as a stack walk sees them.

A loop that pops a node and pushes its children goes by a list of children.  Whatever order
the list has them in, what hangs under a node in it is what hangs below the node in the heap,
and the children form a forest.
-/
import Peek.Base.StackWalk
import Peek.Radix.Heap

namespace Radix

open StackWalk

variable {ι α : Type*} {H : Heap ι α} {kids : ι → List ι}

/-- The lists hold the children of the heap. -/
def ListsKids (H : Heap ι α) (kids : ι → List ι) : Prop :=
  ∀ n k, k ∈ kids n ↔ ∃ a, H.kid n a = some k

theorem under_iff_below (hkids : ListsKids H kids) {n m : ι} : Under kids n m ↔ Below H n m := by
  constructor
  · intro h
    induction h using Relation.ReflTransGen.head_induction_on with
    | refl => exact Below.refl m
    | head hk _ ih =>
        obtain ⟨a, hk⟩ := (hkids _ _).mp hk
        exact Below.step hk ih
  · intro h
    induction h with
    | refl n => exact Under.refl n
    | step hkid _ ih => exact Under.step ((hkids _ _).mpr ⟨_, hkid⟩) ih

/-- **The children under different keys are apart.** -/
theorem Labelled.isForest {live : Set ι} {rp : ι → List α} (h : Labelled H live rp)
    (hkids : ListsKids H kids) (hnd : ∀ n ∈ live, (kids n).Nodup) : IsForest kids live where
  closed n hn k hk := by
    obtain ⟨a, hk⟩ := (hkids n k).mp hk
    exact h.kidLive hn hk
  apart n hn := by
    refine (hnd n hn).imp_of_mem fun {k k'} hk hk' hne m hm hm' => hne ?_
    obtain ⟨a, hk⟩ := (hkids n k).mp hk
    obtain ⟨a', hk'⟩ := (hkids n k').mp hk'
    exact h.kids_disjoint hn hk hk' ((under_iff_below hkids).mp hm)
      ((under_iff_below hkids).mp hm')
  acyclic n hn k hk hu := by
    obtain ⟨a, hk⟩ := (hkids n k).mp hk
    have hle := (h.below_prefix (h.kidLive hn hk) ((under_iff_below hkids).mp hu)).length_le
    exact absurd hle (Nat.not_le_of_lt (h.kid_length_lt hn hk))

end Radix
