/-
Listing a tree depth first.

`descendants` is what a recursive walk lists that takes every child of a node and, right after
it, what hangs below that child.  In a forest it lists no node twice, and with fuel for as many
nodes as there are it leaves none out.
-/
import Peek.Base.StackWalk
import Mathlib.Data.List.Nodup

namespace DepthFirst

open StackWalk

variable {ι : Type*} {kids : ι → List ι} {S : Set ι}

/-- What hangs below `n`, children before their own children; the fuel bounds the depth. -/
def descendants (kids : ι → List ι) : Nat → ι → List ι
  | 0, _ => []
  | fuel + 1, n => (kids n).flatMap fun k => k :: descendants kids fuel k

theorem under_of_mem : ∀ {fuel : Nat} {n m : ι}, m ∈ descendants kids fuel n →
    ∃ k ∈ kids n, Under kids k m := by
  intro fuel
  induction fuel with
  | zero => intro n m h; simp [descendants] at h
  | succ fuel ih =>
      intro n m h
      rw [descendants, List.mem_flatMap] at h
      obtain ⟨k, hk, hm⟩ := h
      rcases List.mem_cons.mp hm with rfl | hm
      · exact ⟨m, hk, Under.refl m⟩
      · obtain ⟨k', hk', hu⟩ := ih hm
        exact ⟨k, hk, Under.step hk' hu⟩

/-- **No node is listed twice.** -/
theorem nodup_descendants (h : IsForest kids S) : ∀ (fuel : Nat) (n : ι), n ∈ S →
    (descendants kids fuel n).Nodup := by
  intro fuel
  induction fuel with
  | zero => intro n _; exact List.nodup_nil
  | succ fuel ih =>
      intro n hn
      rw [descendants, List.nodup_flatMap]
      refine ⟨fun k hk => ?_, (h.apart n hn).imp fun {k k'} hap m hm hm' => ?_⟩
      · rw [List.nodup_cons]
        refine ⟨fun hmem => ?_, ih k (h.closed n hn k hk)⟩
        obtain ⟨k', hk', hu⟩ := under_of_mem hmem
        exact h.acyclic k (h.closed n hn k hk) k' hk' hu
      · have hunder : ∀ {x : ι}, m ∈ x :: descendants kids fuel x → Under kids x m := by
          intro x hx
          rcases List.mem_cons.mp hx with rfl | hx
          · exact Under.refl m
          · obtain ⟨y, hy, hu⟩ := under_of_mem hx
            exact Under.step hy hu
        exact hap m (hunder hm) (hunder hm')

/-- **With fuel for all nodes there are, none is left out.** -/
theorem mem_descendants [DecidableEq ι] (h : IsForest kids S) : ∀ (fuel : Nat) (n : ι)
    (nodes : Finset ι), n ∈ S → (∀ m, Under kids n m → m ∈ nodes) → nodes.card ≤ fuel + 1 →
    ∀ m, Under kids n m → m ≠ n → m ∈ descendants kids fuel n := by
  intro fuel
  induction fuel with
  | zero =>
      intro n nodes _ hall hcard m hu hne
      have htwo := Finset.one_lt_card.mpr ⟨m, hall m hu, n, hall n (Under.refl n), hne⟩
      omega
  | succ fuel ih =>
      intro n nodes hn hall hcard m hu hne
      obtain ⟨k, hk, hu⟩ := hu.cases.resolve_left (Ne.symm hne)
      have hks := h.closed n hn k hk
      rw [descendants, List.mem_flatMap]
      refine ⟨k, hk, List.mem_cons.mpr ?_⟩
      by_cases hmk : m = k
      · exact Or.inl hmk
      · -- below the child there is everything but the node itself
        refine Or.inr (ih k (nodes.erase n) hks (fun x hx => ?_) ?_ m hu hmk)
        · refine Finset.mem_erase.mpr ⟨?_, hall x (Under.step hk hx)⟩
          rintro rfl
          exact h.acyclic x hn k hk hx
        · rw [Finset.card_erase_of_mem (hall n (Under.refl n))]
          omega

end DepthFirst
