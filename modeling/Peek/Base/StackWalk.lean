/-
Walking a tree with a stack.

`visited` lists what a loop pops that pushes the children of every node it pops.  In a tree
it pops no node twice, so it pops no more nodes than there are; and what it leaves out when
the fuel is used up is nothing, if there was fuel for all of them (`mem_visited_iff`).

Where a size falls from a node to its children taken together, fuel for the size of the stack
is enough, and the walk lists one subtree after the other (`Sized.visited_eq`).
-/
import Mathlib.Algebra.BigOperators.Group.List.Basic
import Mathlib.Algebra.GroupWithZero.Nat
import Mathlib.Data.Finset.Card
import Mathlib.Logic.Relation

namespace StackWalk

variable {ι : Type*} {kids : ι → List ι} {S : Set ι}

/-- What the loop pops, in this order. -/
def visited (kids : ι → List ι) : Nat → List ι → List ι
  | 0, _ => []
  | _ + 1, [] => []
  | fuel + 1, n :: stack => n :: visited kids fuel (kids n ++ stack)

/-- `m` is `n` or hangs somewhere below it. -/
def Under (kids : ι → List ι) (n m : ι) : Prop := Relation.ReflTransGen (fun n k => k ∈ kids n) n m

theorem Under.refl (n : ι) : Under kids n n := Relation.ReflTransGen.refl

theorem Under.step {n k m : ι} (hk : k ∈ kids n) (h : Under kids k m) : Under kids n m :=
  Relation.ReflTransGen.head hk h

theorem Under.cases {n m : ι} (h : Under kids n m) : n = m ∨ ∃ k ∈ kids n, Under kids k m :=
  Relation.ReflTransGen.cases_head h

/-- Nothing hangs below both. -/
def Apart (kids : ι → List ι) (n n' : ι) : Prop := ∀ m, Under kids n m → ¬ Under kids n' m

/-- From the nodes of `S` down, the children form a forest. -/
structure IsForest (kids : ι → List ι) (S : Set ι) : Prop where
  closed : ∀ n ∈ S, ∀ k ∈ kids n, k ∈ S
  apart : ∀ n ∈ S, (kids n).Pairwise (Apart kids)
  acyclic : ∀ n ∈ S, ∀ k ∈ kids n, ¬ Under kids k n

theorem under_of_mem_visited : ∀ {fuel : Nat} {stack : List ι} {m : ι},
    m ∈ visited kids fuel stack → ∃ n ∈ stack, Under kids n m := by
  intro fuel
  induction fuel with
  | zero => intro stack m h; simp [visited] at h
  | succ fuel ih =>
      intro stack m h
      cases stack with
      | nil => simp [visited] at h
      | cons n stack =>
          rw [visited, List.mem_cons] at h
          rcases h with rfl | h
          · exact ⟨m, List.mem_cons_self, Under.refl m⟩
          · obtain ⟨k, hk, hu⟩ := ih h
            rcases List.mem_append.mp hk with hk | hk
            · exact ⟨n, List.mem_cons_self, Under.step hk hu⟩
            · exact ⟨k, List.mem_cons_of_mem _ hk, hu⟩

/-- The children of the popped node stay apart from the rest of the stack. -/
theorem IsForest.pairwise_push (h : IsForest kids S) {n : ι} {stack : List ι} (hn : n ∈ S)
    (hp : (n :: stack).Pairwise (Apart kids)) : (kids n ++ stack).Pairwise (Apart kids) := by
  rw [List.pairwise_cons] at hp
  rw [List.pairwise_append]
  refine ⟨h.apart n hn, hp.2, fun k hk n' hn' m hm => ?_⟩
  exact hp.1 n' hn' m (Under.step hk hm)

/-- **No node is popped twice.** -/
theorem IsForest.nodup_visited (h : IsForest kids S) : ∀ (fuel : Nat) (stack : List ι),
    (∀ n ∈ stack, n ∈ S) → stack.Pairwise (Apart kids) → (visited kids fuel stack).Nodup := by
  intro fuel
  induction fuel with
  | zero => intro stack _ _; exact List.nodup_nil
  | succ fuel ih =>
      intro stack hS hp
      cases stack with
      | nil => exact List.nodup_nil
      | cons n stack =>
          have hn := hS n List.mem_cons_self
          have hpush := h.pairwise_push hn hp
          have hS' : ∀ k ∈ kids n ++ stack, k ∈ S := by
            intro k hk
            rcases List.mem_append.mp hk with hk | hk
            · exact h.closed n hn k hk
            · exact hS k (List.mem_cons_of_mem _ hk)
          rw [visited, List.nodup_cons]
          refine ⟨fun hmem => ?_, ih _ hS' hpush⟩
          obtain ⟨k, hk, hu⟩ := under_of_mem_visited hmem
          rcases List.mem_append.mp hk with hk | hk
          · exact h.acyclic n hn k hk hu
          · exact (List.pairwise_cons.mp hp).1 k hk n (Under.refl n) hu

theorem IsForest.mem_of_under (h : IsForest kids S) {n m : ι} (hu : Under kids n m) (hn : n ∈ S) :
    m ∈ S := by
  induction hu with
  | refl => exact hn
  | tail _ hk ih => exact h.closed _ ih _ hk

/-- A walk that did not use up its fuel has seen everything. -/
theorem mem_visited_of_lt : ∀ {fuel : Nat} {stack : List ι},
    (visited kids fuel stack).length < fuel → ∀ {n m : ι}, n ∈ stack → Under kids n m →
      m ∈ visited kids fuel stack := by
  intro fuel
  induction fuel with
  | zero => intro stack h; exact absurd h (Nat.not_lt_zero _)
  | succ fuel ih =>
      intro stack h n m hn hu
      cases stack with
      | nil => simp at hn
      | cons n0 stack =>
          rw [visited, List.length_cons] at h
          have hlt := Nat.lt_of_succ_lt_succ h
          rw [visited, List.mem_cons]
          rcases List.mem_cons.mp hn with rfl | hn
          · rcases hu.cases with rfl | ⟨k, hk, hu⟩
            · exact Or.inl rfl
            · exact Or.inr (ih hlt (List.mem_append_left _ hk) hu)
          · exact Or.inr (ih hlt (List.mem_append_right _ hn) hu)

/-- **With fuel for every node there is, the walk sees what hangs below its start.** -/
theorem IsForest.mem_visited_iff [DecidableEq ι] (h : IsForest kids S) (nodes : Finset ι)
    (hnodes : ∀ n ∈ S, n ∈ nodes) {root : ι} (hroot : root ∈ S) {fuel : Nat}
    (hfuel : nodes.card ≤ fuel) (m : ι) : m ∈ visited kids fuel [root] ↔ Under kids root m := by
  constructor
  · intro hm
    obtain ⟨n, hn, hu⟩ := under_of_mem_visited hm
    rwa [List.mem_singleton.mp hn] at hu
  · intro hu
    by_cases hlt : (visited kids fuel [root]).length < fuel
    · exact mem_visited_of_lt hlt List.mem_cons_self hu
    · -- the fuel is used up, so every node there is was popped
      have hsub : (visited kids fuel [root]).toFinset ⊆ nodes := by
        intro n hn
        obtain ⟨r, hr, hun⟩ := under_of_mem_visited (List.mem_toFinset.mp hn)
        rw [List.mem_singleton.mp hr] at hun
        exact hnodes n (h.mem_of_under hun hroot)
      have hnd := h.nodup_visited fuel [root] (by simpa using hroot) (List.pairwise_singleton _ _)
      have hall : (visited kids fuel [root]).toFinset = nodes := by
        refine Finset.eq_of_subset_of_card_le hsub ?_
        rw [List.toFinset_card_of_nodup hnd]
        omega
      rw [← List.mem_toFinset, hall]
      exact hnodes m (h.mem_of_under hu hroot)

/-! ### Trees with sizes -/

/-- A node is larger than its children taken together. -/
def Sized (kids : ι → List ι) (size : ι → Nat) : Prop := ∀ n, ((kids n).map size).sum < size n

/-- The nodes of a tree from `n` down, a node before its children and they in their order. -/
def preorder (kids : ι → List ι) (size : ι → Nat) (n : ι) : List ι := visited kids (size n) [n]

variable {size : ι → Nat}

/-- **With fuel for the whole stack, one subtree is listed after the other.** -/
theorem Sized.visited_eq (h : Sized kids size) : ∀ (fuel : Nat) (stack : List ι),
    (stack.map size).sum ≤ fuel → visited kids fuel stack = stack.flatMap (preorder kids size) := by
  intro fuel
  induction fuel using Nat.strong_induction_on with
  | _ fuel ih =>
      intro stack hsum
      cases stack with
      | nil => cases fuel <;> rfl
      | cons n stack =>
          have hn := h n
          rw [List.map_cons, List.sum_cons] at hsum
          obtain ⟨fuel, rfl⟩ : ∃ k, fuel = k + 1 := ⟨fuel - 1, by omega⟩
          obtain ⟨s, hs⟩ : ∃ s, size n = s + 1 := ⟨size n - 1, by omega⟩
          have hpre : preorder kids size n = n :: (kids n).flatMap (preorder kids size) := by
            unfold preorder
            rw [hs, visited, List.append_nil, ih s (by omega) (kids n) (by omega)]
            rfl
          rw [visited, ih fuel (Nat.lt_succ_self _), List.flatMap_append, List.flatMap_cons, hpre]
          · rfl
          · rw [List.map_append, List.sum_append]
            omega

theorem Sized.preorder_eq (h : Sized kids size) (n : ι) :
    preorder kids size n = n :: (kids n).flatMap (preorder kids size) := by
  have hn := h n
  obtain ⟨s, hs⟩ : ∃ s, size n = s + 1 := ⟨size n - 1, by omega⟩
  show visited kids (size n) [n] = _
  rw [hs, visited, List.append_nil, h.visited_eq s (kids n) (by omega)]

end StackWalk
