/-
What is filed under the nodes of a tree, listed children first.

`postorder` lists what is filed below every child of a node, one child after the other, and then
what is filed under the node itself.  In a forest everything comes once (`perm_postorder`), what
is filed at or below one node stands together (`contiguous_postorder`), and the order of any two
is known from where they are filed (`pairwise_postorder`).  `sum_subtree` is the sum that a walk
takes on its way back up.
-/
import Peek.Base.Contiguous
import Peek.Base.DepthFirst
import Mathlib.Algebra.BigOperators.Group.Finset.Basic

namespace DepthFirst

open StackWalk Peek

section

variable {ι α : Type} {kids : ι → List ι} {items : ι → List α} {S : Set ι} {home : α → ι}

/-- What is filed below the children of `n`, then what is filed under `n`. -/
def postorder (kids : ι → List ι) (items : ι → List α) : Nat → ι → List α
  | 0, _ => []
  | fuel + 1, n => (kids n).flatMap (postorder kids items fuel) ++ items n

/-- **All that is filed is listed once.** -/
theorem perm_postorder (kids : ι → List ι) (items : ι → List α) : ∀ (fuel : Nat) (n : ι),
    (postorder kids items (fuel + 1) n).Perm ((n :: descendants kids fuel n).flatMap items) := by
  intro fuel
  induction fuel with
  | zero =>
      intro n
      have hnone : (kids n).flatMap (postorder kids items 0) = [] := by simp [postorder]
      rw [postorder, hnone, descendants, List.flatMap_cons]
      simp
  | succ fuel ih =>
      intro n
      rw [postorder, descendants, List.flatMap_cons, List.flatMap_assoc]
      refine List.perm_append_comm.trans (List.Perm.append_left _ ?_)
      exact List.Perm.flatMap_left _ fun k _ => ih k

theorem under_of_mem_postorder (hhome : ∀ n, ∀ x ∈ items n, home x = n) : ∀ {fuel : Nat} {n : ι}
    {x : α}, x ∈ postorder kids items fuel n → Under kids n (home x) := by
  intro fuel
  induction fuel with
  | zero => intro n x hx; simp [postorder] at hx
  | succ fuel ih =>
      intro n x hx
      rw [postorder, List.mem_append, List.mem_flatMap] at hx
      rcases hx with ⟨k, hk, hx⟩ | hx
      · exact Under.step hk (ih hx)
      · rw [hhome n x hx]
        exact Under.refl n

/-- What is filed at or below `m` is listed before what is filed at or below `m'`. -/
def Precedes (kids : ι → List ι) (S : Set ι) (R : ι → ι → Prop) (m m' : ι) : Prop :=
  (m ≠ m' ∧ Under kids m' m) ∨
    ∃ n ∈ S, ∃ k ∈ kids n, ∃ k' ∈ kids n, R k k' ∧ Under kids k m ∧ Under kids k' m'

/--
**The order of two.**  Of any two that are listed one after the other, both are filed under one
node, in its order; or the first is filed below the second; or two children part them, in the
order these have.
-/
theorem pairwise_postorder (h : IsForest kids S) {R : ι → ι → Prop} {Q : α → α → Prop}
    (hR : ∀ n ∈ S, (kids n).Pairwise R) (hhome : ∀ n, ∀ x ∈ items n, home x = n)
    (hQ : ∀ n, (items n).Pairwise Q) : ∀ (fuel : Nat) (n : ι), n ∈ S →
    (postorder kids items fuel n).Pairwise fun x y =>
      (home x = home y ∧ Q x y) ∨ Precedes kids S R (home x) (home y) := by
  intro fuel
  induction fuel with
  | zero => intro n _; exact List.Pairwise.nil
  | succ fuel ih =>
      intro n hn
      rw [postorder, List.pairwise_append, List.pairwise_flatMap]
      refine ⟨⟨fun k hk => ih k (h.closed n hn k hk), ?_⟩, ?_, fun x hx y hy => ?_⟩
      · -- below two children
        refine (hR n hn).imp_of_mem fun {k k'} hk hk' hr x hx y hy => Or.inr (Or.inr ?_)
        exact ⟨n, hn, k, hk, k', hk', hr, under_of_mem_postorder hhome hx,
          under_of_mem_postorder hhome hy⟩
      · refine (hQ n).imp_of_mem fun {x y} hx hy hq => Or.inl ⟨?_, hq⟩
        rw [hhome n x hx, hhome n y hy]
      · -- below a child, and under the node itself
        obtain ⟨k, hk, hx⟩ := List.mem_flatMap.mp hx
        have hu := under_of_mem_postorder hhome hx
        rw [hhome n y hy]
        refine Or.inr (Or.inl ⟨fun heq => ?_, Under.step hk hu⟩)
        exact h.acyclic n hn k hk (heq ▸ hu)

theorem nodup_kids (h : IsForest kids S) {n : ι} (hn : n ∈ S) : (kids n).Nodup := by
  refine (h.apart n hn).imp fun {k k'} hap => ?_
  rintro rfl
  exact hap k (Under.refl k) (Under.refl k)

/-- What is below one child is below no other. -/
theorem kid_unique (h : IsForest kids S) {n k k' m : ι} (hn : n ∈ S) (hk : k ∈ kids n)
    (hk' : k' ∈ kids n) (hu : Under kids k m) (hu' : Under kids k' m) : k = k' := by
  have : Std.Symm (Apart kids) := ⟨fun _ _ hap m hm hm' => hap m hm' hm⟩
  by_contra hne
  exact (h.apart n hn).forall hk hk' hne m hu hu'

/-- **What is filed at or below one node stands together.** -/
theorem contiguous_postorder (h : IsForest kids S) (hhome : ∀ n, ∀ x ∈ items n, home x = n) :
    ∀ (fuel : Nat) (n m : ι), n ∈ S → Under kids n m →
      Contiguous (fun x => Under kids m (home x)) (postorder kids items fuel n) := by
  intro fuel
  induction fuel with
  | zero => intro n m _ _; exact contiguous_of_none fun x hx => by simp [postorder] at hx
  | succ fuel ih =>
      intro n m hn hu
      rcases hu.cases with rfl | ⟨k, hk, hu⟩
      · exact ⟨[], postorder kids items (fuel + 1) n, [], by simp,
          fun x hx => under_of_mem_postorder hhome hx, by simp, by simp⟩
      · -- one child has `m` at or below it, and nothing else has
        obtain ⟨pre, mid, post, heq, hmid, hpre, hpost⟩ :=
          contiguous_flatMap_of_one (nodup_kids h hn) hk (ih k m (h.closed n hn k hk) hu)
            fun k' hk' hne x hx hmx => hne (kid_unique h hn hk' hk
              (under_of_mem_postorder hhome hx) (hu.trans hmx))
        refine ⟨pre, mid, post ++ items n, by rw [postorder, heq]; simp, hmid, hpre, ?_⟩
        intro x hx
        rcases List.mem_append.mp hx with hx | hx
        · exact hpost x hx
        · show ¬ Under kids m (home x)
          rw [hhome n x hx]
          exact fun hmn => h.acyclic n hn k hk (hu.trans hmn)

end

/-! ### Sums over what hangs below -/

section

variable {ι M : Type} [DecidableEq ι] [AddCommMonoid M] {kids : ι → List ι} {S : Set ι}
  {nodes : Finset ι} {n : ι}

open Classical in
/-- `n` and what hangs below it. -/
noncomputable def subtree (kids : ι → List ι) (nodes : Finset ι) (n : ι) : Finset ι :=
  {m ∈ nodes | Under kids n m}

omit [DecidableEq ι] in
theorem mem_subtree {m : ι} : m ∈ subtree kids nodes n ↔ m ∈ nodes ∧ Under kids n m := by
  simp [subtree]

/-- **A node and the trees below its children make up the tree below it.** -/
theorem sum_subtree (h : IsForest kids S) (hnodes : ∀ m ∈ S, m ∈ nodes) (hn : n ∈ S) (w : ι → M) :
    ∑ m ∈ subtree kids nodes n, w m =
      w n + ((kids n).map fun k => ∑ m ∈ subtree kids nodes k, w m).sum := by
  have hsplit : subtree kids nodes n =
      insert n ((kids n).toFinset.biUnion fun k => subtree kids nodes k) := by
    ext m
    simp only [mem_subtree, Finset.mem_insert, Finset.mem_biUnion, List.mem_toFinset]
    constructor
    · rintro ⟨hm, hu⟩
      rcases hu.cases with rfl | ⟨k, hk, hu⟩
      · exact Or.inl rfl
      · exact Or.inr ⟨k, hk, hm, hu⟩
    · rintro (rfl | ⟨k, hk, hm, hu⟩)
      · exact ⟨hnodes m hn, Under.refl m⟩
      · exact ⟨hm, Under.step hk hu⟩
  have hroot : n ∉ (kids n).toFinset.biUnion fun k => subtree kids nodes k := by
    simp only [mem_subtree, Finset.mem_biUnion, List.mem_toFinset]
    rintro ⟨k, hk, -, hu⟩
    exact h.acyclic n hn k hk hu
  have hapart : Set.PairwiseDisjoint ((kids n).toFinset : Set ι) fun k => subtree kids nodes k := by
    intro k hk k' hk' hne
    refine Finset.disjoint_left.mpr fun m hm hm' => hne ?_
    exact kid_unique h hn (List.mem_toFinset.mp hk) (List.mem_toFinset.mp hk')
      (mem_subtree.mp hm).2 (mem_subtree.mp hm').2
  rw [hsplit, Finset.sum_insert hroot, Finset.sum_biUnion hapart,
    List.sum_toFinset _ (nodup_kids h hn)]

omit [DecidableEq ι] in
theorem card_subtree_lt (h : IsForest kids S) (hnodes : ∀ m ∈ S, m ∈ nodes) (hn : n ∈ S) {k : ι}
    (hk : k ∈ kids n) : (subtree kids nodes k).card < (subtree kids nodes n).card := by
  refine Finset.card_lt_card (Finset.ssubset_iff_subset_ne.mpr ⟨fun m hm => ?_, fun heq => ?_⟩)
  · exact mem_subtree.mpr ⟨(mem_subtree.mp hm).1, Under.step hk (mem_subtree.mp hm).2⟩
  · have hself : n ∈ subtree kids nodes n := mem_subtree.mpr ⟨hnodes n hn, Under.refl n⟩
    rw [← heq] at hself
    exact h.acyclic n hn k hk (mem_subtree.mp hself).2

end

end DepthFirst
