/-
What the early exit of `_max_ancestor_demand` leaves out.

The walk goes down the root path and stops when demand is gone.  Nothing that it leaves out is
demanded, since what starts with a path starts with all that lead to it; so its value is the
largest on the whole root path (`maxAncestorDemand_greatest`).  A child's walk is its parent's
walk and at most one level more.
-/
import Peek.Online.EvictionSafe
import Mathlib.Order.Bounds.Basic

namespace Peek

open Radix ParentChain

namespace RadixCache

variable {c : RadixCache} {live : Set NodeId} {rp : NodeId → List ChildKey}
  {pv : NodeId → List Index} {n : NodeId} {pendingDemand : List Token → Nat}

/-! ### One level -/

/-- What a level makes of what was carried so far. -/
def AncestorDemand.level (best : AncestorDemand) (d : Nat) (ancestor : List Token) :
    AncestorDemand :=
  if d * ancestor.length > best.maxValue then
    ⟨d * ancestor.length, ancestor.length, best.levels + 1⟩
  else { best with levels := best.levels + 1 }

theorem ancestorDemandLoop_cons (seg : List Token) (segs : List (List Token))
    (ancestor : List Token) (best : AncestorDemand) :
    ancestorDemandLoop pendingDemand (seg :: segs) ancestor best =
      if pendingDemand (ancestor ++ seg) = 0 ∧
          (best.level (pendingDemand (ancestor ++ seg)) (ancestor ++ seg)).maxValue > 0 then
        best.level (pendingDemand (ancestor ++ seg)) (ancestor ++ seg)
      else ancestorDemandLoop pendingDemand segs (ancestor ++ seg)
        (best.level (pendingDemand (ancestor ++ seg)) (ancestor ++ seg)) := rfl

@[simp] theorem AncestorDemand.levels_level (best : AncestorDemand) (d : Nat)
    (ancestor : List Token) : (best.level d ancestor).levels = best.levels + 1 := by
  unfold level
  split <;> rfl

theorem AncestorDemand.maxValue_level (best : AncestorDemand) (d : Nat) (ancestor : List Token) :
    (best.level d ancestor).maxValue = max best.maxValue (d * ancestor.length) := by
  unfold level
  split
  · next h => exact (Nat.max_eq_right (Nat.le_of_lt h)).symm
  · next h => exact (Nat.max_eq_left (Nat.le_of_not_lt h)).symm

/-! ### The walk down -/

/-- Neither what is carried nor the number of levels falls on the way down. -/
theorem levels_le_ancestorDemandLoop : ∀ (segs : List (List Token)) (ancestor : List Token)
    (best : AncestorDemand),
    best.levels ≤ (ancestorDemandLoop pendingDemand segs ancestor best).levels := by
  intro segs
  induction segs with
  | nil => intro ancestor best; exact Nat.le_refl _
  | cons seg segs ih =>
      intro ancestor best
      rw [ancestorDemandLoop_cons]
      have hlevel := best.levels_level (pendingDemand (ancestor ++ seg)) (ancestor ++ seg)
      split
      · omega
      · refine Nat.le_trans ?_ (ih _ _)
        omega

/-- **A longer root path has at least the value and the levels of a shorter one.** -/
theorem ancestorDemandLoop_append (more : List (List Token)) :
    ∀ (segs : List (List Token)) (ancestor : List Token) (best : AncestorDemand),
    (ancestorDemandLoop pendingDemand segs ancestor best).maxValue ≤
        (ancestorDemandLoop pendingDemand (segs ++ more) ancestor best).maxValue ∧
      (ancestorDemandLoop pendingDemand segs ancestor best).levels ≤
        (ancestorDemandLoop pendingDemand (segs ++ more) ancestor best).levels := by
  intro segs
  induction segs with
  | nil =>
      intro ancestor best
      exact ⟨le_ancestorDemandLoop more ancestor best, levels_le_ancestorDemandLoop more ancestor best⟩
  | cons seg segs ih =>
      intro ancestor best
      rw [List.cons_append, ancestorDemandLoop_cons, ancestorDemandLoop_cons]
      split
      · exact ⟨Nat.le_refl _, Nat.le_refl _⟩
      · exact ih _ _

/-- The value is carried from above, or it is that of one of the levels. -/
theorem ancestorDemandLoop_attained : ∀ (segs : List (List Token)) (ancestor : List Token)
    (best : AncestorDemand),
    (ancestorDemandLoop pendingDemand segs ancestor best).maxValue = best.maxValue ∨
      ∃ pre, pre <+: segs ∧ pre ≠ [] ∧
        (ancestorDemandLoop pendingDemand segs ancestor best).maxValue =
          pendingDemand (ancestor ++ pre.flatten) * (ancestor ++ pre.flatten).length := by
  intro segs
  induction segs with
  | nil => intro ancestor best; exact Or.inl rfl
  | cons seg segs ih =>
      intro ancestor best
      set d := pendingDemand (ancestor ++ seg) with hd
      -- a level keeps the value or has it
      have hlevel : ∀ value, value = (best.level d (ancestor ++ seg)).maxValue →
          value = best.maxValue ∨ ∃ pre, pre <+: seg :: segs ∧ pre ≠ [] ∧
            value = pendingDemand (ancestor ++ pre.flatten) * (ancestor ++ pre.flatten).length := by
        intro value hvalue
        rw [AncestorDemand.maxValue_level] at hvalue
        rcases Nat.le_total (d * (ancestor ++ seg).length) best.maxValue with hle | hle
        · exact Or.inl (by rw [hvalue, Nat.max_eq_left hle])
        · refine Or.inr ⟨[seg], List.cons_prefix_cons.mpr ⟨rfl, List.nil_prefix⟩,
            List.cons_ne_nil _ _, ?_⟩
          rw [hvalue, Nat.max_eq_right hle, List.flatten_singleton, hd]
      rw [ancestorDemandLoop_cons, ← hd]
      split
      · exact hlevel _ rfl
      · rcases ih (ancestor ++ seg) (best.level d (ancestor ++ seg)) with heq | ⟨pre, hpre, -, heq⟩
        · exact hlevel _ heq
        · refine Or.inr ⟨seg :: pre, List.cons_prefix_cons.mpr ⟨rfl, hpre⟩, List.cons_ne_nil _ _, ?_⟩
          rw [heq, List.flatten_cons, List.append_assoc]

/--
**The early exit misses nothing**, if demand that is gone does not come back: no level has a
larger value.
-/
theorem le_ancestorDemandLoop_of_prefix
    (hgone : ∀ p q, p ≠ [] → p <+: q → pendingDemand p = 0 → pendingDemand q = 0) :
    ∀ (segs : List (List Token)) (ancestor : List Token) (best : AncestorDemand),
    (∀ seg ∈ segs, seg ≠ []) → ∀ pre, pre <+: segs → pre ≠ [] →
      pendingDemand (ancestor ++ pre.flatten) * (ancestor ++ pre.flatten).length ≤
        (ancestorDemandLoop pendingDemand segs ancestor best).maxValue := by
  intro segs
  induction segs with
  | nil => intro ancestor best _ pre hpre hne; exact absurd (List.prefix_nil.mp hpre) hne
  | cons seg segs ih =>
      intro ancestor best hsegs pre hpre hne
      rw [List.forall_mem_cons] at hsegs
      obtain ⟨s, pre, rfl⟩ := List.exists_cons_of_ne_nil hne
      rw [List.cons_prefix_cons] at hpre
      obtain ⟨rfl, hpre⟩ := hpre
      have hthis := best.maxValue_level (pendingDemand (ancestor ++ s)) (ancestor ++ s)
      rw [List.flatten_cons, ← List.append_assoc, ancestorDemandLoop_cons]
      split
      · next hexit =>
          have hzero := hgone (ancestor ++ s) (ancestor ++ s ++ pre.flatten)
            (List.append_ne_nil_of_right_ne_nil _ hsegs.1) (List.prefix_append _ _) hexit.1
          rw [hzero, Nat.zero_mul]
          exact Nat.zero_le _
      · by_cases hnil : pre = []
        · rw [hnil, List.flatten_nil, List.append_nil]
          refine Nat.le_trans ?_ (le_ancestorDemandLoop segs _ _)
          rw [hthis]
          exact Nat.le_max_right _ _
        · exact ih (ancestor ++ s) _ hsegs.2 pre hpre hnil

/-! ### Root paths -/

theorem WF.ne_nil_of_mem_segments (h : WF c live rp pv) (hn : n ∈ live) {seg : List Token}
    (hseg : seg ∈ c.segments n) : seg ≠ [] := by
  rw [segments_eq] at hseg
  obtain ⟨m, hm, rfl⟩ := List.mem_map.mp hseg
  obtain ⟨hml, hmr⟩ := h.chain_live hn hm
  exact h.tokenIds_ne_nil hml hmr

/-- The tokens at stake when a node is evicted. -/
def risk (c : RadixCache) (demand : List Token → Nat) (m : NodeId) : Nat :=
  demand (c.pathTokens m) * (c.pathTokens m).length

/-- **The value of a node** is the largest on its root path. -/
theorem WF.maxAncestorDemand_isGreatest (h : WF c live rp pv) (hn : n ∈ live) (hr : n ≠ rootNode)
    (hgone : ∀ p q, p ≠ [] → p <+: q → pendingDemand p = 0 → pendingDemand q = 0) :
    IsGreatest (Set.image (c.risk pendingDemand) {m | m ∈ c.chain n})
      (c.maxAncestorDemand pendingDemand n).maxValue := by
  have hlevel : ∀ pre, pre <+: (c.segments n).reverse → pre ≠ [] →
      ∃ m ∈ c.chain n, c.risk pendingDemand m =
        pendingDemand ([] ++ pre.flatten) * ([] ++ pre.flatten).length := by
    intro pre hpre hne
    obtain ⟨m, hm, rfl⟩ := (h.prefix_segments_iff hn hne).mp hpre
    exact ⟨m, hm, rfl⟩
  have hself : (c.segments n).reverse ≠ [] := by
    rw [h.segments_eq_cons hn hr, List.reverse_cons]
    exact List.append_ne_nil_of_right_ne_nil _ (List.cons_ne_nil _ _)
  have hupper : ∀ m ∈ c.chain n,
      c.risk pendingDemand m ≤ (c.maxAncestorDemand pendingDemand n).maxValue := by
    intro m hm
    obtain ⟨hml, hmr⟩ := h.chain_live hn hm
    have hne : (c.segments m).reverse ≠ [] := by
      rw [h.segments_eq_cons hml hmr, List.reverse_cons]
      exact List.append_ne_nil_of_right_ne_nil _ (List.cons_ne_nil _ _)
    exact le_ancestorDemandLoop_of_prefix hgone _ [] _
      (fun seg hseg => h.ne_nil_of_mem_segments hn (List.mem_reverse.mp hseg)) _
      ((h.prefix_segments_iff hn hne).mpr ⟨m, hm, rfl⟩) hne
  refine ⟨?_, fun v hv => ?_⟩
  · rcases ancestorDemandLoop_attained (c.segments n).reverse [] ⟨0, 0, 0⟩ with
      hzero | ⟨pre, hpre, hne, heq⟩
    · -- nothing is at stake, at the node itself neither
      have hle := hupper n (h.self_mem_chain hn hr)
      have hzero : (c.maxAncestorDemand pendingDemand n).maxValue = 0 := hzero
      exact ⟨n, h.self_mem_chain hn hr, by omega⟩
    · obtain ⟨m, hm, hrisk⟩ := hlevel pre hpre hne
      exact ⟨m, hm, hrisk.trans heq.symm⟩
  · obtain ⟨m, hm, rfl⟩ := hv
    exact hupper m hm

/-- **A node is worth no less than its parent.** -/
theorem WF.priority_parent_le (h : WF c live rp pv) (hn : n ∈ live) (hr : n ≠ rootNode)
    (mode : EvictionMode) :
    (ofLex (c.demandPriority mode pendingDemand (c.node n).parent)).1 ≤
      (ofLex (c.demandPriority mode pendingDemand n)).1 := by
  have happend := @ancestorDemandLoop_append pendingDemand [(c.node n).key.tokenIds]
    (c.segments (c.node n).parent).reverse [] ⟨0, 0, 0⟩
  rw [← List.reverse_cons, ← h.segments_eq_cons hn hr] at happend
  obtain ⟨hvalue, hlevels⟩ := happend
  cases mode with
  | plain => exact hvalue
  | cluster => exact Nat.mul_le_mul hvalue (Nat.add_le_add_left hlevels 1)

end RadixCache

namespace PendingTree

/-- Demand that is gone does not come back on a longer path. -/
theorem Sound.pendingDemand_gone {p : PendingTree} (h : Sound p) {path path' : List Token}
    (hpath : path ≠ []) (hpre : path <+: path') (hzero : p.pendingDemand path = 0) :
    p.pendingDemand path' = 0 := by
  have hne : path' ≠ [] := by
    rintro rfl
    exact hpath (List.prefix_nil.mp hpre)
  rw [h.pendingDemand_eq_zero_iff hne]
  intro rid tokens hlook hstart
  exact (h.pendingDemand_eq_zero_iff hpath).mp hzero rid tokens hlook (hpre.trans hstart)

end PendingTree

namespace HeldCache

open RadixCache

variable {s : HeldCache} {n : NodeId}

/--
**The value of a node and the order of eviction.**  In any run of calls and for any pending
requests, the value that is computed for a node is the largest number of tokens at stake on its
root path: the pending requests that start with the path to one of its nodes, times the length of
that path.  In either mode a node's priority is at least its parent's.
-/
theorem maxAncestorDemand_greatest {pageSize : Nat} (hps : 0 < pageSize) {disable : Bool}
    (hrun : Relation.ReflTransGen Step (new pageSize disable) s) (ops : List PendingTree.Op)
    (hn : s.cache.InTree n) (hr : n ≠ rootNode) :
    let p := PendingTree.run ops
    IsGreatest (Set.image (s.cache.risk p.pendingFrom) {m | m ∈ s.cache.chain n})
      (s.cache.maxAncestorDemand p.pendingDemand n).maxValue ∧
    ∀ mode, (ofLex (s.cache.demandPriority mode p.pendingDemand (s.cache.node n).parent)).1 ≤
      (ofLex (s.cache.demandPriority mode p.pendingDemand n)).1 := by
  intro p
  obtain ⟨live, rp, pv, h, -⟩ := run_inv hps hrun
  have hn := h.inTree_iff.mp hn
  have hp : PendingTree.Sound p := PendingTree.sound_run ops
  refine ⟨?_, h.priority_parent_le hn hr⟩
  have hrisk : Set.image (s.cache.risk p.pendingFrom) {m | m ∈ s.cache.chain n} =
      Set.image (s.cache.risk p.pendingDemand) {m | m ∈ s.cache.chain n} := by
    refine Set.image_congr fun m hm => ?_
    obtain ⟨hml, hmr⟩ := h.chain_live hn hm
    unfold risk
    rw [hp.pendingDemand_eq (h.pathTokens_ne_nil hml hmr)]
  rw [hrisk]
  exact h.maxAncestorDemand_isGreatest hn hr fun _ _ => hp.pendingDemand_gone

/-- Below the three shared tokens nothing is demanded, and the leaf is worth what they are. -/
theorem maxAncestorDemand_greatest_leaf :
    (threePrompts.cache.maxAncestorDemand twoPending.pendingDemand 2).maxValue = 3 ∧
    IsGreatest (Set.image (threePrompts.cache.risk twoPending.pendingFrom)
      {m | m ∈ threePrompts.cache.chain 2})
      (threePrompts.cache.maxAncestorDemand twoPending.pendingDemand 2).maxValue := by
  have hn : threePrompts.cache.InTree 2 :=
    Below.step (a := ⟨none, .token 1⟩) (c := 3) (by decide)
      (Below.step (a := ⟨none, .token 7⟩) (by decide) (Below.refl 2))
  exact ⟨by decide, (maxAncestorDemand_greatest Nat.one_pos threePrompts_run
    [.insert 1 [9], .insert 2 [1, 2, 3]] hn (by decide)).1⟩

end HeldCache

end Peek
