/-
The pending tree does not remember how it got there.

Where the nodes sit is a function of the pending requests alone: at the root, where
a prompt ends, and where two prompts part (`paths_eq_kept`).  Two runs that leave the
same requests therefore leave the same paths, and trees with the same paths are equal
up to the names of their nodes.  Freelist, slot numbers and the order of the child
maps are all that the history can still be read from.
-/
import Peek.Pending.Invariant
import Peek.Radix.Iso
import Mathlib.Data.Set.Finite.Lemmas
import Mathlib.Order.Interval.Set.Nat

namespace Peek

open Radix

namespace Tree

variable {t : Tree} {live : Set NodeId} {rp : NodeId → List Token} {E : Requests}

/-! ### Every node has a request below it -/

theorem Arena.finite (h : Arena t live) : live.Finite :=
  (Set.finite_lt_nat t.nodes.size).subset fun _ hi => h.lt_size hi

/-- The deepest node at or below `n` has no children, so it ends a request. -/
theorem exists_request (h : Counted t live rp E) (hcomp : Compressed t live) {n : NodeId}
    (hn : n ∈ live) (hr : n ≠ ROOT) : ∃ e ∈ E, rp n <+: e.2 := by
  have hfin : {m ∈ live | rp n <+: rp m}.Finite := h.arena.finite.subset fun _ hm => hm.1
  obtain ⟨m, ⟨hm, hnm⟩, hmax⟩ := Set.exists_max_image _ (fun m => (rp m).length) hfin
    ⟨n, hn, List.prefix_refl _⟩
  have hmr : m ≠ ROOT := by
    rintro rfl
    exact hr (h.labelled.eq_root_of_prefix hn hnm)
  have hleaf : (t.node m).children.entries = [] := by
    refine Map.entries_eq_nil_iff.mpr fun a => ?_
    cases hk : (t.node m).children.lookup a with
    | none => rfl
    | some c =>
        have hlt := h.labelled.kid_length_lt hm hk
        have hpre : rp m <+: rp c := by
          rw [h.labelled.kidPath hm hk]; exact List.prefix_append _ _
        have := hmax c ⟨h.labelled.kidLive hm hk, hnm.trans hpre⟩
        omega
  rcases hcomp m hm hmr with hterm | hfork
  · obtain ⟨r, hmem⟩ := List.exists_mem_of_ne_nil _ hterm
    exact ⟨_, (h.terms m hm r).mp hmem, hnm⟩
  · rw [hleaf] at hfork
    simp at hfork

/-! ### Where the nodes sit -/

/-- The root path, a path where a prompt ends, or one where two prompts part. -/
def Kept (E : Requests) (q : List Token) : Prop :=
  q = [] ∨ (∃ e ∈ E, e.2 = q) ∨
    ∃ a b, a ≠ b ∧ (∃ e ∈ E, q ++ [a] <+: e.2) ∧ ∃ e ∈ E, q ++ [b] <+: e.2

/-- A child's path runs past its parent's along the child's key. -/
theorem request_past (h : Counted t live rp E) (hcomp : Compressed t live) {n c : NodeId}
    {a : Token} (hn : n ∈ live) (hk : (t.node n).children.lookup a = some c) :
    ∃ e ∈ E, rp n ++ [a] <+: e.2 := by
  obtain ⟨tl, -, hpath⟩ := h.labelled.kid_path_cons (show n ∈ live from hn) hk
  obtain ⟨e, he, hpre⟩ := exists_request h hcomp (h.labelled.kidLive hn hk)
    (h.labelled.kid_ne_root hn hk)
  refine ⟨e, he, List.IsPrefix.trans ⟨tl, ?_⟩ hpre⟩
  rw [hpath, List.append_assoc]
  rfl

/-- **Where the nodes sit depends on the pending requests only.** -/
theorem paths_eq_kept (h : Counted t live rp E) (hcomp : Compressed t live) :
    Radix.paths live rp = {q | Kept E q} := by
  ext q
  constructor
  · rintro ⟨n, hn, rfl⟩
    by_cases hr : n = ROOT
    · exact Or.inl (hr ▸ h.labelled.rootPath)
    · rcases hcomp n hn hr with hterm | hfork
      · obtain ⟨r, hmem⟩ := List.exists_mem_of_ne_nil _ hterm
        exact Or.inr (Or.inl ⟨_, (h.terms n hn r).mp hmem, rfl⟩)
      · obtain ⟨a, b, c, d, hab, hc, hd⟩ := Map.exists_two hfork
        exact Or.inr (Or.inr ⟨a, b, hab, request_past h hcomp hn hc, request_past h hcomp hn hd⟩)
  · rintro (rfl | ⟨e, he, rfl⟩ | ⟨a, b, hab, ⟨e, he, ha⟩, e', he', hb⟩)
    · exact ⟨ROOT, h.labelled.rootLive, h.labelled.rootPath⟩
    · obtain ⟨n, hn, hp⟩ := h.covers e he
      exact ⟨n, hn, hp⟩
    · obtain ⟨m, hm, hp⟩ := h.covers e he
      obtain ⟨m', hm', hp'⟩ := h.covers e' he'
      exact h.labelled.fork_live hm hm' hab (by rw [hp]; exact ha) (by rw [hp']; exact hb)

/-! ### Counting the live slots -/

/-- Allocated slots minus freelist entries are the live nodes. -/
theorem len_eq_ncard (h : Arena t live) : t.len = live.ncard := by
  have hunion : (Set.Iio t.nodes.size : Set Nat) = live ∪ {i | i ∈ t.free} := by
    ext i; exact h.slots i
  have hdisj : Disjoint live {i | i ∈ t.free} :=
    Set.disjoint_left.mpr fun i hi hf => h.disjoint i hi hf
  have hfree : {i | i ∈ t.free} = (↑t.free.toFinset : Set Nat) := by ext i; simp
  have hcard := Set.ncard_union_eq hdisj h.finite (by rw [hfree]; exact Finset.finite_toSet _)
  rw [← hunion, hfree, Set.ncard_coe_finset, List.toFinset_card_of_nodup h.nodup,
    Set.ncard_Iio_nat] at hcard
  rw [len]
  omega

end Tree

namespace PendingTree

/-! ### Two runs -/

/-- `φ` renames the nodes of `p` to those of `q`, and everything they carry agrees. -/
structure Renames (p q : PendingTree) (φ : NodeId → NodeId) : Prop where
  bijOn : Set.BijOn φ {n | p.Reachable n} {n | q.Reachable n}
  root : φ ROOT = ROOT
  edge : ∀ n, p.Reachable n → (q.tree.node (φ n)).edge = (p.tree.node n).edge
  parent : ∀ n, p.Reachable n → n ≠ ROOT →
    (q.tree.node (φ n)).parent = φ (p.tree.node n).parent
  children : ∀ n, p.Reachable n → ∀ a,
    (q.tree.node (φ n)).children.lookup a = ((p.tree.node n).children.lookup a).map φ
  pendingCount : ∀ n, p.Reachable n →
    (q.tree.node (φ n)).pendingCount = (p.tree.node n).pendingCount
  terminators : ∀ n, p.Reachable n → ∀ rid,
    rid ∈ (q.tree.node (φ n)).terminators ↔ rid ∈ (p.tree.node n).terminators

theorem kept_congr {p q : PendingTree} (h : ∀ rid, p.paths.lookup rid = q.paths.lookup rid) :
    {s | Tree.Kept p.paths.entries s} = {s | Tree.Kept q.paths.entries s} := by
  have hmem : ∀ e, e ∈ p.paths.entries ↔ e ∈ q.paths.entries :=
    fun e => (Map.perm_of_lookup h).mem_iff
  simp only [Tree.Kept, hmem]

/-- Sound trees over the same requests are equal up to the names of their nodes. -/
theorem Sound.renames {p q : PendingTree} (hp : Sound p) (hq : Sound q)
    (h : ∀ rid, p.paths.lookup rid = q.paths.lookup rid) :
    ∃ φ, Renames p q φ ∧ p.nodeCount = q.nodeCount := by
  obtain ⟨live, rp, hc, hcomp⟩ := hp
  obtain ⟨live', rp', hc', hcomp'⟩ := hq
  have hpaths : Radix.paths live rp = Radix.paths live' rp' := by
    rw [Tree.paths_eq_kept hc hcomp, Tree.paths_eq_kept hc' hcomp', kept_congr h]
  have hsub := hpaths.subset
  have hsub' := hpaths.symm.subset
  set φ := rename live' rp' rp with hφ
  have hbij : Set.BijOn φ live live' := rename_bijOn hc.labelled hc'.labelled hpaths
  have hspec : ∀ {n}, n ∈ live → φ n ∈ live' ∧ rp' (φ n) = rp n := fun hn => rename_spec hsub hn
  have hlive : {n | p.Reachable n} = live := Set.ext fun n => reachable_iff hc
  have hlive' : {n | q.Reachable n} = live' := Set.ext fun n => reachable_iff hc'
  have hrl : ROOT ∈ live := hc.labelled.rootLive
  have hroot : φ ROOT = ROOT := by
    refine hc'.labelled.path_injective (hspec hrl).1 hc'.labelled.rootLive ?_
    exact (hspec hrl).2.trans (hc.labelled.rootPath.trans hc'.labelled.rootPath.symm)
  have hedge := fun {n} (hn : n ∈ live) =>
    hc.labelled.edge_of_paths hc'.labelled hsub hsub' hn (hspec hn).1 (hspec hn).2
  refine ⟨φ, ⟨by rw [hlive, hlive']; exact hbij, hroot, ?_, ?_, ?_, ?_, ?_⟩, ?_⟩
  · intro n hn
    exact (hedge ((reachable_iff hc).mp hn)).1
  · intro n hn hr
    have hn := (reachable_iff hc).mp hn
    have hpar := hc.labelled.parent_live hn hr
    have hr' : φ n ≠ ROOT := fun heq =>
      hr (hbij.injOn hn hrl (heq.trans hroot.symm))
    refine hc'.labelled.path_injective (hc'.labelled.parent_live (hspec hn).1 hr') (hspec hpar).1 ?_
    exact ((hedge hn).2 hr).trans (hspec hpar).2.symm
  · intro n hn a
    have hn := (reachable_iff hc).mp hn
    cases hk : (p.tree.node n).children.lookup a with
    | some c =>
        have hcl := hc.labelled.kidLive hn hk
        exact hc.labelled.kid_of_paths hc'.labelled hsub' hn (hspec hn).1 (hspec hn).2 hk
          (hspec hcl).1 (hspec hcl).2
    | none =>
        cases hk' : (q.tree.node (φ n)).children.lookup a with
        | none => rfl
        | some c' =>
            have hcl' := hc'.labelled.kidLive (hspec hn).1 hk'
            obtain ⟨c, hcl, hpc⟩ := hsub' ⟨c', hcl', rfl⟩
            have := hc'.labelled.kid_of_paths hc.labelled hsub (hspec hn).1 hn (hspec hn).2.symm
              hk' hcl hpc
            rw [Tree.heap_kid, hk] at this
            simp at this
  · intro n hn
    have hn := (reachable_iff hc).mp hn
    by_cases hr : n = ROOT
    · rw [hr, hroot]; exact hc'.rootCount.trans hc.rootCount.symm
    · have hr' : φ n ≠ ROOT := fun heq =>
        hr (hbij.injOn hn hrl (heq.trans hroot.symm))
      rw [hc.count n hn hr, hc'.count _ (hspec hn).1 hr', (hspec hn).2]
      exact ((Map.perm_of_lookup h).countP_eq _).symm
  · intro n hn rid
    have hn := (reachable_iff hc).mp hn
    rw [hc'.terms _ (hspec hn).1, hc.terms n hn, (hspec hn).2, mem_entries_iff, mem_entries_iff, h]
  · rw [nodeCount, nodeCount, Tree.len_eq_ncard hc.arena, Tree.len_eq_ncard hc'.arena]
    exact Set.ncard_congr (fun n _ => φ n) (fun n hn => (hspec hn).1)
      (fun n m hn hm heq => hbij.injOn hn hm heq) (fun n' hn' => by
        obtain ⟨n, hn, heq⟩ := hbij.surjOn hn'
        exact ⟨n, hn, heq⟩)

/-- With nothing pending the root is alone and bare. -/
theorem Sound.of_empty {p : PendingTree} (hp : Sound p) (h : ∀ rid, p.paths.lookup rid = none) :
    (∀ n, p.Reachable n ↔ n = ROOT) ∧ (p.tree.node ROOT).terminators = [] ∧
      (p.tree.node ROOT).children.entries = [] ∧ p.nodeCount = 1 := by
  obtain ⟨live, rp, hc, hcomp⟩ := hp
  have hE : p.paths.entries = [] := Map.entries_eq_nil_iff.mpr h
  rw [hE] at hc
  have honly : ∀ n ∈ live, n = ROOT := by
    intro n hn
    by_contra hr
    obtain ⟨e, he, -⟩ := Tree.exists_request hc hcomp hn hr
    simp at he
  have hroot : ROOT ∈ live := hc.labelled.rootLive
  have hreach : ∀ n, p.Reachable n ↔ n = ROOT := by
    intro n
    rw [Reachable, ← Tree.heap_root p.tree, ← hc.labelled.live_iff_below]
    exact ⟨honly n, fun hn => hn ▸ hroot⟩
  refine ⟨hreach, ?_, ?_, ?_⟩
  · refine List.eq_nil_iff_forall_not_mem.mpr fun r hr => ?_
    have := (hc.terms ROOT hroot r).mp hr
    simp at this
  · refine Map.entries_eq_nil_iff.mpr fun a => ?_
    cases hk : (p.tree.node ROOT).children.lookup a with
    | none => rfl
    | some c =>
        exact absurd (honly c (hc.labelled.kidLive hroot hk)) (hc.labelled.kid_ne_root hroot hk)
  · rw [nodeCount, Tree.len_eq_ncard hc.arena, Set.ncard_eq_one]
    exact ⟨ROOT, Set.ext fun n => ⟨honly n, fun hn => hn ▸ hroot⟩⟩

/--
**History independence.**  Runs that end with the same requests end with the same tree
up to the names of its nodes; a run that removed everything leaves the bare root.
-/
theorem run_history_independent :
    (∀ ops ops', (∀ rid, (run ops).paths.lookup rid = (run ops').paths.lookup rid) →
      ∃ φ, Renames (run ops) (run ops') φ ∧ (run ops).nodeCount = (run ops').nodeCount) ∧
    (∀ ops, (∀ rid, (run ops).paths.lookup rid = none) →
      (∀ n, (run ops).Reachable n ↔ n = ROOT) ∧ ((run ops).tree.node ROOT).terminators = [] ∧
        ((run ops).tree.node ROOT).children.entries = [] ∧ (run ops).nodeCount = 1) :=
  ⟨fun ops ops' h => (sound_run ops).renames (sound_run ops') h,
    fun ops h => (sound_run ops).of_empty h⟩

/-- A run that split an edge and fused it again, against one that never did. -/
theorem run_history_independent_split :
    (∃ φ, Renames (run [.insert 3 [], .insert 1 [5, 6, 7], .insert 2 [5, 6, 8], .remove 2])
        (run [.insert 3 [], .insert 1 [5, 6, 7]]) φ ∧
      (run [.insert 3 [], .insert 1 [5, 6, 7], .insert 2 [5, 6, 8], .remove 2]).nodeCount =
        (run [.insert 3 [], .insert 1 [5, 6, 7]]).nodeCount) ∧
    ((run [.insert 1 [5, 6], .removeMany [1, 4]]).tree.node ROOT).children.entries = [] := by
  have h : (run [.insert 3 [], .insert 1 [5, 6, 7], .insert 2 [5, 6, 8], .remove 2]).paths =
      (run [.insert 3 [], .insert 1 [5, 6, 7]]).paths := by decide
  have h' : (run [.insert 1 [5, 6], .removeMany [1, 4]]).paths = ∅ := by decide
  refine ⟨run_history_independent.1 _ _ fun rid => by rw [h],
    (run_history_independent.2 [.insert 1 [5, 6], .removeMany [1, 4]] fun rid => ?_).2.2.1⟩
  rw [h', AList.lookup_empty]

end PendingTree

end Peek
