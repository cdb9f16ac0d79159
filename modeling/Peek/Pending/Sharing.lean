/-
Who shares a first token (`has_sharing`, `shared_rid_count` and `singleton_rid_count` of
`src/tree.rs`).

The counters look at the root alone.  It has a child for every token that a pending prompt begins
with, and the child's count is how many begin with it; the prompts that begin with none end at
the root.
-/
import Mathlib.Algebra.BigOperators.Group.List.Lemmas
import Peek.Pending.Demand
import Peek.Pending.History
import Peek.Pending.NoSharing
import Peek.Pending.SharedPrefix

namespace Peek

open Radix

/-- The first token of every request that has one. -/
def Requests.firstTokens (E : Requests) : List Token := E.filterMap fun e => e.2.head?

namespace Tree

/-- Two requests go through some child of the root. -/
def hasSharing (t : Tree) : Bool :=
  (Map.values (t.node ROOT).children).any fun c => (t.node c).pendingCount ≥ 2

/-- How many requests go through a child of the root that another one goes through. -/
def sharedRidCount (t : Tree) : Nat :=
  ((Map.values (t.node ROOT).children).map fun c =>
    if (t.node c).pendingCount ≥ 2 then (t.node c).pendingCount else 0).sum

/-- The other requests, those with empty prompts among them. -/
def singletonRidCount (t : Tree) : Nat :=
  (t.node ROOT).terminators.length + ((Map.values (t.node ROOT).children).map fun c =>
    if (t.node c).pendingCount < 2 then (t.node c).pendingCount else 0).sum

variable {t : Tree} {live : Set NodeId} {rp : NodeId → List Token} {E : Requests}

/-! ### The children of the root -/

/-- A child of the root counts the requests that begin with its key. -/
theorem count_rootChild (h : Counted t live rp E) {a : Token} {c : NodeId}
    (hkid : (t.node ROOT).children.lookup a = some c) :
    (t.node c).pendingCount = E.firstTokens.count a := by
  have hroot : ROOT ∈ live := h.labelled.rootLive
  have hpath : rp ROOT = [] := h.labelled.rootPath
  obtain ⟨tl, -, hc⟩ := h.labelled.kid_path_cons hroot hkid
  rw [h.count c (h.labelled.kidLive hroot hkid) (h.labelled.kid_ne_root hroot hkid),
    Requests.firstTokens, List.count_filterMap]
  refine List.countP_congr fun e he => ?_
  rw [List.isPrefixOf_iff_prefix, beq_iff_eq]
  constructor
  · rintro ⟨rest, hrest⟩
    rw [← hrest, hc, hpath]
    rfl
  · intro hhead
    obtain ⟨rest, hrest⟩ := List.head?_eq_some_iff.mp hhead
    have hpre : rp ROOT ++ a :: [] <+: e.2 := by
      rw [hpath, hrest]
      exact ⟨rest, rfl⟩
    exact h.prefix_kid hroot hkid he hpre

/-- The root has a child for every first token, and no other. -/
theorem mem_rootChildren (h : Counted t live rp E) (hcomp : Compressed t live) (a : Token) :
    a ∈ (t.node ROOT).children ↔ a ∈ E.firstTokens := by
  have hroot : ROOT ∈ live := h.labelled.rootLive
  have hpath : rp ROOT = [] := h.labelled.rootPath
  rw [Requests.firstTokens, List.mem_filterMap, ← AList.lookup_isSome, Option.isSome_iff_exists]
  constructor
  · rintro ⟨c, hkid⟩
    obtain ⟨e, he, rest, hrest⟩ := request_past h hcomp hroot hkid
    refine ⟨e, he, ?_⟩
    rw [← hrest, hpath]
    rfl
  · rintro ⟨e, he, hhead⟩
    obtain ⟨n, hn, hp⟩ := h.covers e he
    obtain ⟨rest, hrest⟩ := List.head?_eq_some_iff.mp hhead
    have hpre : rp ROOT ++ a :: rest <+: rp n := by
      rw [hpath, hp, hrest]
      exact List.prefix_refl _
    obtain ⟨c, hkid, -⟩ := h.labelled.kid_of_prefix hroot hn hpre
    exact ⟨c, hkid⟩

theorem sum_map_filter {α : Type} (q : α → Bool) (f : α → Nat) (l : List α) :
    (l.map fun a => if q a then f a else 0).sum = ((l.filter q).map f).sum := by
  induction l with
  | nil => rfl
  | cons a l ih =>
      rw [List.map_cons, List.sum_cons, ih]
      by_cases hq : q a = true
      · rw [if_pos hq, List.filter_cons_of_pos hq, List.map_cons, List.sum_cons]
      · rw [if_neg hq, List.filter_cons_of_neg hq, Nat.zero_add]

/-- **Adding up over the children of the root** counts the first tokens one by one. -/
theorem sum_rootChildren (h : Counted t live rp E) (hcomp : Compressed t live) (q : Nat → Bool) :
    ((Map.values (t.node ROOT).children).map fun c =>
        if q (t.node c).pendingCount then (t.node c).pendingCount else 0).sum =
      E.firstTokens.countP fun a => q (E.firstTokens.count a) := by
  have hkeys : (t.node ROOT).children.keys.Perm E.firstTokens.dedup := by
    refine (List.perm_ext_iff_of_nodup (AList.keys_nodup _) (List.nodup_dedup _)).mpr fun a => ?_
    rw [List.mem_dedup, ← mem_rootChildren h hcomp]
    exact AList.mem_keys.symm
  have hcounts : ((Map.values (t.node ROOT).children).map fun c =>
      if q (t.node c).pendingCount then (t.node c).pendingCount else 0) =
      (t.node ROOT).children.keys.map fun a =>
        if q (E.firstTokens.count a) then E.firstTokens.count a else 0 := by
    unfold Map.values AList.keys List.keys
    rw [List.map_map, List.map_map]
    refine List.map_congr_left fun e he => ?_
    simp only [Function.comp_apply, count_rootChild h (AList.mem_lookup_iff.mpr he)]
  rw [hcounts, (hkeys.map _).sum_eq, sum_map_filter]
  exact List.sum_map_count_dedup_filter_eq_countP _ _

/-! ### The counters -/

theorem hasSharing_iff (h : Counted t live rp E) (hcomp : Compressed t live) :
    t.hasSharing = true ↔ ∃ a ∈ E.firstTokens, 2 ≤ E.firstTokens.count a := by
  unfold hasSharing
  rw [List.any_eq_true]
  constructor
  · rintro ⟨c, hc, hcount⟩
    obtain ⟨a, hkid⟩ := Map.mem_values.mp hc
    rw [count_rootChild h hkid] at hcount
    refine ⟨a, (mem_rootChildren h hcomp a).mp ?_, of_decide_eq_true hcount⟩
    exact AList.lookup_isSome.mp (hkid ▸ rfl)
  · rintro ⟨a, ha, hcount⟩
    obtain ⟨c, hkid⟩ := Option.isSome_iff_exists.mp
      (AList.lookup_isSome.mpr ((mem_rootChildren h hcomp a).mpr ha))
    exact ⟨c, Map.mem_values.mpr ⟨a, hkid⟩, decide_eq_true (count_rootChild h hkid ▸ hcount)⟩

/-- **Shared and alone are all**: every request has a first token or ends at the root. -/
theorem shared_add_singleton (h : Counted t live rp E) (hcomp : Compressed t live) (hE : E.NodupKeys) :
    t.sharedRidCount + t.singletonRidCount = E.length := by
  have hshared := sum_rootChildren h hcomp fun k => k ≥ 2
  have hsingle := sum_rootChildren h hcomp fun k => k < 2
  have hends : (t.node ROOT).terminators.length = E.countP fun e => ¬ (e.2.head?).isSome := by
    have hroot := length_terminators h hE (n := ROOT) h.labelled.rootLive
    rw [hroot, show rp ROOT = [] from h.labelled.rootPath]
    refine List.countP_congr fun e _ => ?_
    cases e.2 with
    | nil => simp
    | cons a tl => simp
  have hfirst : E.firstTokens.length = E.countP fun e => (e.2.head?).isSome :=
    List.length_filterMap_eq_countP
  have hall := List.length_eq_countP_add_countP (fun e : (_ : Rid) × List Token => (e.2.head?).isSome) (l := E)
  have hsplit := List.length_eq_countP_add_countP (fun a => decide (E.firstTokens.count a ≥ 2))
    (l := E.firstTokens)
  have hless : E.firstTokens.countP (fun a => decide (E.firstTokens.count a < 2)) =
      E.firstTokens.countP fun a => ¬ decide (E.firstTokens.count a ≥ 2) = true := by
    refine List.countP_congr fun a _ => ?_
    simp
  simp only [decide_eq_true_eq] at hshared hsingle
  unfold sharedRidCount singletonRidCount
  rw [hshared, hsingle, hends]
  omega

end Tree

namespace PendingTree

def hasSharing (p : PendingTree) : Bool := p.tree.hasSharing

def sharedRidCount (p : PendingTree) : Nat := p.tree.sharedRidCount

def singletonRidCount (p : PendingTree) : Nat := p.tree.singletonRidCount

/-- Another pending request begins with the first token of `e`. -/
def sharesFirst (p : PendingTree) (e : (_ : Rid) × List Token) : Bool :=
  p.paths.entries.any fun e' => e'.1 ≠ e.1 ∧ ¬ Unlike e.2 e'.2

variable {p : PendingTree}

/-- A first token is there twice if another request begins with it. -/
theorem two_le_count_iff {rid : Rid} {ts : List Token} {a : Token}
    (hl : p.paths.lookup rid = some ts) (hhead : ts.head? = some a) :
    2 ≤ (Requests.firstTokens p.paths.entries).count a ↔
      ∃ q us, q ≠ rid ∧ p.paths.lookup q = some us ∧ us.head? = some a := by
  have hself : (ts.head? == some a) = true := beq_iff_eq.mpr hhead
  rw [Requests.firstTokens, List.count_filterMap, (perm_others hl).countP_eq, List.countP_cons, if_pos hself]
  rw [Nat.succ_le_succ_iff, Nat.succ_le_iff, List.countP_pos_iff]
  constructor
  · rintro ⟨e, he, hhead⟩
    obtain ⟨he, hq⟩ := List.mem_filter.mp he
    exact ⟨e.1, e.2, of_decide_eq_true hq, mem_entries_iff.mp he, beq_iff_eq.mp hhead⟩
  · rintro ⟨q, us, hq, hus, hhead⟩
    exact ⟨⟨q, us⟩, List.mem_filter.mpr ⟨mem_entries_iff.mpr hus, decide_eq_true hq⟩, beq_iff_eq.mpr hhead⟩

theorem sharesFirst_iff {rid : Rid} {ts : List Token} : p.sharesFirst ⟨rid, ts⟩ = true ↔
    ∃ q us a, q ≠ rid ∧ p.paths.lookup q = some us ∧ ts.head? = some a ∧ us.head? = some a := by
  unfold sharesFirst Unlike
  simp only [List.any_eq_true, decide_eq_true_eq, not_forall, not_not]
  constructor
  · rintro ⟨e, he, hq, a, hts, hus⟩
    exact ⟨e.1, e.2, a, hq, mem_entries_iff.mp he, hts, hus⟩
  · rintro ⟨q, us, a, hq, hl, hts, hus⟩
    exact ⟨⟨q, us⟩, mem_entries_iff.mpr hl, hq, a, hts, hus⟩

theorem Sound.sharedRidCount_eq (hp : Sound p) :
    p.sharedRidCount = p.paths.entries.countP p.sharesFirst := by
  obtain ⟨live, rp, h, hcomp⟩ := hp
  have hshared := Tree.sum_rootChildren h hcomp fun k => k ≥ 2
  simp only [decide_eq_true_eq] at hshared
  refine hshared.trans ?_
  rw [Requests.firstTokens, List.countP_filterMap]
  refine List.countP_congr fun e he => ?_
  have hl := mem_entries_iff.mp he
  rw [sharesFirst_iff]
  cases hhead : e.2.head? with
  | none => simp
  | some a =>
      simp only [Option.map_some, Option.getD_some, decide_eq_true_eq, Option.some.injEq]
      refine (two_le_count_iff hl hhead).trans ?_
      constructor
      · rintro ⟨q, us, hq, hus, hfirst⟩
        exact ⟨q, us, a, hq, hus, rfl, hfirst⟩
      · rintro ⟨q, us, _, hq, hus, rfl, hfirst⟩
        exact ⟨q, us, hq, hus, hfirst⟩

theorem Sound.hasSharing_iff (hp : Sound p) : p.hasSharing = true ↔
    ∃ rid rid' ts ts' a, rid ≠ rid' ∧ p.paths.lookup rid = some ts ∧ p.paths.lookup rid' = some ts' ∧
      ts.head? = some a ∧ ts'.head? = some a := by
  obtain ⟨live, rp, h, hcomp⟩ := hp
  refine (Tree.hasSharing_iff h hcomp).trans ⟨?_, ?_⟩
  · rintro ⟨a, ha, hcount⟩
    obtain ⟨e, he, hhead⟩ := List.mem_filterMap.mp ha
    have hl := mem_entries_iff.mp he
    obtain ⟨q, us, hq, hus, hfirst⟩ := (two_le_count_iff hl hhead).mp hcount
    exact ⟨e.1, q, e.2, us, a, hq.symm, hl, hus, hhead, hfirst⟩
  · rintro ⟨rid, rid', ts, ts', a, hne, hl, hl', hhead, hhead'⟩
    refine ⟨a, List.mem_filterMap.mpr ⟨_, mem_entries_iff.mpr hl, hhead⟩, ?_⟩
    exact (two_le_count_iff hl hhead).mpr ⟨rid', ts', hne.symm, hl', hhead'⟩

/-- **What the root says of sharing, after every run.** -/
theorem sharing_counters (ops : List Op) :
    ((run ops).hasSharing = true ↔ ∃ rid rid' ts ts' a, rid ≠ rid' ∧
      (run ops).paths.lookup rid = some ts ∧ (run ops).paths.lookup rid' = some ts' ∧
      ts.head? = some a ∧ ts'.head? = some a) ∧
    (run ops).sharedRidCount = (run ops).paths.entries.countP (run ops).sharesFirst ∧
    (run ops).sharedRidCount + (run ops).singletonRidCount = (run ops).len := by
  refine ⟨(sound_run ops).hasSharing_iff, (sound_run ops).sharedRidCount_eq, ?_⟩
  obtain ⟨live, rp, h, hcomp⟩ := sound_run ops
  exact Tree.shared_add_singleton h hcomp (run ops).paths.nodupKeys

end PendingTree

end Peek
