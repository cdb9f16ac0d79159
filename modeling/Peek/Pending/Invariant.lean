/-
The representation invariant of the pending tree, over whole runs.

`RepInv` is stated on the tree alone: what hangs below the root, where paths lead,
what each node carries.  Nothing in it mentions how it is proved.  The proof carries
`Sound` instead, a labelling with root paths under which the tree is `Counted` and
`Compressed`; `insert` and `remove` keep that, and `Sound.repInv` reads `RepInv` off
the labelling.
-/
import Peek.Pending.PendingTree
import Peek.Pending.Remove

namespace Peek

open Radix

namespace PendingTree

/-- `n` hangs below the root. -/
def Reachable (p : PendingTree) (n : NodeId) : Prop := Below p.tree.heap ROOT n

/-- How many pending requests start with `path`. -/
def pendingFrom (p : PendingTree) (path : List Token) : Nat :=
  p.paths.entries.countP fun e => path.isPrefixOf e.2

/-- The representation invariant. -/
structure RepInv (p : PendingTree) : Prop where
  /-- Every arena slot is reachable from the root or on the freelist, ... -/
  slots : ∀ i, i < p.tree.nodes.size ↔ p.Reachable i ∨ i ∈ p.tree.free
  /-- ... and never both. -/
  disjoint : ∀ i, p.Reachable i → i ∉ p.tree.free
  freeNodup : p.tree.free.Nodup
  rootNotFree : ROOT ∉ p.tree.free
  childParent : ∀ n a c, p.Reachable n → (p.tree.node n).children.lookup a = some c →
    (p.tree.node c).parent = n
  /-- A node other than the root sits in its parent's child map, under its edge's first token. -/
  edgeKey : ∀ n, p.Reachable n → n ≠ ROOT → ∃ a tl, (p.tree.node n).edge = a :: tl ∧
    p.Reachable (p.tree.node n).parent ∧
    (p.tree.node (p.tree.node n).parent).children.lookup a = some n
  branching : ∀ n, p.Reachable n → n ≠ ROOT →
    (p.tree.node n).terminators ≠ [] ∨ 2 ≤ (p.tree.node n).children.entries.length
  count : ∀ n path, PathTo p.tree.heap n path → n ≠ ROOT →
    (p.tree.node n).pendingCount = p.pendingFrom path
  terminators : ∀ n path, PathTo p.tree.heap n path → ∀ rid,
    rid ∈ (p.tree.node n).terminators ↔ p.paths.lookup rid = some path
  terminatorsNodup : ∀ n, p.Reachable n → (p.tree.node n).terminators.Nodup
  rids : ∀ rid, (∃ n, p.Reachable n ∧ rid ∈ (p.tree.node n).terminators) ↔ rid ∈ p.paths

/-- Some labelling shows the tree counted, for the pending requests, and compressed. -/
def Sound (p : PendingTree) : Prop :=
  ∃ live rp, p.tree.Counted live rp p.paths.entries ∧ p.tree.Compressed live

/-! ### Reading the invariant off a labelling -/

variable {p : PendingTree} {live : Set NodeId} {rp : NodeId → List Token}

theorem reachable_iff (h : p.tree.Counted live rp p.paths.entries) {n : NodeId} :
    p.Reachable n ↔ n ∈ live :=
  (Labelled.live_iff_below h.labelled).symm

theorem mem_entries_iff {rid : Rid} {ts : List Token} :
    (⟨rid, ts⟩ : (_ : Rid) × List Token) ∈ p.paths.entries ↔ p.paths.lookup rid = some ts :=
  AList.mem_lookup_iff.symm

theorem repInv_of_counted (h : p.tree.Counted live rp p.paths.entries)
    (hcomp : p.tree.Compressed live) : RepInv p := by
  have hlab := h.labelled
  refine ⟨?_, ?_, h.arena.nodup, h.arena.disjoint ROOT hlab.rootLive, ?_, ?_, ?_, ?_, ?_, ?_, ?_⟩
  · intro i; rw [reachable_iff h]; exact h.arena.slots i
  · intro i hi; exact h.arena.disjoint i ((reachable_iff h).mp hi)
  · intro n a c hn hk; exact hlab.kidParent ((reachable_iff h).mp hn) hk
  · intro n hn hr
    obtain ⟨a, ha, hp, hk⟩ := hlab.up ((reachable_iff h).mp hn) hr
    obtain ⟨tl, htl⟩ := List.head?_eq_some_iff.mp ha
    exact ⟨a, tl, htl, (reachable_iff h).mpr hp, hk⟩
  · intro n hn hr; exact hcomp n ((reachable_iff h).mp hn) hr
  · intro n path hpath hr
    obtain ⟨hn, rfl⟩ := hlab.pathTo_iff.mp hpath
    exact h.count n hn hr
  · intro n path hpath rid
    obtain ⟨hn, rfl⟩ := hlab.pathTo_iff.mp hpath
    exact (h.terms n hn rid).trans mem_entries_iff
  · intro n hn; exact h.termsNodup n ((reachable_iff h).mp hn)
  · intro rid
    constructor
    · rintro ⟨n, hn, hmem⟩
      have := mem_entries_iff.mp ((h.terms n ((reachable_iff h).mp hn) rid).mp hmem)
      exact AList.lookup_isSome.mp (by rw [this]; rfl)
    · intro hmem
      obtain ⟨ts, hts⟩ := Option.isSome_iff_exists.mp (AList.lookup_isSome.mpr hmem)
      obtain ⟨n, hn, hpath⟩ := h.covers _ (mem_entries_iff.mpr hts)
      exact ⟨n, (reachable_iff h).mpr hn, (h.terms n hn rid).mpr (by
        rw [hpath]; exact mem_entries_iff.mpr hts)⟩

theorem Sound.repInv (h : Sound p) : RepInv p := by
  obtain ⟨live, rp, hc, hcomp⟩ := h
  exact repInv_of_counted hc hcomp

/-! ### One operation -/

theorem sound_new : Sound new :=
  ⟨{ROOT}, fun _ => [], Tree.new_counted, fun _ hn hr => absurd hn hr⟩

theorem Sound.insert (h : Sound p) (rid : Rid) (tokens : List Token) :
    Sound (p.insert rid tokens).2 := by
  unfold PendingTree.insert
  by_cases hmem : p.contains rid
  · rw [if_pos hmem]; exact h
  · rw [if_neg hmem]
    obtain ⟨live, rp, hc, hcomp⟩ := h
    have hnone : p.paths.lookup rid = none := by simpa [contains] using hmem
    have hfresh : ∀ ts, (⟨rid, ts⟩ : (_ : Rid) × List Token) ∉ p.paths.entries := by
      intro ts hts
      rw [mem_entries_iff, hnone] at hts
      simp at hts
    obtain ⟨live', rp', hc', hcomp'⟩ := Tree.insert_counted hc hcomp hfresh tokens
    refine ⟨live', rp', ?_, hcomp'⟩
    simp only
    rw [AList.entries_insert_of_notMem (AList.lookup_eq_none.mp hnone)]
    exact hc'

/-- A pending request is found in the tree, and taking it out keeps the tree sound. -/
theorem Sound.remove (h : Sound p) (rid : Rid) :
    (p.remove rid).1 = (p.paths.lookup rid).isSome ∧ Sound (p.remove rid).2 := by
  unfold PendingTree.remove
  cases hl : p.paths.lookup rid with
  | none => exact ⟨rfl, h⟩
  | some tokens =>
      obtain ⟨live, rp, hc, hcomp⟩ := h
      have hfresh : ∀ ts, (⟨rid, ts⟩ : (_ : Rid) × List Token) ∉ (p.paths.erase rid).entries := by
        intro ts hts
        rw [← AList.mem_lookup_iff, AList.lookup_erase] at hts
        simp at hts
      obtain ⟨hok, live', rp', hc', hcomp'⟩ :=
        Tree.remove_counted hc hcomp (Map.perm_erase_cons hl) hfresh
      exact ⟨hok, live', rp', hc', hcomp'⟩

theorem Sound.insertMany (h : Sound p) (items : List (Rid × List Token)) :
    Sound (p.insertMany items).2 := by
  have hfold : ∀ (items : List (Rid × List Token)) (p : PendingTree), Sound p →
      Sound (items.foldl (fun p item => (p.insert item.1 item.2).2) p) := by
    intro items
    induction items with
    | nil => intro p h; exact h
    | cons item items ih => intro p h; exact ih _ (h.insert item.1 item.2)
  unfold PendingTree.insertMany
  cases p.checkPresent items with
  | error e => exact h
  | ok u =>
      cases checkTwice [] items with
      | error e => exact h
      | ok u => exact hfold items p h

theorem removeMany_snd (p : PendingTree) (rids : List Rid) :
    (p.removeMany rids).2 = rids.foldl (fun p rid => (p.remove rid).2) p := by
  suffices key : ∀ (rids : List Rid) (n : Nat) (p : PendingTree),
      (rids.foldl (fun acc rid => (if (acc.2.remove rid).1 then acc.1 + 1 else acc.1,
        (acc.2.remove rid).2)) (n, p)).2 = rids.foldl (fun p rid => (p.remove rid).2) p from
    key rids 0 p
  intro rids
  induction rids with
  | nil => intro n p; rfl
  | cons rid rids ih => intro n p; exact ih _ _

theorem Sound.removeMany (h : Sound p) (rids : List Rid) : Sound (p.removeMany rids).2 := by
  rw [removeMany_snd]
  induction rids generalizing p with
  | nil => exact h
  | cons rid rids ih => exact ih (h.remove rid).2

/-- One call keeps the tree sound, whether it returns or raises. -/
theorem Sound.step (h : Sound p) (op : Op) : Sound (p.step op) := by
  cases op with
  | insert rid tokens =>
      have := h.insert rid tokens
      simp only [PendingTree.step, pyInsert]
      split <;> exact this
  | remove rid =>
      have := (h.remove rid).2
      simp only [PendingTree.step, pyRemove]
      split <;> exact this
  | discard rid => exact (h.remove rid).2
  | insertMany items => exact h.insertMany items
  | removeMany rids => exact h.removeMany rids

/-! ### Every run -/

theorem sound_run (ops : List Op) : Sound (run ops) := by
  suffices key : ∀ (ops : List Op) (p : PendingTree), Sound p → Sound (ops.foldl step p) from
    key ops new sound_new
  intro ops
  induction ops with
  | nil => intro p h; exact h
  | cons op ops ih => intro p h; exact ih _ (h.step op)

/-- **The representation invariant holds after every operation of every run.** -/
theorem run_repInv (ops : List Op) : RepInv (run ops) :=
  (sound_run ops).repInv

end PendingTree

end Peek
