/-
Climbing from the nodes of the cache, and what climbs count.

Locks and queue references are both counts that a climb keeps: it starts at some node and
adds one to every node it passes on the way to the root.  So a node's count is the number
of climbs, not yet taken back, that pass it (`Counted`), and this is what `Keeps` says
survives a call: a split copies the count to the new upper half, which the same climbs
pass, and a new leaf, which none of them passes, starts at zero.

The objects outside the tree count too.  A node may have been evicted while some climb that
started there is still to be taken back, and its parent links go on leading to the root.
-/
import Peek.Base.ParentChain
import Peek.Sglang.CacheEvict

namespace Peek

open Radix ParentChain

/-- The counts that climbs keep. -/
inductive RefField where
  | lock
  | queue
  deriving DecidableEq

def TreeNode.refs (f : RefField) (n : TreeNode) : Int :=
  match f with
  | .lock => n.lockRef
  | .queue => n.queueRefCount

namespace RadixCache

/-- The parent links of all objects. -/
def parentOf (c : RadixCache) (n : NodeId) : NodeId := (c.node n).parent

/-- The nodes a climb from `n` passes. -/
def chain (c : RadixCache) (n : NodeId) : List NodeId :=
  climbed c.parentOf rootNode c.nodes.size n

/-- How many climbs from `entries` pass `n`. -/
def passing (c : RadixCache) (entries : List NodeId) (n : NodeId) : Nat :=
  entries.countP fun e => n ∈ c.chain e

variable {c c' : RadixCache} {live live' : Set NodeId} {rp : NodeId → List ChildKey}
  {pv : NodeId → List Index}

/-- Every object's parent links lead to the root. -/
structure Chained (c : RadixCache) : Prop where
  root : rootNode < c.nodes.size
  parent : ∀ n, n < c.nodes.size → n ≠ rootNode → c.parentOf n < c.nodes.size
  up : ∀ n, n < c.nodes.size → ∃ k, Up c.parentOf rootNode k n

namespace Chained

theorem closed (h : Chained c) : ∀ n ∈ {n | n < c.nodes.size}, n ≠ rootNode →
    c.parentOf n ∈ {n | n < c.nodes.size} := h.parent

/-- No chain is longer than there are objects. -/
theorem up_le (h : Chained c) {e : NodeId} (he : e < c.nodes.size) :
    ∃ k ≤ c.nodes.size, Up c.parentOf rootNode k e := by
  obtain ⟨k, hk⟩ := h.up e he
  have hle := hk.le_card (S := Finset.range c.nodes.size) (fun n hn hr =>
    Finset.mem_range.mpr (h.parent n (Finset.mem_range.mp hn) hr)) (Finset.mem_range.mpr he)
  rw [Finset.card_range] at hle
  exact ⟨k, hle, hk⟩

theorem mem_chain_iff (h : Chained c) {e : NodeId} (he : e < c.nodes.size) (n : NodeId) :
    n ∈ c.chain e ↔ Passes c.parentOf rootNode e n := by
  obtain ⟨k, hle, hk⟩ := h.up_le he
  exact mem_climbed_iff hk hle n

/-- A climb that passes a node passes its parent, down to the last one. -/
theorem passing_le_parent (h : Chained c) {entries : List NodeId}
    (hbound : ∀ e ∈ entries, e < c.nodes.size) {n : NodeId} (hr : c.parentOf n ≠ rootNode) :
    c.passing entries n ≤ c.passing entries (c.parentOf n) := by
  unfold passing
  refine List.countP_mono_left fun e he hn => ?_
  rw [decide_eq_true_eq] at hn ⊢
  rw [h.mem_chain_iff (hbound e he)] at hn ⊢
  exact hn.next hr

end Chained

/-- Nothing passes the root. -/
theorem passing_root (c : RadixCache) (entries : List NodeId) : c.passing entries rootNode = 0 := by
  unfold passing
  rw [List.countP_eq_zero]
  intro e _ hmem
  rw [decide_eq_true_eq] at hmem
  exact absurd rfl (passes_of_mem_climbed hmem).ne_root

theorem passing_cons (c : RadixCache) (e : NodeId) (entries : List NodeId) (n : NodeId) :
    c.passing (e :: entries) n = c.passing entries n + if n ∈ c.chain e then 1 else 0 := by
  unfold passing
  rw [List.countP_cons]
  simp only [decide_eq_true_eq]

/-- The climbs of the same entries in two caches. -/
theorem passing_congr (h : Chained c) (h' : Chained c') {entries : List NodeId} {n n' : NodeId}
    (hbound : ∀ e ∈ entries, e < c.nodes.size ∧ e < c'.nodes.size)
    (hpass : ∀ e, e < c.nodes.size → (Passes c'.parentOf rootNode e n' ↔
      Passes c.parentOf rootNode e n)) : c'.passing entries n' = c.passing entries n := by
  unfold passing
  refine List.countP_congr fun e he => ?_
  rw [decide_eq_true_eq, decide_eq_true_eq, h'.mem_chain_iff (hbound e he).2,
    h.mem_chain_iff (hbound e he).1]
  exact hpass e (hbound e he).1

/-- **A count is the number of climbs from `entries` that pass the node.** -/
structure Counted (f : RefField) (c : RadixCache) (live : Set NodeId) (entries : List NodeId) :
    Prop where
  bound : ∀ e ∈ entries, e < c.nodes.size
  count : ∀ n ∈ live, n ≠ rootNode → (c.node n).refs f = c.passing entries n

/-- Counts fall on the way down. -/
theorem Counted.le_parent {f : RefField} {entries : List NodeId} (h : Counted f c live entries)
    (hc : Chained c) {n : NodeId} (hn : n ∈ live) (hr : n ≠ rootNode) (hp : c.parentOf n ∈ live)
    (hpr : c.parentOf n ≠ rootNode) : (c.node n).refs f ≤ (c.node (c.parentOf n)).refs f := by
  rw [h.count n hn hr, h.count _ hp hpr, Int.ofNat_le]
  exact hc.passing_le_parent h.bound hpr

theorem Counted.nonneg {f : RefField} {entries : List NodeId} (h : Counted f c live entries)
    {n : NodeId} (hn : n ∈ live) (hr : n ≠ rootNode) : 0 ≤ (c.node n).refs f := by
  rw [h.count n hn hr]
  exact Int.natCast_nonneg _

/-! ### Leaves -/

/-- The node is listed as evictable just when it is an unlocked leaf of the tree. -/
def LeafStatus (c : RadixCache) (live : Set NodeId) (n : NodeId) : Prop :=
  n ∈ c.evictableLeaves ↔ n ∈ live ∧ n ≠ rootNode ∧ (c.node n).children.entries = [] ∧
    (c.node n).lockRef ≤ 0

/-- **What may be evicted is what the list says.** -/
def LeavesExact (c : RadixCache) (live : Set NodeId) : Prop := ∀ n, LeafStatus c live n

/-- Correcting a node's status makes it right. -/
theorem leafStatus_updateLeafStatus_self (hnd : c.evictableLeaves.Nodup)
    (hlock : 0 < (c.node rootNode).lockRef) {n : NodeId} (hn : n ∈ live) :
    LeafStatus (c.updateLeafStatus n) live n := by
  unfold LeafStatus
  rw [node_updateLeafStatus]
  have hroot : (c.node n).lockRef ≤ 0 → n ≠ rootNode := by
    rintro hl rfl
    omega
  unfold updateLeafStatus
  by_cases hl : (c.node n).lockRef > 0
  · rw [if_pos hl]
    exact iff_of_false (fun hmem => (hnd.mem_erase_iff.mp hmem).1 rfl) fun h => by omega
  · rw [if_neg hl]
    by_cases hk : (c.node n).children.entries ≠ []
    · rw [if_pos hk]
      exact iff_of_false (fun hmem => (hnd.mem_erase_iff.mp hmem).1 rfl) fun h => hk h.2.2.1
    · rw [if_neg hk]
      rw [not_not] at hk
      have hle : (c.node n).lockRef ≤ 0 := by omega
      exact iff_of_true List.mem_insert_self ⟨hn, hroot hle, hk, hle⟩

/-- The other nodes keep theirs. -/
theorem leafStatus_updateLeafStatus_ne {n m : NodeId} (hm : m ≠ n) :
    LeafStatus (c.updateLeafStatus n) live m ↔ LeafStatus c live m := by
  have hmem : m ∈ (c.updateLeafStatus n).evictableLeaves ↔ m ∈ c.evictableLeaves := by
    unfold updateLeafStatus
    by_cases hl : (c.node n).lockRef > 0
    · rw [if_pos hl]
      exact List.mem_erase_of_ne hm
    · rw [if_neg hl]
      by_cases hk : (c.node n).children.entries ≠ []
      · rw [if_pos hk]
        exact List.mem_erase_of_ne hm
      · rw [if_neg hk, List.mem_insert_iff]
        exact or_iff_right hm
  unfold LeafStatus
  rw [hmem, node_updateLeafStatus]

/-! ### What calls keep -/

/-- The chains, the counts, the leaves: what every call but the counting ones keeps. -/
structure Keeps (c : RadixCache) (live : Set NodeId) (c' : RadixCache) (live' : Set NodeId) :
    Prop extends Later c c' where
  chained : Chained c → Chained c'
  counted : Chained c → ∀ f entries, Counted f c live entries → Counted f c' live' entries
  rootRefs : ∀ f, (c'.node rootNode).refs f = (c.node rootNode).refs f
  leaves : LeavesExact c live → LeavesExact c' live'

theorem Keeps.refl (c : RadixCache) (live : Set NodeId) : Keeps c live c live :=
  ⟨Later.refl c, id, fun _ _ _ h => h, fun _ => rfl, id⟩

theorem Keeps.trans {c1 c2 c3 : RadixCache} {l1 l2 l3 : Set NodeId} (h : Keeps c1 l1 c2 l2)
    (h' : Keeps c2 l2 c3 l3) : Keeps c1 l1 c3 l3 where
  toLater := h.toLater.trans h'.toLater
  chained hc := h'.chained (h.chained hc)
  counted hc f entries hcount := h'.counted (h.chained hc) f entries (h.counted hc f entries hcount)
  rootRefs f := (h'.rootRefs f).trans (h.rootRefs f)
  leaves hl := h'.leaves (h.leaves hl)

/-- Same links and counts on all objects. -/
structure SameLinks (c c' : RadixCache) : Prop extends Later c c' where
  sameSize : c'.nodes.size = c.nodes.size
  parents : ∀ n, c'.parentOf n = c.parentOf n
  refs : ∀ f n, (c'.node n).refs f = (c.node n).refs f

theorem SameLinks.parentOf_eq (h : SameLinks c c') : c'.parentOf = c.parentOf :=
  funext h.parents

theorem chained_of_parentOf (hp : c'.parentOf = c.parentOf) (hsize : c'.nodes.size = c.nodes.size)
    (h : Chained c) : Chained c' := by
  refine ⟨?_, fun n hn hr => ?_, fun n hn => ?_⟩
  · rw [hsize]; exact h.root
  · rw [hsize] at hn ⊢
    rw [hp]
    exact h.parent n hn hr
  · rw [hsize] at hn
    rw [hp]
    exact h.up n hn

theorem passing_of_parentOf (hp : c'.parentOf = c.parentOf)
    (hsize : c'.nodes.size = c.nodes.size) (entries : List NodeId) (n : NodeId) :
    c'.passing entries n = c.passing entries n := by
  unfold passing chain
  rw [hp, hsize]

theorem SameLinks.keeps (h : SameLinks c c') (hsub : live' ⊆ live)
    (hleaves : LeavesExact c live → LeavesExact c' live') : Keeps c live c' live' where
  toLater := h.toLater
  chained hc := chained_of_parentOf h.parentOf_eq h.sameSize hc
  counted hc f entries hcount := by
    refine ⟨fun e he => ?_, fun n hn hr => ?_⟩
    · rw [h.sameSize]; exact hcount.bound e he
    · rw [h.refs, passing_of_parentOf h.parentOf_eq h.sameSize]
      exact hcount.count n (hsub hn) hr
  rootRefs f := h.refs f rootNode
  leaves := hleaves

/-- A write that no link, count or leaf depends on. -/
theorem keeps_nodeMut (c : RadixCache) (live : Set NodeId) (j : NodeId) (f : TreeNode → TreeNode)
    (hp : ∀ n, (f n).parent = n.parent) (hc : ∀ n, (f n).children = n.children)
    (hl : ∀ n, (f n).lockRef = n.lockRef) (hq : ∀ n, (f n).queueRefCount = n.queueRefCount) :
    Keeps c live (c.nodeMut j f) live := by
  have hrefs : ∀ r n, (f n).refs r = n.refs r := by
    intro r n
    cases r with
    | lock => exact hl n
    | queue => exact congrArg Nat.cast (hq n)
  have hlinks : SameLinks c (c.nodeMut j f) :=
    ⟨later_nodeMut c j f, size_nodeMut c j f, proj_nodeMut (·.parent) c j f hp,
      fun r => proj_nodeMut (·.refs r) c j f (hrefs r)⟩
  refine hlinks.keeps (fun _ hn => hn) fun h n => ?_
  unfold LeafStatus
  rw [leaves_nodeMut, proj_nodeMut (·.children) c j f hc n, proj_nodeMut (·.lockRef) c j f hl n]
  exact h n

theorem keeps_tick (c : RadixCache) (live : Set NodeId) (k : Nat) :
    Keeps c live (c.tick k) live :=
  SameLinks.keeps ⟨⟨Nat.le_refl _, rfl, rfl⟩, rfl, fun _ => rfl, fun _ _ => rfl⟩ (fun _ hn => hn)
    fun h => h

end RadixCache

end Peek
