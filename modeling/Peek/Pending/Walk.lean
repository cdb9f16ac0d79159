/-
Reading the arena as a radix tree.

`heap` forgets everything about the arena but the links, which is the shape
`Peek.Radix` reasons about, and `Arena` says which slots are live and which are on
the freelist.  The lemmas here say what each primitive does to both: writing a
node, taking a slot, descending along tokens, climbing to the root.

`descend_stopped` and `node_climb` hold for every fuel past the length of the path,
so the fuel the source-level functions pass is a bound and nothing else.
-/
import Peek.Pending.Tree
import Peek.Radix.Update
import Mathlib.Data.Set.Insert

namespace Peek

open Radix

namespace Tree

/-- The links of the arena. -/
def heap (t : Tree) : Heap NodeId Token where
  root := ROOT
  edge n := (t.node n).edge
  parent n := (t.node n).parent
  kid n a := (t.node n).children.lookup a

@[simp] theorem heap_root (t : Tree) : t.heap.root = ROOT := rfl
@[simp] theorem heap_edge (t : Tree) (n : NodeId) : t.heap.edge n = (t.node n).edge := rfl
@[simp] theorem heap_parent (t : Tree) (n : NodeId) : t.heap.parent n = (t.node n).parent := rfl
@[simp] theorem heap_kid (t : Tree) (n : NodeId) (a : Token) :
    t.heap.kid n a = (t.node n).children.lookup a := rfl

/-- The arena's slots are the live ones and, disjoint from them, the freelist. -/
structure Arena (t : Tree) (live : Set NodeId) : Prop where
  slots : ∀ i, i < t.nodes.size ↔ i ∈ live ∨ i ∈ t.free
  disjoint : ∀ i ∈ live, i ∉ t.free
  nodup : t.free.Nodup

theorem Arena.lt_size {t : Tree} {live : Set NodeId} (h : Arena t live) {i : NodeId}
    (hi : i ∈ live) : i < t.nodes.size :=
  (h.slots i).mpr (Or.inl hi)

/-! ### Writing a node -/

@[simp] theorem free_nodeMut (t : Tree) (j : NodeId) (f : Node → Node) :
    (t.nodeMut j f).free = t.free := rfl

@[simp] theorem size_nodeMut (t : Tree) (j : NodeId) (f : Node → Node) :
    (t.nodeMut j f).nodes.size = t.nodes.size := by simp [nodeMut]

theorem node_nodeMut_ne (t : Tree) {i j : NodeId} (f : Node → Node) (h : i ≠ j) :
    (t.nodeMut j f).node i = t.node i := by
  simp [node, nodeMut, Array.getD_eq_getD_getElem?, Array.getElem?_modify, Ne.symm h]

theorem node_nodeMut_self (t : Tree) {j : NodeId} (f : Node → Node) (h : j < t.nodes.size) :
    (t.nodeMut j f).node j = f (t.node j) := by
  simp [node, nodeMut, Array.getD_eq_getD_getElem?, Array.getElem_modify, h]

theorem node_nodeMut_oob (t : Tree) {j : NodeId} (f : Node → Node) (h : ¬ j < t.nodes.size) :
    (t.nodeMut j f).node j = t.node j := by
  simp [node, nodeMut, Array.getD_eq_getD_getElem?, h]

/-- A write that leaves a field alone leaves it alone on every node. -/
theorem proj_nodeMut {β : Type} (p : Node → β) (t : Tree) (j : NodeId) (f : Node → Node)
    (hf : ∀ n, p (f n) = p n) (i : NodeId) : p ((t.nodeMut j f).node i) = p (t.node i) := by
  by_cases hij : i = j
  · subst hij
    by_cases hlt : i < t.nodes.size
    · rw [node_nodeMut_self t f hlt, hf]
    · rw [node_nodeMut_oob t f hlt]
  · rw [node_nodeMut_ne t f hij]

theorem Arena.nodeMut {t : Tree} {live : Set NodeId} (h : Arena t live) (j : NodeId)
    (f : Node → Node) : Arena (t.nodeMut j f) live :=
  ⟨fun i => by rw [size_nodeMut, free_nodeMut]; exact h.slots i, h.disjoint, h.nodup⟩

/-- A write that keeps every link keeps the heap. -/
theorem heap_nodeMut (t : Tree) (j : NodeId) (f : Node → Node) (he : ∀ n, (f n).edge = n.edge)
    (hp : ∀ n, (f n).parent = n.parent) (hc : ∀ n, (f n).children = n.children) :
    (t.nodeMut j f).heap = t.heap := by
  have h1 : ∀ n, ((t.nodeMut j f).node n).edge = (t.node n).edge :=
    proj_nodeMut (·.edge) t j f he
  have h2 : ∀ n, ((t.nodeMut j f).node n).parent = (t.node n).parent :=
    proj_nodeMut (·.parent) t j f hp
  have h3 : ∀ n, ((t.nodeMut j f).node n).children = (t.node n).children :=
    proj_nodeMut (·.children) t j f hc
  simp only [heap, h1, h2, h3]

/-! ### Giving children a new parent -/

@[simp] theorem free_reparent (t : Tree) (cs : List NodeId) (p : NodeId) :
    (t.reparent cs p).free = t.free := by
  unfold reparent
  induction cs generalizing t with
  | nil => rfl
  | cons c cs ih => rw [List.foldl_cons, ih]; rfl

@[simp] theorem size_reparent (t : Tree) (cs : List NodeId) (p : NodeId) :
    (t.reparent cs p).nodes.size = t.nodes.size := by
  unfold reparent
  induction cs generalizing t with
  | nil => rfl
  | cons c cs ih => rw [List.foldl_cons, ih, size_nodeMut]

theorem node_reparent_notMem (t : Tree) {cs : List NodeId} (p : NodeId) {i : NodeId}
    (h : i ∉ cs) : (t.reparent cs p).node i = t.node i := by
  unfold reparent
  induction cs generalizing t with
  | nil => rfl
  | cons c cs ih =>
      rw [List.mem_cons, not_or] at h
      rw [List.foldl_cons, ih _ h.2, node_nodeMut_ne t _ h.1]

theorem node_reparent_mem (t : Tree) {cs : List NodeId} (p : NodeId) {i : NodeId}
    (hi : i < t.nodes.size) (h : i ∈ cs) :
    (t.reparent cs p).node i = { t.node i with parent := p } := by
  unfold reparent
  induction cs generalizing t with
  | nil => simp at h
  | cons c cs ih =>
      rw [List.foldl_cons]
      by_cases hcs : i ∈ cs
      · rw [ih _ (by rw [size_nodeMut]; exact hi) hcs]
        by_cases hic : i = c
        · subst hic; rw [node_nodeMut_self t _ hi]
        · rw [node_nodeMut_ne t _ hic]
      · have hic : i = c := by
          rcases List.mem_cons.mp h with h | h
          · exact h
          · exact absurd h hcs
        subst hic
        have := node_reparent_notMem (t.nodeMut i fun n => { n with parent := p }) p hcs
        unfold reparent at this
        rw [this, node_nodeMut_self t _ hi]

theorem Arena.reparent {t : Tree} {live : Set NodeId} (h : Arena t live) (cs : List NodeId)
    (p : NodeId) : Arena (t.reparent cs p) live :=
  ⟨fun i => by rw [size_reparent, free_reparent]; exact h.slots i,
    fun i hi => by rw [free_reparent]; exact h.disjoint i hi, by rw [free_reparent]; exact h.nodup⟩

/-! ### Taking and returning slots -/

/-- **A fresh slot is one that was dead**, whether it came off the freelist or grew the arena. -/
theorem alloc_spec {t : Tree} {live : Set NodeId} (h : Arena t live) (edge : List Token)
    (parent : NodeId) :
    (t.alloc edge parent).2 ∉ live ∧
      Arena (t.alloc edge parent).1 (Insert.insert (t.alloc edge parent).2 live) ∧
      (t.alloc edge parent).1.node (t.alloc edge parent).2 = Node.new edge parent ∧
      ∀ i, i ≠ (t.alloc edge parent).2 → (t.alloc edge parent).1.node i = t.node i := by
  unfold alloc
  cases hf : t.free with
  | nil =>
      refine ⟨fun hl => Nat.lt_irrefl _ (h.lt_size hl), ⟨?_, ?_, ?_⟩, ?_, ?_⟩
      · intro i
        have := h.slots i
        simp only [hf, List.not_mem_nil, or_false] at this ⊢
        simp only [Array.size_push, Set.mem_insert_iff]
        rw [← this]
        omega
      · intro i _; simp
      · simp
      · simp [node, Array.getD_eq_getD_getElem?]
      · intro i hi
        simp [node, Array.getD_eq_getD_getElem?, Array.getElem?_push, hi]
  | cons id free =>
      have hnd := h.nodup
      rw [hf, List.nodup_cons] at hnd
      have hid : id < t.nodes.size := (h.slots id).mpr (Or.inr (by simp [hf]))
      have hdead : id ∉ live := fun hl => h.disjoint id hl (by simp [hf])
      refine ⟨hdead, ⟨?_, ?_, hnd.2⟩, ?_, ?_⟩
      · intro i
        have := h.slots i
        simp only [hf, List.mem_cons] at this
        simp only [Array.size_setIfInBounds, Set.mem_insert_iff]
        rw [this]
        tauto
      · rintro i (rfl | hi)
        · exact hnd.1
        · intro hfree
          exact h.disjoint i hi (by rw [hf]; exact List.mem_cons_of_mem _ hfree)
      · simp [node, Array.getD_eq_getD_getElem?, hid]
      · intro i hi
        simp [node, Array.getD_eq_getD_getElem?, Ne.symm hi]

theorem node_freeSlot_ne (t : Tree) {i j : NodeId} (h : i ≠ j) :
    (t.freeSlot j).node i = t.node i := by
  simp [node, freeSlot, Array.getD_eq_getD_getElem?, Ne.symm h]

theorem Arena.freeSlot {t : Tree} {live : Set NodeId} (h : Arena t live) {j : NodeId}
    (hj : j ∈ live) : Arena (t.freeSlot j) (live \ {j}) := by
  refine ⟨?_, ?_, ?_⟩
  · intro i
    have := h.slots i
    simp only [Tree.freeSlot, Array.size_setIfInBounds, Set.mem_sdiff, Set.mem_singleton_iff,
      List.mem_cons]
    rw [this]
    by_cases hij : i = j
    · subst hij; simp [hj]
    · simp [hij]
  · rintro i ⟨hi, hij⟩ hmem
    rcases List.mem_cons.mp hmem with rfl | hmem
    · exact hij rfl
    · exact h.disjoint i hi hmem
  · exact List.nodup_cons.mpr ⟨h.disjoint j hj, h.nodup⟩

/-! ### Descending -/

@[simp] theorem matchEdgeLen_eq (edge tokens : List Token) :
    matchEdgeLen edge tokens = lcpLen edge tokens :=
  length_takeWhile_zip edge tokens

theorem getElem?_of_ne_length {ts : List Token} {k : Nat} (hk : k ≤ ts.length)
    (hne : ¬ k = ts.length) : ts[k]? = some (ts.getD k 0) := by
  rw [List.getD_eq_getElem?_getD, List.getElem?_eq_getElem (by omega)]
  rfl

theorem descendLoop_stopped {t : Tree} {live : Set NodeId} {rp : NodeId → List Token}
    (h : Labelled t.heap live rp) (ts : List Token) :
    ∀ (fuel : Nat) (n : NodeId) (k : Nat), n ∈ live → k ≤ ts.length → rp n = ts.take k →
      ts.length < k + fuel →
      Stopped t.heap live rp ts (t.descendLoop ts fuel n k).endNode
        (t.descendLoop ts fuel n k).endOffset (t.descendLoop ts fuel n k).consumed := by
  intro fuel
  induction fuel with
  | zero => intro n k _ hk _ hlt; omega
  | succ fuel ih =>
      intro n k hn hk hp hlt
      rw [descendLoop]
      by_cases hend : k = ts.length
      · rw [if_pos hend]
        refine Stopped.atNode hn hk hp fun a ha => ?_
        rw [hend, List.getElem?_length] at ha
        simp at ha
      · rw [if_neg hend]
        have ha := getElem?_of_ne_length hk hend
        cases hkid : (t.node n).children.lookup (ts.getD k 0) with
        | none =>
            refine Stopped.atNode hn hk hp fun a ha' => ?_
            rw [ha, Option.some.injEq] at ha'
            rw [← ha']; exact hkid
        | some c =>
            simp only [matchEdgeLen_eq]
            by_cases hcut : lcpLen (t.node c).edge (ts.drop k) < (t.node c).edge.length
            · rw [if_pos hcut]
              exact Stopped.onEdge hn hp ha hkid hcut
            · rw [if_neg hcut]
              have hle := lcpLen_le_right (t.node c).edge (ts.drop k)
              have hpos : 0 < lcpLen (t.node c).edge (ts.drop k) := h.walk_pos hn ha hkid
              have hfull : lcpLen (t.node c).edge (ts.drop k) = (t.node c).edge.length :=
                Nat.le_antisymm (lcpLen_le_left _ _) (Nat.le_of_not_lt hcut)
              rw [List.length_drop] at hle
              refine ih c _ (h.kidLive hn hkid) (by omega) ?_ (by omega)
              rw [h.walk_full hn hp hkid hfull, hfull]
              rfl

theorem descend_stopped {t : Tree} {live : Set NodeId} {rp : NodeId → List Token}
    (h : Labelled t.heap live rp) (ts : List Token) :
    Stopped t.heap live rp ts (t.descend ts).endNode (t.descend ts).endOffset
      (t.descend ts).consumed :=
  descendLoop_stopped h ts _ ROOT 0 h.rootLive (Nat.zero_le _) (by simpa using h.rootPath) (by omega)

theorem consumed_le {t : Tree} {live : Set NodeId} {rp : NodeId → List Token}
    (h : Labelled t.heap live rp) (ts : List Token) : (t.descend ts).consumed ≤ ts.length :=
  (h.stopped_path (descend_stopped h ts)).2.1

/-- What is held is descended to its end. -/
theorem consumed_of_held {t : Tree} {live : Set NodeId} {rp : NodeId → List Token}
    (h : Labelled t.heap live rp) {ts : List Token} (hheld : Held live rp ts) :
    (t.descend ts).consumed = ts.length := by
  rw [← List.take_length (l := ts)] at hheld
  have hle := (h.held_take_iff (descend_stopped h ts) (Nat.le_refl _)).mp hheld
  exact Nat.le_antisymm (consumed_le h ts) hle

/-! ### Climbing -/

/-- A climb applies its write once to each node on the way up, the root left out. -/
theorem node_climb {live : Set NodeId} {rp : NodeId → List Token} {f : Node → Node}
    (he : ∀ n, (f n).edge = n.edge) (hp : ∀ n, (f n).parent = n.parent)
    (hc : ∀ n, (f n).children = n.children) :
    ∀ (fuel : Nat) (cur : NodeId) (t : Tree), Labelled t.heap live rp → Arena t live →
      cur ∈ live → (rp cur).length ≤ fuel →
      (climb f fuel cur t).heap = t.heap ∧ Arena (climb f fuel cur t) live ∧
        ∀ m ∈ live, (climb f fuel cur t).node m =
          if m ≠ ROOT ∧ rp m <+: rp cur then f (t.node m) else t.node m := by
  intro fuel
  induction fuel with
  | zero =>
      intro cur t h ha hcur hlen
      have hroot : cur = ROOT := by
        by_contra hr
        have := h.parent_length_lt hcur hr
        omega
      refine ⟨rfl, ha, fun m hm => ?_⟩
      rw [climb, if_neg]
      rintro ⟨hmr, hpre⟩
      rw [hroot] at hpre
      exact hmr (h.eq_root_of_prefix hm hpre)
  | succ fuel ih =>
      intro cur t h ha hcur hlen
      rw [climb]
      by_cases hroot : cur = ROOT
      · rw [if_pos hroot]
        refine ⟨rfl, ha, fun m hm => ?_⟩
        rw [if_neg]
        rintro ⟨hmr, hpre⟩
        rw [hroot] at hpre
        exact hmr (h.eq_root_of_prefix hm hpre)
      · rw [if_neg hroot]
        have hheap := heap_nodeMut t cur f he hp hc
        have hlt := h.parent_length_lt hcur hroot
        have hpar : ((t.nodeMut cur f).node cur).parent = (t.node cur).parent :=
          proj_nodeMut (·.parent) t cur f hp cur
        simp only [hpar]
        obtain ⟨h1, h2, h3⟩ := ih (t.node cur).parent (t.nodeMut cur f) (by rw [hheap]; exact h)
          (ha.nodeMut cur f) (h.parent_live hcur hroot) (by simp only [heap_parent] at hlt; omega)
        refine ⟨by rw [h1, hheap], h2, fun m hm => ?_⟩
        rw [h3 m hm]
        have hiff := h.prefix_parent_iff hm hcur hroot
        simp only [heap_parent] at hiff
        by_cases hmc : m = cur
        · subst hmc
          have hnot : ¬ rp m <+: rp (t.node m).parent := by
            intro hpre
            have := hpre.length_le
            simp only [heap_parent] at hlt
            omega
          rw [if_neg (by tauto), if_pos ⟨hroot, List.prefix_refl _⟩,
            node_nodeMut_self t f (ha.lt_size hm)]
        · rw [node_nodeMut_ne t f hmc]
          by_cases hpre : rp m <+: rp (t.node cur).parent
          · by_cases hmr : m = ROOT
            · rw [if_neg (by tauto), if_neg (by tauto)]
            · rw [if_pos ⟨hmr, hpre⟩, if_pos ⟨hmr, hiff.mpr (Or.inr hpre)⟩]
          · rw [if_neg (by tauto), if_neg (by tauto)]

end Tree

end Peek
