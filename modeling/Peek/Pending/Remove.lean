/-
What `Tree.remove` does to the tree.

Taking out the terminator and the counts is the mirror image of inserting them.  The
work is in `gc`: it may delete a chain of dead leaves, and it may fuse a node with the
child that is left to it.  Both keep the tree counted, and both leave at most one node
uncompressed, namely the one `gc` looks at next.
-/
import Peek.Pending.Insert

namespace Peek

open Radix

namespace Tree

variable {t t' : Tree} {live : Set NodeId} {rp : NodeId → List Token} {E E' : Requests}

/-! ### Taking out the terminator and the counts -/

/-- The order in which requests are listed says nothing. -/
theorem Counted.perm (h : Counted t live rp E) (hp : E.Perm E') : Counted t live rp E' where
  labelled := h.labelled
  arena := h.arena
  rootCount := h.rootCount
  count n hn hr := (h.count n hn hr).trans (hp.countP_eq _)
  terms n hn r := (h.terms n hn r).trans hp.mem_iff
  termsNodup := h.termsNodup
  covers e he := h.covers e (hp.mem_iff.mpr he)

/-- Taking out a request at the node whose path is its tokens. -/
theorem unterminate_counted {n : NodeId} {rid : Rid}
    (h : Counted t live rp (⟨rid, rp n⟩ :: E)) (hn : n ∈ live)
    (hfresh : ∀ ts, (⟨rid, ts⟩ : (_ : Rid) × List Token) ∉ E) {fuel : Nat}
    (hfuel : (rp n).length ≤ fuel) :
    Counted (climb (fun x => { x with pendingCount := x.pendingCount - 1 }) fuel n
      (t.nodeMut n fun x => { x with terminators := x.terminators.erase rid })) live rp E := by
  set t1 := t.nodeMut n fun x => { x with terminators := x.terminators.erase rid } with ht1
  have hheap : t1.heap = t.heap :=
    heap_nodeMut t n _ (fun _ => rfl) (fun _ => rfl) (fun _ => rfl)
  have hlab : Labelled t1.heap live rp := by rw [hheap]; exact h.labelled
  obtain ⟨hheap', harena', hnode⟩ :=
    node_climb (f := fun x => { x with pendingCount := x.pendingCount - 1 }) (fun _ => rfl)
      (fun _ => rfl) (fun _ => rfl) fuel n t1 hlab (h.arena.nodeMut n _) hn hfuel
  have hcount1 : ∀ m, (t1.node m).pendingCount = (t.node m).pendingCount :=
    proj_nodeMut (·.pendingCount) t n _ fun _ => rfl
  have hterm1 : ∀ m ∈ live, (t1.node m).terminators =
      if m = n then (t.node m).terminators.erase rid else (t.node m).terminators := by
    intro m hm
    by_cases hmn : m = n
    · subst hmn
      rw [ht1, node_nodeMut_self _ _ (h.arena.lt_size hm), if_pos rfl]
    · rw [ht1, node_nodeMut_ne _ _ hmn, if_neg hmn]
  have hterm : ∀ m ∈ live, ((climb (fun x => { x with pendingCount := x.pendingCount - 1 }) fuel n
      t1).node m).terminators = (t1.node m).terminators := by
    intro m hm
    rw [hnode m hm]
    split <;> rfl
  refine ⟨by rw [hheap', hheap]; exact h.labelled, harena', ?_, ?_, ?_, ?_, ?_⟩
  · rw [hnode ROOT h.labelled.rootLive, if_neg (by simp), hcount1]; exact h.rootCount
  · intro m hm hmr
    have hold := h.count m hm hmr
    rw [countFrom_cons] at hold
    rw [hnode m hm]
    by_cases hpre : rp m <+: rp n
    · rw [if_pos ⟨hmr, hpre⟩]
      rw [if_pos hpre] at hold
      simp only [hcount1]
      omega
    · rw [if_neg (by tauto), hcount1, hold, if_neg hpre]; rfl
  · intro m hm r
    have hold := h.terms m hm r
    rw [List.mem_cons] at hold
    rw [hterm m hm, hterm1 m hm]
    by_cases hmn : m = n
    · subst hmn
      rw [if_pos rfl, (h.termsNodup m hm).mem_erase_iff, hold]
      constructor
      · rintro ⟨hne, heq | hmem⟩
        · exact absurd (congrArg Sigma.fst heq) hne
        · exact hmem
      · intro hmem
        refine ⟨?_, Or.inr hmem⟩
        rintro rfl
        exact hfresh _ hmem
    · rw [if_neg hmn, hold]
      refine or_iff_right ?_
      intro heq
      simp only [Sigma.mk.injEq, heq_eq_eq] at heq
      exact hmn (h.labelled.path_injective hm hn heq.2)
  · intro m hm
    rw [hterm m hm, hterm1 m hm]
    split
    · exact (h.termsNodup m hm).erase _
    · exact h.termsNodup m hm
  · exact fun e he => h.covers e (List.mem_cons_of_mem _ he)

theorem unterminate_compressed (h : Labelled t.heap live rp) (ha : Arena t live) {n : NodeId}
    (hn : n ∈ live) (hcomp : Compressed t live) (rid : Rid) {fuel : Nat}
    (hfuel : (rp n).length ≤ fuel) :
    CompressedBut (climb (fun x => { x with pendingCount := x.pendingCount - 1 }) fuel n
      (t.nodeMut n fun x => { x with terminators := x.terminators.erase rid })) live n := by
  set t1 := t.nodeMut n fun x => { x with terminators := x.terminators.erase rid } with ht1
  have hheap : t1.heap = t.heap :=
    heap_nodeMut t n _ (fun _ => rfl) (fun _ => rfl) (fun _ => rfl)
  have hlab : Labelled t1.heap live rp := by rw [hheap]; exact h
  obtain ⟨-, -, hnode⟩ :=
    node_climb (f := fun x => { x with pendingCount := x.pendingCount - 1 }) (fun _ => rfl)
      (fun _ => rfl) (fun _ => rfl) fuel n t1 hlab (ha.nodeMut n _) hn hfuel
  intro m hm hmr hmn
  have hbr : Branching (t1.node m) := by
    rw [ht1, node_nodeMut_ne _ _ hmn]; exact hcomp m hm hmr
  rw [hnode m hm]
  split <;> exact hbr

/-! ### A dead leaf deleted -/

/-- What deleting the leaf `l` writes: its slot, and its parent's child entry. -/
structure IsPruned (t t' : Tree) (live : Set NodeId) (l : NodeId) : Prop where
  arena : Arena t' (live \ {l})
  nodeAt : t'.node (t.node l).parent =
    { t.node (t.node l).parent with
      children := (t.node (t.node l).parent).children.erase ((t.node l).edge.headD 0) }
  nodeOld : ∀ m ∈ live, m ≠ l → m ≠ (t.node l).parent → t'.node m = t.node m

theorem prune_isPruned (h : Labelled t.heap live rp) (ha : Arena t live) {l : NodeId}
    (hl : l ∈ live) (hr : l ≠ ROOT) :
    IsPruned t ((t.nodeMut (t.node l).parent fun p =>
      { p with children := p.children.erase ((t.node l).edge.headD 0) }).freeSlot l) live l := by
  have hp : (t.node l).parent ∈ live := h.parent_live hl hr
  have hpl : (t.node l).parent ≠ l := h.parent_ne_self hl hr
  refine ⟨(ha.nodeMut _ _).freeSlot hl, ?_, ?_⟩
  · rw [node_freeSlot_ne _ hpl, node_nodeMut_self _ _ (ha.lt_size hp)]
  · intro m _ hml hmp
    rw [node_freeSlot_ne _ hml, node_nodeMut_ne _ _ hmp]

namespace IsPruned

variable {l : NodeId}

/-- The fields every other node keeps. -/
theorem old_fields (hs : IsPruned t t' live l) {m : NodeId} (hm : m ∈ live) (hml : m ≠ l) :
    (t'.node m).edge = (t.node m).edge ∧ (t'.node m).parent = (t.node m).parent ∧
      (t'.node m).pendingCount = (t.node m).pendingCount ∧
      (t'.node m).terminators = (t.node m).terminators := by
  by_cases hmp : m = (t.node l).parent
  · rw [hmp, hs.nodeAt]; exact ⟨rfl, rfl, rfl, rfl⟩
  · rw [hs.nodeOld m hm hml hmp]; exact ⟨rfl, rfl, rfl, rfl⟩

/-- **Deleting a dead leaf keeps the tree counted**: no request ends there. -/
theorem counted (hs : IsPruned t t' live l) (h : Counted t live rp E) (hl : l ∈ live)
    (hr : l ≠ ROOT) (hterm : (t.node l).terminators = [])
    (hkids : (t.node l).children.entries = []) : Counted t' (live \ {l}) rp E := by
  obtain ⟨a, ha, -, -⟩ := h.labelled.up hl hr
  have hfirst : (t.node l).edge.headD 0 = a := by
    rw [heap_edge] at ha
    rw [List.headD_eq_head?_getD, ha]; rfl
  have hlab : Labelled t'.heap (live \ {l}) rp := h.labelled.prune hl hr ha
    (fun x => Map.entries_eq_nil_iff.mp hkids x) rfl
    (fun m hm hml => (hs.old_fields hm hml).1) (fun m hm hml => (hs.old_fields hm hml).2.1)
    (by
      intro x
      rw [heap_kid, heap_parent, hs.nodeAt, hfirst, Map.lookup_erase_of]; rfl)
    (by
      intro m hm hml hmp x
      rw [heap_kid, hs.nodeOld m hm hml hmp]; rfl)
  refine ⟨hlab, hs.arena, ?_, ?_, ?_, ?_, ?_⟩
  · have hroot : ROOT ∈ live := h.labelled.rootLive
    rw [(hs.old_fields hroot (Ne.symm hr)).2.2.1]; exact h.rootCount
  · rintro m ⟨hm, hml⟩ hmr
    rw [(hs.old_fields hm hml).2.2.1]; exact h.count m hm hmr
  · rintro m ⟨hm, hml⟩ r
    rw [(hs.old_fields hm hml).2.2.2]; exact h.terms m hm r
  · rintro m ⟨hm, hml⟩
    rw [(hs.old_fields hm hml).2.2.2]; exact h.termsNodup m hm
  · rintro ⟨r, ts⟩ he
    obtain ⟨m, hm, hme⟩ := h.covers _ he
    refine ⟨m, ⟨hm, ?_⟩, hme⟩
    rintro rfl
    have hmem := (h.terms m hm r).mpr (by rw [hme]; exact he)
    rw [hterm] at hmem
    simp at hmem

theorem compressedBut (hs : IsPruned t t' live l) (h : CompressedBut t live l) :
    CompressedBut t' (live \ {l}) (t.node l).parent := by
  rintro m ⟨hm, hml⟩ hmr hmp
  rw [hs.nodeOld m hm hml hmp]; exact h m hm hmr hml

end IsPruned

/-! ### A node fused with its only child -/

/-- What the fusion of `n` with its child `c` writes. -/
structure IsFused (t t' : Tree) (live : Set NodeId) (n c : NodeId) : Prop where
  arena : Arena t' (live \ {c})
  nodeAt : t'.node n =
    { t.node n with
      edge := (t.node n).edge ++ (t.node c).edge, children := (t.node c).children
      terminators := (t.node c).terminators }
  nodeOld : ∀ m ∈ live, m ≠ n → m ≠ c → t'.node m =
    if m ∈ Map.values (t.node c).children then { t.node m with parent := n } else t.node m

theorem fuse_isFused (h : Labelled t.heap live rp) (ha : Arena t live) {n c : NodeId} {a : Token}
    (hn : n ∈ live) (hkid : t.heap.kid n a = some c) :
    IsFused t (((((t.nodeMut c fun c => { c with edge := [], children := ∅, terminators := [] }
      ).nodeMut n fun n => { n with edge := n.edge ++ (t.node c).edge }
      ).reparent (Map.values (t.node c).children) n).nodeMut n fun m =>
        { m with children := (t.node c).children, terminators := (t.node c).terminators }
      ).freeSlot c) live n c := by
  have hc : c ∈ live := h.kidLive hn hkid
  have hcn : c ≠ n := h.kid_ne_self hn hkid
  have hnotin : n ∉ Map.values (t.node c).children := by
    intro hmem
    obtain ⟨b, hb⟩ := Map.mem_values.mp hmem
    have h1 := h.kid_length_lt hn hkid
    have h2 := h.kid_length_lt hc (show t.heap.kid c b = some n from hb)
    omega
  set t1 := t.nodeMut c fun c => { c with edge := [], children := ∅, terminators := [] } with ht1
  set t2 := t1.nodeMut n fun n => { n with edge := n.edge ++ (t.node c).edge } with ht2
  have ha2 : Arena t2 live := (ha.nodeMut _ _).nodeMut _ _
  refine ⟨((ha2.reparent _ _).nodeMut _ _).freeSlot hc, ?_, ?_⟩
  · have hold : t2.node n = { t.node n with edge := (t.node n).edge ++ (t.node c).edge } := by
      rw [ht2, node_nodeMut_self _ _ ((ha.nodeMut _ _).lt_size hn),
        node_nodeMut_ne _ _ (Ne.symm hcn)]
    rw [node_freeSlot_ne _ (Ne.symm hcn),
      node_nodeMut_self _ _ ((ha2.reparent _ _).lt_size hn), node_reparent_notMem _ _ hnotin, hold]
  · intro m hm hmn hmc
    have hold : t2.node m = t.node m := by
      rw [ht2, node_nodeMut_ne _ _ hmn, ht1, node_nodeMut_ne _ _ hmc]
    rw [node_freeSlot_ne _ hmc, node_nodeMut_ne _ _ hmn]
    by_cases hmem : m ∈ Map.values (t.node c).children
    · rw [if_pos hmem, node_reparent_mem _ _ (ha2.lt_size hm) hmem, hold]
    · rw [if_neg hmem, node_reparent_notMem _ _ hmem, hold]

namespace IsFused

variable {n c : NodeId}

/-- The fields every other node keeps. -/
theorem old_fields (hs : IsFused t t' live n c) {m : NodeId} (hm : m ∈ live) (hmn : m ≠ n)
    (hmc : m ≠ c) : (t'.node m).edge = (t.node m).edge ∧
      (t'.node m).children = (t.node m).children ∧
      (t'.node m).pendingCount = (t.node m).pendingCount ∧
      (t'.node m).terminators = (t.node m).terminators := by
  rw [hs.nodeOld m hm hmn hmc]
  split <;> exact ⟨rfl, rfl, rfl, rfl⟩

theorem labelled (hs : IsFused t t' live n c) (h : Labelled t.heap live rp) {a : Token}
    (hn : n ∈ live) (hr : n ≠ ROOT)
    (honly : ∀ x, (t.node n).children.lookup x = if x = a then some c else none) :
    Labelled t'.heap (live \ {c}) fun m => if m = n then rp c else rp m := by
  have hkid : t.heap.kid n a = some c := (honly a).trans (if_pos rfl)
  have hc := h.kidLive hn hkid
  have hcn := h.kid_ne_self hn hkid
  refine h.fuse hn hr honly rfl ?_ ?_ ?_ ?_ ?_ ?_
  · rw [heap_edge, hs.nodeAt]; rfl
  · exact fun m hm hmn hmc => (hs.old_fields hm hmn hmc).1
  · intro x; rw [heap_kid, hs.nodeAt]; rfl
  · intro m hm hmn hmc x; rw [heap_kid, (hs.old_fields hm hmn hmc).2.1]; rfl
  · intro x g hg
    have hgl := h.kidLive hc hg
    have hgn : g ≠ n := by
      rintro rfl
      have h1 := h.kid_length_lt hn hkid
      have h2 := h.kid_length_lt hc hg
      omega
    rw [heap_parent, hs.nodeOld g hgl hgn (h.kid_ne_self hc hg),
      if_pos (Map.mem_values.mpr ⟨x, hg⟩)]
  · intro m hm hmc hno
    rw [heap_parent, heap_parent]
    by_cases hmn : m = n
    · rw [hmn, hs.nodeAt]
    · rw [hs.nodeOld m hm hmn hmc, if_neg]
      intro hmem
      obtain ⟨x, hx⟩ := Map.mem_values.mp hmem
      exact hno x hx

/--
**Fusing keeps the tree counted.**  Requests that run into `n` all run on into its only
child, because none ends at `n`.
-/
theorem counted (hs : IsFused t t' live n c) (h : Counted t live rp E) {a : Token} (hn : n ∈ live)
    (hr : n ≠ ROOT) (hterm : (t.node n).terminators = [])
    (honly : ∀ x, (t.node n).children.lookup x = if x = a then some c else none) :
    Counted t' (live \ {c}) (fun m => if m = n then rp c else rp m) E := by
  have hkid : t.heap.kid n a = some c := (honly a).trans (if_pos rfl)
  have hc := h.labelled.kidLive hn hkid
  have hcn := h.labelled.kid_ne_self hn hkid
  have hcr := h.labelled.kid_ne_root hn hkid
  have hpre : rp n <+: rp c := by
    rw [h.labelled.kidPath hn hkid]; exact List.prefix_append _ _
  have hend : ∀ r, (⟨r, rp n⟩ : (_ : Rid) × List Token) ∉ E := by
    intro r hmem
    have := (h.terms n hn r).mpr hmem
    rw [hterm] at this
    simp at this
  refine ⟨hs.labelled h.labelled hn hr honly, hs.arena, ?_, ?_, ?_, ?_, ?_⟩
  · have hroot : ROOT ∈ live := h.labelled.rootLive
    rw [(hs.old_fields hroot (Ne.symm hr) (Ne.symm hcr)).2.2.1]; exact h.rootCount
  · rintro m ⟨hm, hmc⟩ hmr
    by_cases hmn : m = n
    · subst hmn
      rw [hs.nodeAt, if_pos rfl]
      refine (h.count m hm hmr).trans (countFrom_congr fun e he => ⟨?_, fun hp => hpre.trans hp⟩)
      intro hp
      obtain ⟨k, hk, hke⟩ := h.covers e he
      rw [← hke] at hp ⊢
      rcases h.labelled.below_cases hm (h.labelled.below_of_prefix hm hk hp) with
        rfl | ⟨x, g, hg, hgk, -⟩
      · exact absurd (show (⟨e.1, rp k⟩ : (_ : Rid) × List Token) ∈ E by rw [hke]; exact he)
          (hend e.1)
      · have hgc : g = c := by
          rw [heap_kid, honly] at hg
          by_cases hx : x = a
          · rw [if_pos hx] at hg; simpa using hg.symm
          · rw [if_neg hx] at hg; simp at hg
        subst hgc
        exact h.labelled.below_prefix hc hgk
    · rw [if_neg hmn, (hs.old_fields hm hmn hmc).2.2.1]; exact h.count m hm hmr
  · rintro m ⟨hm, hmc⟩ r
    by_cases hmn : m = n
    · subst hmn
      rw [hs.nodeAt, if_pos rfl]; exact h.terms c hc r
    · rw [if_neg hmn, (hs.old_fields hm hmn hmc).2.2.2]; exact h.terms m hm r
  · rintro m ⟨hm, hmc⟩
    by_cases hmn : m = n
    · rw [hmn, hs.nodeAt]; exact h.termsNodup c hc
    · rw [(hs.old_fields hm hmn hmc).2.2.2]; exact h.termsNodup m hm
  · rintro ⟨r, ts⟩ he
    obtain ⟨m, hm, hme⟩ := h.covers _ he
    by_cases hmc : m = c
    · exact ⟨n, ⟨hn, Ne.symm hcn⟩, by rw [if_pos rfl, ← hmc, hme]⟩
    · refine ⟨m, ⟨hm, hmc⟩, ?_⟩
      rw [if_neg, hme]
      rintro rfl
      exact hend r (by rw [hme]; exact he)

/-- The fused node branches as its child did, so nothing is left to compress. -/
theorem compressed (hs : IsFused t t' live n c) (h : CompressedBut t live n) (hc : c ∈ live)
    (hcr : c ≠ ROOT) (hcn : c ≠ n) : Compressed t' (live \ {c}) := by
  rintro m ⟨hm, hmc⟩ hmr
  by_cases hmn : m = n
  · rw [hmn, hs.nodeAt]; exact h c hc hcr hcn
  · have := h m hm hmr hmn
    unfold Branching at this ⊢
    rw [(hs.old_fields hm hmn hmc).2.1, (hs.old_fields hm hmn hmc).2.2.2]
    exact this

end IsFused

/-! ### The whole removal -/

/--
**`gc` finishes the compression.**  The fuel counts nodes left on the way to the root:
each dead leaf deleted moves `gc` one node up, and a fusion ends it.
-/
theorem gc_counted : ∀ (fuel : Nat) (n : NodeId) (t : Tree) (live : Set NodeId),
    Counted t live rp E → CompressedBut t live n → n ∈ live → (rp n).length < fuel →
    ∃ live' rp', Counted (t.gc fuel n) live' rp' E ∧ Compressed (t.gc fuel n) live' := by
  intro fuel
  induction fuel with
  | zero => intro n t live _ _ _ hlen; omega
  | succ fuel ih =>
      intro n t live h hbut hn hlen
      rw [gc]
      by_cases hr : n = ROOT
      · rw [if_pos hr]
        exact ⟨live, rp, h, fun m hm hmr => hbut m hm hmr (by rw [hr]; exact hmr)⟩
      · rw [if_neg hr]
        simp only [List.isEmpty_iff]
        by_cases hdead : (t.node n).terminators = [] ∧ (t.node n).children.entries = []
        · rw [if_pos hdead]
          have hs := prune_isPruned h.labelled h.arena hn hr
          have hplt : (rp (t.node n).parent).length < (rp n).length :=
            h.labelled.parent_length_lt hn hr
          exact ih _ _ _ (hs.counted h hn hr hdead.1 hdead.2) (hs.compressedBut hbut)
            ⟨h.labelled.parent_live hn hr, h.labelled.parent_ne_self hn hr⟩ (by omega)
        · rw [if_neg hdead]
          by_cases hone : (t.node n).terminators = [] ∧ (t.node n).children.entries.length = 1
          · rw [if_pos hone]
            obtain ⟨a, c, hent, honly⟩ := Map.length_entries_eq_one hone.2
            have hchild : (Map.values (t.node n).children).headD ROOT = c := by
              rw [Map.values, hent]; rfl
            rw [hchild]
            have hkid : t.heap.kid n a = some c := (honly a).trans (if_pos rfl)
            have hs := fuse_isFused h.labelled h.arena hn hkid
            exact ⟨_, _, hs.counted h hn hr hone.1 honly,
              hs.compressed hbut (h.labelled.kidLive hn hkid) (h.labelled.kid_ne_root hn hkid)
                (h.labelled.kid_ne_self hn hkid)⟩
          · rw [if_neg hone]
            refine ⟨live, rp, h, fun m hm hmr => ?_⟩
            by_cases hmn : m = n
            · subst hmn
              by_cases hterm : (t.node m).terminators = []
              · have h0 : (t.node m).children.entries ≠ [] := fun hc => hdead ⟨hterm, hc⟩
                have h1 : (t.node m).children.entries.length ≠ 1 := fun hc => hone ⟨hterm, hc⟩
                have := List.length_pos_iff.mpr h0
                exact Or.inr (by omega)
              · exact Or.inl hterm
            · exact hbut m hm hmr hmn

/-- A pending request is found where its tokens end. -/
theorem descend_of_covered (h : Labelled t.heap live rp) {n : NodeId} (hn : n ∈ live) :
    t.descend (rp n) = ⟨n, (t.node n).edge.length, (rp n).length⟩ := by
  obtain ⟨h1, h2, h3⟩ := h.stopped_at (descend_stopped h (rp n)) hn rfl
  rw [Descent.mk.injEq]
  exact ⟨h1, h2, h3⟩

/--
**Removal takes out exactly its request.**  From a compressed, counted tree it gives
a compressed tree counted for one request less.
-/
theorem remove_counted (h : Counted t live rp E) (hcomp : Compressed t live) {rid : Rid}
    {ts : List Token} (hperm : E.Perm (⟨rid, ts⟩ :: E'))
    (hfresh : ∀ ts, (⟨rid, ts⟩ : (_ : Rid) × List Token) ∉ E') :
    (t.remove rid ts).1 = true ∧
      ∃ live' rp', Counted (t.remove rid ts).2 live' rp' E' ∧
        Compressed (t.remove rid ts).2 live' := by
  have h := h.perm hperm
  obtain ⟨n, hn, rfl⟩ := h.covers _ List.mem_cons_self
  have hmem : rid ∈ (t.node n).terminators := (h.terms n hn rid).mpr List.mem_cons_self
  rw [remove, descend_of_covered h.labelled hn]
  simp only [ne_eq, not_true_eq_false, or_self, if_false, if_pos hmem, true_and]
  exact gc_counted _ n _ live (unterminate_counted h hn hfresh (Nat.le_refl _))
    (unterminate_compressed h.labelled h.arena hn hcomp rid (Nat.le_refl _)) hn (by omega)

end Tree

end Peek
