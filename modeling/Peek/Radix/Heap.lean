/-
Radix trees laid out in a heap.

A radix tree in an imperative program is not a term but a graph: nodes have
identities, a node knows the edge that leads to it, its parent, and its children
under the first symbol of their edges.  `Heap` is that graph and nothing more.

`Labelled` is what makes the graph a radix tree.  It hands every live node its
root path and asks only for local conditions: a child's path is its parent's path
followed by its own edge, it sits under the first symbol of that edge, and the
links agree in both directions.  Everything global is derived here once: every
live node hangs below the root, nodes with the same path are the same node, and a
node whose path is a prefix of another's lies above it.

`Stopped` says where a walk along a key can come to rest, and `held_take_iff` is
why walks are worth taking: the number of symbols consumed is the length of the
longest prefix of the key that the tree holds.
-/
import Peek.Radix.Lcp
import Mathlib.Data.Set.Finite.Lattice
import Mathlib.Order.Bounds.Basic

namespace Radix

/-- Nodes with an edge into them, a parent, and children by first symbol. -/
structure Heap (ι α : Type*) where
  root : ι
  edge : ι → List α
  parent : ι → ι
  kid : ι → α → Option ι

/-- `rp` gives every live node its root path. -/
structure Labelled {ι α : Type*} (H : Heap ι α) (live : Set ι) (rp : ι → List α) : Prop where
  rootLive : H.root ∈ live
  rootPath : rp H.root = []
  rootEdge : H.edge H.root = []
  kidLive : ∀ {n a c}, n ∈ live → H.kid n a = some c → c ∈ live
  kidHead : ∀ {n a c}, n ∈ live → H.kid n a = some c → (H.edge c).head? = some a
  kidPath : ∀ {n a c}, n ∈ live → H.kid n a = some c → rp c = rp n ++ H.edge c
  kidParent : ∀ {n a c}, n ∈ live → H.kid n a = some c → H.parent c = n
  /-- Every live node but the root is some live node's child. -/
  up : ∀ {n}, n ∈ live → n ≠ H.root →
    ∃ a, (H.edge n).head? = some a ∧ H.parent n ∈ live ∧ H.kid (H.parent n) a = some n

/-- `m` is `n` or hangs somewhere below it. -/
inductive Below {ι α : Type*} (H : Heap ι α) : ι → ι → Prop
  | refl (n : ι) : Below H n n
  | step {n c m : ι} {a : α} (hkid : H.kid n a = some c) (h : Below H c m) : Below H n m

/-- `n` sits at the end of the path `p`. -/
inductive PathTo {ι α : Type*} (H : Heap ι α) : ι → List α → Prop
  | root : PathTo H H.root []
  | kid {n c : ι} {a : α} {p : List α} (h : PathTo H n p) (hkid : H.kid n a = some c) :
      PathTo H c (p ++ H.edge c)

theorem Below.trans {ι α : Type*} {H : Heap ι α} {l m n : ι} (h : Below H l m)
    (h' : Below H m n) : Below H l n := by
  induction h with
  | refl _ => exact h'
  | step hkid _ ih => exact Below.step hkid (ih h')

/-- Some live node's path runs through `q`. -/
def Held {ι α : Type*} (live : Set ι) (rp : ι → List α) (q : List α) : Prop :=
  ∃ n ∈ live, q <+: rp n

theorem Held.mono {ι α : Type*} {live : Set ι} {rp : ι → List α} {p q : List α}
    (h : Held live rp q) (hp : p <+: q) : Held live rp p := by
  obtain ⟨n, hn, hq⟩ := h
  exact ⟨n, hn, hp.trans hq⟩

namespace Labelled

variable {ι α : Type*} {H : Heap ι α} {live : Set ι} {rp : ι → List α}

/-! ### Paths along links -/

theorem kid_path_cons (h : Labelled H live rp) {n c : ι} {a : α} (hn : n ∈ live)
    (hk : H.kid n a = some c) : ∃ tl, H.edge c = a :: tl ∧ rp c = rp n ++ a :: tl := by
  have hhead := h.kidHead hn hk
  cases he : H.edge c with
  | nil => rw [he] at hhead; simp at hhead
  | cons b tl =>
      rw [he, List.head?_cons, Option.some.injEq] at hhead
      subst hhead
      exact ⟨tl, rfl, by rw [← he]; exact h.kidPath hn hk⟩

theorem kid_key_unique (h : Labelled H live rp) {n c : ι} {a b : α} (hn : n ∈ live)
    (hk : H.kid n a = some c) (hk' : H.kid n b = some c) : a = b := by
  have hhead := h.kidHead hn hk
  rw [h.kidHead hn hk', Option.some.injEq] at hhead
  exact hhead.symm

theorem kid_length_lt (h : Labelled H live rp) {n c : ι} {a : α} (hn : n ∈ live)
    (hk : H.kid n a = some c) : (rp n).length < (rp c).length := by
  obtain ⟨tl, -, hp⟩ := h.kid_path_cons hn hk
  rw [hp]
  simp

theorem kid_ne_root (h : Labelled H live rp) {n c : ι} {a : α} (hn : n ∈ live)
    (hk : H.kid n a = some c) : c ≠ H.root := by
  rintro rfl
  have := h.kid_length_lt hn hk
  rw [h.rootPath] at this
  simp at this

theorem parent_live (h : Labelled H live rp) {n : ι} (hn : n ∈ live) (hr : n ≠ H.root) :
    H.parent n ∈ live := by
  obtain ⟨a, -, hp, -⟩ := h.up hn hr
  exact hp

theorem path_eq (h : Labelled H live rp) {n : ι} (hn : n ∈ live) (hr : n ≠ H.root) :
    rp n = rp (H.parent n) ++ H.edge n := by
  obtain ⟨a, -, hp, hk⟩ := h.up hn hr
  exact h.kidPath hp hk

theorem edge_ne_nil (h : Labelled H live rp) {n : ι} (hn : n ∈ live) (hr : n ≠ H.root) :
    H.edge n ≠ [] := by
  obtain ⟨a, ha, -⟩ := h.up hn hr
  intro hnil
  rw [hnil] at ha
  simp at ha

theorem parent_length_lt (h : Labelled H live rp) {n : ι} (hn : n ∈ live) (hr : n ≠ H.root) :
    (rp (H.parent n)).length < (rp n).length := by
  obtain ⟨a, -, hp, hk⟩ := h.up hn hr
  exact h.kid_length_lt hp hk

/-- Follow the parent links: a fact that passes from parent to child holds of every live node. -/
theorem up_induction (h : Labelled H live rp) {P : ι → Prop} (root : P H.root)
    (step : ∀ n ∈ live, n ≠ H.root → P (H.parent n) → P n) : ∀ n ∈ live, P n := by
  suffices key : ∀ k, ∀ n ∈ live, (rp n).length = k → P n from
    fun n hn => key _ n hn rfl
  intro k
  induction k using Nat.strong_induction_on with
  | _ k ih =>
      intro n hn hk
      by_cases hr : n = H.root
      · rw [hr]; exact root
      · have hlt := h.parent_length_lt hn hr
        exact step n hn hr (ih _ (by omega) _ (h.parent_live hn hr) rfl)

/-! ### What lies below a node -/

theorem below_live (h : Labelled H live rp) {n m : ι} (hn : n ∈ live) (hb : Below H n m) :
    m ∈ live := by
  induction hb with
  | refl _ => exact hn
  | step hkid _ ih => exact ih (h.kidLive hn hkid)

theorem below_prefix (h : Labelled H live rp) {n m : ι} (hn : n ∈ live) (hb : Below H n m) :
    rp n <+: rp m := by
  induction hb with
  | refl _ => exact List.prefix_refl _
  | step hkid _ ih =>
      refine List.IsPrefix.trans ?_ (ih (h.kidLive hn hkid))
      rw [h.kidPath hn hkid]
      exact List.prefix_append _ _

/-- Something strictly below a node lies below one of its children. -/
theorem below_cases (h : Labelled H live rp) {n m : ι} (hn : n ∈ live) (hb : Below H n m) :
    m = n ∨ ∃ a c, H.kid n a = some c ∧ Below H c m ∧ (rp n).length < (rp m).length := by
  cases hb with
  | refl _ => exact Or.inl rfl
  | step hkid hb =>
      refine Or.inr ⟨_, _, hkid, hb, ?_⟩
      have hlen := (h.below_prefix (h.kidLive hn hkid) hb).length_le
      have := h.kid_length_lt hn hkid
      omega

theorem below_root (h : Labelled H live rp) : ∀ n ∈ live, Below H H.root n := by
  refine h.up_induction (Below.refl _) ?_
  intro n hn hr hp
  obtain ⟨a, -, -, hk⟩ := h.up hn hr
  exact hp.trans (Below.step hk (Below.refl _))

/--
**Prefixes lie above.**  Of two nodes below `u`, the one whose path is a prefix of
the other's is its ancestor.  The induction follows the route down to `n`; at each
fork the two routes must take the same symbol, because both paths spell it.
-/
theorem below_of_prefix_aux (h : Labelled H live rp) {u n : ι} (hu : u ∈ live)
    (hn : Below H u n) : ∀ {m : ι}, Below H u m → rp n <+: rp m → Below H n m := by
  induction hn with
  | refl _ => intro m hm _; exact hm
  | @step u c n a hkid hcn ih =>
      intro m hm hpre
      have hc := h.kidLive hu hkid
      obtain ⟨tl, -, hpc⟩ := h.kid_path_cons hu hkid
      have hcm : rp c <+: rp m := (h.below_prefix hc hcn).trans hpre
      cases hm with
      | refl _ =>
          have := h.kid_length_lt hu hkid
          have := hcm.length_le
          omega
      | @step _ c' _ b hkid' hcm' =>
          obtain ⟨tl', -, hpc'⟩ := h.kid_path_cons hu hkid'
          rw [hpc] at hcm
          have hcm2 := h.below_prefix (h.kidLive hu hkid') hcm'
          rw [hpc'] at hcm2
          have hab : a = b := by
            have := (getElem?_of_prefix_cons hcm).symm.trans (getElem?_of_prefix_cons hcm2)
            simpa using this
          subst hab
          have hcc : c = c' := by rw [hkid] at hkid'; simpa using hkid'
          subst hcc
          exact ih hc hcm' hpre

theorem below_of_prefix (h : Labelled H live rp) {n m : ι} (hn : n ∈ live) (hm : m ∈ live)
    (hpre : rp n <+: rp m) : Below H n m :=
  h.below_of_prefix_aux h.rootLive (h.below_root n hn) (h.below_root m hm) hpre

/-- **A node is known from its path.** -/
theorem path_injective (h : Labelled H live rp) {n m : ι} (hn : n ∈ live) (hm : m ∈ live)
    (heq : rp n = rp m) : n = m := by
  have hb := h.below_of_prefix hn hm (by rw [heq])
  rcases h.below_cases hn hb with hmn | ⟨_, _, _, _, hlt⟩
  · exact hmn.symm
  · rw [heq] at hlt; omega

theorem path_ne_nil (h : Labelled H live rp) {n : ι} (hn : n ∈ live) (hr : n ≠ H.root) : rp n ≠ [] :=
  fun hnil => hr (h.path_injective hn h.rootLive (hnil.trans h.rootPath.symm))

/-- Only the root's path runs into the root. -/
theorem eq_root_of_prefix (h : Labelled H live rp) {n : ι} (hn : n ∈ live)
    (hpre : rp n <+: rp H.root) : n = H.root := by
  by_contra hr
  rw [h.rootPath, List.prefix_nil] at hpre
  exact h.path_ne_nil hn hr hpre

/-- The paths that run into a node are its own and those that run into its parent. -/
theorem prefix_parent_iff (h : Labelled H live rp) {m n : ι} (hm : m ∈ live) (hn : n ∈ live)
    (hr : n ≠ H.root) : rp m <+: rp n ↔ m = n ∨ rp m <+: rp (H.parent n) := by
  obtain ⟨a, -, hp, hk⟩ := h.up hn hr
  have hpn : rp (H.parent n) <+: rp n := by
    rw [h.kidPath hp hk]; exact List.prefix_append _ _
  constructor
  · intro hmn
    by_cases hle : (rp m).length ≤ (rp (H.parent n)).length
    · exact Or.inr (List.prefix_of_prefix_length_le hmn hpn hle)
    · -- `m` lies strictly below the parent, on the way to `n`
      have hpm : rp (H.parent n) <+: rp m := List.prefix_of_prefix_length_le hpn hmn (by omega)
      rcases h.below_cases hp (h.below_of_prefix hp hm hpm) with rfl | ⟨b, c, hkc, hcm, -⟩
      · exact absurd (Nat.le_refl _) hle
      · obtain ⟨tl, -, hpc⟩ := h.kid_path_cons hp hkc
        obtain ⟨tl', -, hpn'⟩ := h.kid_path_cons hp hk
        have hcn := (h.below_prefix (h.kidLive hp hkc) hcm).trans hmn
        rw [hpc] at hcn
        have hab : b = a := by
          have := (getElem?_of_prefix_cons hcn).symm.trans
            (getElem?_of_prefix_cons (by rw [← hpn'] : rp (H.parent n) ++ a :: tl' <+: rp n))
          simpa using this
        subst hab
        have hcn' : c = n := by rw [hk] at hkc; simpa using hkc.symm
        subst hcn'
        refine Or.inl (h.path_injective hm hn (hmn.eq_of_length_le ?_))
        exact (h.below_prefix hn hcm).length_le
  · rintro (rfl | hmp)
    · exact List.prefix_refl _
    · exact hmp.trans hpn

/-- The first symbol past a node on a path that runs below it names the child on that path. -/
theorem kid_of_prefix (h : Labelled H live rp) {n m : ι} {a : α} {tl : List α} (hn : n ∈ live)
    (hm : m ∈ live) (hpre : rp n ++ a :: tl <+: rp m) :
    ∃ c, H.kid n a = some c ∧ Below H c m := by
  have hb := h.below_of_prefix hn hm ((List.prefix_append _ _).trans hpre)
  rcases h.below_cases hn hb with rfl | ⟨b, c, hk, hcm, -⟩
  · have := hpre.length_le
    simp only [List.length_append, List.length_cons] at this
    omega
  · obtain ⟨tl', -, hpc⟩ := h.kid_path_cons hn hk
    have hcpre := h.below_prefix (h.kidLive hn hk) hcm
    rw [hpc] at hcpre
    have hab : a = b := by
      have := (getElem?_of_prefix_cons hpre).symm.trans (getElem?_of_prefix_cons hcpre)
      simpa using this
    subst hab
    exact ⟨c, hk, hcm⟩

/-- The subtrees below two different children have no node in common. -/
theorem kids_disjoint (h : Labelled H live rp) {n c c' m : ι} {a a' : α} (hn : n ∈ live)
    (hk : H.kid n a = some c) (hk' : H.kid n a' = some c') (hb : Below H c m) (hb' : Below H c' m) :
    c = c' := by
  obtain ⟨tl, -, hp⟩ := h.kid_path_cons hn hk
  obtain ⟨tl', -, hp'⟩ := h.kid_path_cons hn hk'
  have h1 := h.below_prefix (h.kidLive hn hk) hb
  have h2 := h.below_prefix (h.kidLive hn hk') hb'
  rw [hp] at h1
  rw [hp'] at h2
  have haa : a = a' := by
    have := (getElem?_of_prefix_cons h1).symm.trans (getElem?_of_prefix_cons h2)
    simpa using this
  rw [haa, hk'] at hk
  simpa using hk.symm

/-- Follow the child links: a fact that passes from all children to their parent holds everywhere. -/
theorem down_induction (h : Labelled H live rp) (hfin : live.Finite) {P : ι → Prop}
    (step : ∀ n ∈ live, (∀ a c, H.kid n a = some c → P c) → P n) : ∀ n ∈ live, P n := by
  obtain ⟨B, hB⟩ : ∃ B, ∀ n ∈ live, (rp n).length ≤ B := by
    obtain ⟨B, hB⟩ := (hfin.image fun n => (rp n).length).bddAbove
    exact ⟨B, fun n hn => hB ⟨n, hn, rfl⟩⟩
  suffices key : ∀ k, ∀ n ∈ live, B - (rp n).length = k → P n from fun n hn => key _ n hn rfl
  intro k
  induction k using Nat.strong_induction_on with
  | _ k ih =>
      intro n hn hk
      refine step n hn fun a c hkid => ?_
      have hlt := h.kid_length_lt hn hkid
      have := hB c (h.kidLive hn hkid)
      exact ih _ (by omega) c (h.kidLive hn hkid) rfl

/-! ### The labelling is the heap's own -/

theorem live_iff_below (h : Labelled H live rp) {n : ι} : n ∈ live ↔ Below H H.root n :=
  ⟨h.below_root n, h.below_live h.rootLive⟩

theorem pathTo_of_live (h : Labelled H live rp) : ∀ n ∈ live, PathTo H n (rp n) := by
  refine h.up_induction ?_ ?_
  · rw [h.rootPath]; exact PathTo.root
  · intro n hn hr hp
    obtain ⟨a, -, -, hk⟩ := h.up hn hr
    rw [h.path_eq hn hr]
    exact PathTo.kid hp hk

theorem pathTo_iff (h : Labelled H live rp) {n : ι} {p : List α} :
    PathTo H n p ↔ n ∈ live ∧ rp n = p := by
  constructor
  · intro hp
    induction hp with
    | root => exact ⟨h.rootLive, h.rootPath⟩
    | kid _ hkid ih => exact ⟨h.kidLive ih.1 hkid, by rw [h.kidPath ih.1 hkid, ih.2]⟩
  · rintro ⟨hn, rfl⟩
    exact h.pathTo_of_live n hn

end Labelled

/-! ### Where a walk stops -/

variable {ι α : Type*} [DecidableEq α]

/--
A walk along `ts` can come to rest at a node whose children do not continue the
key, or part of the way along a child's edge.  The two numbers are the offset
within the last edge and the symbols consumed.
-/
inductive Stopped (H : Heap ι α) (live : Set ι) (rp : ι → List α) (ts : List α) :
    ι → Nat → Nat → Prop
  | atNode {n : ι} {k : Nat} (hn : n ∈ live) (hk : k ≤ ts.length) (hp : rp n = ts.take k)
      (hend : ∀ a, ts[k]? = some a → H.kid n a = none) : Stopped H live rp ts n (H.edge n).length k
  | onEdge {n c : ι} {a : α} {k : Nat} (hn : n ∈ live) (hp : rp n = ts.take k)
      (ha : ts[k]? = some a) (hkid : H.kid n a = some c)
      (hlt : lcpLen (H.edge c) (ts.drop k) < (H.edge c).length) :
      Stopped H live rp ts c (lcpLen (H.edge c) (ts.drop k)) (k + lcpLen (H.edge c) (ts.drop k))

namespace Labelled

variable {H : Heap ι α} {live : Set ι} {rp : ι → List α}

omit [DecidableEq α] in
theorem take_length_of_getElem? {ts : List α} {k : Nat} {a : α} (ha : ts[k]? = some a) :
    k < ts.length ∧ ts.drop k = a :: ts.drop (k + 1) := by
  obtain ⟨hlt, rfl⟩ := List.getElem?_eq_some_iff.mp ha
  exact ⟨hlt, List.drop_eq_getElem_cons hlt⟩

/-- One turn of a walk: the child under the next symbol agrees with the key on at least that symbol. -/
theorem walk_pos (h : Labelled H live rp) {n c : ι} {a : α} {ts : List α} {k : Nat} (hn : n ∈ live)
    (ha : ts[k]? = some a) (hkid : H.kid n a = some c) : 0 < lcpLen (H.edge c) (ts.drop k) := by
  refine lcpLen_pos (h.kidHead hn hkid) ?_
  rw [(take_length_of_getElem? ha).2]
  rfl

/-- One turn of a walk that consumes the whole edge: the child's path is the key so far. -/
theorem walk_full (h : Labelled H live rp) {n c : ι} {a : α} {ts : List α} {k : Nat} (hn : n ∈ live)
    (hp : rp n = ts.take k) (hkid : H.kid n a = some c)
    (hfull : lcpLen (H.edge c) (ts.drop k) = (H.edge c).length) :
    rp c = ts.take (k + (H.edge c).length) := by
  have hpre := lcpLen_eq_length_iff.mp hfull
  rw [h.kidPath hn hkid, hp, List.take_add, ← List.prefix_iff_eq_take.mp hpre]

/-- Where a walk rests, the key consumed is some path followed by a cut of the last edge. -/
theorem stopped_path (h : Labelled H live rp) {ts : List α} {n : ι} {o k : Nat}
    (hs : Stopped H live rp ts n o k) :
    n ∈ live ∧ k ≤ ts.length ∧ o ≤ (H.edge n).length ∧
      ∃ p, rp n = p ++ H.edge n ∧ ts.take k = p ++ (H.edge n).take o := by
  cases hs with
  | atNode hn hk hp hend =>
      refine ⟨hn, hk, Nat.le_refl _, ?_⟩
      by_cases hr : n = H.root
      · subst hr
        exact ⟨[], by simp [h.rootPath, h.rootEdge], by simp [← hp, h.rootPath, h.rootEdge]⟩
      · exact ⟨rp (H.parent n), h.path_eq hn hr, by rw [List.take_length, ← hp, ← h.path_eq hn hr]⟩
  | @onEdge m _ a k hm hp ha hkid hlt =>
      have hlen := lcpLen_le_right (H.edge n) (ts.drop k)
      rw [List.length_drop] at hlen
      have hk := (take_length_of_getElem? ha).1
      refine ⟨h.kidLive hm hkid, by omega, Nat.le_of_lt hlt, rp m, h.kidPath hm hkid, ?_⟩
      rw [List.take_add, ← hp, take_lcpLen]

/-- What a walk has consumed is held. -/
theorem stopped_held (h : Labelled H live rp) {ts : List α} {n : ι} {o k : Nat}
    (hs : Stopped H live rp ts n o k) : Held live rp (ts.take k) := by
  obtain ⟨hn, -, -, p, hp, ht⟩ := h.stopped_path hs
  refine ⟨n, hn, ?_⟩
  rw [ht, hp]
  exact (List.prefix_append_right_inj p).mpr (List.take_prefix _ _)

/-- No node continues the key past the point where a walk rests. -/
theorem stopped_max (h : Labelled H live rp) {ts : List α} {n : ι} {o k : Nat}
    (hs : Stopped H live rp ts n o k) (hlt : k < ts.length) :
    ¬ Held live rp (ts.take (k + 1)) := by
  rintro ⟨m, hm, hpre⟩
  cases hs with
  | atNode hn hk hp hend =>
      rw [List.take_succ_eq_append_getElem hlt, ← hp] at hpre
      obtain ⟨c, hkid, -⟩ := h.kid_of_prefix hn hm hpre
      rw [hend _ (List.getElem?_eq_getElem hlt)] at hkid
      simp at hkid
  | @onEdge u _ a k hu hp ha hkid hlcp =>
      -- the child of `u` on the path to `m` is `n`, so `n`'s edge would agree one symbol further
      set l := lcpLen (H.edge n) (ts.drop k) with hl
      have hpos : 0 < l := h.walk_pos hu ha hkid
      have hkl := (take_length_of_getElem? ha).1
      have hcut : ts.take (k + l + 1) = rp u ++ (ts.drop k).take (l + 1) := by
        rw [hp, ← List.take_add]; rfl
      have hhead : (ts.drop k).take (l + 1) = a :: (ts.drop (k + 1)).take l := by
        rw [(take_length_of_getElem? ha).2, List.take_succ_cons]
      have hpre' := hpre
      rw [hcut, hhead] at hpre'
      obtain ⟨c, hkid', hcm⟩ := h.kid_of_prefix hu hm hpre'
      have hcn : n = c := by rw [hkid] at hkid'; simpa using hkid'
      subst hcn
      have hcpre := h.below_prefix (h.kidLive hu hkid) hcm
      rw [h.kidPath hu hkid] at hcpre
      rw [hcut] at hpre
      have hboth := drop_prefix_of_append hpre
      have hedge := drop_prefix_of_append hcpre
      have hlen : ((ts.drop k).take (l + 1)).length = l + 1 := by
        rw [List.length_take, List.length_drop]; omega
      have hcmp : (ts.drop k).take (l + 1) <+: H.edge n :=
        List.prefix_of_prefix_length_le hboth hedge (by rw [hlen]; omega)
      have hbig : l + 1 ≤ lcpLen (H.edge n) (ts.drop k) := by
        refine le_lcpLen_iff.mpr ⟨by omega, by rw [List.length_drop]; omega, ?_⟩
        rw [List.prefix_iff_eq_take.mp hcmp, hlen]
      omega

/-- **A walk consumes the longest prefix the tree holds.** -/
theorem held_take_iff (h : Labelled H live rp) {ts : List α} {n : ι} {o k : Nat}
    (hs : Stopped H live rp ts n o k) {j : Nat} (hj : j ≤ ts.length) :
    Held live rp (ts.take j) ↔ j ≤ k := by
  constructor
  · intro hheld
    by_contra hc
    have hk : k < ts.length := by omega
    refine h.stopped_max hs hk (hheld.mono ?_)
    exact List.take_prefix_take_left (by omega)
  · intro hjk
    exact (h.stopped_held hs).mono (List.take_prefix_take_left hjk)

/-- A walk that uses up the key rests at the first node that all paths past the key run through. -/
theorem stopped_prefix_iff (h : Labelled H live rp) {ts : List α} {m n : ι} {o : Nat}
    (hs : Stopped H live rp ts n o ts.length) (hm : m ∈ live) : ts <+: rp m ↔ rp n <+: rp m := by
  constructor
  · intro hpre
    generalize hk : ts.length = k at hs
    cases hs with
    | atNode hn _ hp _ => rwa [hp, ← hk, List.take_length]
    | @onEdge u _ a k hu hp ha hkid _ =>
        have hcut : rp u ++ a :: ts.drop (k + 1) = ts := by
          rw [hp, ← (take_length_of_getElem? ha).2, List.take_append_drop]
        obtain ⟨c, hkid', hcm⟩ := h.kid_of_prefix hu hm (hcut ▸ hpre)
        have hcn : n = c := by rw [hkid] at hkid'; simpa using hkid'
        exact hcn ▸ h.below_prefix (h.kidLive hu hkid') hcm
  · intro hpre
    obtain ⟨-, -, -, p, hp, ht⟩ := h.stopped_path hs
    rw [List.take_length] at ht
    rw [hp] at hpre
    rw [ht]
    exact ((List.prefix_append_right_inj p).mpr (List.take_prefix _ _)).trans hpre

/-- A walk along a live node's own path rests at that node, with its edge used up. -/
theorem stopped_at (h : Labelled H live rp) {ts : List α} {m n : ι} {o k : Nat}
    (hs : Stopped H live rp ts m o k) (hn : n ∈ live) (hp : rp n = ts) :
    m = n ∧ o = (H.edge n).length ∧ k = ts.length := by
  have hlen : ts.length ≤ k := by
    refine (h.held_take_iff hs (Nat.le_refl _)).mp ⟨n, hn, ?_⟩
    rw [List.take_length, hp]
  cases hs with
  | atNode hm hk hpm hend =>
      have hk' : k = ts.length := by omega
      rw [hk', List.take_length, ← hp] at hpm
      have hmn := h.path_injective hm hn hpm
      subst hmn
      exact ⟨rfl, rfl, hk'⟩
  | @onEdge u _ a k hu hpu ha hkid hlt =>
      -- the edge into `m` would reach past the end of `ts`, but `n` hangs below it
      obtain ⟨hk, hdrop⟩ := take_length_of_getElem? ha
      have hpre : rp u ++ a :: ts.drop (k + 1) <+: rp n := by
        rw [hpu, ← hdrop, List.take_append_drop, hp]
      obtain ⟨c, hkid', hcn⟩ := h.kid_of_prefix hu hn hpre
      have hcm : m = c := by rw [hkid] at hkid'; simpa using hkid'
      subst hcm
      have hle := (h.below_prefix (h.kidLive hu hkid) hcn).length_le
      rw [h.kidPath hu hkid, hp, List.length_append, hpu, List.length_take] at hle
      omega

end Labelled

end Radix
