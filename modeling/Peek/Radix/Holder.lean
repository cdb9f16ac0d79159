/-
Which node a position of the tree belongs to.

A position is a path that is held; the node it belongs to is the one on whose edge the last
symbol of it stands.  Every held position has one, and only one, since the positions that
belong to a node are those that reach past its parent's path and not past its own.

Cutting an edge in two moves the positions of the upper half to the new node, and no other
position (`heldBy_cut`).
-/
import Peek.Radix.Heap

namespace Radix

variable {ι α : Type*} {H H' : Heap ι α}

/-- The last symbol of `q` stands on the edge into `n`. -/
def HeldBy (H : Heap ι α) (q : List α) (n : ι) : Prop :=
  ∃ m p a, PathTo H m p ∧ H.kid m a = some n ∧ p.length < q.length ∧ q <+: p ++ H.edge n

namespace Labelled

variable {live : Set ι} {rp : ι → List α}

theorem heldBy_iff (h : Labelled H live rp) {q : List α} {n : ι} : HeldBy H q n ↔
    n ∈ live ∧ n ≠ H.root ∧ (rp (H.parent n)).length < q.length ∧ q <+: rp n := by
  constructor
  · intro hq
    obtain ⟨m, p, a, hp, hkid, hlen, hpre⟩ := hq
    obtain ⟨hm, rfl⟩ := h.pathTo_iff.mp hp
    refine ⟨h.kidLive hm hkid, h.kid_ne_root hm hkid, ?_, ?_⟩
    · rw [h.kidParent hm hkid]; exact hlen
    · rw [h.kidPath hm hkid]; exact hpre
  · intro hq
    obtain ⟨hn, hr, hlen, hpre⟩ := hq
    obtain ⟨a, -, hp, hkid⟩ := h.up hn hr
    refine ⟨H.parent n, rp (H.parent n), a, h.pathTo_iff.mpr ⟨hp, rfl⟩, hkid, hlen, ?_⟩
    rw [← h.path_eq hn hr]
    exact hpre

/-- The end of a node's path belongs to the node. -/
theorem heldBy_path (h : Labelled H live rp) {n : ι} (hn : n ∈ live) (hr : n ≠ H.root) :
    HeldBy H (rp n) n :=
  h.heldBy_iff.mpr ⟨hn, hr, h.parent_length_lt hn hr, List.prefix_refl _⟩

/-- Every held position belongs to a node. -/
theorem exists_heldBy (h : Labelled H live rp) {q : List α} (hne : q ≠ [])
    (hq : Held live rp q) : ∃ n, HeldBy H q n := by
  obtain ⟨n, hn, hpre⟩ := hq
  revert hpre
  refine h.up_induction (P := fun n => q <+: rp n → ∃ n, HeldBy H q n) ?_ ?_ n hn
  · intro hpre
    rw [h.rootPath, List.prefix_nil] at hpre
    exact absurd hpre hne
  · intro n hn hr ih hpre
    by_cases hlen : (rp (H.parent n)).length < q.length
    · exact ⟨n, h.heldBy_iff.mpr ⟨hn, hr, hlen, hpre⟩⟩
    · have hpar : rp (H.parent n) <+: rp n := by
        rw [h.path_eq hn hr]; exact List.prefix_append _ _
      exact ih (List.prefix_of_prefix_length_le hpre hpar (Nat.le_of_not_lt hlen))

/-- A position leaves the parent of its node by the symbol the node is filed under. -/
theorem kid_of_heldBy (h : Labelled H live rp) {q : List α} {n : ι} (hn : HeldBy H q n) :
    rp (H.parent n) <+: q ∧
      ∃ a, q[(rp (H.parent n)).length]? = some a ∧ H.kid (H.parent n) a = some n := by
  obtain ⟨hn, hr, hlen, hpre⟩ := h.heldBy_iff.mp hn
  obtain ⟨a, -, hp, hkid⟩ := h.up hn hr
  obtain ⟨tl, -, hpath⟩ := h.kid_path_cons hp hkid
  have hpar : rp (H.parent n) <+: q :=
    List.prefix_of_prefix_length_le (hpath ▸ List.prefix_append _ _) hpre (Nat.le_of_lt hlen)
  have hget : (rp n)[(rp (H.parent n)).length]? = some a :=
    getElem?_of_prefix_cons (by rw [← hpath])
  refine ⟨hpar, a, ?_, hkid⟩
  rw [List.prefix_iff_eq_take.mp hpre, List.getElem?_take_of_lt hlen]
  exact hget

/-- Past the parent of its node a position meets no other parent. -/
theorem parent_le_of_heldBy (h : Labelled H live rp) {q : List α} {n m : ι} (hn : HeldBy H q n)
    (hm : HeldBy H q m) : rp (H.parent m) <+: rp (H.parent n) := by
  have hq := (h.kid_of_heldBy hm).1
  obtain ⟨hn, hr, -, hpre⟩ := h.heldBy_iff.mp hn
  obtain ⟨hm, hr', hlen, -⟩ := h.heldBy_iff.mp hm
  rcases (h.prefix_parent_iff (h.parent_live hm hr') hn hr).mp (hq.trans hpre) with heq | hle
  · rw [heq] at hlen
    exact absurd hpre.length_le (Nat.not_le_of_lt hlen)
  · exact hle

/-- **A position belongs to one node.** -/
theorem heldBy_unique (h : Labelled H live rp) {q : List α} {n m : ι} (hn : HeldBy H q n)
    (hm : HeldBy H q m) : n = m := by
  have hle := h.parent_le_of_heldBy hn hm
  have hge := h.parent_le_of_heldBy hm hn
  obtain ⟨-, a, ha, hkid⟩ := h.kid_of_heldBy hn
  obtain ⟨-, b, hb, hkid'⟩ := h.kid_of_heldBy hm
  obtain ⟨hn, hr, -⟩ := h.heldBy_iff.mp hn
  obtain ⟨hm, hr', -⟩ := h.heldBy_iff.mp hm
  have hpar : H.parent m = H.parent n :=
    h.path_injective (h.parent_live hm hr') (h.parent_live hn hr)
      (hle.eq_of_length_le hge.length_le)
  rw [hpar] at hb hkid'
  rw [ha, Option.some.injEq] at hb
  rw [← hb, hkid, Option.some.injEq] at hkid'
  exact hkid'

/-! ### Where a walk rests -/

/-- A walk that rests inside an edge has entered it, at a position of the node below. -/
theorem heldBy_of_stopped [DecidableEq α] (h : Labelled H live rp) {ts : List α} {n : ι}
    {o k : Nat} (hs : Stopped H live rp ts n o k) (hlt : o < (H.edge n).length) :
    0 < o ∧ HeldBy H (ts.take k) n ∧ rp n ≠ ts.take k := by
  obtain ⟨hn, hk, -, p, hp, hcut⟩ := h.stopped_path hs
  cases hs with
  | atNode => exact absurd hlt (Nat.lt_irrefl _)
  | @onEdge m _ a k hm hpm ha hkid hlt =>
      have hpos := h.walk_pos hm ha hkid
      have hpar := h.kidParent hm hkid
      have hpath := h.kidPath hm hkid
      have hpm : p = rp m := List.append_cancel_right (hp.symm.trans hpath)
      set l := lcpLen (H.edge n) (ts.drop k) with hl
      have hlen : (ts.take (k + l)).length = (rp m).length + l := by
        rw [hcut, hpm, List.length_append, List.length_take, Nat.min_eq_left (Nat.le_of_lt hlt)]
      refine ⟨hpos, h.heldBy_iff.mpr ⟨hn, h.kid_ne_root hm hkid, ?_, ?_⟩, fun heq => ?_⟩
      · rw [hpar, hlen]
        omega
      · rw [hcut, hp]
        exact (List.prefix_append_right_inj p).mpr (List.take_prefix _ _)
      · rw [← heq, hpath, List.length_append] at hlen
        omega

/-- A walk that rests at the end of an edge rests at a position that ends its node. -/
theorem path_of_stopped [DecidableEq α] (h : Labelled H live rp) {ts : List α} {n : ι}
    {o k : Nat} (hs : Stopped H live rp ts n o k) (hend : ¬ o < (H.edge n).length) :
    rp n = ts.take k := by
  obtain ⟨-, -, hle, p, hp, hcut⟩ := h.stopped_path hs
  rw [hcut, hp, Nat.le_antisymm hle (Nat.le_of_not_lt hend), List.take_length]

/-! ### Cutting an edge -/

/--
**A cut moves the positions of the upper half to the new node**, and leaves all others where
they were.
-/
theorem heldBy_cut {live' : Set ι} {rp' : ι → List α} (h : Labelled H live rp)
    (h' : Labelled H' live' rp') {ch u : ι} (hch : ch ∈ live) (hr : ch ≠ H.root)
    (hu : u ∉ live) (hroot : H'.root = H.root) (hlive : ∀ n, n ∈ live' ↔ n = u ∨ n ∈ live)
    (hpath : ∀ n ∈ live, rp' n = rp n) (hupper : rp' u <+: rp ch)
    (hparent : ∀ n ∈ live, n ≠ ch → H'.parent n = H.parent n) (hbelow : H'.parent ch = u)
    (habove : H'.parent u = H.parent ch) {q : List α} {n n' : ι} (hq : HeldBy H q n)
    (hq' : HeldBy H' q n') : n' = n ∨ n' = u ∧ n = ch := by
  have hpl := h.parent_live hch hr
  have hur : u ≠ H'.root := fun heq => hu (heq.trans hroot ▸ h.rootLive)
  obtain ⟨hn', hr', hlen', hpre'⟩ := h'.heldBy_iff.mp hq'
  rcases (hlive n').mp hn' with rfl | hn'
  · refine Or.inr ⟨rfl, h.heldBy_unique hq (h.heldBy_iff.mpr ⟨hch, hr, ?_, hpre'.trans hupper⟩)⟩
    rw [habove, hpath _ hpl] at hlen'
    exact hlen'
  · refine Or.inl (h.heldBy_unique (h.heldBy_iff.mpr ⟨hn', hroot ▸ hr', ?_, hpath n' hn' ▸ hpre'⟩) hq)
    by_cases hnc : n' = ch
    · subst hnc
      rw [hbelow] at hlen'
      have habovelt := h'.parent_length_lt ((hlive u).mpr (Or.inl rfl)) hur
      rw [habove, hpath _ hpl] at habovelt
      exact habovelt.trans hlen'
    · rw [hparent n' hn' hnc, hpath _ (h.parent_live hn' (hroot ▸ hr'))] at hlen'
      exact hlen'

end Labelled

end Radix
