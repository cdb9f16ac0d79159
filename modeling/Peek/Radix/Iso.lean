/-
A radix tree is known from its paths.

Which nodes a tree has is not a choice: node identities aside, two labelled heaps
whose nodes sit at the same paths have the same edges and the same children.  So to
show that two histories built the same tree it is enough to compare the sets of
paths, and `fork_live` says where a path must end: wherever two paths part.
-/
import Peek.Radix.Heap
import Mathlib.Data.Set.Card

namespace Radix

variable {ι κ α : Type*}

/-- The paths at which nodes sit. -/
def paths (live : Set ι) (rp : ι → List α) : Set (List α) := rp '' live

namespace Labelled

variable {H : Heap ι α} {live : Set ι} {rp : ι → List α}
variable {H' : Heap κ α} {live' : Set κ} {rp' : κ → List α}

/-! ### Where paths part there is a node -/

/--
Two live paths that agree on `q` and part right after it.  The induction walks down
from a node at or above `q`; the edge that would carry it past `q` would have to go
both ways at once.
-/
theorem fork_live_aux (h : Labelled H live rp) {q : List α} {a b : α} {m m' : ι} (hm : m ∈ live)
    (hm' : m' ∈ live) (hab : a ≠ b) (ha : q ++ [a] <+: rp m) (hb : q ++ [b] <+: rp m') :
    ∀ (k : Nat) (n : ι), n ∈ live → rp n <+: q → q.length - (rp n).length = k →
      ∃ n ∈ live, rp n = q := by
  intro k
  induction k using Nat.strong_induction_on with
  | _ k ih =>
      intro n hn hpre hk
      obtain ⟨rest, rfl⟩ := hpre
      cases rest with
      | nil => exact ⟨n, hn, (List.append_nil _).symm⟩
      | cons x tl =>
          have hqm : rp n ++ x :: tl <+: rp m := (List.prefix_append _ _).trans ha
          have hqm' : rp n ++ x :: tl <+: rp m' := (List.prefix_append _ _).trans hb
          obtain ⟨c, hkid, hcm⟩ := h.kid_of_prefix hn hm hqm
          obtain ⟨c', hkid', hcm'⟩ := h.kid_of_prefix hn hm' hqm'
          have hcc : c = c' := by rw [hkid] at hkid'; simpa using hkid'
          subst hcc
          have hc := h.kidLive hn hkid
          have hlt := h.kid_length_lt hn hkid
          have hpm := h.below_prefix hc hcm
          have hpm' := h.below_prefix hc hcm'
          by_cases hle : (rp c).length ≤ (rp n ++ x :: tl).length
          · have hcq := List.prefix_of_prefix_length_le hpm hqm hle
            have := hcq.length_le
            exact ih _ (by omega) c hc hcq rfl
          · -- the child's edge runs past `q`, along `a` and along `b`
            have h1 := List.prefix_of_prefix_length_le ha hpm (by
              simp only [List.length_append, List.length_cons] at hle ⊢; simp; omega)
            have h2 := List.prefix_of_prefix_length_le hb hpm' (by
              simp only [List.length_append, List.length_cons] at hle ⊢; simp; omega)
            have := (getElem?_of_prefix_cons h1).symm.trans (getElem?_of_prefix_cons h2)
            exact absurd (by simpa using this) hab

theorem fork_live (h : Labelled H live rp) {q : List α} {a b : α} {m m' : ι} (hm : m ∈ live)
    (hm' : m' ∈ live) (hab : a ≠ b) (ha : q ++ [a] <+: rp m) (hb : q ++ [b] <+: rp m') :
    q ∈ paths live rp := by
  obtain ⟨n, hn, hq⟩ := h.fork_live_aux hm hm' hab ha hb _ H.root h.rootLive
    (by rw [h.rootPath]; exact List.nil_prefix) rfl
  exact ⟨n, hn, hq⟩

/-! ### Equal paths, equal trees -/

/-- The children of corresponding nodes correspond. -/
theorem kid_of_paths (h : Labelled H live rp) (h' : Labelled H' live' rp')
    (hsub : paths live' rp' ⊆ paths live rp) {n c : ι} {n' c' : κ} {a : α} (hn : n ∈ live)
    (hn' : n' ∈ live') (hpn : rp' n' = rp n) (hkid : H.kid n a = some c) (hc' : c' ∈ live')
    (hpc : rp' c' = rp c) : H'.kid n' a = some c' := by
  have hc := h.kidLive hn hkid
  obtain ⟨tl, -, hpath⟩ := h.kid_path_cons hn hkid
  have hpre : rp' n' ++ a :: tl <+: rp' c' := by rw [hpn, hpc, hpath]
  obtain ⟨d', hkid', hbelow⟩ := h'.kid_of_prefix hn' hc' hpre
  have hd' := h'.kidLive hn' hkid'
  -- `d'` sits at a path strictly below `n` and not below `c`, so at `c`'s
  obtain ⟨d, hd, hpd⟩ := hsub ⟨d', hd', rfl⟩
  have hdc : rp d <+: rp c := by
    rw [hpd, ← hpc]; exact h'.below_prefix hd' hbelow
  have hlt := h'.kid_length_lt hn' hkid'
  rw [hpn, ← hpd] at hlt
  rcases (h.prefix_parent_iff hd hc (h.kid_ne_root hn hkid)).mp hdc with rfl | hup
  · rw [hkid', h'.path_injective hd' hc' (hpd.symm.trans hpc.symm)]
  · rw [h.kidParent hn hkid] at hup
    have := hup.length_le
    omega

/-- Equal sets of paths: the edges and parents of corresponding nodes correspond. -/
theorem edge_of_paths (h : Labelled H live rp) (h' : Labelled H' live' rp')
    (hsub : paths live rp ⊆ paths live' rp') (hsub' : paths live' rp' ⊆ paths live rp) {n : ι}
    {n' : κ} (hn : n ∈ live) (hn' : n' ∈ live') (hp : rp' n' = rp n) :
    H'.edge n' = H.edge n ∧ (n ≠ H.root → rp' (H'.parent n') = rp (H.parent n)) := by
  by_cases hr : n = H.root
  · have hr' : n' = H'.root := by
      refine h'.path_injective hn' h'.rootLive ?_
      rw [hp, hr, h.rootPath, h'.rootPath]
    exact ⟨by rw [hr, hr', h.rootEdge, h'.rootEdge], fun hc => absurd hr hc⟩
  · obtain ⟨a, ha, hpl, hkid⟩ := h.up hn hr
    obtain ⟨u', hu', hpu⟩ := hsub ⟨_, hpl, rfl⟩
    have hkid' := h.kid_of_paths h' hsub' hpl hu' hpu hkid hn' hp
    have hpar := h'.kidParent hu' hkid'
    refine ⟨?_, fun _ => by rw [hpar, hpu]⟩
    have hpath := h'.kidPath hu' hkid'
    rw [hp, hpu, h.kidPath hpl hkid] at hpath
    exact (List.append_cancel_left hpath).symm

end Labelled

/-! ### The renaming -/

/-- Send every node to the one at the same path. -/
noncomputable def rename [Inhabited κ] (live' : Set κ) (rp' : κ → List α) (rp : ι → List α)
    (n : ι) : κ :=
  open Classical in if h : ∃ n' ∈ live', rp' n' = rp n then h.choose else default

section rename

variable [Inhabited κ] {H : Heap ι α} {live : Set ι} {rp : ι → List α}
variable {H' : Heap κ α} {live' : Set κ} {rp' : κ → List α}

theorem rename_spec (hsub : paths live rp ⊆ paths live' rp') {n : ι} (hn : n ∈ live) :
    rename live' rp' rp n ∈ live' ∧ rp' (rename live' rp' rp n) = rp n := by
  have h : ∃ n' ∈ live', rp' n' = rp n := hsub ⟨n, hn, rfl⟩
  rw [rename, dif_pos h]
  exact h.choose_spec

theorem rename_bijOn (h : Labelled H live rp) (h' : Labelled H' live' rp')
    (heq : paths live rp = paths live' rp') : Set.BijOn (rename live' rp' rp) live live' := by
  have hsub := heq.subset
  refine ⟨fun n hn => (rename_spec hsub hn).1, fun n hn m hm hnm => ?_, fun n' hn' => ?_⟩
  · refine h.path_injective hn hm ?_
    rw [← (rename_spec hsub hn).2, ← (rename_spec hsub hm).2, hnm]
  · obtain ⟨n, hn, hp⟩ := heq.symm.subset ⟨n', hn', rfl⟩
    refine ⟨n, hn, h'.path_injective (rename_spec hsub hn).1 hn' ?_⟩
    rw [(rename_spec hsub hn).2, hp]

end rename

end Radix
