/-
The local updates of a radix tree keep it one.

Programs edit a radix tree a few nodes at a time: cut an edge in two, hang a new
leaf, take a leaf off, fuse a node with its only child.  Each theorem here takes a
labelled heap and a second heap that differs from it as the edit says, and labels
the second.  The hypotheses speak of live nodes only, so a program is free to leave
garbage behind.

An edge can be cut two ways, and both occur in practice: the old node can keep the
upper half (`splitLower`, the fresh node takes the lower) or the lower half
(`splitUpper`, the fresh node is put above it).
-/
import Peek.Radix.Heap

namespace Radix

namespace Labelled

variable {ι α : Type*} {H H' : Heap ι α} {live : Set ι} {rp : ι → List α}

/-- A node is never its own child. -/
theorem kid_ne_self (h : Labelled H live rp) {n c : ι} {a : α} (hn : n ∈ live)
    (hk : H.kid n a = some c) : c ≠ n := by
  rintro rfl
  have := h.kid_length_lt hn hk
  omega

theorem parent_ne_self (h : Labelled H live rp) {n : ι} (hn : n ∈ live) (hr : n ≠ H.root) :
    H.parent n ≠ n := by
  intro heq
  have := h.parent_length_lt hn hr
  rw [heq] at this
  omega

variable [DecidableEq ι] [DecidableEq α]

/-! ### A new leaf -/

/-- Hanging a fresh leaf `l` under `n`, where no child starts with the leaf's first symbol. -/
theorem graft (h : Labelled H live rp) {n l : ι} {a : α} {tl : List α} (hn : n ∈ live)
    (hl : l ∉ live) (hfree : H.kid n a = none)
    (root' : H'.root = H.root)
    (edgeNew : H'.edge l = a :: tl) (edgeOld : ∀ m ∈ live, H'.edge m = H.edge m)
    (parentNew : H'.parent l = n) (parentOld : ∀ m ∈ live, H'.parent m = H.parent m)
    (kidNew : ∀ x, H'.kid l x = none)
    (kidAt : ∀ x, H'.kid n x = if x = a then some l else H.kid n x)
    (kidOld : ∀ m ∈ live, m ≠ n → ∀ x, H'.kid m x = H.kid m x) :
    Labelled H' (insert l live) (fun m => if m = l then rp n ++ a :: tl else rp m) := by
  have hne : ∀ m ∈ live, m ≠ l := fun m hm heq => hl (heq ▸ hm)
  -- a child in the new heap is the new leaf, or was a child before
  have kids : ∀ {m x c}, m ∈ insert l live → H'.kid m x = some c →
      (m = n ∧ x = a ∧ c = l) ∨ (m ∈ live ∧ H.kid m x = some c) := by
    intro m x c hm hk
    rcases hm with rfl | hm
    · rw [kidNew] at hk; simp at hk
    · by_cases hmn : m = n
      · subst hmn
        rw [kidAt] at hk
        by_cases hx : x = a
        · rw [if_pos hx] at hk; exact Or.inl ⟨rfl, hx, by simpa using hk.symm⟩
        · rw [if_neg hx] at hk; exact Or.inr ⟨hm, hk⟩
      · rw [kidOld m hm hmn] at hk; exact Or.inr ⟨hm, hk⟩
  refine ⟨?_, ?_, ?_, ?_, ?_, ?_, ?_, ?_⟩
  · rw [root']; exact Or.inr h.rootLive
  · rw [root', if_neg (hne _ h.rootLive)]; exact h.rootPath
  · rw [root', edgeOld _ h.rootLive]; exact h.rootEdge
  · intro m x c hm hk
    rcases kids hm hk with ⟨-, -, rfl⟩ | ⟨hm, hk⟩
    · exact Or.inl rfl
    · exact Or.inr (h.kidLive hm hk)
  · intro m x c hm hk
    rcases kids hm hk with ⟨-, rfl, rfl⟩ | ⟨hm, hk⟩
    · rw [edgeNew]; rfl
    · rw [edgeOld _ (h.kidLive hm hk)]; exact h.kidHead hm hk
  · intro m x c hm hk
    rcases kids hm hk with ⟨rfl, rfl, rfl⟩ | ⟨hm, hk⟩
    · rw [if_pos rfl, if_neg (hne _ hn), edgeNew]
    · rw [if_neg (hne _ (h.kidLive hm hk)), if_neg (hne _ hm), edgeOld _ (h.kidLive hm hk)]
      exact h.kidPath hm hk
  · intro m x c hm hk
    rcases kids hm hk with ⟨rfl, -, rfl⟩ | ⟨hm, hk⟩
    · exact parentNew
    · rw [parentOld _ (h.kidLive hm hk)]; exact h.kidParent hm hk
  · intro m hm hr
    rcases hm with rfl | hm
    · exact ⟨a, by rw [edgeNew]; rfl, by rw [parentNew]; exact Or.inr hn,
        by rw [parentNew, kidAt, if_pos rfl]⟩
    · obtain ⟨x, hx, hp, hk⟩ := h.up hm (by rw [← root']; exact hr)
      refine ⟨x, by rw [edgeOld m hm]; exact hx, by rw [parentOld m hm]; exact Or.inr hp, ?_⟩
      rw [parentOld m hm]
      by_cases hpn : H.parent m = n
      · rw [hpn] at hk ⊢
        have hxa : x ≠ a := by
          rintro rfl
          rw [hfree] at hk; simp at hk
        rw [kidAt, if_neg hxa]; exact hk
      · rw [kidOld _ hp hpn]; exact hk

/-! ### A leaf taken off -/

/-- Unlinking a childless node `l` from its parent. -/
theorem prune (h : Labelled H live rp) {l : ι} {a : α} (hl : l ∈ live) (hr : l ≠ H.root)
    (ha : (H.edge l).head? = some a) (hleaf : ∀ x, H.kid l x = none)
    (root' : H'.root = H.root)
    (edgeOld : ∀ m ∈ live, m ≠ l → H'.edge m = H.edge m)
    (parentOld : ∀ m ∈ live, m ≠ l → H'.parent m = H.parent m)
    (kidAt : ∀ x, H'.kid (H.parent l) x = if x = a then none else H.kid (H.parent l) x)
    (kidOld : ∀ m ∈ live, m ≠ l → m ≠ H.parent l → ∀ x, H'.kid m x = H.kid m x) :
    Labelled H' (live \ {l}) rp := by
  have hpl := h.parent_live hl hr
  have hlk : H.kid (H.parent l) a = some l := by
    obtain ⟨b, hb, -, hk⟩ := h.up hl hr
    rw [ha] at hb
    simp only [Option.some.injEq] at hb
    subst hb; exact hk
  -- the children left are the old ones, without `l`
  have kids : ∀ {m x c}, m ∈ live → m ≠ l → H'.kid m x = some c → H.kid m x = some c ∧ c ≠ l := by
    intro m x c hm hml hk
    by_cases hmp : m = H.parent l
    · rw [hmp, kidAt] at hk
      by_cases hx : x = a
      · rw [if_pos hx] at hk; simp at hk
      · rw [if_neg hx] at hk
        rw [hmp]
        refine ⟨hk, ?_⟩
        rintro rfl
        have := h.kidHead hpl hk
        rw [ha] at this
        exact hx (by simpa using this.symm)
    · rw [kidOld m hm hml hmp] at hk
      refine ⟨hk, ?_⟩
      rintro rfl
      exact hmp (h.kidParent hm hk).symm
  refine ⟨?_, h.rootPath ▸ by rw [root'], ?_, ?_, ?_, ?_, ?_, ?_⟩
  · rw [root']; exact ⟨h.rootLive, fun hc => hr hc.symm⟩
  · rw [root', edgeOld _ h.rootLive (Ne.symm hr)]; exact h.rootEdge
  · rintro m x c ⟨hm, hml⟩ hk
    obtain ⟨hk, hcl⟩ := kids hm hml hk
    exact ⟨h.kidLive hm hk, hcl⟩
  · rintro m x c ⟨hm, hml⟩ hk
    obtain ⟨hk, hcl⟩ := kids hm hml hk
    rw [edgeOld _ (h.kidLive hm hk) hcl]; exact h.kidHead hm hk
  · rintro m x c ⟨hm, hml⟩ hk
    obtain ⟨hk, hcl⟩ := kids hm hml hk
    rw [edgeOld _ (h.kidLive hm hk) hcl]; exact h.kidPath hm hk
  · rintro m x c ⟨hm, hml⟩ hk
    obtain ⟨hk, hcl⟩ := kids hm hml hk
    rw [parentOld _ (h.kidLive hm hk) hcl]; exact h.kidParent hm hk
  · rintro m ⟨hm, hml⟩ hr'
    rw [root'] at hr'
    obtain ⟨x, hx, hp, hk⟩ := h.up hm hr'
    have hpl' : H.parent m ≠ l := by
      intro hc
      rw [hc, hleaf] at hk; simp at hk
    rw [parentOld m hm hml, edgeOld m hm hml]
    refine ⟨x, hx, ⟨hp, hpl'⟩, ?_⟩
    by_cases hpp : H.parent m = H.parent l
    · rw [hpp] at hk ⊢
      have hxa : x ≠ a := by
        rintro rfl
        rw [hlk] at hk
        simp only [Option.some.injEq] at hk
        exact hml hk.symm
      rw [kidAt, if_neg hxa]; exact hk
    · rw [kidOld _ hp hpl' hpp]; exact hk

/-! ### An edge cut in two -/

/-- Cutting the edge into `c`: `c` keeps the upper half, the fresh `l` takes the rest. -/
theorem splitLower (h : Labelled H live rp) {c l : ι} {upper lower : List α} {b : α}
    (hc : c ∈ live) (hr : c ≠ H.root) (hl : l ∉ live) (hup : upper ≠ [])
    (hedge : H.edge c = upper ++ b :: lower)
    (root' : H'.root = H.root)
    (edgeAt : H'.edge c = upper) (edgeNew : H'.edge l = b :: lower)
    (edgeOld : ∀ m ∈ live, m ≠ c → H'.edge m = H.edge m)
    (kidAt : ∀ x, H'.kid c x = if x = b then some l else none)
    (kidNew : ∀ x, H'.kid l x = H.kid c x)
    (kidOld : ∀ m ∈ live, m ≠ c → ∀ x, H'.kid m x = H.kid m x)
    (parentNew : H'.parent l = c)
    (parentKid : ∀ x g, H.kid c x = some g → H'.parent g = l)
    (parentOld : ∀ m ∈ live, (∀ x, H.kid c x ≠ some m) → H'.parent m = H.parent m) :
    Labelled H' (insert l live)
      (fun m => if m = l then rp c else if m = c then rp (H.parent c) ++ upper else rp m) := by
  have hne : ∀ m ∈ live, m ≠ l := fun m hm heq => hl (heq ▸ hm)
  have hcl := hne c hc
  have hpath : rp c = rp (H.parent c) ++ upper ++ b :: lower := by
    rw [h.path_eq hc hr, hedge, List.append_assoc]
  have kids : ∀ {m x g}, m ∈ insert l live → H'.kid m x = some g →
      (m = c ∧ x = b ∧ g = l) ∨ (m = l ∧ H.kid c x = some g) ∨
        (m ∈ live ∧ m ≠ c ∧ H.kid m x = some g) := by
    intro m x g hm hk
    rcases hm with rfl | hm
    · rw [kidNew] at hk; exact Or.inr (Or.inl ⟨rfl, hk⟩)
    · by_cases hmc : m = c
      · rw [hmc, kidAt] at hk
        by_cases hx : x = b
        · rw [if_pos hx] at hk; exact Or.inl ⟨hmc, hx, by simpa using hk.symm⟩
        · rw [if_neg hx] at hk; simp at hk
      · rw [kidOld m hm hmc] at hk; exact Or.inr (Or.inr ⟨hm, hmc, hk⟩)
  refine ⟨?_, ?_, ?_, ?_, ?_, ?_, ?_, ?_⟩
  · rw [root']; exact Or.inr h.rootLive
  · rw [root', if_neg (hne _ h.rootLive), if_neg (Ne.symm hr)]; exact h.rootPath
  · rw [root', edgeOld _ h.rootLive (Ne.symm hr)]; exact h.rootEdge
  · intro m x g hm hk
    rcases kids hm hk with ⟨-, -, rfl⟩ | ⟨-, hk⟩ | ⟨hm, -, hk⟩
    · exact Or.inl rfl
    · exact Or.inr (h.kidLive hc hk)
    · exact Or.inr (h.kidLive hm hk)
  · intro m x g hm hk
    rcases kids hm hk with ⟨-, rfl, rfl⟩ | ⟨-, hk⟩ | ⟨hm, -, hk⟩
    · rw [edgeNew]; rfl
    · rw [edgeOld _ (h.kidLive hc hk) (h.kid_ne_self hc hk)]; exact h.kidHead hc hk
    · by_cases hgc : g = c
      · subst hgc
        have := h.kidHead hm hk
        rw [hedge, List.head?_append_of_ne_nil _ hup] at this
        rw [edgeAt]; exact this
      · rw [edgeOld _ (h.kidLive hm hk) hgc]; exact h.kidHead hm hk
  · intro m x g hm hk
    rcases kids hm hk with ⟨rfl, -, rfl⟩ | ⟨rfl, hk⟩ | ⟨hm, hmc, hk⟩
    · rw [if_pos rfl, if_neg hcl, if_pos rfl, edgeNew]; exact hpath
    · have hg := h.kidLive hc hk
      rw [if_neg (hne g hg), if_neg (h.kid_ne_self hc hk), if_pos rfl,
        edgeOld g hg (h.kid_ne_self hc hk)]
      exact h.kidPath hc hk
    · have hg := h.kidLive hm hk
      rw [if_neg (hne g hg), if_neg (hne m hm), if_neg hmc]
      by_cases hgc : g = c
      · subst hgc
        rw [if_pos rfl, edgeAt, h.kidParent hm hk]
      · rw [if_neg hgc, edgeOld g hg hgc]; exact h.kidPath hm hk
  · intro m x g hm hk
    rcases kids hm hk with ⟨rfl, -, rfl⟩ | ⟨rfl, hk⟩ | ⟨hm, hmc, hk⟩
    · exact parentNew
    · exact parentKid x g hk
    · rw [parentOld g (h.kidLive hm hk)]
      · exact h.kidParent hm hk
      · intro y hy
        exact hmc ((h.kidParent hm hk).symm.trans (h.kidParent hc hy))
  · intro m hm hmr
    rw [root'] at hmr
    rcases hm with rfl | hm
    · exact ⟨b, by rw [edgeNew]; rfl, by rw [parentNew]; exact Or.inr hc,
        by rw [parentNew, kidAt, if_pos rfl]⟩
    · obtain ⟨x, hx, hp, hk⟩ := h.up hm hmr
      by_cases hpc : H.parent m = c
      · -- a child of `c` now hangs under `l`
        rw [hpc] at hk
        rw [parentKid x m hk, edgeOld m hm (h.kid_ne_self hc hk)]
        exact ⟨x, hx, Or.inl rfl, by rw [kidNew]; exact hk⟩
      · have hpar : H'.parent m = H.parent m :=
          parentOld m hm fun y hy => hpc (h.kidParent hc hy)
        refine ⟨x, ?_, by rw [hpar]; exact Or.inr hp, by rw [hpar, kidOld _ hp hpc]; exact hk⟩
        by_cases hmc : m = c
        · subst hmc
          rw [hedge, List.head?_append_of_ne_nil _ hup] at hx
          rw [edgeAt]; exact hx
        · rw [edgeOld m hm hmc]; exact hx

/-- Cutting the edge into `c`: the fresh `u` takes the upper half and is put above `c`. -/
theorem splitUpper (h : Labelled H live rp) {c u : ι} {upper lower : List α} {a b : α}
    (hc : c ∈ live) (hr : c ≠ H.root) (hu : u ∉ live) (hup : upper.head? = some a)
    (hedge : H.edge c = upper ++ b :: lower)
    (root' : H'.root = H.root)
    (edgeAt : H'.edge c = b :: lower) (edgeNew : H'.edge u = upper)
    (edgeOld : ∀ m ∈ live, m ≠ c → H'.edge m = H.edge m)
    (kidNew : ∀ x, H'.kid u x = if x = b then some c else none)
    (kidAt : ∀ x, H'.kid (H.parent c) x = if x = a then some u else H.kid (H.parent c) x)
    (kidOld : ∀ m ∈ live, m ≠ H.parent c → ∀ x, H'.kid m x = H.kid m x)
    (parentNew : H'.parent u = H.parent c) (parentAt : H'.parent c = u)
    (parentOld : ∀ m ∈ live, m ≠ c → H'.parent m = H.parent m) :
    Labelled H' (insert u live) (fun m => if m = u then rp (H.parent c) ++ upper else rp m) := by
  have hne : ∀ m ∈ live, m ≠ u := fun m hm heq => hu (heq ▸ hm)
  have hpl := h.parent_live hc hr
  have hpath : rp c = rp (H.parent c) ++ upper ++ b :: lower := by
    rw [h.path_eq hc hr, hedge, List.append_assoc]
  have hupne : upper ≠ [] := by rintro rfl; simp at hup
  have hck : H.kid (H.parent c) a = some c := by
    obtain ⟨x, hx, -, hk⟩ := h.up hc hr
    rw [hedge, List.head?_append_of_ne_nil _ hupne, hup, Option.some.injEq] at hx
    subst hx; exact hk
  have kids : ∀ {m x g}, m ∈ insert u live → H'.kid m x = some g →
      (m = u ∧ x = b ∧ g = c) ∨ (m = H.parent c ∧ x = a ∧ g = u) ∨
        (m ∈ live ∧ g ≠ c ∧ H.kid m x = some g) := by
    intro m x g hm hk
    rcases hm with rfl | hm
    · rw [kidNew] at hk
      by_cases hx : x = b
      · rw [if_pos hx] at hk; exact Or.inl ⟨rfl, hx, by simpa using hk.symm⟩
      · rw [if_neg hx] at hk; simp at hk
    · by_cases hmp : m = H.parent c
      · rw [hmp, kidAt] at hk
        by_cases hx : x = a
        · rw [if_pos hx] at hk; exact Or.inr (Or.inl ⟨hmp, hx, by simpa using hk.symm⟩)
        · rw [if_neg hx] at hk
          refine Or.inr (Or.inr ⟨hm, ?_, by rw [hmp]; exact hk⟩)
          rintro rfl
          have := h.kidHead hpl hk
          rw [hedge, List.head?_append_of_ne_nil _ hupne, hup] at this
          exact hx (by simpa using this.symm)
      · rw [kidOld m hm hmp] at hk
        refine Or.inr (Or.inr ⟨hm, ?_, hk⟩)
        rintro rfl
        exact hmp (h.kidParent hm hk).symm
  refine ⟨?_, ?_, ?_, ?_, ?_, ?_, ?_, ?_⟩
  · rw [root']; exact Or.inr h.rootLive
  · rw [root', if_neg (hne _ h.rootLive)]; exact h.rootPath
  · rw [root', edgeOld _ h.rootLive (Ne.symm hr)]; exact h.rootEdge
  · intro m x g hm hk
    rcases kids hm hk with ⟨-, -, rfl⟩ | ⟨-, -, rfl⟩ | ⟨hm, -, hk⟩
    · exact Or.inr hc
    · exact Or.inl rfl
    · exact Or.inr (h.kidLive hm hk)
  · intro m x g hm hk
    rcases kids hm hk with ⟨-, rfl, rfl⟩ | ⟨-, rfl, rfl⟩ | ⟨hm, hgc, hk⟩
    · rw [edgeAt]; rfl
    · rw [edgeNew]; exact hup
    · rw [edgeOld g (h.kidLive hm hk) hgc]; exact h.kidHead hm hk
  · intro m x g hm hk
    rcases kids hm hk with ⟨rfl, -, rfl⟩ | ⟨rfl, -, rfl⟩ | ⟨hm, hgc, hk⟩
    · rw [if_neg (hne _ hc), if_pos rfl, edgeAt]; exact hpath
    · rw [if_pos rfl, if_neg (hne _ hpl), edgeNew]
    · rw [if_neg (hne _ (h.kidLive hm hk)), if_neg (hne _ hm), edgeOld g (h.kidLive hm hk) hgc]
      exact h.kidPath hm hk
  · intro m x g hm hk
    rcases kids hm hk with ⟨rfl, -, rfl⟩ | ⟨rfl, -, rfl⟩ | ⟨hm, hgc, hk⟩
    · exact parentAt
    · exact parentNew
    · rw [parentOld g (h.kidLive hm hk) hgc]; exact h.kidParent hm hk
  · intro m hm hmr
    rw [root'] at hmr
    rcases hm with rfl | hm
    · exact ⟨a, by rw [edgeNew]; exact hup, by rw [parentNew]; exact Or.inr hpl,
        by rw [parentNew, kidAt, if_pos rfl]⟩
    · by_cases hmc : m = c
      · rw [hmc, parentAt, edgeAt]
        exact ⟨b, rfl, Or.inl rfl, by rw [kidNew, if_pos rfl]⟩
      · obtain ⟨x, hx, hp, hk⟩ := h.up hm hmr
        rw [parentOld m hm hmc, edgeOld m hm hmc]
        refine ⟨x, hx, Or.inr hp, ?_⟩
        by_cases hpp : H.parent m = H.parent c
        · rw [hpp] at hk ⊢
          have hxa : x ≠ a := by
            rintro rfl
            rw [hck] at hk
            exact hmc (by simpa using hk.symm)
          rw [kidAt, if_neg hxa]; exact hk
        · rw [kidOld _ hp hpp]; exact hk

/-! ### A node fused with its only child -/

/-- `n` takes over the edge, the children and the place of its only child `c`. -/
theorem fuse (h : Labelled H live rp) {n c : ι} {b : α} (hn : n ∈ live) (hr : n ≠ H.root)
    (honly : ∀ x, H.kid n x = if x = b then some c else none)
    (root' : H'.root = H.root)
    (edgeAt : H'.edge n = H.edge n ++ H.edge c)
    (edgeOld : ∀ m ∈ live, m ≠ n → m ≠ c → H'.edge m = H.edge m)
    (kidAt : ∀ x, H'.kid n x = H.kid c x)
    (kidOld : ∀ m ∈ live, m ≠ n → m ≠ c → ∀ x, H'.kid m x = H.kid m x)
    (parentKid : ∀ x g, H.kid c x = some g → H'.parent g = n)
    (parentOld : ∀ m ∈ live, m ≠ c → (∀ x, H.kid c x ≠ some m) → H'.parent m = H.parent m) :
    Labelled H' (live \ {c}) (fun m => if m = n then rp c else rp m) := by
  have hkc : H.kid n b = some c := by rw [honly, if_pos rfl]
  have hc := h.kidLive hn hkc
  have hcn := h.kid_ne_self hn hkc
  have hcr := h.kid_ne_root hn hkc
  have hnc : ∀ x, H.kid c x ≠ some n := by
    intro x hx
    have h1 := h.kid_length_lt hn hkc
    have h2 := h.kid_length_lt hc hx
    omega
  have hpar : ∀ {m x}, m ∈ live → H.kid m x = some c → m = n := fun hm hk =>
    (h.kidParent hm hk).symm.trans (h.kidParent hn hkc)
  have kids : ∀ {m x g}, m ∈ live → m ≠ c → H'.kid m x = some g →
      (m = n ∧ H.kid c x = some g) ∨ (m ≠ n ∧ g ≠ c ∧ H.kid m x = some g) := by
    intro m x g hm hmc hk
    by_cases hmn : m = n
    · rw [hmn, kidAt] at hk; exact Or.inl ⟨hmn, hk⟩
    · rw [kidOld m hm hmn hmc] at hk
      refine Or.inr ⟨hmn, ?_, hk⟩
      rintro rfl
      exact hmn (hpar hm hk)
  refine ⟨?_, ?_, ?_, ?_, ?_, ?_, ?_, ?_⟩
  · rw [root']; exact ⟨h.rootLive, fun hx => hcr hx.symm⟩
  · rw [root', if_neg (Ne.symm hr)]; exact h.rootPath
  · rw [root', edgeOld _ h.rootLive (Ne.symm hr) (Ne.symm hcr)]; exact h.rootEdge
  · rintro m x g ⟨hm, hmc⟩ hk
    rcases kids hm hmc hk with ⟨-, hk⟩ | ⟨-, hgc, hk⟩
    · exact ⟨h.kidLive hc hk, h.kid_ne_self hc hk⟩
    · exact ⟨h.kidLive hm hk, hgc⟩
  · rintro m x g ⟨hm, hmc⟩ hk
    rcases kids hm hmc hk with ⟨-, hk⟩ | ⟨hmn, hgc, hk⟩
    · rw [edgeOld g (h.kidLive hc hk) (fun hgn => hnc x (hgn ▸ hk)) (h.kid_ne_self hc hk)]
      exact h.kidHead hc hk
    · by_cases hgn : g = n
      · subst hgn
        rw [edgeAt, List.head?_append_of_ne_nil _ (h.edge_ne_nil hn hr)]
        exact h.kidHead hm hk
      · rw [edgeOld g (h.kidLive hm hk) hgn hgc]; exact h.kidHead hm hk
  · rintro m x g ⟨hm, hmc⟩ hk
    rcases kids hm hmc hk with ⟨rfl, hk⟩ | ⟨hmn, hgc, hk⟩
    · have hgm : g ≠ m := fun hg => hnc x (hg ▸ hk)
      rw [if_neg hgm, if_pos rfl, edgeOld g (h.kidLive hc hk) hgm (h.kid_ne_self hc hk)]
      exact h.kidPath hc hk
    · rw [if_neg hmn]
      by_cases hgn : g = n
      · subst hgn
        rw [if_pos rfl, edgeAt, h.kidPath hn hkc, h.kidPath hm hk, List.append_assoc]
      · rw [if_neg hgn, edgeOld g (h.kidLive hm hk) hgn hgc]; exact h.kidPath hm hk
  · rintro m x g ⟨hm, hmc⟩ hk
    rcases kids hm hmc hk with ⟨rfl, hk⟩ | ⟨hmn, hgc, hk⟩
    · exact parentKid x g hk
    · rw [parentOld g (h.kidLive hm hk) hgc]
      · exact h.kidParent hm hk
      · intro y hy
        exact hmc ((h.kidParent hm hk).symm.trans (h.kidParent hc hy))
  · rintro m ⟨hm, hmc⟩ hmr
    rw [root'] at hmr
    obtain ⟨x, hx, hp, hk⟩ := h.up hm hmr
    by_cases hpc : H.parent m = c
    · -- a child of `c` now hangs under `n`
      rw [hpc] at hk
      have hmn : m ≠ n := fun hg => hnc x (hg ▸ hk)
      rw [parentKid x m hk, edgeOld m hm hmn hmc]
      exact ⟨x, hx, ⟨hn, Ne.symm hcn⟩, by rw [kidAt]; exact hk⟩
    · have hpar' : H'.parent m = H.parent m :=
        parentOld m hm hmc fun y hy => hpc (h.kidParent hc hy)
      have hpn : H.parent m ≠ n := by
        intro hpn
        rw [hpn, honly] at hk
        by_cases hxb : x = b
        · rw [if_pos hxb, Option.some.injEq] at hk; exact hmc hk.symm
        · rw [if_neg hxb] at hk; simp at hk
      refine ⟨x, ?_, by rw [hpar']; exact ⟨hp, hpc⟩, by rw [hpar', kidOld _ hp hpn hpc]; exact hk⟩
      by_cases hmn : m = n
      · subst hmn
        rw [edgeAt, List.head?_append_of_ne_nil _ (h.edge_ne_nil hn hr)]; exact hx
      · rw [edgeOld m hm hmn hmc]; exact hx

end Labelled

end Radix
