/-
Parent links, and climbs along them.

Objects point to a parent, and all chains of parents end at one root.  `Up` counts the
links to the root, `Passes` says which objects a climb passes on its way there, and
`climbed` lists them.  A climb passes no object twice, so it is no longer than there are
objects, and fuel for that many turns is enough (`mem_climbed_iff`, `Up.le_card`).

The links change in two ways: a link is cut in two by a new object, or a new object is hung
somewhere.  `passes_cut_iff` and `passes_congr` say what that does to the climbs from the
objects that were there before.
-/
import Mathlib.Data.Finset.Card

namespace ParentChain

variable {ι : Type*} {parent parent' : ι → ι} {root : ι}

/-- `n` is `k` links away from the root. -/
inductive Up (parent : ι → ι) (root : ι) : Nat → ι → Prop
  | root : Up parent root 0 root
  | step {k : Nat} {n : ι} (hr : n ≠ root) (h : Up parent root k (parent n)) :
      Up parent root (k + 1) n

/-- A climb from `e` passes `n`.  The root ends the climb and is not passed. -/
inductive Passes (parent : ι → ι) (root : ι) : ι → ι → Prop
  | here {n : ι} (hr : n ≠ root) : Passes parent root n n
  | step {e n : ι} (hr : e ≠ root) (h : Passes parent root (parent e) n) : Passes parent root e n

theorem Up.unique {k l : Nat} {n : ι} (h : Up parent root k n) (h' : Up parent root l n) :
    k = l := by
  induction h generalizing l with
  | root =>
      cases h' with
      | root => rfl
      | step hr _ => exact absurd rfl hr
  | step hr _ ih =>
      cases h' with
      | root => exact absurd rfl hr
      | step _ h' => rw [ih h']

/-! ### What a climb passes -/

theorem Passes.start_ne {e n : ι} (h : Passes parent root e n) : e ≠ root := by
  cases h with
  | here hr => exact hr
  | step hr _ => exact hr

theorem Passes.ne_root {e n : ι} (h : Passes parent root e n) : n ≠ root := by
  induction h with
  | here hr => exact hr
  | step _ _ ih => exact ih

theorem passes_iff {e n : ι} (hr : e ≠ root) :
    Passes parent root e n ↔ e = n ∨ Passes parent root (parent e) n := by
  constructor
  · intro h
    cases h with
    | here _ => exact Or.inl rfl
    | step _ h => exact Or.inr h
  · intro h
    rcases h with rfl | h
    · exact Passes.here hr
    · exact Passes.step hr h

/-- A climb that passes an object passes its parent next. -/
theorem Passes.next {e n : ι} (h : Passes parent root e n) (hr : parent n ≠ root) :
    Passes parent root e (parent n) := by
  induction h with
  | here hn => exact Passes.step hn (Passes.here hr)
  | step he _ ih => exact Passes.step he (ih hr)

/-- What is passed is nearer to the root. -/
theorem Up.of_passes {k : Nat} {e n : ι} (h : Up parent root k e)
    (hp : Passes parent root e n) : ∃ j ≤ k, Up parent root j n := by
  induction hp generalizing k with
  | here _ => exact ⟨k, Nat.le_refl _, h⟩
  | step hr _ ih =>
      cases h with
      | root => exact absurd rfl hr
      | step _ h =>
          obtain ⟨j, hj, hup⟩ := ih h
          exact ⟨j, Nat.le_succ_of_le hj, hup⟩

/-- **No climb comes back.** -/
theorem Up.not_passes_parent {k : Nat} {e : ι} (h : Up parent root k e) (hr : e ≠ root) :
    ¬ Passes parent root (parent e) e := by
  intro hp
  cases h with
  | root => exact hr rfl
  | @step k _ _ h' =>
      obtain ⟨j, hj, hup⟩ := h'.of_passes hp
      have := hup.unique (Up.step hr h')
      omega

/-- A set that is closed under parents holds whatever is passed on the way up from it. -/
theorem Passes.mem {S : Set ι} (hS : ∀ n ∈ S, n ≠ root → parent n ∈ S) {e n : ι}
    (h : Passes parent root e n) (he : e ∈ S) : n ∈ S := by
  induction h with
  | here _ => exact he
  | step hr _ ih => exact ih (hS _ he hr)

/-! ### The list of what is passed -/

section Climbed

variable [DecidableEq ι]

/-- The objects a climb passes, as far as the fuel lasts. -/
def climbed (parent : ι → ι) (root : ι) : Nat → ι → List ι
  | 0, _ => []
  | fuel + 1, n => if n = root then [] else n :: climbed parent root fuel (parent n)

theorem passes_of_mem_climbed : ∀ {fuel : Nat} {e n : ι}, n ∈ climbed parent root fuel e →
    Passes parent root e n := by
  intro fuel
  induction fuel with
  | zero => intro e n h; simp [climbed] at h
  | succ fuel ih =>
      intro e n h
      unfold climbed at h
      by_cases hr : e = root
      · rw [if_pos hr] at h; simp at h
      · rw [if_neg hr, List.mem_cons] at h
        rcases h with rfl | h
        · exact Passes.here hr
        · exact Passes.step hr (ih h)

/-- **With enough fuel the list is complete.** -/
theorem mem_climbed_iff {k : Nat} {e : ι} (h : Up parent root k e) : ∀ {fuel : Nat}, k ≤ fuel →
    ∀ n, n ∈ climbed parent root fuel e ↔ Passes parent root e n := by
  induction h with
  | root =>
      intro fuel _ n
      refine ⟨passes_of_mem_climbed, fun hp => absurd rfl hp.start_ne⟩
  | step hr _ ih =>
      intro fuel hk n
      obtain ⟨fuel, rfl⟩ := Nat.exists_eq_succ_of_ne_zero (by omega : fuel ≠ 0)
      unfold climbed
      rw [if_neg hr, List.mem_cons, passes_iff hr, ih (Nat.le_of_succ_le_succ hk), eq_comm]

theorem length_climbed {k : Nat} {e : ι} (h : Up parent root k e) :
    (climbed parent root k e).length = k := by
  induction h with
  | root => rfl
  | step hr _ ih =>
      unfold climbed
      rw [if_neg hr, List.length_cons, ih]

theorem nodup_climbed {k : Nat} {e : ι} (h : Up parent root k e) (fuel : Nat) :
    (climbed parent root fuel e).Nodup := by
  induction h generalizing fuel with
  | root =>
      cases fuel with
      | zero => exact List.nodup_nil
      | succ fuel =>
          unfold climbed
          rw [if_pos rfl]
          exact List.nodup_nil
  | step hr h ih =>
      cases fuel with
      | zero => exact List.nodup_nil
      | succ fuel =>
          unfold climbed
          rw [if_neg hr, List.nodup_cons]
          exact ⟨fun hmem => (Up.step hr h).not_passes_parent hr (passes_of_mem_climbed hmem),
            ih fuel⟩

/-- More fuel changes nothing. -/
theorem climbed_of_le {k : Nat} {e : ι} (h : Up parent root k e) {fuel : Nat} (hk : k ≤ fuel) :
    climbed parent root fuel e = climbed parent root k e := by
  induction h generalizing fuel with
  | root =>
      cases fuel with
      | zero => rfl
      | succ fuel =>
          unfold climbed
          rw [if_pos rfl]
  | step hr _ ih =>
      obtain ⟨fuel, rfl⟩ := Nat.exists_eq_succ_of_ne_zero (by omega : fuel ≠ 0)
      unfold climbed
      rw [if_neg hr, if_neg hr, ih (Nat.le_of_succ_le_succ hk)]

/-- Where a climb breaks off it goes on as the climb from there. -/
theorem suffix_climbed_iff {k : Nat} {e : ι} (h : Up parent root k e) {fuel : Nat}
    (hk : k ≤ fuel) {l : List ι} (hl : l ≠ []) : l <:+ climbed parent root fuel e ↔
      ∃ m ∈ climbed parent root fuel e, l = climbed parent root fuel m := by
  induction h generalizing l with
  | root =>
      have hnil : climbed parent root fuel root = [] := climbed_of_le Up.root (Nat.zero_le fuel)
      rw [hnil]
      exact iff_of_false (fun hs => hl (List.suffix_nil.mp hs)) fun hm => by simp at hm
  | @step k n hr h ih =>
      have hnext : climbed parent root fuel n = n :: climbed parent root fuel (parent n) := by
        rw [climbed_of_le (Up.step hr h) hk, climbed_of_le h (Nat.le_of_succ_le hk), climbed,
          if_neg hr]
      have ih := ih (Nat.le_of_succ_le hk) hl
      constructor
      · intro hs
        rw [hnext, List.suffix_cons_iff] at hs
        rcases hs with hs | hs
        · exact ⟨n, by rw [hnext]; exact List.mem_cons_self, by rw [hs, hnext]⟩
        · obtain ⟨m, hm, hs⟩ := ih.mp hs
          exact ⟨m, by rw [hnext]; exact List.mem_cons_of_mem _ hm, hs⟩
      · intro hm
        obtain ⟨m, hm, hs⟩ := hm
        rw [hnext, List.mem_cons] at hm
        rcases hm with rfl | hm
        · rw [hs]
        · rw [hnext, List.suffix_cons_iff]
          exact Or.inr (ih.mpr ⟨m, hm, hs⟩)

/-- **A climb is no longer than there are objects to pass.** -/
theorem Up.le_card {S : Finset ι} (hS : ∀ n ∈ S, n ≠ root → parent n ∈ S) {k : Nat} {e : ι}
    (h : Up parent root k e) (he : e ∈ S) : k ≤ S.card := by
  have hsub : (climbed parent root k e).toFinset ⊆ S := by
    intro n hn
    exact (passes_of_mem_climbed (List.mem_toFinset.mp hn)).mem (S := S) hS he
  have hcard := Finset.card_le_card hsub
  rwa [List.toFinset_card_of_nodup (nodup_climbed h k), length_climbed h] at hcard

end Climbed

/-! ### Other links -/

variable {S : Set ι} (hS : ∀ n ∈ S, n ≠ root → parent n ∈ S)
include hS

/-- New links outside a closed set change nothing inside. -/
theorem up_congr (heq : ∀ n ∈ S, parent' n = parent n) {k : Nat} {e : ι} (he : e ∈ S)
    (h : Up parent root k e) : Up parent' root k e := by
  induction h with
  | root => exact Up.root
  | @step k n hr _ ih =>
      refine Up.step hr ?_
      rw [heq n he]
      exact ih (hS n he hr)

theorem passes_congr (heq : ∀ n ∈ S, parent' n = parent n) {e : ι} (he : e ∈ S) (n : ι) :
    Passes parent' root e n ↔ Passes parent root e n := by
  constructor
  · intro h
    induction h with
    | here hr => exact Passes.here hr
    | @step e n hr _ ih =>
        rw [heq e he] at ih
        exact Passes.step hr (ih (hS e he hr))
  · intro h
    induction h with
    | here hr => exact Passes.here hr
    | @step e n hr _ ih =>
        refine Passes.step hr ?_
        rw [heq e he]
        exact ih (hS e he hr)

/-- The link above `ch` leads through the new object `u` now. -/
structure IsCut (S : Set ι) (parent parent' : ι → ι) (root ch u : ι) : Prop where
  fresh : u ∉ S
  rootMem : root ∈ S
  mem : ch ∈ S
  ne_root : ch ≠ root
  below : parent' ch = u
  above : parent' u = parent ch
  same : ∀ n ∈ S, n ≠ ch → parent' n = parent n

/-- A cut keeps every chain leading to the root. -/
theorem up_cut {ch u : ι} (hc : IsCut S parent parent' root ch u) {k : Nat} {e : ι} (he : e ∈ S)
    (h : Up parent root k e) : ∃ k', Up parent' root k' e := by
  have hur : u ≠ root := fun h => hc.fresh (h ▸ hc.rootMem)
  induction h with
  | root => exact ⟨0, Up.root⟩
  | @step k n hr _ ih =>
      obtain ⟨k', hup⟩ := ih (hS n he hr)
      by_cases hn : n = ch
      · subst hn
        refine ⟨k' + 1 + 1, Up.step hr ?_⟩
        rw [hc.below]
        refine Up.step hur ?_
        rw [hc.above]
        exact hup
      · refine ⟨k' + 1, Up.step hr ?_⟩
        rw [hc.same n he hn]
        exact hup

/-- **Climbs pass the new object just when they passed the one below it**, and the others as
before. -/
theorem passes_cut_iff {ch u : ι} (hc : IsCut S parent parent' root ch u) {e : ι} (he : e ∈ S)
    (n : ι) : Passes parent' root e n ↔
      Passes parent root e n ∨ n = u ∧ Passes parent root e ch := by
  have hur : u ≠ root := fun h => hc.fresh (h ▸ hc.rootMem)
  constructor
  · suffices key : ∀ e, Passes parent' root e n → (e ∈ S → Passes parent root e n ∨
        n = u ∧ Passes parent root e ch) ∧ (e = u → n = u ∨ Passes parent root (parent ch) n ∨
        n = u ∧ Passes parent root (parent ch) ch) from fun h => (key e h).1 he
    intro e h
    induction h with
    | here hr => exact ⟨fun _ => Or.inl (Passes.here hr), fun hu => Or.inl hu⟩
    | @step e n hr _ ih =>
        refine ⟨fun he => ?_, fun hu => ?_⟩
        · by_cases hech : e = ch
          · subst hech
            rcases ih.2 hc.below with hnu | hp | ⟨hnu, hp⟩
            · exact Or.inr ⟨hnu, Passes.here hr⟩
            · exact Or.inl (Passes.step hr hp)
            · exact Or.inr ⟨hnu, Passes.here hr⟩
          · rw [hc.same e he hech] at ih
            rcases ih.1 (hS e he hr) with hp | ⟨hnu, hp⟩
            · exact Or.inl (Passes.step hr hp)
            · exact Or.inr ⟨hnu, Passes.step hr hp⟩
        · subst hu
          rw [hc.above] at ih
          exact Or.inr (ih.1 (hS ch hc.mem hc.ne_root))
  · intro h
    have hold : ∀ {e n}, Passes parent root e n → e ∈ S → Passes parent' root e n := by
      intro e n hp
      induction hp with
      | here hr => intro _; exact Passes.here hr
      | @step e n hr _ ih =>
          intro he
          refine Passes.step hr ?_
          by_cases hech : e = ch
          · subst hech
            rw [hc.below]
            refine Passes.step hur ?_
            rw [hc.above]
            exact ih (hS e he hr)
          · rw [hc.same e he hech]
            exact ih (hS e he hr)
    rcases h with hp | ⟨rfl, hp⟩
    · exact hold hp he
    · have hpass := hold hp he
      have hnext := hpass.next (by rw [hc.below]; exact hur)
      rwa [hc.below] at hnext

end ParentChain
