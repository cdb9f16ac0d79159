/-
Bringing the tables in line with a waiting queue.

A sync that has work to do takes every waiting request in and then lets go of every
tracked one that is not waiting.  `Tracks.diff` says what is tracked after it: the waiting
requests and no others, each with the tokens it was first seen with.

`Later` is what both loops leave to the interner.  An id found in a later table was in
the earlier one, under the same rid, or is newer than anything the earlier one gave out;
so an id never comes to stand for a second rid.
-/
import Peek.Online.Session

namespace Peek

/-! ### Interners over time -/

namespace Interner

/-- `n'` is what became of `n`: ids it has that `n` has not are new ones. -/
structure Later (n n' : Interner) : Prop where
  counter : n.counter ≤ n'.counter
  fresh : ∀ rid i, n'.ridInterner.lookup rid = some i →
    n.ridInterner.lookup rid = some i ∨ n.counter < i

theorem Later.refl (n : Interner) : Later n n := ⟨Nat.le_refl _, fun _ _ h => Or.inl h⟩

theorem Later.trans {n n' n'' : Interner} (h : Later n n') (h' : Later n' n'') : Later n n'' where
  counter := h.counter.trans h'.counter
  fresh rid i hi := by
    rcases h'.fresh rid i hi with hi | hi
    · exact h.fresh rid i hi
    · exact Or.inr (Nat.lt_of_le_of_lt h.counter hi)

theorem later_intern (n : Interner) (ridStr : ReqId) : Later n (n.intern ridStr).2 where
  counter := n.counter_le_intern ridStr
  fresh rid i hi := by
    cases h : n.ridInterner.lookup ridStr with
    | some j =>
        rw [intern_of_some h] at hi
        exact Or.inl hi
    | none =>
        rw [lookup_intern] at hi
        by_cases hr : rid = ridStr
        · rw [if_pos hr, intern_of_none h, Option.some.injEq] at hi
          exact Or.inr (hi ▸ Nat.lt_succ_self _)
        · rw [if_neg hr] at hi
          exact Or.inl hi

/-- Interning keeps every id there is. -/
theorem lookup_intern_of_some {n : Interner} {rid : ReqId} {i : Rid}
    (h : n.ridInterner.lookup rid = some i) (ridStr : ReqId) :
    (n.intern ridStr).2.ridInterner.lookup rid = some i := by
  rw [lookup_intern]
  by_cases hr : rid = ridStr
  · subst hr
    rw [if_pos rfl, intern_of_some h]
  · rw [if_neg hr, h]

theorem later_forget (n : Interner) (ridInt : Rid) : Later n (n.forget ridInt) where
  counter := Nat.le_of_eq (n.counter_forget ridInt).symm
  fresh rid i hi := by
    rw [lookup_forget] at hi
    by_cases hr : n.ridInterner.lookup rid = some ridInt
    · rw [if_pos hr] at hi; simp at hi
    · rw [if_neg hr] at hi; exact Or.inl hi

end Interner

namespace Session

variable {s : Session} {T : ReqId → Option (List Token)}

/-- The first loop of a sync. -/
def arriveAll (s : Session) (reqs : List (ReqId × List Token)) : Session × Finset Rid :=
  reqs.foldl (fun p req => arriveTurn p req.1 req.2) (s, ∅)

/-- The second loop of a sync, over the tracked ids in some order. -/
def departAll (currentInts : Finset Rid) (s : Session) (rids : List Rid) : Session :=
  rids.foldl (departTurn currentInts) s

/-- Both loops. -/
def diff (order : List Rid → List Rid) (s : Session) (reqs : List (ReqId × List Token)) :
    Session :=
  let (s, currentInts) := s.arriveAll reqs
  departAll currentInts s (order s.seenThisSession)

/-! ### Taking all waiting requests in -/

/-- What the first loop has done once it has gone through `names`. -/
structure Arrived (n : Interner) (ints : Finset Rid) (names : List ReqId) (n' : Interner)
    (ints' : Finset Rid) : Prop where
  later : n.Later n'
  keeps : ∀ rid i, n.ridInterner.lookup rid = some i → n'.ridInterner.lookup rid = some i
  others : ∀ rid, rid ∉ names → n'.ridInterner.lookup rid = n.ridInterner.lookup rid
  named : ∀ rid ∈ names, ∃ i, n'.ridInterner.lookup rid = some i
  ints : ∀ i, i ∈ ints' ↔ i ∈ ints ∨ ∃ rid ∈ names, n'.ridInterner.lookup rid = some i

/-- **The first loop tracks every waiting request**, and keeps what it knew. -/
theorem arriveAll_tracks : ∀ (reqs : List (ReqId × List Token)) (s : Session)
    (T : ReqId → Option (List Token)) (ints : Finset Rid), Tracks s T →
    Tracks (reqs.foldl (fun p req => arriveTurn p req.1 req.2) (s, ints)).1
        (fun x => (T x).or (reqs.lookup x)) ∧
      Arrived s.interner ints (reqs.map (·.1))
        (reqs.foldl (fun p req => arriveTurn p req.1 req.2) (s, ints)).1.interner
        (reqs.foldl (fun p req => arriveTurn p req.1 req.2) (s, ints)).2 := by
  intro reqs
  induction reqs with
  | nil =>
      intro s T ints h
      refine ⟨?_, Interner.Later.refl _, fun _ _ h => h, fun _ _ => rfl, by simp, by simp⟩
      simpa using h
  | cons req reqs ih =>
      intro s T ints h
      obtain ⟨rid, tokens⟩ := req
      rw [List.foldl_cons]
      have hint := h.interner_arrive rid tokens
      have h1 := h.arrive rid tokens
      set s1 := (s.arrive rid tokens).2 with hs1
      set i1 := (s.arrive rid tokens).1 with hi1
      have hid : s1.interner.ridInterner.lookup rid = some i1 := by
        rw [hint, Interner.lookup_intern, if_pos rfl]
        rfl
      obtain ⟨h2, hlater, hkeeps, hothers, hnamed, hints⟩ := ih s1 _ (insert i1 ints) h1
      show Tracks (reqs.foldl _ (s1, insert i1 ints)).1 _ ∧ Arrived _ _ _ _ _
      set p := reqs.foldl (fun p req => arriveTurn p req.1 req.2) (s1, insert i1 ints) with hp
      refine ⟨?_, ?_, fun x i hx => ?_, fun x hx => ?_, fun x hx => ?_, fun i => ?_⟩
      · -- the map: `rid` is looked up here, everything else further on
        have hT : (fun x => (T x).or (List.lookup x ((rid, tokens) :: reqs))) = fun x =>
            (Function.update T rid ((T rid).or (some tokens)) x).or (reqs.lookup x) := by
          funext x
          rw [List.lookup_cons]
          by_cases hx : x = rid
          · subst hx
            rw [Function.update_self]
            cases T x <;> simp
          · rw [Function.update_of_ne hx, beq_false_of_ne hx]
        rw [hT]
        exact h2
      · exact ((s.interner.later_intern rid).trans (hint ▸ Interner.Later.refl _)).trans hlater
      · refine hkeeps x i ?_
        rw [hint]
        exact Interner.lookup_intern_of_some hx rid
      · rw [List.map_cons, List.mem_cons, not_or] at hx
        refine (hothers x hx.2).trans ?_
        rw [hint, Interner.lookup_intern, if_neg hx.1]
      · rw [List.map_cons, List.mem_cons] at hx
        rcases hx with rfl | hx
        · exact ⟨i1, hkeeps _ _ hid⟩
        · exact hnamed x hx
      · refine (hints i).trans ?_
        rw [Finset.mem_insert, List.map_cons]
        constructor
        · rintro ((rfl | hi) | ⟨x, hx, hxi⟩)
          · exact Or.inr ⟨rid, List.mem_cons_self, hkeeps _ _ hid⟩
          · exact Or.inl hi
          · exact Or.inr ⟨x, List.mem_cons_of_mem _ hx, hxi⟩
        · rintro (hi | ⟨x, hx, hxi⟩)
          · exact Or.inl (Or.inr hi)
          · rcases List.mem_cons.mp hx with rfl | hx
            · have heq := (hkeeps _ _ hid).symm.trans hxi
              rw [Option.some.injEq] at heq
              exact Or.inl (Or.inl heq.symm)
            · exact Or.inr ⟨x, hx, hxi⟩

/-! ### Letting the others go -/

/--
**The second loop lets go of the listed ids that are not current**, and of nothing
else.
-/
theorem departAll_tracks (ints : Finset Rid) : ∀ (rids : List Rid) (s : Session)
    (T : ReqId → Option (List Token)), Tracks s T → ∃ T', Tracks (departAll ints s rids) T' ∧
      s.interner.Later (departAll ints s rids).interner ∧ ∀ x,
        ((∃ i ∈ rids, i ∉ ints ∧ s.interner.ridInterner.lookup x = some i) →
          T' x = none ∧ (departAll ints s rids).interner.ridInterner.lookup x = none) ∧
        ((¬ ∃ i ∈ rids, i ∉ ints ∧ s.interner.ridInterner.lookup x = some i) →
          T' x = T x ∧ (departAll ints s rids).interner.ridInterner.lookup x =
            s.interner.ridInterner.lookup x) := by
  intro rids
  induction rids with
  | nil =>
      intro s T h
      exact ⟨T, h, Interner.Later.refl _, fun x => ⟨by simp, fun _ => ⟨rfl, rfl⟩⟩⟩
  | cons i rids ih =>
      intro s T h
      by_cases hi : i ∈ ints
      · have hfirst : departAll ints s (i :: rids) = departAll ints s rids := by
          unfold departAll departTurn
          rw [List.foldl_cons, if_neg (by simpa using hi)]
        rw [hfirst]
        obtain ⟨T', hT', hlater, hx⟩ := ih s T h
        have hskip : ∀ x, (∃ j ∈ i :: rids, j ∉ ints ∧ s.interner.ridInterner.lookup x = some j) ↔
            ∃ j ∈ rids, j ∉ ints ∧ s.interner.ridInterner.lookup x = some j := by
          intro x
          constructor
          · rintro ⟨j, hj, hji, hjx⟩
            rcases List.mem_cons.mp hj with rfl | hj
            · exact absurd hi hji
            · exact ⟨j, hj, hji, hjx⟩
          · rintro ⟨j, hj, hji, hjx⟩
            exact ⟨j, List.mem_cons_of_mem _ hj, hji, hjx⟩
        refine ⟨T', hT', hlater, fun x => ?_⟩
        rw [hskip]
        exact hx x
      · have hfirst : departAll ints s (i :: rids) = departAll ints (s.depart i) rids := by
          unfold departAll departTurn
          rw [List.foldl_cons, if_pos hi]
        rw [hfirst]
        obtain ⟨T', hT', hlater, hx⟩ := ih (s.depart i) _ (h.depart i)
        refine ⟨T', hT', (s.interner.later_forget i).trans hlater, fun x => ?_⟩
        · have hlook : (s.depart i).interner.ridInterner.lookup x =
              if s.interner.ridInterner.lookup x = some i then none
              else s.interner.ridInterner.lookup x := Interner.lookup_forget _ _ _
          obtain ⟨hgone, hstay⟩ := hx x
          rw [hlook] at hgone hstay
          by_cases hxi : s.interner.ridInterner.lookup x = some i
          · -- let go of here: nothing later finds it again
            simp only [if_pos hxi] at hgone hstay
            have hnot : ¬ ∃ j ∈ rids, j ∉ ints ∧ (none : Option Rid) = some j := by simp
            refine ⟨fun _ => hstay hnot, fun hc => absurd ⟨i, List.mem_cons_self, hi, hxi⟩ hc⟩
          · simp only [if_neg hxi] at hgone hstay
            constructor
            · rintro ⟨j, hj, hji, hjx⟩
              rcases List.mem_cons.mp hj with rfl | hj
              · exact absurd hjx hxi
              · exact hgone ⟨j, hj, hji, hjx⟩
            · intro hc
              refine hstay fun ⟨j, hj, hji, hjx⟩ => hc ⟨j, List.mem_cons_of_mem _ hj, hji, hjx⟩

end Session

/-! ### Both loops -/

/--
**After a diff the waiting requests are tracked, and no others**, each with the tokens
it was first seen with.  The interner forgets those that were let go.
-/
theorem Tracks.diff {s : Session} {T : ReqId → Option (List Token)} (h : Tracks s T)
    {order : List Rid → List Rid} (horder : ∀ l, (order l).Perm l)
    (reqs : List (ReqId × List Token)) :
    Tracks (s.diff order reqs)
        (fun x => if x ∈ reqs.map (·.1) then (T x).or (reqs.lookup x) else none) ∧
      s.interner.Later (s.diff order reqs).interner ∧
      (∀ x ∈ reqs.map (·.1), ∀ i, s.interner.ridInterner.lookup x = some i →
        (s.diff order reqs).interner.ridInterner.lookup x = some i) ∧
      (∀ x ∉ reqs.map (·.1), (s.diff order reqs).interner.ridInterner.lookup x =
        if T x = none then s.interner.ridInterner.lookup x else none) := by
  obtain ⟨h1, hlater, hkeeps, hothers, hnamed, hints⟩ := Session.arriveAll_tracks reqs s T ∅ h
  set s1 := (reqs.foldl (fun p req => Session.arriveTurn p req.1 req.2) (s, ∅)).1 with hs1
  set ints := (reqs.foldl (fun p req => Session.arriveTurn p req.1 req.2) (s, ∅)).2 with hints'
  obtain ⟨T', h2, hlater2, hx⟩ :=
    Session.departAll_tracks ints (order s1.seenThisSession) s1 _ h1
  have hdiff : s.diff order reqs = Session.departAll ints s1 (order s1.seenThisSession) := rfl
  rw [← hdiff] at h2 hlater2 hx
  -- who is let go: tracked, and not waiting
  have hgone : ∀ x, (∃ i ∈ order s1.seenThisSession, i ∉ ints ∧
      s1.interner.ridInterner.lookup x = some i) ↔
      (T x).or (reqs.lookup x) ≠ none ∧ x ∉ reqs.map (·.1) := by
    intro x
    constructor
    · rintro ⟨i, hi, hnot, hxi⟩
      rw [(horder _).mem_iff, h1.seen_iff hxi] at hi
      refine ⟨hi, fun hmem => hnot ?_⟩
      rw [hints]
      exact Or.inr ⟨x, hmem, hxi⟩
    · rintro ⟨hT, hmem⟩
      obtain ⟨i, hxi⟩ := h1.interned x hT
      refine ⟨i, (horder _).mem_iff.mpr ((h1.seen_iff hxi).mpr hT), fun hi => ?_, hxi⟩
      rw [hints] at hi
      rcases hi with hi | ⟨y, hy, hyi⟩
      · simp at hi
      · exact hmem (s1.interner.injective hxi hyi ▸ hy)
  have hlookup : ∀ x ∉ reqs.map (·.1), reqs.lookup x = none := by
    intro x hmem
    rw [List.lookup_eq_none_iff]
    intro p hp
    have hne : x ≠ p.1 := fun heq => hmem (heq ▸ List.mem_map_of_mem hp)
    simpa using hne
  have hT' : T' = fun x => if x ∈ reqs.map (·.1) then (T x).or (reqs.lookup x) else none := by
    funext x
    by_cases hmem : x ∈ reqs.map (·.1)
    · rw [if_pos hmem]
      exact ((hx x).2 fun hc => ((hgone x).mp hc).2 hmem).1
    · rw [if_neg hmem]
      by_cases hT : (T x).or (reqs.lookup x) = none
      · exact ((hx x).2 fun hc => ((hgone x).mp hc).1 hT).1.trans hT
      · exact ((hx x).1 ((hgone x).mpr ⟨hT, hmem⟩)).1
  refine ⟨hT' ▸ h2, hlater.trans hlater2, fun x hmem i hi => ?_, fun x hmem => ?_⟩
  · exact ((hx x).2 fun hc => ((hgone x).mp hc).2 hmem).2.trans (hkeeps x i hi)
  · have hor : (T x).or (reqs.lookup x) = T x := by rw [hlookup x hmem, Option.or_none]
    by_cases hT : T x = none
    · rw [if_pos hT]
      refine ((hx x).2 fun hc => ?_).2.trans (hothers x hmem)
      exact ((hgone x).mp hc).1 (hor.trans hT)
    · rw [if_neg hT]
      exact ((hx x).1 ((hgone x).mpr ⟨by rw [hor]; exact hT, hmem⟩)).2

end Peek
