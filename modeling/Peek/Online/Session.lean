/-
What both engine hooks keep about the waiting requests.

The SGLang hook and the vLLM hook carry the same tables: the interner, the pending tree
and the set of ids tracked since they were first seen.  Both take a request in and let
one go in the same way, so those two operations, and what they do to the tables, are here.

`Tracks` is the abstraction: the tables together are one map `T` from request ids to
the tokens each was first seen with.  Taking a request in adds it to the map unless it is
there, and letting one go takes it out.

The set of tracked ids is a duplicate-free list.  Python iterates over it in an order of
its own, so whoever iterates takes that order as a parameter.
-/
import Peek.Online.Interner
import Peek.Pending.Invariant

namespace Peek

structure Session where
  interner : Interner
  peekTree : PendingTree
  seenThisSession : List Rid
  /-- How often the `except ValueError` branch of an insertion was taken. -/
  valueErrors : Nat

namespace Session

def new : Session :=
  { interner := Interner.new, peekTree := PendingTree.new, seenThisSession := [], valueErrors := 0 }

/-- `try: insert(...) except ValueError: discard(...); insert(...)` -/
def insertPending (s : Session) (ridInt : Rid) (tokens : List Token) : Session :=
  match s.peekTree.pyInsert ridInt tokens with
  | (.ok (), tree) => { s with peekTree := tree }
  | (.error _, tree) =>
      { s with
        peekTree := ((tree.discard ridInt).2.pyInsert ridInt tokens).2
        valueErrors := s.valueErrors + 1 }

/-- Track an interned request, unless it is tracked already. -/
def track (s : Session) (ridInt : Rid) (tokens : List Token) : Session :=
  if ridInt ∈ s.seenThisSession then s
  else
    let s := s.insertPending ridInt tokens
    { s with seenThisSession := ridInt :: s.seenThisSession }

/-- Intern a waiting request and track it. -/
def arrive (s : Session) (ridStr : ReqId) (tokens : List Token) : Rid × Session :=
  let (ridInt, interner) := s.interner.intern ridStr
  (ridInt, { s with interner := interner }.track ridInt tokens)

/-- Let a request go: out of the tree, the tracked ids and the interner. -/
def depart (s : Session) (ridInt : Rid) : Session :=
  { s with
    peekTree := (s.peekTree.discard ridInt).2
    seenThisSession := s.seenThisSession.erase ridInt
    interner := s.interner.forget ridInt }

/-- One turn of the first loop of a sync, which also collects the current ids. -/
def arriveTurn (p : Session × Finset Rid) (ridStr : ReqId) (tokens : List Token) :
    Session × Finset Rid :=
  let (ridInt, s) := p.1.arrive ridStr tokens
  (s, insert ridInt p.2)

/-- One turn of the second loop of a sync. -/
def departTurn (currentInts : Finset Rid) (s : Session) (ridInt : Rid) : Session :=
  if ridInt ∉ currentInts then s.depart ridInt else s

end Session

/-! ### The tables as one map -/

/-- What the tables say when they track exactly `T`. -/
structure Tracks (s : Session) (T : ReqId → Option (List Token)) : Prop where
  tree : PendingTree.Sound s.peekTree
  interned : ∀ rid, T rid ≠ none → ∃ i, s.interner.ridInterner.lookup rid = some i
  paths : ∀ i ts, s.peekTree.paths.lookup i = some ts ↔
    ∃ rid, s.interner.ridInterner.lookup rid = some i ∧ T rid = some ts
  seen : ∀ i, i ∈ s.seenThisSession ↔
    ∃ rid, s.interner.ridInterner.lookup rid = some i ∧ T rid ≠ none
  nodup : s.seenThisSession.Nodup
  valueErrors : s.valueErrors = 0

namespace Tracks

variable {s : Session} {T : ReqId → Option (List Token)}

theorem new : Tracks Session.new fun _ => none where
  tree := PendingTree.sound_new
  interned rid h := absurd rfl h
  paths i ts := by simp [Session.new, PendingTree.new]
  seen i := by simp [Session.new]
  nodup := List.nodup_nil
  valueErrors := rfl

/-- The id of a rid is tracked just when the rid is. -/
theorem seen_iff (h : Tracks s T) {rid : ReqId} {i : Rid}
    (hi : s.interner.ridInterner.lookup rid = some i) : i ∈ s.seenThisSession ↔ T rid ≠ none := by
  rw [h.seen]
  constructor
  · rintro ⟨x, hx, hT⟩
    rwa [s.interner.injective hi hx]
  · exact fun hT => ⟨rid, hi, hT⟩

theorem paths_of (h : Tracks s T) {rid : ReqId} {i : Rid}
    (hi : s.interner.ridInterner.lookup rid = some i) : s.peekTree.paths.lookup i = T rid := by
  refine Option.ext fun ts => ?_
  rw [h.paths]
  constructor
  · rintro ⟨x, hx, hT⟩
    rwa [s.interner.injective hi hx]
  · exact fun hT => ⟨rid, hi, hT⟩

/-- Interning a rid tracks nothing new. -/
theorem intern (h : Tracks s T) (ridStr : ReqId) :
    Tracks { s with interner := (s.interner.intern ridStr).2 } T := by
  have hkeep : ∀ x, T x ≠ none → (s.interner.intern ridStr).2.ridInterner.lookup x =
      s.interner.ridInterner.lookup x := by
    intro x hx
    obtain ⟨i, hi⟩ := h.interned x hx
    rw [Interner.lookup_intern]
    by_cases hxr : x = ridStr
    · subst hxr; rw [if_pos rfl, Interner.intern_of_some hi, hi]
    · rw [if_neg hxr]
  refine ⟨h.tree, fun rid hrid => ?_, fun i ts => ?_, fun i => ?_, h.nodup, h.valueErrors⟩
  · rw [hkeep rid hrid]; exact h.interned rid hrid
  · rw [h.paths]
    refine exists_congr fun x => and_congr_left fun hx => ?_
    rw [hkeep x (by rw [hx]; simp)]
  · rw [h.seen]
    refine exists_congr fun x => and_congr_left fun hx => ?_
    rw [hkeep x hx]

/-- What an insertion of an untracked id does: the `except` branch is not taken. -/
theorem insertPending_of_none {ridInt : Rid} (hpaths : s.peekTree.paths.lookup ridInt = none)
    (tokens : List Token) : s.insertPending ridInt tokens =
      { s with peekTree := (s.peekTree.insert ridInt tokens).2 } := by
  unfold Session.insertPending
  rw [PendingTree.pyInsert_of_none hpaths]

theorem interner_track (h : Tracks s T) {ridStr : ReqId} {ridInt : Rid}
    (hid : s.interner.ridInterner.lookup ridStr = some ridInt) (tokens : List Token) :
    (s.track ridInt tokens).interner = s.interner := by
  unfold Session.track
  by_cases hseen : ridInt ∈ s.seenThisSession
  · rw [if_pos hseen]
  · rw [if_neg hseen]
    have hT : T ridStr = none := by
      by_contra hne
      exact hseen ((h.seen_iff hid).mpr hne)
    rw [insertPending_of_none ((h.paths_of hid).trans hT)]

/-- Tracking an interned request adds it to the map, unless it is there. -/
theorem track (h : Tracks s T) {ridStr : ReqId} {ridInt : Rid}
    (hid : s.interner.ridInterner.lookup ridStr = some ridInt) (tokens : List Token) :
    Tracks (s.track ridInt tokens) (Function.update T ridStr ((T ridStr).or (some tokens))) := by
  unfold Session.track
  by_cases hseen : ridInt ∈ s.seenThisSession
  · rw [if_pos hseen]
    obtain ⟨ts, hts⟩ := Option.ne_none_iff_exists'.mp ((h.seen_iff hid).mp hseen)
    rw [hts, Option.some_or, ← hts, Function.update_eq_self]
    exact h
  · rw [if_neg hseen]
    have hT : T ridStr = none := by
      by_contra hne
      exact hseen ((h.seen_iff hid).mpr hne)
    have hpaths : s.peekTree.paths.lookup ridInt = none := (h.paths_of hid).trans hT
    rw [insertPending_of_none hpaths, hT, Option.none_or]
    -- an id that is not the new one belongs to another rid
    have hother : ∀ {x i}, s.interner.ridInterner.lookup x = some i → i ≠ ridInt → x ≠ ridStr := by
      intro x i hx hi hxr
      rw [hxr, hid, Option.some.injEq] at hx
      exact hi hx.symm
    refine ⟨h.tree.insert ridInt tokens, ?_, ?_, ?_, List.nodup_cons.mpr ⟨hseen, h.nodup⟩,
      h.valueErrors⟩
    · intro x hx
      by_cases hxr : x = ridStr
      · exact ⟨ridInt, hxr ▸ hid⟩
      · rw [Function.update_of_ne hxr] at hx
        exact h.interned x hx
    · intro i ts
      show (s.peekTree.insert ridInt tokens).2.paths.lookup i = some ts ↔ _
      rw [PendingTree.lookup_insert_of_none hpaths]
      by_cases hi : i = ridInt
      · rw [if_pos hi, Option.some.injEq, hi]
        constructor
        · rintro rfl
          exact ⟨ridStr, hid, Function.update_self _ _ _⟩
        · rintro ⟨x, hx, hTx⟩
          rw [s.interner.injective hx hid, Function.update_self, Option.some.injEq] at hTx
          exact hTx
      · rw [if_neg hi, h.paths]
        refine exists_congr fun x => and_congr_right fun hx => ?_
        rw [Function.update_of_ne (hother hx hi)]
    · intro i
      show i ∈ ridInt :: s.seenThisSession ↔ _
      rw [List.mem_cons]
      by_cases hi : i = ridInt
      · refine ⟨fun _ => ⟨ridStr, hi ▸ hid, ?_⟩, fun _ => Or.inl hi⟩
        rw [Function.update_self]
        simp
      · rw [h.seen, or_iff_right hi]
        refine exists_congr fun x => and_congr_right fun hx => ?_
        rw [Function.update_of_ne (hother hx hi)]

/-- **Taking a request in** adds it to the map, unless it is there. -/
theorem arrive (h : Tracks s T) (ridStr : ReqId) (tokens : List Token) :
    Tracks (s.arrive ridStr tokens).2 (Function.update T ridStr ((T ridStr).or (some tokens))) := by
  refine (h.intern ridStr).track ?_ tokens
  show (s.interner.intern ridStr).2.ridInterner.lookup ridStr = some (s.interner.intern ridStr).1
  rw [Interner.lookup_intern, if_pos rfl]

theorem interner_arrive (h : Tracks s T) (ridStr : ReqId) (tokens : List Token) :
    (s.arrive ridStr tokens).2.interner = (s.interner.intern ridStr).2 := by
  have hid : (s.interner.intern ridStr).2.ridInterner.lookup ridStr =
      some (s.interner.intern ridStr).1 := by
    rw [Interner.lookup_intern, if_pos rfl]
  exact (h.intern ridStr).interner_track hid tokens

/-- **Letting a request go** takes it out of the map. -/
theorem depart (h : Tracks s T) (ridInt : Rid) :
    Tracks (s.depart ridInt)
      (fun x => if s.interner.ridInterner.lookup x = some ridInt then none else T x) := by
  refine ⟨?_, ?_, ?_, ?_, h.nodup.erase ridInt, h.valueErrors⟩
  · exact (h.tree.remove ridInt).2
  · intro x hx
    by_cases hxi : s.interner.ridInterner.lookup x = some ridInt
    · rw [if_pos hxi] at hx; exact absurd rfl hx
    · rw [if_neg hxi] at hx
      obtain ⟨i, hi⟩ := h.interned x hx
      refine ⟨i, ?_⟩
      show (s.interner.forget ridInt).ridInterner.lookup x = some i
      rw [Interner.lookup_forget, if_neg hxi, hi]
  · intro i ts
    show (s.peekTree.discard ridInt).2.paths.lookup i = some ts ↔
      ∃ x, (s.interner.forget ridInt).ridInterner.lookup x = some i ∧ _
    rw [PendingTree.lookup_discard]
    by_cases hi : i = ridInt
    · rw [if_pos hi]
      constructor
      · intro hc; simp at hc
      · rintro ⟨x, hx, hTx⟩
        rw [Interner.lookup_forget] at hx
        by_cases hxi : s.interner.ridInterner.lookup x = some ridInt
        · rw [if_pos hxi] at hx; simp at hx
        · rw [if_neg hxi, hi] at hx; exact absurd hx hxi
    · rw [if_neg hi, h.paths]
      refine exists_congr fun x => ?_
      rw [Interner.lookup_forget]
      by_cases hxi : s.interner.ridInterner.lookup x = some ridInt
      · rw [if_pos hxi, if_pos hxi, hxi, Option.some.injEq]
        simp [Ne.symm hi]
      · rw [if_neg hxi, if_neg hxi]
  · intro i
    show i ∈ s.seenThisSession.erase ridInt ↔
      ∃ x, (s.interner.forget ridInt).ridInterner.lookup x = some i ∧ _
    rw [h.nodup.mem_erase_iff, h.seen]
    constructor
    · rintro ⟨hi, x, hx, hTx⟩
      have hxi : s.interner.ridInterner.lookup x ≠ some ridInt := by
        rw [hx, Ne, Option.some.injEq]; exact hi
      refine ⟨x, ?_, by rw [if_neg hxi]; exact hTx⟩
      rw [Interner.lookup_forget, if_neg hxi, hx]
    · rintro ⟨x, hx, hTx⟩
      by_cases hxi : s.interner.ridInterner.lookup x = some ridInt
      · rw [if_pos hxi] at hTx; exact absurd rfl hTx
      · rw [if_neg hxi] at hTx
        rw [Interner.lookup_forget, if_neg hxi] at hx
        refine ⟨?_, x, hx, hTx⟩
        rintro rfl
        exact hxi hx

end Tracks

end Peek
