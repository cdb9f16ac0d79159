/-
Whole batches (`insert_many` and `remove_many` of `src/pending.rs`).

`insert_many` looks at all rids before it touches the tree, so a batch goes in whole or not at all.
What a batch that goes in leaves behind is its pairs next to what was there (`mem_foldl_insert`),
which does not depend on the order; and a sound tree is known from its requests up to the names of
its nodes (`Sound.renames`).
-/
import Mathlib.Data.Finset.Card
import Peek.Base.Dict
import Peek.Pending.History

namespace Peek

namespace PendingTree

/-- The same requests, held by the same tree up to the names of its nodes. -/
structure SameTree (p q : PendingTree) : Prop where
  paths : ∀ rid, p.paths.lookup rid = q.paths.lookup rid
  tree : ∃ φ, Renames p q φ
  nodeCount : p.nodeCount = q.nodeCount

theorem Sound.sameTree {p q : PendingTree} (hp : Sound p) (hq : Sound q)
    (h : ∀ rid, p.paths.lookup rid = q.paths.lookup rid) : SameTree p q := by
  obtain ⟨φ, hφ, hcount⟩ := hp.renames hq h
  exact ⟨h, ⟨φ, hφ⟩, hcount⟩

/-- `insert` once for every pair, until one raises. -/
def insertEach (p : PendingTree) : List (Rid × List Token) → Except PyErr Unit × PendingTree
  | [] => (.ok (), p)
  | (rid, tokens) :: items =>
      match p.pyInsert rid tokens with
      | (.ok (), p) => p.insertEach items
      | (.error e, p) => (.error e, p)

/-- `remove` once for every rid; what it raises is ignored. -/
def removeEach (p : PendingTree) (rids : List Rid) : PendingTree :=
  rids.foldl (fun p rid => (p.pyRemove rid).2) p

/-! ### What a batch is checked for -/

/-- No rid of the batch is pending, and none is there twice. -/
structure Fresh (p : PendingTree) (items : List (Rid × List Token)) : Prop where
  distinct : (Dict.keys items).Nodup
  absent : ∀ rid ∈ Dict.keys items, p.paths.lookup rid = none

variable {p : PendingTree} {items : List (Rid × List Token)}

theorem checkPresent_of_absent (h : ∀ rid ∈ Dict.keys items, p.paths.lookup rid = none) :
    p.checkPresent items = .ok () := by
  induction items with
  | nil => rfl
  | cons item items ih =>
      rw [Dict.keys_cons] at h
      have hfirst : p.contains item.1 = false := by
        rw [contains, h item.1 List.mem_cons_self]
        rfl
      rw [checkPresent, hfirst]
      exact ih fun rid hrid => h rid (List.mem_cons_of_mem _ hrid)

theorem absent_of_checkPresent (h : p.checkPresent items = .ok ()) :
    ∀ rid ∈ Dict.keys items, p.paths.lookup rid = none := by
  induction items with
  | nil => exact fun rid hrid => absurd hrid List.not_mem_nil
  | cons item items ih =>
      rw [checkPresent] at h
      split at h
      · cases h
      · rename_i hfirst
        intro rid hrid
        rw [Dict.keys_cons] at hrid
        rcases List.mem_cons.mp hrid with rfl | hrid
        · simpa [contains] using hfirst
        · exact ih h rid hrid

/-- The second check: no rid that was seen comes again. -/
theorem checkTwice_eq_ok_iff (seen : List Rid) : checkTwice seen items = .ok () ↔
    (Dict.keys items).Nodup ∧ ∀ rid ∈ Dict.keys items, rid ∉ seen := by
  induction items generalizing seen with
  | nil => simp [checkTwice]
  | cons item items ih =>
      rw [checkTwice, Dict.keys_cons, List.nodup_cons]
      by_cases hseen : item.1 ∈ seen
      · rw [if_pos hseen]
        refine iff_of_false (fun h => by cases h) fun h => ?_
        exact h.2 item.1 List.mem_cons_self hseen
      · rw [if_neg hseen, ih]
        constructor
        · rintro ⟨hnodup, hnew⟩
          refine ⟨⟨fun hmem => hnew _ hmem List.mem_insert_self, hnodup⟩, fun rid hrid => ?_⟩
          rcases List.mem_cons.mp hrid with rfl | hrid
          · exact hseen
          · exact fun hmem => hnew rid hrid (List.mem_insert_of_mem hmem)
        · rintro ⟨⟨hfirst, hnodup⟩, hnew⟩
          refine ⟨hnodup, fun rid hrid hmem => ?_⟩
          rcases List.mem_insert_iff.mp hmem with rfl | hmem
          · exact hfirst hrid
          · exact hnew rid (List.mem_cons_of_mem _ hrid) hmem

/-- A fresh batch goes in, pair by pair. -/
theorem Fresh.insertMany (h : p.Fresh items) :
    p.insertMany items = (.ok (), items.foldl (fun p item => (p.insert item.1 item.2).2) p) := by
  have htwice := (checkTwice_eq_ok_iff []).mpr ⟨h.distinct, fun rid _ => List.not_mem_nil⟩
  unfold PendingTree.insertMany
  rw [checkPresent_of_absent h.absent, htwice]

/-- **Any other batch raises, and nothing has changed.** -/
theorem insertMany_of_not_fresh (h : ¬ p.Fresh items) : ∃ e, p.insertMany items = (.error e, p) := by
  unfold PendingTree.insertMany
  cases hpresent : p.checkPresent items with
  | error e => exact ⟨e, rfl⟩
  | ok u =>
      cases htwice : checkTwice [] items with
      | error e => exact ⟨e, rfl⟩
      | ok u =>
          exact absurd ⟨((checkTwice_eq_ok_iff []).mp htwice).1, absent_of_checkPresent hpresent⟩ h

theorem insertMany_ok_iff : (p.insertMany items).1 = .ok () ↔ p.Fresh items := by
  constructor
  · intro hok
    by_contra hnot
    obtain ⟨e, he⟩ := insertMany_of_not_fresh hnot
    rw [he] at hok
    cases hok
  · intro h
    rw [h.insertMany]

/-! ### Pair by pair -/

theorem Fresh.perm {items' : List (Rid × List Token)} (h : p.Fresh items) (hperm : items'.Perm items) :
    p.Fresh items' := by
  have hkeys : (Dict.keys items').Perm (Dict.keys items) := hperm.map _
  exact ⟨hkeys.nodup_iff.mpr h.distinct, fun rid hrid => h.absent rid (hkeys.mem_iff.mp hrid)⟩

/-- What is left of a fresh batch is fresh after its first pair. -/
theorem Fresh.tail {item : Rid × List Token} (h : p.Fresh (item :: items)) :
    (p.insert item.1 item.2).2.Fresh items := by
  have hdistinct := h.distinct
  rw [Dict.keys_cons, List.nodup_cons] at hdistinct
  refine ⟨hdistinct.2, fun rid hrid => ?_⟩
  have hne : rid ≠ item.1 := fun heq => hdistinct.1 (heq ▸ hrid)
  rw [lookup_insert_of_none (h.absent item.1 List.mem_cons_self), if_neg hne]
  exact h.absent rid (List.mem_cons_of_mem _ hrid)

theorem Fresh.insertEach (h : p.Fresh items) :
    p.insertEach items = (.ok (), items.foldl (fun p item => (p.insert item.1 item.2).2) p) := by
  induction items generalizing p with
  | nil => rfl
  | cons item items ih =>
      rw [PendingTree.insertEach, pyInsert_of_none (h.absent item.1 List.mem_cons_self)]
      exact ih h.tail

/-- What a batch leaves pending: its own pairs, and what was there before. -/
theorem Fresh.lookup_foldl (h : p.Fresh items) (rid : Rid) (tokens : List Token) :
    (items.foldl (fun p item => (p.insert item.1 item.2).2) p).paths.lookup rid = some tokens ↔
      (rid, tokens) ∈ items ∨ p.paths.lookup rid = some tokens := by
  induction items generalizing p with
  | nil => simp
  | cons item items ih =>
      have hnone := h.absent item.1 List.mem_cons_self
      rw [List.foldl_cons, ih h.tail, lookup_insert_of_none hnone, List.mem_cons, or_assoc,
        or_left_comm]
      refine or_congr_right ?_
      by_cases heq : rid = item.1
      · rw [if_pos heq, heq, hnone]
        simp [Prod.ext_iff, eq_comm]
      · rw [if_neg heq]
        simp [Prod.ext_iff, heq]

/-- **The order of the pairs does not matter.** -/
theorem Fresh.sameTree {items' : List (Rid × List Token)} (hp : Sound p) (h : p.Fresh items)
    (hperm : items'.Perm items) :
    SameTree (p.insertMany items).2 (p.insertEach items').2 := by
  have h' := h.perm hperm
  have hsound := hp.insertMany items
  have hsound' := hp.insertMany items'
  rw [h.insertMany] at hsound ⊢
  rw [h'.insertMany] at hsound'
  rw [h'.insertEach]
  refine hsound.sameTree hsound' fun rid => Option.ext fun tokens => ?_
  rw [h.lookup_foldl, h'.lookup_foldl, hperm.mem_iff]

/-! ### Removing -/

theorem pyRemove_snd (p : PendingTree) (rid : Rid) : (p.pyRemove rid).2 = (p.remove rid).2 := by
  unfold pyRemove
  show (if (p.remove rid).1 then (Except.ok (), (p.remove rid).2)
    else (Except.error (PyErr.keyError rid), (p.remove rid).2)).2 = (p.remove rid).2
  split <;> rfl

theorem removeMany_snd_eq_removeEach (p : PendingTree) (rids : List Rid) :
    (p.removeMany rids).2 = p.removeEach rids := by
  rw [removeMany_snd]
  unfold removeEach
  simp only [pyRemove_snd]

theorem Sound.removeEach (hp : Sound p) (rids : List Rid) : Sound (p.removeEach rids) :=
  removeMany_snd_eq_removeEach p rids ▸ hp.removeMany rids

theorem lookup_removeEach (rids : List Rid) (rid : Rid) :
    (p.removeEach rids).paths.lookup rid = if rid ∈ rids then none else p.paths.lookup rid := by
  unfold removeEach
  induction rids generalizing p with
  | nil => rfl
  | cons first rids ih =>
      have hfirst : (p.pyRemove first).2.paths.lookup rid =
          if rid = first then none else p.paths.lookup rid := by
        rw [pyRemove_snd]
        exact lookup_discard p first rid
      rw [List.foldl_cons, ih, hfirst]
      by_cases hrid : rid ∈ rids
      · rw [if_pos hrid, if_pos (List.mem_cons_of_mem _ hrid)]
      · rw [if_neg hrid]
        simp only [List.mem_cons, hrid, or_false]

/-- **Neither the order matters, nor repetitions, nor rids that are not pending.** -/
theorem Sound.sameTree_removeEach (hp : Sound p) {rids rids' : List Rid}
    (h : ∀ rid, p.contains rid → (rid ∈ rids' ↔ rid ∈ rids)) :
    SameTree (p.removeEach rids) (p.removeEach rids') := by
  refine (hp.removeEach rids).sameTree (hp.removeEach rids') fun rid => ?_
  rw [lookup_removeEach, lookup_removeEach]
  cases hl : p.paths.lookup rid with
  | none => rw [ite_self, ite_self]
  | some tokens =>
      have hiff := h rid (by rw [contains, hl]; rfl)
      simp only [hiff]

/-- The rids of the list that are pending, each once. -/
def pendingOf (p : PendingTree) (rids : List Rid) : Finset Rid :=
  rids.toFinset.filter fun rid => p.contains rid

theorem pendingOf_cons (rid : Rid) (rids : List Rid) : (p.pendingOf (rid :: rids)).card =
    (if p.contains rid then 1 else 0) + ((p.remove rid).2.pendingOf rids).card := by
  have hrest : (p.remove rid).2.pendingOf rids = (p.pendingOf rids).erase rid := by
    ext x
    have hlookup := lookup_discard p rid x
    unfold discard at hlookup
    unfold pendingOf contains
    rw [Finset.mem_erase, Finset.mem_filter, Finset.mem_filter, hlookup]
    by_cases hx : x = rid
    · simp [hx]
    · simp [hx]
  have hall : p.pendingOf (rid :: rids) =
      if p.contains rid then Insert.insert rid (p.pendingOf rids) else p.pendingOf rids := by
    unfold pendingOf
    rw [List.toFinset_cons, Finset.filter_insert]
  rw [hrest, hall]
  by_cases hin : p.contains rid = true
  · rw [if_pos hin, if_pos hin, ← Finset.erase_insert_eq_erase, Nat.add_comm]
    exact (Finset.card_erase_add_one (Finset.mem_insert_self rid _)).symm
  · rw [if_neg hin, if_neg hin, Nat.zero_add, Finset.erase_eq_of_notMem]
    exact fun hmem => hin (Finset.mem_filter.mp hmem).2

/-- **The count is of the distinct pending rids.** -/
theorem Sound.removeMany_fst (hp : Sound p) (rids : List Rid) :
    (p.removeMany rids).1 = (p.pendingOf rids).card := by
  suffices key : ∀ (rids : List Rid) (n : Nat) (p : PendingTree), Sound p →
      (rids.foldl (fun acc rid => (if (acc.2.remove rid).1 then acc.1 + 1 else acc.1,
        (acc.2.remove rid).2)) (n, p)).1 = n + (p.pendingOf rids).card from
    (key rids 0 p hp).trans (Nat.zero_add _)
  intro rids
  induction rids with
  | nil => intro n p _; rfl
  | cons rid rids ih =>
      intro n p hp
      obtain ⟨hok, hsound⟩ := hp.remove rid
      rw [← contains] at hok
      rw [List.foldl_cons, ih _ _ hsound, pendingOf_cons, hok]
      by_cases hin : p.contains rid = true
      · rw [if_pos hin, if_pos hin, Nat.add_assoc]
      · rw [if_neg hin, if_neg hin, Nat.zero_add]

/-! ### Batches -/

/--
**A batch goes in whole or not at all, and in no particular order.**  `insert_many` raises just
when a rid of the batch is pending or there twice, and then leaves everything as it was; otherwise
it is as inserting the pairs one by one, in any order.  `remove_many` counts the distinct listed
rids that were pending, and is as removing rids one by one, by any list that names the same ones.
-/
theorem batches (ops : List Op) :
    (∀ items : List (Rid × List Token),
      ((∃ e, ((run ops).insertMany items).1 = .error e) ↔
        (∃ item ∈ items, (run ops).contains item.1) ∨ ¬ (items.map (·.1)).Nodup) ∧
      (∀ e, ((run ops).insertMany items).1 = .error e → ((run ops).insertMany items).2 = run ops) ∧
      (((run ops).insertMany items).1 = .ok () → ∀ items', items'.Perm items →
        ((run ops).insertEach items').1 = .ok () ∧
          SameTree ((run ops).insertMany items).2 ((run ops).insertEach items').2)) ∧
    (∀ rids : List Rid,
      ((run ops).removeMany rids).1 = (rids.toFinset.filter fun rid => (run ops).contains rid).card ∧
      ((run ops).removeMany rids).2 = (run ops).removeEach rids ∧
      ∀ rids', (∀ rid, (run ops).contains rid → (rid ∈ rids' ↔ rid ∈ rids)) →
        SameTree ((run ops).removeMany rids).2 ((run ops).removeEach rids')) := by
  have hp := sound_run ops
  refine ⟨fun items => ⟨?_, ?_, ?_⟩, fun rids => ⟨hp.removeMany_fst rids, ?_, ?_⟩⟩
  · have hfails : (∃ e, ((run ops).insertMany items).1 = .error e) ↔ ¬ (run ops).Fresh items := by
      rw [← insertMany_ok_iff]
      cases ((run ops).insertMany items).1 with
      | error e => simp
      | ok u => simp
    rw [hfails, ← not_iff_not, not_not, not_or, not_not]
    constructor
    · rintro ⟨hdistinct, habsent⟩
      refine ⟨?_, hdistinct⟩
      rintro ⟨item, hmem, hin⟩
      rw [contains, habsent item.1 (List.mem_map_of_mem hmem)] at hin
      cases hin
    · rintro ⟨habsent, hdistinct⟩
      refine ⟨hdistinct, fun rid hrid => ?_⟩
      obtain ⟨item, hmem, rfl⟩ := List.mem_map.mp hrid
      simpa [contains] using fun hin => habsent ⟨item, hmem, hin⟩
  · intro e he
    have hnot : ¬ (run ops).Fresh items := fun h => by
      rw [h.insertMany] at he
      cases he
    obtain ⟨e', he'⟩ := insertMany_of_not_fresh hnot
    rw [he']
  · intro hok items' hperm
    have h := insertMany_ok_iff.mp hok
    refine ⟨?_, h.sameTree hp hperm⟩
    rw [(h.perm hperm).insertEach]
  · exact removeMany_snd_eq_removeEach _ _
  · intro rids' h
    rw [removeMany_snd_eq_removeEach]
    exact hp.sameTree_removeEach h

/-- A batch that fits, taken the other way round; one that names a pending rid last; and a removal. -/
theorem batches_split :
    let p := run [.insert 1 [5, 6, 7]]
    SameTree (p.insertMany [(2, [5, 6]), (3, [5, 8])]).2 (p.insertEach [(3, [5, 8]), (2, [5, 6])]).2 ∧
    (p.insertMany [(2, [5, 6]), (3, [5, 8]), (1, [])]).2 = p ∧
    (p.removeMany [9, 1, 1]).1 = 1 ∧
    SameTree (p.removeMany [9, 1, 1]).2 (p.removeEach [1]) := by
  have h := batches [.insert 1 [5, 6, 7]]
  refine ⟨((h.1 _).2.2 (by decide +kernel) _ (List.Perm.swap _ _ _)).2,
    (h.1 _).2.1 (alreadyPresent 1) (by decide +kernel), (h.2 [9, 1, 1]).1.trans (by decide +kernel),
    (h.2 [9, 1, 1]).2.2 [1] fun rid hrid => ?_⟩
  have hone : (run [.insert 1 [5, 6, 7]]).paths.keys = [1] := by decide +kernel
  have hmem : rid ∈ (run [.insert 1 [5, 6, 7]]).paths.keys :=
    AList.mem_keys.mp (AList.lookup_isSome.mp hrid)
  rw [hone, List.mem_singleton] at hmem
  rw [hmem]
  decide

end PendingTree

end Peek
