/-
Dictionaries that remember the order of insertion.

Python's `dict` is a list of pairs whose keys are distinct: a new key goes to the end, and
writing to a key that is there leaves it in its place.  Reading is `List.lookup`.  The keys
stay distinct (`nodup_set`, `nodup_del`), and then the entries are what `lookup` finds
(`mem_iff_lookup`).
-/
import Mathlib.Data.List.Induction
import Mathlib.Data.List.Nodup

namespace Dict

variable {κ ν : Type} [DecidableEq κ]

/-- `d[k] = v` -/
def set : List (κ × ν) → κ → ν → List (κ × ν)
  | [], k, v => [(k, v)]
  | (k', v') :: d, k, v => if k' = k then (k, v) :: d else (k', v') :: set d k v

/-- `del d[k]`, or `d.pop(k, None)` -/
def del (d : List (κ × ν)) (k : κ) : List (κ × ν) := d.filter fun e => e.1 ≠ k

/-- `{key(e): value(e) for e in l}` -/
def ofList {α : Type} (key : α → κ) (value : α → ν) (l : List α) : List (κ × ν) :=
  l.foldl (fun d e => set d (key e) (value e)) []

def keys (d : List (κ × ν)) : List κ := d.map (·.1)

omit [DecidableEq κ] in
@[simp] theorem keys_nil : keys ([] : List (κ × ν)) = [] := rfl

omit [DecidableEq κ] in
@[simp] theorem keys_cons (e : κ × ν) (d : List (κ × ν)) : keys (e :: d) = e.1 :: keys d := rfl

section Lookup

variable [BEq κ] [LawfulBEq κ] (d : List (κ × ν)) (k k' : κ) (v : ν)

theorem lookup_cons (e : κ × ν) :
    List.lookup k (e :: d) = if e.1 = k then some e.2 else List.lookup k d := by
  obtain ⟨k', v⟩ := e
  rw [List.lookup_cons]
  by_cases h : k = k'
  · rw [h, beq_self_eq_true, if_pos rfl]
  · rw [beq_false_of_ne h, if_neg (Ne.symm h)]

theorem lookup_isSome_iff : (List.lookup k d).isSome ↔ k ∈ keys d := by
  induction d with
  | nil => exact iff_of_false (by simp) (by simp)
  | cons e d ih =>
      rw [lookup_cons, keys_cons, List.mem_cons, ← ih]
      by_cases h : e.1 = k
      · rw [if_pos h]
        exact iff_of_true rfl (Or.inl h.symm)
      · rw [if_neg h]
        exact (or_iff_right (Ne.symm h)).symm

theorem lookup_eq_none_iff : List.lookup k d = none ↔ k ∉ keys d := by
  rw [← lookup_isSome_iff, Bool.not_eq_true, Option.isSome_eq_false_iff, Option.isNone_iff_eq_none]

theorem lookup_set : List.lookup k' (set d k v) = if k = k' then some v else List.lookup k' d := by
  induction d with
  | nil => exact lookup_cons [] k' (k, v)
  | cons e d ih =>
      unfold set
      by_cases he : e.1 = k
      · rw [if_pos he, lookup_cons, lookup_cons, he]
        by_cases hk : k = k'
        · rw [if_pos hk, if_pos hk]
        · rw [if_neg hk, if_neg hk, if_neg hk]
      · rw [if_neg he, lookup_cons, lookup_cons, ih]
        by_cases hk : k = k'
        · rw [if_pos hk, if_neg (hk ▸ he), if_pos hk]
        · rw [if_neg hk, if_neg hk]

/-- What is found after an update was put there, or was found before under another key. -/
theorem eq_or_lookup_of_set {m : List (κ × ν)} {k k' : κ} {v w : ν}
    (h : (set m k v).lookup k' = some w) : k' = k ∧ w = v ∨ k' ≠ k ∧ m.lookup k' = some w := by
  rw [lookup_set] at h
  by_cases hk : k = k'
  · rw [if_pos hk, Option.some.injEq] at h
    exact Or.inl ⟨hk.symm, h.symm⟩
  · rw [if_neg hk] at h
    exact Or.inr ⟨Ne.symm hk, h⟩

theorem lookup_del : List.lookup k' (del d k) = if k = k' then none else List.lookup k' d := by
  induction d with
  | nil => exact (ite_self none).symm
  | cons e d ih =>
      unfold del at ih ⊢
      by_cases he : e.1 = k
      · rw [List.filter_cons_of_neg (by simpa using he), ih, lookup_cons, he]
        by_cases hk : k = k'
        · rw [if_pos hk, if_pos hk]
        · rw [if_neg hk, if_neg hk, if_neg hk]
      · rw [List.filter_cons_of_pos (by simpa using he), lookup_cons, lookup_cons, ih]
        by_cases hk : k = k'
        · rw [if_pos hk, if_neg (hk ▸ he), if_pos hk]
        · rw [if_neg hk, if_neg hk]

variable {d k v}

theorem mem_of_lookup (h : List.lookup k d = some v) : (k, v) ∈ d := by
  induction d with
  | nil => simp at h
  | cons e d ih =>
      rw [lookup_cons] at h
      by_cases he : e.1 = k
      · rw [if_pos he, Option.some.injEq] at h
        exact List.mem_cons.mpr (Or.inl (Prod.ext he.symm h.symm))
      · rw [if_neg he] at h
        exact List.mem_cons_of_mem _ (ih h)

/-- **With distinct keys the entries are what is looked up.** -/
theorem mem_iff_lookup (h : (keys d).Nodup) : (k, v) ∈ d ↔ List.lookup k d = some v := by
  induction d with
  | nil => simp
  | cons e d ih =>
      rw [keys_cons, List.nodup_cons] at h
      rw [lookup_cons, List.mem_cons]
      by_cases he : e.1 = k
      · rw [if_pos he, Option.some.injEq]
        constructor
        · intro hm
          rcases hm with hm | hm
          · rw [← hm]
          · exact absurd (List.mem_map_of_mem hm) (he ▸ h.1)
        · intro hv
          exact Or.inl (Prod.ext he.symm hv.symm)
      · rw [if_neg he, ← ih h.2]
        exact or_iff_right fun heq => he (congrArg Prod.fst heq).symm

/-- A comprehension holds a value, as long as its key is written with no other. -/
theorem lookup_ofList {α : Type} (key : α → κ) (value : α → ν) {l : List α} {e : α} (he : e ∈ l)
    (h : ∀ e' ∈ l, key e' = key e → value e' = value e) :
    List.lookup (key e) (ofList key value l) = some (value e) := by
  induction l using List.reverseRecOn with
  | nil => exact absurd he List.not_mem_nil
  | append_singleton l a ih =>
      unfold ofList at ih ⊢
      rw [List.foldl_append]
      show List.lookup (key e) (set (l.foldl (fun d e => set d (key e) (value e)) []) (key a)
        (value a)) = some (value e)
      rw [lookup_set]
      by_cases hk : key a = key e
      · rw [if_pos hk, h a (List.mem_append_right _ List.mem_cons_self) hk]
      · rw [if_neg hk]
        refine ih ?_ fun x hx => h x (List.mem_append_left _ hx)
        rcases List.mem_append.mp he with he | he
        · exact he
        · exact absurd (congrArg key (List.mem_singleton.mp he).symm) hk

theorem exists_of_lookup_ofList {α : Type} {key : α → κ} {value : α → ν} {l : List α}
    (h : List.lookup k (ofList key value l) = some v) : ∃ e ∈ l, key e = k ∧ value e = v := by
  induction l using List.reverseRecOn with
  | nil => simp [ofList] at h
  | append_singleton l a ih =>
      unfold ofList at ih h
      rw [List.foldl_append] at h
      have h : List.lookup k (set (l.foldl (fun d e => set d (key e) (value e)) []) (key a)
        (value a)) = some v := h
      rw [lookup_set] at h
      by_cases hk : key a = k
      · rw [if_pos hk, Option.some.injEq] at h
        exact ⟨a, List.mem_append_right _ List.mem_cons_self, hk, h⟩
      · rw [if_neg hk] at h
        obtain ⟨e, he, hv⟩ := ih h
        exact ⟨e, List.mem_append_left _ he, hv⟩

end Lookup

/-! ### Keys -/

variable (d : List (κ × ν)) (k k' : κ) (v : ν)

theorem keys_set : keys (set d k v) = if k ∈ keys d then keys d else keys d ++ [k] := by
  induction d with
  | nil => rfl
  | cons e d ih =>
      unfold set
      rw [keys_cons]
      by_cases he : e.1 = k
      · rw [if_pos he, if_pos (he ▸ List.mem_cons_self), keys_cons, he]
      · rw [if_neg he, keys_cons, ih]
        have hmem : k ∈ e.1 :: keys d ↔ k ∈ keys d := by
          rw [List.mem_cons]
          exact or_iff_right (Ne.symm he)
        by_cases hk : k ∈ keys d
        · rw [if_pos hk, if_pos (hmem.mpr hk)]
        · rw [if_neg hk, if_neg fun h => hk (hmem.mp h)]
          rfl

theorem mem_keys_set : k' ∈ keys (set d k v) ↔ k' ∈ keys d ∨ k' = k := by
  rw [keys_set]
  by_cases hk : k ∈ keys d
  · rw [if_pos hk]
    exact ⟨Or.inl, fun h => h.elim id fun h => h ▸ hk⟩
  · rw [if_neg hk, List.mem_append, List.mem_singleton]

theorem nodup_set {d : List (κ × ν)} (h : (keys d).Nodup) : (keys (set d k v)).Nodup := by
  rw [keys_set]
  by_cases hk : k ∈ keys d
  · rw [if_pos hk]
    exact h
  · rw [if_neg hk]
    exact List.nodup_append.mpr ⟨h, List.nodup_singleton k, by
      intro a ha b hb hab
      rw [List.mem_singleton.mp hb] at hab
      exact hk (hab ▸ ha)⟩

theorem mem_of_mem_set {e : κ × ν} (h : e ∈ set d k v) : e ∈ d ∨ e = (k, v) := by
  induction d with
  | nil => exact Or.inr (List.mem_singleton.mp h)
  | cons e' d ih =>
      unfold set at h
      by_cases he : e'.1 = k
      · rw [if_pos he, List.mem_cons] at h
        exact h.elim Or.inr fun h => Or.inl (List.mem_cons_of_mem _ h)
      · rw [if_neg he, List.mem_cons] at h
        rcases h with h | h
        · exact Or.inl (h ▸ List.mem_cons_self)
        · exact (ih h).imp_left (List.mem_cons_of_mem _)

theorem keys_del : keys (del d k) = (keys d).filter (· ≠ k) := by
  unfold keys del
  rw [List.filter_map]
  rfl

theorem mem_keys_del : k' ∈ keys (del d k) ↔ k' ∈ keys d ∧ k' ≠ k := by
  rw [keys_del, List.mem_filter, decide_eq_true_eq]

theorem nodup_del {d : List (κ × ν)} (h : (keys d).Nodup) : (keys (del d k)).Nodup := by
  rw [keys_del]
  exact h.filter _

end Dict
