/-
Hash maps.

`FxHashMap` and `dict` are association lists with distinct keys: Mathlib's `AList`
at a constant family.  Nothing here depends on the order of the entries, and the
counting lemmas are stated up to permutation so that nothing can come to.
-/
import Mathlib.Data.List.AList
import Mathlib.Data.List.Count

namespace Peek

/-- A finite map. -/
abbrev Map (κ ν : Type) := AList (fun _ : κ => ν)

namespace Map

variable {κ ν : Type} [DecidableEq κ]

/-- Compare the entries; unlike the library's instance, this one evaluates. -/
instance [DecidableEq ν] : DecidableEq (Map κ ν) := fun m m' =>
  decidable_of_iff (m.entries = m'.entries) ⟨AList.ext, fun h => h ▸ rfl⟩

/-- The values, in entry order (`values()`). -/
def values (m : Map κ ν) : List ν := m.entries.map (·.2)

omit [DecidableEq κ] in
@[simp] theorem values_empty : values (∅ : Map κ ν) = [] := rfl

theorem mem_values {m : Map κ ν} {v : ν} : v ∈ values m ↔ ∃ k, m.lookup k = some v := by
  simp only [values, List.mem_map]
  constructor
  · rintro ⟨⟨k, w⟩, hmem, rfl⟩
    exact ⟨k, AList.mem_lookup_iff.mpr hmem⟩
  · rintro ⟨k, hk⟩
    exact ⟨⟨k, v⟩, AList.mem_lookup_iff.mp hk, rfl⟩

/-- No value is there twice, if each stands under one key. -/
theorem nodup_values {m : Map κ ν}
    (h : ∀ k k' v, m.lookup k = some v → m.lookup k' = some v → k = k') : (values m).Nodup := by
  refine List.Nodup.map_on (fun e he e' he' hv => ?_) m.nodupKeys.nodup
  obtain ⟨k, v⟩ := e
  obtain ⟨k', v'⟩ := e'
  have hv : v = v' := hv
  subst hv
  rw [h k k' v (AList.mem_lookup_iff.mpr he) (AList.mem_lookup_iff.mpr he')]

omit [DecidableEq κ] in
theorem keys_mapValues {μ : Type} (f : ν → μ) (m : Map κ ν) :
    (m.entries.map fun e => (⟨e.1, f e.2⟩ : Sigma fun _ : κ => μ)).keys = m.entries.keys := by
  unfold List.keys
  rw [List.map_map]
  rfl

/-- Change every value, keep the keys. -/
def mapValues {μ : Type} (f : ν → μ) (m : Map κ ν) : Map κ μ where
  entries := m.entries.map fun e => ⟨e.1, f e.2⟩
  nodupKeys := by
    rw [List.NodupKeys, keys_mapValues]
    exact m.nodupKeys

theorem lookup_mapValues {μ : Type} (f : ν → μ) (m : Map κ ν) (k : κ) :
    (m.mapValues f).lookup k = (m.lookup k).map f := by
  show (m.entries.map fun e => (⟨e.1, f e.2⟩ : Sigma fun _ : κ => μ)).dlookup k =
    (m.entries.dlookup k).map f
  induction m.entries with
  | nil => rfl
  | cons e es ih =>
      obtain ⟨k', v⟩ := e
      by_cases hk : k = k'
      · subst hk; simp
      · rw [List.map_cons, List.dlookup_cons_ne _ _ hk, List.dlookup_cons_ne _ _ hk, ih]

theorem lookup_insert_of (m : Map κ ν) (k k' : κ) (v : ν) :
    (m.insert k v).lookup k' = if k' = k then some v else m.lookup k' := by
  by_cases h : k' = k
  · subst h; simp
  · rw [if_neg h, AList.lookup_insert_ne h]

theorem lookup_erase_of (m : Map κ ν) (k k' : κ) :
    (m.erase k).lookup k' = if k' = k then none else m.lookup k' := by
  by_cases h : k' = k
  · subst h; simp
  · rw [if_neg h, AList.lookup_erase_ne h]

/-- Two maps with the same lookups have the same entries. -/
theorem perm_of_lookup {m m' : Map κ ν} (h : ∀ k, m.lookup k = m'.lookup k) :
    m.entries.Perm m'.entries := by
  refine (List.perm_ext_iff_of_nodup m.nodupKeys.nodup m'.nodupKeys.nodup).mpr ?_
  rintro ⟨k, v⟩
  rw [← AList.mem_lookup_iff, ← AList.mem_lookup_iff, h]

/-- Taking a key out leaves the other entries. -/
theorem perm_erase_cons {m : Map κ ν} {k : κ} {v : ν} (h : m.lookup k = some v) :
    m.entries.Perm (⟨k, v⟩ :: (m.erase k).entries) := by
  have hins : ∀ k', m.lookup k' = ((m.erase k).insert k v).lookup k' := by
    intro k'
    rw [lookup_insert_of, lookup_erase_of]
    by_cases hk : k' = k
    · rw [if_pos hk, hk]; exact h
    · rw [if_neg hk, if_neg hk]
  have := perm_of_lookup hins
  rwa [AList.entries_insert_of_notMem (by simp)] at this

theorem length_entries_eq_one {m : Map κ ν} (h : m.entries.length = 1) :
    ∃ k v, m.entries = [⟨k, v⟩] ∧ ∀ k', m.lookup k' = if k' = k then some v else none := by
  obtain ⟨⟨k, v⟩, hkv⟩ := List.length_eq_one_iff.mp h
  have hm : m = AList.singleton k v := AList.ext hkv
  refine ⟨k, v, hkv, fun k' => ?_⟩
  rw [hm, ← AList.insert_empty, lookup_insert_of, AList.lookup_empty]

theorem entries_eq_nil_iff {m : Map κ ν} : m.entries = [] ↔ ∀ k, m.lookup k = none := by
  constructor
  · intro h k
    rw [show m = ∅ from AList.ext h, AList.lookup_empty]
  · intro h
    refine List.eq_nil_iff_forall_not_mem.mpr ?_
    rintro ⟨k, v⟩ hmem
    rw [← AList.mem_lookup_iff, h] at hmem
    simp at hmem

omit [DecidableEq κ] in
/-- Two entries have two distinct keys. -/
theorem exists_two_entries {m : Map κ ν} (h : 2 ≤ m.entries.length) :
    ∃ k k' v v', k ≠ k' ∧ ⟨k, v⟩ ∈ m.entries ∧ ⟨k', v'⟩ ∈ m.entries := by
  have hnd := m.nodupKeys
  match m.entries, h, hnd with
  | ⟨k, v⟩ :: ⟨k', v'⟩ :: rest, _, hnd =>
      refine ⟨k, k', v, v', ?_, by simp, by simp⟩
      rintro rfl
      rw [List.nodupKeys_cons] at hnd
      exact hnd.1 (by simp [List.keys])

theorem exists_two {m : Map κ ν} (h : 2 ≤ m.entries.length) :
    ∃ k k' v v', k ≠ k' ∧ m.lookup k = some v ∧ m.lookup k' = some v' := by
  obtain ⟨k, k', v, v', hne, hk, hk'⟩ := exists_two_entries h
  exact ⟨k, k', v, v', hne, AList.mem_lookup_iff.mpr hk, AList.mem_lookup_iff.mpr hk'⟩

end Map

end Peek
