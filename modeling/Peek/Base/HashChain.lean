/-
Lists hashed element by element, each hash made with the one before it.

So the hash of an element stands for everything up to it.  A list may be hashed in parts, if each
part starts from the last hash of the part before it (`chain_append`).
-/
import Mathlib.Data.List.Infix

namespace HashChain

variable {α β : Type*}

/-- The hashes of a list, from the hash before it on. -/
def chain (hash : α → Option β → β) : Option β → List α → List β
  | _, [] => []
  | prior, x :: xs => hash x prior :: chain hash (some (hash x prior)) xs

/-- The hash that is made last, and the one before the list if there is none. -/
def last (hash : α → Option β → β) : Option β → List α → Option β
  | prior, [] => prior
  | prior, x :: xs => last hash (some (hash x prior)) xs

variable (hash : α → Option β → β)

@[simp] theorem length_chain (xs : List α) : ∀ prior, (chain hash prior xs).length = xs.length := by
  induction xs with
  | nil => intro prior; rfl
  | cons x xs ih => intro prior; simp [chain, ih]

theorem last_append (xs ys : List α) : ∀ prior,
    last hash prior (xs ++ ys) = last hash (last hash prior xs) ys := by
  induction xs with
  | nil => intro prior; rfl
  | cons x xs ih => intro prior; exact ih _

/-- **A list is hashed in parts.** -/
theorem chain_append (xs ys : List α) : ∀ prior,
    chain hash prior (xs ++ ys) = chain hash prior xs ++ chain hash (last hash prior xs) ys := by
  induction xs with
  | nil => intro prior; rfl
  | cons x xs ih => intro prior; simp [chain, last, ih]

theorem chain_take (xs : List α) (n : Nat) (prior : Option β) :
    chain hash prior (xs.take n) = (chain hash prior xs).take n := by
  have happ := chain_append hash (xs.take n) (xs.drop n) prior
  rw [List.take_append_drop] at happ
  rcases Nat.le_total n xs.length with hle | hle
  · rw [happ, List.take_left' (by simp [hle])]
  · rw [List.take_of_length_le hle, List.take_of_length_le (by simpa using hle)]

theorem chain_drop (xs : List α) (n : Nat) (prior : Option β) :
    chain hash (last hash prior (xs.take n)) (xs.drop n) = (chain hash prior xs).drop n := by
  have happ := chain_append hash (xs.take n) (xs.drop n) prior
  rw [List.take_append_drop] at happ
  rcases Nat.le_total n xs.length with hle | hle
  · rw [happ, List.drop_left' (by simp [hle])]
  · rw [List.drop_eq_nil_of_le hle, List.drop_eq_nil_of_le (by simpa using hle)]
    rfl

/-- The last hash of a list that is not empty is the last in its chain. -/
theorem getLast?_chain (xs : List α) : ∀ {prior : Option β}, xs ≠ [] →
    (chain hash prior xs).getLast? = last hash prior xs := by
  induction xs with
  | nil => intro prior h; exact absurd rfl h
  | cons x xs ih =>
      intro prior _
      rw [chain, last]
      by_cases hxs : xs = []
      · subst hxs
        rfl
      · have hne : chain hash (some (hash x prior)) xs ≠ [] := by
          rw [← List.length_pos_iff, length_chain, List.length_pos_iff]
          exact hxs
        rw [List.getLast?_cons_of_ne_nil hne]
        exact ih hxs

/-- **What is in the chain** is the last hash of some part from the front. -/
theorem mem_chain_iff (xs : List α) : ∀ {prior : Option β} {b : β}, b ∈ chain hash prior xs ↔
    ∃ pre, pre ≠ [] ∧ pre <+: xs ∧ last hash prior pre = some b := by
  induction xs with
  | nil =>
      intro prior b
      refine iff_of_false List.not_mem_nil ?_
      rintro ⟨pre, hne, hpre, -⟩
      exact hne (List.prefix_nil.mp hpre)
  | cons x xs ih =>
      intro prior b
      rw [chain, List.mem_cons, ih]
      constructor
      · rintro (rfl | ⟨pre, -, hpre, hlast⟩)
        · exact ⟨[x], List.cons_ne_nil x [], by simp, rfl⟩
        · exact ⟨x :: pre, List.cons_ne_nil x pre, by simpa using hpre, hlast⟩
      · rintro ⟨pre, hne, hpre, hlast⟩
        obtain ⟨y, pre, rfl⟩ := List.exists_cons_of_ne_nil hne
        obtain ⟨rfl, hrest⟩ := List.cons_prefix_cons.mp hpre
        by_cases hnil : pre = []
        · subst hnil
          exact Or.inl (Option.some.inj hlast).symm
        · exact Or.inr ⟨pre, hnil, hrest, hlast⟩

end HashChain
