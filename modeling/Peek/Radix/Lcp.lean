/-
How far two lists agree.

A radix tree is walked by comparing an edge with what is left of the key, so
every walk comes down to one number: the length of the longest prefix the two
share.  `le_lcpLen_iff` says what that number is without mentioning how it is
computed, and the walks below use nothing else about it.
-/
import Mathlib.Data.List.Infix
import Mathlib.Data.List.TakeDrop

namespace Radix

variable {α : Type*}

/-! ### Prefixes of one list

A prefix of a given list is known from its length.  The walks use these to turn
"the path so far" into a `take`.
-/

/-- The element after a prefix is the one the list has there. -/
theorem getElem?_of_prefix_cons {p ts tl : List α} {a : α} (h : p ++ a :: tl <+: ts) :
    ts[p.length]? = some a := by
  obtain ⟨rest, rfl⟩ := h
  simp

theorem drop_prefix_of_append {p e ts : List α} (h : p ++ e <+: ts) : e <+: ts.drop p.length := by
  obtain ⟨r, rfl⟩ := h
  rw [List.append_assoc, List.drop_left]
  exact List.prefix_append _ _

/-! ### The common prefix -/

variable [DecidableEq α]

/-- The length of the longest common prefix. -/
def lcpLen : List α → List α → Nat
  | a :: as, b :: bs => if a = b then lcpLen as bs + 1 else 0
  | _, _ => 0

@[simp] theorem lcpLen_nil_left (ys : List α) : lcpLen [] ys = 0 := rfl

@[simp] theorem lcpLen_nil_right (xs : List α) : lcpLen xs [] = 0 := by cases xs <;> rfl

theorem lcpLen_cons (a b : α) (as bs : List α) :
    lcpLen (a :: as) (b :: bs) = if a = b then lcpLen as bs + 1 else 0 := rfl

/-- **What the common prefix length is**: the largest length at which both lists cut alike. -/
theorem le_lcpLen_iff : ∀ {k : Nat} {xs ys : List α},
    k ≤ lcpLen xs ys ↔ k ≤ xs.length ∧ k ≤ ys.length ∧ xs.take k = ys.take k := by
  intro k xs
  induction xs generalizing k with
  | nil =>
      intro ys
      simp only [lcpLen_nil_left, Nat.le_zero, List.length_nil]
      exact ⟨fun h => by simp [h], fun h => h.1⟩
  | cons a as ih =>
      intro ys
      cases ys with
      | nil =>
          simp only [lcpLen_nil_right, Nat.le_zero, List.length_nil]
          exact ⟨fun h => by simp [h], fun h => h.2.1⟩
      | cons b bs =>
          rw [lcpLen_cons]
          cases k with
          | zero => simp
          | succ k =>
              by_cases hab : a = b
              · simp [hab, ih]
              · simp [hab]

theorem lcpLen_le_left (xs ys : List α) : lcpLen xs ys ≤ xs.length :=
  (le_lcpLen_iff.mp (Nat.le_refl _)).1

theorem lcpLen_le_right (xs ys : List α) : lcpLen xs ys ≤ ys.length :=
  (le_lcpLen_iff.mp (Nat.le_refl _)).2.1

theorem take_lcpLen (xs ys : List α) : xs.take (lcpLen xs ys) = ys.take (lcpLen xs ys) :=
  (le_lcpLen_iff.mp (Nat.le_refl _)).2.2

/-- The whole of `xs` is common exactly when `xs` is a prefix. -/
theorem lcpLen_eq_length_iff {xs ys : List α} : lcpLen xs ys = xs.length ↔ xs <+: ys := by
  constructor
  · intro h
    have heq := take_lcpLen xs ys
    rw [h, List.take_length] at heq
    rw [heq]
    exact List.take_prefix _ _
  · intro h
    refine Nat.le_antisymm (lcpLen_le_left _ _) (le_lcpLen_iff.mpr ⟨Nat.le_refl _, h.length_le, ?_⟩)
    rw [List.take_length]
    exact List.prefix_iff_eq_take.mp h

theorem lcpLen_pos {a : α} {xs ys : List α} (hx : xs.head? = some a) (hy : ys.head? = some a) :
    0 < lcpLen xs ys := by
  cases xs with
  | nil => simp at hx
  | cons b bs =>
      cases ys with
      | nil => simp at hy
      | cons c cs =>
          simp only [List.head?_cons, Option.some.injEq] at hx hy
          rw [lcpLen_cons, if_pos (hx.trans hy.symm)]
          exact Nat.succ_pos _

/-- A list agrees with `xs ++ ys` as far as with `xs`, and then on with `ys`. -/
theorem lcpLen_append (xs ys zs : List α) : lcpLen (xs ++ ys) zs =
    lcpLen xs zs + if xs <+: zs then lcpLen ys (zs.drop xs.length) else 0 := by
  induction xs generalizing zs with
  | nil => rw [if_pos List.nil_prefix]; simp
  | cons a as ih =>
      cases zs with
      | nil => simp
      | cons b bs =>
          rw [List.cons_append, lcpLen_cons, lcpLen_cons]
          by_cases hab : a = b
          · rw [if_pos hab, if_pos hab, ih]
            simp only [List.cons_prefix_cons, hab, true_and, List.length_cons,
              List.drop_succ_cons]
            omega
          · simp [List.cons_prefix_cons, hab]

/-- Counting the leading equal pairs of a zip is counting the common prefix. -/
theorem length_takeWhile_zip (xs ys : List α) :
    ((xs.zip ys).takeWhile fun p => p.1 = p.2).length = lcpLen xs ys := by
  induction xs generalizing ys with
  | nil => simp
  | cons a as ih =>
      cases ys with
      | nil => simp
      | cons b bs =>
          by_cases hab : a = b
          · simp [lcpLen_cons, hab, ih]
          · simp [lcpLen_cons, hab]

/-! ### The common prefix of many lists -/

/-- The length of the longest common prefix of all the lists. -/
def commonLen : List (List α) → Nat
  | [] => 0
  | xs :: rest => rest.foldr (fun ys k => min k (lcpLen xs ys)) xs.length

theorem le_commonLen_cons_iff {k : Nat} {xs : List α} {rest : List (List α)} :
    k ≤ commonLen (xs :: rest) ↔ k ≤ xs.length ∧ ∀ ys ∈ rest, k ≤ lcpLen xs ys := by
  induction rest with
  | nil => simp [commonLen]
  | cons ys rest ih =>
      have hcons : commonLen (xs :: ys :: rest) = min (commonLen (xs :: rest)) (lcpLen xs ys) := rfl
      rw [hcons, Nat.le_min, ih, List.forall_mem_cons]
      exact ⟨fun h => ⟨h.1.1, h.2, h.1.2⟩, fun h => ⟨⟨h.1, h.2.2⟩, h.2.1⟩⟩

/-- **What it is**: the largest length of a prefix that all the lists share. -/
theorem le_commonLen_iff {k : Nat} {ls : List (List α)} (hne : ls ≠ []) :
    k ≤ commonLen ls ↔ ∃ p, p.length = k ∧ ∀ l ∈ ls, p <+: l := by
  cases ls with
  | nil => exact absurd rfl hne
  | cons xs rest =>
      rw [le_commonLen_cons_iff]
      constructor
      · intro h
        refine ⟨xs.take k, List.length_take_of_le h.1, fun l hl => ?_⟩
        rcases List.mem_cons.mp hl with rfl | hl
        · exact List.take_prefix k l
        · rw [(le_lcpLen_iff.mp (h.2 l hl)).2.2]
          exact List.take_prefix k l
      · intro h
        obtain ⟨p, rfl, hall⟩ := h
        have htake : ∀ l ∈ xs :: rest, p.length ≤ l.length ∧ l.take p.length = p := fun l hl =>
          ⟨(hall l hl).length_le, (List.prefix_iff_eq_take.mp (hall l hl)).symm⟩
        obtain ⟨hlen, hxs⟩ := htake xs List.mem_cons_self
        refine ⟨hlen, fun ys hys => le_lcpLen_iff.mpr ⟨hlen, ?_⟩⟩
        obtain ⟨hlen', hys'⟩ := htake ys (List.mem_cons_of_mem _ hys)
        exact ⟨hlen', hxs.trans hys'.symm⟩

/-- Where all the lists start with `a`, the rest of the prefix is that of their tails. -/
theorem commonLen_map_cons (a : α) {ls : List (List α)} (hne : ls ≠ []) :
    commonLen (ls.map fun l => a :: l) = commonLen ls + 1 := by
  cases ls with
  | nil => exact absurd rfl hne
  | cons xs rest =>
      induction rest with
      | nil => rfl
      | cons ys rest ih =>
          have hcons : ∀ (zs us : List α) (more : List (List α)), commonLen (zs :: us :: more) =
              min (commonLen (zs :: more)) (lcpLen zs us) := fun _ _ _ => rfl
          have ih := ih (List.cons_ne_nil _ _)
          rw [List.map_cons] at ih
          rw [List.map_cons, List.map_cons, hcons, hcons, ih, lcpLen_cons, if_pos rfl]
          omega

theorem commonLen_map_append (p : List α) {l : List (List α)} (hne : l ≠ []) :
    commonLen (l.map fun xs => p ++ xs) = p.length + commonLen l := by
  induction p with
  | nil => simp
  | cons a p ih =>
      have hcons : (l.map fun xs => a :: p ++ xs) = (l.map fun xs => p ++ xs).map fun xs => a :: xs := by
        rw [List.map_map]
        rfl
      rw [hcons, commonLen_map_cons a (by simpa using hne), ih, List.length_cons]
      omega

/-- Lists that part at once have no prefix in common. -/
theorem commonLen_eq_zero {ls : List (List α)} (h : ∀ a, ∃ l ∈ ls, ¬ [a] <+: l) :
    commonLen ls = 0 := by
  by_contra hpos
  have hne : ls ≠ [] := by
    intro hnil
    rw [hnil] at hpos
    exact hpos rfl
  obtain ⟨p, hlen, hall⟩ := (le_commonLen_iff hne).mp (Nat.one_le_iff_ne_zero.mpr hpos)
  obtain ⟨a, rfl⟩ := List.length_eq_one_iff.mp hlen
  obtain ⟨l, hl, hnot⟩ := h a
  exact hnot (hall l hl)

end Radix
