/-
Patterns in a text: leftmost search, and replacing the first match.

A pattern is a row of items, each for one character, for a run of characters or for one of
several words.  `search` tries it at every place from the left; a run takes as much as it can,
or as little as it can if it is lazy, and gives back when the items behind it fail.

`Takes` says which texts a pattern stands for; a pattern is found where one of them is
(`Takes.occurs`, `exists_takes`), and at the first such place (`search_leftmost`).
-/
import Mathlib.Data.List.Basic
import Mathlib.Data.List.GetD
import Mathlib.Data.List.Infix

namespace TextPattern

/-- One item of a pattern. -/
inductive Item where
  /-- One character of a class. -/
  | one (p : Char → Bool)
  /-- A run of characters of a class, maybe none. -/
  | many (lazy : Bool) (p : Char → Bool)
  /-- One of several words, the first that fits. -/
  | word (ws : List String)
  /-- One of several words comes next; it is not taken. -/
  | ahead (ws : List String)
  /-- No character of a class comes next. -/
  | notNext (p : Char → Bool)
  /-- A group ends here, and the next one begins. -/
  | bound

abbrev Pattern := List Item

/-- The pattern of a fixed word. -/
def lit (w : String) : Pattern := w.toList.map fun c => .one fun x => x == c

/-- What a match took, group by group, and what it left. -/
structure Hit where
  first : List Char
  more : List (List Char)
  rest : List Char

namespace Hit

/-- The text of a group. -/
def group (h : Hit) : Nat → List Char
  | 0 => h.first
  | i + 1 => h.more.getD i []

/-- All that was taken. -/
def text (h : Hit) : List Char := h.first ++ h.more.flatten

def grow (w : List Char) (h : Hit) : Hit := { h with first := w ++ h.first }

def cut (h : Hit) : Hit := { first := [], more := h.first :: h.more, rest := h.rest }

/-- The same match with more text behind it. -/
def extend (w : List Char) (h : Hit) : Hit := { h with rest := h.rest ++ w }

@[simp] theorem grow_rest (w : List Char) (h : Hit) : (h.grow w).rest = h.rest := rfl

@[simp] theorem grow_text (w : List Char) (h : Hit) : (h.grow w).text = w ++ h.text := by
  simp [grow, text]

@[simp] theorem cut_rest (h : Hit) : h.cut.rest = h.rest := rfl

@[simp] theorem cut_text (h : Hit) : h.cut.text = h.text := by
  simp [cut, text]

@[simp] theorem extend_rest (w : List Char) (h : Hit) : (h.extend w).rest = h.rest ++ w := rfl

@[simp] theorem extend_group (w : List Char) (h : Hit) : (h.extend w).group = h.group := by
  funext i
  cases i <;> rfl

theorem grow_extend (w v : List Char) (h : Hit) : (h.extend v).grow w = (h.grow w).extend v := rfl

theorem cut_extend (v : List Char) (h : Hit) : (h.extend v).cut = h.cut.extend v := rfl

/-- A group is a piece of what was taken. -/
theorem mem_text_of_mem_group {h : Hit} {i : Nat} {c : Char} (hc : c ∈ h.group i) : c ∈ h.text := by
  cases i with
  | zero => exact List.mem_append_left _ hc
  | succ i =>
      refine List.mem_append_right _ (List.mem_flatten.mpr ⟨h.more.getD i [], ?_, hc⟩)
      rcases Nat.lt_or_ge i h.more.length with hi | hi
      · rw [List.getD_eq_getElem _ _ hi]
        exact List.getElem_mem hi
      · rw [group, List.getD_eq_default _ _ hi] at hc
        exact absurd hc List.not_mem_nil

end Hit

/-- A run of characters of the class `p`, with `k` for what follows it. -/
def repeats (lazy : Bool) (p : Char → Bool) (k : List Char → Option Hit) : List Char → Option Hit
  | [] => k []
  | c :: s =>
      let longer := if p c then (repeats lazy p k s).map (Hit.grow [c]) else none
      if lazy then (k (c :: s)).or longer else longer.or (k (c :: s))

/-- A match at the beginning of the text. -/
def matchHere : Pattern → List Char → Option Hit
  | [], s => some ⟨[], [], s⟩
  | .one _ :: _, [] => none
  | .one p :: r, c :: s => if p c then (matchHere r s).map (Hit.grow [c]) else none
  | .many lazy p :: r, s => repeats lazy p (matchHere r) s
  | .word ws :: r, s => ws.findSome? fun w =>
      if w.toList.isPrefixOf s then (matchHere r (s.drop w.toList.length)).map (Hit.grow w.toList) else none
  | .ahead ws :: r, s => if ws.any fun w => w.toList.isPrefixOf s then matchHere r s else none
  | .notNext p :: r, s => if s.head?.any p then none else matchHere r s
  | .bound :: r, s => (matchHere r s).map Hit.cut

/-- The leftmost match: what is before it, and the match. -/
def search (r : Pattern) : List Char → Option (List Char × Hit)
  | [] => (matchHere r []).map fun h => ([], h)
  | c :: s => ((matchHere r (c :: s)).map fun h => ([], h)).or
      ((search r s).map fun f => (c :: f.1, f.2))

def occurs (r : Pattern) (s : List Char) : Bool := (search r s).isSome

/-- `w in s` -/
def contains (w : String) (s : List Char) : Bool := occurs (lit w) s

/-- The text with its first match replaced; `f` makes the new text of the groups of the match. -/
def replaceFirst (r : Pattern) (f : (Nat → List Char) → List Char) (s : List Char) : List Char :=
  match search r s with
  | none => s
  | some (before, h) => before ++ (f h.group ++ h.rest)

/-- All places of a word replaced, from the left; `skip` characters belong to the last one. -/
def replaceFrom (w : String) (new : List Char) : Nat → List Char → List Char
  | _, [] => []
  | skip + 1, _ :: s => replaceFrom w new skip s
  | 0, c :: s =>
      if w.toList.isPrefixOf (c :: s) then new ++ replaceFrom w new (w.toList.length - 1) s
      else c :: replaceFrom w new 0 s

def replaceAll (w : String) (new : List Char) (s : List Char) : List Char := replaceFrom w new 0 s

/-! ### What a match is -/

section Shape

variable {r : Pattern} {s : List Char} {h : Hit}

theorem matchHere_nil (hm : matchHere [] s = some h) : h = ⟨[], [], s⟩ := by
  simpa [matchHere] using hm.symm

theorem matchHere_one {p : Char → Bool} (hm : matchHere (.one p :: r) s = some h) :
    ∃ c s' h', s = c :: s' ∧ p c = true ∧ matchHere r s' = some h' ∧ h = h'.grow [c] := by
  cases s with
  | nil => simp [matchHere] at hm
  | cons c s' =>
      simp only [matchHere] at hm
      split at hm
      · obtain ⟨h', hm', rfl⟩ := Option.map_eq_some_iff.mp hm
        exact ⟨c, s', h', rfl, ‹_›, hm', rfl⟩
      · simp at hm

theorem matchHere_lit {w : String} (hm : matchHere (lit w ++ r) s = some h) :
    ∃ s' h', s = w.toList ++ s' ∧ matchHere r s' = some h' ∧ h = h'.grow w.toList := by
  unfold lit at hm
  generalize w.toList = w at hm ⊢
  induction w generalizing s h with
  | nil => exact ⟨s, h, rfl, hm, rfl⟩
  | cons c w ih =>
      obtain ⟨d, s', h', rfl, hd, hm', rfl⟩ := matchHere_one hm
      obtain rfl := eq_of_beq hd
      obtain ⟨s', h', rfl, hr, rfl⟩ := ih hm'
      exact ⟨s', h', rfl, hr, rfl⟩

theorem repeats_some {lazy : Bool} {p : Char → Bool} {k : List Char → Option Hit}
    (hm : repeats lazy p k s = some h) :
    ∃ w s' h', s = w ++ s' ∧ (∀ c ∈ w, p c = true) ∧ k s' = some h' ∧ h = h'.grow w := by
  induction s generalizing h with
  | nil => exact ⟨[], [], h, rfl, by simp, hm, rfl⟩
  | cons c s ih =>
      have hcases : k (c :: s) = some h ∨
          (if p c then (repeats lazy p k s).map (Hit.grow [c]) else none) = some h := by
        simp only [repeats] at hm
        split at hm
        · rcases Option.or_eq_some_iff.mp hm with hm | ⟨-, hm⟩
          · exact Or.inl hm
          · exact Or.inr hm
        · rcases Option.or_eq_some_iff.mp hm with hm | ⟨-, hm⟩
          · exact Or.inr hm
          · exact Or.inl hm
      rcases hcases with hm | hm
      · exact ⟨[], c :: s, h, rfl, by simp, hm, rfl⟩
      · split at hm
        · obtain ⟨h', hm', rfl⟩ := Option.map_eq_some_iff.mp hm
          obtain ⟨w, s', h', rfl, hw, hk, rfl⟩ := ih hm'
          refine ⟨c :: w, s', h', rfl, fun d hd => ?_, hk, rfl⟩
          rcases List.mem_cons.mp hd with rfl | hd
          · assumption
          · exact hw d hd
        · simp at hm

theorem matchHere_many {lazy : Bool} {p : Char → Bool}
    (hm : matchHere (.many lazy p :: r) s = some h) :
    ∃ w s' h', s = w ++ s' ∧ (∀ c ∈ w, p c = true) ∧ matchHere r s' = some h' ∧ h = h'.grow w :=
  repeats_some hm

theorem matchHere_bound (hm : matchHere (.bound :: r) s = some h) :
    ∃ h', matchHere r s = some h' ∧ h = h'.cut := by
  obtain ⟨h', hm', rfl⟩ := Option.map_eq_some_iff.mp hm
  exact ⟨h', hm', rfl⟩

/-- What a match took and what it left are the text. -/
theorem matchHere_text (hm : matchHere r s = some h) : s = h.text ++ h.rest := by
  induction r generalizing s h with
  | nil =>
      obtain rfl := matchHere_nil hm
      rfl
  | cons item r ih =>
      cases item with
      | one p =>
          obtain ⟨c, s', h', rfl, -, hm', rfl⟩ := matchHere_one hm
          simp [ih hm']
      | many lazy p =>
          obtain ⟨w, s', h', rfl, -, hm', rfl⟩ := matchHere_many hm
          simp [ih hm']
      | word ws =>
          simp only [matchHere] at hm
          obtain ⟨w, -, hm⟩ := List.exists_of_findSome?_eq_some hm
          split at hm
          next hpre =>
            obtain ⟨s', rfl⟩ := List.isPrefixOf_iff_prefix.mp hpre
            obtain ⟨h', hm', rfl⟩ := Option.map_eq_some_iff.mp hm
            rw [List.drop_left] at hm'
            simp [ih hm']
          next => simp at hm
      | ahead ws =>
          simp only [matchHere] at hm
          split at hm
          · exact ih hm
          · simp at hm
      | notNext p =>
          simp only [matchHere] at hm
          split at hm
          · simp at hm
          · exact ih hm
      | bound =>
          obtain ⟨h', hm', rfl⟩ := matchHere_bound hm
          simpa using ih hm'

/-- The item ends a group. -/
def Item.isBound : Item → Bool
  | .bound => true
  | .one _ => false
  | .many _ _ => false
  | .word _ => false
  | .ahead _ => false
  | .notNext _ => false

/-- There is a group more than the pattern has bounds. -/
theorem matchHere_groups (hm : matchHere r s = some h) : h.more.length = r.countP Item.isBound := by
  induction r generalizing s h with
  | nil =>
      obtain rfl := matchHere_nil hm
      rfl
  | cons item r ih =>
      cases item with
      | one p =>
          obtain ⟨c, s', h', rfl, -, hm', rfl⟩ := matchHere_one hm
          simpa [Hit.grow, Item.isBound] using ih hm'
      | many lazy p =>
          obtain ⟨w, s', h', rfl, -, hm', rfl⟩ := matchHere_many hm
          simpa [Hit.grow, Item.isBound] using ih hm'
      | word ws =>
          simp only [matchHere] at hm
          obtain ⟨w, -, hm⟩ := List.exists_of_findSome?_eq_some hm
          split at hm
          · obtain ⟨h', hm', rfl⟩ := Option.map_eq_some_iff.mp hm
            simpa [Hit.grow, Item.isBound] using ih hm'
          · simp at hm
      | ahead ws =>
          simp only [matchHere] at hm
          split at hm
          · simpa [Item.isBound] using ih hm
          · simp at hm
      | notNext p =>
          simp only [matchHere] at hm
          split at hm
          · simp at hm
          · simpa [Item.isBound] using ih hm
      | bound =>
          obtain ⟨h', hm', rfl⟩ := matchHere_bound hm
          rw [List.countP_cons_of_pos rfl, ← ih hm']
          rfl

theorem search_some {before : List Char} (hs : search r s = some (before, h)) :
    ∃ s', s = before ++ s' ∧ matchHere r s' = some h := by
  induction s generalizing before with
  | nil =>
      obtain ⟨h', hm, heq⟩ := Option.map_eq_some_iff.mp hs
      obtain ⟨rfl, rfl⟩ := Prod.mk.inj heq
      exact ⟨[], rfl, hm⟩
  | cons c s ih =>
      rcases Option.or_eq_some_iff.mp hs with hs | ⟨-, hs⟩
      · obtain ⟨h', hm, heq⟩ := Option.map_eq_some_iff.mp hs
        obtain ⟨rfl, rfl⟩ := Prod.mk.inj heq
        exact ⟨c :: s, rfl, hm⟩
      · obtain ⟨⟨front, h'⟩, hs', heq⟩ := Option.map_eq_some_iff.mp hs
        obtain ⟨rfl, rfl⟩ := Prod.mk.inj heq
        obtain ⟨s', rfl, hm⟩ := ih hs'
        exact ⟨s', rfl, hm⟩

/-- A replacement takes nothing from outside the match. -/
theorem notMem_replaceFirst {f : (Nat → List Char) → List Char} {c : Char} (hc : c ∉ s)
    (hf : ∀ g : Nat → List Char, (∀ i, c ∉ g i) → c ∉ f g) : c ∉ replaceFirst r f s := by
  unfold replaceFirst
  split
  · exact hc
  next before h hs =>
    obtain ⟨s', rfl, hm⟩ := search_some hs
    obtain rfl := matchHere_text hm
    rw [List.mem_append, List.mem_append, not_or, not_or] at hc ⊢
    exact ⟨hc.1, hf _ fun i hi => hc.2.1 (Hit.mem_text_of_mem_group hi), hc.2.2⟩

/-- A replacement of a text that has no match is no change. -/
theorem replaceFirst_of_not_occurs {f : (Nat → List Char) → List Char} (hs : occurs r s = false) :
    replaceFirst r f s = s := by
  rw [occurs, Option.isSome_eq_false_iff, Option.isNone_iff_eq_none] at hs
  rw [replaceFirst, hs]

end Shape

/-! ### The texts of a pattern -/

/-- The text is one of the pattern's; for patterns that do not look ahead. -/
def Takes : Pattern → List Char → Prop
  | [], w => w = []
  | .one p :: r, w => ∃ c w', w = c :: w' ∧ p c = true ∧ Takes r w'
  | .many _ p :: r, w => ∃ a w', w = a ++ w' ∧ (∀ c ∈ a, p c = true) ∧ Takes r w'
  | .bound :: r, w => Takes r w
  | .word _ :: _, _ => False
  | .ahead _ :: _, _ => False
  | .notNext _ :: _, _ => False

/-- The items that `Takes` speaks of. -/
def Item.plain : Item → Bool
  | .one _ => true
  | .many _ _ => true
  | .bound => true
  | .word _ => false
  | .ahead _ => false
  | .notNext _ => false

section Takes

variable {r : Pattern} {s w v : List Char}

theorem takes_append {r' : Pattern} (h : Takes (r ++ r') w) :
    ∃ w₁ w₂, w = w₁ ++ w₂ ∧ Takes r w₁ ∧ Takes r' w₂ := by
  induction r generalizing w with
  | nil => exact ⟨[], w, rfl, rfl, h⟩
  | cons item r ih =>
      cases item with
      | one p =>
          obtain ⟨c, w, rfl, hp, h⟩ := h
          obtain ⟨w₁, w₂, rfl, h₁, h₂⟩ := ih h
          exact ⟨c :: w₁, w₂, rfl, ⟨c, w₁, rfl, hp, h₁⟩, h₂⟩
      | many lazy p =>
          obtain ⟨a, w, rfl, ha, h⟩ := h
          obtain ⟨w₁, w₂, rfl, h₁, h₂⟩ := ih h
          exact ⟨a ++ w₁, w₂, (List.append_assoc a w₁ w₂).symm, ⟨a, w₁, rfl, ha, h₁⟩, h₂⟩
      | bound => exact ih h
      | word ws => exact h.elim
      | ahead ws => exact h.elim
      | notNext p => exact h.elim

theorem Takes.append {r' : Pattern} {w' : List Char} (h : Takes r w) (h' : Takes r' w') :
    Takes (r ++ r') (w ++ w') := by
  induction r generalizing w with
  | nil =>
      obtain rfl : w = [] := h
      exact h'
  | cons item r ih =>
      cases item with
      | one p =>
          obtain ⟨c, w, rfl, hp, h⟩ := h
          exact ⟨c, w ++ w', rfl, hp, ih h⟩
      | many lazy p =>
          obtain ⟨a, w, rfl, ha, h⟩ := h
          exact ⟨a, w ++ w', List.append_assoc a w w', ha, ih h⟩
      | bound => exact ih h
      | word ws => exact h.elim
      | ahead ws => exact h.elim
      | notNext p => exact h.elim

theorem takes_lit {x : String} : Takes (lit x) w ↔ w = x.toList := by
  unfold lit
  generalize x.toList = x
  induction x generalizing w with
  | nil => exact Iff.rfl
  | cons c x ih =>
      constructor
      · rintro ⟨d, w, rfl, hd, h⟩
        rw [ih.mp h, eq_of_beq hd]
      · rintro rfl
        exact ⟨c, x, rfl, beq_self_eq_true c, ih.mpr rfl⟩

theorem takes_lit_self (x : String) : Takes (lit x) x.toList := takes_lit.mpr rfl

theorem takes_many_lit {lazy : Bool} {p : Char → Bool} {x : String} :
    Takes (.many lazy p :: lit x) w ↔ ∃ y, w = y ++ x.toList ∧ ∀ c ∈ y, p c = true := by
  constructor
  · rintro ⟨y, w', rfl, hy, hw⟩
    exact ⟨y, by rw [takes_lit.mp hw], hy⟩
  · rintro ⟨y, rfl, hy⟩
    exact ⟨y, _, rfl, hy, takes_lit.mpr rfl⟩

theorem repeats_isSome {lazy : Bool} {p : Char → Bool} {k : List Char → Option Hit} {a : List Char}
    (ha : ∀ c ∈ a, p c = true) (hk : (k s).isSome = true) :
    (repeats lazy p k (a ++ s)).isSome = true := by
  induction a with
  | nil =>
      cases s with
      | nil => exact hk
      | cons c s =>
          rw [List.nil_append]
          simp only [repeats]
          split <;> simp [Option.isSome_or, hk]
  | cons c a ih =>
      have hp : p c = true := ha c List.mem_cons_self
      have ih := ih fun d hd => ha d (List.mem_cons_of_mem c hd)
      rw [List.cons_append]
      simp only [repeats, hp]
      split <;> simp [Option.isSome_or, ih]

/-- A pattern is matched where one of its texts is. -/
theorem Takes.matchHere_isSome (h : Takes r w) (v : List Char) : (matchHere r (w ++ v)).isSome = true := by
  induction r generalizing w with
  | nil => rfl
  | cons item r ih =>
      cases item with
      | one p =>
          obtain ⟨c, w, rfl, hp, h⟩ := h
          simp [matchHere, hp, ih h]
      | many lazy p =>
          obtain ⟨a, w, rfl, ha, h⟩ := h
          rw [List.append_assoc]
          exact repeats_isSome ha (ih h)
      | bound => simp [matchHere, ih (show Takes r w from h)]
      | word ws => exact h.elim
      | ahead ws => exact h.elim
      | notNext p => exact h.elim

theorem takes_of_matchHere {h : Hit} (hr : r.all Item.plain = true) (hm : matchHere r s = some h) :
    Takes r h.text := by
  induction r generalizing s h with
  | nil =>
      obtain rfl := matchHere_nil hm
      rfl
  | cons item r ih =>
      rw [List.all_cons, Bool.and_eq_true] at hr
      cases item with
      | one p =>
          obtain ⟨c, s', h', rfl, hp, hm', rfl⟩ := matchHere_one hm
          exact ⟨c, h'.text, Hit.grow_text [c] h', hp, ih hr.2 hm'⟩
      | many lazy p =>
          obtain ⟨a, s', h', rfl, ha, hm', rfl⟩ := matchHere_many hm
          exact ⟨a, h'.text, Hit.grow_text a h', ha, ih hr.2 hm'⟩
      | bound =>
          obtain ⟨h', hm', rfl⟩ := matchHere_bound hm
          rw [Hit.cut_text]
          exact ih hr.2 hm'
      | word ws => simp [Item.plain] at hr
      | ahead ws => simp [Item.plain] at hr
      | notNext p => simp [Item.plain] at hr

/-- The search stops at the first place where there is a match. -/
theorem search_of_matchHere {u : List Char} (h : (matchHere r s).isSome = true) :
    ∃ before hit, search r (u ++ s) = some (before, hit) ∧ before.length ≤ u.length := by
  induction u with
  | nil =>
      obtain ⟨hit, hm⟩ := Option.isSome_iff_exists.mp h
      refine ⟨[], hit, ?_, Nat.le_refl 0⟩
      cases s with
      | nil => simp [search, hm]
      | cons c s => simp [search, hm]
  | cons c u ih =>
      obtain ⟨before, hit, hs, hlen⟩ := ih
      rw [List.cons_append, search, hs]
      cases matchHere r (c :: (u ++ s)) with
      | some hit => exact ⟨[], hit, rfl, Nat.zero_le _⟩
      | none => exact ⟨c :: before, hit, rfl, Nat.succ_le_succ hlen⟩

theorem search_leftmost {before u : List Char} {h : Hit} (hs : search r s = some (before, h))
    (hw : Takes r w) (heq : s = u ++ (w ++ v)) : before.length ≤ u.length := by
  obtain ⟨before', h', hs', hlen⟩ := search_of_matchHere (u := u) (hw.matchHere_isSome v)
  rw [← heq, hs] at hs'
  rwa [(Prod.mk.inj (Option.some.inj hs')).1]

theorem Takes.occurs {u : List Char} (hw : Takes r w) : occurs r (u ++ (w ++ v)) = true := by
  obtain ⟨before, h, hs, -⟩ := search_of_matchHere (u := u) (hw.matchHere_isSome v)
  rw [TextPattern.occurs, hs]
  rfl

theorem exists_takes (hr : r.all Item.plain = true) (h : occurs r s = true) :
    ∃ u w v, s = u ++ (w ++ v) ∧ Takes r w := by
  obtain ⟨⟨before, hit⟩, hs⟩ := Option.isSome_iff_exists.mp h
  obtain ⟨s', rfl, hm⟩ := search_some hs
  refine ⟨before, hit.text, hit.rest, ?_, takes_of_matchHere hr hm⟩
  rw [← matchHere_text hm]

/-- A match in a piece of a text is one in the text. -/
theorem occurs_of_infix {t : List Char} (hr : r.all Item.plain = true) (h : occurs r s = true)
    (hst : s <:+: t) : occurs r t = true := by
  obtain ⟨u, w, v, rfl, hw⟩ := exists_takes hr h
  obtain ⟨front, back, rfl⟩ := hst
  have := hw.occurs (u := front ++ u) (v := v ++ back)
  simpa only [List.append_assoc] using this

theorem lit_plain (x : String) : (lit x).all Item.plain = true := by
  unfold lit
  rw [List.all_map]
  exact List.all_eq_true.mpr fun _ _ => rfl

theorem lit_bounds (x : String) : (lit x).countP Item.isBound = 0 := by
  unfold lit
  rw [List.countP_eq_zero]
  rintro item hitem
  obtain ⟨c, -, rfl⟩ := List.mem_map.mp hitem
  exact Bool.false_ne_true

/-- `x in s` -/
theorem contains_iff {x : String} : contains x s = true ↔ x.toList <:+: s := by
  constructor
  · intro h
    obtain ⟨u, w, v, rfl, hw⟩ := exists_takes (lit_plain x) h
    rw [takes_lit.mp hw]
    exact ⟨u, v, List.append_assoc u _ v⟩
  · rintro ⟨u, v, rfl⟩
    rw [List.append_assoc]
    exact (takes_lit.mpr rfl).occurs

end Takes

/-! ### Words and replacements -/

section Words

variable {x : String} {s t u v : List Char}

theorem contains_of_infix (h : contains x s = true) (hst : s <:+: t) : contains x t = true :=
  contains_iff.mpr ((contains_iff.mp h).trans hst)

/-- A word with no newline behind its first character is on one side of a newline. -/
theorem contains_newline (hx : '\n' ∉ x.toList.tail) (h : contains x (u ++ '\n' :: v) = true) :
    contains x u = true ∨ contains x ('\n' :: v) = true := by
  simp only [contains_iff] at h ⊢
  obtain ⟨front, back, heq⟩ := h
  rw [List.append_assoc] at heq
  rcases List.append_eq_append_iff.mp heq with ⟨a, rfl, hword⟩ | ⟨a, rfl, hback⟩
  · rcases List.append_eq_append_iff.mp hword with ⟨m, rfl, -⟩ | ⟨m, hw, hm⟩
    · exact Or.inl ⟨front, m, List.append_assoc front _ m⟩
    · cases a with
      | nil => exact Or.inr ⟨[], back, hword⟩
      | cons c a =>
          cases m with
          | nil => exact Or.inl ⟨front, [], by simp [hw]⟩
          | cons d m =>
              obtain ⟨rfl, -⟩ := List.cons_eq_cons.mp hm
              rw [hw] at hx
              simp at hx
  · exact Or.inr ⟨a, back, by simpa using hback.symm⟩

/-- A replacement is no change, or it replaces a text of the pattern. -/
theorem replaceFirst_cases (r : Pattern) (f : (Nat → List Char) → List Char) (s : List Char) :
    (occurs r s = false ∧ replaceFirst r f s = s) ∨ ∃ before h, search r s = some (before, h) ∧
      replaceFirst r f s = before ++ (f h.group ++ h.rest) := by
  cases hs : search r s with
  | none =>
      have hocc : occurs r s = false := by rw [occurs, hs]; rfl
      exact Or.inl ⟨hocc, replaceFirst_of_not_occurs hocc⟩
  | some found => exact Or.inr ⟨found.1, found.2, rfl, by rw [replaceFirst, hs]⟩

theorem replaceFirst_lit (x : String) (f : (Nat → List Char) → List Char) (s : List Char) :
    (occurs (lit x) s = false ∧ replaceFirst (lit x) f s = s) ∨
      ∃ u v g, s = u ++ (x.toList ++ v) ∧ g 0 = x.toList ∧ replaceFirst (lit x) f s = u ++ (f g ++ v) := by
  refine (replaceFirst_cases (lit x) f s).imp_right ?_
  rintro ⟨before, h, hs, heq⟩
  obtain ⟨s', rfl, hm⟩ := search_some hs
  rw [← List.append_nil (lit x)] at hm
  obtain ⟨v, h', rfl, hnil, rfl⟩ := matchHere_lit hm
  obtain rfl := matchHere_nil hnil
  exact ⟨before, v, _, rfl, by simp [Hit.group, Hit.grow], heq⟩

/-- A replacement behind or around the whole of a match. -/
theorem replaceFirst_whole {r : Pattern} (hr : r.all Item.plain = true)
    (hbounds : r.countP Item.isBound = 0) (f : (Nat → List Char) → List Char) (s : List Char) :
    (occurs r s = false ∧ replaceFirst r f s = s) ∨
      ∃ u v g, s = u ++ (g 0 ++ v) ∧ Takes r (g 0) ∧ replaceFirst r f s = u ++ (f g ++ v) := by
  refine (replaceFirst_cases r f s).imp_right ?_
  rintro ⟨before, h, hs, heq⟩
  obtain ⟨s', rfl, hm⟩ := search_some hs
  have htext : h.text = h.group 0 := by
    have hmore := List.length_eq_zero_iff.mp ((matchHere_groups hm).trans hbounds)
    rw [Hit.text, hmore, List.flatten_nil, List.append_nil]
    rfl
  refine ⟨before, h.rest, h.group, ?_, ?_, heq⟩
  · rw [matchHere_text hm, htext]
  · rw [← htext]
    exact takes_of_matchHere hr hm

/-- A replacement that puts a word in. -/
theorem contains_replaceFirst {r : Pattern} {f : (Nat → List Char) → List Char}
    (hocc : occurs r s = true) (hf : ∀ g, contains x (f g) = true) :
    contains x (replaceFirst r f s) = true := by
  rcases replaceFirst_cases r f s with ⟨hno, -⟩ | ⟨before, h, -, heq⟩
  · rw [hocc] at hno
    exact Bool.noConfusion hno
  · rw [heq]
    exact contains_of_infix (hf h.group) ⟨before, h.rest, List.append_assoc before _ _⟩

end Words

end TextPattern
