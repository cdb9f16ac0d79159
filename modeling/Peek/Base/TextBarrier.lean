/-
Pieces of a text that no match of a pattern goes through.

`barrier` runs every part of a pattern over a piece of text and checks that all of them die in
it.  Then the texts before and behind the piece are searched apart (`search_barrier`), so that
an edit that exchanges one such piece for another neither makes nor loses a match around it.
-/
import Peek.Base.TextPattern

namespace TextPattern

/-! ### Where no match goes through -/

/-- A run of the class `p` and what follows it die in the text; `d` says it of what follows. -/
def deadRun (p : Char → Bool) (d : List Char → Bool) : List Char → Bool
  | [] => false
  | c :: b => d (c :: b) && (!p c || deadRun p d b)

/-- Every attempt at the pattern at the beginning of the text fails before the text is over. -/
def dead : Pattern → List Char → Bool
  | [], _ => false
  | .one _ :: _, [] => false
  | .one p :: r, c :: b => !p c || dead r b
  | .many _ p :: r, b => deadRun p (dead r) b
  | .bound :: r, b => dead r b
  | .word _ :: _, _ => false
  | .ahead _ :: _, _ => false
  | .notNext _ :: _, _ => false

def endsRun (p : Char → Bool) (e : List Char → Bool) (next : Bool) : List Char → Bool
  | [] => e [] && next
  | c :: s => e (c :: s) && (!p c || endsRun p e next s)

/-- With `b` behind `s`, every match at the beginning of `s` is over at the end of `s`. -/
def ends (b : List Char) : Pattern → List Char → Bool
  | [], _ => true
  | .one p :: r, [] => dead (.one p :: r) b
  | .one p :: r, c :: s => !p c || ends b r s
  | .many _ p :: r, s => endsRun p (ends b r)
      (match b with | [] => false | c :: b => !p c || deadRun p (dead r) b) s
  | .bound :: r, s => ends b r s
  | .word _ :: _, _ => false
  | .ahead _ :: _, _ => false
  | .notNext _ :: _, _ => false

/-- No match begins in front of `b` or in `b` and goes on in `b`, where `g` is in front of `b`. -/
def barrier (r : Pattern) (g b : List Char) : Bool :=
  !b.isEmpty && (r.tails.all (fun r' => ends b r' g) &&
    (g.tails.all (fun s => ends b r s) && b.tails.all fun s => s.isEmpty || dead r s))

theorem barrier_iff {r : Pattern} {g b : List Char} : barrier r g b = true ↔
    b ≠ [] ∧ (∀ r' ∈ r.tails, ends b r' g = true) ∧ (∀ s ∈ g.tails, ends b r s = true) ∧
      ∀ s ∈ b.tails, s ≠ [] → dead r s = true := by
  simp [barrier, List.all_eq_true, or_iff_not_imp_left]

theorem repeats_of_deadRun {lazy : Bool} {p : Char → Bool} {k : List Char → Option Hit}
    {d : List Char → Bool} {b v : List Char} (hk : ∀ b, d b = true → k (b ++ v) = none)
    (h : deadRun p d b = true) : repeats lazy p k (b ++ v) = none := by
  induction b with
  | nil => simp [deadRun] at h
  | cons c b ih =>
      simp only [deadRun, Bool.and_eq_true, Bool.or_eq_true, Bool.not_eq_true'] at h
      have hlonger : (if p c then (repeats lazy p k (b ++ v)).map (Hit.grow [c]) else none) = none := by
        rcases h.2 with hp | hd
        · simp [hp]
        · simp [ih hd]
      have hstop : k (c :: (b ++ v)) = none := hk (c :: b) h.1
      simp [repeats, hlonger, hstop]

theorem matchHere_of_dead {r : Pattern} {b v : List Char} (h : dead r b = true) :
    matchHere r (b ++ v) = none := by
  induction r generalizing b with
  | nil => simp [dead] at h
  | cons item r ih =>
      cases item with
      | one p =>
          cases b with
          | nil => simp [dead] at h
          | cons c b =>
              simp only [dead, Bool.or_eq_true, Bool.not_eq_true'] at h
              rcases h with hp | hd
              · simp [matchHere, hp]
              · simp [matchHere, ih hd]
      | many lazy p => exact repeats_of_deadRun (fun b hb => ih hb) h
      | bound =>
          have h : dead r b = true := h
          simp [matchHere, ih h]
      | word ws => simp [dead] at h
      | ahead ws => simp [dead] at h
      | notNext p => simp [dead] at h

theorem repeats_of_endsRun {lazy : Bool} {p : Char → Bool} {k : List Char → Option Hit}
    {e : List Char → Bool} {next : Bool} {s w : List Char}
    (hk : ∀ s, e s = true → k (s ++ w) = (k s).map (Hit.extend w))
    (hnext : next = true → ∀ c w', w = c :: w' → p c = true → repeats lazy p k w' = none)
    (h : endsRun p e next s = true) :
    repeats lazy p k (s ++ w) = (repeats lazy p k s).map (Hit.extend w) := by
  induction s with
  | nil =>
      simp only [endsRun, Bool.and_eq_true] at h
      have hend := hk [] h.1
      rw [List.nil_append] at hend ⊢
      cases w with
      | nil => simpa [repeats] using hend
      | cons c w =>
          have hlonger : (if p c then (repeats lazy p k w).map (Hit.grow [c]) else none) = none := by
            by_cases hp : p c = true
            · simp [hnext h.2 c w rfl hp]
            · simp [hp]
          simp [repeats, hlonger, hend]
  | cons c s ih =>
      simp only [endsRun, Bool.and_eq_true, Bool.or_eq_true, Bool.not_eq_true'] at h
      have hstop := hk (c :: s) h.1
      have hlonger : (if p c then (repeats lazy p k (s ++ w)).map (Hit.grow [c]) else none) =
          (if p c then (repeats lazy p k s).map (Hit.grow [c]) else none).map (Hit.extend w) := by
        rcases h.2 with hp | hd
        · simp [hp]
        · rw [ih hd]
          split
          · rw [Option.map_map, Option.map_map]
            rfl
          · rfl
      rw [List.cons_append] at hstop ⊢
      simp only [repeats, hlonger, hstop]
      split
      · rw [Option.map_or]
      · rw [Option.map_or]

/-- A match that is over at the end of `s` is there whatever comes behind. -/
theorem matchHere_of_ends {b : List Char} {r : Pattern} {s v : List Char} (h : ends b r s = true) :
    matchHere r (s ++ (b ++ v)) = (matchHere r s).map (Hit.extend (b ++ v)) := by
  induction r generalizing s with
  | nil => rfl
  | cons item r ih =>
      cases item with
      | one p =>
          cases s with
          | nil => rw [List.nil_append, matchHere_of_dead h]; rfl
          | cons c s =>
              simp only [ends, Bool.or_eq_true, Bool.not_eq_true'] at h
              rw [List.cons_append]
              simp only [matchHere]
              rcases h with hp | he
              · simp [hp]
              · rw [ih he]
                split
                · rw [Option.map_map, Option.map_map]
                  rfl
                · rfl
      | many lazy p =>
          refine repeats_of_endsRun (fun s hs => ih hs) ?_ h
          intro hnext c w' hw hp
          cases b with
          | nil => simp at hnext
          | cons d b =>
              obtain ⟨rfl, rfl⟩ := List.cons_eq_cons.mp hw
              simp only [Bool.or_eq_true, Bool.not_eq_true', hp, Bool.true_eq_false, false_or] at hnext
              exact repeats_of_deadRun (fun b hb => matchHere_of_dead hb) hnext
      | bound =>
          have h : ends b r s = true := h
          simp only [matchHere, ih h, Option.map_map]
          rfl
      | word ws => simp [ends] at h
      | ahead ws => simp [ends] at h
      | notNext p => simp [ends] at h

/-- A run that ends whatever it has taken so far. -/
theorem endsRun_append {p : Char → Bool} {e : List Char → Bool} {next : Bool} {g : List Char}
    (he : ∀ u, e (u ++ g) = true) (h : endsRun p e next g = true) (u : List Char) :
    endsRun p e next (u ++ g) = true := by
  induction u with
  | nil => exact h
  | cons c u ih =>
      have hstop : e (c :: (u ++ g)) = true := he (c :: u)
      simp [endsRun, hstop, ih]

theorem ends_append {b : List Char} {r : Pattern} {g : List Char}
    (h : ∀ r' ∈ r.tails, ends b r' g = true) (u : List Char) : ends b r (u ++ g) = true := by
  induction r generalizing u with
  | nil => rfl
  | cons item r ih =>
      have hall := h (item :: r) (by simp)
      have ih := ih fun r' hr' => h r' (by rw [List.tails]; exact List.mem_cons_of_mem _ hr')
      cases item with
      | one p =>
          cases u with
          | nil => exact hall
          | cons c u => simp [ends, ih u]
      | many lazy p => exact endsRun_append ih hall u
      | bound => exact ih u
      | word ws => simp [ends] at hall
      | ahead ws => simp [ends] at hall
      | notNext p => simp [ends] at hall

/-- Nothing begins in a piece that every attempt dies in. -/
theorem search_of_dead {r : Pattern} {b v : List Char}
    (h : ∀ s ∈ b.tails, s ≠ [] → dead r s = true) :
    search r (b ++ v) = (search r v).map fun f => (b ++ f.1, f.2) := by
  induction b with
  | nil => simp
  | cons c b ih =>
      have hhere : matchHere r (c :: (b ++ v)) = none :=
        matchHere_of_dead (b := c :: b) (h (c :: b) (by simp) (List.cons_ne_nil c b))
      have ih := ih fun s hs => h s (by rw [List.tails]; exact List.mem_cons_of_mem _ hs)
      rw [List.cons_append, search, hhere, ih]
      simp only [Option.map_none, Option.none_or, Option.map_map]
      rfl

theorem search_of_ends {r : Pattern} {t b v : List Char} (hb : b ≠ [])
    (ht : ∀ s ∈ t.tails, ends b r s = true) (hd : ∀ s ∈ b.tails, s ≠ [] → dead r s = true) :
    search r (t ++ (b ++ v)) = ((search r t).map fun f => (f.1, f.2.extend (b ++ v))).or
      ((search r v).map fun f => (t ++ (b ++ f.1), f.2)) := by
  induction t with
  | nil =>
      have hnone : matchHere r [] = none := by
        have hhere := matchHere_of_ends (v := v) (ht [] (by simp))
        rw [List.nil_append, matchHere_of_dead (hd b (by simp) hb)] at hhere
        exact Option.map_eq_none_iff.mp hhere.symm
      simp only [List.nil_append, search_of_dead hd, search, hnone, Option.map_none, Option.none_or]
  | cons c t ih =>
      have hhere := matchHere_of_ends (v := v) (ht (c :: t) (by simp))
      have ih := ih fun s hs => ht s (by rw [List.tails]; exact List.mem_cons_of_mem _ hs)
      rw [List.cons_append] at hhere ⊢
      rw [search, search, hhere, ih]
      simp only [Option.map_or, Option.map_map, Option.or_assoc]
      rfl

/-- The texts before and behind a barrier are searched apart. -/
theorem search_barrier {r : Pattern} {g b : List Char} (h : barrier r g b = true) (u v : List Char) :
    search r (u ++ g ++ (b ++ v)) =
      ((search r (u ++ g)).map fun f => (f.1, f.2.extend (b ++ v))).or
        ((search r v).map fun f => (u ++ g ++ (b ++ f.1), f.2)) := by
  obtain ⟨hb, htails, hg, hd⟩ := barrier_iff.mp h
  refine search_of_ends hb (fun s hs => ?_) hd
  obtain ⟨front, heq⟩ := List.mem_tails _ _ |>.mp hs
  rcases List.append_eq_append_iff.mp heq with ⟨mid, rfl, rfl⟩ | ⟨mid, rfl, rfl⟩
  · exact ends_append htails mid
  · exact hg s ((List.mem_tails _ _).mpr ⟨mid, rfl⟩)

/-! ### Pieces no match goes through -/

/-- The texts before and behind the piece are searched apart. -/
def Splits (r : Pattern) (b : List Char) : Prop :=
  ∀ u v, search r (u ++ (b ++ v)) = ((search r u).map fun f => (f.1, f.2.extend (b ++ v))).or
    ((search r v).map fun f => (u ++ (b ++ f.1), f.2))

theorem splits_of_barrier {r : Pattern} {b : List Char} (h : barrier r [] b = true) : Splits r b := by
  intro u v
  simpa using search_barrier h u v

namespace Splits

variable {r : Pattern} {b : List Char}

/-- Two such pieces and a text between them that has no match. -/
theorem gap {w b' : List Char} (h : Splits r b) (hw : occurs r w = false) (h' : Splits r b') :
    Splits r (b ++ (w ++ b')) := by
  intro u v
  rw [occurs, Option.isSome_eq_false_iff, Option.isNone_iff_eq_none] at hw
  have hmid := h' w v
  rw [hw, Option.map_none, Option.none_or] at hmid
  have hall := h u (w ++ (b' ++ v))
  rw [hmid, Option.map_map] at hall
  simp only [List.append_assoc] at hall ⊢
  rw [hall]
  rfl

theorem occurs_iff (h : Splits r b) (u v : List Char) :
    occurs r (u ++ (b ++ v)) = (occurs r u || occurs r v) := by
  rw [occurs, h u v, Option.isSome_or, Option.isSome_map, Option.isSome_map]
  rfl

/-- What is put in its place leaves the first replacement where it was. -/
theorem replaceFirst_eq (h : Splits r b) (f : (Nat → List Char) → List Char) (u v : List Char) :
    replaceFirst r f (u ++ (b ++ v)) =
      if occurs r u then replaceFirst r f u ++ (b ++ v) else u ++ (b ++ replaceFirst r f v) := by
  unfold replaceFirst occurs
  rw [h u v]
  cases search r u with
  | some found => simp [List.append_assoc]
  | none =>
      cases search r v with
      | some found => simp [List.append_assoc]
      | none => simp

/-- A replacement that does nothing goes on doing nothing when the piece is exchanged. -/
theorem replaceFirst_fixed {b' : List Char} (h : Splits r b) (h' : Splits r b')
    {f : (Nat → List Char) → List Char} {u v : List Char}
    (hfix : replaceFirst r f (u ++ (b ++ v)) = u ++ (b ++ v)) :
    replaceFirst r f (u ++ (b' ++ v)) = u ++ (b' ++ v) := by
  rw [h.replaceFirst_eq] at hfix
  rw [h'.replaceFirst_eq]
  split at hfix
  next hocc => rw [if_pos hocc, List.append_cancel_right hfix]
  next hocc => rw [if_neg hocc, List.append_cancel_left (List.append_cancel_left hfix)]

end Splits

/-! ### The same for the texts of a pattern -/

section Takes

variable {r : Pattern} {g b s w v : List Char}

theorem Takes.length_le {rest : List Char} (h : ends b r s = true) (hw : Takes r w)
    (heq : w ++ rest = s ++ (b ++ v)) : w.length ≤ s.length := by
  induction r generalizing s w with
  | nil =>
      obtain rfl : w = [] := hw
      exact Nat.zero_le _
  | cons item r ih =>
      cases item with
      | one p =>
          obtain ⟨c, w', rfl, hp, hw'⟩ := id hw
          cases s with
          | nil =>
              have hsome := hw.matchHere_isSome rest
              rw [heq, List.nil_append, matchHere_of_dead h] at hsome
              exact absurd hsome Bool.false_ne_true
          | cons d s =>
              obtain ⟨rfl, htail⟩ := List.cons_eq_cons.mp heq
              simp only [ends, hp, Bool.not_true, Bool.false_or] at h
              exact Nat.succ_le_succ (ih h hw' htail)
      | many lazy p =>
          obtain ⟨a, w', rfl, ha, hw'⟩ := hw
          simp only [ends] at h
          induction s generalizing a with
          | nil =>
              simp only [endsRun, Bool.and_eq_true] at h
              cases a with
              | nil => exact ih h.1 hw' heq
              | cons c a =>
                  cases b with
                  | nil => exact absurd h.2 Bool.false_ne_true
                  | cons d b =>
                      obtain ⟨rfl, htail⟩ := List.cons_eq_cons.mp heq
                      have hnext := h.2
                      simp only [ha c List.mem_cons_self, Bool.not_true, Bool.false_or] at hnext
                      have hsome : (repeats lazy p (matchHere r) (a ++ (w' ++ rest))).isSome = true :=
                        repeats_isSome (fun d hd => ha d (List.mem_cons_of_mem c hd))
                          (hw'.matchHere_isSome rest)
                      have htail : a ++ w' ++ rest = b ++ v := htail
                      rw [← List.append_assoc, htail,
                        repeats_of_deadRun (fun b hb => matchHere_of_dead hb) hnext] at hsome
                      exact absurd hsome Bool.false_ne_true
          | cons d s ihs =>
              simp only [endsRun, Bool.and_eq_true, Bool.or_eq_true, Bool.not_eq_true'] at h
              cases a with
              | nil => exact ih h.1 hw' heq
              | cons c a =>
                  obtain ⟨rfl, htail⟩ := List.cons_eq_cons.mp heq
                  have hrun := h.2.resolve_left (by simp [ha c List.mem_cons_self])
                  exact Nat.succ_le_succ
                    (ihs hrun a htail fun d hd => ha d (List.mem_cons_of_mem c hd))
      | bound => exact ih (show ends b r s = true from h) hw heq
      | word ws => exact hw.elim
      | ahead ws => exact hw.elim
      | notNext p => exact hw.elim

/-- A match is in front of the barrier or behind it. -/
theorem Takes.apart {front rest u : List Char} (h : barrier r g b = true) (hw : Takes r w)
    (heq : front ++ (w ++ rest) = u ++ g ++ (b ++ v)) :
    (∃ m, u ++ g = front ++ (w ++ m) ∧ rest = m ++ (b ++ v)) ∨
      ∃ m, front = u ++ g ++ (b ++ m) ∧ v = m ++ (w ++ rest) := by
  obtain ⟨-, htails, hg, hd⟩ := barrier_iff.mp h
  rcases List.append_eq_append_iff.mp heq with ⟨s, hs, heq⟩ | ⟨a, rfl, hrest⟩
  · have hends : ends b r s = true := by
      rcases List.append_eq_append_iff.mp hs with ⟨mid, -, rfl⟩ | ⟨mid, -, rfl⟩
      · exact hg s ((List.mem_tails _ _).mpr ⟨mid, rfl⟩)
      · exact ends_append htails mid
    have hlen := hw.length_le hends heq
    obtain ⟨m, rfl⟩ : w <+: s :=
      List.prefix_of_prefix_length_le ⟨rest, rfl⟩ ⟨b ++ v, heq.symm⟩ hlen
    rw [List.append_assoc, List.append_cancel_left_eq] at heq
    exact Or.inl ⟨m, hs, heq⟩
  · rcases List.append_eq_append_iff.mp hrest with ⟨m, rfl, hv⟩ | ⟨s, rfl, hs⟩
    · exact Or.inr ⟨m, rfl, hv⟩
    · -- The match would begin in the barrier itself.
      rcases eq_or_ne s [] with rfl | hne
      · exact Or.inr ⟨[], by simp, hs.symm⟩
      · have hsome := hw.matchHere_isSome rest
        rw [hs, matchHere_of_dead (hd s ((List.mem_tails _ _).mpr ⟨a, rfl⟩) hne)] at hsome
        exact absurd hsome Bool.false_ne_true

/-- A match around a barrier is one in any text that has what is before and behind it. -/
theorem occurs_of_barrier {u t : List Char} (hr : r.all Item.plain = true) (h : barrier r g b = true)
    (hu : u ++ g <:+: t) (hv : v <:+: t) (hocc : occurs r (u ++ g ++ (b ++ v)) = true) :
    occurs r t = true := by
  rw [occurs, search_barrier h, Option.isSome_or, Option.isSome_map, Option.isSome_map,
    Bool.or_eq_true] at hocc
  rcases hocc with hocc | hocc
  · exact occurs_of_infix hr hocc hu
  · exact occurs_of_infix hr hocc hv

/-- The item takes no character of the list. -/
def Item.rejects (cs : List Char) : Item → Bool
  | .one p => cs.all fun c => !p c
  | .many _ _ => false
  | .word _ => false
  | .ahead _ => false
  | .notNext _ => false
  | .bound => false

theorem Takes.exists_mem {p : Char → Bool} (hw : Takes r w) (hp : Item.one p ∈ r) :
    ∃ c ∈ w, p c = true := by
  induction r generalizing w with
  | nil => simp at hp
  | cons item r ih =>
      rcases List.mem_cons.mp hp with rfl | hmem
      · obtain ⟨c, w, rfl, hc, -⟩ := hw
        exact ⟨c, List.mem_cons_self, hc⟩
      · cases item with
        | one q =>
            obtain ⟨c, w, rfl, -, hw⟩ := hw
            obtain ⟨d, hd, hpd⟩ := ih hw hmem
            exact ⟨d, List.mem_cons_of_mem c hd, hpd⟩
        | many lazy q =>
            obtain ⟨a, w, rfl, -, hw⟩ := hw
            obtain ⟨d, hd, hpd⟩ := ih hw hmem
            exact ⟨d, List.mem_append_right a hd, hpd⟩
        | bound => exact ih hw hmem
        | word ws => exact hw.elim
        | ahead ws => exact hw.elim
        | notNext q => exact hw.elim

/-- No match in a text of characters that some item of the pattern does not take. -/
theorem not_occurs_of_rejects {cs : List Char} (hr : r.all Item.plain = true)
    (hrej : r.any (Item.rejects cs) = true) (hs : ∀ c ∈ s, c ∈ cs) : occurs r s = false := by
  obtain ⟨item, hitem, hrej⟩ := List.any_eq_true.mp hrej
  cases item with
  | one p =>
      refine Bool.eq_false_iff.mpr fun hocc => ?_
      obtain ⟨u, w, v, rfl, hw⟩ := exists_takes hr hocc
      obtain ⟨c, hc, hp⟩ := hw.exists_mem hitem
      have hcs : c ∈ cs := hs c (List.mem_append_right u (List.mem_append_left v hc))
      have := List.all_eq_true.mp hrej c hcs
      simp [hp] at this
  | many lazy p => exact absurd hrej Bool.false_ne_true
  | word ws => exact absurd hrej Bool.false_ne_true
  | ahead ws => exact absurd hrej Bool.false_ne_true
  | notNext p => exact absurd hrej Bool.false_ne_true
  | bound => exact absurd hrej Bool.false_ne_true

end Takes

/-! ### Putting in lines -/

/-- The edit is no change, or it puts the text `b` in at an end of line. -/
def Inserts (edit : List Char → List Char) (b : List Char) : Prop :=
  ∀ t, edit t = t ∨ ∃ u v, t = u ++ '\n' :: v ∧ edit t = u ++ (b ++ '\n' :: v)

namespace Inserts

variable {edit : List Char → List Char} {b t : List Char}

/-- A word of one line stays. -/
theorem keeps {x : String} (h : Inserts edit b) (hx : '\n' ∉ x.toList.tail) (ht : contains x t = true) :
    contains x (edit t) = true := by
  rcases h t with heq | ⟨u, v, rfl, heq⟩
  · rw [heq]
    exact ht
  · rw [heq]
    rcases contains_newline hx ht with hu | hv
    · exact contains_of_infix hu ⟨[], b ++ '\n' :: v, rfl⟩
    · exact contains_of_infix hv ⟨u ++ b, [], by simp⟩

/-- A pattern that dies in the lines is not found because of them. -/
theorem avoids {r : Pattern} (h : Inserts edit b) (hr : r.all Item.plain = true)
    (hb : barrier r [] b = true) (hocc : occurs r (edit t) = true) : occurs r t = true := by
  rcases h t with heq | ⟨u, v, rfl, heq⟩
  · rwa [heq] at hocc
  · rw [heq, ← List.append_nil u] at hocc
    exact occurs_of_barrier hr hb ⟨[], '\n' :: v, by simp⟩ ⟨u, [], by simp⟩ hocc

/-- The same for a pattern that may end with the line before. -/
theorem avoids_line {r : Pattern} {lines : List Char} (h : Inserts edit ('\n' :: lines))
    (hr : r.all Item.plain = true) (hb : barrier r ['\n'] (lines ++ ['\n']) = true)
    (hocc : occurs r (edit t) = true) : occurs r t = true := by
  rcases h t with heq | ⟨u, v, rfl, heq⟩
  · rwa [heq] at hocc
  · have hsplit : u ++ ('\n' :: lines ++ '\n' :: v) = u ++ ['\n'] ++ (lines ++ ['\n'] ++ v) := by simp
    rw [heq, hsplit] at hocc
    exact occurs_of_barrier hr hb ⟨[], v, by simp⟩ ⟨u ++ ['\n'], [], by simp⟩ hocc

/-- The same for a word of one line, or for one that begins with the end of the line before. -/
theorem avoids_word {x : String} {lines : List Char} (h : Inserts edit ('\n' :: lines))
    (hx : '\n' ∉ x.toList.tail) (hb : contains x ('\n' :: lines) = false)
    (hocc : contains x (edit t) = true) : contains x t = true := by
  rcases h t with heq | ⟨u, v, rfl, heq⟩
  · rwa [heq] at hocc
  · rw [heq] at hocc
    rcases contains_newline hx hocc with hu | hrest
    · exact contains_of_infix hu ⟨[], '\n' :: v, rfl⟩
    · rcases contains_newline (u := '\n' :: lines) hx hrest with hlines | hv
      · exact absurd hlines (Bool.eq_false_iff.mp hb)
      · exact contains_of_infix hv ⟨u, [], by simp⟩

/-- A replacement within a line that does nothing goes on doing nothing. -/
theorem replaceFirst_fixed {r : Pattern} {f : (Nat → List Char) → List Char} (h : Inserts edit b)
    (hnewline : barrier r [] ['\n'] = true) (hb : barrier r [] (b ++ ['\n']) = true)
    (hfix : replaceFirst r f t = t) : replaceFirst r f (edit t) = edit t := by
  rcases h t with heq | ⟨u, v, rfl, heq⟩
  · rw [heq, hfix]
  · have := (splits_of_barrier hnewline).replaceFirst_fixed (splits_of_barrier hb) hfix
    rw [heq]
    simpa using this

/-- Lines put in behind a match that ends with its line. -/
theorem behind {r : Pattern} {lines : String} (hr : r.all Item.plain = true)
    (hbounds : r.countP Item.isBound = 0) (hend : ∀ w, Takes r w → ∃ l, w = l ++ ['\n'])
    (hlines : ∃ l, lines.toList = l ++ ['\n']) :
    Inserts (replaceFirst r fun g => g 0 ++ lines.toList) ('\n' :: lines.toList.dropLast) := by
  obtain ⟨l', hlines⟩ := hlines
  intro t
  refine (replaceFirst_whole hr hbounds _ t).imp And.right ?_
  rintro ⟨u, v, g, rfl, hg, heq⟩
  obtain ⟨l, hl⟩ := hend (g 0) hg
  exact ⟨u ++ l, v, by simp [hl], by rw [heq]; simp [hl, hlines]⟩

theorem behind_lit {x lines : String} (hx : ∃ l, x.toList = l ++ ['\n'])
    (hlines : ∃ l, lines.toList = l ++ ['\n']) :
    Inserts (replaceFirst (lit x) fun g => g 0 ++ lines.toList) ('\n' :: lines.toList.dropLast) :=
  behind (lit_plain x) (lit_bounds x) (fun _ hw => takes_lit.mp hw ▸ hx) hlines

/-- Lines put in before a line. -/
theorem before {x : String} {b : List Char} (hx : ∃ l, x.toList = '\n' :: l) :
    Inserts (replaceFirst (lit x) fun g => b ++ g 0) b := by
  obtain ⟨l, hx⟩ := hx
  intro t
  refine (replaceFirst_lit x _ t).imp And.right ?_
  rintro ⟨u, v, g, rfl, hg, heq⟩
  exact ⟨u, l ++ v, by simp [hx], by rw [heq]; simp [hg, hx]⟩

/-- Lines put in between the lines of a word. -/
theorem within {x y : String} {l l' b : List Char} (hx : x.toList = l ++ '\n' :: l')
    (hy : y.toList = l ++ (b ++ '\n' :: l')) :
    Inserts (replaceFirst (lit x) fun _ => y.toList) b := by
  intro t
  refine (replaceFirst_lit x _ t).imp And.right ?_
  rintro ⟨u, v, g, rfl, -, heq⟩
  exact ⟨u ++ l, l' ++ v, by simp [hx], by rw [heq]; simp [hy]⟩

end Inserts

/-! ### Exchanging lines -/

/-- A match that goes over a newline begins with it. -/
def Breaks (r : Pattern) : Prop :=
  ∀ u v, occurs r (u ++ '\n' :: v) = true → occurs r u = true ∨ occurs r ('\n' :: v) = true

theorem breaks_of_barrier {r : Pattern} (hr : r.all Item.plain = true) (h : barrier r [] ['\n'] = true) :
    Breaks r := by
  intro u v hocc
  have hocc : occurs r (u ++ (['\n'] ++ v)) = true := hocc
  rw [(splits_of_barrier h).occurs_iff, Bool.or_eq_true] at hocc
  exact hocc.imp_right fun hv => occurs_of_infix hr hv ⟨['\n'], [], by simp⟩

theorem breaks_lit {x : String} (hx : '\n' ∉ x.toList.tail) : Breaks (lit x) :=
  fun _ _ hocc => contains_newline hx hocc

/-- The pattern dies in both words, and a text of the characters `cs` has no match. -/
def passesBy (r : Pattern) (head last : String) (cs : List Char) : Bool :=
  r.all Item.plain && (r.any (Item.rejects cs) && (barrier r [] head.toList && barrier r [] last.toList))

theorem splits_of_passesBy {r : Pattern} {head last : String} {cs w : List Char}
    (h : passesBy r head last cs = true) (hw : ∀ c ∈ w, c ∈ cs) :
    Splits r (head.toList ++ (w ++ last.toList)) := by
  simp only [passesBy, Bool.and_eq_true] at h
  obtain ⟨hr, hrej, hhead, hlast⟩ := h
  exact (splits_of_barrier hhead).gap (not_occurs_of_rejects hr hrej hw) (splits_of_barrier hlast)

/-- The edit is no change, or it exchanges what is between two words, and the words. -/
def Exchanges (edit : List Char → List Char) (head last : String) (cs : List Char)
    (head' last' : String) (cs' : List Char) : Prop :=
  ∀ t, edit t = t ∨ ∃ u w w' v, (∀ c ∈ w, c ∈ cs) ∧ (∀ c ∈ w', c ∈ cs') ∧
    t = u ++ (head.toList ++ (w ++ last.toList) ++ v) ∧
      edit t = u ++ (head'.toList ++ (w' ++ last'.toList) ++ v)

namespace Exchanges

variable {edit : List Char → List Char} {head last head' last' : String} {cs cs' t : List Char}

theorem keeps {x : String} (h : Exchanges edit head last cs head' last' cs')
    (hx : passesBy (lit x) head last cs = true) (ht : contains x t = true) : contains x (edit t) = true := by
  rcases h t with heq | ⟨u, w, w', v, hw, -, rfl, heq⟩
  · rw [heq]
    exact ht
  · rw [contains, (splits_of_passesBy hx hw).occurs_iff, Bool.or_eq_true] at ht
    rw [heq]
    rcases ht with hu | hv
    · exact contains_of_infix hu ⟨[], head'.toList ++ (w' ++ last'.toList) ++ v, rfl⟩
    · exact contains_of_infix hv ⟨u ++ (head'.toList ++ (w' ++ last'.toList)), [], by simp⟩

theorem avoids {r : Pattern} (h : Exchanges edit head last cs head' last' cs')
    (hr : passesBy r head' last' cs' = true) (hocc : occurs r (edit t) = true) : occurs r t = true := by
  rcases h t with heq | ⟨u, w, w', v, -, hw', rfl, heq⟩
  · rwa [heq] at hocc
  · have hplain : r.all Item.plain = true := (Bool.and_eq_true _ _ ▸ hr).1
    rw [heq, (splits_of_passesBy hr hw').occurs_iff, Bool.or_eq_true] at hocc
    rcases hocc with hu | hv
    · exact occurs_of_infix hplain hu ⟨[], head.toList ++ (w ++ last.toList) ++ v, rfl⟩
    · exact occurs_of_infix hplain hv ⟨u ++ (head.toList ++ (w ++ last.toList)), [], by simp⟩

/-- The same where the pattern may begin at the end of the last line, or go on into what both of
the first words begin with. -/
theorem avoids_line {r : Pattern} {g b b' m l l' : List Char}
    (h : Exchanges edit head last cs head' last' cs') (hr : r.all Item.plain = true) (hline : Breaks r)
    (hb : barrier r g b' = true) (hrej : r.any (Item.rejects (m ++ (cs' ++ l'))) = true)
    (hhead : head.toList = g ++ b) (hhead' : head'.toList = g ++ (b' ++ m))
    (hlast : last.toList = l ++ ['\n']) (hlast' : last'.toList = l' ++ ['\n'])
    (hocc : occurs r (edit t) = true) : occurs r t = true := by
  rcases h t with heq | ⟨u, w, w', v, -, hw', rfl, heq⟩
  · rwa [heq] at hocc
  · rw [hhead, hlast]
    have hsplit : edit (u ++ (head.toList ++ (w ++ last.toList) ++ v)) =
        u ++ (g ++ (b' ++ (m ++ (w' ++ l')))) ++ '\n' :: v := by
      rw [heq, hhead', hlast']
      simp
    rw [hsplit] at hocc
    rcases hline _ _ hocc with hocc | hv
    · have hsplit : u ++ (g ++ (b' ++ (m ++ (w' ++ l')))) = u ++ g ++ (b' ++ (m ++ (w' ++ l'))) := by simp
      have hgap : occurs r (m ++ (w' ++ l')) = false := not_occurs_of_rejects hr hrej fun c hc => by
        simp only [List.mem_append] at hc ⊢
        exact hc.imp_right (Or.imp_left (hw' c))
      rw [hsplit, occurs, search_barrier hb, Option.isSome_or, Option.isSome_map, Option.isSome_map,
        Bool.or_eq_true] at hocc
      rcases hocc with hu | hmid
      · exact occurs_of_infix hr hu ⟨[], b ++ (w ++ (l ++ ['\n'])) ++ v, by simp⟩
      · exact absurd hmid (Bool.eq_false_iff.mp hgap)
    · exact occurs_of_infix hr hv ⟨u ++ (g ++ b ++ (w ++ l)), [], by simp⟩

theorem replaceFirst_fixed {r : Pattern} {f : (Nat → List Char) → List Char}
    (h : Exchanges edit head last cs head' last' cs') (hr : passesBy r head last cs = true)
    (hr' : passesBy r head' last' cs' = true) (hfix : replaceFirst r f t = t) :
    replaceFirst r f (edit t) = edit t := by
  rcases h t with heq | ⟨u, w, w', v, hw, hw', rfl, heq⟩
  · rw [heq, hfix]
  · rw [heq]
    exact (splits_of_passesBy hr hw).replaceFirst_fixed (splits_of_passesBy hr' hw') hfix

end Exchanges

/-- A word that dies in a replaced word stays. -/
theorem contains_replaceFirst_lit {x y : String} {f : (Nat → List Char) → List Char} {t : List Char}
    (hy : barrier (lit x) [] y.toList = true) (h : contains x t = true) :
    contains x (replaceFirst (lit y) f t) = true := by
  rcases replaceFirst_lit y f t with ⟨-, heq⟩ | ⟨u, v, g, rfl, -, heq⟩
  · rw [heq]
    exact h
  · rw [heq]
    rw [contains, (splits_of_barrier hy).occurs_iff, Bool.or_eq_true] at h
    rcases h with h | h
    · exact contains_of_infix h ⟨[], f g ++ v, rfl⟩
    · exact contains_of_infix h ⟨u ++ f g, [], by simp⟩

/-- A pattern that dies in what is put in is not found because of it. -/
theorem occurs_replaceFirst {r r' : Pattern} {b t : List Char} (hr : r.all Item.plain = true)
    (hb : barrier r [] b = true) (h : occurs r (replaceFirst r' (fun _ => b) t) = true) :
    occurs r t = true := by
  rcases replaceFirst_cases r' (fun _ => b) t with ⟨-, heq⟩ | ⟨u, hit, hs, heq⟩
  · rwa [heq] at h
  · obtain ⟨s, rfl, hm⟩ := search_some hs
    obtain rfl := matchHere_text hm
    rw [heq, ← List.append_nil u] at h
    exact occurs_of_barrier hr hb ⟨[], hit.text ++ hit.rest, by simp⟩ ⟨u ++ hit.text, [], by simp⟩ h

/-- The same where it is put in behind the match. -/
theorem occurs_replaceFirst_behind {r r' : Pattern} {b t : List Char} (hr : r.all Item.plain = true)
    (hr' : r'.all Item.plain = true) (hbounds : r'.countP Item.isBound = 0)
    (hb : barrier r [] b = true)
    (h : occurs r (replaceFirst r' (fun g => g 0 ++ b) t) = true) : occurs r t = true := by
  rcases replaceFirst_whole hr' hbounds (fun g => g 0 ++ b) t with ⟨-, heq⟩ | ⟨u, v, g, rfl, -, heq⟩
  · rwa [heq] at h
  · have hsplit : u ++ (g 0 ++ b ++ v) = u ++ g 0 ++ [] ++ (b ++ v) := by simp
    rw [heq, hsplit] at h
    exact occurs_of_barrier hr hb ⟨[], v, by simp⟩ ⟨u ++ g 0, [], by simp⟩ h

end TextPattern
