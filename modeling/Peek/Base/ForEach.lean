/-
Loops over a list that carry a state and rewrite the elements in place.

A queue of requests is walked that way again and again: each turn looks at one request,
changes the request and the state, and goes on.  `forEach_sim` is the rule by which such a
loop is compared with a fold over the elements it leaves behind.
-/
import Mathlib.Logic.Basic

namespace Peek

variable {σ τ α : Type}

/-- `for a in l: s, a = f(s, a)`; the state at the end, and the elements as they are then. -/
def forEach (f : σ → α → σ × α) : σ → List α → σ × List α
  | s, [] => (s, [])
  | s, a :: l =>
      let (s, a) := f s a
      let (s, l) := forEach f s l
      (s, a :: l)

variable {f : σ → α → σ × α}

theorem forEach_cons (s : σ) (a : α) (l : List α) : forEach f s (a :: l) =
    ((forEach f (f s a).1 l).1, (f s a).2 :: (forEach f (f s a).1 l).2) := rfl

/-- What no turn changes about an element is unchanged about all of them. -/
theorem map_forEach {β : Type} (g : α → β) (hg : ∀ s a, g (f s a).2 = g a) :
    ∀ (l : List α) (s : σ), (forEach f s l).2.map g = l.map g := by
  intro l
  induction l with
  | nil => intro s; rfl
  | cons a l ih =>
      intro s
      rw [forEach_cons, List.map_cons, List.map_cons, hg, ih]

theorem length_forEach (s : σ) (l : List α) : (forEach f s l).2.length = l.length := by
  have := congrArg List.length (map_forEach (f := f) (fun _ => ()) (fun _ _ => rfl) l s)
  simpa using this

/-- What every turn does to the state, the loop does. -/
theorem forEach_rel {R : σ → σ → Prop} (hrefl : ∀ s, R s s)
    (htrans : ∀ {s1 s2 s3}, R s1 s2 → R s2 s3 → R s1 s3) (hf : ∀ s a, R s (f s a).1) :
    ∀ (l : List α) (s : σ), R s (forEach f s l).1 := by
  intro l
  induction l with
  | nil => intro s; exact hrefl s
  | cons a l ih =>
      intro s
      rw [forEach_cons]
      exact htrans (hf s a) (ih _)

/--
**The simulation rule.**  A fold over the elements the loop leaves behind keeps in step
with the loop, if each of its turns does.
-/
theorem forEach_sim {R : σ → τ → Prop} {P Q : α → Prop} {g : τ → α → τ}
    (hstep : ∀ s t a, R s t → P a → Q (f s a).2 → R (f s a).1 (g t (f s a).2)) :
    ∀ (l : List α) (s : σ) (t : τ), R s t → (∀ a ∈ l, P a) →
      (∀ b ∈ (forEach f s l).2, Q b) → R (forEach f s l).1 ((forEach f s l).2.foldl g t) := by
  intro l
  induction l with
  | nil => intro s t h _ _; exact h
  | cons a l ih =>
      intro s t h hP hQ
      rw [forEach_cons] at hQ ⊢
      have hQa := hQ _ List.mem_cons_self
      have h1 := hstep s t a h (hP a List.mem_cons_self) hQa
      exact ih _ _ h1 (fun b hb => hP b (List.mem_cons_of_mem _ hb)) fun b hb =>
        hQ b (List.mem_cons_of_mem _ hb)

end Peek
