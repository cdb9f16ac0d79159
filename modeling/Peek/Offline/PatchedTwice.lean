/-
Patching a file twice.

The text that the steps make of a text does not depend on the backup (`foldl_run_text`), and the
backup is made before anything is written (`patchFile_secured`).  So a second run of a patch
function changes nothing as soon as its steps leave the text of the first run as it is
(`patchFile_twice`).
-/
import Peek.Offline.Installer

namespace Peek.Installer

open TextPattern

/-! ### Ends of line -/

theorem cr_notMem_readText (s : List Char) : '\r' ∉ readText s := by
  induction s with
  | nil => simp [readText]
  | cons c s ih =>
      unfold readText
      split
      · split
        · exact ih
        · simp [ih]
      next hc => simp [ih, Ne.symm hc]

theorem readText_of_notMem {s : List Char} (h : '\r' ∉ s) : readText s = s := by
  induction s with
  | nil => rfl
  | cons c s ih =>
      rw [List.mem_cons, not_or] at h
      rw [readText, if_neg (Ne.symm h.1), ih h.2]

/-! ### What the steps do to the text -/

def Step.apply (s : List Char) : Step → List Char
  | .addUnless marker edit => if contains marker s then s else edit s
  | .addIfFound marker edit => if contains marker s then s else edit s
  | .superkv => if contains "superkv" s then replaceAll "superkv" "peek".toList s else s

def Step.changes (s : List Char) : Step → Bool
  | .addUnless marker _ => !contains marker s
  | .addIfFound marker edit => !contains marker s && decide (edit s ≠ s)
  | .superkv => contains "superkv" s

def applyAll (steps : List Step) (s : List Char) : List Char := steps.foldl Step.apply s

def changesAny : List Step → List Char → Bool
  | [], _ => false
  | step :: steps, s => step.changes s || changesAny steps (step.apply s)

theorem run_text (p : Patching) (step : Step) : (Step.run p step).text = step.apply p.text := by
  cases step with
  | addUnless marker edit =>
      simp only [Step.run, Step.apply]
      split <;> rfl
  | addIfFound marker edit =>
      simp only [Step.run, Step.apply]
      split
      · rfl
      · split
        · rfl
        next h => exact (not_not.mp h).symm
  | superkv =>
      simp only [Step.run, Step.apply]
      split <;> rfl

theorem run_changed (p : Patching) (step : Step) :
    (Step.run p step).changed = (p.changed || step.changes p.text) := by
  cases step with
  | addUnless marker edit =>
      simp only [Step.run, Step.changes]
      split <;> simp [*]
  | addIfFound marker edit =>
      simp only [Step.run, Step.changes]
      split
      · simp [*]
      · split <;> simp [*]
  | superkv =>
      simp only [Step.run, Step.changes]
      split <;> simp [*]

theorem foldl_run_text (steps : List Step) (p : Patching) :
    (steps.foldl Step.run p).text = applyAll steps p.text := by
  induction steps generalizing p with
  | nil => rfl
  | cons step steps ih => rw [List.foldl_cons, ih, run_text]; rfl

theorem foldl_run_changed (steps : List Step) (p : Patching) :
    (steps.foldl Step.run p).changed = (p.changed || changesAny steps p.text) := by
  induction steps generalizing p with
  | nil => simp [changesAny]
  | cons step steps ih => rw [List.foldl_cons, ih, run_changed, run_text, Bool.or_assoc]; rfl

theorem applyAll_of_fixed {steps : List Step} {s : List Char} (h : ∀ step ∈ steps, step.apply s = s) :
    applyAll steps s = s := by
  induction steps with
  | nil => rfl
  | cons step steps ih =>
      rw [applyAll, List.foldl_cons, h step List.mem_cons_self]
      exact ih fun st hst => h st (List.mem_cons_of_mem step hst)

/-! ### The backup comes first -/

namespace Target

@[simp] theorem write_file (text : List Char) (t : Target) : (t.write text).file = some text := rfl

theorem backup_of_isSome {t : Target} (h : t.bak.isSome = true) : t.backup = t := if_pos h

theorem backup_file (t : Target) : t.backup.file = t.file := by
  unfold backup
  split <;> rfl

theorem backup_bak (t : Target) : t.backup.bak = t.bak.or t.file := by
  unfold backup
  cases hbak : t.bak <;> simp [hbak]

@[simp] theorem backup_backup (t : Target) : t.backup.backup = t.backup := by
  unfold backup
  cases hbak : t.bak with
  | some b => simp [hbak]
  | none => cases hfile : t.file <;> simp

end Target

/-- The step sees to it that there is a backup. -/
def Step.secures (s : List Char) : Step → Bool
  | .addUnless marker _ => !contains marker s
  | .addIfFound marker _ => !contains marker s
  | .superkv => contains "superkv" s

def securesAny : List Step → List Char → Bool
  | [], _ => false
  | step :: steps, s => step.secures s || securesAny steps (step.apply s)

theorem secures_of_changes {s : List Char} {step : Step} (h : step.changes s = true) :
    step.secures s = true := by
  cases step with
  | addUnless marker edit => exact h
  | addIfFound marker edit => exact (Bool.and_eq_true _ _ ▸ h).1
  | superkv => exact h

theorem run_target (p : Patching) (step : Step) : (Step.run p step).target =
    if !p.changed && step.secures p.text then p.target.backup else p.target := by
  have hsecure : p.secure = if !p.changed && true then p.target.backup else p.target := by
    unfold Patching.secure
    cases p.changed <;> rfl
  cases step with
  | addUnless marker edit =>
      simp only [Step.run, Step.secures]
      split
      · simp [*]
      next hm => simp [hsecure, hm]
  | addIfFound marker edit =>
      simp only [Step.run, Step.secures]
      split
      · simp [*]
      next hm => split <;> simp [hsecure, hm]
  | superkv =>
      simp only [Step.run, Step.secures]
      split
      next hm => simp [hsecure, hm]
      · simp [*]

theorem foldl_run_target (steps : List Step) (p : Patching) : (steps.foldl Step.run p).target =
    if !p.changed && securesAny steps p.text then p.target.backup else p.target := by
  induction steps generalizing p with
  | nil => simp [securesAny]
  | cons step steps ih =>
      rw [List.foldl_cons, ih, run_target, run_text, run_changed, securesAny]
      cases hc : p.changed with
      | true => simp
      | false =>
          cases hs : step.secures p.text with
          | true => simp
          | false =>
              have hno : step.changes p.text = false :=
                Bool.eq_false_iff.mpr fun h => Bool.eq_false_iff.mp hs (secures_of_changes h)
              simp [hno]

/-- What a patch function does to a file that is there. -/
theorem patchFile_some (steps : List Step) {t : Target} {content : List Char}
    (hfile : t.file = some content) : (patchFile steps t).1 =
      if changesAny steps (readText content) then t.backup.write (applyAll steps (readText content))
      else if securesAny steps (readText content) then t.backup else t := by
  have hsecures : ∀ (steps : List Step) (s : List Char), changesAny steps s = true →
      securesAny steps s = true := by
    intro steps
    induction steps with
    | nil => exact fun s h => h
    | cons step steps ih =>
        intro s h
        rw [securesAny, Bool.or_eq_true]
        exact (Bool.or_eq_true _ _ ▸ h).imp secures_of_changes (ih _)
  simp only [patchFile, hfile, Patching.finish, foldl_run_text, foldl_run_changed, foldl_run_target,
    Bool.false_or, Bool.not_false, Bool.true_and]
  split
  next hchanges => rw [hsecures _ _ hchanges, if_pos rfl]
  · rfl

/-- A second run leaves everything alone where the steps leave the text alone. -/
theorem patchFile_twice {steps : List Step} {t : Target}
    (hcr : ∀ s, '\r' ∉ s → '\r' ∉ applyAll steps s)
    (hidem : ∀ content, t.file = some content →
      applyAll steps (applyAll steps (readText content)) = applyAll steps (readText content)) :
    (patchFile steps (patchFile steps t).1).1 = (patchFile steps t).1 := by
  cases hfile : t.file with
  | none =>
      have hsame : (patchFile steps t).1 = t := by simp [patchFile, hfile]
      rw [hsame, hsame]
  | some content =>
      have hbak : t.backup.bak.isSome = true := by rw [Target.backup_bak, hfile]; simp
      have hfirst := patchFile_some steps hfile
      split at hfirst
      next hchanges =>
        have hread : readText (applyAll steps (readText content)) = applyAll steps (readText content) :=
          readText_of_notMem (hcr _ (cr_notMem_readText content))
        have hagain : ((t.backup.write (applyAll steps (readText content))).backup) =
            t.backup.write (applyAll steps (readText content)) := Target.backup_of_isSome hbak
        rw [hfirst, patchFile_some steps rfl, hread, hidem content hfile, hagain]
        simp [Target.write]
      next hchanges =>
        split at hfirst
        next hsecures =>
          rw [hfirst, patchFile_some steps ((Target.backup_file t).trans hfile), if_neg hchanges,
            if_pos hsecures, Target.backup_backup]
        · rw [hfirst, hfirst]

/-! ### Steps that find what they have put in -/

theorem addUnless_of_contains {marker : String} {edit : List Char → List Char} {s : List Char}
    (h : contains marker s = true) : (Step.addUnless marker edit).apply s = s := if_pos h

/-- What an edit keeps, the step keeps. -/
theorem apply_addUnless {P : List Char → Prop} {marker : String} {edit : List Char → List Char}
    {s : List Char} (hs : P s) (hedit : P (edit s)) : P ((Step.addUnless marker edit).apply s) := by
  simp only [Step.apply]
  split
  · exact hs
  · exact hedit

/-- The text of a step has its marker, or its place is missing as before. -/
theorem addUnless_settles {marker : String} {r : Pattern} {f : (Nat → List Char) → List Char}
    (hf : ∀ g, contains marker (f g) = true) (s : List Char) :
    contains marker ((Step.addUnless marker (replaceFirst r f)).apply s) = true ∨
      occurs r ((Step.addUnless marker (replaceFirst r f)).apply s) = false := by
  simp only [Step.apply]
  split
  next h => exact Or.inl h
  · cases hocc : occurs r s with
    | true => exact Or.inl (contains_replaceFirst hocc hf)
    | false => exact Or.inr (by rw [replaceFirst_of_not_occurs hocc, hocc])

theorem addUnless_of_settled {marker : String} {r : Pattern} {f : (Nat → List Char) → List Char}
    {s : List Char} (h : contains marker s = true ∨ occurs r s = false) :
    (Step.addUnless marker (replaceFirst r f)).apply s = s := by
  rcases h with h | h
  · exact addUnless_of_contains h
  · simp only [Step.apply, replaceFirst_of_not_occurs h, ite_self]

/-- No step brings in a "\r". -/
theorem cr_notMem_applyAll {steps : List Step}
    (h : ∀ step ∈ steps, ∀ s, '\r' ∉ s → '\r' ∉ step.apply s) (s : List Char) (hs : '\r' ∉ s) :
    '\r' ∉ applyAll steps s := by
  induction steps generalizing s with
  | nil => exact hs
  | cons step steps ih =>
      exact ih (fun st hst => h st (List.mem_cons_of_mem step hst)) _ (h step List.mem_cons_self s hs)

theorem cr_notMem_addUnless {marker : String} {edit : List Char → List Char}
    (h : ∀ s, '\r' ∉ s → '\r' ∉ edit s) (s : List Char) (hs : '\r' ∉ s) :
    '\r' ∉ (Step.addUnless marker edit).apply s :=
  apply_addUnless (P := fun s => '\r' ∉ s) hs (h s hs)

theorem superkv_of_not_contains {s : List Char} (h : contains "superkv" s = false) :
    Step.superkv.apply s = s := if_neg (by rw [h]; exact Bool.false_ne_true)

theorem cr_notMem_addIfFound {marker : String} {edit : List Char → List Char}
    (h : ∀ s, '\r' ∉ s → '\r' ∉ edit s) (s : List Char) (hs : '\r' ∉ s) :
    '\r' ∉ (Step.addIfFound marker edit).apply s := cr_notMem_addUnless h s hs

theorem cr_notMem_superkv (s : List Char) (hs : '\r' ∉ s) : '\r' ∉ Step.superkv.apply s := by
  have hfrom : ∀ (skip : Nat) (s : List Char), '\r' ∉ s →
      '\r' ∉ replaceFrom "superkv" "peek".toList skip s := by
    intro skip s
    induction s generalizing skip with
    | nil => cases skip <;> simp [replaceFrom]
    | cons c s ih =>
        intro hs
        rw [List.mem_cons, not_or] at hs
        cases skip with
        | succ skip => exact ih skip hs.2
        | zero =>
            unfold replaceFrom
            split
            · have hpeek : '\r' ∉ "peek".toList := by decide
              exact List.mem_append.not.mpr (not_or.mpr ⟨hpeek, ih _ hs.2⟩)
            · exact List.mem_cons.not.mpr (not_or.mpr ⟨hs.1, ih 0 hs.2⟩)
  simp only [Step.apply]
  split
  · exact hfrom 0 s hs
  · exact hs

end Peek.Installer
