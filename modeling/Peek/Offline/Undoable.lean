/-
When the installers are undoable.

A backup is made of what the file holds, but only if there is none, and only a revert takes it
away.  So the backup that a revert copies back is what the file held before the last install that
patched it exactly if that install met no other backup (`undoable_iff`).  An upgrade leaves the
backups: an install after it keeps the old one, and the revert after that puts the file of the
old version into the new one (`not_undoable_upgrade`).  That one more install changes nothing
holds in any history (`inv_run`).
-/
import Peek.Offline.InstallHistory
import Peek.Offline.RadixPatchedTwice
import Peek.Offline.SglangPatchedTwice
import Peek.Offline.VllmPatchedTwice

namespace Peek.Installer

open TextPattern

/-! ### File by file -/

theorem foldl_update_apply {β : Type} (g : PatchedFile → Target → Target)
    (h : Packages × β → PatchedFile → β) {l : List PatchedFile} (hl : l.Nodup) (acc : Packages × β)
    (f : PatchedFile) :
    (l.foldl (fun acc f => (Function.update acc.1 f (g f (acc.1 f)), h acc f)) acc).1 f =
      if f ∈ l then g f (acc.1 f) else acc.1 f := by
  induction l generalizing acc with
  | nil => rfl
  | cons f' l ih =>
      obtain ⟨hnotMem, hl⟩ := List.nodup_cons.mp hl
      rw [List.foldl_cons, ih hl]
      by_cases hf : f = f'
      · subst hf
        simp [hnotMem]
      · simp [hf]

theorem mem_patchedFiles {e : Engine} {f : PatchedFile} : f ∈ e.patchedFiles ↔ f.engine = e := by
  cases e <;> cases f <;> decide

theorem nodup_patchedFiles (e : Engine) : e.patchedFiles.Nodup := by
  cases e <;> decide

theorem revert_apply (e : Engine) (dir : Packages) (f : PatchedFile) :
    (revert e dir).1 f = if f.engine = e then (dir f).revert.1 else dir f := by
  have h := foldl_update_apply (fun _ t => t.revert.1)
    (fun acc f => if (acc.1 f).revert.2 then acc.2 + 1 else acc.2) (nodup_patchedFiles e) (dir, 0) f
  simp only [mem_patchedFiles] at h
  exact h

variable {isalnum : Char → Bool}

theorem install_apply (e : Engine) (dir : Packages) (f : PatchedFile) :
    (install isalnum e dir).1 f = if f.engine = e then (f.patch isalnum (dir f)).1 else dir f := by
  have h := foldl_update_apply (fun f t => (f.patch isalnum t).1)
    (fun acc f => acc.2 && (f.patch isalnum (acc.1 f)).2) (nodup_patchedFiles e) (dir, true) f
  simp only [mem_patchedFiles] at h
  exact h

/-! ### One file -/

/-- The target is left alone, or there is a file and it has a backup now, the old one if there was. -/
def Secured (t t' : Target) : Prop := t' = t ∨ t.file.isSome ∧ t'.bak = t.bak.or t.file

theorem secured_backup {t : Target} {content : List Char} (hfile : t.file = some content) :
    Secured t t.backup := Or.inr ⟨by simp [hfile], Target.backup_bak t⟩

theorem secured_write {t : Target} {content : List Char} (hfile : t.file = some content)
    (text : List Char) : Secured t (t.backup.write text) :=
  Or.inr ⟨by simp [hfile], Target.backup_bak t⟩

theorem secured_patchFile (steps : List Step) (t : Target) : Secured t (patchFile steps t).1 := by
  cases hfile : t.file with
  | none => exact Or.inl (by simp [patchFile, hfile])
  | some content =>
      rw [patchFile_some steps hfile]
      split
      · exact secured_write hfile _
      · split
        · exact secured_backup hfile
        · exact Or.inl rfl

theorem secured_patch (isalnum : Char → Bool) (f : PatchedFile) (t : Target) : Secured t (f.patch isalnum t).1 := by
  cases f with
  | kvCacheUtils => exact secured_patchFile _ t
  | blockPool => exact secured_patchFile _ t
  | scheduler =>
      simp only [PatchedFile.patch, Vllm.patchScheduler]
      split
      · exact Or.inl rfl
      next hfile =>
        split
        · exact Or.inl rfl
        · split
          · exact secured_write hfile _
          · exact secured_backup hfile
  | cacheConfig =>
      simp only [PatchedFile.patch, Vllm.patchCacheConfig]
      split
      · exact Or.inl rfl
      next hfile =>
        split
        · exact Or.inl rfl
        · split
          · exact secured_write hfile _
          · exact secured_backup hfile
  | evictPolicy => exact secured_patchFile _ t
  | radixCache => exact secured_patchFile _ t
  | schedulePolicy => exact secured_patchFile _ t
  | serverArgs =>
      simp only [PatchedFile.patch, Sglang.patchServerArgs]
      split
      · exact Or.inl rfl
      next hfile =>
        split
        · exact Or.inl rfl
        · exact secured_write hfile _

theorem patch_twice {f : PatchedFile} {t : Target} (ht : ∀ content, t.file = some content → f.Unpatched content) :
    (f.patch isalnum (f.patch isalnum t).1).1 = (f.patch isalnum t).1 := by
  cases f with
  | kvCacheUtils => exact Vllm.patchKvCacheUtils_twice isalnum t
  | blockPool => exact Vllm.patchBlockPool_twice t
  | scheduler => exact Vllm.patchScheduler_twice t
  | cacheConfig => exact Vllm.patchCacheConfig_twice t
  | evictPolicy =>
      exact Sglang.patchEvictPolicy_twice fun content hcontent =>
        ht content hcontent "superkv" List.mem_cons_self
  | radixCache =>
      refine Sglang.patchRadixCache_twice fun content hcontent => ?_
      have hwords := ht content hcontent
      simp only [PatchedFile.Unpatched, PatchedFile.ownWords, List.forall_mem_cons] at hwords
      exact ⟨hwords.1, hwords.2.1, hwords.2.2.1⟩
  | schedulePolicy =>
      exact Sglang.patchSchedulePolicy_twice fun content hcontent =>
        ht content hcontent "superkv" List.mem_cons_self
  | serverArgs => exact Sglang.patchServerArgs_twice t

/-- The backup is of a published version, and so is the file, unless its patches are in. -/
structure Known (isalnum : Char → Bool) (f : PatchedFile) (t : Target) : Prop where
  bak : ∀ content, t.bak = some content → f.Unpatched content
  file : (∀ content, t.file = some content → f.Unpatched content) ∨ (f.patch isalnum t).1 = t

theorem Known.patch_twice {f : PatchedFile} {t : Target} (h : Known isalnum f t) :
    (f.patch isalnum (f.patch isalnum t).1).1 = (f.patch isalnum t).1 := by
  rcases h.file with hfile | hfixed
  · exact Installer.patch_twice hfile
  · rw [hfixed, hfixed]

theorem Known.patch {f : PatchedFile} {t : Target} (h : Known isalnum f t) :
    Known isalnum f (f.patch isalnum t).1 := by
  refine ⟨fun content hbak => ?_, Or.inr h.patch_twice⟩
  rcases h.file with hfile | hfixed
  · rcases secured_patch isalnum f t with heq | ⟨-, heq⟩
    · exact h.bak content (heq ▸ hbak)
    · rw [heq, Option.or_eq_some_iff] at hbak
      exact hbak.elim (h.bak content) fun hbak => hfile content hbak.2
  · exact h.bak content (hfixed ▸ hbak)

theorem Known.revert {f : PatchedFile} {t : Target} (h : Known isalnum f t) :
    Known isalnum f t.revert.1 := by
  cases hbak : t.bak with
  | none =>
      have hsame : t.revert.1 = t := by simp [Target.revert, hbak]
      rwa [hsame]
  | some content =>
      have hfile : t.revert.1 = { file := some content, bak := none } := by simp [Target.revert, hbak]
      rw [hfile]
      exact ⟨by simp, Or.inl fun c hc => h.bak c (by rw [hbak, ← hc])⟩

/-! ### The whole history -/

namespace History

@[simp] theorem step_install_dir (s : History) (e : Engine) (f : PatchedFile) :
    (step isalnum s (.install e)).dir f = if f.engine = e then (f.patch isalnum (s.dir f)).1 else s.dir f :=
  install_apply e s.dir f

@[simp] theorem step_revert_dir (s : History) (e : Engine) (f : PatchedFile) :
    (step isalnum s (.revert e)).dir f = if f.engine = e then (s.dir f).revert.1 else s.dir f :=
  revert_apply e s.dir f

@[simp] theorem step_upgrade_dir (s : History) (e : Engine) (r : Release) (f : PatchedFile) :
    (step isalnum s (.upgrade e r)).dir f =
      if f.engine = e then { s.dir f with file := r.contents f } else s.dir f := rfl

theorem run_append (s : History) (events : List Event) (event : Event) :
    run isalnum s (events ++ [event]) = step isalnum (run isalnum s events) event :=
  List.foldl_concat _ _ _ _

/-- Every file is known, and where the patches are in they have nothing more to do. -/
structure Inv (isalnum : Char → Bool) (s : History) : Prop where
  known : ∀ f, Known isalnum f (s.dir f)
  settled : ∀ f, s.installed f.engine = true → (f.patch isalnum (s.dir f)).1 = s.dir f

theorem inv_start (r : Release) : Inv isalnum (start r) where
  known f := ⟨by simp [start], Or.inl (r.unpatched f)⟩
  settled f h := absurd h Bool.false_ne_true

theorem inv_step {s : History} (h : Inv isalnum s) (event : Event) : Inv isalnum (step isalnum s event) := by
  cases event with
  | install e =>
      refine ⟨fun f => ?_, fun f hinstalled => ?_⟩
      · rw [step_install_dir]
        split
        · exact (h.known f).patch
        · exact h.known f
      · rw [step_install_dir]
        split
        · exact (h.known f).patch_twice
        next hne =>
          have hold : s.installed f.engine = true := by
            simpa [step, Function.update_of_ne hne] using hinstalled
          exact h.settled f hold
  | revert e =>
      refine ⟨fun f => ?_, fun f hinstalled => ?_⟩
      · rw [step_revert_dir]
        split
        · exact (h.known f).revert
        · exact h.known f
      · rw [step_revert_dir]
        split
        next heq => simp [step, heq] at hinstalled
        next hne =>
          have hold : s.installed f.engine = true := by
            simpa [step, Function.update_of_ne hne] using hinstalled
          exact h.settled f hold
  | upgrade e r =>
      refine ⟨fun f => ?_, fun f hinstalled => ?_⟩
      · rw [step_upgrade_dir]
        split
        · exact ⟨(h.known f).bak, Or.inl (r.unpatched f)⟩
        · exact h.known f
      · rw [step_upgrade_dir]
        split
        next heq => simp [step, heq] at hinstalled
        next hne =>
          have hold : s.installed f.engine = true := by
            simpa [step, Function.update_of_ne hne] using hinstalled
          exact h.settled f hold

theorem inv_run {s : History} (h : Inv isalnum s) (events : List Event) : Inv isalnum (run isalnum s events) := by
  induction events generalizing s with
  | nil => exact h
  | cons event events ih => exact ih (inv_step h event)

/-- One more install changes nothing. -/
theorem Inv.install_installed {s : History} (h : Inv isalnum s) {e : Engine} (he : s.installed e = true) :
    (Installer.install isalnum e s.dir).1 = s.dir := by
  funext f
  rw [install_apply]
  split
  next heq => exact h.settled f (heq ▸ he)
  · rfl

/-- The backup of a patched file is what it held before. -/
def Kept (s : History) : Prop := ∀ f content, s.before f = some content → (s.dir f).bak = some content

theorem kept_install {s : History} {e : Engine} (h : Kept s) (hready : s.Ready isalnum e) :
    Kept (step isalnum s (.install e)) := by
  intro f content hbefore
  replace hbefore : (if ((step isalnum s (.install e)).dir f).file ≠ (s.dir f).file then (s.dir f).file
      else s.before f) = some content := hbefore
  rw [step_install_dir] at hbefore ⊢
  by_cases he : f.engine = e
  · rw [if_pos he] at hbefore ⊢
    have hsecured := secured_patch isalnum f (s.dir f)
    split at hbefore
    next hchanged =>
      -- The install has patched the file, so its backup is of what the file held.
      rcases hsecured with heq | ⟨-, hbak⟩
      · exact absurd (congrArg Target.file heq) hchanged
      · rcases hready f he hchanged with hnone | hsame
        · rw [hbak, hnone, Option.none_or, hbefore]
        · rw [hbak, hsame, hbefore]
          rfl
    · have hold := h f content hbefore
      rcases hsecured with heq | ⟨-, hbak⟩
      · rw [heq, hold]
      · rw [hbak, hold]
        rfl
  · rw [if_neg he] at hbefore ⊢
    exact h f content (by simpa using hbefore)

theorem kept_revert {s : History} (h : Kept s) (e : Engine) : Kept (step isalnum s (.revert e)) := by
  intro f content hbefore
  replace hbefore : (if f.engine = e ∧ (s.dir f).bak.isSome then none else s.before f) = some content := hbefore
  rw [step_revert_dir]
  split at hbefore
  · cases hbefore
  next hnot =>
    have hbak := h f content hbefore
    rw [if_neg fun he => hnot ⟨he, by simp [hbak]⟩]
    exact hbak

theorem kept_upgrade {s : History} (h : Kept s) (e : Engine) (r : Release) :
    Kept (step isalnum s (.upgrade e r)) := by
  intro f content hbefore
  have hbak := h f content hbefore
  rw [step_upgrade_dir]
  split
  · exact hbak
  · exact hbak

theorem kept_run {r : Release} {events : List Event}
    (hready : ∀ pre e, pre ++ [.install e] <+: events → (run isalnum (start r) pre).Ready isalnum e) :
    Kept (run isalnum (start r) events) := by
  induction events using List.reverseRecOn with
  | nil => exact fun f content h => absurd h (by simp [run, start])
  | append_singleton events event ih =>
      have hkept := ih fun pre e hpre => hready pre e (hpre.trans (List.prefix_append events [event]))
      rw [run_append]
      cases event with
      | install e => exact kept_install hkept (hready events e (List.prefix_refl _))
      | revert e => exact kept_revert hkept e
      | upgrade e r => exact kept_upgrade hkept e r

theorem Kept.restores {s : History} (h : Kept s) {f : PatchedFile} {content : List Char}
    (hbefore : s.before f = some content) :
    ((Installer.revert f.engine s.dir).1 f).file = some content := by
  rw [revert_apply, if_pos rfl, Target.revert, h f content hbefore]

/-- A revert after an install gives back the backup, which was there before or is of the file. -/
theorem ready_of_undoable {s : History} {e : Engine}
    (h : (step isalnum s (.install e)).Undoable isalnum) : s.Ready isalnum e := by
  intro f he hchanged
  rcases secured_patch isalnum f (s.dir f) with heq | ⟨hfile, hbak⟩
  · exact absurd (congrArg Target.file heq) hchanged
  · obtain ⟨content, hcontent⟩ := Option.isSome_iff_exists.mp hfile
    have hdir : (step isalnum s (.install e)).dir f = (f.patch isalnum (s.dir f)).1 := by
      rw [step_install_dir, if_pos he]
    have hbefore : (step isalnum s (.install e)).before f = some content := by
      show (if ((step isalnum s (.install e)).dir f).file ≠ (s.dir f).file then (s.dir f).file
        else s.before f) = some content
      rw [hdir, if_pos hchanged, hcontent]
    have hrestored := h.restores f content hbefore
    rw [revert_apply, if_pos rfl, hdir, Target.revert, hbak, hcontent] at hrestored
    cases hold : (s.dir f).bak with
    | none => exact Or.inl rfl
    | some old =>
        rw [hold] at hrestored
        exact Or.inr (hrestored.trans hcontent.symm)

end History

open History

/-- The installers are undoable all along a history exactly if no install patches a file that has
a backup of something else. -/
theorem undoable_iff (isalnum : Char → Bool) (r : Release) (events : List Event) :
    (∀ pre, pre <+: events → (run isalnum (start r) pre).Undoable isalnum) ↔
      ∀ pre e, pre ++ [.install e] <+: events → (run isalnum (start r) pre).Ready isalnum e := by
  constructor
  · intro h pre e hpre
    have hundoable := h _ hpre
    rw [run_append] at hundoable
    exact ready_of_undoable hundoable
  · intro h pre hpre
    have hkept := kept_run fun pre' e hpre' => h pre' e (hpre'.trans hpre)
    exact ⟨fun f content hbefore => hkept.restores hbefore,
      fun e he => (inv_run (inv_start r) pre).install_installed he⟩

/-- A version whose `cache.py` has the given text, with all other files empty. -/
def cacheOnly (text : List Char) : Release where
  contents f := some (if f = .cacheConfig then text else [])
  unpatched f content hcontent := by
    intro x hx
    cases f with
    | kvCacheUtils | blockPool | scheduler | cacheConfig | serverArgs => cases hx
    | evictPolicy | radixCache | schedulePolicy =>
        obtain rfl : content = [] := (Option.some.inj hcontent).symm
        clear hcontent
        revert x
        decide +kernel

/-- Two versions of `cache.py`. -/
def oldCache : List Char := "    enable_prefix_caching: bool = True\n".toList

def newCache : List Char := "    block_size: int = 16\n    enable_prefix_caching: bool = True\n".toList

theorem not_undoable_upgrade : ¬ (run Char.isAlphanum (start (cacheOnly oldCache))
    [.install .vllm, .upgrade .vllm (cacheOnly newCache), .install .vllm]).Undoable Char.isAlphanum := by
  intro h
  have hrestored := h.restores .cacheConfig newCache (by decide +kernel)
  exact absurd hrestored (by decide +kernel)

end Peek.Installer
