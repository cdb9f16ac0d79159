/-
The SGLang patches twice, all but `radix_cache.py`.

A second run changes nothing in a file that was unpatched before the first.  The old project
name is the one marker that must not come in with what the patches put in.
-/
import Peek.Base.TextBarrier
import Peek.Offline.PatchedTwice
import Peek.Offline.SglangPatches

namespace Peek.Installer.Sglang

open TextPattern

/-! ### The texts that the patches put in -/

/-- The markers in them. -/
theorem marker_newTexts :
    contains "QueueAwareStrategy" queueAwareStrategyCode.toList = true ∧
    contains "PeekEngine" peekEngineHook.toList = true ∧
    contains "PeekEngine" peekMatchedSkip.toList = true ∧
    contains "_peek_matched" peekMatchedSkip.toList = true ∧
    contains "\"queue-aware\"" ", \"queue-aware\"]".toList = true := by
  unfold contains lit queueAwareStrategyCode peekEngineHook peekMatchedSkip
  repeat rw [String.toList_ofList]
  decide +kernel

/-- The old project name is not in them, and does not come about at their ends. -/
theorem superkv_newTexts :
    barrier (lit "superkv") [] ('\n' :: queueAwareStrategyCode.toList) = true ∧
    barrier (lit "superkv") [] peekEngineHook.toList = true ∧
    barrier (lit "superkv") [] peekMatchedSkip.toList = true := by
  unfold lit queueAwareStrategyCode peekEngineHook peekMatchedSkip
  repeat rw [String.toList_ofList]
  decide +kernel

theorem cr_notMem_newTexts : '\r' ∉ queueAwareStrategyCode.toList ∧ '\r' ∉ peekEngineHook.toList ∧
    '\r' ∉ peekMatchedSkip.toList ∧ '\r' ∉ "RADIX_EVICTION_POLICY_CHOICES = [".toList ∧
    '\r' ∉ ", \"queue-aware\"]".toList := by
  unfold queueAwareStrategyCode peekEngineHook peekMatchedSkip
  repeat rw [String.toList_ofList]
  decide +kernel

/-! ### evict_policy.py -/

theorem not_superkv_addStrategy {s : List Char} (hs : contains "superkv" s = false) :
    contains "superkv" (addStrategy s) = false := by
  refine Bool.eq_false_iff.mpr fun hocc => Bool.eq_false_iff.mp hs ?_
  have hsplit : addStrategy s = rstrip s ++ [] ++ ('\n' :: queueAwareStrategyCode.toList ++ []) := by
    simp [addStrategy]
  rw [hsplit] at hocc
  refine occurs_of_barrier (lit_plain _) superkv_newTexts.1 ?_ ⟨s, [], by simp⟩ hocc
  rw [List.append_nil]
  exact (List.rdropWhile_prefix _ s).isInfix

theorem contains_addStrategy (s : List Char) : contains "QueueAwareStrategy" (addStrategy s) = true :=
  contains_of_infix marker_newTexts.1 ⟨rstrip s ++ ['\n'], [], by simp [addStrategy]⟩

theorem evictPolicy_idempotent {s : List Char} (hs : contains "superkv" s = false) :
    applyAll evictPolicySteps (applyAll evictPolicySteps s) = applyAll evictPolicySteps s := by
  have hstrategy : contains "QueueAwareStrategy"
      ((Step.addUnless "QueueAwareStrategy" addStrategy).apply s) = true := by
    simp only [Step.apply]
    split
    next h => exact h
    · exact contains_addStrategy s
  have hsuperkv : contains "superkv" ((Step.addUnless "QueueAwareStrategy" addStrategy).apply s) = false :=
    apply_addUnless (P := fun s => contains "superkv" s = false) hs (not_superkv_addStrategy hs)
  refine applyAll_of_fixed fun step hstep => ?_
  simp only [evictPolicySteps, applyAll, List.foldl_cons, List.foldl_nil, List.mem_cons,
    List.not_mem_nil, or_false] at hstep ⊢
  rw [superkv_of_not_contains hsuperkv]
  rcases hstep with rfl | rfl
  · exact addUnless_of_contains hstrategy
  · exact superkv_of_not_contains hsuperkv

theorem cr_notMem_evictPolicy : ∀ step ∈ evictPolicySteps, ∀ s, '\r' ∉ s → '\r' ∉ step.apply s := by
  have hstrategy (s : List Char) (hs : '\r' ∉ s) : '\r' ∉ addStrategy s := by
    have hstrip : '\r' ∉ rstrip s := fun h => hs ((List.rdropWhile_prefix _ _).mem h)
    simp [addStrategy, cr_notMem_newTexts.1, hstrip]
  intro step hstep
  simp only [evictPolicySteps, List.mem_cons, List.not_mem_nil, or_false] at hstep
  rcases hstep with rfl | rfl
  · exact cr_notMem_addUnless hstrategy
  · exact cr_notMem_superkv

theorem patchEvictPolicy_twice {t : Target}
    (ht : ∀ content, t.file = some content → contains "superkv" (readText content) = false) :
    (patchEvictPolicy (patchEvictPolicy t).1).1 = (patchEvictPolicy t).1 :=
  patchFile_twice (cr_notMem_applyAll cr_notMem_evictPolicy) fun content hcontent =>
    evictPolicy_idempotent (ht content hcontent)

/-! ### schedule_policy.py -/

theorem calcPriority_plain : calcPriority.all Item.plain = true := by
  simp [calcPriority, spacesItem, lit_plain, Item.plain]

theorem calcPriority_bounds : calcPriority.countP Item.isBound = 0 := by
  simp [calcPriority, spacesItem, lit_bounds, Item.isBound]

theorem not_superkv_addEngineHook {s : List Char} (hs : contains "superkv" s = false) :
    contains "superkv" (addEngineHook s) = false := by
  refine Bool.eq_false_iff.mpr fun hocc => Bool.eq_false_iff.mp hs ?_
  exact occurs_replaceFirst_behind (lit_plain _) calcPriority_plain calcPriority_bounds superkv_newTexts.2.1 hocc

theorem waitingLoop_bounds : waitingLoop.countP Item.isBound = 2 := by
  simp [waitingLoop, someSpaces, lit_bounds, List.countP_cons, Item.isBound]

/-- Where the loop is, and where the skip goes. -/
theorem addMatchedSkip_cases (s : List Char) :
    (occurs waitingLoop s = false ∧ addMatchedSkip s = s) ∨
      ∃ u v, s = u ++ v ∧ addMatchedSkip s = u ++ (peekMatchedSkip.toList ++ v) := by
  refine (replaceFirst_cases waitingLoop _ s).imp_right ?_
  rintro ⟨before, h, hs, heq⟩
  obtain ⟨s', rfl, hm⟩ := search_some hs
  have hmore : h.more.length = 2 := (matchHere_groups hm).trans waitingLoop_bounds
  obtain ⟨a, b, hmore⟩ := List.length_eq_two.mp hmore
  refine ⟨before ++ h.first, a ++ (b ++ h.rest), ?_, ?_⟩
  · rw [matchHere_text hm, Hit.text, hmore]
    simp
  · have ha : h.group 1 = a := by simp [Hit.group, hmore]
    have hb : h.group 2 = b := by simp [Hit.group, hmore]
    rw [addMatchedSkip, heq, ha, hb]
    simp [Hit.group]

theorem not_superkv_addMatchedSkip {s : List Char} (hs : contains "superkv" s = false) :
    contains "superkv" (addMatchedSkip s) = false := by
  rcases addMatchedSkip_cases s with ⟨-, heq⟩ | ⟨u, v, rfl, heq⟩
  · rw [heq, hs]
  · refine Bool.eq_false_iff.mpr fun hocc => Bool.eq_false_iff.mp hs ?_
    rw [heq, ← List.append_nil u] at hocc
    exact occurs_of_barrier (lit_plain _) superkv_newTexts.2.2 ⟨[], v, by simp⟩ ⟨u, [], by simp⟩ hocc

theorem contains_peekMatchedSkip {g : Nat → List Char} {x : String}
    (hx : contains x peekMatchedSkip.toList = true) :
    contains x (g 0 ++ (peekMatchedSkip.toList ++ (g 1 ++ g 2))) = true :=
  contains_of_infix hx ⟨g 0, g 1 ++ g 2, by simp⟩

theorem schedulePolicy_idempotent {s : List Char} (hs : contains "superkv" s = false) :
    applyAll schedulePolicySteps (applyAll schedulePolicySteps s) = applyAll schedulePolicySteps s := by
  obtain ⟨-, hengine, hboth, hmatched, -⟩ := marker_newTexts
  have hhook : ∀ g : Nat → List Char, contains "PeekEngine" (g 0 ++ peekEngineHook.toList) = true :=
    fun g => contains_of_infix hengine (List.suffix_append (g 0) _).isInfix
  have hskip : ∀ g : Nat → List Char, contains "_peek_matched"
      (g 0 ++ (peekMatchedSkip.toList ++ (g 1 ++ g 2))) = true :=
    fun g => contains_peekMatchedSkip hmatched
  have hengine : contains "PeekEngine" ((Step.addIfFound "PeekEngine" addEngineHook).apply s) = true ∨
      occurs calcPriority ((Step.addIfFound "PeekEngine" addEngineHook).apply s) = false :=
    addUnless_settles hhook s
  have hs : contains "superkv" ((Step.addIfFound "PeekEngine" addEngineHook).apply s) = false :=
    apply_addUnless (P := fun s => contains "superkv" s = false) hs (not_superkv_addEngineHook hs)
  refine applyAll_of_fixed fun step hstep => ?_
  simp only [schedulePolicySteps, applyAll, List.foldl_cons, List.foldl_nil, List.mem_cons,
    List.not_mem_nil, or_false] at hstep ⊢
  generalize (Step.addIfFound "PeekEngine" addEngineHook).apply s = s₁ at hengine hs ⊢
  have hmatched : contains "_peek_matched" ((Step.addIfFound "_peek_matched" addMatchedSkip).apply s₁) = true ∨
      occurs waitingLoop ((Step.addIfFound "_peek_matched" addMatchedSkip).apply s₁) = false :=
    addUnless_settles hskip s₁
  -- The skip has the marker of the hook in it, so what the loop gains the hook need not.
  have hengine : contains "PeekEngine" ((Step.addIfFound "_peek_matched" addMatchedSkip).apply s₁) = true ∨
      occurs calcPriority ((Step.addIfFound "_peek_matched" addMatchedSkip).apply s₁) = false := by
    refine apply_addUnless (P := fun s => contains "PeekEngine" s = true ∨ occurs calcPriority s = false)
      hengine ?_
    cases hocc : occurs waitingLoop s₁ with
    | true =>
        exact Or.inl (contains_replaceFirst hocc fun g => contains_peekMatchedSkip hboth)
    | false =>
        have hsame : addMatchedSkip s₁ = s₁ := replaceFirst_of_not_occurs hocc
        rw [hsame]
        exact hengine
  have hs : contains "superkv" ((Step.addIfFound "_peek_matched" addMatchedSkip).apply s₁) = false :=
    apply_addUnless (P := fun s => contains "superkv" s = false) hs (not_superkv_addMatchedSkip hs)
  rw [superkv_of_not_contains hs]
  rcases hstep with rfl | rfl | rfl
  · exact addUnless_of_settled hengine
  · exact addUnless_of_settled hmatched
  · exact superkv_of_not_contains hs

theorem cr_notMem_schedulePolicy : ∀ step ∈ schedulePolicySteps, ∀ s, '\r' ∉ s → '\r' ∉ step.apply s := by
  obtain ⟨-, hcode, hnew, -⟩ := cr_notMem_newTexts
  have hhook (s : List Char) (hs : '\r' ∉ s) : '\r' ∉ addEngineHook s :=
    notMem_replaceFirst hs fun g hg => List.not_mem_append (hg 0) hcode
  have hskip (s : List Char) (hs : '\r' ∉ s) : '\r' ∉ addMatchedSkip s :=
    notMem_replaceFirst hs fun g hg => by simp [hg, hnew]
  intro step hstep
  simp only [schedulePolicySteps, List.mem_cons, List.not_mem_nil, or_false] at hstep
  rcases hstep with rfl | rfl | rfl
  · exact cr_notMem_addIfFound hhook
  · exact cr_notMem_addIfFound hskip
  · exact cr_notMem_superkv

theorem patchSchedulePolicy_twice {t : Target}
    (ht : ∀ content, t.file = some content → contains "superkv" (readText content) = false) :
    (patchSchedulePolicy (patchSchedulePolicy t).1).1 = (patchSchedulePolicy t).1 :=
  patchFile_twice (cr_notMem_applyAll cr_notMem_schedulePolicy) fun content hcontent =>
    schedulePolicy_idempotent (ht content hcontent)

/-! ### server_args.py -/

theorem patchServerArgs_twice (t : Target) :
    (patchServerArgs (patchServerArgs t).1).1 = (patchServerArgs t).1 := by
  obtain ⟨-, -, -, -, hchoice⟩ := marker_newTexts
  obtain ⟨-, -, -, hhead, hlast⟩ := cr_notMem_newTexts
  have hcr (s : List Char) (hs : '\r' ∉ s) : '\r' ∉ addChoice s := by
    refine notMem_replaceFirst hs fun g hg => ?_
    have hstrip : '\r' ∉ rstrip (g 1) := fun h => hg 1 ((List.rdropWhile_prefix _ _).mem h)
    exact List.not_mem_append hhead (List.not_mem_append hstrip hlast)
  cases hfile : t.file with
  | none => simp [patchServerArgs, hfile]
  | some content =>
      have hbak : t.backup.bak.isSome = true := by rw [Target.backup_bak, hfile]; simp
      cases hold : contains "\"queue-aware\"" (readText content) with
      | true => simp [patchServerArgs, hfile, hold]
      | false =>
          have hread := readText_of_notMem (hcr _ (cr_notMem_readText content))
          cases hocc : occurs policyChoices (readText content) with
          | true =>
              have hnew : contains "\"queue-aware\"" (addChoice (readText content)) = true :=
                contains_replaceFirst hocc fun g => contains_of_infix hchoice
                  ((List.suffix_append _ _).trans (List.suffix_append _ _)).isInfix
              simp [patchServerArgs, hfile, hold, hread, hnew, Target.write]
          | false =>
              have hsame : addChoice (readText content) = readText content :=
                replaceFirst_of_not_occurs hocc
              rw [hsame] at hread
              have hagain : (t.backup.write (readText content)).backup = t.backup.write (readText content) :=
                Target.backup_of_isSome hbak
              have hfirst : (patchServerArgs t).1 = t.backup.write (readText content) := by
                simp [patchServerArgs, hfile, hold, hsame]
              rw [hfirst]
              simp only [patchServerArgs, Target.write_file, hread, hold, hsame, hagain]
              rfl

end Peek.Installer.Sglang
