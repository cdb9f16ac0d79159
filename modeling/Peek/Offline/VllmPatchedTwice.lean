/-
The vLLM patches twice.

A second run of each of the four patch functions changes neither the file nor its backup.  The
steps of `kv_cache_utils.py` put both of its markers in at once; in `block_pool.py` the later
steps must neither break the marker of the first one nor make a new place for it.
-/
import Peek.Base.TextBarrier
import Peek.Offline.PatchedTwice
import Peek.Offline.VllmPatches

namespace Peek.Installer.Vllm

open TextPattern

/-! ### The texts that the edits put in -/

/-- The markers in them. -/
theorem marker_texts :
    contains "queue_ref_count" queueAwareMethod.toList = true ∧
    contains "popleft_queue_aware" queueAwareMethod.toList = true ∧
    contains "queue_ref_count" refCountField.toList = true ∧
    contains "reset_queue_ref_counts" queueRefMethods.toList = true ∧
    contains "enable_queue_aware_eviction" flagParameter.toList = true ∧
    contains "enable_queue_aware_eviction" flagAttribute.toList = true ∧
    contains "enable_queue_aware_eviction" queueAwareCall.toList = true ∧
    contains "popleft_queue_aware" queueAwareCall.toList = true := by
  unfold contains lit queueAwareMethod refCountField queueRefMethods flagParameter flagAttribute
    queueAwareCall
  repeat rw [String.toList_ofList]
  decide +kernel

theorem cr_notMem_texts : '\r' ∉ queueAwareMethod.toList ∧ '\r' ∉ refCountField.toList ∧
    '\r' ∉ flagParameter.toList ∧ '\r' ∉ flagAttribute.toList ∧ '\r' ∉ queueRefMethods.toList ∧
    '\r' ∉ queueAwareCall.toList ∧ '\r' ∉ peekSchedulerCode.toList ∧ '\r' ∉ flagField.toList := by
  unfold queueAwareMethod refCountField flagParameter flagAttribute queueRefMethods queueAwareCall
    peekSchedulerCode flagField
  repeat rw [String.toList_ofList]
  decide +kernel

/-! ### kv_cache_utils.py -/

theorem contains_addPopleft {isalnum : Char → Bool} {x : String} {s : List Char}
    (hx : contains x queueAwareMethod.toList = true) (hs : contains "popleft_queue_aware" s = false) :
    contains x (addPopleft isalnum s) = true := by
  have hput : ∀ {y : String}, contains y queueAwareMethod.toList = true →
      ∀ g : Nat → List Char, contains y (queueAwareMethod.toList ++ g 0) = true :=
    fun hy g => contains_of_infix hy (List.prefix_append _ _).isInfix
  simp only [addPopleft]
  cases hocc : occurs (allFreeBlocks isalnum) s with
  | true =>
      rw [if_pos (contains_replaceFirst hocc (hput marker_texts.2.1))]
      exact contains_replaceFirst hocc (hput hx)
  | false =>
      rw [replaceFirst_of_not_occurs hocc, hs, if_neg Bool.false_ne_true]
      exact contains_of_infix hx ⟨rstrip s ++ ['\n'], [], by simp⟩

theorem contains_refCountField (g : Nat → List Char) :
    contains "queue_ref_count" (g 0 ++ refCountField.toList) = true :=
  contains_of_infix marker_texts.2.2.1 (List.suffix_append (g 0) _).isInfix

theorem kvCacheUtils_idempotent (isalnum : Char → Bool) (s : List Char) :
    applyAll (kvCacheUtilsSteps isalnum) (applyAll (kvCacheUtilsSteps isalnum) s) =
      applyAll (kvCacheUtilsSteps isalnum) s := by
  have hsettled : contains "queue_ref_count" ((Step.addUnless "queue_ref_count" addRefCount).apply s) = true ∨
      occurs nullField ((Step.addUnless "queue_ref_count" addRefCount).apply s) = false :=
    addUnless_settles contains_refCountField s
  refine applyAll_of_fixed fun step hstep => ?_
  simp only [kvCacheUtilsSteps, applyAll, List.foldl_cons, List.foldl_nil, List.mem_cons,
    List.not_mem_nil, or_false] at hstep ⊢
  generalize (Step.addUnless "queue_ref_count" addRefCount).apply s = s₁ at hsettled ⊢
  cases hpop : contains "popleft_queue_aware" s₁ with
  | true =>
      rw [addUnless_of_contains hpop]
      rcases hstep with rfl | rfl
      · exact addUnless_of_settled hsettled
      · exact addUnless_of_contains hpop
  | false =>
      have hput : (Step.addUnless "popleft_queue_aware" (addPopleft isalnum)).apply s₁ =
          addPopleft isalnum s₁ := if_neg (by rw [hpop]; exact Bool.false_ne_true)
      rw [hput]
      rcases hstep with rfl | rfl
      · exact addUnless_of_contains (contains_addPopleft marker_texts.1 hpop)
      · exact addUnless_of_contains (contains_addPopleft marker_texts.2.1 hpop)

theorem cr_notMem_addRefCount (s : List Char) (hs : '\r' ∉ s) : '\r' ∉ addRefCount s :=
  notMem_replaceFirst hs fun _ hg => List.not_mem_append (hg 0) cr_notMem_texts.2.1

theorem cr_notMem_addPopleft (isalnum : Char → Bool) (s : List Char) (hs : '\r' ∉ s) :
    '\r' ∉ addPopleft isalnum s := by
  have hmethod := cr_notMem_texts.1
  have hnew : '\r' ∉ replaceFirst (allFreeBlocks isalnum) (fun g => queueAwareMethod.toList ++ g 0) s :=
    notMem_replaceFirst hs fun g hg => List.not_mem_append hmethod (hg 0)
  simp only [addPopleft]
  split
  · exact hnew
  · have hstrip : '\r' ∉ rstrip (replaceFirst (allFreeBlocks isalnum)
        (fun g => queueAwareMethod.toList ++ g 0) s) := fun h => hnew ((List.rdropWhile_prefix _ _).mem h)
    simp [hstrip, hmethod]

theorem patchKvCacheUtils_twice (isalnum : Char → Bool) (t : Target) :
    (patchKvCacheUtils isalnum (patchKvCacheUtils isalnum t).1).1 = (patchKvCacheUtils isalnum t).1 := by
  refine patchFile_twice (cr_notMem_applyAll fun step hstep => ?_)
    fun content _ => kvCacheUtils_idempotent isalnum _
  simp only [kvCacheUtilsSteps, List.mem_cons, List.not_mem_nil, or_false] at hstep
  rcases hstep with rfl | rfl
  · exact cr_notMem_addUnless cr_notMem_addRefCount
  · exact cr_notMem_addUnless (cr_notMem_addPopleft isalnum)

/-! ### block_pool.py -/

theorem inserts_addParameter :
    Inserts addParameter "\n        enable_queue_aware_eviction: bool = False,".toList := by
  have hx : "        metrics_collector: KVCacheMetricsCollector | None = None,\n    ):".toList =
      "        metrics_collector: KVCacheMetricsCollector | None = None,".toList ++
        '\n' :: "    ):".toList := by
    repeat rw [String.toList_ofList]
    rfl
  refine Inserts.within hx ?_
  rw [flagParameter]
  repeat rw [String.toList_ofList]
  rfl

theorem inserts_addAttribute : Inserts addAttribute ('\n' :: flagAttribute.toList.dropLast) := by
  refine Inserts.behind_lit ⟨"        self.metrics_collector = metrics_collector".toList, ?_⟩
    ⟨flagAttribute.toList.dropLast, ?_⟩
  · repeat rw [String.toList_ofList]
    rfl
  · rw [flagAttribute, String.toList_ofList]
    rfl

/-- The first step of `block_pool.py` has nothing left to do. -/
def MethodsSettled (s : List Char) : Prop :=
  contains "reset_queue_ref_counts" s = true ∨ occurs numFreeBlocks s = false

/-- What the later steps put in makes no place for the first one, and the call that they replace
holds nothing of its marker. -/
theorem numFreeBlocks_quiet :
    barrier numFreeBlocks [] "\n        enable_queue_aware_eviction: bool = False,".toList = true ∧
    barrier numFreeBlocks [] ('\n' :: flagAttribute.toList.dropLast) = true ∧
    barrier numFreeBlocks [] queueAwareCall.toList = true ∧
    barrier (lit "reset_queue_ref_counts") [] "        ret: list[KVCacheBlock] = self.free_block_queue.popleft_n(num_blocks)".toList = true := by
  unfold numFreeBlocks lit flagAttribute queueAwareCall
  repeat rw [String.toList_ofList]
  decide +kernel

theorem MethodsSettled.addParameter {s : List Char} (h : MethodsSettled s) :
    MethodsSettled (addParameter s) := by
  refine h.imp (fun hm => inserts_addParameter.keeps ?_ hm) fun hno => ?_
  · rw [String.toList_ofList]
    decide
  · refine Bool.eq_false_iff.mpr fun hocc => Bool.eq_false_iff.mp hno ?_
    exact inserts_addParameter.avoids (lit_plain _) numFreeBlocks_quiet.1 hocc

theorem MethodsSettled.addAttribute {s : List Char} (h : MethodsSettled s) :
    MethodsSettled (addAttribute s) := by
  refine h.imp (fun hm => inserts_addAttribute.keeps ?_ hm) fun hno => ?_
  · rw [String.toList_ofList]
    decide
  · refine Bool.eq_false_iff.mpr fun hocc => Bool.eq_false_iff.mp hno ?_
    exact inserts_addAttribute.avoids (lit_plain _) numFreeBlocks_quiet.2.1 hocc

theorem MethodsSettled.usePopleft {s : List Char} (h : MethodsSettled s) :
    MethodsSettled (usePopleft s) := by
  obtain ⟨-, -, hplace, hmarker⟩ := numFreeBlocks_quiet
  exact h.imp (fun hm => contains_replaceFirst_lit hmarker hm) fun hno => Bool.eq_false_iff.mpr fun hocc =>
    Bool.eq_false_iff.mp hno (occurs_replaceFirst (lit_plain _) hplace hocc)

theorem contains_flag {s : List Char} :
    (occurs metricsParameter s = true → contains "enable_queue_aware_eviction" (addParameter s) = true) ∧
    (occurs metricsAttribute s = true → contains "enable_queue_aware_eviction" (addAttribute s) = true) ∧
    (occurs poplefts s = true → contains "enable_queue_aware_eviction" (usePopleft s) = true) := by
  obtain ⟨-, -, -, -, hparameter, hattribute, hcall, -⟩ := marker_texts
  exact ⟨fun h => contains_replaceFirst h fun _ => hparameter,
    fun h => contains_replaceFirst h fun g => contains_of_infix hattribute (List.suffix_append (g 0) _).isInfix,
    fun h => contains_replaceFirst h fun _ => hcall⟩

/-- The second step of `block_pool.py` has nothing left to do. -/
def FlagSettled (s : List Char) : Prop :=
  contains "enable_queue_aware_eviction" s = true ∨
    occurs metricsParameter s = false ∧ occurs metricsAttribute s = false

theorem flagSettled_apply (s : List Char) : FlagSettled
    ((Step.addUnless "enable_queue_aware_eviction" fun text => addAttribute (addParameter text)).apply s) := by
  simp only [Step.apply]
  split
  next h => exact Or.inl h
  · cases hattribute : occurs metricsAttribute (addParameter s) with
    | true => exact Or.inl (contains_flag.2.1 hattribute)
    | false =>
        have hsame : addAttribute (addParameter s) = addParameter s := replaceFirst_of_not_occurs hattribute
        rw [hsame]
        cases hparameter : occurs metricsParameter s with
        | true => exact Or.inl (contains_flag.1 hparameter)
        | false =>
            have hsame : addParameter s = s := replaceFirst_of_not_occurs hparameter
            rw [hsame] at hattribute ⊢
            exact Or.inr ⟨hparameter, hattribute⟩

theorem flag_of_settled {s : List Char} (h : FlagSettled s) :
    (Step.addUnless "enable_queue_aware_eviction" fun text => addAttribute (addParameter text)).apply s = s := by
  rcases h with h | ⟨hparameter, hattribute⟩
  · exact addUnless_of_contains h
  · have hsame : addParameter s = s := replaceFirst_of_not_occurs hparameter
    have hsame' : addAttribute s = s := replaceFirst_of_not_occurs hattribute
    simp only [Step.apply, hsame, hsame', ite_self]

theorem FlagSettled.usePopleft {s : List Char} (h : FlagSettled s) : FlagSettled (usePopleft s) := by
  cases hocc : occurs poplefts s with
  | true => exact Or.inl (contains_flag.2.2 hocc)
  | false =>
      have hsame : Vllm.usePopleft s = s := replaceFirst_of_not_occurs hocc
      rw [hsame]
      exact h

theorem blockPool_idempotent (s : List Char) :
    applyAll blockPoolSteps (applyAll blockPoolSteps s) = applyAll blockPoolSteps s := by
  obtain ⟨-, -, -, hmarker, -, -, -, hcall⟩ := marker_texts
  have hmethods : MethodsSettled ((Step.addUnless "reset_queue_ref_counts" addRefMethods).apply s) :=
    addUnless_settles (fun g => contains_of_infix hmarker (List.prefix_append _ (g 0)).isInfix) s
  refine applyAll_of_fixed fun step hstep => ?_
  simp only [blockPoolSteps, applyAll, List.foldl_cons, List.foldl_nil, List.mem_cons,
    List.not_mem_nil, or_false] at hstep ⊢
  generalize (Step.addUnless "reset_queue_ref_counts" addRefMethods).apply s = s₁ at hmethods ⊢
  have hflag := flagSettled_apply s₁
  have hmethods : MethodsSettled
      ((Step.addUnless "enable_queue_aware_eviction" fun text => addAttribute (addParameter text)).apply s₁) :=
    apply_addUnless hmethods hmethods.addParameter.addAttribute
  generalize (Step.addUnless "enable_queue_aware_eviction" _).apply s₁ = s₂ at hflag hmethods ⊢
  rcases hstep with rfl | rfl | rfl
  · exact addUnless_of_settled (apply_addUnless hmethods hmethods.usePopleft)
  · exact flag_of_settled (apply_addUnless hflag hflag.usePopleft)
  · exact addUnless_of_settled (addUnless_settles (fun _ => hcall) s₂)

theorem cr_notMem_blockPool : ∀ step ∈ blockPoolSteps, ∀ s, '\r' ∉ s → '\r' ∉ step.apply s := by
  obtain ⟨-, -, hparameter, hattribute, hmethods, hcall, -⟩ := cr_notMem_texts
  intro step hstep
  simp only [blockPoolSteps, List.mem_cons, List.not_mem_nil, or_false] at hstep
  rcases hstep with rfl | rfl | rfl
  · exact cr_notMem_addUnless fun s hs => notMem_replaceFirst hs fun g hg =>
      List.not_mem_append hmethods (hg 0)
  · refine cr_notMem_addUnless fun s hs => notMem_replaceFirst ?_ fun g hg =>
      List.not_mem_append (hg 0) hattribute
    exact notMem_replaceFirst hs fun _ _ => hparameter
  · exact cr_notMem_addUnless fun s hs => notMem_replaceFirst hs fun _ _ => hcall

theorem patchBlockPool_twice (t : Target) :
    (patchBlockPool (patchBlockPool t).1).1 = (patchBlockPool t).1 :=
  patchFile_twice (cr_notMem_applyAll cr_notMem_blockPool) fun content _ =>
    blockPool_idempotent (readText content)

/-! ### scheduler.py and cache.py -/

theorem cr_notMem_hooked (s : List Char) (hs : '\r' ∉ s) : '\r' ∉ hooked s := by
  obtain ⟨-, -, -, -, -, -, hcode, -⟩ := cr_notMem_texts
  have hhook (schedule : Pattern) (s : List Char) (hs : '\r' ∉ s) : '\r' ∉ addHook schedule s :=
    notMem_replaceFirst hs fun g hg => List.not_mem_append (hg 0) hcode
  have hold : '\r' ∉ removeOldPatch s := by
    unfold removeOldPatch
    split
    · exact notMem_replaceFirst hs fun g hg => List.not_mem_nil
    · exact hs
  simp only [hooked]
  split
  · exact hhook _ _ hold
  · exact hhook _ _ (hhook _ _ hold)

theorem patchScheduler_twice (t : Target) :
    (patchScheduler (patchScheduler t).1).1 = (patchScheduler t).1 := by
  cases hfile : t.file with
  | none => simp [patchScheduler, hfile]
  | some content =>
      have hbak : t.backup.bak.isSome = true := by rw [Target.backup_bak, hfile]; simp
      cases hold : contains "_peek_hook" (readText content) with
      | true => simp [patchScheduler, hfile, hold]
      | false =>
          cases hnew : contains "_peek_hook" (hooked (readText content)) with
          | true =>
              have hread := readText_of_notMem (cr_notMem_hooked _ (cr_notMem_readText content))
              simp [patchScheduler, hfile, hold, hnew, hread, Target.write]
          | false =>
              simp [patchScheduler, hfile, hold, hnew, Target.backup_file]

theorem patchCacheConfig_twice (t : Target) :
    (patchCacheConfig (patchCacheConfig t).1).1 = (patchCacheConfig t).1 := by
  obtain ⟨-, -, -, -, -, -, -, hfield⟩ := cr_notMem_texts
  have hcr (s : List Char) (hs : '\r' ∉ s) : '\r' ∉ addField s :=
    notMem_replaceFirst hs fun g hg => List.not_mem_append (hg 0) hfield
  cases hfile : t.file with
  | none => simp [patchCacheConfig, hfile]
  | some content =>
      cases hold : contains "enable_queue_aware_eviction" (readText content) with
      | true => simp [patchCacheConfig, hfile, hold]
      | false =>
          cases hnew : contains "enable_queue_aware_eviction" (addField (readText content)) with
          | true =>
              have hread := readText_of_notMem (hcr _ (cr_notMem_readText content))
              simp [patchCacheConfig, hfile, hold, hnew, hread, Target.write]
          | false =>
              simp [patchCacheConfig, hfile, hold, hnew, Target.backup_file]

end Peek.Installer.Vllm
