/-
`radix_cache.py` patched twice.

The first three steps are followed with signs that the message cannot take away, since it may
stand anywhere in a line (`settled_firstSteps`).  The later edits are calm: they lose no marker,
they make no place, and the message stays (`Calm`).
-/
import Peek.Offline.RadixPatch

namespace Peek.Installer.Sglang

open TextPattern

/-! ### Edits that leave the earlier ones as they are -/

/-- The markers of the first steps, and of those whose lines a later edit might take away. -/
def markers : List String :=
  ["QueueAwareStrategy", "queue_ref_count", "\"queue-aware\"", "queue_ref_count = child.queue_ref_count",
    "inc_queue_ref"]

/-- The places of the first steps but for the line of the import, and the old project name. -/
def linePlaces : List Pattern := [lit "superkv", importBlock, priorityAttribute, priorityCase, splitNode]

/-- What no edit may bring in. -/
def places : List Pattern := importStart :: linePlaces

structure Calm (edit : List Char → List Char) : Prop where
  keeps : ∀ x ∈ markers, ∀ s, contains x s = true → contains x (edit s) = true
  avoids : ∀ r ∈ places, ∀ s, occurs r (edit s) = true → occurs r s = true
  message : ∀ s, updateMessage s = s → updateMessage (edit s) = edit s

theorem markers_oneLine : ∀ x ∈ markers, '\n' ∉ x.toList.tail := by
  unfold markers
  simp only [List.forall_mem_cons]
  repeat rw [String.toList_ofList]
  decide

theorem places_plain : ∀ r ∈ places, r.all Item.plain = true := by
  have hsplit : splitNode.all Item.plain = true := by
    simp [splitNode, spacesItem, lit_plain, Item.plain]
  simp only [places, linePlaces, List.forall_mem_cons]
  exact ⟨importStart_plain, lit_plain _, lit_plain _, lit_plain _, priorityCase_plain, hsplit, by simp⟩

theorem Calm.comp {edit edit' : List Char → List Char} (h' : Calm edit') (h : Calm edit) :
    Calm fun s => edit' (edit s) where
  keeps x hx s hs := h'.keeps x hx _ (h.keeps x hx s hs)
  avoids r hr s hs := h.avoids r hr s (h'.avoids r hr _ hs)
  message s hs := h'.message _ (h.message s hs)

theorem Calm.step {edit : List Char → List Char} (h : Calm edit) (marker : String) :
    Calm (Step.addUnless marker edit).apply where
  keeps x hx s hs := apply_addUnless (P := fun s => contains x s = true) hs (h.keeps x hx s hs)
  avoids r hr s := apply_addUnless (P := fun t => occurs r t = true → occurs r s = true) id (h.avoids r hr s)
  message s hs := apply_addUnless (P := fun t => updateMessage t = t) hs (h.message s hs)

/-- Lines that the places and the message die in. -/
def quiet (lines : List Char) : Bool :=
  places.all (fun r => barrier r ['\n'] (lines ++ ['\n'])) && barrier policiesMessage [] ('\n' :: lines ++ ['\n'])

theorem calm_of_inserts {edit : List Char → List Char} {lines : List Char}
    (h : Inserts edit ('\n' :: lines)) (hlines : quiet lines = true) : Calm edit := by
  obtain ⟨hplaces, hmessage⟩ := Bool.and_eq_true_iff.mp hlines
  have hnewline : barrier policiesMessage [] ['\n'] = true := by
    unfold policiesMessage lit
    repeat rw [String.toList_ofList]
    decide
  exact {
    keeps := fun x hx s hs => h.keeps (markers_oneLine x hx) hs
    avoids := fun r hr s hs => h.avoids_line (places_plain r hr) (List.all_eq_true.mp hplaces r hr) hs
    message := fun s hs => h.replaceFirst_fixed hnewline hmessage hs }

theorem quiet_lines : quiet refCountLines.toList.dropLast = true ∧
    quiet queueAwareCase.toList.dropLast = true ∧ quiet inheritLine.toList.dropLast = true ∧
    quiet queueRefMethods.toList.tail = true ∧ quiet matchPrefixReadonlyMethod.toList.tail = true := by
  unfold quiet places linePlaces importStart importBlock priorityAttribute priorityCase splitNode
    policiesMessage lit refCountLines queueAwareCase inheritLine queueRefMethods matchPrefixReadonlyMethod
  repeat rw [String.toList_ofList]
  decide +kernel

theorem calm_addRefCount : Calm addRefCount := calm_of_inserts inserts_addRefCount quiet_lines.1

theorem calm_addCase : Calm addCase := calm_of_inserts inserts_addCase quiet_lines.2.1

theorem calm_inheritRefCount : Calm inheritRefCount :=
  calm_of_inserts inserts_inheritRefCount quiet_lines.2.2.1

theorem calm_addRefMethods : Calm addRefMethods := by
  have hlines : queueRefMethods.toList = '\n' :: queueRefMethods.toList.tail := by
    rw [queueRefMethods, String.toList_ofList]
    rfl
  have hinserts := inserts_addRefMethods
  rw [hlines] at hinserts
  exact calm_of_inserts hinserts quiet_lines.2.2.2.1

theorem matchPrefixReadonlyMethod_eq :
    matchPrefixReadonlyMethod.toList = '\n' :: matchPrefixReadonlyMethod.toList.tail := by
  rw [matchPrefixReadonlyMethod, String.toList_ofList]
  rfl

theorem inserts_matchPrefixReadonly :
    Inserts addReadonlyMatch ('\n' :: matchPrefixReadonlyMethod.toList.tail) := by
  have hinserts := inserts_addReadonlyMatch
  rwa [matchPrefixReadonlyMethod_eq] at hinserts

theorem calm_addReadonlyMatch : Calm addReadonlyMatch :=
  calm_of_inserts inserts_matchPrefixReadonly quiet_lines.2.2.2.2

/-- Lines that may go: no marker and no message is in them. -/
def mayGo (head last : String) (cs : List Char) : Bool :=
  markers.all (fun x => passesBy (lit x) head last cs) && passesBy policiesMessage head last cs

/-- Lines that may come: no place is in them, but for `importStart`, and no message. -/
def mayCome (head last : String) (cs : List Char) : Bool :=
  linePlaces.all (fun r => passesBy r head last cs) && passesBy policiesMessage head last cs

theorem calm_of_exchanges {edit : List Char → List Char} {head last head' last' : String}
    {cs cs' : List Char} (h : Exchanges edit head last cs head' last' cs')
    (himport : ∀ s, occurs importStart (edit s) = true → occurs importStart s = true)
    (hgo : mayGo head last cs = true) (hcome : mayCome head' last' cs' = true) : Calm edit := by
  obtain ⟨hmarkers, hmessage⟩ := Bool.and_eq_true_iff.mp hgo
  obtain ⟨hplaces, hmessage'⟩ := Bool.and_eq_true_iff.mp hcome
  refine ⟨fun x hx s hs => ?_, fun r hr s hs => ?_, fun s hs => ?_⟩
  · exact h.keeps (List.all_eq_true.mp hmarkers x hx) hs
  · rcases List.mem_cons.mp hr with rfl | hr
    · exact himport s hs
    · exact h.avoids (List.all_eq_true.mp hplaces r hr) hs
  · exact h.replaceFirst_fixed hmessage hmessage' hs

/-- The places that may go on into what the heads of the two edits begin with. -/
theorem headPlaces_quiet : ∀ r ∈ [importStart, evictableSize],
    barrier r "def _match_prefix_helper(self, node: TreeNode, key: RadixKey".toList
        ", update_lru: bool = True):".toList = true ∧
      r.any (Item.rejects (['\n'] ++ (spaces ++ helperLines.toList ++
        "    access_time = None".toList))) = true ∧
      barrier r "child = node.children[child".toList "_key]".toList = true ∧
      r.any (Item.rejects (['\n'] ++ (spaces ++ "if update_lru:\n".toList ++
        "    child.last_access_time = access_time".toList))) = true := by
  simp only [List.forall_mem_cons]
  unfold importStart evictableSize helperLines lit
  repeat rw [String.toList_ofList]
  decide +kernel

theorem evictableSize_oneLine : '\n' ∉ "\n    def evictable_size(self):".toList.tail := by
  rw [String.toList_ofList]
  decide

theorem headPlaces_breaks : ∀ r ∈ [importStart, evictableSize], Breaks r := by
  have himport : barrier importStart [] ['\n'] = true := by
    unfold importStart lit
    rw [String.toList_ofList]
    decide
  simp only [List.forall_mem_cons]
  exact ⟨breaks_of_barrier importStart_plain himport, breaks_lit evictableSize_oneLine, by simp⟩

theorem headPlaces_plain : ∀ r ∈ [importStart, evictableSize], r.all Item.plain = true := by
  simp only [List.forall_mem_cons]
  exact ⟨importStart_plain, lit_plain _, by simp⟩

theorem addUpdateLru_avoids {r : Pattern} {s : List Char} (hr : r ∈ [importStart, evictableSize])
    (h : occurs r (addUpdateLru s) = true) : occurs r s = true := by
  obtain ⟨hb, hrej, -⟩ := headPlaces_quiet r hr
  have hhead : "def _match_prefix_helper(self, node: TreeNode, key: RadixKey):\n".toList =
      "def _match_prefix_helper(self, node: TreeNode, key: RadixKey".toList ++ "):\n".toList := by
    repeat rw [String.toList_ofList]
    rfl
  have hhead' : "def _match_prefix_helper(self, node: TreeNode, key: RadixKey, update_lru: bool = True):\n".toList =
      "def _match_prefix_helper(self, node: TreeNode, key: RadixKey".toList ++
        (", update_lru: bool = True):".toList ++ ['\n']) := by
    repeat rw [String.toList_ofList]
    rfl
  have hlast : "node.last_access_time = access_time\n".toList =
      "node.last_access_time = access_time".toList ++ ['\n'] := by
    repeat rw [String.toList_ofList]
    rfl
  have hlast' : "    access_time = None\n".toList = "    access_time = None".toList ++ ['\n'] := by
    repeat rw [String.toList_ofList]
    rfl
  exact exchanges_addUpdateLru.avoids_line (headPlaces_plain r hr) (headPlaces_breaks r hr) hb hrej hhead hhead'
    hlast hlast' h

theorem guardAccess_avoids {r : Pattern} {s : List Char} (hr : r ∈ [importStart, evictableSize])
    (h : occurs r (guardAccess s) = true) : occurs r s = true := by
  obtain ⟨-, -, hb, hrej⟩ := headPlaces_quiet r hr
  have hhead : "child = node.children[child_key]\n".toList =
      "child = node.children[child".toList ++ ("_key]".toList ++ ['\n']) := by
    repeat rw [String.toList_ofList]
    rfl
  have hlast : "child.last_access_time = access_time\n".toList =
      "child.last_access_time = access_time".toList ++ ['\n'] := by
    repeat rw [String.toList_ofList]
    rfl
  have hlast' : "    child.last_access_time = access_time\n".toList =
      "    child.last_access_time = access_time".toList ++ ['\n'] := by
    repeat rw [String.toList_ofList]
    rfl
  exact exchanges_guardAccess.avoids_line (headPlaces_plain r hr) (headPlaces_breaks r hr) hb hrej hhead hhead
    hlast hlast' h

theorem helper_quiet :
    (mayGo "def _match_prefix_helper(self, node: TreeNode, key: RadixKey):\n"
        "node.last_access_time = access_time\n"
        (spaces ++ "access_time = time.monotonic()\n".toList) = true ∧
      mayCome "def _match_prefix_helper(self, node: TreeNode, key: RadixKey, update_lru: bool = True):\n"
        "    access_time = None\n" (spaces ++ helperLines.toList) = true) ∧
    mayGo "child = node.children[child_key]\n" "child.last_access_time = access_time\n" spaces = true ∧
      mayCome "child = node.children[child_key]\n" "    child.last_access_time = access_time\n"
        (spaces ++ "if update_lru:\n".toList) = true := by
  unfold mayGo mayCome passesBy markers linePlaces importBlock priorityAttribute priorityCase splitNode
    policiesMessage helperLines
  simp only [List.all_cons, List.all_nil]
  unfold lit
  repeat rw [String.toList_ofList]
  decide +kernel

theorem calm_addUpdateLru : Calm addUpdateLru :=
  calm_of_exchanges exchanges_addUpdateLru (fun _ => addUpdateLru_avoids (by simp))
    helper_quiet.1.1 helper_quiet.1.2

theorem calm_guardAccess : Calm guardAccess :=
  calm_of_exchanges exchanges_guardAccess (fun _ => guardAccess_avoids (by simp))
    helper_quiet.2.1 helper_quiet.2.2

/-! ### The words of the texts -/

/-- The markers in the texts that the edits put in. -/
theorem marker_texts :
    contains "\n        self.queue_ref_count = 0" refCountLines.toList = true ∧
    contains "        elif self.eviction_policy == \"queue-aware\":\n" queueAwareCase.toList = true ∧
    contains "queue_ref_count = child.queue_ref_count" inheritLine.toList = true ∧
    contains "inc_queue_ref" queueRefMethods.toList = true ∧
    contains "update_lru" "if update_lru:\n".toList = true ∧
    contains "update_lru"
      "def _match_prefix_helper(self, node: TreeNode, key: RadixKey, update_lru: bool = True):\n".toList = true ∧
    contains "update_lru" matchPrefixReadonlyMethod.toList = true ∧
    contains "match_prefix_readonly" matchPrefixReadonlyMethod.toList = true := by
  unfold contains lit refCountLines queueAwareCase inheritLine queueRefMethods matchPrefixReadonlyMethod
  repeat rw [String.toList_ofList]
  decide +kernel

theorem addReadonlyMatch_evictableSize {s : List Char}
    (h : occurs evictableSize (addReadonlyMatch s) = true) : occurs evictableSize s = true := by
  have hword : contains "\n    def evictable_size(self):" matchPrefixReadonlyMethod.toList = false := by
    unfold contains lit matchPrefixReadonlyMethod
    repeat rw [String.toList_ofList]
    decide +kernel
  rw [matchPrefixReadonlyMethod_eq] at hword
  exact inserts_matchPrefixReadonly.avoids_word evictableSize_oneLine hword h

/-! ### The first steps -/

theorem Calm.misses {edit : List Char → List Char} {r : Pattern} {s : List Char} (h : Calm edit)
    (hr : r ∈ places) (hs : occurs r s = false) : occurs r (edit s) = false :=
  Bool.eq_false_iff.mpr fun hocc => Bool.eq_false_iff.mp hs (h.avoids r hr s hocc)

/-- The first three steps have nothing more to do, nor has the last one. -/
structure Settled (s : List Char) : Prop where
  name : contains "superkv" s = false
  strategy : contains "QueueAwareStrategy" s = true ∨
    occurs importBlock s = false ∧ occurs importStart s = false
  refCount : contains "queue_ref_count" s = true ∨ occurs priorityAttribute s = false
  queueAware : contains "\"queue-aware\"" s = true ∨ occurs priorityCase s = false ∧ updateMessage s = s

theorem Calm.settled {edit : List Char → List Char} {s : List Char} (h : Calm edit) (hs : Settled s) :
    Settled (edit s) where
  name := h.misses (by simp [places, linePlaces]) hs.name
  strategy := hs.strategy.imp (h.keeps _ (by simp [markers]) s)
    (And.imp (h.misses (by simp [places, linePlaces])) (h.misses (by simp [places])))
  refCount := hs.refCount.imp (h.keeps _ (by simp [markers]) s) (h.misses (by simp [places, linePlaces]))
  queueAware := hs.queueAware.imp (h.keeps _ (by simp [markers]) s)
    (And.imp (h.misses (by simp [places, linePlaces])) (h.message s))

/-- A sign of each of the first edits that the message cannot hold. -/
def signs : List String :=
  ["\n    QueueAwareStrategy,", "\nfrom sglang.srt.mem_cache.evict_policy import QueueAwareStrategy",
    "\n        self.queue_ref_count = 0", "        elif self.eviction_policy == \"queue-aware\":\n"]

theorem signs_kept : ∀ y ∈ signs, '\n' ∈ y.toList ∧
    barrier (lit y) [] "Supported policies: '".toList = true ∧ barrier (lit y) [] "'.".toList = true := by
  unfold signs
  simp only [List.forall_mem_cons]
  unfold lit
  repeat rw [String.toList_ofList]
  decide +kernel

/-- The same before the message is updated. -/
structure Signed (s : List Char) : Prop where
  name : contains "superkv" s = false
  strategy : ImportSettled s
  refCount : contains "\n        self.queue_ref_count = 0" s = true ∨ occurs priorityAttribute s = false

theorem ImportSettled.inserts {edit : List Char → List Char} {lines s : List Char} (hcalm : Calm edit)
    (h : Inserts edit ('\n' :: lines)) (hs : ImportSettled s) : ImportSettled (edit s) := by
  refine hs.imp (Or.imp (h.keeps ?_) (h.keeps ?_)) (And.imp ?_ ?_)
  · rw [String.toList_ofList]
    decide
  · rw [String.toList_ofList]
    decide
  · exact hcalm.misses (by simp [places, linePlaces])
  · exact hcalm.misses (by simp [places])

theorem Signed.inserts {edit : List Char → List Char} {lines s : List Char} (hcalm : Calm edit)
    (h : Inserts edit ('\n' :: lines)) (hs : Signed s) : Signed (edit s) where
  name := hcalm.misses (by simp [places, linePlaces]) hs.name
  strategy := hs.strategy.inserts hcalm h
  refCount := by
    have hnewline : '\n' ∉ "\n        self.queue_ref_count = 0".toList.tail := by
      rw [String.toList_ofList]
      decide
    exact hs.refCount.imp (h.keeps hnewline) (hcalm.misses (by simp [places, linePlaces]))

theorem updateMessage_misses {r : Pattern} {s : List Char}
    (hr : r ∈ [lit "superkv", importBlock, priorityAttribute]) (hs : occurs r s = false) :
    occurs r (updateMessage s) = false := by
  have hquiet : ∀ r ∈ [lit "superkv", importBlock, priorityAttribute],
      barrier r [] allPolicies.toList = true := by
    unfold importBlock priorityAttribute lit allPolicies
    repeat rw [String.toList_ofList]
    decide +kernel
  have hplain : r.all Item.plain = true := by
    simp only [List.mem_cons, List.not_mem_nil, or_false] at hr
    rcases hr with rfl | rfl | rfl <;> exact lit_plain _
  exact Bool.eq_false_iff.mpr fun hocc =>
    Bool.eq_false_iff.mp hs (updateMessage_avoids hplain (hquiet r hr) hocc)

theorem updateMessage_sign {y : String} {s : List Char} (hy : y ∈ signs) (h : contains y s = true) :
    contains y (updateMessage s) = true :=
  updateMessage_keeps (signs_kept y hy).1 (signs_kept y hy).2.1 (signs_kept y hy).2.2 h

theorem Signed.updateMessage {s : List Char} (hs : Signed s) : Signed (updateMessage s) where
  name := updateMessage_misses (by simp) hs.name
  strategy := by
    refine hs.strategy.imp (Or.imp (updateMessage_sign ?_) (updateMessage_sign ?_))
      (And.imp (updateMessage_misses ?_) fun h => ?_)
    case refine_4 => exact Bool.eq_false_iff.mpr fun hocc => Bool.eq_false_iff.mp h (updateMessage_importStart hocc)
    all_goals simp [signs]
  refCount := hs.refCount.imp (updateMessage_sign (by simp [signs])) (updateMessage_misses (by simp))

/-- The words of Peek that the file must not have before the first run. -/
structure Fresh (s : List Char) : Prop where
  name : contains "superkv" s = false
  strategy : contains "QueueAwareStrategy" s = false
  refCount : contains "queue_ref_count" s = false

theorem addImport_misses {x : String} {s : List Char} (hx : x ∈ ["superkv", "queue_ref_count"])
    (hs : contains x s = false) : contains x (addImport s) = false := by
  have hquiet : ∀ x ∈ ["superkv", "queue_ref_count"], barrier (lit x) [] importBlockHead.toList = true ∧
      barrier (lit x) [] importStrategy.toList = true := by
    simp only [List.forall_mem_cons]
    unfold lit importBlockHead importStrategy
    repeat rw [String.toList_ofList]
    decide +kernel
  exact Bool.eq_false_iff.mpr fun hocc => Bool.eq_false_iff.mp hs
    (addImport_avoids (lit_plain x) (hquiet x hx).1 (hquiet x hx).2 hocc)

theorem signed_firstSteps {s : List Char} (hs : Fresh s) :
    Signed ((Step.addUnless "queue_ref_count" addRefCount).apply
      ((Step.addUnless "QueueAwareStrategy" addImport).apply s)) := by
  have himport : (Step.addUnless "QueueAwareStrategy" addImport).apply s = addImport s :=
    if_neg (Bool.eq_false_iff.mp hs.strategy)
  have hname := addImport_misses (by simp) hs.name
  have hcount := addImport_misses (by simp) hs.refCount
  have hrefCount : (Step.addUnless "queue_ref_count" addRefCount).apply (addImport s) =
      addRefCount (addImport s) := if_neg (Bool.eq_false_iff.mp hcount)
  rw [himport, hrefCount]
  refine ⟨calm_addRefCount.misses (by simp [places, linePlaces]) hname,
    (importSettled_addImport hs.strategy).inserts calm_addRefCount inserts_addRefCount, ?_⟩
  cases hocc : occurs priorityAttribute (addImport s) with
  | true =>
      exact Or.inl (contains_replaceFirst hocc fun g =>
        contains_of_infix marker_texts.1 (List.suffix_append (g 0) _).isInfix)
  | false => exact Or.inr (calm_addRefCount.misses (by simp [places, linePlaces]) hocc)

theorem contains_of_word {x y : String} {s : List Char} (hxy : contains x y.toList = true)
    (h : contains y s = true) : contains x s = true := contains_of_infix hxy (contains_iff.mp h)

/-- The markers in the signs. -/
theorem marker_signs :
    contains "QueueAwareStrategy" "\n    QueueAwareStrategy,".toList = true ∧
    contains "QueueAwareStrategy"
      "\nfrom sglang.srt.mem_cache.evict_policy import QueueAwareStrategy".toList = true ∧
    contains "queue_ref_count" "\n        self.queue_ref_count = 0".toList = true ∧
    contains "\"queue-aware\"" "        elif self.eviction_policy == \"queue-aware\":\n".toList = true := by
  unfold contains lit
  repeat rw [String.toList_ofList]
  decide +kernel

theorem settled_of_signed {s : List Char} (hs : Signed s)
    (hcase : contains "\"queue-aware\"" s = true ∨ occurs priorityCase s = false ∧ updateMessage s = s) :
    Settled s where
  name := hs.name
  strategy := hs.strategy.imp_left fun h =>
    h.elim (contains_of_word marker_signs.1) (contains_of_word marker_signs.2.1)
  refCount := hs.refCount.imp_left (contains_of_word marker_signs.2.2.1)
  queueAware := hcase

theorem settled_addCase {s : List Char} (hs : Signed s) :
    Settled ((Step.addUnless "\"queue-aware\"" fun text => updateMessage (addCase text)).apply s) := by
  simp only [Step.apply]
  split
  next hmarker => exact settled_of_signed hs (Or.inl hmarker)
  · have hs := (hs.inserts calm_addCase inserts_addCase).updateMessage
    refine settled_of_signed hs ?_
    cases hocc : occurs priorityCase s with
    | true =>
        have hcase : contains "        elif self.eviction_policy == \"queue-aware\":\n" (addCase s) = true :=
          contains_replaceFirst hocc fun g => contains_of_infix marker_texts.2.1
            (List.suffix_append (g 0) _).isInfix
        exact Or.inl (contains_of_word marker_signs.2.2.2 (updateMessage_sign (by simp [signs]) hcase))
    | false =>
        have hmiss := calm_addCase.misses (by simp [places, linePlaces]) hocc
        exact Or.inr ⟨Bool.eq_false_iff.mpr fun h =>
          Bool.eq_false_iff.mp hmiss (updateMessage_priorityCase h), updateMessage_twice _⟩

/-! ### All the steps -/

theorem importStart_of_importLine {s : List Char} (h : occurs importLine s = true) :
    occurs importStart s = true := by
  obtain ⟨u, w, v, rfl, hw⟩ := exists_takes importLine_plain h
  have heq : importLine = importStart ++ [.many false isDot] := by
    rw [importLine, importStart, List.append_assoc]
    rfl
  rw [heq] at hw
  obtain ⟨w₁, w₂, rfl, hstart, -⟩ := takes_append hw
  have := hstart.occurs (u := u) (v := w₂ ++ v)
  simpa using this

theorem Settled.addImport {s : List Char} (hs : Settled s) :
    (Step.addUnless "QueueAwareStrategy" addImport).apply s = s := by
  rcases hs.strategy with h | ⟨hblock, hstart⟩
  · exact addUnless_of_contains h
  · have hline : occurs importLine s = false := Bool.eq_false_iff.mpr fun h =>
      Bool.eq_false_iff.mp hstart (importStart_of_importLine h)
    simp only [Step.apply, Sglang.addImport, replaceFirst_of_not_occurs hblock,
      replaceFirst_of_not_occurs hline, ite_self]

theorem Settled.addCase {s : List Char} (hs : Settled s) :
    (Step.addUnless "\"queue-aware\"" fun text => updateMessage (addCase text)).apply s = s := by
  rcases hs.queueAware with h | ⟨hcase, hmessage⟩
  · exact addUnless_of_contains h
  · have hsame : Sglang.addCase s = s := replaceFirst_of_not_occurs hcase
    simp only [Step.apply, hsame, hmessage, ite_self]

/-- The step has its marker in the text, or its place is missing. -/
def Done (x : String) (r : Pattern) (s : List Char) : Prop := contains x s = true ∨ occurs r s = false

theorem Calm.done {edit : List Char → List Char} {x : String} {r : Pattern} {s : List Char} (h : Calm edit)
    (hx : x ∈ markers) (hr : occurs r (edit s) = true → occurs r s = true) (hs : Done x r s) :
    Done x r (edit s) :=
  hs.imp (h.keeps x hx s) fun hno => Bool.eq_false_iff.mpr fun hocc => Bool.eq_false_iff.mp hno (hr hocc)

/-- The same for the two edits of `_match_prefix_helper`. -/
def HelperDone (s : List Char) : Prop :=
  contains "update_lru" s = true ∨ occurs matchHelper s = false ∧ occurs childAccess s = false

theorem helperDone_step (s : List Char) :
    HelperDone ((Step.addUnless "update_lru" fun text => guardAccess (addUpdateLru text)).apply s) := by
  obtain ⟨-, -, -, -, hguard, hhead, -⟩ := marker_texts
  simp only [Step.apply]
  split
  next hmarker => exact Or.inl hmarker
  · cases hchild : occurs childAccess (addUpdateLru s) with
    | true =>
        refine Or.inl (contains_replaceFirst hchild fun g => contains_of_infix hguard ?_)
        exact ⟨g 0 ++ (g 1 ++ g 0), g 0 ++ "    child.last_access_time = access_time\n".toList, by simp⟩
    | false =>
        have hsame : guardAccess (addUpdateLru s) = addUpdateLru s := replaceFirst_of_not_occurs hchild
        rw [hsame]
        cases hhelper : occurs matchHelper s with
        | true =>
            exact Or.inl (contains_replaceFirst hhelper fun g =>
              contains_of_infix hhead (List.prefix_append _ _).isInfix)
        | false =>
            have hsame : addUpdateLru s = s := replaceFirst_of_not_occurs hhelper
            rw [hsame] at hchild ⊢
            exact Or.inr ⟨hhelper, hchild⟩

theorem HelperDone.apply {s : List Char} (hs : HelperDone s) :
    (Step.addUnless "update_lru" fun text => guardAccess (addUpdateLru text)).apply s = s := by
  rcases hs with h | ⟨hhelper, hchild⟩
  · exact addUnless_of_contains h
  · have hsame : addUpdateLru s = s := replaceFirst_of_not_occurs hhelper
    have hsame' : guardAccess s = s := replaceFirst_of_not_occurs hchild
    simp only [Step.apply, hsame, hsame', ite_self]

theorem HelperDone.addReadonlyMatch {s : List Char} (hs : HelperDone s) : HelperDone (addReadonlyMatch s) := by
  obtain ⟨-, -, -, -, -, -, hmethod, -⟩ := marker_texts
  cases hocc : occurs insertDef s with
  | true =>
      exact Or.inl (contains_replaceFirst hocc fun g =>
        contains_of_infix hmethod (List.prefix_append _ (g 0)).isInfix)
  | false =>
      have hsame : Sglang.addReadonlyMatch s = s := replaceFirst_of_not_occurs hocc
      rwa [hsame]

/-- No step has anything more to do. -/
structure AllDone (s : List Char) : Prop where
  settled : Settled s
  split : Done "queue_ref_count = child.queue_ref_count" splitNode s
  methods : Done "inc_queue_ref" evictableSize s
  helper : HelperDone s
  readonly : Done "match_prefix_readonly" insertDef s

theorem settled_inherit {s : List Char} (hs : Settled s) :
    Settled ((Step.addUnless "queue_ref_count = child.queue_ref_count" inheritRefCount).apply s) ∧
      Done "queue_ref_count = child.queue_ref_count" splitNode
        ((Step.addUnless "queue_ref_count = child.queue_ref_count" inheritRefCount).apply s) := by
  have hline : ∀ g : Nat → List Char, contains "queue_ref_count = child.queue_ref_count"
      (g 0 ++ (inheritLine.toList ++ g 1)) = true := fun g =>
    contains_of_infix marker_texts.2.2.1 ⟨g 0, g 1, List.append_assoc _ _ _⟩
  exact ⟨(calm_inheritRefCount.step _).settled hs, addUnless_settles hline s⟩

theorem settled_methods {s : List Char} (hs : Settled s)
    (hsplit : Done "queue_ref_count = child.queue_ref_count" splitNode s) :
    Settled ((Step.addUnless "inc_queue_ref" addRefMethods).apply s) ∧
      Done "queue_ref_count = child.queue_ref_count" splitNode
        ((Step.addUnless "inc_queue_ref" addRefMethods).apply s) ∧
      Done "inc_queue_ref" evictableSize ((Step.addUnless "inc_queue_ref" addRefMethods).apply s) := by
  have hmethods : ∀ g : Nat → List Char, contains "inc_queue_ref" (queueRefMethods.toList ++ g 0) = true :=
    fun g => contains_of_infix marker_texts.2.2.2.1 (List.prefix_append _ (g 0)).isInfix
  have hcalm := calm_addRefMethods.step "inc_queue_ref"
  exact ⟨hcalm.settled hs,
    hcalm.done (by simp [markers]) (hcalm.avoids _ (by simp [places, linePlaces]) s) hsplit,
    addUnless_settles hmethods s⟩

/-- The last two edits have their markers, and the earlier ones stay as they are. -/
theorem allDone_lastSteps {s : List Char} (hs : Settled s)
    (hsplit : Done "queue_ref_count = child.queue_ref_count" splitNode s)
    (hmethods : Done "inc_queue_ref" evictableSize s) :
    AllDone ((Step.addUnless "match_prefix_readonly" addReadonlyMatch).apply
      ((Step.addUnless "update_lru" fun text => guardAccess (addUpdateLru text)).apply s)) := by
  have hreadonly : ∀ g : Nat → List Char, contains "match_prefix_readonly"
      (matchPrefixReadonlyMethod.toList ++ g 0) = true := fun g =>
    contains_of_infix marker_texts.2.2.2.2.2.2.2 (List.prefix_append _ (g 0)).isInfix
  have hlru := (calm_guardAccess.comp calm_addUpdateLru).step "update_lru"
  have hmatch := calm_addReadonlyMatch.step "match_prefix_readonly"
  have hevict : occurs evictableSize
      ((Step.addUnless "update_lru" fun text => guardAccess (addUpdateLru text)).apply s) = true →
      occurs evictableSize s = true :=
    apply_addUnless (P := fun t => occurs evictableSize t = true → occurs evictableSize s = true) id
      fun h => addUpdateLru_avoids (by simp) (guardAccess_avoids (by simp) h)
  have hhelper := helperDone_step s
  have hs := hlru.settled hs
  have hsplit := hlru.done (by simp [markers]) (hlru.avoids _ (by simp [places, linePlaces]) s) hsplit
  have hmethods := hlru.done (by simp [markers]) hevict hmethods
  generalize (Step.addUnless "update_lru" fun text => guardAccess (addUpdateLru text)).apply s = s₁ at *
  have hevict : occurs evictableSize
      ((Step.addUnless "match_prefix_readonly" addReadonlyMatch).apply s₁) = true →
      occurs evictableSize s₁ = true :=
    apply_addUnless (P := fun t => occurs evictableSize t = true → occurs evictableSize s₁ = true) id
      addReadonlyMatch_evictableSize
  exact {
    settled := hmatch.settled hs
    split := hmatch.done (by simp [markers]) (hmatch.avoids _ (by simp [places, linePlaces]) s₁) hsplit
    methods := hmatch.done (by simp [markers]) hevict hmethods
    helper := apply_addUnless (P := HelperDone) hhelper hhelper.addReadonlyMatch
    readonly := addUnless_settles hreadonly s₁ }

theorem AllDone.fixed {s : List Char} (hs : AllDone s) : ∀ step ∈ radixCacheSteps, step.apply s = s := by
  intro step hstep
  simp only [radixCacheSteps, List.mem_cons, List.not_mem_nil, or_false] at hstep
  rcases hstep with rfl | rfl | rfl | rfl | rfl | rfl | rfl | rfl
  · exact hs.settled.addImport
  · exact addUnless_of_settled hs.settled.refCount
  · exact hs.settled.addCase
  · exact addUnless_of_settled hs.split
  · exact addUnless_of_settled hs.methods
  · exact hs.helper.apply
  · exact addUnless_of_settled hs.readonly
  · exact superkv_of_not_contains hs.settled.name

theorem allDone_radixCache {s : List Char} (hs : Fresh s) : AllDone (applyAll radixCacheSteps s) := by
  obtain ⟨hsettled, hsplit⟩ := settled_inherit (settled_addCase (signed_firstSteps hs))
  obtain ⟨hsettled, hsplit, hmethods⟩ := settled_methods hsettled hsplit
  have hdone := allDone_lastSteps hsettled hsplit hmethods
  have hlast := superkv_of_not_contains hdone.settled.name
  simp only [applyAll, radixCacheSteps, List.foldl_cons, List.foldl_nil]
  rw [hlast]
  exact hdone

theorem radixCache_idempotent {s : List Char} (hs : Fresh s) :
    applyAll radixCacheSteps (applyAll radixCacheSteps s) = applyAll radixCacheSteps s :=
  applyAll_of_fixed (allDone_radixCache hs).fixed

/-! ### No "\r" comes in -/

/-- The texts that the edits put in. -/
theorem cr_notMem_texts : '\r' ∉ importBlockHead.toList ∧ '\r' ∉ importStrategy.toList ∧
    '\r' ∉ refCountLines.toList ∧ '\r' ∉ queueAwareCase.toList ∧ '\r' ∉ allPolicies.toList ∧
    '\r' ∉ inheritLine.toList ∧ '\r' ∉ queueRefMethods.toList ∧ '\r' ∉ matchPrefixReadonlyMethod.toList := by
  unfold importBlockHead importStrategy refCountLines queueAwareCase allPolicies inheritLine queueRefMethods
    matchPrefixReadonlyMethod
  repeat rw [String.toList_ofList]
  decide +kernel

theorem cr_notMem_addImport {s : List Char} (hs : '\r' ∉ s) : '\r' ∉ addImport s := by
  obtain ⟨hblock, hline, -⟩ := cr_notMem_texts
  have hfirst : '\r' ∉ replaceFirst importBlock (fun _ => importBlockHead.toList) s :=
    notMem_replaceFirst hs fun _ _ => hblock
  simp only [addImport]
  split
  · exact hfirst
  · exact notMem_replaceFirst hfirst fun g hg => List.not_mem_append (hg 0) hline

theorem cr_notMem_helperTexts : ∀ x ∈
    ["def _match_prefix_helper(self, node: TreeNode, key: RadixKey, update_lru: bool = True):\n",
      "if update_lru:\n", "    access_time = time.monotonic()\n", "    node.last_access_time = access_time\n",
      "else:\n", "    access_time = None\n", "    child.last_access_time = access_time\n"],
    '\r' ∉ x.toList := by
  simp only [List.forall_mem_cons]
  repeat rw [String.toList_ofList]
  decide +kernel

theorem cr_notMem_addUpdateLru {s : List Char} (hs : '\r' ∉ s) : '\r' ∉ addUpdateLru s := by
  have htext := cr_notMem_helperTexts
  simp only [List.forall_mem_cons] at htext
  obtain ⟨hhead, hif, hnow, hnode, helse, hnone, -⟩ := htext
  refine notMem_replaceFirst hs fun g hg => ?_
  simp only [List.mem_append, not_or]
  exact ⟨hhead, hg 1, hif, hg 1, hnow, hg 1, hnode, hg 1, helse, hg 1, hnone⟩

theorem cr_notMem_guardAccess {s : List Char} (hs : '\r' ∉ s) : '\r' ∉ guardAccess s := by
  have htext := cr_notMem_helperTexts
  simp only [List.forall_mem_cons] at htext
  obtain ⟨-, hif, -, -, -, -, hchild, -⟩ := htext
  refine notMem_replaceFirst hs fun g hg => ?_
  simp only [List.mem_append, not_or]
  exact ⟨hg 0, hg 1, hg 0, hif, hg 0, hchild⟩

theorem cr_notMem_radixCache : ∀ step ∈ radixCacheSteps, ∀ s, '\r' ∉ s → '\r' ∉ step.apply s := by
  obtain ⟨-, -, hcount, hcase, hmessage, hinherit, hmethods, hreadonly⟩ := cr_notMem_texts
  intro step hstep
  simp only [radixCacheSteps, List.mem_cons, List.not_mem_nil, or_false] at hstep
  rcases hstep with rfl | rfl | rfl | rfl | rfl | rfl | rfl | rfl
  · exact cr_notMem_addUnless fun s => cr_notMem_addImport
  · exact cr_notMem_addUnless fun s hs => notMem_replaceFirst hs fun g hg =>
      List.not_mem_append (hg 0) hcount
  · refine cr_notMem_addUnless fun s hs => notMem_replaceFirst ?_ fun g hg => hmessage
    exact notMem_replaceFirst hs fun g hg => List.not_mem_append (hg 0) hcase
  · exact cr_notMem_addUnless fun s hs => notMem_replaceFirst hs fun g hg =>
      List.not_mem_append (hg 0) (List.not_mem_append hinherit (hg 1))
  · exact cr_notMem_addUnless fun s hs => notMem_replaceFirst hs fun g hg =>
      List.not_mem_append hmethods (hg 0)
  · exact cr_notMem_addUnless fun s hs => cr_notMem_guardAccess (cr_notMem_addUpdateLru hs)
  · exact cr_notMem_addUnless fun s hs => notMem_replaceFirst hs fun g hg =>
      List.not_mem_append hreadonly (hg 0)
  · exact cr_notMem_superkv

theorem patchRadixCache_twice {t : Target} (ht : ∀ content, t.file = some content → Fresh (readText content)) :
    (patchRadixCache (patchRadixCache t).1).1 = (patchRadixCache t).1 :=
  patchFile_twice (cr_notMem_applyAll cr_notMem_radixCache) fun content hcontent =>
    radixCache_idempotent (ht content hcontent)

end Peek.Installer.Sglang
