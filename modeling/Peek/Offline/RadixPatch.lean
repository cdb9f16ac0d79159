/-
What the edits of `radix_cache.py` leave alone.

`patch_radix_cache` makes seven edits.  Where an edit has found its place, its marker is in the
text; where it has not, the place must not come in with the later edits, or a second run would
find it.  So for each edit this says which words it keeps and which places it does not make.
The edits put in whole lines (`Inserts`), but for the message of the unknown policy, which is
replaced within its line, and the two of `_match_prefix_helper`, which replace some lines.
-/
import Peek.Base.TextBarrier
import Peek.Offline.PatchedTwice
import Peek.Offline.SglangPatches

namespace Peek.Installer.Sglang

open TextPattern

/-! ### The import -/

/-- A line that imports something, up to the first character of what it imports. -/
def importStart : Pattern := lit "from sglang.srt.mem_cache.evict_policy import " ++ [.one isDot]

theorem importStart_plain : importStart.all Item.plain = true := by
  simp [importStart, lit_plain, Item.plain]

theorem importLine_plain : importLine.all Item.plain = true := by
  simp [importLine, lit_plain, Item.plain]

theorem importLine_bounds : importLine.countP Item.isBound = 0 := by
  simp [importLine, lit_bounds, Item.isBound]

theorem importLine_of_importStart {s : List Char} (h : occurs importStart s = true) :
    occurs importLine s = true := by
  obtain ⟨u, w, v, rfl, hw⟩ := exists_takes importStart_plain h
  have hrest : Takes [.many false isDot] [] := ⟨[], [], rfl, by simp, rfl⟩
  have hline : Takes importLine (w ++ []) := by
    have := hw.append hrest
    rwa [importStart, List.append_assoc] at this
  rw [List.append_nil] at hline
  exact hline.occurs

theorem addImport_avoids {r : Pattern} {s : List Char} (hr : r.all Item.plain = true)
    (hhead : barrier r [] importBlockHead.toList = true)
    (hline : barrier r [] importStrategy.toList = true) (h : occurs r (addImport s) = true) :
    occurs r s = true := by
  have hblock : ∀ {s}, occurs r (replaceFirst importBlock (fun _ => importBlockHead.toList) s) = true →
      occurs r s = true := fun h => occurs_replaceFirst hr hhead h
  simp only [addImport] at h
  split at h
  · exact hblock h
  · exact hblock (occurs_replaceFirst_behind hr importLine_plain importLine_bounds hline h)

/-- The import is there on a line that the message cannot take with it, or it has no place. -/
def ImportSettled (s : List Char) : Prop :=
  (contains "\n    QueueAwareStrategy," s = true ∨
    contains "\nfrom sglang.srt.mem_cache.evict_policy import QueueAwareStrategy" s = true) ∨
  occurs importBlock s = false ∧ occurs importStart s = false

theorem importSettled_addImport {s : List Char} (hs : contains "QueueAwareStrategy" s = false) :
    ImportSettled (addImport s) := by
  have hhead : contains "\n    QueueAwareStrategy," importBlockHead.toList = true ∧
      contains "QueueAwareStrategy" importBlockHead.toList = true := by
    rw [importBlockHead, String.toList_ofList]
    decide +kernel
  simp only [addImport]
  cases hblock : occurs importBlock s with
  | true =>
      rw [if_pos (contains_replaceFirst hblock fun _ => hhead.2)]
      exact Or.inl (Or.inl (contains_replaceFirst hblock fun _ => hhead.1))
  | false =>
      rw [replaceFirst_of_not_occurs hblock, hs, if_neg Bool.false_ne_true]
      cases hline : occurs importLine s with
      | true =>
          refine Or.inl (Or.inr (contains_replaceFirst hline fun g => ?_))
          exact contains_of_infix (contains_iff.mpr (List.infix_refl _)) (List.suffix_append (g 0) _).isInfix
      | false =>
          rw [replaceFirst_of_not_occurs hline]
          exact Or.inr ⟨hblock, Bool.eq_false_iff.mpr fun h =>
            Bool.eq_false_iff.mp hline (importLine_of_importStart h)⟩

/-! ### The edits that put in lines -/

theorem inserts_addRefCount : Inserts addRefCount ('\n' :: refCountLines.toList.dropLast) := by
  refine Inserts.behind_lit ⟨"self.priority = priority".toList, ?_⟩ ⟨refCountLines.toList.dropLast, ?_⟩
  · repeat rw [String.toList_ofList]
    rfl
  · rw [refCountLines, String.toList_ofList]
    rfl

/-- The case of the priority strategy up to the name of the strategy. -/
def priorityCaseHead : Pattern :=
  lit "elif self.eviction_policy == \"priority\":" ++ (spacesItem :: lit "\n" ++
    (spacesItem :: lit "self.eviction_strategy"))

theorem priorityCase_eq :
    priorityCase = priorityCaseHead ++ (.many true isDot :: lit "PriorityStrategy()\n") := by
  simp only [priorityCase, priorityCaseHead, List.append_assoc]

theorem takes_priorityCase {w : List Char} (hw : Takes priorityCase w) :
    ∃ w₁ y, w = w₁ ++ (y ++ "PriorityStrategy()\n".toList) ∧ Takes priorityCaseHead w₁ ∧
      ∀ c ∈ y, isDot c = true := by
  rw [priorityCase_eq] at hw
  obtain ⟨w₁, w₂, rfl, hhead, hrest⟩ := takes_append hw
  obtain ⟨y, rfl, hy⟩ := takes_many_lit.mp hrest
  exact ⟨w₁, y, rfl, hhead, hy⟩

theorem priorityCase_plain : priorityCase.all Item.plain = true := by
  simp [priorityCase, spacesItem, lit_plain, Item.plain]

theorem priorityCase_bounds : priorityCase.countP Item.isBound = 0 := by
  simp [priorityCase, spacesItem, lit_bounds, Item.isBound]

theorem inserts_addCase : Inserts addCase ('\n' :: queueAwareCase.toList.dropLast) := by
  refine Inserts.behind priorityCase_plain priorityCase_bounds (fun w hw => ?_)
    ⟨queueAwareCase.toList.dropLast, ?_⟩
  · obtain ⟨w₁, y, rfl, -⟩ := takes_priorityCase hw
    refine ⟨w₁ ++ (y ++ "PriorityStrategy()".toList), ?_⟩
    rw [List.append_assoc, List.append_assoc]
    repeat rw [String.toList_ofList]
    rfl
  · rw [queueAwareCase, String.toList_ofList]
    rfl

theorem splitNode_bounds : splitNode.countP Item.isBound = 1 := by
  simp [splitNode, spacesItem, lit_bounds, List.countP_cons, Item.isBound]

theorem inserts_inheritRefCount : Inserts inheritRefCount ('\n' :: inheritLine.toList.dropLast) := by
  have hline : "new_node.lock_ref = child.lock_ref\n".toList =
      "new_node.lock_ref = child.lock_ref".toList ++ ['\n'] := by
    repeat rw [String.toList_ofList]
    rfl
  have hlast : inheritLine.toList = inheritLine.toList.dropLast ++ ['\n'] := by
    rw [inheritLine, String.toList_ofList]
    rfl
  intro s
  refine (replaceFirst_cases splitNode _ s).imp And.right ?_
  rintro ⟨u, h, hs, heq⟩
  obtain ⟨s', rfl, hm⟩ := search_some hs
  have hmore : h.more.length = 1 := (matchHere_groups hm).trans splitNode_bounds
  obtain ⟨v, h', rfl, hcut, rfl⟩ := matchHere_lit hm
  obtain ⟨h', hm', rfl⟩ := matchHere_bound hcut
  have hnil : h'.more = [] := List.length_eq_zero_iff.mp (Nat.succ.inj hmore)
  have hrest : v = h'.first ++ h'.rest := by
    rw [matchHere_text hm', Hit.text, hnil, List.flatten_nil, List.append_nil]
  refine ⟨u ++ "new_node.lock_ref = child.lock_ref".toList, v, by simp [hline], ?_⟩
  have hfirst : (h'.cut.grow "new_node.lock_ref = child.lock_ref\n".toList).group 0 =
      "new_node.lock_ref = child.lock_ref\n".toList := List.append_nil _
  have hsecond : (h'.cut.grow "new_node.lock_ref = child.lock_ref\n".toList).group 1 = h'.first := rfl
  rw [inheritRefCount, heq, hfirst, hsecond, hline, hrest]
  show _ ++ (_ ++ (inheritLine.toList ++ _) ++ h'.rest) = _
  rw [hlast]
  simp

theorem inserts_addRefMethods : Inserts addRefMethods queueRefMethods.toList := by
  refine Inserts.before ⟨"    def evictable_size(self):".toList, ?_⟩
  repeat rw [String.toList_ofList]

theorem inserts_addReadonlyMatch : Inserts addReadonlyMatch matchPrefixReadonlyMethod.toList := by
  refine Inserts.before ⟨"    def insert(self, params: InsertParams)".toList, ?_⟩
  repeat rw [String.toList_ofList]

/-! ### The message of the unknown policy -/

theorem takes_policiesMessage {w : List Char} : Takes policiesMessage w ↔ ∃ x, w =
    "Supported policies: '".toList ++ (x ++ "'.".toList) ∧ ∀ c ∈ x, isDot c = true := by
  constructor
  · intro hw
    rw [policiesMessage] at hw
    obtain ⟨w₁, w₂, rfl, hhead, hrest⟩ := takes_append hw
    obtain ⟨x, rfl, hx⟩ := takes_many_lit.mp hrest
    exact ⟨x, by rw [takes_lit.mp hhead], hx⟩
  · rintro ⟨x, rfl, hx⟩
    exact (takes_lit_self "Supported policies: '").append (takes_many_lit.mpr ⟨x, rfl, hx⟩)

theorem policiesMessage_plain : policiesMessage.all Item.plain = true := by
  simp [policiesMessage, lit_plain, Item.plain]

theorem policiesMessage_bounds : policiesMessage.countP Item.isBound = 0 := by
  simp [policiesMessage, lit_bounds, Item.isBound]

theorem updateMessage_cases (s : List Char) : updateMessage s = s ∨ ∃ u x v,
    s = u ++ ("Supported policies: '".toList ++ (x ++ "'.".toList) ++ v) ∧ (∀ c ∈ x, isDot c = true) ∧
      updateMessage s = u ++ (allPolicies.toList ++ v) := by
  refine (replaceFirst_whole policiesMessage_plain policiesMessage_bounds _ s).imp And.right ?_
  rintro ⟨u, v, g, rfl, hg, heq⟩
  obtain ⟨x, hx, hdot⟩ := takes_policiesMessage.mp hg
  exact ⟨u, x, v, by rw [hx], hdot, heq⟩

theorem isDot_message {x : List Char} (hx : ∀ c ∈ x, isDot c = true) :
    ∀ c ∈ "Supported policies: '".toList ++ (x ++ "'.".toList), isDot c = true := by
  have hhead : ∀ c ∈ "Supported policies: '".toList, isDot c = true := by
    rw [String.toList_ofList]
    simp [isDot]
  have hlast : ∀ c ∈ "'.".toList, isDot c = true := by
    rw [String.toList_ofList]
    simp [isDot]
  intro c hc
  rcases List.mem_append.mp hc with hc | hc
  · exact hhead c hc
  · exact (List.mem_append.mp hc).elim (hx c) (hlast c)

theorem newline_notMem_of_isDot {x : List Char} (hx : ∀ c ∈ x, isDot c = true) : '\n' ∉ x :=
  fun h => absurd (hx '\n' h) (by decide)

/-- A word with a newline that dies at both ends of the message is not in it. -/
theorem updateMessage_keeps {y : String} {s : List Char} (hy : '\n' ∈ y.toList)
    (hhead : barrier (lit y) [] "Supported policies: '".toList = true)
    (hlast : barrier (lit y) [] "'.".toList = true) (h : contains y s = true) :
    contains y (updateMessage s) = true := by
  rcases updateMessage_cases s with heq | ⟨u, x, v, rfl, hx, heq⟩
  · rw [heq]
    exact h
  · have hgap : occurs (lit y) x = false := Bool.eq_false_iff.mpr fun hocc =>
      newline_notMem_of_isDot hx ((contains_iff.mp hocc).mem hy)
    have hsplits := (splits_of_barrier hhead).gap hgap (splits_of_barrier hlast)
    rw [contains, hsplits.occurs_iff, Bool.or_eq_true] at h
    rw [heq]
    rcases h with h | h
    · exact contains_of_infix h ⟨[], allPolicies.toList ++ v, rfl⟩
    · exact contains_of_infix h ⟨u ++ allPolicies.toList, [], by simp⟩

theorem updateMessage_avoids {r : Pattern} {s : List Char} (hr : r.all Item.plain = true)
    (hb : barrier r [] allPolicies.toList = true) (h : occurs r (updateMessage s) = true) :
    occurs r s = true := occurs_replaceFirst hr hb h

/-- The patterns that die in the new message, the import behind what the old one begins with too. -/
theorem barrier_allPolicies :
    barrier importStart "Supported policies: '".toList
        "lru', 'lfu', 'fifo', 'mru', 'filo', 'priority', 'queue-aware'.".toList = true ∧
      barrier priorityCaseHead [] allPolicies.toList = true ∧
      barrier (lit "PriorityStrategy()\n") [] allPolicies.toList = true := by
  unfold importStart priorityCaseHead allPolicies lit
  repeat rw [String.toList_ofList]
  decide +kernel

/-- The message begins as before, so an import that ends there has its first character. -/
theorem updateMessage_importStart {s : List Char} (h : occurs importStart (updateMessage s) = true) :
    occurs importStart s = true := by
  rcases updateMessage_cases s with heq | ⟨u, x, v, rfl, -, heq⟩
  · rwa [heq] at h
  · have hmessage : allPolicies.toList = "Supported policies: '".toList ++
        "lru', 'lfu', 'fifo', 'mru', 'filo', 'priority', 'queue-aware'.".toList := by
      rw [allPolicies]
      repeat rw [String.toList_ofList]
      rfl
    have hsplit : ∀ a b : List Char, u ++ (a ++ b ++ v) = u ++ a ++ (b ++ v) := by simp
    rw [heq, hmessage, hsplit] at h
    exact occurs_of_barrier importStart_plain barrier_allPolicies.1 ⟨[], x ++ ("'.".toList ++ v), by simp⟩
      ⟨u ++ ("Supported policies: '".toList ++ (x ++ "'.".toList)), [], by simp⟩ h

/-- The message may only stand between the attribute and the name of the strategy, where any
other text of the line may stand as well. -/
theorem updateMessage_priorityCase {s : List Char} (h : occurs priorityCase (updateMessage s) = true) :
    occurs priorityCase s = true := by
  rcases updateMessage_cases s with heq | ⟨u, x, v, rfl, hx, heq⟩
  · rwa [heq] at h
  · obtain ⟨-, hhead, hlast⟩ := barrier_allPolicies
    have htakes : ∀ {w₁ y}, Takes priorityCaseHead w₁ → (∀ c ∈ y, isDot c = true) →
        Takes priorityCase (w₁ ++ (y ++ "PriorityStrategy()\n".toList)) := by
      intro w₁ y hw₁ hy
      rw [priorityCase_eq]
      exact hw₁.append (takes_many_lit.mpr ⟨y, rfl, hy⟩)
    have hmessage := isDot_message hx
    generalize "Supported policies: '".toList ++ (x ++ "'.".toList) = m at hmessage ⊢
    obtain ⟨front, w, rest, hw, htaken⟩ := exists_takes priorityCase_plain h
    obtain ⟨w₁, y, rfl, hw₁, hy⟩ := takes_priorityCase htaken
    have hpos : front ++ (w₁ ++ (y ++ "PriorityStrategy()\n".toList ++ rest)) =
        u ++ [] ++ (allPolicies.toList ++ v) := by
      simpa using (heq.symm.trans hw).symm
    rcases hw₁.apart hhead hpos with ⟨n, hu, hrest⟩ | ⟨n, rfl, rfl⟩
    · rw [List.append_nil] at hu
      have hpos' : y ++ ("PriorityStrategy()\n".toList ++ rest) =
          n ++ [] ++ (allPolicies.toList ++ v) := by
        simpa using hrest
      rcases (takes_lit_self _).apart hlast hpos' with ⟨n', hn, -⟩ | ⟨n', hn, rfl⟩
      · -- The case is over before the message.
        rw [List.append_nil] at hn
        have := (htakes hw₁ hy).occurs (u := front) (v := n' ++ (m ++ v))
        rw [hu, hn]
        simpa using this
      · -- The message is within the line of the case.
        have hall : ∀ c ∈ n ++ (m ++ n'), isDot c = true := by
          intro c hc
          rw [hn] at hy
          simp only [List.mem_append, List.append_nil] at hc hy
          rcases hc with hc | hc | hc
          · exact hy c (Or.inl hc)
          · exact hmessage c hc
          · exact hy c (Or.inr (Or.inr hc))
        have := (htakes hw₁ hall).occurs (u := front) (v := rest)
        rw [hu]
        simpa using this
    · have := (htakes hw₁ hy).occurs (u := u ++ (m ++ n)) (v := rest)
      simpa using this

/-- The new message is put in where the first one was, so it is the first one. -/
theorem not_takes_before_message {u u' v x w rest : List Char} (hx : ∀ c ∈ x, isDot c = true)
    (hfirst : ∀ front w rest, u ++ ("Supported policies: '".toList ++ (x ++ "'.".toList) ++ v) =
      front ++ (w ++ rest) → Takes policiesMessage w → u.length ≤ front.length)
    (heq : u ++ (allPolicies.toList ++ v) = u' ++ (w ++ rest)) (hw : Takes policiesMessage w) :
    u.length ≤ u'.length := by
  obtain ⟨y, rfl, hy⟩ := takes_policiesMessage.mp hw
  obtain ⟨tail, hM⟩ : ∃ tail, allPolicies.toList = 'S' :: tail := by
    rw [allPolicies, String.toList_ofList]
    exact ⟨_, rfl⟩
  have hH : 'S' ∉ "Supported policies: '".toList.tail := by
    rw [String.toList_ofList]
    decide
  have hQ : 'S' ∉ "'.".toList := by
    rw [String.toList_ofList]
    decide
  refine Nat.le_of_not_lt fun hlt => Nat.not_le_of_lt hlt ?_
  obtain ⟨k, rfl⟩ : u' <+: u :=
    List.prefix_of_prefix_length_le ⟨_, heq.symm⟩ ⟨_, rfl⟩ (Nat.le_of_lt hlt)
  have hk : k ≠ [] := by
    rintro rfl
    simp at hlt
  have htakes : ∀ z, (∀ c ∈ z, isDot c = true) →
      Takes policiesMessage ("Supported policies: '".toList ++ (z ++ "'.".toList)) :=
    fun z hz => takes_policiesMessage.mpr ⟨z, rfl, hz⟩
  have hdots : ∀ c ∈ "Supported policies: '".toList ++ x, isDot c = true := fun c hc =>
    isDot_message hx c (by simp only [List.mem_append] at hc ⊢; exact hc.imp_right Or.inl)
  have heq : k ++ ('S' :: (tail ++ v)) =
      "Supported policies: '".toList ++ (y ++ ("'.".toList ++ rest)) := by
    rw [hM] at heq
    simpa using heq
  generalize "Supported policies: '".toList = H at *
  generalize "'.".toList = Q at *
  -- The match begins with its head, all of which is before the new message.
  obtain ⟨l, rfl, hl⟩ : ∃ l, k = H ++ l ∧ y ++ (Q ++ rest) = l ++ ('S' :: (tail ++ v)) := by
    rcases List.append_eq_append_iff.mp heq with ⟨l, hHl, hl⟩ | ⟨l, hkl, hl⟩
    · cases l with
      | nil => exact ⟨[], by simpa using hHl.symm, hl.symm⟩
      | cons c l =>
          obtain ⟨rfl, -⟩ := List.cons_eq_cons.mp hl
          obtain ⟨d, k, rfl⟩ := List.exists_cons_of_ne_nil hk
          rw [hHl] at hH
          simp at hH
    · exact ⟨l, hkl, hl⟩
  rcases List.append_eq_append_iff.mp hl with ⟨m, rfl, hm⟩ | ⟨y', rfl, -⟩
  · -- It is over before the new message, so it was a match before.
    obtain ⟨n, rfl⟩ : ∃ n, m = Q ++ n := by
      rcases List.append_eq_append_iff.mp hm with ⟨n, rfl, -⟩ | ⟨n, hQm, hn⟩
      · exact ⟨n, rfl⟩
      · cases n with
        | nil => exact ⟨[], by simpa using hQm.symm⟩
        | cons c n =>
            obtain ⟨rfl, -⟩ := List.cons_eq_cons.mp hn
            rw [hQm] at hQ
            simp at hQ
    refine hfirst u' _ (n ++ (H ++ (x ++ Q) ++ v)) ?_ (htakes y hy)
    simp
  · -- It goes on into the new message, as it did into the old one.
    refine hfirst u' (H ++ ((l ++ (H ++ x)) ++ Q)) v (by simp) (htakes _ fun c hc => ?_)
    rcases List.mem_append.mp hc with hc | hc
    · exact hy c (List.mem_append_left y' hc)
    · exact hdots c hc

set_option maxRecDepth 2000 in
/-- The new message is matched as a whole. -/
theorem matchHere_allPolicies (v : List Char) :
    matchHere policiesMessage (allPolicies.toList ++ v) = some ⟨allPolicies.toList, [], v⟩ := by
  unfold policiesMessage allPolicies lit
  repeat rw [String.toList_ofList]
  rfl

theorem updateMessage_twice (s : List Char) : updateMessage (updateMessage s) = updateMessage s := by
  rcases replaceFirst_cases policiesMessage (fun _ => allPolicies.toList) s with ⟨-, heq⟩ | ⟨u, h, hs, heq⟩
  · rw [updateMessage, heq, heq]
  · obtain ⟨s', rfl, hm⟩ := search_some hs
    obtain ⟨x, hx, hdot⟩ := takes_policiesMessage.mp (takes_of_matchHere policiesMessage_plain hm)
    obtain rfl := matchHere_text hm
    have hsome : (matchHere policiesMessage (allPolicies.toList ++ h.rest)).isSome = true := by
      rw [matchHere_allPolicies]
      rfl
    obtain ⟨u', h', hs', hlen⟩ := search_of_matchHere (u := u) hsome
    obtain ⟨s'', heq', hm'⟩ := search_some hs'
    have hle : u.length ≤ u'.length := by
      refine not_takes_before_message hdot (fun front w rest hpos hw => search_leftmost (v := rest) hs hw ?_)
        (heq'.trans (by rw [← matchHere_text hm'])) (takes_of_matchHere policiesMessage_plain hm')
      rw [hx]
      exact hpos
    obtain ⟨rfl, rfl⟩ := List.append_inj heq' (Nat.le_antisymm hle hlen)
    rw [matchHere_allPolicies, Option.some.injEq] at hm'
    rw [updateMessage, heq, replaceFirst, hs', ← hm']

/-! ### The lines of `_match_prefix_helper` -/

def AllSpace (w : List Char) : Prop := ∀ c ∈ w, c ∈ spaces

theorem mem_spaces {c : Char} (h : isSpace c = true) : c ∈ spaces := List.contains_iff_mem.mp h

theorem matchHere_someSpaces {r : Pattern} {s : List Char} {h : Hit}
    (hm : matchHere (someSpaces ++ r) s = some h) :
    ∃ w s' h', s = w ++ s' ∧ AllSpace w ∧ matchHere r s' = some h' ∧ h = h'.grow w := by
  obtain ⟨c, s', h', rfl, hc, hm', rfl⟩ := matchHere_one hm
  obtain ⟨w, s', h', rfl, hw, hr, rfl⟩ := matchHere_many hm'
  refine ⟨c :: w, s', h', rfl, fun d hd => ?_, hr, rfl⟩
  rcases List.mem_cons.mp hd with rfl | hd
  · exact mem_spaces hc
  · exact mem_spaces (hw d hd)

theorem matchHere_lit_nil {x : String} {s : List Char} {h : Hit} (hm : matchHere (lit x) s = some h) :
    s = x.toList ++ h.rest ∧ h.first = x.toList ∧ h.more = [] := by
  rw [← List.append_nil (lit x)] at hm
  obtain ⟨s', h', rfl, hnil, rfl⟩ := matchHere_lit hm
  obtain rfl := matchHere_nil hnil
  exact ⟨rfl, List.append_nil _, rfl⟩

theorem matchHelper_groups {x y z : String} {s : List Char} {h : Hit}
    (hm : matchHere (lit x ++ (.bound :: someSpaces ++ (.bound :: lit y ++ (someSpaces ++ lit z)))) s =
      some h) :
    ∃ w w', AllSpace w ∧ AllSpace w' ∧ h.group 1 = w ∧
      s = x.toList ++ (w ++ (y.toList ++ (w' ++ (z.toList ++ h.rest)))) := by
  obtain ⟨s₁, h₁, rfl, hm₁, rfl⟩ := matchHere_lit hm
  obtain ⟨h₂, hm₂, rfl⟩ := matchHere_bound hm₁
  obtain ⟨w, s₃, h₃, rfl, hw, hm₃, rfl⟩ := matchHere_someSpaces hm₂
  obtain ⟨h₄, hm₄, rfl⟩ := matchHere_bound hm₃
  obtain ⟨s₅, h₅, rfl, hm₅, rfl⟩ := matchHere_lit hm₄
  obtain ⟨w', s₆, h₆, rfl, hw', hm₆, rfl⟩ := matchHere_someSpaces hm₅
  obtain ⟨rfl, -, -⟩ := matchHere_lit_nil hm₆
  exact ⟨w, w', hw, hw', List.append_nil w, rfl⟩

theorem childAccess_groups {x y : String} {s : List Char} {h : Hit}
    (hm : matchHere (someSpaces ++ (.bound :: lit x ++ (.bound :: someSpaces ++ lit y))) s = some h) :
    ∃ w w', AllSpace w ∧ AllSpace w' ∧ h.group 0 = w ∧ h.group 1 = x.toList ∧
      s = w ++ (x.toList ++ (w' ++ (y.toList ++ h.rest))) := by
  obtain ⟨w, s₁, h₁, rfl, hw, hm₁, rfl⟩ := matchHere_someSpaces hm
  obtain ⟨h₂, hm₂, rfl⟩ := matchHere_bound hm₁
  obtain ⟨s₃, h₃, rfl, hm₃, rfl⟩ := matchHere_lit hm₂
  obtain ⟨h₄, hm₄, rfl⟩ := matchHere_bound hm₃
  obtain ⟨w', s₅, h₅, rfl, hw', hm₅, rfl⟩ := matchHere_someSpaces hm₄
  obtain ⟨rfl, -, -⟩ := matchHere_lit_nil hm₅
  exact ⟨w, w', hw, hw', List.append_nil w, List.append_nil x.toList, rfl⟩

def helperLines : String :=
  "if update_lru:\n    access_time = time.monotonic()\n    node.last_access_time = access_time\nelse:\n"

theorem helperLines_eq : helperLines.toList = "if update_lru:\n".toList ++
    ("    access_time = time.monotonic()\n".toList ++
      ("    node.last_access_time = access_time\n".toList ++ "else:\n".toList)) := by
  rw [helperLines]
  repeat rw [String.toList_ofList]
  rfl

theorem AllSpace.subset {w : List Char} (h : AllSpace w) (l : List Char) : w ⊆ spaces ++ l :=
  fun c hc => List.mem_append_left l (h c hc)

/-- The lines of the edit, each behind the indentation `w`. -/
theorem indented_subset {w : List Char} (h : AllSpace w) (a b c d : List Char) :
    w ++ (a ++ (w ++ (b ++ (w ++ (c ++ (w ++ (d ++ w))))))) ⊆ spaces ++ (a ++ (b ++ (c ++ d))) := by
  have hw := h.subset (a ++ (b ++ (c ++ d)))
  have ha : a ⊆ spaces ++ (a ++ (b ++ (c ++ d))) := fun x hx => by simp [hx]
  have hb : b ⊆ spaces ++ (a ++ (b ++ (c ++ d))) := fun x hx => by simp [hx]
  have hc : c ⊆ spaces ++ (a ++ (b ++ (c ++ d))) := fun x hx => by simp [hx]
  have hd : d ⊆ spaces ++ (a ++ (b ++ (c ++ d))) := fun x hx => by simp [hx]
  simp only [List.append_subset]
  exact ⟨hw, ha, hw, hb, hw, hc, hw, hd, hw⟩

theorem between_subset {w w' : List Char} (h : AllSpace w) (h' : AllSpace w') (a : List Char) :
    w ++ (a ++ w') ⊆ spaces ++ a := by
  simp only [List.append_subset]
  exact ⟨h.subset a, fun x hx => by simp [hx], h'.subset a⟩

theorem exchanges_addUpdateLru : Exchanges addUpdateLru
    "def _match_prefix_helper(self, node: TreeNode, key: RadixKey):\n"
    "node.last_access_time = access_time\n" (spaces ++ "access_time = time.monotonic()\n".toList)
    "def _match_prefix_helper(self, node: TreeNode, key: RadixKey, update_lru: bool = True):\n"
    "    access_time = None\n" (spaces ++ helperLines.toList) := by
  intro s
  refine (replaceFirst_cases matchHelper _ s).imp And.right ?_
  rintro ⟨u, h, hs, heq⟩
  obtain ⟨s', rfl, hm⟩ := search_some hs
  obtain ⟨w, w', hw, hw', hgroup, rfl⟩ := matchHelper_groups hm
  rw [helperLines_eq, addUpdateLru, heq, hgroup]
  refine ⟨u, _, _, h.rest, between_subset hw hw' _, indented_subset hw _ _ _ _, ?_, ?_⟩
  · simp only [List.append_assoc]
  · simp only [List.append_assoc]

theorem exchanges_guardAccess : Exchanges guardAccess
    "child = node.children[child_key]\n" "child.last_access_time = access_time\n" spaces
    "child = node.children[child_key]\n" "    child.last_access_time = access_time\n"
    (spaces ++ "if update_lru:\n".toList) := by
  intro s
  refine (replaceFirst_cases childAccess _ s).imp And.right ?_
  rintro ⟨u, h, hs, heq⟩
  obtain ⟨s', rfl, hm⟩ := search_some hs
  obtain ⟨w, w', hw, hw', hspace, hline, rfl⟩ := childAccess_groups hm
  rw [guardAccess, heq, hspace, hline]
  refine ⟨u ++ w, w', _, h.rest, hw', between_subset hw hw _, ?_, ?_⟩
  · simp only [List.append_assoc]
  · simp only [List.append_assoc]

end Peek.Installer.Sglang
