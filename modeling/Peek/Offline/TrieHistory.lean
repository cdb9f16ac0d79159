/-
What a trie of prompts holds, after any history of insertions and removals.

`Files node es` says that the prompts `es`, each with the tokens that lead to it from `node`,
are what is below `node`: they end where they should, every child counts its own, and there is
no child without any.  Insertion and removal keep this with a prompt more or a prompt less, and
it leaves open nothing but the order of the children.  So a trie is, up to that order, the one
that its remaining prompts build (`run_history`).

`max_depth` is a natural number here: a negative one files every prompt at the root, as 0 does.
-/
import Peek.Offline.PrefixTrie

namespace Peek

/-- Erasing an element erases its image, if nothing else has that image. -/
theorem filterMap_erase {α β : Type} [BEq α] [LawfulBEq α] [BEq β] [LawfulBEq β] {f : α → Option β}
    (hinj : ∀ x y b, f x = some b → f y = some b → x = y) (a : α) (l : List α) :
    (l.erase a).filterMap f = (f a).elim (l.filterMap f) (l.filterMap f).erase := by
  induction l with
  | nil => cases f a <;> rfl
  | cons x l ih =>
      by_cases hx : x = a
      · subst hx
        rw [List.erase_cons_head, List.filterMap_cons]
        cases f x with
        | none => rfl
        | some b => exact (List.erase_cons_head b _).symm
      · rw [List.erase_cons_tail (by simpa using hx), List.filterMap_cons, List.filterMap_cons, ih]
        cases hfx : f x with
        | none => rfl
        | some b =>
            cases hfa : f a with
            | none => rfl
            | some b' =>
                have hne : b ≠ b' := fun hb => hx (hinj x a b hfx (hb ▸ hfa))
                exact (List.erase_cons_tail (by simpa using hne)).symm

/-- A prompt with the tokens that lead to it. -/
abbrev FiledPrompt := List Token × Nat

namespace FiledPrompt

/-- The prompt as it is seen from the end of `path`, if it is below. -/
def after (path : List Token) (e : FiledPrompt) : Option FiledPrompt :=
  if path <+: e.1 then some (e.1.drop path.length, e.2) else none

/-- The prompts below `path`, as they are seen from there. -/
def under (path : List Token) (es : List FiledPrompt) : List FiledPrompt := es.filterMap (after path)

/-- The indices of the prompts that end here. -/
def ending (es : List FiledPrompt) : List Nat :=
  es.filterMap fun e => if e.1 = [] then some e.2 else none

theorem after_eq_some_iff {path : List Token} {e e' : FiledPrompt} :
    after path e = some e' ↔ e = (path ++ e'.1, e'.2) := by
  unfold after
  by_cases h : path <+: e.1
  · rw [if_pos h, Option.some.injEq]
    obtain ⟨rest, hrest⟩ := h
    obtain ⟨ts, i⟩ := e
    obtain ⟨ts', i'⟩ := e'
    simp only at hrest
    subst hrest
    simp
  · rw [if_neg h]
    refine iff_of_false (by simp) fun he => h ?_
    rw [he]
    exact List.prefix_append _ _

theorem after_injective (path : List Token) (x y b : FiledPrompt) (hx : after path x = some b)
    (hy : after path y = some b) : x = y :=
  (after_eq_some_iff.mp hx).trans (after_eq_some_iff.mp hy).symm

variable (path : List Token) (es : List FiledPrompt)

@[simp] theorem under_nil_right : under path [] = [] := rfl

@[simp] theorem under_root : under [] es = es := by
  unfold under
  rw [show after [] = some from funext fun e => by simp [after]]
  exact List.filterMap_some

theorem mem_under {e : FiledPrompt} : e ∈ under path es ↔ (path ++ e.1, e.2) ∈ es := by
  unfold under
  rw [List.mem_filterMap]
  constructor
  · intro h
    obtain ⟨x, hx, he⟩ := h
    rw [← after_eq_some_iff.mp he]
    exact hx
  · intro h
    exact ⟨_, h, after_eq_some_iff.mpr rfl⟩

/-- What is below a path is below its first token and then below the rest. -/
theorem under_append (path' : List Token) : under path' (under path es) = under (path ++ path') es := by
  unfold under
  rw [List.filterMap_filterMap]
  congr 1
  funext e
  cases h : after path e with
  | none =>
      symm
      rw [Option.bind_none, Option.eq_none_iff_forall_not_mem]
      intro e' he'
      have hsplit := after_eq_some_iff.mp he'
      rw [List.append_assoc] at hsplit
      have hsome : after path e = some (path' ++ e'.1, e'.2) := after_eq_some_iff.mpr hsplit
      rw [hsome] at h
      simp at h
  | some e1 =>
      rw [Option.bind_some]
      rw [after_eq_some_iff] at h
      ext e'
      rw [after_eq_some_iff, after_eq_some_iff, h]
      obtain ⟨ts, i⟩ := e1
      simp

theorem length_under : (under path es).length = es.countP fun e => path <+: e.1 := by
  induction es with
  | nil => rfl
  | cons e es ih =>
      unfold under at ih ⊢
      rw [List.filterMap_cons, List.countP_cons, ← ih]
      unfold after
      by_cases h : path <+: e.1
      · simp [h]
      · simp [h]

theorem under_concat (e : FiledPrompt) :
    under path (es ++ [e]) = under path es ++ (after path e).toList := by
  unfold under
  rw [List.filterMap_append]
  cases h : after path e <;> simp [h]

theorem under_erase (e : FiledPrompt) :
    under path (es.erase e) = (after path e).elim (under path es) (under path es).erase :=
  filterMap_erase (after_injective path) e es

theorem ending_concat (e : FiledPrompt) :
    ending (es ++ [e]) = ending es ++ if e.1 = [] then [e.2] else [] := by
  unfold ending
  rw [List.filterMap_append]
  by_cases h : e.1 = [] <;> simp [h]

theorem ending_erase (e : FiledPrompt) :
    ending (es.erase e) = if e.1 = [] then (ending es).erase e.2 else ending es := by
  unfold ending
  rw [filterMap_erase]
  · by_cases h : e.1 = [] <;> simp [h]
  · intro x y b hx hy
    by_cases hxn : x.1 = []
    · by_cases hyn : y.1 = []
      · rw [if_pos hxn, Option.some.injEq] at hx
        rw [if_pos hyn, Option.some.injEq] at hy
        exact Prod.ext (hxn.trans hyn.symm) (hx.trans hy.symm)
      · simp [hyn] at hy
    · simp [hxn] at hx

theorem mem_ending {i : Nat} : i ∈ ending es ↔ ([], i) ∈ es := by
  unfold ending
  rw [List.mem_filterMap]
  constructor
  · intro h
    obtain ⟨e, he, hi⟩ := h
    by_cases hnil : e.1 = []
    · rw [if_pos hnil, Option.some.injEq] at hi
      rw [← hnil, ← hi]
      exact he
    · simp [hnil] at hi
  · intro h
    exact ⟨_, h, if_pos rfl⟩

@[simp] theorem after_cons_cons (token token' : Token) (tokens : List Token) (i : Nat) :
    after [token] (token' :: tokens, i) = if token' = token then some (tokens, i) else none := by
  unfold after
  by_cases h : token' = token
  · simp [h]
  · simp [h, Ne.symm h]

@[simp] theorem after_cons_nil (token : Token) (i : Nat) : after [token] ([], i) = none := by
  simp [after]

end FiledPrompt

namespace TrieNode

open FiledPrompt

/-- What is below `node` is `es`; the children are distinct and count their own. -/
inductive Files : TrieNode → List FiledPrompt → Prop
  | intro (node : TrieNode) (es : List FiledPrompt) (prompts : node.promptIndices = ending es)
      (nodup : (Dict.keys node.children).Nodup)
      (counts : ∀ token child, node.children.lookup token = some child →
        child.count = (under [token] es).length ∧ under [token] es ≠ [])
      (kids : ∀ token child, node.children.lookup token = some child →
        Files child (under [token] es))
      (absent : ∀ token, node.children.lookup token = none → under [token] es = []) :
      Files node es

variable {node child : TrieNode} {es : List FiledPrompt} {token : Token}

theorem Files.prompts (h : Files node es) : node.promptIndices = ending es := by
  cases h with
  | intro _ _ prompts => exact prompts

theorem Files.nodup (h : Files node es) : (Dict.keys node.children).Nodup := by
  cases h with
  | intro _ _ _ nodup => exact nodup

theorem Files.count (h : Files node es) (hc : node.children.lookup token = some child) :
    child.count = (under [token] es).length := by
  cases h with
  | intro _ _ _ _ counts => exact (counts token child hc).1

theorem Files.live (h : Files node es) (hc : node.children.lookup token = some child) :
    under [token] es ≠ [] := by
  cases h with
  | intro _ _ _ _ counts => exact (counts token child hc).2

theorem Files.kids (h : Files node es) (hc : node.children.lookup token = some child) :
    Files child (under [token] es) := by
  cases h with
  | intro _ _ _ _ _ kids => exact kids token child hc

theorem Files.absent (h : Files node es) (hc : node.children.lookup token = none) :
    under [token] es = [] := by
  cases h with
  | intro _ _ _ _ _ _ absent => exact absent token hc

theorem Files.withCount (h : Files node es) (count : Int) : Files { node with count := count } es :=
  Files.intro _ es h.prompts h.nodup (fun _ _ hc => ⟨h.count hc, h.live hc⟩)
    (fun _ _ hc => h.kids hc) fun _ hc => h.absent hc

/-- A node with nothing below it is as it was made. -/
theorem Files.empty (h : Files node []) : node.children = [] ∧ node.promptIndices = [] := by
  refine ⟨?_, h.prompts⟩
  cases hc : node.children with
  | nil => rfl
  | cons e children =>
      have hl : node.children.lookup e.1 = some e.2 := by
        rw [hc, Dict.lookup_cons, if_pos rfl]
      exact absurd rfl (h.live hl)

/-- One child is written; what is below the others stays. -/
theorem Files.set (h : Files node es) {es' : List FiledPrompt} (hends : ending es' = ending es)
    (hothers : ∀ token', token ≠ token' → under [token'] es' = under [token'] es)
    (hcount : child.count = (under [token] es').length) (hne : under [token] es' ≠ [])
    (hchild : Files child (under [token] es')) :
    Files { node with children := Dict.set node.children token child } es' := by
  refine Files.intro _ _ (h.prompts.trans hends.symm) (Dict.nodup_set _ _ h.nodup) ?_ ?_ ?_
  · intro token' child' hc
    rcases Dict.eq_or_lookup_of_set hc with ⟨rfl, rfl⟩ | ⟨hne', hc⟩
    · exact ⟨hcount, hne⟩
    · rw [hothers token' (Ne.symm hne')]
      exact ⟨h.count hc, h.live hc⟩
  · intro token' child' hc
    rcases Dict.eq_or_lookup_of_set hc with ⟨rfl, rfl⟩ | ⟨hne', hc⟩
    · exact hchild
    · rw [hothers token' (Ne.symm hne')]
      exact h.kids hc
  · intro token' hc
    rw [Dict.lookup_set] at hc
    by_cases ht : token = token'
    · rw [if_pos ht] at hc
      simp at hc
    · rw [if_neg ht] at hc
      rw [hothers token' ht]
      exact h.absent hc

/-- One child is deleted, below which there is nothing any more. -/
theorem Files.del (h : Files node es) {es' : List FiledPrompt} (hends : ending es' = ending es)
    (hothers : ∀ token', token ≠ token' → under [token'] es' = under [token'] es)
    (hnone : under [token] es' = []) :
    Files { node with children := Dict.del node.children token } es' := by
  have hold : ∀ token' child', (Dict.del node.children token).lookup token' = some child' →
      token ≠ token' ∧ node.children.lookup token' = some child' := by
    intro token' child' hc
    rw [Dict.lookup_del] at hc
    by_cases ht : token = token'
    · rw [if_pos ht] at hc
      simp at hc
    · rw [if_neg ht] at hc
      exact ⟨ht, hc⟩
  refine Files.intro _ _ (h.prompts.trans hends.symm) (Dict.nodup_del _ h.nodup) ?_ ?_ ?_
  · intro token' child' hc
    obtain ⟨ht, hc⟩ := hold token' child' hc
    rw [hothers token' ht]
    exact ⟨h.count hc, h.live hc⟩
  · intro token' child' hc
    obtain ⟨ht, hc⟩ := hold token' child' hc
    rw [hothers token' ht]
    exact h.kids hc
  · intro token' hc
    by_cases ht : token = token'
    · rw [← ht]
      exact hnone
    · rw [Dict.lookup_del, if_neg ht] at hc
      rw [hothers token' ht]
      exact h.absent hc

theorem files_new : Files new [] :=
  Files.intro new [] rfl List.nodup_nil (fun _ _ hc => by simp [new] at hc)
    (fun _ _ hc => by simp [new] at hc) fun _ _ => rfl

@[simp] theorem insert_count (promptIndex : Nat) (tokens : List Token) (node : TrieNode) :
    (node.insert promptIndex tokens).count = node.count := by
  cases tokens <;> rfl

/-- **An insertion files one prompt more.** -/
theorem Files.insert (promptIndex : Nat) : ∀ (tokens : List Token) {node : TrieNode}
    {es : List FiledPrompt}, Files node es →
    Files (node.insert promptIndex tokens) (es ++ [(tokens, promptIndex)]) := by
  intro tokens
  induction tokens with
  | nil =>
      intro node es h
      have hsame : ∀ token, under [token] (es ++ [([], promptIndex)]) = under [token] es := by
        intro token
        rw [under_concat, after_cons_nil]
        exact List.append_nil _
      refine Files.intro _ _ ?_ h.nodup (fun token child hc => ?_) (fun token child hc => ?_)
        fun token hc => ?_
      · rw [ending_concat, if_pos rfl, ← h.prompts]
        rfl
      · rw [hsame]
        exact ⟨h.count hc, h.live hc⟩
      · rw [hsame]
        exact h.kids hc
      · rw [hsame]
        exact h.absent hc
  | cons token tokens ih =>
      intro node es h
      rw [TrieNode.insert]
      have hunder : under [token] (es ++ [(token :: tokens, promptIndex)]) =
          under [token] es ++ [(tokens, promptIndex)] := by
        rw [under_concat, after_cons_cons, if_pos rfl]
        rfl
      -- the child, or a new node where there is none
      set child := (node.children.lookup token).getD new with hchild
      have hfiles : Files child (under [token] es) ∧ child.count = (under [token] es).length := by
        cases hc : node.children.lookup token with
        | none =>
            rw [hchild, hc, h.absent hc]
            exact ⟨files_new, rfl⟩
        | some c =>
            rw [hchild, hc]
            exact ⟨h.kids hc, h.count hc⟩
      refine h.set ?_ (fun token' ht => ?_) ?_ ?_ ?_
      · rw [ending_concat, if_neg (List.cons_ne_nil _ _), List.append_nil]
      · rw [under_concat, after_cons_cons, if_neg ht]
        exact List.append_nil _
      · rw [hunder, List.length_append, insert_count]
        simp [hfiles.2]
      · rw [hunder]
        simp
      · rw [hunder]
        exact ih (hfiles.1.withCount _)

/-- **A removal takes one prompt out**, and what is left without prompts is pruned. -/
theorem Files.remove (promptIndex : Nat) : ∀ (tokens : List Token) {node : TrieNode}
    {es : List FiledPrompt}, Files node es → (tokens, promptIndex) ∈ es →
    ∃ node' pruning, node.remove promptIndex tokens = some (node', pruning) ∧
      Files node' (es.erase (tokens, promptIndex)) ∧ node'.count = node.count ∧
      (es.erase (tokens, promptIndex) = [] → pruning = true) := by
  intro tokens
  induction tokens with
  | nil =>
      intro node es h hmem
      have hsame : ∀ token, under [token] (es.erase ([], promptIndex)) = under [token] es := by
        intro token
        rw [under_erase, after_cons_nil]
        rfl
      have hfound : promptIndex ∈ node.promptIndices := by
        rw [h.prompts]
        exact (mem_ending es).mpr hmem
      refine ⟨{ node with promptIndices := node.promptIndices.erase promptIndex }, true, ?_, ?_, rfl,
        fun _ => rfl⟩
      · rw [TrieNode.remove, if_pos hfound]
      · refine Files.intro _ _ ?_ h.nodup (fun token child hc => ?_) (fun token child hc => ?_)
          fun token hc => ?_
        · rw [ending_erase, if_pos rfl, ← h.prompts]
        · rw [hsame]
          exact ⟨h.count hc, h.live hc⟩
        · rw [hsame]
          exact h.kids hc
        · rw [hsame]
          exact h.absent hc
  | cons token tokens ih =>
      intro node es h hmem
      have hmem' : (tokens, promptIndex) ∈ under [token] es := (mem_under [token] es).mpr hmem
      set rest := (under [token] es).erase (tokens, promptIndex) with hrest
      have hunder : under [token] (es.erase (token :: tokens, promptIndex)) = rest := by
        rw [under_erase, after_cons_cons, if_pos rfl]
        rfl
      have hothers : ∀ token', token ≠ token' →
          under [token'] (es.erase (token :: tokens, promptIndex)) = under [token'] es := by
        intro token' ht
        rw [under_erase, after_cons_cons, if_neg ht]
        rfl
      have hends : ending (es.erase (token :: tokens, promptIndex)) = ending es := by
        rw [ending_erase, if_neg (List.cons_ne_nil _ _)]
      cases hc : node.children.lookup token with
      | none =>
          rw [h.absent hc] at hmem'
          exact absurd hmem' List.not_mem_nil
      | some child =>
          obtain ⟨child', pruning, hrem, hfiles, hcount, hflag⟩ := ih (h.kids hc) hmem'
          have hlen : child'.count - 1 = rest.length := by
            have hpos := List.length_pos_of_mem hmem'
            rw [hcount, h.count hc, hrest, List.length_erase_of_mem hmem']
            omega
          rw [TrieNode.remove, hc]
          simp only [hrem]
          by_cases hnone : rest = []
          · -- nothing is left below the child
            rw [hnone] at hlen
            have hempty := (hnone ▸ hfiles : Files child' []).empty
            rw [if_pos ⟨hflag hnone, by simpa using hlen, by rw [hempty.1]; rfl, hempty.2⟩]
            exact ⟨_, _, rfl, h.del hends hothers (hunder.trans hnone), rfl, fun _ => rfl⟩
          · have hpos := List.length_pos_iff.mpr hnone
            rw [if_neg fun hcond => by rw [hcond.2.1] at hlen; omega]
            refine ⟨_, _, rfl, h.set hends hothers ?_ (hunder ▸ hnone) ?_, rfl, fun hnil => ?_⟩
            · rw [hunder]
              exact hlen
            · rw [hunder]
              exact hfiles.withCount _
            · rw [hnil] at hunder
              exact absurd hunder.symm hnone

/-! ### The nodes of a trie -/

/-- The node a path leads to. -/
def nodeAt : List Token → TrieNode → Option TrieNode
  | [], node => some node
  | token :: path, node =>
      match node.children.lookup token with
      | none => none
      | some child => nodeAt path child

/-- The node at the end of a path has what is filed below the path. -/
theorem Files.nodeAt : ∀ (path : List Token) {node n : TrieNode} {es : List FiledPrompt},
    Files node es → nodeAt path node = some n → Files n (under path es) ∧
      (path ≠ [] → n.count = (under path es).length ∧ under path es ≠ []) := by
  intro path
  induction path with
  | nil =>
      intro node n es h hn
      rw [TrieNode.nodeAt, Option.some.injEq] at hn
      rw [under_root, ← hn]
      exact ⟨h, fun hne => absurd rfl hne⟩
  | cons token path ih =>
      intro node n es h hn
      rw [TrieNode.nodeAt] at hn
      cases hc : node.children.lookup token with
      | none => rw [hc] at hn; simp at hn
      | some child =>
          rw [hc] at hn
          have hn : TrieNode.nodeAt path child = some n := hn
          obtain ⟨hfiles, hcount⟩ := ih (h.kids hc) hn
          rw [under_append, List.singleton_append] at hfiles hcount
          refine ⟨hfiles, fun _ => ?_⟩
          by_cases hnil : path = []
          · subst hnil
            rw [TrieNode.nodeAt, Option.some.injEq] at hn
            rw [← hn]
            exact ⟨h.count hc, h.live hc⟩
          · exact hcount hnil

/-- Where there is no node nothing is filed. -/
theorem Files.under_of_nodeAt_none : ∀ (path : List Token) {node : TrieNode}
    {es : List FiledPrompt}, Files node es → TrieNode.nodeAt path node = none →
    under path es = [] := by
  intro path
  induction path with
  | nil => intro node es h hn; simp [TrieNode.nodeAt] at hn
  | cons token path ih =>
      intro node es h hn
      rw [← List.singleton_append, ← under_append]
      rw [TrieNode.nodeAt] at hn
      cases hc : node.children.lookup token with
      | none => rw [h.absent hc]; rfl
      | some child =>
          rw [hc] at hn
          exact ih (h.kids hc) hn

theorem promptsAt_of_nodeAt : ∀ (path : List Token) (node : TrieNode),
    promptsAt path node = (TrieNode.nodeAt path node).elim [] (·.promptIndices) := by
  intro path
  induction path with
  | nil => intro node; rfl
  | cons token path ih =>
      intro node
      rw [promptsAt, TrieNode.nodeAt]
      cases node.children.lookup token with
      | none => rfl
      | some child => exact ih child

/-- The prompts at a path are those filed under exactly this path, in the order they came. -/
theorem Files.promptsAt {node : TrieNode} {es : List FiledPrompt} (h : Files node es)
    (path : List Token) : node.promptsAt path = ending (under path es) := by
  rw [promptsAt_of_nodeAt]
  cases hn : TrieNode.nodeAt path node with
  | none =>
      rw [h.under_of_nodeAt_none path hn]
      rfl
  | some n => exact (h.nodeAt path hn).1.prompts

/-! ### Up to the order of the children -/

/-- Two tries that differ in the order of children at most. -/
inductive Reordered : TrieNode → TrieNode → Prop
  | intro (a b : TrieNode) (prompts : a.promptIndices = b.promptIndices) (count : a.count = b.count)
      (keys : (Dict.keys a.children).Perm (Dict.keys b.children))
      (kids : ∀ token x y, a.children.lookup token = some x → b.children.lookup token = some y →
        Reordered x y) : Reordered a b

theorem Files.mem_keys_iff {node : TrieNode} {es : List FiledPrompt} (h : Files node es)
    (token : Token) : token ∈ Dict.keys node.children ↔ under [token] es ≠ [] := by
  rw [← Dict.lookup_isSome_iff]
  cases hc : node.children.lookup token with
  | none => exact iff_of_false (by simp) fun hne => hne (h.absent hc)
  | some child => exact iff_of_true rfl (h.live hc)

/-- **What is filed determines the trie**, up to the order of the children. -/
theorem Files.reordered {a b : TrieNode} {es : List FiledPrompt} (ha : Files a es)
    (hb : Files b es) (hcount : a.count = b.count) : Reordered a b := by
  induction ha generalizing b with
  | intro a es prompts nodup counts kids absent ih =>
      have ha : Files a es := Files.intro a es prompts nodup counts kids absent
      refine Reordered.intro a b (prompts.trans hb.prompts.symm) hcount ?_ fun token x y hx hy => ?_
      · refine (List.perm_ext_iff_of_nodup nodup hb.nodup).mpr fun token => ?_
        rw [ha.mem_keys_iff, hb.mem_keys_iff]
      · exact ih token x hx (hb.kids hy) ((ha.count hx).trans (hb.count hy).symm)

end TrieNode

namespace PrefixTrie

open FiledPrompt TrieNode

/-! ### Histories -/

/-- The calls that change a trie. -/
inductive Op where
  | insert (tokenIds : List Token) (promptIndex : Nat)
  | remove (tokenIds : List Token) (promptIndex : Nat)
  deriving DecidableEq

def step (t : PrefixTrie) : Op → PrefixTrie
  | .insert tokenIds promptIndex => t.insert tokenIds promptIndex
  | .remove tokenIds promptIndex => (t.remove tokenIds promptIndex).2

/-- A new trie after a history of calls. -/
def run (maxDepth : Nat) (ops : List Op) : PrefixTrie := ops.foldl step (new maxDepth)

/-- How the trie files a prompt. -/
def filed (maxDepth : Nat) (e : List Token × Nat) : FiledPrompt := (e.1.take maxDepth, e.2)

/-- The prompts after a call, which are inserted with all their tokens. -/
def remainingStep (maxDepth : Nat) (rest : List (List Token × Nat)) : Op → List (List Token × Nat)
  | .insert tokenIds promptIndex => rest ++ [(tokenIds, promptIndex)]
  | .remove tokenIds promptIndex =>
      rest.eraseP fun e => filed maxDepth e = filed maxDepth (tokenIds, promptIndex)

/-- The prompts that were inserted and not removed, in the order they were inserted. -/
def remaining (maxDepth : Nat) (ops : List Op) : List (List Token × Nat) :=
  ops.foldl (remainingStep maxDepth) []

/-- The trie that a list of prompts builds. -/
def insertAll (maxDepth : Nat) (prompts : List (List Token × Nat)) : PrefixTrie :=
  prompts.foldl (fun t e => t.insert e.1 e.2) (new maxDepth)

theorem map_eraseP_filed (maxDepth : Nat) (e : List Token × Nat) (rest : List (List Token × Nat)) :
    (rest.eraseP fun x => filed maxDepth x = filed maxDepth e).map (filed maxDepth) =
      (rest.map (filed maxDepth)).erase (filed maxDepth e) := by
  induction rest with
  | nil => rfl
  | cons x rest ih =>
      rw [List.eraseP_cons, List.map_cons]
      by_cases hx : filed maxDepth x = filed maxDepth e
      · rw [hx, List.erase_cons_head]
        simp
      · rw [List.erase_cons_tail (by simpa using hx), ← ih]
        simp [hx]

/-- The trie holds the prompts `rest`. -/
structure Holds (maxDepth : Nat) (t : PrefixTrie) (rest : List (List Token × Nat)) : Prop where
  depth : t.maxDepth = maxDepth
  files : Files t.root (rest.map (filed maxDepth))
  rootCount : t.root.count = 0
  numPrompts : t.numPrompts = rest.length

variable {maxDepth : Nat} {t : PrefixTrie} {rest : List (List Token × Nat)}

theorem holds_new (maxDepth : Nat) : Holds maxDepth (new maxDepth) [] :=
  ⟨rfl, files_new, rfl, rfl⟩

theorem Holds.insert (h : Holds maxDepth t rest) (tokenIds : List Token) (promptIndex : Nat) :
    Holds maxDepth (t.insert tokenIds promptIndex) (rest ++ [(tokenIds, promptIndex)]) where
  depth := h.depth
  files := by
    rw [List.map_append]
    have hfiles := h.files.insert promptIndex (tokenIds.take t.maxDepth)
    rw [h.depth] at hfiles
    unfold PrefixTrie.insert
    rw [h.depth]
    exact hfiles
  rootCount := (insert_count promptIndex _ t.root).trans h.rootCount
  numPrompts := by
    show t.numPrompts + 1 = _
    rw [h.numPrompts, List.length_append]
    rfl

theorem Holds.remove_of_mem (h : Holds maxDepth t rest) {tokenIds : List Token} {promptIndex : Nat}
    (hmem : filed maxDepth (tokenIds, promptIndex) ∈ rest.map (filed maxDepth)) :
    (t.remove tokenIds promptIndex).1 = true ∧
      Holds maxDepth (t.remove tokenIds promptIndex).2
        (remainingStep maxDepth rest (.remove tokenIds promptIndex)) := by
  obtain ⟨root, pruning, hrem, hfiles, hcount, -⟩ := h.files.remove promptIndex _ hmem
  rw [← h.depth] at hrem
  unfold PrefixTrie.remove
  rw [hrem]
  refine ⟨rfl, h.depth, ?_, hcount.trans h.rootCount, ?_⟩
  · show Files root ((rest.eraseP _).map (filed maxDepth))
    rw [map_eraseP_filed]
    exact hfiles
  · show t.numPrompts - 1 = (rest.eraseP _).length
    rw [← List.length_map (f := filed maxDepth), map_eraseP_filed, List.length_erase_of_mem hmem,
      List.length_map, h.numPrompts]
    have hpos := List.length_pos_of_mem hmem
    rw [List.length_map] at hpos
    omega

theorem Holds.remove_of_not_mem (h : Holds maxDepth t rest) {tokenIds : List Token}
    {promptIndex : Nat}
    (hmem : filed maxDepth (tokenIds, promptIndex) ∉ rest.map (filed maxDepth)) :
    t.remove tokenIds promptIndex = (false, t) ∧
      remainingStep maxDepth rest (.remove tokenIds promptIndex) = rest := by
  constructor
  · refine PrefixTrie.remove_of_absent fun hfound => hmem ?_
    unfold PrefixTrie.promptsAt at hfound
    rw [h.files.promptsAt, mem_ending, mem_under, List.append_nil, h.depth] at hfound
    exact hfound
  · refine List.eraseP_of_forall_not fun e he hsame => hmem ?_
    rw [← of_decide_eq_true hsame]
    exact List.mem_map_of_mem he

theorem Holds.step (h : Holds maxDepth t rest) (op : Op) :
    Holds maxDepth (t.step op) (remainingStep maxDepth rest op) := by
  cases op with
  | insert tokenIds promptIndex => exact h.insert tokenIds promptIndex
  | remove tokenIds promptIndex =>
      by_cases hmem : filed maxDepth (tokenIds, promptIndex) ∈ rest.map (filed maxDepth)
      · exact (h.remove_of_mem hmem).2
      · obtain ⟨ht, hrest⟩ := h.remove_of_not_mem hmem
        show Holds maxDepth (t.remove tokenIds promptIndex).2
          (remainingStep maxDepth rest (.remove tokenIds promptIndex))
        rw [ht, hrest]
        exact h

/-- **A trie holds what was inserted and not removed**, after any history. -/
theorem run_holds (maxDepth : Nat) (ops : List Op) :
    Holds maxDepth (run maxDepth ops) (remaining maxDepth ops) := by
  induction ops using List.reverseRecOn with
  | nil => exact holds_new maxDepth
  | append_singleton ops op ih =>
      unfold run remaining at ih ⊢
      rw [List.foldl_append, List.foldl_append]
      exact ih.step op

theorem insertAll_holds (maxDepth : Nat) (prompts : List (List Token × Nat)) :
    Holds maxDepth (insertAll maxDepth prompts) prompts := by
  induction prompts using List.reverseRecOn with
  | nil => exact holds_new maxDepth
  | append_singleton prompts e ih =>
      unfold insertAll at ih ⊢
      rw [List.foldl_append]
      exact ih.insert e.1 e.2

/-- Two tries that hold the same are the same, up to the order of children. -/
theorem Holds.reordered {t' : PrefixTrie} (h : Holds maxDepth t rest) (h' : Holds maxDepth t' rest) :
    Reordered t.root t'.root ∧ t.numPrompts = t'.numPrompts :=
  ⟨h.files.reordered h'.files (h.rootCount.trans h'.rootCount.symm),
    h.numPrompts.trans h'.numPrompts.symm⟩

/--
**A trie does not remember its history.**  After any insertions and removals it is, up to the
order of the children, the trie that its remaining prompts build in the order in which they were
inserted.  Every node but the root counts the remaining prompts below it, of which there is at
least one, and lists those that end at it; `numPrompts` counts them all.  A removal succeeds
just when its prompt is there, and changes nothing otherwise.
-/
theorem run_history (maxDepth : Nat) (ops : List Op) :
    Reordered (run maxDepth ops).root (insertAll maxDepth (remaining maxDepth ops)).root ∧
    (∀ path node, path ≠ [] → (run maxDepth ops).root.nodeAt path = some node →
      node.count = (remaining maxDepth ops).countP (fun e => path <+: e.1.take maxDepth) ∧
        0 < node.count) ∧
    (run maxDepth ops).numPrompts = (remaining maxDepth ops).length ∧
    ∀ tokenIds promptIndex,
      (((run maxDepth ops).remove tokenIds promptIndex).1 = true ↔
        (tokenIds.take maxDepth, promptIndex) ∈ (remaining maxDepth ops).map (filed maxDepth)) ∧
      (((run maxDepth ops).remove tokenIds promptIndex).1 = false →
        ((run maxDepth ops).remove tokenIds promptIndex).2 = run maxDepth ops) := by
  have h := run_holds maxDepth ops
  refine ⟨(h.reordered (insertAll_holds maxDepth _)).1, fun path node hne hn => ?_, h.numPrompts,
    fun tokenIds promptIndex => ?_⟩
  · obtain ⟨hcount, hlive⟩ := (h.files.nodeAt path hn).2 hne
    have hpos := List.length_pos_iff.mpr hlive
    refine ⟨?_, by rw [hcount]; exact_mod_cast hpos⟩
    rw [hcount, length_under, List.countP_map]
    rfl
  · by_cases hmem : filed maxDepth (tokenIds, promptIndex) ∈
        (remaining maxDepth ops).map (filed maxDepth)
    · have hfound := (h.remove_of_mem hmem).1
      exact ⟨iff_of_true hfound hmem, fun hnot => absurd (hfound.symm.trans hnot) (by simp)⟩
    · rw [(h.remove_of_not_mem hmem).1]
      exact ⟨iff_of_false (by simp) hmem, fun _ => rfl⟩

end PrefixTrie

end Peek
