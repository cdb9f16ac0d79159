/-
What a group's tag says about the group (`submit`, `remove` and `_push_pending_to_server` of
`python/peek/offline/reorder.py`).

A group is known to the server by 32 bits of a hash: requests are grouped by it, and the
pending counts are pushed under it.  Every tagged request carries the hash of its own
truncated token ids (`run_sent`), so tags tell two groups apart as long as the hash does, and
nothing looks at whether it does.  The counts under the tags are right as long as no removal is
for a prompt that is gone from a group that has others.
-/
import Peek.Offline.ClientPending
import Mathlib.Data.Fintype.Pigeonhole

namespace Peek.PeekDispatcher

/-! ### The requests as they were sent -/

/-- The group hash in a request's tag, as `_parse_peek_rid` reads it. -/
def groupTag (sent : ClientRequest) : Option Int :=
  sent.rid.bind fun rid => (parsePeekRid rid).map fun tag => tag.2.1

variable (hash : List Token → Nat)

/-- What a call sends. -/
def sentBy (d : PeekDispatcher) : Call → List ClientRequest
  | .submit request => [(d.submit hash request).2]
  | .remove _ _ => []

/-- The requests that were sent; the `i`-th has prompt index `i`. -/
def sent (d : PeekDispatcher) : List Call → List ClientRequest
  | [] => []
  | call :: calls => sentBy hash d call ++ sent (d.step hash call) calls

variable (maxDepth : Nat)

/-- The request was sent, and its prompt has not been removed. -/
def IsPending (calls : List Call) (r : ClientRequest) : Prop :=
  ∃ i, (sent hash (new maxDepth) calls)[i]? = some r ∧
    (r.tokenIds.take maxDepth, i) ∈ (Prompts.run maxDepth calls).filed

/-- The tags tell the groups apart, and under each the server has the group's own count. -/
structure Identified (calls : List Call) : Prop where
  /-- A tagged request carries the hash of its group. -/
  tag : ∀ r, IsPending hash maxDepth calls r → r.isDict = true →
    groupTag r = some (hash (r.tokenIds.take maxDepth) : Int)
  tags : ∀ r r', IsPending hash maxDepth calls r → IsPending hash maxDepth calls r' →
    r.isDict = true → r'.isDict = true →
      (groupTag r = groupTag r' ↔ r.tokenIds.take maxDepth = r'.tokenIds.take maxDepth)
  counts : ∀ key, (Prompts.run maxDepth calls).promptsAt key ≠ [] →
    (run hash maxDepth calls).stateStore.clientPending.lookup (hash key) =
      some (((Prompts.run maxDepth calls).promptsAt key).length : Int)

/--
What is asked of a call: a submitted request has its hash in common with no pending prompt of
another group; a removal finds its prompt, or a group without any.
-/
def KeepsApart (p : Prompts) : Call → Prop
  | .submit request => ∀ e ∈ p.filed,
      hash e.1 = hash (request.tokenIds.take maxDepth) → e.1 = request.tokenIds.take maxDepth
  | .remove tokenIds promptIndex => Harmless maxDepth p tokenIds promptIndex

/-- What is asked of a call holds of every call of the run. -/
def EachKeepsApart (calls : List Call) : Prop :=
  ∀ pre call post, calls = pre ++ call :: post →
    KeepsApart hash maxDepth (Prompts.run maxDepth pre) call

variable {hash maxDepth} {calls : List Call}

theorem sent_concat (hash : List Token → Nat) (d : PeekDispatcher) (calls : List Call)
    (call : Call) : sent hash d (calls ++ [call]) =
      sent hash d calls ++ sentBy hash (calls.foldl (step hash) d) call := by
  induction calls generalizing d with
  | nil => exact List.append_nil _
  | cons first calls ih =>
      show sentBy hash d first ++ sent hash (d.step hash first) (calls ++ [call]) =
        sentBy hash d first ++ sent hash (d.step hash first) calls ++ _
      rw [ih, List.append_assoc]
      rfl

theorem eachKeepsApart_concat (call : Call) : EachKeepsApart hash maxDepth (calls ++ [call]) ↔
    EachKeepsApart hash maxDepth calls ∧
      KeepsApart hash maxDepth (Prompts.run maxDepth calls) call := by
  constructor
  · intro h
    exact ⟨fun pre c post hsplit => h pre c (post ++ [call]) (by rw [hsplit]; simp),
      h calls call [] rfl⟩
  · intro h pre c post hsplit
    rcases List.eq_nil_or_concat post with rfl | ⟨post, last, rfl⟩
    · obtain ⟨rfl, hlast⟩ := List.append_inj' hsplit rfl
      rw [List.singleton_inj] at hlast
      rw [← hlast]
      exact h.2
    · rw [List.concat_eq_append, ← List.cons_append, ← List.append_assoc] at hsplit
      exact h.1 pre c post (List.append_inj' hsplit rfl).1

/-! ### In any run -/

/-- What `submit` writes into the request is its tag. -/
theorem submit_snd (hash : List Token → Nat) (d : PeekDispatcher) (request : ClientRequest) :
    (d.submit hash request).2.isDict = request.isDict ∧
      (d.submit hash request).2.tokenIds = request.tokenIds := by
  unfold submit
  simp only
  split <;> exact ⟨rfl, rfl⟩

theorem run_hashed (calls : List Call) : ∀ key n,
    (run hash maxDepth calls).groupHashes.lookup key = some n → n = hash key := by
  induction calls using List.reverseRecOn with
  | nil => exact (inStep_new hash maxDepth).hashed
  | append_singleton calls call ih =>
      rw [run_concat]
      cases call with
      | submit request => exact hashed_submit ih request
      | remove tokenIds promptIndex => exact hashed_remove ih tokenIds promptIndex

/-- The requests sent so far: how many, their tags, and that they include the pending ones. -/
structure Sent (hash : List Token → Nat) (maxDepth : Nat) (calls : List Call) : Prop where
  length : (sent hash (new maxDepth) calls).length = (Prompts.run maxDepth calls).next
  tag : ∀ r ∈ sent hash (new maxDepth) calls, r.isDict = true →
    groupTag r = some (hash (r.tokenIds.take maxDepth) : Int)
  prompt : ∀ e ∈ (Prompts.run maxDepth calls).filed, ∃ r,
    (sent hash (new maxDepth) calls)[e.2]? = some r ∧ r.tokenIds.take maxDepth = e.1

theorem groupTag_submit {d : PeekDispatcher}
    (h : ∀ key n, d.groupHashes.lookup key = some n → n = hash key) {request : ClientRequest}
    (hdict : request.isDict = true) :
    groupTag (d.submit hash request).2 = some (hash (d.groupKey request.tokenIds) : Int) := by
  obtain ⟨rank, hrid⟩ := rid_submit h hdict
  unfold groupTag
  rw [hrid, Option.bind_some, parsePeekRid_peekRid]
  rfl

theorem run_sent (hash : List Token → Nat) (maxDepth : Nat) (calls : List Call) :
    Sent hash maxDepth calls := by
  induction calls using List.reverseRecOn with
  | nil => exact ⟨rfl, fun r hr => absurd hr List.not_mem_nil, fun e he => absurd he List.not_mem_nil⟩
  | append_singleton calls call ih =>
      have hconcat := sent_concat hash (new maxDepth) calls call
      cases call with
      | submit request =>
          have hsnd := submit_snd hash (run hash maxDepth calls) request
          have hsent : sent hash (new maxDepth) (calls ++ [.submit request]) =
              sent hash (new maxDepth) calls ++
                [((run hash maxDepth calls).submit hash request).2] := hconcat
          refine ⟨?_, fun r hr hdict => ?_, fun e he => ?_⟩
          · rw [hsent, List.length_append, ih.length, Prompts.run_concat]
            rfl
          · rw [hsent] at hr
            rcases List.mem_append.mp hr with hr | hr
            · exact ih.tag r hr hdict
            · rw [List.mem_singleton] at hr
              subst hr
              rw [groupTag_submit (run_hashed calls) (hsnd.1 ▸ hdict), hsnd.2]
              unfold groupKey
              rw [(run_filed maxDepth calls).ownDepth]
          · rw [Prompts.run_concat] at he
            rw [hsent]
            rcases List.mem_append.mp he with he | he
            · obtain ⟨r, hr, hkey⟩ := ih.prompt e he
              exact ⟨r, List.getElem?_append_left (List.getElem?_eq_some_iff.mp hr).1 ▸ hr, hkey⟩
            · rw [List.mem_singleton] at he
              subst he
              refine ⟨_, ?_, congrArg (List.take maxDepth) hsnd.2⟩
              show (_ ++ _)[(Prompts.run maxDepth calls).next]? = _
              rw [← ih.length]
              exact List.getElem?_concat_length
      | remove tokenIds promptIndex =>
          have hsent : sent hash (new maxDepth) (calls ++ [.remove tokenIds promptIndex]) =
              sent hash (new maxDepth) calls := hconcat.trans (List.append_nil _)
          refine ⟨?_, ?_, fun e he => ?_⟩
          · rw [hsent, ih.length, Prompts.run_concat]
            rfl
          · rw [hsent]
            exact ih.tag
          · rw [Prompts.run_concat] at he
            rw [hsent]
            exact ih.prompt e (List.mem_of_mem_erase he)

/-! ### As long as every call keeps the groups apart -/

/-- No two groups with pending prompts have one hash. -/
def Apart (hash : List Token → Nat) (p : Prompts) : Prop :=
  ∀ e ∈ p.filed, ∀ e' ∈ p.filed, hash e.1 = hash e'.1 → e.1 = e'.1

theorem Apart.step {p : Prompts} (h : Apart hash p) {call : Call}
    (hcall : KeepsApart hash maxDepth p call) : Apart hash (p.step maxDepth call) := by
  cases call with
  | submit request =>
      intro e he e' he' heq
      rcases List.mem_append.mp he with he | he
      · rcases List.mem_append.mp he' with he' | he'
        · exact h e he e' he' heq
        · rw [List.mem_singleton] at he'
          subst he'
          exact hcall e he heq
      · rw [List.mem_singleton] at he
        subst he
        rcases List.mem_append.mp he' with he' | he'
        · exact (hcall e' he' heq.symm).symm
        · rw [List.mem_singleton] at he'
          rw [he']
  | remove tokenIds promptIndex =>
      intro e he e' he'
      exact h e (List.mem_of_mem_erase he) e' (List.mem_of_mem_erase he')

theorem run_apart (h : EachKeepsApart hash maxDepth calls) :
    Apart hash (Prompts.run maxDepth calls) := by
  induction calls using List.reverseRecOn with
  | nil => exact fun e he => absurd he List.not_mem_nil
  | append_singleton calls call ih =>
      obtain ⟨hcalls, hcall⟩ := (eachKeepsApart_concat call).mp h
      rw [Prompts.run_concat]
      exact (ih hcalls).step hcall

theorem run_inStep (h : EachKeepsApart hash maxDepth calls) :
    InStep hash maxDepth (run hash maxDepth calls) := by
  induction calls using List.reverseRecOn with
  | nil => exact inStep_new hash maxDepth
  | append_singleton calls call ih =>
      obtain ⟨hcalls, hcall⟩ := (eachKeepsApart_concat call).mp h
      rw [run_concat]
      cases call with
      | submit request => exact (ih hcalls).submit request
      | remove tokenIds promptIndex =>
          have hfiled := @run_filed hash maxDepth calls
          refine (ih hcalls).remove ?_
          rw [hfiled.mem_iff, hfiled.empty_iff]
          exact hcall

theorem Prompts.exists_of_promptsAt_ne_nil {p : Prompts} {key : List Token}
    (h : p.promptsAt key ≠ []) : ∃ e ∈ p.filed, e.1 = key := by
  obtain ⟨i, hi⟩ := List.exists_mem_of_ne_nil _ h
  exact ⟨_, (p.mem_promptsAt key i).mp hi, rfl⟩

theorem identified_of_eachKeepsApart (h : EachKeepsApart hash maxDepth calls) :
    Identified hash maxDepth calls := by
  have hinStep := run_inStep h
  have hfiled := @run_filed hash maxDepth calls
  have htag : ∀ r, IsPending hash maxDepth calls r → r.isDict = true →
      groupTag r = some (hash (r.tokenIds.take maxDepth) : Int) :=
    fun r ⟨i, hr, _⟩ hdict =>
      (run_sent hash maxDepth calls).tag r (List.mem_of_getElem? hr) hdict
  refine ⟨htag, fun r r' hr hr' hdict hdict' => ?_, fun key hne => ?_⟩
  · rw [htag r hr hdict, htag r' hr' hdict', Option.some.injEq, Int.natCast_inj]
    obtain ⟨⟨i, -, hi⟩, ⟨i', -, hi'⟩⟩ := And.intro hr hr'
    exact ⟨fun heq => run_apart h _ hi _ hi' heq, fun heq => congrArg hash heq⟩
  · rw [← hfiled.prompts] at hne ⊢
    refine hinStep.lookup_clientPending hne fun key' hne' heq => ?_
    rw [hfiled.prompts] at hne hne'
    obtain ⟨e, he, hkey⟩ := Prompts.exists_of_promptsAt_ne_nil hne
    obtain ⟨e', he', hkey'⟩ := Prompts.exists_of_promptsAt_ne_nil hne'
    rw [← hkey, ← hkey'] at heq ⊢
    exact run_apart h _ he' _ he heq

/-! ### What a call that does not keep them apart leads to -/

/-- A removal without its prompt counts a group down that keeps all its prompts. -/
theorem not_identified_remove (h : EachKeepsApart hash maxDepth calls) {tokenIds : List Token}
    {promptIndex : Nat}
    (hbad : ¬ Harmless maxDepth (Prompts.run maxDepth calls) tokenIds promptIndex) :
    ¬ Identified hash maxDepth (calls ++ [.remove tokenIds promptIndex]) := by
  intro hid
  have hinStep := run_inStep h
  have hfiled := @run_filed hash maxDepth calls
  have hfiled' := @run_filed hash maxDepth (calls ++ [.remove tokenIds promptIndex])
  have hcounts := hid.counts (tokenIds.take maxDepth)
  rw [Prompts.run_concat, Prompts.promptsAt_remove, if_pos rfl] at hcounts
  unfold Harmless at hbad
  rw [not_or] at hbad
  obtain ⟨habsent, hothers⟩ := hbad
  rw [← Prompts.mem_promptsAt] at habsent
  rw [← hfiled.empty_iff, hfiled.prompts] at hothers
  have hkey : (run hash maxDepth calls).groupKey tokenIds = tokenIds.take maxDepth := by
    unfold groupKey
    rw [hfiled.ownDepth]
  rw [hkey] at hothers
  rw [List.erase_of_not_mem habsent] at hcounts
  have hlook := hcounts hothers
  rw [run_concat] at hlook hfiled'
  set d := run hash maxDepth calls with hd
  rw [show d.step hash (.remove tokenIds promptIndex) = d.remove tokenIds promptIndex from rfl]
    at hlook hfiled'
  rw [pushed_remove] at hlook
  obtain ⟨e, he, hhash, hcount⟩ := Dict.exists_of_lookup_ofList hlook
  rw [hfiled'.hash_counted (hashed_remove hinStep.hashed _ _) he] at hhash
  have he := (Dict.mem_iff_lookup (counted_remove hinStep.counted tokenIds promptIndex)).mp he
  rw [lookup_groupCount_remove, hkey, hinStep.exact, hfiled.prompts] at he
  -- the entry is that of a pending group, and only the one has the hash
  have hsame : tokenIds.take maxDepth = e.1 := by
    have hne : (Prompts.run maxDepth calls).promptsAt e.1 ≠ [] := by
      intro hnil
      rw [if_pos hnil] at he
      simp at he
    obtain ⟨f, hf, hfkey⟩ := Prompts.exists_of_promptsAt_ne_nil hne
    obtain ⟨g, hg, hgkey⟩ := Prompts.exists_of_promptsAt_ne_nil hothers
    rw [← hfkey, ← hgkey] at hhash ⊢
    exact (run_apart h f hf g hg hhash).symm
  rw [if_pos hsame, ← hsame, if_neg hothers, Option.bind_some] at he
  split at he
  · simp at he
  · rw [Option.some.injEq] at he
    omega

/-- A submitted request with the hash of another pending group gets that group's tag. -/
theorem not_identified_submit {request : ClientRequest} (hdict : request.isDict = true)
    (htagged : ∀ r ∈ sent hash (new maxDepth) calls, r.isDict = true)
    (hbad : ¬ KeepsApart hash maxDepth (Prompts.run maxDepth calls) (.submit request)) :
    ¬ Identified hash maxDepth (calls ++ [.submit request]) := by
  intro hid
  refine hbad fun e he heq => ?_
  have hsent := run_sent hash maxDepth (calls ++ [.submit request])
  have hmem : ∀ f ∈ (Prompts.run maxDepth (calls ++ [.submit request])).filed, ∃ r,
      IsPending hash maxDepth (calls ++ [.submit request]) r ∧ r.isDict = true ∧
        r.tokenIds.take maxDepth = f.1 := by
    intro f hf
    obtain ⟨r, hr, hkey⟩ := hsent.prompt f hf
    refine ⟨r, ⟨f.2, hr, hkey ▸ hf⟩, ?_, hkey⟩
    have hin := List.mem_of_getElem? hr
    rw [sent_concat] at hin
    rcases List.mem_append.mp hin with hin | hin
    · exact htagged r hin
    · rw [List.mem_singleton.mp hin]
      exact (submit_snd hash _ request).1.trans hdict
  rw [Prompts.run_concat] at hmem
  obtain ⟨r, hr, hdict, hkey⟩ := hmem e (List.mem_append_left _ he)
  obtain ⟨r', hr', hdict', hkey'⟩ := hmem _ (List.mem_append_right _ List.mem_cons_self)
  have htags := hid.tags r r' hr hr' hdict hdict'
  rw [hid.tag r hr hdict, hid.tag r' hr' hdict', hkey, hkey'] at htags
  exact htags.mp (congrArg _ (congrArg _ heq))

theorem sent_isDict (d : PeekDispatcher)
    (h : ∀ request, Call.submit request ∈ calls → request.isDict = true) :
    ∀ r ∈ sent hash d calls, r.isDict = true := by
  induction calls generalizing d with
  | nil => exact fun r hr => absurd hr List.not_mem_nil
  | cons call calls ih =>
      intro r hr
      rcases List.mem_append.mp hr with hr | hr
      · cases call with
        | submit request =>
            rw [List.mem_singleton.mp hr]
            exact (submit_snd hash d request).1.trans (h request List.mem_cons_self)
        | remove tokenIds promptIndex => exact absurd hr List.not_mem_nil
      · exact ih _ (fun request hrequest => h request (List.mem_cons_of_mem _ hrequest)) r hr

/--
**When tags identify groups.**  As long as no two groups with pending prompts have one hash,
and no removal is for a prompt gone from a group that has others, the tags tell the pending
groups apart and the server has the count of each.  In a run of requests that are tagged this
is what it takes.
-/
theorem identified_iff (hash : List Token → Nat) (maxDepth : Nat) (calls : List Call) :
    (EachKeepsApart hash maxDepth calls →
      ∀ pre, pre <+: calls → Identified hash maxDepth pre) ∧
    ((∀ request, Call.submit request ∈ calls → request.isDict = true) →
      (∀ pre, pre <+: calls → Identified hash maxDepth pre) →
        EachKeepsApart hash maxDepth calls) := by
  constructor
  · intro h pre hpre
    obtain ⟨post, rfl⟩ := hpre
    refine identified_of_eachKeepsApart fun before call after hsplit => ?_
    exact h before call (after ++ post) (by rw [hsplit, List.append_assoc]; rfl)
  · intro hdict hid
    induction calls using List.reverseRecOn with
    | nil => exact fun pre call post hsplit => absurd hsplit (by simp)
    | append_singleton calls call ih =>
        have hcalls := ih
          (fun request hrequest => hdict request (List.mem_append_left _ hrequest))
          fun pre hpre => hid pre (hpre.trans (List.prefix_append _ _))
        have hlast := hid _ (List.prefix_refl _)
        rw [eachKeepsApart_concat]
        refine ⟨hcalls, ?_⟩
        by_contra hbad
        cases call with
        | submit request =>
            refine not_identified_submit
              (hdict request (List.mem_append_right _ List.mem_cons_self))
              (sent_isDict _ fun other hother => ?_) hbad hlast
            exact hdict other (List.mem_append_left _ hother)
        | remove tokenIds promptIndex => exact not_identified_remove hcalls hbad hlast

/-- **No hash into 32 bits keeps all groups apart**: two prompts are enough. -/
theorem exists_not_identified (hbound : ∀ key, hash key < 2 ^ 32) (hdepth : 0 < maxDepth) :
    ∃ first second : List Token, first.take maxDepth ≠ second.take maxDepth ∧
      ¬ Identified hash maxDepth
        [.submit (plainRequest first), .submit (plainRequest second)] := by
  obtain ⟨t, t', hne, heq⟩ := Finite.exists_ne_map_eq_of_infinite
    fun t : Token => (⟨hash [t], hbound [t]⟩ : Fin (2 ^ 32))
  have htake : ∀ t : Token, [t].take maxDepth = [t] := fun t => List.take_of_length_le hdepth
  refine ⟨[t], [t'], ?_, ?_⟩
  · rw [htake, htake]
    exact fun h => hne (List.singleton_inj.mp h)
  · refine @not_identified_submit hash maxDepth [.submit (plainRequest [t])] _ rfl
      (sent_isDict _ fun request hrequest => ?_) fun hapart => ?_
    · rw [List.mem_singleton, Call.submit.injEq] at hrequest
      rw [hrequest]
      rfl
    · have hkey := hapart ([t].take maxDepth, 0) List.mem_cons_self
      show False
      simp only [plainRequest, htake] at hkey
      exact hne (List.singleton_inj.mp (hkey (congrArg Fin.val heq)))

/-- Two prompts of one group and one of another, all under the hash 7. -/
theorem not_identified_sharedHash :
    (sent (fun _ => 7) (new 128) [.submit (plainRequest [1, 2]), .submit (plainRequest [1, 2]),
      .submit (plainRequest [3])]).map groupTag = [some 7, some 7, some 7] ∧
    (run (fun _ => 7) 128 [.submit (plainRequest [1, 2]), .submit (plainRequest [1, 2]),
      .submit (plainRequest [3])]).stateStore.clientPending = [(7, 1)] ∧
    ¬ Identified (fun _ => 7) 128 [.submit (plainRequest [1, 2]), .submit (plainRequest [1, 2]),
      .submit (plainRequest [3])] := by
  refine ⟨by decide, by decide, fun hid => ?_⟩
  have hcount := hid.counts [1, 2] (by decide)
  revert hcount
  decide

end Peek.PeekDispatcher
