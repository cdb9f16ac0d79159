/-
Who waits for whom in a queue.

`_compute_prefix_matches` holds back a request with little in the cache if it begins as an earlier
one does that it does not hold back: when that one has run, there is more in the cache.  The
auxiliary tree holds the prompts of just those that lead, so who is held back can be read off the
queue (`deprioritized_iff`); in particular nobody is held back for one that is.
-/
import Peek.Sglang.Carried
import Peek.Sglang.SlotContent

namespace Peek

open RadixCache

/-- `key` begins with the same `n` tokens as `q`, under the same namespace. -/
def RadixKey.Shares (n : Nat) (key q : RadixKey) : Prop :=
  n ≤ key.length ∧ key.take n = q.take n

instance (n : Nat) (key q : RadixKey) : Decidable (RadixKey.Shares n key q) :=
  inferInstanceAs (Decidable (_ ∧ _))

theorem RadixKey.shares_iff {n : Nat} (hn : 0 < n) {key q : RadixKey} (hle : n ≤ key.length) :
    (key.symbols 1).take n <+: q.symbols 1 ↔ RadixKey.Shares n key q := by
  have htake : ∀ k : RadixKey, (k.symbols 1).take n = (k.take n).symbols 1 := fun k => by
    rw [← RadixKey.symbols_take Nat.one_pos, Nat.one_mul]
  have hne : (key.take n).tokenIds ≠ [] := by
    refine List.ne_nil_of_length_pos ?_
    rw [RadixKey.tokenIds_take, List.length_take]
    exact lt_min hn (lt_of_lt_of_le hn hle)
  constructor
  · intro hpre
    have hlen : ((key.symbols 1).take n).length = n := by
      rw [List.length_take, RadixKey.length_symbols_one, Nat.min_eq_left hle]
    have heq := List.prefix_iff_eq_take.mp hpre
    rw [hlen, htake, htake] at heq
    exact ⟨hle, RadixKey.eq_of_symbols Nat.one_pos hne heq⟩
  · rintro ⟨-, heq⟩
    rw [htake, heq, ← htake]
    exact List.take_prefix _ _

namespace SchedulePolicy

/-! ### The auxiliary tree -/

/-- The tree holds what the keys begin with, and nothing else. -/
structure HoldsJust (tree : RadixCache) (leaders : List Req) : Prop where
  sound : Sound tree
  pageSize : tree.pageSize = 1
  enabled : tree.disable = false
  holds : ∀ p, tree.Holds p ↔ p = [] ∨ ∃ q ∈ leaders, p <+: q.key.symbols 1

theorem holdsJust_new : HoldsJust createSimulated [] where
  sound := ⟨_, _, _, new_wf Nat.one_pos false⟩
  pageSize := rfl
  enabled := rfl
  holds p := by
    rw [createSimulated, holds_new_iff Nat.one_pos]
    simp

theorem HoldsJust.matchPrefix {tree : RadixCache} {leaders : List Req}
    (h : HoldsJust tree leaders) (key : RadixKey) : HoldsJust (tree.matchPrefix key).2 leaders := by
  have hs : OnlySplits tree (tree.matchPrefix key).2 := onlySplits_matchPrefixWith true tree key
  have hl := hs.later h.sound
  exact ⟨hs.sound h.sound, hl.pageSize.trans h.pageSize, hl.disable.trans h.enabled,
    fun p => (hs.holds_iff h.sound).trans (h.holds p)⟩

theorem HoldsJust.insert {tree : RadixCache} {leaders : List Req} (h : HoldsJust tree leaders)
    (r : Req) : HoldsJust (tree.insert (dummyParams r.key)).2 (leaders ++ [r]) where
  sound := by
    obtain ⟨live, rp, pv, hwf⟩ := h.sound
    obtain ⟨live', rp', pv', hwf', -⟩ := insert_wf hwf (dummyParams r.key)
    exact ⟨live', rp', pv', hwf'⟩
  pageSize := (later_insert tree _).pageSize.trans h.pageSize
  enabled := (later_insert tree _).disable.trans h.enabled
  holds p := by
    rw [h.sound.holds_insert, h.holds, h.pageSize]
    simp only [h.enabled, true_and, List.mem_append, List.mem_singleton, or_and_right, exists_or,
      exists_eq_left, or_assoc]
    exact Iff.rfl

/-- **A match is as long as what some leader begins with.** -/
theorem HoldsJust.le_length_iff {tree : RadixCache} {leaders : List Req}
    (h : HoldsJust tree leaders) {n : Int} (hn : 0 < n) (key : RadixKey) :
    n ≤ (tree.matchPrefix key).1.deviceIndices.length ↔
      ∃ q ∈ leaders, RadixKey.Shares n.toNat key q.key := by
  have hpos : 0 < n.toNat := by omega
  obtain ⟨k, hk, hlen, hheld⟩ := h.sound.length_matchPrefix key
  have hsym : tree.matchSymbols key = key.symbols 1 := by
    unfold matchSymbols pageAlign
    rw [h.enabled, h.pageSize]
    simp
  rw [hsym, RadixKey.length_symbols_one] at hk hheld
  rw [hlen, h.pageSize, Nat.one_mul]
  have hle : n ≤ k ↔ n.toNat ≤ k := by omega
  rw [hle]
  by_cases hshort : n.toNat ≤ key.length
  · rw [← hheld _ hshort, h.holds]
    have hne : (key.symbols 1).take n.toNat ≠ [] := by
      refine List.ne_nil_of_length_pos ?_
      rw [List.length_take, RadixKey.length_symbols_one]
      exact lt_min hpos (lt_of_lt_of_le hpos hshort)
    rw [or_iff_right hne]
    exact exists_congr fun q => and_congr_right fun _ => RadixKey.shares_iff hpos hshort
  · refine iff_of_false (fun hc => hshort (hc.trans hk)) ?_
    rintro ⟨q, -, hc, -⟩
    exact hshort hc

/-! ### The loop -/

/-- The cache has few tokens of the request's prompt. -/
def Short (check : Int) (c : RadixCache) (r : Req) : Prop :=
  r.peekMatched = false ∧ ((c.matchPrefix r.key).1.deviceIndices.length : Int) ≤ check

/-- `r` begins as one of `before` does that leads. -/
def Waits (check depr : Int) (c : RadixCache) (held : Finset ReqId) (before : List Req) (r : Req) :
    Prop :=
  Short check c r ∧ ∃ q ∈ before, Short check c q ∧ q.rid ∉ held ∧
    RadixKey.Shares depr.toNat r.key q.key

/-- What is known when the requests of `done` have had their turn. -/
structure Ranked (check depr : Int) (c : RadixCache) (done : List Req) (s : PrefixMatches) : Prop
    where
  splits : OnlySplits c s.treeCache
  own : ∀ rid ∈ s.temporaryDeprioritized, rid ∈ done.map (·.rid)
  leaders : ∃ leaders, HoldsJust s.waitingQueueRadixTree leaders ∧
    ∀ q, q ∈ leaders ↔ q ∈ done ∧ Short check c q ∧ q.rid ∉ s.temporaryDeprioritized
  held : ∀ before r after, done = before ++ r :: after →
    (r.rid ∈ s.temporaryDeprioritized ↔ Waits check depr c s.temporaryDeprioritized before r)

theorem ranked_start (check depr : Int) (c : RadixCache) :
    Ranked check depr c [] ⟨c, createSimulated, ∅⟩ where
  splits := OnlySplits.refl c
  own rid hrid := absurd hrid (Finset.notMem_empty rid)
  leaders := ⟨[], holdsJust_new, fun q => by simp⟩
  held before r after h := by simp at h

/-- What one turn does to the state. -/
theorem prefixMatchTurn_fst (check depr : Int) (s : PrefixMatches) (r : Req) :
    (prefixMatchTurn check depr s r).1 =
      if r.peekMatched then s
      else if ((s.treeCache.matchPrefix r.key).1.deviceIndices.length : Int) ≤ check then
        if depr ≤ ((s.waitingQueueRadixTree.matchPrefix r.key).1.deviceIndices.length : Int) then
          ⟨(s.treeCache.matchPrefix r.key).2, (s.waitingQueueRadixTree.matchPrefix r.key).2,
            insert r.rid s.temporaryDeprioritized⟩
        else
          ⟨(s.treeCache.matchPrefix r.key).2,
            ((s.waitingQueueRadixTree.matchPrefix r.key).2.insert (dummyParams r.key)).2,
            s.temporaryDeprioritized⟩
      else ⟨(s.treeCache.matchPrefix r.key).2, s.waitingQueueRadixTree,
        s.temporaryDeprioritized⟩ := by
  unfold prefixMatchTurn
  split
  · rfl
  · rfl

/-- Splits leave the length of a match as it is. -/
theorem length_match_onlySplits {c c' : RadixCache} (hs : OnlySplits c c') (h : Sound c)
    (key : RadixKey) : (c'.matchPrefix key).1.deviceIndices.length =
      (c.matchPrefix key).1.deviceIndices.length := by
  obtain ⟨k, hk, hlen, hheld⟩ := h.length_matchPrefix key
  obtain ⟨k', hk', hlen', hheld'⟩ := (hs.sound h).length_matchPrefix key
  rw [hs.matchSymbols_eq h] at hk' hheld'
  have hkk : k' = k := by
    refine Nat.le_antisymm ?_ ?_
    · exact (hheld k' hk').mp ((hs.holds_iff h).mp ((hheld' k' hk').mpr (Nat.le_refl _)))
    · exact (hheld' k hk).mp ((hs.holds_iff h).mpr ((hheld k hk).mpr (Nat.le_refl _)))
  rw [hlen, hlen', hkk, (hs.later h).pageSize]

section

variable {check depr : Int} {c : RadixCache} {done : List Req} {s s' : PrefixMatches} {r : Req}

/-- Who comes later is held back or not, but that makes no difference to who came before. -/
theorem Ranked.held_congr (h : Ranked check depr c done s) {held : Finset ReqId}
    (hheld : ∀ q ∈ done, q.rid ∈ held ↔ q.rid ∈ s.temporaryDeprioritized) :
    ∀ before r after, done = before ++ r :: after →
      (r.rid ∈ held ↔ Waits check depr c held before r) := by
  intro before r after hdone
  rw [hheld r (by rw [hdone]; simp), h.held before r after hdone]
  unfold Waits
  refine and_congr_right fun _ => exists_congr fun q => and_congr_right fun hq => ?_
  rw [hheld q (by rw [hdone]; exact List.mem_append_left _ hq)]

/-- The last of a list, or one before it. -/
theorem split_append_singleton {before after : List Req} {r0 : Req}
    (h : done ++ [r] = before ++ r0 :: after) :
    (before = done ∧ r0 = r) ∨ ∃ after', done = before ++ r0 :: after' := by
  rcases List.eq_nil_or_concat after with rfl | ⟨after', x, rfl⟩
  · obtain ⟨hdone, hr⟩ := List.append_inj' h rfl
    exact Or.inl ⟨hdone.symm, (List.cons.inj hr).1.symm⟩
  · rw [List.concat_eq_append, ← List.cons_append, ← List.append_assoc] at h
    exact Or.inr ⟨after', (List.append_inj' h rfl).1⟩

/-- **One turn**, of a request that has had none. -/
theorem Ranked.turn (h : Ranked check depr c done s) (hc : Sound c) (hdepr : 0 < depr)
    (hnew : r.rid ∉ done.map (·.rid)) :
    Ranked check depr c (done ++ [r]) (prefixMatchTurn check depr s r).1 := by
  obtain ⟨leaders, htree, hleaders⟩ := h.leaders
  have hother : ∀ q ∈ done, q.rid ≠ r.rid := fun q hq heq =>
    hnew (heq ▸ List.mem_map_of_mem hq)
  have hnot : r.rid ∉ s.temporaryDeprioritized := fun hmem => hnew (h.own _ hmem)
  have hown : ∀ rid, rid ∈ done.map (·.rid) → rid ∈ (done ++ [r]).map (·.rid) := fun rid hrid => by
    rw [List.map_append]
    exact List.mem_append_left _ hrid
  -- a turn in which `r` is not held back
  have hfree : ∀ {s' : PrefixMatches} {leaders' : List Req}, OnlySplits c s'.treeCache →
      s'.temporaryDeprioritized = s.temporaryDeprioritized →
      HoldsJust s'.waitingQueueRadixTree leaders' →
      (∀ q, q ∈ leaders' ↔ q ∈ leaders ∨ q = r ∧ Short check c r) →
      ¬ Waits check depr c s.temporaryDeprioritized done r →
      Ranked check depr c (done ++ [r]) s' := by
    intro s' leaders' hsplits hheld htree' hleaders' hwaits
    refine ⟨hsplits, fun rid hrid => hown rid (h.own rid (hheld ▸ hrid)), ⟨leaders', htree',
      fun q => ?_⟩, fun before r0 after hdone => ?_⟩
    · rw [hleaders', hleaders, hheld, List.mem_append, List.mem_singleton]
      constructor
      · rintro (⟨hq, hq'⟩ | ⟨rfl, hq⟩)
        · exact ⟨Or.inl hq, hq'⟩
        · exact ⟨Or.inr rfl, hq, hnot⟩
      · rintro ⟨hq | rfl, hq'⟩
        · exact Or.inl ⟨hq, hq'⟩
        · exact Or.inr ⟨rfl, hq'.1⟩
    · rw [hheld]
      rcases split_append_singleton hdone with ⟨rfl, rfl⟩ | ⟨after', hdone⟩
      · exact iff_of_false hnot hwaits
      · exact h.held before r0 after' hdone
  rw [prefixMatchTurn_fst]
  by_cases hpm : r.peekMatched = true
  · rw [if_pos hpm]
    refine hfree h.splits rfl htree (fun q => ?_) fun hw => ?_
    · refine ⟨Or.inl, fun hq => hq.resolve_right ?_⟩
      rintro ⟨-, hshort, -⟩
      rw [hpm] at hshort
      exact Bool.noConfusion hshort
    · have hshort := hw.1.1
      rw [hpm] at hshort
      exact Bool.noConfusion hshort
  · rw [if_neg hpm]
    have hpmf : r.peekMatched = false := by simpa using hpm
    have hsplits : OnlySplits c (s.treeCache.matchPrefix r.key).2 :=
      h.splits.trans (onlySplits_matchPrefixWith true s.treeCache r.key)
    have hlen := length_match_onlySplits h.splits hc r.key
    by_cases hcheck : (((s.treeCache.matchPrefix r.key).1.deviceIndices.length : Nat) : Int) ≤ check
    · have hshort : Short check c r := ⟨hpmf, by rw [← hlen]; exact hcheck⟩
      rw [if_pos hcheck]
      have hiff := htree.le_length_iff hdepr r.key
      have hwaits : Waits check depr c s.temporaryDeprioritized done r ↔
          ∃ q ∈ leaders, RadixKey.Shares depr.toNat r.key q.key := by
        unfold Waits
        rw [and_iff_right hshort]
        refine exists_congr fun q => ?_
        rw [hleaders, and_assoc, and_assoc]
      by_cases hlong : depr ≤
          ((s.waitingQueueRadixTree.matchPrefix r.key).1.deviceIndices.length : Int)
      · -- `r` is held back
        rw [if_pos hlong]
        have hsame : ∀ q ∈ done, q.rid ∈ insert r.rid s.temporaryDeprioritized ↔
            q.rid ∈ s.temporaryDeprioritized := fun q hq => by
          rw [Finset.mem_insert, or_iff_right (hother q hq)]
        refine ⟨hsplits, fun rid hrid => ?_, ⟨leaders, htree.matchPrefix r.key, fun q => ?_⟩,
          fun before r0 after hdone => ?_⟩
        · rcases Finset.mem_insert.mp hrid with rfl | hrid
          · simp
          · exact hown rid (h.own rid hrid)
        · show _ ↔ _ ∧ _ ∧ q.rid ∉ insert r.rid s.temporaryDeprioritized
          rw [hleaders, List.mem_append, List.mem_singleton]
          constructor
          · rintro ⟨hq, hq', hq''⟩
            exact ⟨Or.inl hq, hq', mt (hsame q hq).mp hq''⟩
          · rintro ⟨hq | rfl, hq', hq''⟩
            · exact ⟨hq, hq', mt (hsame q hq).mpr hq''⟩
            · exact absurd (Finset.mem_insert_self _ _) hq''
        · show r0.rid ∈ insert r.rid s.temporaryDeprioritized ↔
            Waits check depr c (insert r.rid s.temporaryDeprioritized) before r0
          rcases split_append_singleton hdone with ⟨rfl, rfl⟩ | ⟨after', hdone⟩
          · refine iff_of_true (Finset.mem_insert_self _ _) ?_
            obtain ⟨-, q, hq, hqs, hqh, hshare⟩ := hwaits.mpr (hiff.mp hlong)
            exact ⟨hshort, q, hq, hqs, mt (hsame q hq).mp hqh, hshare⟩
          · exact h.held_congr hsame before r0 after' hdone
      · rw [if_neg hlong]
        refine hfree hsplits rfl ((htree.matchPrefix r.key).insert r)
          (fun q => ?_) fun hw => hlong (hiff.mpr (hwaits.mp hw))
        rw [List.mem_append, List.mem_singleton, and_iff_left hshort]
    · rw [if_neg hcheck]
      refine hfree hsplits rfl htree (fun q => ?_) fun hw => ?_
      · refine ⟨Or.inl, fun hq => hq.resolve_right ?_⟩
        rintro ⟨-, -, hshort⟩
        rw [← hlen] at hshort
        exact hcheck hshort
      · have hshort := hw.1.2
        rw [← hlen] at hshort
        exact hcheck hshort

theorem Ranked.run (hc : Sound c) (hdepr : 0 < depr) : ∀ (todo done : List Req)
    (s : PrefixMatches), Ranked check depr c done s → ((done ++ todo).map (·.rid)).Nodup →
      Ranked check depr c (done ++ todo) (forEach (prefixMatchTurn check depr) s todo).1 := by
  intro todo
  induction todo with
  | nil =>
      intro done s h _
      rw [List.append_nil]
      exact h
  | cons r todo ih =>
      intro done s h hnd
      have hnew : r.rid ∉ done.map (·.rid) := by
        rw [List.map_append, List.map_cons] at hnd
        intro hmem
        exact List.disjoint_of_nodup_append hnd hmem List.mem_cons_self
      have happend : done ++ r :: todo = done ++ [r] ++ todo := by
        rw [List.append_assoc, List.singleton_append]
      rw [forEach_cons, happend]
      rw [happend] at hnd
      exact ih (done ++ [r]) _ (h.turn hc hdepr hnew) hnd

end

/--
**Who is held back.**  In a queue of distinct requests a request is held back if and only if it
was not matched before, has no more than the threshold in the cache, and begins as some earlier
request does of which the same is true and which is not held back itself.
-/
theorem deprioritized_iff {check depr : Int} {c : RadixCache} (hc : Sound c) (hdepr : 0 < depr)
    {queue before after : List Req} {r : Req} (hnd : (queue.map (·.rid)).Nodup)
    (hqueue : queue = before ++ r :: after) :
    let held := (computePrefixMatches check depr c queue).1.temporaryDeprioritized
    r.rid ∈ held ↔ (r.peekMatched = false ∧
        ((c.matchPrefix r.key).1.deviceIndices.length : Int) ≤ check) ∧
      ∃ q ∈ before, (q.peekMatched = false ∧
        ((c.matchPrefix q.key).1.deviceIndices.length : Int) ≤ check) ∧ q.rid ∉ held ∧
        RadixKey.Shares depr.toNat r.key q.key := by
  have h := Ranked.run hc hdepr queue [] _ (ranked_start check depr c) hnd
  exact h.held before r after hqueue

/-- Of three prompts that begin alike the first leads, and the others wait for it. -/
theorem deprioritized_iff_three :
    let queue : List Req := [⟨"a", [1, 2, 3], [], none, [], none, false⟩,
      ⟨"b", [1, 2, 4], [], none, [], none, false⟩, ⟨"c", [1, 2, 5], [], none, [], none, false⟩]
    let held := (computePrefixMatches 0 2 createSimulated queue).1.temporaryDeprioritized
    "c" ∈ held ∧ "a" ∉ held := by
  intro queue held
  have hsound : Sound createSimulated := ⟨_, _, _, new_wf Nat.one_pos false⟩
  have ha : "a" ∉ held := by decide +kernel
  refine ⟨(@deprioritized_iff 0 2 createSimulated hsound (by decide) queue (queue.take 2) []
    ⟨"c", [1, 2, 5], [], none, [], none, false⟩ (by decide) rfl).mpr ⟨⟨rfl, by decide⟩, _,
    List.mem_cons_self, ⟨rfl, by decide⟩, ha, by decide⟩, ha⟩

end SchedulePolicy

end Peek
