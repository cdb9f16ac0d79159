/-
Peek's stock sort orders the queue exactly as SGLang's own policy does.

SGLang keeps the prompts of a batch in an auxiliary radix tree and calls a request
redundant when the tree holds enough of its prefix; Peek keeps a set of prefixes of
exactly that length.  `Claims` is the correspondence: a prefix of threshold length is
held by the tree just when it is in the set.  Prompts shorter than the threshold go into
the tree and not into the set, but they hold no prefix that long.

Both sorts are stable, and their comparisons agree; that one sorts positions and the other
requests makes no difference.
-/
import Peek.Online.LpmIntegration
import Peek.Sglang.CacheLookup

namespace Peek

open Radix RadixCache SchedulePolicy

/-! ### Prefixes -/

namespace RadixKey

/-- Under one namespace, prefixes of symbols are prefixes of tokens. -/
theorem symbols_one_prefix_iff (e : Option ExtraKey) (p ts : List Token) :
    (RadixKey.mk p e).symbols 1 <+: (RadixKey.mk ts e).symbols 1 ↔ p <+: ts := by
  rw [symbols_one, symbols_one]
  exact List.prefix_map_iff_of_injective fun _ _ h => by simpa using h

end RadixKey

/-- A prefix of known length is a cut. -/
theorem prefix_iff_take_eq {α : Type} {p ts : List α} {d : Nat} (hp : p.length = d) :
    p <+: ts ↔ d ≤ ts.length ∧ p = ts.take d := by
  constructor
  · intro h
    exact ⟨hp ▸ h.length_le, hp ▸ List.prefix_iff_eq_take.mp h⟩
  · intro h
    rw [h.2]
    exact List.take_prefix _ _

/-! ### The auxiliary tree -/

/-- A tree of single tokens that is switched on, as `create_simulated` builds them. -/
structure Simulated (c : RadixCache) : Prop where
  sound : Sound c
  pageSize : c.pageSize = 1
  disable : c.disable = false

theorem createSimulated_simulated : Simulated createSimulated :=
  ⟨⟨_, _, _, new_wf Nat.one_pos false⟩, rfl, rfl⟩

namespace Simulated

variable {c : RadixCache}

theorem step {c' : RadixCache} (h : Simulated c) (hs : Step c c') : Simulated c' := by
  obtain ⟨h1, -, h2, h3⟩ := h.sound.step hs
  exact ⟨h1, h2.trans h.pageSize, h3.trans h.disable⟩

theorem holdsKey_matchPrefix (h : Simulated c) (key key' : RadixKey) :
    (c.matchPrefix key).2.HoldsKey key' ↔ c.HoldsKey key' := by
  unfold HoldsKey
  rw [(h.step (Step.matchPrefix c key)).pageSize, h.pageSize]
  exact h.sound.holds_matchPrefix key

/-- Inserting a prompt makes its prefixes held. -/
theorem holdsKey_insert (h : Simulated c) (params : InsertParams) (p : List Token) :
    (c.insert params).2.HoldsKey ⟨p, params.key.extraKey⟩ ↔
      c.HoldsKey ⟨p, params.key.extraKey⟩ ∨ p <+: params.key.tokenIds := by
  unfold HoldsKey
  rw [(h.step (Step.insert c params)).pageSize, h.pageSize, h.sound.holds_insert, h.pageSize,
    h.disable, ← RadixKey.symbols_one_prefix_iff params.key.extraKey]
  simp

/-- A match is at least `d` long when the first `d` tokens are held. -/
theorem le_length_matchPrefix_iff (h : Simulated c) (ts : List Token) (e : Option ExtraKey)
    (d : Nat) : d ≤ (c.matchPrefix ⟨ts, e⟩).1.deviceIndices.length ↔
      d ≤ ts.length ∧ c.HoldsKey ⟨ts.take d, e⟩ := by
  have hS : c.matchSymbols ⟨ts, e⟩ = (RadixKey.mk ts e).symbols 1 := by
    unfold matchSymbols pageAlign
    simp [h.disable, h.pageSize]
  obtain ⟨k, hk, hlen, hheld⟩ := h.sound.length_matchPrefix ⟨ts, e⟩
  rw [hS] at hk hheld
  rw [hlen, h.pageSize, Nat.one_mul]
  have hcut : (RadixKey.mk (ts.take d) e).symbols 1 = ((RadixKey.mk ts e).symbols 1).take d := by
    have := RadixKey.symbols_take Nat.one_pos (RadixKey.mk ts e) d
    rwa [Nat.one_mul] at this
  unfold HoldsKey
  rw [h.pageSize, hcut]
  rw [RadixKey.length_symbols_one] at hk hheld
  constructor
  · intro hd
    have hdl : d ≤ ts.length := Nat.le_trans hd hk
    exact ⟨hdl, (hheld d hdl).mpr hd⟩
  · intro hd
    exact (hheld d hd.1).mp hd.2

end Simulated

/-! ### Claims -/

/--
The auxiliary tree and the set of claimed prefixes say the same about prefixes of
threshold length, and both sides have deprioritized the same requests.
-/
structure Claims (d : Nat) (s : PrefixMatches) (t : SortPass) : Prop where
  tree : Simulated s.waitingQueueRadixTree
  seen : ∀ p : List Token, p.length = d →
    (s.waitingQueueRadixTree.HoldsKey ⟨p, none⟩ ↔ p ∈ t.seenPrefixes)
  deprioritized : t.deprioritized = s.temporaryDeprioritized

theorem claims_init {d : Nat} (hd : 1 ≤ d) (treeCache : RadixCache) :
    Claims d ⟨treeCache, createSimulated, ∅⟩ ⟨∅, ∅, ∅⟩ where
  tree := createSimulated_simulated
  seen p hp := by
    have hne : p ≠ [] := List.ne_nil_of_length_pos (by omega)
    have hnot : ¬ createSimulated.HoldsKey ⟨p, none⟩ :=
      (holdsKey_new_iff Nat.one_pos false).not.mpr hne
    exact iff_of_false hnot (Finset.notMem_empty p)
  deprioritized := rfl

/-- The in-batch match finds enough just when the prefix of threshold length is claimed. -/
theorem Claims.le_length_iff {d : Nat} {s : PrefixMatches} {t : SortPass} (h : Claims d s t)
    (ts : List Token) :
    d ≤ (s.waitingQueueRadixTree.matchPrefix ⟨ts, none⟩).1.deviceIndices.length ↔
      d ≤ ts.length ∧ ts.take d ∈ t.seenPrefixes := by
  rw [h.tree.le_length_matchPrefix_iff]
  constructor
  · intro hd
    exact ⟨hd.1, (h.seen _ (by rw [List.length_take]; omega)).mp hd.2⟩
  · intro hd
    exact ⟨hd.1, (h.seen _ (by rw [List.length_take]; omega)).mpr hd.2⟩

/-- Inserting a prompt claims its prefix of threshold length, if it has one. -/
theorem Claims.insert_seen {d : Nat} {s : PrefixMatches} {t : SortPass} (h : Claims d s t)
    {key : RadixKey} (he : key.extraKey = none) (p : List Token) (hp : p.length = d) :
    ((s.waitingQueueRadixTree.matchPrefix key).2.insert (dummyParams key)).2.HoldsKey ⟨p, none⟩ ↔
      p ∈ t.seenPrefixes ∨ d ≤ key.tokenIds.length ∧ p = key.tokenIds.take d := by
  have hm := h.tree.step (Step.matchPrefix _ key)
  have hins := hm.holdsKey_insert (dummyParams key) p
  have hkey : (dummyParams key).key.extraKey = none := he
  rw [hkey] at hins
  rw [hins, h.tree.holdsKey_matchPrefix, h.seen p hp]
  exact or_congr_right (prefix_iff_take_eq hp)

/-! ### One turn -/

variable {o : SortOptions} {ridToInt : Map ReqId Rid}

/-- **A cold request claims in the tree what it claims in the set.** -/
theorem Claims.inBatch {d : Nat} {s : PrefixMatches} {t : SortPass} (h : Claims d s t) (r : Req)
    (he : r.extraKey = none) :
    Claims d (inBatchTurn d s r)
      (if r.tokens.length < d then t
        else if r.tokens.take d ∈ t.seenPrefixes then
          { t with deprioritized := insert r.rid t.deprioritized }
        else { t with seenPrefixes := insert (r.tokens.take d) t.seenPrefixes }) := by
  have hkey : r.key = ⟨r.tokens, none⟩ := congrArg (RadixKey.mk r.tokens) he
  have hmatch := h.tree.step (Step.matchPrefix _ r.key)
  have hle := h.le_length_iff r.tokens
  rw [← hkey] at hle
  have hseen := @Claims.insert_seen d s t h r.key he
  unfold inBatchTurn
  by_cases hlen : r.tokens.length < d
  · -- too short to be matched that far: the tree takes the prompt in, the set does not
    rw [if_pos hlen]
    simp only
    rw [if_neg (by omega)]
    refine ⟨hmatch.step (Step.insert _ _), fun p hp => ?_, h.deprioritized⟩
    rw [hseen p hp]
    refine ⟨fun hp' => hp'.elim id fun hcut => ?_, Or.inl⟩
    exact absurd hcut.1 (Nat.not_le_of_lt hlen)
  · rw [if_neg hlen]
    by_cases hclaimed : r.tokens.take d ∈ t.seenPrefixes
    · rw [if_pos hclaimed]
      simp only
      rw [if_pos (by have := hle.mpr ⟨Nat.le_of_not_lt hlen, hclaimed⟩; omega)]
      refine ⟨hmatch, fun p hp => ?_, ?_⟩
      · rw [h.tree.holdsKey_matchPrefix]
        exact h.seen p hp
      · show insert r.rid t.deprioritized = insert r.rid s.temporaryDeprioritized
        rw [h.deprioritized]
    · rw [if_neg hclaimed]
      simp only
      have hshort : ¬ d ≤ (s.waitingQueueRadixTree.matchPrefix r.key).1.deviceIndices.length :=
        fun hc => hclaimed (hle.mp hc).2
      rw [if_neg (by omega)]
      refine ⟨hmatch.step (Step.insert _ _), fun p hp => ?_, h.deprioritized⟩
      rw [hseen p hp, Finset.mem_insert]
      constructor
      · intro hp'
        exact hp'.elim Or.inr fun hcut => Or.inl hcut.2
      · intro hp'
        exact hp'.elim (fun hcut => Or.inr ⟨Nat.le_of_not_lt hlen, hcut⟩) Or.inl

/-- What a turn of the first pass does on the stock path, with thresholds in range. -/
theorem sortPassTurn_lpm (hlpm : o.peekLpmSort = true) (hcheck : 0 ≤ o.checkThreshold) {d : Nat}
    (hdepr : o.deprioritizeThreshold = d) (allInfo : Map Rid (Option (NodeId × Nat × Nat)))
    (t : SortPass) (r : Req) : sortPassTurn ridToInt allInfo o t r =
      if mainHit ridToInt o.mainHits r ≤ o.checkThreshold then
        if r.tokens.length < d then t
        else if r.tokens.take d ∈ t.seenPrefixes then
          { t with deprioritized := insert r.rid t.deprioritized }
        else { t with seenPrefixes := insert (r.tokens.take d) t.seenPrefixes }
      else t := by
  unfold sortPassTurn claimPrefix
  rw [if_pos hlpm, hdepr, if_neg (by omega)]
  by_cases hcold : mainHit ridToInt o.mainHits r ≤ o.checkThreshold
  · rw [if_pos hcold, if_neg (by omega)]
    by_cases hlen : r.tokens.length < d
    · rw [if_pos hlen, if_pos (by omega)]
    · rw [if_neg hlen, if_neg (by omega)]
      rfl
  · rw [if_neg hcold, if_pos (by omega)]

/-- **A turn of the policy's loop and a turn of Peek's first pass keep step.** -/
theorem Claims.turn (hlpm : o.peekLpmSort = true) (hcheck : 0 ≤ o.checkThreshold) {d : Nat}
    (hdepr : o.deprioritizeThreshold = d) (allInfo : Map Rid (Option (NodeId × Nat × Nat)))
    (s : PrefixMatches) (t : SortPass) (r : Req) (h : Claims d s t)
    (hr : r.extraKey = none ∧ r.peekMatched = false)
    (hmh : mainHit ridToInt o.mainHits (prefixMatchTurn o.checkThreshold d s r).2 =
      (prefixMatchTurn o.checkThreshold d s r).2.prefixIndices.length) :
    Claims d (prefixMatchTurn o.checkThreshold d s r).1
      (sortPassTurn ridToInt allInfo o t (prefixMatchTurn o.checkThreshold d s r).2) := by
  rw [sortPassTurn_lpm hlpm hcheck hdepr, hmh]
  unfold prefixMatchTurn
  rw [if_neg (by rw [hr.2]; simp)]
  simp only
  set r' := r.setMatch (s.treeCache.matchPrefix r.key).1 with hr'
  have h' : Claims d { s with treeCache := (s.treeCache.matchPrefix r.key).2 } t :=
    ⟨h.tree, h.seen, h.deprioritized⟩
  by_cases hcold : (r'.prefixIndices.length : Int) ≤ o.checkThreshold
  · rw [if_pos hcold, if_pos hcold]
    exact h'.inBatch r' hr.1
  · rw [if_neg hcold, if_neg hcold]
    exact h'

/-! ### The two sorts -/

/-- The two comparisons agree on every pair of requests. -/
theorem lpmCompare_ne_gt_iff {mh : Req → Int} {depr : Finset ReqId} {a b : Req}
    (ha : mh a = a.prefixIndices.length) (hb : mh b = b.prefixIndices.length) :
    PendingTree.lpmCompare (mh a, decide (a.rid ∈ depr)) (mh b, decide (b.rid ∈ depr)) ≠ .gt ↔
      longestPrefixKey depr a ≤ longestPrefixKey depr b := by
  unfold PendingTree.lpmCompare longestPrefixKey
  by_cases hda : a.rid ∈ depr <;> by_cases hdb : b.rid ∈ depr
  · simp [hda, hdb]
  · simp [hda, hdb]
  · simp [hda, hdb]
  · simp only [hda, hdb, decide_false, if_false, ha, hb, WithTop.coe_le_coe]
    rw [compare_le_iff_le]
    omega

/-- **Sorting positions and picking them out is sorting the requests.** -/
theorem lpmSort_eq_insertionSort {mh : Req → Int} {depr : Finset ReqId} {queue : List Req}
    {le : Req → Req → Prop} [DecidableRel le]
    (hle : ∀ a ∈ queue, ∀ b ∈ queue, PendingTree.lpmCompare (mh a, decide (a.rid ∈ depr))
      (mh b, decide (b.rid ∈ depr)) ≠ .gt ↔ le a b) :
    lpmSort mh depr queue = queue.insertionSort le := by
  have hget : ∀ i ∈ List.range queue.length, queue.getD i default ∈ queue := by
    intro i hi
    rw [List.mem_range] at hi
    rw [getD_of_lt _ _ hi]
    exact List.getElem_mem hi
  unfold lpmSort PendingTree.lpmSortOrder
  simp only [List.length_map]
  rw [List.map_insertionSort _ le, map_getD_range]
  intro i hi j hj
  have hkey : ∀ k ∈ List.range queue.length,
      (queue.map fun r => (mh r, decide (r.rid ∈ depr))).getD k (0, false) =
        (mh (queue.getD k default), decide ((queue.getD k default).rid ∈ depr)) := by
    intro k hk
    exact getD_map_of_lt _ queue default _ (List.mem_range.mp hk)
  rw [hkey i hi, hkey j hj]
  exact hle _ (hget i hi) _ (hget j hj)

theorem lpmSort_eq {mh : Req → Int} {depr : Finset ReqId} {queue : List Req}
    (hmh : ∀ r ∈ queue, mh r = r.prefixIndices.length) :
    lpmSort mh depr queue = sortByLongestPrefix queue depr :=
  lpmSort_eq_insertionSort fun a ha b hb => lpmCompare_ne_gt_iff (hmh a ha) (hmh b hb)

/-! ### Parity -/

/--
**Peek's stock sort and SGLang's own policy agree**: on the queue as matching left it,
they deprioritize the same requests and order the queue the same way.  The cache the
queue was matched against may be any.
-/
theorem peekSortInplace_eq_sortByLongestPrefix (treeCache : RadixCache) (waitingQueue : List Req)
    (ridToInt : Map ReqId Rid) (tree : PendingTree) (o : SortOptions) (hlpm : o.peekLpmSort = true)
    (hcheck : 0 ≤ o.checkThreshold) (hdepr : 1 ≤ o.deprioritizeThreshold)
    (hreq : ∀ r ∈ waitingQueue, r.extraKey = none ∧ r.peekMatched = false)
    (hmh : ∀ r ∈ (computePrefixMatches o.checkThreshold o.deprioritizeThreshold treeCache
      waitingQueue).2, mainHit ridToInt o.mainHits r = r.prefixIndices.length) :
    let m := computePrefixMatches o.checkThreshold o.deprioritizeThreshold treeCache waitingQueue
    peekSortInplace m.2 ridToInt tree o =
      (sortByLongestPrefix m.2 m.1.temporaryDeprioritized, m.1.temporaryDeprioritized) := by
  obtain ⟨d, hd⟩ := Int.eq_ofNat_of_zero_le (show 0 ≤ o.deprioritizeThreshold by omega)
  rw [hd] at hmh ⊢
  have hclaims : Claims d (computePrefixMatches o.checkThreshold d treeCache waitingQueue).1
      ((computePrefixMatches o.checkThreshold d treeCache waitingQueue).2.foldl
        (sortPassTurn ridToInt ∅ o) ⟨∅, ∅, ∅⟩) :=
    forEach_sim (Claims.turn hlpm hcheck hd ∅) waitingQueue _ _ (claims_init (by omega) treeCache)
      hreq hmh
  intro m
  unfold peekSortInplace
  simp only [hlpm, if_true]
  rw [lpmSort_eq hmh, hclaims.deprioritized]

/-- Three cold requests, the second of which repeats two tokens of the first. -/
def forkQueue : List Req :=
  [⟨"a", [1, 2, 3], [], none, [], none, false⟩, ⟨"b", [1, 2, 4], [], none, [], none, false⟩,
    ⟨"c", [5], [], none, [], none, false⟩]

theorem peekSortInplace_eq_sortByLongestPrefix_fork :
    let o : SortOptions :=
      { checkThreshold := 0, deprioritizeThreshold := 2, peekLpmSort := true }
    let m := computePrefixMatches 0 2 createSimulated forkQueue
    peekSortInplace m.2 ∅ PendingTree.new o =
      (sortByLongestPrefix m.2 m.1.temporaryDeprioritized, m.1.temporaryDeprioritized) ∧
    m.1.temporaryDeprioritized = {"b"} :=
  ⟨peekSortInplace_eq_sortByLongestPrefix createSimulated forkQueue ∅ PendingTree.new _ rfl
    (by decide) (by decide) (by decide) fun _ _ => rfl, by decide⟩

end Peek
