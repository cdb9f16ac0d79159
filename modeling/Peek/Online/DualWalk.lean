/-
The dual walk of the SGLang hook (`python/peek/online/engines/sglang/patch_hook.py`).

The hook gives `compute_main_hits` a callback, `_cache_match`, which walks SGLang's radix
cache down the tokens it is passed.  It looks every child up by a bare token, and that is
the key of a child only where a page is one token and the prompt has no `extra_key`.

So what the callback finds is the longest prefix cached in that way
(`Sound.cacheMatch_eq_matchLen`), for any page size and any namespace of the request it is
asked about.  `mainHit_eq_iff` says for which requests this is what `match_prefix` returns.
-/
import Peek.Online.LpmIntegration
import Peek.Online.SglangSync
import Peek.Pending.MainHits
import Peek.Sglang.CacheLookup

namespace Peek

open Radix

namespace RadixCache

/-- The loop of `_cache_match`. -/
def cacheMatchLoop (c : RadixCache) (tokens : List Token) : Nat → NodeId → Nat → Nat
  | 0, _, consumed => consumed
  | fuel + 1, cur, consumed =>
      if consumed < tokens.length then
        let first := tokens.getD consumed 0
        match (c.node cur).children.lookup ⟨none, .token first⟩ with
        | none => consumed
        | some child =>
            let edge := (c.node child).key.tokenIds
            let rem := tokens.drop consumed
            let common := ((edge.zip rem).takeWhile fun p => p.1 = p.2).length
            if common < edge.length then consumed + common
            else cacheMatchLoop c tokens fuel child (consumed + common)
      else consumed

/-- `_cache_match`: how many of the tokens the cache has, as the callback sees it. -/
def cacheMatch (c : RadixCache) (tokens : List Token) : Nat :=
  c.cacheMatchLoop tokens tokens.length rootNode 0

end RadixCache

/-- `rid_to_int` -/
def internQueue (interner : Interner) (waitingQueue : List Req) : Map ReqId Rid × Interner :=
  waitingQueue.foldl (fun p r =>
    let (ridInt, interner) := p.2.intern r.rid
    (p.1.insert r.rid ridInt, interner)) (∅, interner)

/-- `peek_tree.compute_main_hits(_cache_match, 1)` -/
def dualwalkHits (order : Map Token NodeId → List NodeId) (peekTree : PendingTree)
    (treeCache : RadixCache) : Map Rid Int :=
  (peekTree.computeMainHits order treeCache.cacheMatch 1).mapValues fun hit : Nat => (hit : Int)

/-! ### The callback's walk -/

/-- The child key the callback looks a token up by. -/
def plainToken (t : Token) : ChildKey := ⟨none, .token t⟩

namespace RadixCache

variable {c : RadixCache} {live : Set NodeId} {rp : NodeId → List ChildKey}
  {pv : NodeId → List Index}

/-- A child found under a bare token: pages are single tokens, and it has no namespace. -/
theorem WF.kid_plainToken (h : WF c live rp pv) {n child : NodeId} {t : Token} (hn : n ∈ live)
    (hkid : c.heap.kid n (plainToken t) = some child) :
    c.pageSize = 1 ∧ (c.node child).key.extraKey = none := by
  refine ⟨?_, h.extraKey_kid hn hkid⟩
  have hkey := h.childKey_kid hn hkid
  by_contra hps
  unfold getChildKey plainToken at hkey
  rw [if_neg hps] at hkey
  simp at hkey

/-- One turn: how far the edge of a child agrees with the tokens that are left. -/
theorem WF.common_kid (h : WF c live rp pv) {n child : NodeId} {t : Token} (hn : n ∈ live)
    (hkid : c.heap.kid n (plainToken t) = some child) (rest : List Token) :
    (((c.node child).key.tokenIds.zip rest).takeWhile fun p => p.1 = p.2).length =
        lcpLen (c.heap.edge child) (rest.map plainToken) ∧
      (c.heap.edge child).length = (c.node child).key.tokenIds.length := by
  obtain ⟨hps, hnone⟩ := h.kid_plainToken hn hkid
  rw [heap_edge, hps]
  refine ⟨?_, RadixKey.length_symbols_one _⟩
  have hcommon := keyMatch_eq Nat.one_pos
    (show (c.node child).key.extraKey = (RadixKey.mk rest none).extraKey from hnone)
  have hrest : (RadixKey.mk rest none).symbols 1 = rest.map plainToken := RadixKey.symbols_one _
  rw [Nat.one_mul, hrest] at hcommon
  exact hcommon

/-- The callback's loop stops where a walk along the bare tokens stops. -/
theorem cacheMatchLoop_stopped (h : WF c live rp pv) (tokens : List Token) :
    ∀ (fuel : Nat) (n : NodeId) (k : Nat), n ∈ live → k ≤ tokens.length →
      rp n = (tokens.map plainToken).take k → tokens.length ≤ k + fuel →
      ∃ e o, Stopped c.heap live rp (tokens.map plainToken) e o
        (c.cacheMatchLoop tokens fuel n k) := by
  have hS : (tokens.map plainToken).length = tokens.length := List.length_map _
  intro fuel
  induction fuel with
  | zero =>
      intro n k hn hk hp hlen
      show ∃ e o, Stopped c.heap live rp (tokens.map plainToken) e o k
      refine ⟨_, _, Stopped.atNode hn (by rw [hS]; exact hk) hp fun a ha => ?_⟩
      rw [List.getElem?_eq_none (by omega)] at ha
      simp at ha
  | succ fuel ih =>
      intro n k hn hk hp hlen
      unfold cacheMatchLoop
      by_cases hlt : k < tokens.length
      · rw [if_pos hlt]
        simp only
        have ha : (tokens.map plainToken)[k]? = some (plainToken (tokens.getD k 0)) := by
          simp [hlt]
        cases hkid : (c.node n).children.lookup ⟨none, .token (tokens.getD k 0)⟩ with
        | none =>
            refine ⟨_, _, Stopped.atNode hn (by rw [hS]; exact hk) hp fun a ha' => ?_⟩
            rw [ha, Option.some.injEq] at ha'
            rw [← ha']
            exact hkid
        | some child =>
            have hkid : c.heap.kid n (plainToken (tokens.getD k 0)) = some child := hkid
            obtain ⟨hcommon, hedge⟩ := h.common_kid hn hkid (tokens.drop k)
            rw [List.map_drop] at hcommon
            simp only
            rw [hcommon, ← hedge]
            have hpos := h.labelled.walk_pos hn ha hkid
            have hle := lcpLen_le_right (c.heap.edge child) ((tokens.map plainToken).drop k)
            rw [List.length_drop, hS] at hle
            by_cases hcut : lcpLen (c.heap.edge child) ((tokens.map plainToken).drop k) <
                (c.heap.edge child).length
            · rw [if_pos hcut]
              exact ⟨_, _, Stopped.onEdge hn hp ha hkid hcut⟩
            · rw [if_neg hcut]
              have hfull := Nat.le_antisymm (lcpLen_le_left _ _) (Nat.le_of_not_lt hcut)
              refine ih child _ (h.labelled.kidLive hn hkid) (by omega) ?_ (by omega)
              rw [h.labelled.walk_full hn hp hkid hfull, hfull]
      · rw [if_neg hlt]
        refine ⟨_, _, Stopped.atNode hn (by rw [hS]; exact hk) hp fun a ha => ?_⟩
        rw [List.getElem?_eq_none (by rw [hS]; exact Nat.le_of_not_lt hlt)] at ha
        simp at ha

open Classical in
/-- The prefixes cached token by token and under no namespace. -/
noncomputable def plainPrefixes (c : RadixCache) : PrefixCache Token where
  holds q := decide (c.Holds (q.map plainToken))
  nil := by simpa using c.holds_nil
  closed p q hpq hq := by
    rw [decide_eq_true_iff] at hq ⊢
    exact hq.mono (hpq.map plainToken)

theorem holds_plainPrefixes {q : List Token} :
    c.plainPrefixes.holds q = true ↔ c.Holds (q.map plainToken) := by
  classical
  unfold plainPrefixes
  rw [decide_eq_true_iff]

/-- How far the callback gets. -/
theorem Sound.holds_take_cacheMatch (h : Sound c) (tokens : List Token) :
    c.cacheMatch tokens ≤ tokens.length ∧ ∀ j ≤ tokens.length,
      c.Holds ((tokens.map plainToken).take j) ↔ j ≤ c.cacheMatch tokens := by
  obtain ⟨live, rp, pv, h⟩ := h
  have hS : (tokens.map plainToken).length = tokens.length := List.length_map _
  obtain ⟨e, o, hstop⟩ := cacheMatchLoop_stopped h tokens tokens.length rootNode 0
    h.labelled.rootLive (Nat.zero_le _) h.labelled.rootPath (by omega)
  refine ⟨hS ▸ (h.labelled.stopped_path hstop).2.1, fun j hj => ?_⟩
  rw [h.holds_iff]
  exact h.labelled.held_take_iff hstop (by rw [hS]; exact hj)

/-- **The callback returns a match length**, of the cache as it sees it. -/
theorem Sound.cacheMatch_eq_matchLen (h : Sound c) (tokens : List Token) :
    c.cacheMatch tokens = c.plainPrefixes.matchLen tokens := by
  obtain ⟨hle, hheld⟩ := h.holds_take_cacheMatch tokens
  have hiff : ∀ j ≤ tokens.length, j ≤ c.cacheMatch tokens ↔ j ≤ c.plainPrefixes.matchLen tokens := by
    intro j hj
    rw [← hheld j hj, ← c.plainPrefixes.holds_take_iff hj, holds_plainPrefixes, List.map_take]
  refine Nat.le_antisymm ((hiff _ hle).mp (Nat.le_refl _)) ?_
  exact (hiff _ (c.plainPrefixes.matchLen_le tokens)).mpr (Nat.le_refl _)

end RadixCache

/-! ### Every queued request -/

/-- Once every queued rid has an id, `rid_to_int` gives it that id. -/
theorem lookup_internQueue {interner : Interner} {waitingQueue : List Req}
    (h : ∀ r ∈ waitingQueue, ∃ i, interner.ridInterner.lookup r.rid = some i) :
    ∀ r ∈ waitingQueue,
      (internQueue interner waitingQueue).1.lookup r.rid = interner.ridInterner.lookup r.rid := by
  suffices key : ∀ (queue : List Req) (m : Map ReqId Rid),
      (∀ r ∈ queue, ∃ i, interner.ridInterner.lookup r.rid = some i) → ∀ rid,
      (queue.foldl (fun p r => (p.1.insert r.rid (p.2.intern r.rid).1, (p.2.intern r.rid).2))
        (m, interner)).1.lookup rid =
        if rid ∈ queue.map (·.rid) then interner.ridInterner.lookup rid else m.lookup rid by
    intro r hr
    unfold internQueue
    rw [key waitingQueue ∅ h, if_pos (List.mem_map_of_mem hr)]
  intro queue
  induction queue with
  | nil => intro m _ rid; rfl
  | cons r queue ih =>
      intro m h rid
      obtain ⟨i, hi⟩ := h r List.mem_cons_self
      rw [List.foldl_cons, Interner.intern_of_some hi,
        ih _ (fun r' hr' => h r' (List.mem_cons_of_mem _ hr')), List.map_cons]
      by_cases hmem : rid ∈ queue.map (·.rid)
      · rw [if_pos hmem, if_pos (List.mem_cons_of_mem _ hmem)]
      · rw [if_neg hmem, Map.lookup_insert_of]
        by_cases hrid : rid = r.rid
        · rw [if_pos hrid, if_pos (by rw [hrid]; exact List.mem_cons_self), hrid, hi]
        · rw [if_neg hrid, if_neg]
          rw [List.mem_cons, not_or]
          exact ⟨hrid, hmem⟩

variable {order : Map Token NodeId → List NodeId}

/-- What the walk writes for a pending request: how far the callback gets on its tokens. -/
theorem lookup_dualwalkHits (horder : ∀ children, (order children).Perm (Map.values children))
    {c : RadixCache} (hc : c.Sound) {peekTree : PendingTree} (htree : peekTree.Sound) {i : Rid}
    {tokens : List Token} (hi : peekTree.paths.lookup i = some tokens) :
    (dualwalkHits order peekTree c).lookup i = some (c.cacheMatch tokens : Int) := by
  have hcallback : c.cacheMatch = c.plainPrefixes.matchLen := funext hc.cacheMatch_eq_matchLen
  obtain ⟨D, hD, hres⟩ := (htree.lookup_computeMainHits horder c.plainPrefixes 1 i).1 tokens hi
  have hDlen := htree.sharedDepth_eq_length (Nat.le_refl 1) hi hD
  unfold dualwalkHits
  rw [Map.lookup_mapValues, hcallback, hres, hDlen,
    Nat.min_eq_left (c.plainPrefixes.matchLen_le tokens)]
  rfl

/-- In sync, a request's main hit is how far the callback gets on its tokens. -/
theorem mainHit_dualwalkHits (horder : ∀ children, (order children).Perm (Map.values children))
    {c : RadixCache} (hc : c.Sound) {s : Session} {T : ReqId → Option (List Token)}
    (hT : Tracks s T) {waitingQueue : List Req}
    (hsync : ∀ r ∈ waitingQueue, T r.rid = some r.tokens) {r : Req} (hr : r ∈ waitingQueue) :
    mainHit (internQueue s.interner waitingQueue).1 (some (dualwalkHits order s.peekTree c)) r =
      (c.cacheMatch r.tokens : Int) := by
  have hid : ∀ r ∈ waitingQueue, ∃ i, s.interner.ridInterner.lookup r.rid = some i := fun r hr =>
    hT.interned r.rid (by rw [hsync r hr]; simp)
  obtain ⟨i, hi⟩ := hid r hr
  have hpath := (hT.paths i r.tokens).mpr ⟨r.rid, hi, hsync r hr⟩
  unfold mainHit
  rw [lookup_internQueue hid r hr, hi]
  simp only
  rw [lookup_dualwalkHits horder hc hT.tree hpath]
  rfl

/-! ### When the walk agrees with `match_prefix` -/

namespace RadixCache

variable {c : RadixCache}

/-- A cache that is switched off stays as it was built. -/
theorem Reachable.eq_new {pageSize : Nat} (h : Reachable pageSize true c) :
    c = new pageSize true := by
  induction h with
  | refl => rfl
  | @tail b d _ hstep ih =>
      subst ih
      cases hstep <;> rfl

/-- What is held under no namespace is what is held under the request's own, cut by cut; or
else pages are larger than a token and nothing is held under the request's own. -/
def PlainlyCached (c : RadixCache) (r : Req) : Prop :=
  if c.pageSize = 1 then
    ∀ j ≤ r.tokens.length,
      c.HoldsKey ⟨r.tokens.take j, none⟩ ↔ c.HoldsKey ⟨r.tokens.take j, r.extraKey⟩
  else r.tokens.length < c.pageSize ∨ ¬ c.HoldsKey ⟨r.tokens.take c.pageSize, r.extraKey⟩

/-- Two lengths up to which, and no further, something holds. -/
theorem eq_iff_of_le_iff {n k k' : Nat} {P P' : Nat → Prop} (hk : k ≤ n) (hk' : k' ≤ n)
    (h : ∀ j ≤ n, P j ↔ j ≤ k) (h' : ∀ j ≤ n, P' j ↔ j ≤ k') :
    k = k' ↔ ∀ j ≤ n, P j ↔ P' j := by
  constructor
  · rintro rfl j hj
    rw [h j hj, h' j hj]
  · intro hiff
    refine Nat.le_antisymm ?_ ?_
    · exact (h' k hk).mp ((hiff k hk).mp ((h k hk).mpr (Nat.le_refl k)))
    · exact (h k' hk').mp ((hiff k' hk').mpr ((h' k' hk').mpr (Nat.le_refl k')))

/-- Bare tokens are the symbols of a key without a namespace. -/
theorem symbols_plain (tokens : List Token) :
    (RadixKey.mk tokens none).symbols 1 = tokens.map plainToken := by
  rw [RadixKey.symbols_one]
  rfl

/-- With pages of one token, `match_prefix` and the callback ask for the same cuts. -/
theorem Sound.cacheMatch_eq_length_iff_of_one (h : Sound c) (hps : c.pageSize = 1)
    (hon : c.disable = false) (r : Req) :
    c.cacheMatch r.tokens = (c.matchPrefix r.key).1.deviceIndices.length ↔ c.PlainlyCached r := by
  obtain ⟨hle, hheld⟩ := h.holds_take_cacheMatch r.tokens
  obtain ⟨k, hk, hlen, hheld'⟩ := h.length_matchPrefix r.key
  have hS : c.matchSymbols r.key = r.key.symbols 1 := by
    unfold matchSymbols pageAlign
    simp [hon, hps]
  have hcut : ∀ (e : Option ExtraKey) (j : Nat),
      (RadixKey.mk (r.tokens.take j) e).symbols 1 = ((RadixKey.mk r.tokens e).symbols 1).take j := by
    intro e j
    have := RadixKey.symbols_take Nat.one_pos (RadixKey.mk r.tokens e) j
    rwa [Nat.one_mul] at this
  rw [hS, RadixKey.length_symbols_one] at hk hheld'
  rw [hlen, hps, Nat.one_mul, eq_iff_of_le_iff hle hk hheld hheld']
  unfold PlainlyCached HoldsKey
  rw [if_pos hps, hps]
  refine forall_congr' fun j => imp_congr_right fun _ => ?_
  rw [hcut, hcut, symbols_plain]
  rfl

/-- With larger pages the callback finds nothing. -/
theorem Sound.cacheMatch_of_ne_one (h : Sound c) (hps : c.pageSize ≠ 1) (tokens : List Token) :
    c.cacheMatch tokens = 0 := by
  obtain ⟨hle, hheld⟩ := h.holds_take_cacheMatch tokens
  obtain ⟨live, rp, pv, h⟩ := h
  by_contra hpos
  obtain ⟨n, hn, hpre⟩ := h.holds_iff.mp ((hheld 1 (by omega)).mpr (by omega))
  cases tokens with
  | nil => simp at hle; omega
  | cons t ts =>
      have hpre : rp rootNode ++ plainToken t :: [] <+: rp n := by
        rw [show rp rootNode = [] from h.labelled.rootPath]
        exact hpre
      obtain ⟨child, hkid, -⟩ := h.labelled.kid_of_prefix h.labelled.rootLive hn hpre
      exact hps (h.kid_plainToken h.labelled.rootLive hkid).1

/-- With larger pages the two agree when `match_prefix` finds nothing either. -/
theorem Sound.cacheMatch_eq_length_iff_of_ne_one (h : Sound c) (hps : c.pageSize ≠ 1)
    (hon : c.disable = false) (r : Req) :
    c.cacheMatch r.tokens = (c.matchPrefix r.key).1.deviceIndices.length ↔ c.PlainlyCached r := by
  obtain ⟨k, hk, hlen, hheld⟩ := h.length_matchPrefix r.key
  have hpos : 0 < c.pageSize := by
    obtain ⟨live, rp, pv, h⟩ := h
    exact h.pageSize_pos
  rw [h.cacheMatch_of_ne_one hps, hlen]
  unfold PlainlyCached HoldsKey
  rw [if_neg hps]
  have hS : c.matchSymbols r.key = (r.key.take (r.tokens.length / c.pageSize * c.pageSize)).symbols
      c.pageSize := by
    unfold matchSymbols pageAlign
    simp only [hon, Bool.false_eq_true, if_false, if_pos hps]
    rfl
  have hlenS : 0 < (c.matchSymbols r.key).length ↔ c.pageSize ≤ r.tokens.length := by
    rw [hS, RadixKey.lt_length_symbols_iff hpos]
    unfold RadixKey.length RadixKey.take
    rw [List.length_take, Nat.mul_zero, Nat.lt_min, Nat.mul_pos_iff_of_pos_right hpos,
      Nat.div_pos_iff]
    show (_ ∧ c.pageSize ≤ r.tokens.length) ∧ 0 < r.tokens.length ↔ _
    omega
  have hfirst : c.pageSize ≤ r.tokens.length →
      (c.matchSymbols r.key).take 1 = (RadixKey.mk (r.tokens.take c.pageSize) r.extraKey).symbols
        c.pageSize := by
    intro hle
    rw [hS, ← RadixKey.symbols_take hpos, Nat.mul_one]
    unfold RadixKey.take
    rw [List.take_take, Nat.min_eq_left]
    · rfl
    · exact Nat.le_mul_of_pos_left _ (Nat.div_pos hle hpos)
  have hzero : 0 = c.pageSize * k ↔ k = 0 := by
    rw [eq_comm, Nat.mul_eq_zero]
    exact or_iff_right (Nat.ne_of_gt hpos)
  rw [hzero]
  by_cases hle : c.pageSize ≤ r.tokens.length
  · rw [or_iff_right (Nat.not_lt_of_le hle), ← hfirst hle, hheld 1 (hlenS.mpr hle)]
    omega
  · have := mt hlenS.mp hle
    rw [or_iff_left_of_imp fun _ => Nat.lt_of_not_le hle]
    omega

/-- **What the callback finds is what `match_prefix` finds**, just when the cache holds the
request's prefixes as the callback looks for them. -/
theorem Reachable.cacheMatch_eq_length_iff {pageSize : Nat} {disable : Bool} (hps : 0 < pageSize)
    (hc : Reachable pageSize disable c) (r : Req) :
    c.cacheMatch r.tokens = (c.matchPrefix r.key).1.deviceIndices.length ↔ c.PlainlyCached r := by
  obtain ⟨h, hpage, hdis⟩ := hc.sound hps
  cases disable with
  | false =>
      by_cases h1 : c.pageSize = 1
      · exact h.cacheMatch_eq_length_iff_of_one h1 hdis r
      · exact h.cacheMatch_eq_length_iff_of_ne_one h1 hdis r
  | true =>
      -- switched off: nothing is held, and both find nothing
      have hlen : (c.matchPrefix r.key).1.deviceIndices.length = 0 := by
        unfold matchPrefix matchPrefixWith
        rw [if_pos (Or.inl hdis)]
        rfl
      have hnone : ∀ key : RadixKey, c.HoldsKey key ↔ key.tokenIds = [] := by
        rw [hc.eq_new]
        exact fun key => holdsKey_new_iff hps true
      obtain ⟨hle, hheld⟩ := h.holds_take_cacheMatch r.tokens
      have hzero : c.cacheMatch r.tokens = 0 := by
        by_contra hpos
        have hheld1 := (hheld 1 (by omega)).mpr (by omega)
        rw [hc.eq_new, holds_new_iff hps true, List.take_eq_nil_iff, List.map_eq_nil_iff] at hheld1
        rw [hheld1.resolve_left Nat.one_ne_zero] at hle hpos
        exact hpos (Nat.le_zero.mp hle)
      rw [hlen, hzero]
      refine iff_of_true rfl ?_
      unfold PlainlyCached
      by_cases h1 : c.pageSize = 1
      · rw [if_pos h1]
        intro j _
        rw [hnone, hnone]
      · rw [if_neg h1, hnone, List.take_eq_nil_iff]
        rcases Nat.lt_or_ge r.tokens.length c.pageSize with hlt | hge
        · exact Or.inl hlt
        · refine Or.inr fun hnil => ?_
          rcases hnil with hps0 | hnil
          · omega
          · rw [hnil] at hge
            simp at hge
            omega

end RadixCache

/--
**When the main hit is right.**  For every waiting queue with which the pending tree is in
sync and every cache, the dual walk gives a queued request the length of what
`match_prefix` returns for it, if and only if the cache holds the request's prefixes the
way the callback looks them up.
-/
theorem mainHit_eq_length_iff {pageSize : Nat} {disable : Bool} (hps : 0 < pageSize)
    {c : RadixCache} (hc : c.Reachable pageSize disable)
    (horder : ∀ children, (order children).Perm (Map.values children)) {s : Session}
    {T : ReqId → Option (List Token)} (hT : Tracks s T) {waitingQueue : List Req}
    (hsync : ∀ r ∈ waitingQueue, T r.rid = some r.tokens) :
    ∀ r ∈ waitingQueue,
      mainHit (internQueue s.interner waitingQueue).1 (some (dualwalkHits order s.peekTree c)) r =
        (c.matchPrefix r.key).1.deviceIndices.length ↔ c.PlainlyCached r := by
  intro r hr
  obtain ⟨hsound, -⟩ := hc.sound hps
  rw [mainHit_dualwalkHits horder hsound hT hsync hr, Int.natCast_inj]
  exact hc.cacheMatch_eq_length_iff hps r

/-- A request without a namespace gets its match length. -/
theorem mainHit_eq_length_iff_plain :
    let r : Req := ⟨"a", [1, 2], [4], none, [], none, false⟩
    let s := (SglangHook.run id [[r]]).session
    mainHit (internQueue s.interner [r]).1 (some (dualwalkHits Map.values s.peekTree plainCache)) r =
      (plainCache.matchPrefix r.key).1.deviceIndices.length := by
  intro r s
  have hreach : plainCache.Reachable 1 false :=
    Relation.ReflTransGen.single (RadixCache.Step.insert _ _)
  have hsynced := SglangHook.Synced.run (fun l => List.Perm.refl l) [[r]] SglangHook.new_synced
    (by rw [List.isChain_cons_cons]; exact ⟨by decide, List.IsChain.singleton _⟩)
  refine (mainHit_eq_length_iff Nat.one_pos hreach (fun _ => List.Perm.refl _) hsynced.tracks
    (fun r' hr' => SglangHook.queueTokens_of_mem (by decide) hr') r List.mem_cons_self).mpr ?_
  unfold RadixCache.PlainlyCached
  rw [if_pos (by decide)]
  exact fun j _ => Iff.rfl

/-- The same prompt under a namespace of its own: the walk reports three tokens, and
`match_prefix` finds none. -/
theorem mainHit_ne_length_lora :
    let r : Req := ⟨"a", [1, 2], [3], some "lora", [], none, false⟩
    let s := (SglangHook.run id [[r]]).session
    s.interner.ridInterner.lookup r.rid = some 1 ∧
      s.peekTree.paths.lookup 1 = some r.tokens ∧
      mainHit (internQueue s.interner [r]).1 (some (dualwalkHits Map.values s.peekTree plainCache)) r
        = 3 ∧
      (plainCache.matchPrefix r.key).1.deviceIndices.length = 0 := by
  decide

end Peek
