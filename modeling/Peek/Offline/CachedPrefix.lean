/-
The cache probe of group scheduling (`sglang_cached_prefix_length` in
`python/peek/offline/scheduler.py`).

The probe walks SGLang's radix cache down bare tokens, like the dual walk of the online hook,
but it takes a segment as a whole or not at all.  So it comes to the last node that ends on the
way (`wholeLen`), and falls short of `match_prefix` by what is cached of the segment after it
(`cachedPrefixLength_eq_iff`).
-/
import Peek.Online.DualWalk
import Peek.Sglang.ReadonlyMatch

namespace Peek

open Radix

namespace RadixCache

/-- The loop of `sglang_cached_prefix_length`. -/
def cachedPrefixLoop (c : RadixCache) (tokenIds : List Token) :
    Nat → NodeId → Nat → Nat → Nat
  | 0, _, _, cached => cached
  | fuel + 1, node, i, cached =>
      if i < tokenIds.length then
        let token := tokenIds.getD i 0
        match (c.node node).children.lookup ⟨none, .token token⟩ with
        | none => cached
        | some child =>
            let keyLen := (c.node child).key.length
            if i + keyLen > tokenIds.length then cached
            else if keyLen > 1 ∧ (c.node child).key.tokenIds ≠ (tokenIds.drop i).take keyLen then
              cached
            else cachedPrefixLoop c tokenIds fuel child (i + keyLen) (cached + keyLen)
      else cached

/-- `sglang_cached_prefix_length` -/
def cachedPrefixLength (c : RadixCache) (tokenIds : List Token) : Nat :=
  c.cachedPrefixLoop tokenIds tokenIds.length rootNode 0 0

/-- A node ends where the first `k` tokens do. -/
def NodeEnds (c : RadixCache) (tokenIds : List Token) (k : Nat) : Prop :=
  ∃ n, PathTo c.heap n ((tokenIds.map plainToken).take k)

open Classical in
/-- How many of the tokens lie in segments that they hold as a whole. -/
noncomputable def wholeLen (c : RadixCache) (tokenIds : List Token) : Nat :=
  Nat.findGreatest (c.NodeEnds tokenIds) tokenIds.length

variable {c : RadixCache} {live : Set NodeId} {rp : NodeId → List ChildKey}
  {pv : NodeId → List Index}

/-! ### Where the probe stops -/

/-- The probe goes through a child just when the tokens run along its whole edge. -/
theorem WF.passes_iff (h : WF c live rp pv) {n child : NodeId} {tokenIds : List Token} {k : Nat}
    (hn : n ∈ live) (hlt : k < tokenIds.length)
    (hkid : c.heap.kid n (plainToken (tokenIds.getD k 0)) = some child) :
    (¬ k + (c.node child).key.length > tokenIds.length ∧
      ¬ ((c.node child).key.length > 1 ∧
        (c.node child).key.tokenIds ≠ (tokenIds.drop k).take (c.node child).key.length)) ↔
    lcpLen (c.heap.edge child) ((tokenIds.map plainToken).drop k) = (c.heap.edge child).length := by
  obtain ⟨hcommon, hedge⟩ := h.common_kid hn hkid (tokenIds.drop k)
  obtain ⟨tl, hhead, -⟩ := h.labelled.kid_path_cons hn hkid
  have hlen : (c.node child).key.length = (c.node child).key.tokenIds.length := rfl
  have hdrop : tokenIds.drop k = tokenIds.getD k 0 :: tokenIds.drop (k + 1) := by
    rw [List.drop_eq_getElem_cons hlt, List.getD_eq_getElem _ _ hlt]
  have hpos : 0 < lcpLen (c.heap.edge child) ((tokenIds.map plainToken).drop k) := by
    refine h.labelled.walk_pos hn (a := plainToken (tokenIds.getD k 0)) ?_ hkid
    simp [hlt]
  rw [← List.map_drop, ← hcommon, length_takeWhile_zip] at hpos ⊢
  rw [hedge, lcpLen_eq_length_iff, List.prefix_iff_eq_take, hlen]
  set edge := (c.node child).key.tokenIds
  constructor
  · intro hpass
    obtain ⟨hfits, hsame⟩ := hpass
    by_cases hone : edge.length > 1
    · exact by_contra fun hne => hsame ⟨hone, hne⟩
    · -- a segment of one token is found under that token
      have hle := lcpLen_le_left edge (tokenIds.drop k)
      have hfull : lcpLen edge (tokenIds.drop k) = edge.length := by omega
      exact List.prefix_iff_eq_take.mp (lcpLen_eq_length_iff.mp hfull)
  · intro heq
    refine ⟨fun hlong => ?_, fun hne => hne.2 heq⟩
    have htake := congrArg List.length heq
    rw [List.length_take, List.length_drop] at htake
    omega

/-- What the probe returns: the end of a node on the way, and no node ends further on. -/
structure Probed (c : RadixCache) (live : Set NodeId) (rp : NodeId → List ChildKey)
    (S : List ChildKey) (k : Nat) : Prop where
  le : k ≤ S.length
  node : ∃ n ∈ live, rp n = S.take k
  last : ∀ n ∈ live, ∀ j ≤ S.length, rp n = S.take j → j ≤ k

variable {S : List ChildKey} {k : Nat} {n ch : NodeId}

/-- Past a segment that is not passed no node ends. -/
theorem WF.probed_cut (h : WF c live rp pv) (hn : n ∈ live) (hp : rp n = S.take k) {a : ChildKey}
    (ha : S[k]? = some a) (hkid : c.heap.kid n a = some ch)
    (hcut : ¬ lcpLen (c.heap.edge ch) (S.drop k) = (c.heap.edge ch).length) :
    Probed c live rp S k := by
  obtain ⟨hk, hdrop⟩ := Labelled.take_length_of_getElem? ha
  refine ⟨Nat.le_of_lt hk, ⟨n, hn, hp⟩, fun m hm j hj hpath => ?_⟩
  by_contra hlt
  -- the way to `m` enters the segment, so it runs along all of it
  have hsplit : S.take j = rp n ++ a :: (S.drop (k + 1)).take (j - k - 1) := by
    rw [hp, show j = k + (j - k - 1 + 1) by omega, List.take_add, hdrop, List.take_succ_cons]
    simp
  obtain ⟨child, hkid', hbelow⟩ := h.labelled.kid_of_prefix hn hm
    (by rw [hpath, hsplit])
  rw [hkid, Option.some.injEq] at hkid'
  subst hkid'
  have hpre := h.labelled.below_prefix (h.labelled.kidLive hn hkid) hbelow
  rw [h.labelled.kidPath hn hkid, hpath] at hpre
  have hpre := drop_prefix_of_append (hpre.trans (List.take_prefix j S))
  rw [hp, List.length_take, Nat.min_eq_left (Nat.le_of_lt hk)] at hpre
  exact hcut (lcpLen_eq_length_iff.mpr hpre)

/-- Where a walk rests at a node, the probe is there as well. -/
theorem WF.probed_atNode (h : WF c live rp pv) (hn : n ∈ live) (hk : k ≤ S.length)
    (hp : rp n = S.take k) (hend : ∀ a, S[k]? = some a → c.heap.kid n a = none) :
    Probed c live rp S k := by
  refine ⟨hk, ⟨n, hn, hp⟩, fun m hm j hj hpath => ?_⟩
  have hstop := Stopped.atNode hn hk hp hend
  exact (h.labelled.held_take_iff hstop hj).mp ⟨m, hm, hpath ▸ List.prefix_refl _⟩

/-- **The probe stops** where a walk along the tokens rests, or at the node above it. -/
theorem cachedPrefixLoop_probed (h : WF c live rp pv) (tokenIds : List Token) :
    ∀ (fuel : Nat) (n : NodeId) (k : Nat), n ∈ live → k ≤ tokenIds.length →
      rp n = (tokenIds.map plainToken).take k → tokenIds.length ≤ k + fuel →
      Probed c live rp (tokenIds.map plainToken) (c.cachedPrefixLoop tokenIds fuel n k k) := by
  have hS : (tokenIds.map plainToken).length = tokenIds.length := List.length_map _
  have hover : ∀ {n : NodeId} {k : Nat}, n ∈ live → k ≤ tokenIds.length →
      rp n = (tokenIds.map plainToken).take k → tokenIds.length ≤ k →
      Probed c live rp (tokenIds.map plainToken) k := by
    intro n k hn hk hp hlen
    refine h.probed_atNode hn (by rw [hS]; exact hk) hp fun a ha => ?_
    rw [List.getElem?_eq_none (by rw [hS]; exact hlen)] at ha
    simp at ha
  intro fuel
  induction fuel with
  | zero =>
      intro n k hn hk hp hlen
      exact hover hn hk hp hlen
  | succ fuel ih =>
      intro n k hn hk hp hlen
      unfold cachedPrefixLoop
      by_cases hlt : k < tokenIds.length
      · rw [if_pos hlt]
        simp only
        have ha : (tokenIds.map plainToken)[k]? = some (plainToken (tokenIds.getD k 0)) := by
          simp [hlt]
        cases hkid : (c.node n).children.lookup ⟨none, .token (tokenIds.getD k 0)⟩ with
        | none =>
            refine h.probed_atNode hn (by rw [hS]; exact hk) hp fun a ha' => ?_
            rw [ha, Option.some.injEq] at ha'
            rw [← ha']
            exact hkid
        | some child =>
            have hkid : c.heap.kid n (plainToken (tokenIds.getD k 0)) = some child := hkid
            have hpass := h.passes_iff hn hlt hkid
            simp only
            by_cases hlong : k + (c.node child).key.length > tokenIds.length
            · rw [if_pos hlong]
              exact h.probed_cut hn hp ha hkid fun hfull => (hpass.mpr hfull).1 hlong
            · rw [if_neg hlong]
              by_cases hdiff : (c.node child).key.length > 1 ∧ (c.node child).key.tokenIds ≠
                  (tokenIds.drop k).take (c.node child).key.length
              · rw [if_pos hdiff]
                exact h.probed_cut hn hp ha hkid fun hfull => (hpass.mpr hfull).2 hdiff
              · rw [if_neg hdiff]
                have hfull := hpass.mp ⟨hlong, hdiff⟩
                obtain ⟨-, hedge⟩ := h.common_kid hn hkid (tokenIds.drop k)
                have hlen' : (c.node child).key.length = (c.heap.edge child).length := hedge.symm
                have hpos := h.labelled.walk_pos hn ha hkid
                refine ih child _ (h.labelled.kidLive hn hkid) (by omega) ?_ (by omega)
                rw [hlen']
                exact h.labelled.walk_full hn hp hkid hfull
      · rw [if_neg hlt]
        exact hover hn hk hp (Nat.le_of_not_lt hlt)

theorem WF.cachedPrefixLength_probed (h : WF c live rp pv) (tokenIds : List Token) :
    Probed c live rp (tokenIds.map plainToken) (c.cachedPrefixLength tokenIds) :=
  cachedPrefixLoop_probed h tokenIds tokenIds.length rootNode 0 h.labelled.rootLive
    (Nat.zero_le _) h.labelled.rootPath (Nat.le_add_left _ _)

/-- **The probe counts the tokens in whole segments.** -/
theorem Sound.cachedPrefixLength_eq (h : Sound c) (tokenIds : List Token) :
    c.cachedPrefixLength tokenIds = c.wholeLen tokenIds := by
  classical
  obtain ⟨live, rp, pv, h⟩ := h
  have hprobed := h.cachedPrefixLength_probed tokenIds
  have hS : (tokenIds.map plainToken).length = tokenIds.length := List.length_map _
  have hends : ∀ k, c.NodeEnds tokenIds k ↔
      ∃ n ∈ live, rp n = (tokenIds.map plainToken).take k := fun k =>
    exists_congr fun n => h.labelled.pathTo_iff
  unfold wholeLen
  refine (Nat.findGreatest_eq_iff.mpr ⟨hS ▸ hprobed.le, fun _ => (hends _).mpr hprobed.node,
    fun j hlt hle hj => ?_⟩).symm
  obtain ⟨n, hn, hpath⟩ := (hends j).mp hj
  exact absurd (hprobed.last n hn j (hS.symm ▸ hle) hpath) (Nat.not_le_of_lt hlt)

/-! ### Against `match_prefix` -/

/-- With pages of one token the tokens themselves are looked up, or nothing is. -/
theorem matchSymbols_plain (hps : c.pageSize = 1) (hon : c.disable = false)
    (tokenIds : List Token) : c.matchSymbols ⟨tokenIds, none⟩ = tokenIds.map plainToken := by
  unfold matchSymbols pageAlign
  simp [hon, hps, symbols_plain]

/-- The probe agrees with a match that does not end inside a segment. -/
theorem Sound.cachedPrefixLength_eq_match_iff (h : Sound c) (hps : c.pageSize = 1)
    (hon : c.disable = false) (tokenIds : List Token) :
    c.cachedPrefixLength tokenIds = (c.matchPrefix ⟨tokenIds, none⟩).1.deviceIndices.length ↔
      ¬ ∃ n, c.EndsInside ⟨tokenIds, none⟩ n := by
  obtain ⟨k, hk, hlen, hheld⟩ := h.length_matchPrefix ⟨tokenIds, none⟩
  obtain ⟨live, rp, pv, h⟩ := h
  have hprobed := h.cachedPrefixLength_probed tokenIds
  obtain ⟨e, o, j, hstop, -⟩ := matchPrefixReadonly_cutAt h ⟨tokenIds, none⟩
  simp only [endsInside_iff h hstop, exists_eq_left]
  rw [matchSymbols_plain hps hon] at hk hheld hstop
  set S := tokenIds.map plainToken
  obtain ⟨-, hj, -⟩ := h.labelled.stopped_path hstop
  have hjk : j = k := by
    refine Nat.le_antisymm ?_ ?_
    · exact (hheld j hj).mp (h.holds_iff.mpr (h.labelled.stopped_held hstop))
    · exact (h.labelled.held_take_iff hstop hk).mp
        (h.holds_iff.mp ((hheld k hk).mpr (Nat.le_refl k)))
  rw [hlen, hps, Nat.one_mul, ← hjk]
  constructor
  · -- the probe's node would end inside the segment
    intro heq hin
    obtain ⟨-, hheld, hne⟩ := h.labelled.heldBy_of_stopped hstop hin
    obtain ⟨n, hn, hpath⟩ := hprobed.node
    rw [heq] at hpath
    obtain ⟨-, -, hlen, -⟩ := h.labelled.heldBy_iff.mp hheld
    have hnr : n ≠ rootNode := by
      rintro rfl
      have hroot : rp rootNode = [] := h.labelled.rootPath
      rw [← hpath, hroot] at hlen
      exact absurd hlen (Nat.not_lt_zero _)
    have hen : e = n := h.labelled.heldBy_unique hheld (hpath ▸ h.labelled.heldBy_path hn hnr)
    exact hne (hen ▸ hpath)
  · intro hend
    have hpath := h.labelled.path_of_stopped hstop hend
    obtain ⟨n, hn, hpath'⟩ := hprobed.node
    refine Nat.le_antisymm ?_ ?_
    · refine (h.labelled.held_take_iff hstop hprobed.le).mp ⟨n, hn, ?_⟩
      rw [hpath']
    · exact hprobed.last e (h.labelled.stopped_path hstop).1 j hj hpath

/-- A new cache has nothing to find. -/
theorem cachedPrefixLength_new (pageSize : Nat) (disable : Bool) (tokenIds : List Token) :
    (new pageSize disable).cachedPrefixLength tokenIds = 0 := by
  cases tokenIds with
  | nil => rfl
  | cons t ts =>
      show (new pageSize disable).cachedPrefixLoop (t :: ts) (ts.length + 1) rootNode 0 0 = 0
      unfold cachedPrefixLoop
      rw [if_pos (show 0 < (t :: ts).length from Nat.succ_pos _), (node_new pageSize disable rootNode).1]
      rfl

/-- Where nothing is looked up, nothing is found inside a segment. -/
theorem not_endsInside_of_nil {key : RadixKey} (hnil : c.matchSymbols key = []) :
    ¬ ∃ n, c.EndsInside key n := by
  rintro ⟨n, q, hq, ⟨m, p, a, -, -, hlen, -⟩, -⟩
  have hqnil : q = [] := List.prefix_nil.mp (hnil ▸ hq.1)
  rw [hqnil] at hlen
  exact absurd hlen (Nat.not_lt_zero _)

/--
**When the probe returns what `match_prefix` does.**  For every cache with pages of one token
that some run of calls makes, and all tokens, it does just when the longest cached prefix of
the tokens does not end inside a segment.
-/
theorem cachedPrefixLength_eq_iff {disable : Bool} (hreach : Reachable 1 disable c)
    (tokenIds : List Token) :
    c.cachedPrefixLength tokenIds = (c.matchPrefix ⟨tokenIds, none⟩).1.deviceIndices.length ↔
      ¬ ∃ n, c.EndsInside ⟨tokenIds, none⟩ n := by
  obtain ⟨hsound, hps, hdis⟩ := hreach.sound Nat.one_pos
  cases disable with
  | false => exact hsound.cachedPrefixLength_eq_match_iff hps hdis tokenIds
  | true =>
      -- a cache that is switched off is empty
      rw [hreach.eq_new, cachedPrefixLength_new]
      exact iff_of_true rfl (not_endsInside_of_nil rfl)

/-- A cache that has seen one prompt of two tokens. -/
def onePair : RadixCache := (createSimulated.insert (HeldCache.plainPrompt [1, 2])).2

theorem onePair_reachable : Reachable 1 false onePair :=
  Relation.ReflTransGen.refl.tail (Step.insert (new 1 false) (HeldCache.plainPrompt [1, 2]))

/-- The whole prompt ends with its segment, so the probe finds it. -/
theorem cachedPrefixLength_whole :
    Reachable 1 false onePair ∧ onePair.cachedPrefixLength [1, 2] = 2 ∧
      ¬ ∃ n, onePair.EndsInside ⟨[1, 2], none⟩ n := by
  have hiff := cachedPrefixLength_eq_iff onePair_reachable [1, 2]
  exact ⟨onePair_reachable, by decide, hiff.mp (by decide)⟩

/-- Its first token is cached, and the probe does not count it. -/
theorem cachedPrefixLength_inside : Reachable 1 false onePair ∧
    onePair.cachedPrefixLength [1] = 0 ∧
    (onePair.matchPrefix ⟨[1], none⟩).1.deviceIndices.length = 1 :=
  ⟨onePair_reachable, by decide, by decide⟩

end RadixCache

end Peek
