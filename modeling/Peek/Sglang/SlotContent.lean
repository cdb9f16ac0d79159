/-
What the slots of the KV cache must hold.

A key-value pair that was computed for a token depends on everything before that token, and on
the namespace.  So what a slot holds is named by the namespace and the tokens up to and with its
own (`RadixKey.entries`).  A cache is faithful to the slots when the indices along every path
hold just what that path spells (`Faithful`); every call on the cache keeps it so, and a match
in a faithful cache hands out slots that hold what the key needs.
-/
import Peek.Base.Cells
import Peek.Sglang.Sums

namespace Peek

open Radix Cells

/-- What one slot holds: the namespace, and the tokens up to and with its own. -/
abbrev Content := Option ExtraKey × List Token

namespace RadixKey

/-- What the slots of a key hold, in order. -/
def entries (key : RadixKey) : List Content :=
  (List.range key.length).map fun j => (key.extraKey, key.tokenIds.take (j + 1))

@[simp] theorem length_entries (key : RadixKey) : key.entries.length = key.length := by
  unfold entries
  rw [List.length_map, List.length_range]

theorem getElem?_entries (key : RadixKey) (j : Nat) :
    key.entries[j]? = if j < key.length then some (key.extraKey, key.tokenIds.take (j + 1))
      else none := by
  unfold entries
  rw [List.getElem?_map]
  by_cases hj : j < key.length
  · rw [if_pos hj, List.getElem?_range hj]
    rfl
  · rw [if_neg hj, List.getElem?_eq_none (by simpa using hj)]
    rfl

theorem take_take (key : RadixKey) (i j : Nat) :
    (key.take j).take i = key.take (min i j) := by
  unfold take
  rw [List.take_take]

theorem entries_take (key : RadixKey) (n : Nat) : (key.take n).entries = key.entries.take n := by
  refine List.ext_getElem? fun j => ?_
  rw [List.getElem?_take, getElem?_entries, getElem?_entries, length_take]
  by_cases hj : j < n
  · rw [if_pos hj]
    have hmin : min (j + 1) n = j + 1 := by omega
    simp only [lt_min_iff, hj, true_and, extraKey_take, tokenIds_take, List.take_take, hmin]
  · rw [if_neg hj, if_neg (fun h => hj (lt_min_iff.mp h).1)]

/-- Keys that are not empty are known from their symbols. -/
theorem eq_of_symbols {ps : Nat} (hps : 0 < ps) {key key' : RadixKey} (hne : key.tokenIds ≠ [])
    (h : key.symbols ps = key'.symbols ps) : key = key' := by
  have htokens : key.tokenIds = key'.tokenIds := by
    rw [← flatMap_tokens_symbols hps, h, flatMap_tokens_symbols hps]
  obtain ⟨a, S, hs⟩ := List.exists_cons_of_ne_nil (mt (symbols_eq_nil_iff hps).mp hne)
  have ha : a ∈ key.symbols ps := by rw [hs]; exact List.mem_cons_self
  cases key
  cases key'
  rw [mk.injEq]
  exact ⟨htokens, (extraKey_of_mem_symbols ha).symm.trans (extraKey_of_mem_symbols (h ▸ ha))⟩

/-- **The symbols of a key say what its slots hold.** -/
theorem entries_of_symbols {ps : Nat} (hps : 0 < ps) {key key' : RadixKey}
    (h : key.symbols ps = key'.symbols ps) : key.entries = key'.entries := by
  by_cases hnil : key.tokenIds = []
  · have hnil' : key'.tokenIds = [] := by
      rw [← flatMap_tokens_symbols hps, ← h, flatMap_tokens_symbols hps, hnil]
    unfold entries length
    rw [hnil, hnil']
    rfl
  · rw [eq_of_symbols hps hnil h]

end RadixKey

namespace RadixCache

variable {c c' : RadixCache} {live live' : Set NodeId} {rp rp' : NodeId → List ChildKey}
  {pv pv' : NodeId → List Index} {kv kv' : Index → Option Content}

/-! ### Paths and their indices -/

/-- The indices along a path begin the indices along a longer one. -/
theorem WF.value_prefix (h : WF c live rp pv) {n m : NodeId} (hn : n ∈ live)
    (hb : Below c.heap n m) : pv n <+: pv m := by
  induction hb with
  | refl _ => exact List.prefix_refl _
  | step hkid _ ih =>
      refine List.IsPrefix.trans ?_ (ih (h.labelled.kidLive hn hkid))
      rw [h.kidValue hn hkid]
      exact List.prefix_append _ _

/-- Every index along a path is held by some node. -/
theorem WF.mem_held (h : WF c live rp pv) {i : Index} : ∀ n ∈ live, i ∈ pv n →
    i ∈ c.sum heldIndices := by
  have hsum : ∀ n ∈ live, i ∈ (c.node n).value → i ∈ c.sum heldIndices := by
    intro n hn hi
    unfold sum CellSum.total
    rw [Multiset.mem_sum]
    exact ⟨n, h.mem_tree.mpr hn, hi⟩
  refine h.labelled.up_induction ?_ ?_
  · intro hi
    have hroot : pv rootNode = [] := h.rootValue
    have hi : i ∈ pv rootNode := hi
    rw [hroot] at hi
    simp at hi
  · intro n hn hr ih hi
    obtain ⟨a, -, hp, hk⟩ := h.labelled.up hn hr
    rw [h.kidValue hp hk] at hi
    rcases List.mem_append.mp hi with hi | hi
    · exact ih hi
    · exact hsum n hn hi

/-- After cuts every path is the beginning of one that was there before. -/
theorem SplitOnly.cachedAt_prefix (hs : SplitOnly c c' live rp pv live' rp' pv') {n : NodeId}
    {p : List ChildKey} {value : List Index} (hc : CachedAt c' n p value) (h : WF c live rp pv) :
    ∃ m p0 v0, CachedAt c m p0 v0 ∧ p <+: p0 ∧ value <+: v0 := by
  obtain ⟨hn, rfl, rfl⟩ := hs.wf.cachedAt_iff.mp hc
  obtain ⟨m, hm, hpre⟩ := (hs.held _).mp ⟨n, hn, List.prefix_refl _⟩
  refine ⟨m, rp m, pv m, h.cachedAt m hm, hpre, ?_⟩
  rw [← hs.path m hm] at hpre
  rw [← hs.value m hm]
  exact hs.wf.value_prefix hn (hs.wf.labelled.below_of_prefix hn (hs.sub hm) hpre)

theorem SplitOnly.cachedAt (hs : SplitOnly c c' live rp pv live' rp' pv') (h : WF c live rp pv)
    {n : NodeId} {p : List ChildKey} {value : List Index} (hc : CachedAt c n p value) :
    CachedAt c' n p value := by
  obtain ⟨hn, rfl, rfl⟩ := h.cachedAt_iff.mp hc
  exact hs.wf.cachedAt_iff.mpr ⟨hs.sub hn, hs.path n hn, hs.value n hn⟩

/-! ### Faithful caches -/

/-- **The slots along every path hold what the path spells.** -/
def Faithful (c : RadixCache) (kv : Index → Option Content) : Prop :=
  ∀ n p value, CachedAt c n p value →
    ∃ key : RadixKey, key.symbols c.pageSize = p ∧ Reads kv value key.entries

theorem faithful_new {pageSize : Nat} (hps : 0 < pageSize) (disable : Bool)
    (kv : Index → Option Content) : Faithful (new pageSize disable) kv := by
  intro n p value hc
  obtain ⟨-, rfl, rfl⟩ := (new_wf hps disable).cachedAt_iff.mp hc
  exact ⟨⟨[], none⟩, (RadixKey.symbols_eq_nil_iff hps).mpr rfl, rfl⟩

/-- What is read along a path is read along its beginnings. -/
theorem reads_prefix (hps : 0 < c.pageSize) {p p0 : List ChildKey} {value v0 : List Index}
    (hlen : value.length = (p.map ChildKey.tokenCount).sum) (hp : p <+: p0) (hv : value <+: v0)
    (hread : ∃ key : RadixKey, key.symbols c.pageSize = p0 ∧ Reads kv v0 key.entries) :
    ∃ key : RadixKey, key.symbols c.pageSize = p ∧ Reads kv value key.entries := by
  obtain ⟨key, hkey, hread⟩ := hread
  have hsym : (key.take (c.pageSize * p.length)).symbols c.pageSize = p := by
    rw [RadixKey.symbols_take hps, hkey, ← List.prefix_iff_eq_take.mp hp]
  refine ⟨_, hsym, ?_⟩
  have hread := hread.of_prefix hv
  rw [hlen, ← hsym, RadixKey.sum_tokenCount_symbols hps, ← RadixKey.length_entries,
    RadixKey.entries_take, List.length_take] at hread
  rw [RadixKey.entries_take]
  rwa [List.take_eq_take_min]

theorem Faithful.splitOnly (hf : Faithful c kv) (hs : SplitOnly c c' live rp pv live' rp' pv')
    (h : WF c live rp pv) : Faithful c' kv := by
  intro n p value hc
  obtain ⟨m, p0, v0, hold, hp, hv⟩ := hs.cachedAt_prefix hc h
  have hlen : value.length = (p.map ChildKey.tokenCount).sum := by
    obtain ⟨hn, rfl, rfl⟩ := hs.wf.cachedAt_iff.mp hc
    exact hs.wf.length_value n hn
  rw [hs.pageSize]
  exact reads_prefix h.pageSize_pos hlen hp hv (hf m p0 v0 hold)

/-- Taking nodes out of the tree, or none, leaves the rest as it was. -/
theorem Faithful.of_sub (hf : Faithful c kv) (h : WF c live rp pv) (h' : WF c' live' rp pv)
    (hps : c'.pageSize = c.pageSize) (hsub : live' ⊆ live) : Faithful c' kv := by
  intro n p value hc
  obtain ⟨hn, hp, hv⟩ := h'.cachedAt_iff.mp hc
  rw [hps]
  exact hf n p value (h.cachedAt_iff.mpr ⟨hsub hn, hp, hv⟩)

/-- Slots that no path has may be written. -/
theorem Faithful.write (hf : Faithful c kv) (h : WF c live rp pv)
    (hkv : ∀ i ∈ c.sum heldIndices, kv' i = kv i) : Faithful c kv' := by
  intro n p value hc
  obtain ⟨key, hkey, hread⟩ := hf n p value hc
  obtain ⟨hn, rfl, rfl⟩ := h.cachedAt_iff.mp hc
  exact ⟨key, hkey, hread.congr fun i hi => hkv i (h.mem_held n hn hi)⟩

/-! ### Inserting -/

/-- **An insertion of whole pages returns how much of the key was held before.** -/
theorem insert_pages (h : WF c live rp pv) (hd : c.disable = false) {params : InsertParams}
    (hdvd : c.pageSize ∣ params.key.length) :
    ∃ k ≤ (params.key.symbols c.pageSize).length, (c.insert params).1 = c.pageSize * k ∧
      ∀ j ≤ (params.key.symbols c.pageSize).length,
        c.Holds ((params.key.symbols c.pageSize).take j) ↔ j ≤ k := by
  obtain ⟨c1, x, live1, rp1, pv1, k, -, hgrow, hwalk, -, -, hfree, htotal, hout, -⟩ :=
    insert_cases h hd params
  refine ⟨k, hwalk.le, hout.trans (htotal hdvd), fun j hj => ?_⟩
  rw [h.holds_iff, ← hgrow.held]
  exact hgrow.wf.labelled.held_take_iff (hwalk.walkAt.stopped hfree) hj

/-- The indices cached along a new leaf: those of the node it hangs under, and its own. -/
theorem value_addLeaf {x : InsertWalk} {priority : Int} (h : WF c live rp pv)
    (hx : x.node ∈ live) (hr : c.nodes.size ≠ rootNode)
    (h' : WF (c.addLeaf x priority) (Insert.insert c.nodes.size live) rp' pv') :
    pv' c.nodes.size = pv' x.node ++ x.value := by
  have hs := linkLeaf_isLinked h hx priority
  obtain ⟨a, -, hp, hk⟩ := h'.labelled.up (Or.inl rfl) hr
  have hparent : (c.addLeaf x priority).parentOf c.nodes.size = x.node :=
    (addLeaf_links c x priority).2.1
  have hvalue : ((c.addLeaf x priority).node c.nodes.size).value = x.value := by
    unfold addLeaf
    rw [node_updateLeafStatus, node_updateLeafStatus, hs.newValue]
  have hval := h'.kidValue hp hk
  rw [hvalue] at hval
  rw [hval]
  exact congrArg (pv' · ++ x.value) hparent

/-- **An insertion keeps the cache faithful** if the slots it is given hold what the key spells. -/
theorem Faithful.insert (hf : Faithful c kv) (h : WF c live rp pv) {params : InsertParams}
    (hdvd : c.pageSize ∣ params.key.length) (hread : Reads kv params.indices params.key.entries) :
    Faithful (c.insert params).2 kv := by
  by_cases hd : c.disable = true
  · unfold RadixCache.insert
    rw [if_pos hd]
    exact hf
  · obtain ⟨c1, x, live1, rp1, pv1, k, -, hgrow, hwalk, -, hv, hfree, htotal, -, hend⟩ :=
      insert_cases h (by simpa using hd) params
    have hps := h.pageSize_pos
    have hf1 := hf.splitOnly hgrow h
    rw [hend]
    by_cases hpos : x.key.length > 0
    · rw [if_pos hpos]
      rw [← hgrow.pageSize] at hwalk hfree
      obtain ⟨rp', pv', hwf, hagree, hleaf⟩ := addLeaf_wf hgrow.wf hwalk hpos hfree params.priority
      rw [hgrow.pageSize] at hwalk hleaf
      have hpages : (c1.addLeaf x params.priority).pageSize = c.pageSize := by
        rw [(later_addLeaf c1 x params.priority).pageSize, hgrow.pageSize]
      intro n p value hc
      obtain ⟨hn, hp, hvalue⟩ := hwf.cachedAt_iff.mp hc
      rw [hpages]
      rcases hn with rfl | hn
      · -- the new leaf ends the key
        have hroot : c1.nodes.size ≠ rootNode := by
          have := hgrow.wf.bound _ hgrow.wf.labelled.rootLive
          exact Nat.ne_of_gt this
        rw [value_addLeaf hgrow.wf hwalk.live hroot hwf, (hagree _ hwalk.live).2, hv,
          htotal hdvd] at hvalue
        obtain ⟨key1, hkey1, hread1⟩ := hf1 x.node (rp1 x.node) (pv1 x.node)
          (hgrow.wf.cachedAt _ hwalk.live)
        rw [hgrow.pageSize, hwalk.path, ← RadixKey.symbols_take hps] at hkey1
        rw [RadixKey.entries_of_symbols hps hkey1, RadixKey.entries_take] at hread1
        refine ⟨params.key, hleaf ▸ hp, ?_⟩
        rw [← hvalue, ← List.take_append_drop (c.pageSize * k) params.key.entries]
        exact hread1.append (hread.drop _)
      · rw [(hagree n hn).1] at hp
        rw [(hagree n hn).2] at hvalue
        have hold := hf1 n p value (hgrow.wf.cachedAt_iff.mpr ⟨hn, hp, hvalue⟩)
        rwa [hgrow.pageSize] at hold
    · rw [if_neg hpos]
      exact hf1

/-! ### Reading -/

/-- **The slots cached for a key hold what the key needs.** -/
theorem Faithful.reads (hf : Faithful c kv) (hps : 0 < c.pageSize) {n : NodeId} {key : RadixKey}
    {value : List Index} (hc : CachedAt c n (key.symbols c.pageSize) value) :
    Reads kv value key.entries := by
  obtain ⟨key1, hkey1, hread⟩ := hf n _ _ hc
  rwa [RadixKey.entries_of_symbols hps hkey1] at hread

theorem pageAlign_eq_take (c : RadixCache) (key : RadixKey) :
    c.pageAlign key = key.take (c.pageSize * (key.length / c.pageSize)) := by
  unfold pageAlign
  by_cases h1 : c.pageSize = 1
  · rw [if_neg (not_not.mpr h1), h1, Nat.div_one, Nat.one_mul]
    unfold RadixKey.take RadixKey.length
    rw [List.take_length]
  · rw [if_pos h1, Nat.mul_comm]

/-- What a match of `key` finds, said of `key` itself: so many whole pages of it. -/
theorem LongestMatch.pages (h : WF c live rp pv) {key : RadixKey} {r : MatchResult}
    (hm : c.LongestMatch key r) :
    ∃ k, r.deviceIndices.length = c.pageSize * k ∧ c.pageSize * k ≤ key.length ∧
      CachedAt c r.lastDeviceNode ((key.take (c.pageSize * k)).symbols c.pageSize)
        r.deviceIndices ∧ (c.disable = true → k = 0) ∧
      (c.disable = false → ∀ j, c.pageSize * j ≤ key.length →
        c.Holds ((key.take (c.pageSize * j)).symbols c.pageSize) → j ≤ k) := by
  obtain ⟨k, hk, hc, hheld⟩ := hm
  have hps := h.pageSize_pos
  have hlen : r.deviceIndices.length = c.pageSize * k := by
    obtain ⟨hn, hp, hv⟩ := h.cachedAt_iff.mp hc
    have hcount : ∀ a ∈ (c.matchSymbols key).take k, a.tokenCount = c.pageSize := fun a ha =>
      tokenCount_of_mem_matchSymbols hps (List.mem_of_mem_take ha)
    rw [← hv, h.length_value _ hn, hp, List.map_congr_left hcount, List.map_const',
      List.sum_replicate_nat, List.length_take, Nat.min_eq_left hk, Nat.mul_comm]
  by_cases hd : c.disable = true
  · have hsym : c.matchSymbols key = [] := if_pos hd
    rw [hsym] at hk hc
    have hk0 : k = 0 := Nat.le_zero.mp hk
    rw [hk0] at hc hlen
    have hnil : (key.take (c.pageSize * 0)).symbols c.pageSize = [] :=
      (RadixKey.symbols_eq_nil_iff hps).mpr rfl
    refine ⟨0, hlen, Nat.zero_le _, ?_, fun _ => rfl, fun hd' => by simp [hd] at hd'⟩
    rw [hnil]
    exact hc
  · have hsym : c.matchSymbols key = (key.symbols c.pageSize).take (key.length / c.pageSize) := by
      unfold matchSymbols
      rw [if_neg hd, pageAlign_eq_take, RadixKey.symbols_take hps]
    rw [hsym, List.length_take] at hk
    have hle : c.pageSize * k ≤ key.length :=
      (Nat.mul_le_mul_left _ (hk.trans (Nat.min_le_left _ _))).trans (Nat.mul_div_le _ _)
    refine ⟨k, hlen, hle, ?_, fun h => absurd h hd, fun _ j hj hholds => ?_⟩
    · rw [hsym, List.take_take, Nat.min_eq_left (hk.trans (Nat.min_le_left _ _))] at hc
      rw [RadixKey.symbols_take hps]
      exact hc
    · have hdiv : j ≤ key.length / c.pageSize := by
        rw [Nat.le_div_iff_mul_le hps, Nat.mul_comm]
        exact hj
      have hsymbols : j ≤ (key.symbols c.pageSize).length := by
        cases j with
        | zero => exact Nat.zero_le _
        | succ j =>
            rw [Nat.mul_succ] at hj
            exact (RadixKey.lt_length_symbols_iff hps).mpr (by omega)
      refine (hheld j ?_).mp ?_
      · rw [hsym, List.length_take]
        exact le_min hdiv hsymbols
      · rw [hsym, List.take_take, Nat.min_eq_left hdiv, ← RadixKey.symbols_take hps]
        exact hholds

/-- **A key of whole pages that is held is matched whole.** -/
theorem WF.matchPrefix_whole (h : WF c live rp pv) (hd : c.disable = false) {key : RadixKey}
    (hdvd : c.pageSize ∣ key.length) (hholds : c.Holds (key.symbols c.pageSize)) :
    (c.matchPrefix key).1.deviceIndices.length = key.length ∧
      CachedAt (c.matchPrefix key).2 (c.matchPrefix key).1.lastDeviceNode
        (key.symbols c.pageSize) (c.matchPrefix key).1.deviceIndices := by
  have hm := Sound.longestMatch ⟨live, rp, pv, h⟩ true key
  have hs := onlySplits_matchPrefixWith true c key
  have hsound : Sound c := ⟨live, rp, pv, h⟩
  obtain ⟨live', rp', pv', h'⟩ := hs.sound hsound
  have hlater := hs.later hsound
  obtain ⟨k, hlen, hle, hc, -, hmax⟩ := hm.pages h'
  rw [hlater.pageSize] at hlen hle hc hmax
  obtain ⟨j, hj⟩ := hdvd
  have htake : key.take (c.pageSize * j) = key := by
    rw [← hj]
    unfold RadixKey.take RadixKey.length
    rw [List.take_length]
  have hjk : j ≤ k := by
    refine hmax (by rw [hlater.disable]; exact hd) j (Nat.le_of_eq hj.symm) ?_
    rw [htake]
    exact (hs.holds_iff hsound).mpr hholds
  have hkj : k ≤ j := by
    rw [hj] at hle
    exact Nat.le_of_mul_le_mul_left hle h.pageSize_pos
  have hkj : k = j := Nat.le_antisymm hkj hjk
  rw [hkj, htake] at hc
  exact ⟨hlen.trans (by rw [hkj, ← hj]), hc⟩

/-! ### Locks -/

theorem sum_heldIndices_eq (h : WF c live rp pv) (h' : WF c' live rp' pv')
    (hv : ∀ n, (c'.node n).value = (c.node n).value) :
    c'.sum heldIndices = c.sum heldIndices := by
  unfold sum
  rw [h.tree_eq h']
  exact CellSum.total_congr fun n _ => congrArg Multiset.ofList (hv n)

end RadixCache

end Peek
