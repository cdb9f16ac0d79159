/-
What a match returns, in terms of the cache alone.

`Matches` speaks of a labelling.  Here the same is said of the links: `CachedAt` follows
them down from the root, `Holds` asks for a path through the given symbols, and
`LongestMatch` says that a node and its indices are the longest cached prefix of a key.
That gives what the schedulers rely on: a match returns as many indices as the longest
held prefix has tokens, and one that is current is what matching again would return.
-/
import Peek.Sglang.CacheEvict
import Mathlib.Algebra.GroupWithZero.Nat

namespace Peek

open Radix

/-! ### Counting tokens -/

/-- How many tokens a symbol spells. -/
def ChildKey.tokenCount (a : ChildKey) : Nat :=
  match a.plain with
  | .token _ => 1
  | .page ts => ts.length

theorem tokenCount_pageSymbol {ps : Nat} (hps : 0 < ps) (e : Option ExtraKey) {ts pg : List Token}
    (h : pg ∈ pages ps ts) : (pageSymbol e ps pg).tokenCount = pg.length := by
  unfold pageSymbol ChildKey.tokenCount
  by_cases h1 : ps = 1
  · subst h1
    obtain ⟨hne, hle⟩ := mem_pages_length hps h
    have := List.length_pos_iff.mpr hne
    rw [if_pos rfl]
    show 1 = pg.length
    omega
  · rw [if_neg h1]

namespace RadixKey

/-- The symbols of a key spell all its tokens. -/
theorem sum_tokenCount_symbols {ps : Nat} (hps : 0 < ps) (key : RadixKey) :
    ((key.symbols ps).map ChildKey.tokenCount).sum = key.length := by
  unfold symbols
  have hcount : ∀ pg ∈ pages ps key.tokenIds,
      (ChildKey.tokenCount ∘ pageSymbol key.extraKey ps) pg = pg.length :=
    fun _ h => tokenCount_pageSymbol hps key.extraKey h
  rw [List.map_map, List.map_congr_left hcount, ← List.length_flatten, flatten_pages hps]
  rfl

/-- Every symbol of a key made of whole pages spells a whole page. -/
theorem tokenCount_of_mem_symbols {ps n : Nat} (hps : 0 < ps) {key : RadixKey}
    (hlen : key.length = ps * n) {a : ChildKey} (h : a ∈ key.symbols ps) : a.tokenCount = ps := by
  unfold symbols at h
  obtain ⟨pg, hpg, rfl⟩ := List.mem_map.mp h
  rw [tokenCount_pageSymbol hps key.extraKey hpg]
  exact length_of_mem_pages hps n key.tokenIds hlen pg hpg

end RadixKey

namespace RadixCache

variable {c c' : RadixCache} {live live' : Set NodeId} {rp rp' : NodeId → List ChildKey}
  {pv pv' : NodeId → List Index}

/-- One index is cached for each token of a path. -/
theorem WF.length_value (h : WF c live rp pv) :
    ∀ n ∈ live, (pv n).length = ((rp n).map ChildKey.tokenCount).sum := by
  refine h.labelled.up_induction ?_ ?_
  · have hroot : rp rootNode = [] := h.labelled.rootPath
    show (pv rootNode).length = ((rp rootNode).map ChildKey.tokenCount).sum
    rw [hroot, h.rootValue]
    rfl
  · intro n hn hr ih
    obtain ⟨a, -, hp, hk⟩ := h.labelled.up hn hr
    rw [h.kidValue hp hk, h.labelled.path_eq hn hr, List.length_append, ih, List.map_append,
      List.sum_append, h.valueLength n hn, heap_edge,
      RadixKey.sum_tokenCount_symbols h.pageSize_pos]

/-! ### What the cache holds -/

/-- `n` is reached from the root along `p`, and `value` is cached along that path. -/
inductive CachedAt (c : RadixCache) : NodeId → List ChildKey → List Index → Prop
  | root : CachedAt c rootNode [] []
  | kid {n m : NodeId} {a : ChildKey} {p : List ChildKey} {value : List Index}
      (h : CachedAt c n p value) (hkid : (c.node n).children.lookup a = some m) :
      CachedAt c m (p ++ (c.node m).key.symbols c.pageSize) (value ++ (c.node m).value)

/-- Some path down from the root runs through `q`. -/
def Holds (c : RadixCache) (q : List ChildKey) : Prop :=
  ∃ n p value, CachedAt c n p value ∧ q <+: p

/-- The tokens of `key` are cached under its namespace. -/
def HoldsKey (c : RadixCache) (key : RadixKey) : Prop := c.Holds (key.symbols c.pageSize)

theorem WF.cachedAt (h : WF c live rp pv) : ∀ n ∈ live, CachedAt c n (rp n) (pv n) := by
  refine h.labelled.up_induction ?_ ?_
  · have hroot : rp rootNode = [] := h.labelled.rootPath
    show CachedAt c rootNode (rp rootNode) (pv rootNode)
    rw [hroot, h.rootValue]
    exact CachedAt.root
  · intro n hn hr ih
    obtain ⟨a, -, hp, hk⟩ := h.labelled.up hn hr
    rw [h.kidValue hp hk, h.labelled.path_eq hn hr]
    exact CachedAt.kid ih hk

theorem WF.cachedAt_iff (h : WF c live rp pv) {n : NodeId} {p : List ChildKey}
    {value : List Index} : CachedAt c n p value ↔ n ∈ live ∧ rp n = p ∧ pv n = value := by
  constructor
  · intro hc
    induction hc with
    | root => exact ⟨h.labelled.rootLive, h.labelled.rootPath, h.rootValue⟩
    | kid _ hkid ih =>
        obtain ⟨hn, hp, hv⟩ := ih
        refine ⟨h.labelled.kidLive hn hkid, ?_, by rw [h.kidValue hn hkid, hv]⟩
        rw [h.labelled.kidPath hn hkid, hp, heap_edge]
  · rintro ⟨hn, rfl, rfl⟩
    exact h.cachedAt n hn

theorem WF.holds_iff (h : WF c live rp pv) {q : List ChildKey} : c.Holds q ↔ Held live rp q := by
  constructor
  · intro hq
    obtain ⟨n, p, value, hc, hq⟩ := hq
    obtain ⟨hn, rfl, -⟩ := h.cachedAt_iff.mp hc
    exact ⟨n, hn, hq⟩
  · intro hq
    obtain ⟨n, hn, hq⟩ := hq
    exact ⟨n, rp n, pv n, h.cachedAt_iff.mpr ⟨hn, rfl, rfl⟩, hq⟩

theorem Holds.mono {p q : List ChildKey} (h : c.Holds q) (hp : p <+: q) : c.Holds p := by
  obtain ⟨n, r, value, hr, hq⟩ := h
  exact ⟨n, r, value, hr, hp.trans hq⟩

theorem holds_nil (c : RadixCache) : c.Holds [] :=
  ⟨rootNode, [], [], CachedAt.root, List.nil_prefix⟩

/-- A new cache holds nothing but the empty path. -/
theorem holds_new_iff {pageSize : Nat} (hps : 0 < pageSize) (disable : Bool)
    {q : List ChildKey} : (new pageSize disable).Holds q ↔ q = [] := by
  rw [(new_wf hps disable).holds_iff]
  constructor
  · intro h
    obtain ⟨n, -, hq⟩ := h
    exact List.prefix_nil.mp hq
  · intro h
    exact ⟨rootNode, rfl, by rw [h]⟩

theorem holdsKey_new_iff {pageSize : Nat} (hps : 0 < pageSize) (disable : Bool)
    {key : RadixKey} : (new pageSize disable).HoldsKey key ↔ key.tokenIds = [] := by
  unfold HoldsKey
  rw [holds_new_iff hps disable]
  exact RadixKey.symbols_eq_nil_iff hps

theorem SplitOnly.holds_iff (hs : SplitOnly c c' live rp pv live' rp' pv') (h : WF c live rp pv)
    {q : List ChildKey} : c'.Holds q ↔ c.Holds q := by
  rw [hs.wf.holds_iff, hs.held, h.holds_iff]

/-- **Inserting a key makes its prefixes held, and nothing else.** -/
theorem Sound.holds_insert (h : Sound c) (params : InsertParams) {q : List ChildKey} :
    (c.insert params).2.Holds q ↔
      c.Holds q ∨ c.disable = false ∧ q <+: params.key.symbols c.pageSize := by
  obtain ⟨live, rp, pv, h⟩ := h
  obtain ⟨live', rp', pv', hwf, -, -, -, -, hheld⟩ := insert_wf h params
  rw [hwf.holds_iff, hheld, h.holds_iff]

/-- A match changes nothing about what is held. -/
theorem Sound.holds_matchPrefix (h : Sound c) (key : RadixKey) {q : List ChildKey} :
    (c.matchPrefix key).2.Holds q ↔ c.Holds q := by
  obtain ⟨live, rp, pv, h⟩ := h
  obtain ⟨live', rp', pv', k, hgrow, -⟩ := matchPrefixWith_matches h true key
  exact hgrow.holds_iff h

/-! ### How long a match is -/

/-- What is looked up are whole pages. -/
theorem tokenCount_of_mem_matchSymbols (hps : 0 < c.pageSize) {key : RadixKey} {a : ChildKey}
    (h : a ∈ c.matchSymbols key) : a.tokenCount = c.pageSize := by
  unfold matchSymbols at h
  by_cases hd : c.disable = true
  · rw [if_pos hd] at h; simp at h
  · rw [if_neg hd] at h
    refine RadixKey.tokenCount_of_mem_symbols (n := key.length / c.pageSize) hps ?_ h
    unfold pageAlign
    by_cases h1 : c.pageSize = 1
    · rw [if_neg (by simpa using h1), h1]; simp
    · have hle := Nat.div_mul_le_self key.length c.pageSize
      rw [if_pos h1]
      unfold RadixKey.length RadixKey.take at *
      rw [List.length_take, Nat.min_eq_left hle, Nat.mul_comm]

/-- A match of `k` pages returns that many pages of indices. -/
theorem Matches.length (h : WF c live rp pv) {key : RadixKey} {r : MatchResult} {k : Nat}
    (hm : Matches live rp pv (c.matchSymbols key) r k) :
    r.deviceIndices.length = c.pageSize * k := by
  have hcount : ∀ a ∈ (c.matchSymbols key).take k, a.tokenCount = c.pageSize := fun a ha =>
    tokenCount_of_mem_matchSymbols h.pageSize_pos (List.mem_of_mem_take ha)
  rw [hm.found.value, h.length_value _ hm.found.live, hm.found.path,
    List.map_congr_left hcount, List.map_const', List.sum_replicate_nat, List.length_take,
    Nat.min_eq_left hm.le, Nat.mul_comm]

theorem SplitOnly.matchSymbols_eq (hs : SplitOnly c c' live rp pv live' rp' pv') (key : RadixKey) :
    c'.matchSymbols key = c.matchSymbols key := by
  unfold matchSymbols pageAlign
  rw [hs.disable, hs.pageSize]

/-- **A match returns as many indices as the longest held prefix has tokens.** -/
theorem Sound.length_matchPrefix (h : Sound c) (key : RadixKey) :
    ∃ k ≤ (c.matchSymbols key).length,
      (c.matchPrefix key).1.deviceIndices.length = c.pageSize * k ∧
      ∀ j ≤ (c.matchSymbols key).length, c.Holds ((c.matchSymbols key).take j) ↔ j ≤ k := by
  obtain ⟨live, rp, pv, h⟩ := h
  obtain ⟨live', rp', pv', k, hgrow, hm⟩ := matchPrefixWith_matches h true key
  refine ⟨k, hm.le, ?_, fun j hj => ?_⟩
  · rw [← hgrow.matchSymbols_eq key] at hm
    rw [← hgrow.pageSize]
    exact hm.length hgrow.wf
  · rw [← hgrow.holds_iff h, hgrow.wf.holds_iff]
    exact hm.held j hj

/-! ### Current matches -/

/--
`r` is the longest cached prefix of `key` as the cache is now: the node that ends it,
and the indices cached along it.
-/
def LongestMatch (c : RadixCache) (key : RadixKey) (r : MatchResult) : Prop :=
  ∃ k ≤ (c.matchSymbols key).length,
    CachedAt c r.lastDeviceNode ((c.matchSymbols key).take k) r.deviceIndices ∧
    ∀ j ≤ (c.matchSymbols key).length, c.Holds ((c.matchSymbols key).take j) ↔ j ≤ k

theorem WF.longestMatch_iff (h : WF c live rp pv) {key : RadixKey} {r : MatchResult} :
    c.LongestMatch key r ↔ ∃ k, Matches live rp pv (c.matchSymbols key) r k := by
  constructor
  · intro hm
    obtain ⟨k, hk, hc, hheld⟩ := hm
    obtain ⟨hn, hp, hv⟩ := h.cachedAt_iff.mp hc
    exact ⟨k, ⟨hn, hp, hv.symm⟩, hk, fun j hj => h.holds_iff.symm.trans (hheld j hj)⟩
  · intro hm
    obtain ⟨k, hfound, hk, hheld⟩ := hm
    refine ⟨k, hk, ?_, fun j hj => h.holds_iff.trans (hheld j hj)⟩
    exact h.cachedAt_iff.mpr ⟨hfound.live, hfound.path, hfound.value.symm⟩

/-- **What a match returns is current after it.** -/
theorem Sound.longestMatch (h : Sound c) (updateLru : Bool) (key : RadixKey) :
    (c.matchPrefixWith updateLru key).2.LongestMatch key (c.matchPrefixWith updateLru key).1 := by
  obtain ⟨live, rp, pv, h⟩ := h
  obtain ⟨live', rp', pv', k, hgrow, hm⟩ := matchPrefixWith_matches h updateLru key
  rw [← hgrow.matchSymbols_eq key] at hm
  exact hgrow.wf.longestMatch_iff.mpr ⟨k, hm⟩

/-- A cache holds one longest match of a key. -/
theorem LongestMatch.unique {key : RadixKey} {r r' : MatchResult} (h : Sound c)
    (hm : c.LongestMatch key r) (hm' : c.LongestMatch key r') : r = r' := by
  obtain ⟨live, rp, pv, h⟩ := h
  obtain ⟨k, hm⟩ := h.longestMatch_iff.mp hm
  obtain ⟨k', hm'⟩ := h.longestMatch_iff.mp hm'
  have hk : k = k' := by
    refine Nat.le_antisymm ?_ ?_
    · exact (hm'.held k hm.le).mp ((hm.held k hm.le).mpr (Nat.le_refl _))
    · exact (hm.held k' hm'.le).mp ((hm'.held k' hm'.le).mpr (Nat.le_refl _))
  have hnode : r.lastDeviceNode = r'.lastDeviceNode :=
    h.labelled.path_injective hm.found.live hm'.found.live
      (by rw [hm.found.path, hm'.found.path, hk])
  cases r with
  | mk indices node =>
      cases r' with
      | mk indices' node' =>
          have hnode : node = node' := hnode
          subst hnode
          have hvalue : indices = indices' := hm.found.value.trans hm'.found.value.symm
          rw [hvalue]

/-! ### Splits -/

/-- Between `c` and `c'` nodes were split at most. -/
def OnlySplits (c c' : RadixCache) : Prop :=
  ∀ live rp pv, WF c live rp pv → ∃ live' rp' pv', SplitOnly c c' live rp pv live' rp' pv'

theorem OnlySplits.refl (c : RadixCache) : OnlySplits c c :=
  fun live rp pv h => ⟨live, rp, pv, SplitOnly.refl h⟩

theorem OnlySplits.trans {c1 c2 c3 : RadixCache} (h : OnlySplits c1 c2) (h' : OnlySplits c2 c3) :
    OnlySplits c1 c3 := by
  intro live rp pv hwf
  obtain ⟨live2, rp2, pv2, h2⟩ := h live rp pv hwf
  obtain ⟨live3, rp3, pv3, h3⟩ := h' live2 rp2 pv2 h2.wf
  exact ⟨live3, rp3, pv3, h2.trans h3⟩

theorem onlySplits_matchPrefixWith (updateLru : Bool) (c : RadixCache) (key : RadixKey) :
    OnlySplits c (c.matchPrefixWith updateLru key).2 := by
  intro live rp pv h
  obtain ⟨live', rp', pv', k, hgrow, -⟩ := matchPrefixWith_matches h updateLru key
  exact ⟨live', rp', pv', hgrow⟩

theorem onlySplits_of_sameTree (hs : SameTree c c') (hd : c'.disable = c.disable) :
    OnlySplits c c' :=
  fun live rp pv h => ⟨live, rp, pv, (SplitOnly.refl h).sameTree hs hd⟩

section

variable (hs : OnlySplits c c') (h : Sound c)
include hs h

theorem OnlySplits.sound : Sound c' := by
  obtain ⟨live, rp, pv, h⟩ := h
  obtain ⟨live', rp', pv', hgrow⟩ := hs live rp pv h
  exact ⟨live', rp', pv', hgrow.wf⟩

theorem OnlySplits.later : Later c c' := by
  obtain ⟨live, rp, pv, h⟩ := h
  obtain ⟨live', rp', pv', hgrow⟩ := hs live rp pv h
  exact hgrow.toLater

theorem OnlySplits.holds_iff {q : List ChildKey} : c'.Holds q ↔ c.Holds q := by
  obtain ⟨live, rp, pv, h⟩ := h
  obtain ⟨live', rp', pv', hgrow⟩ := hs live rp pv h
  exact hgrow.holds_iff h

theorem OnlySplits.matchSymbols_eq (key : RadixKey) : c'.matchSymbols key = c.matchSymbols key := by
  obtain ⟨live, rp, pv, h⟩ := h
  obtain ⟨live', rp', pv', hgrow⟩ := hs live rp pv h
  exact hgrow.matchSymbols_eq key

/-- Splits leave a current match current. -/
theorem OnlySplits.longestMatch {key : RadixKey} {r : MatchResult} (hm : c.LongestMatch key r) :
    c'.LongestMatch key r := by
  obtain ⟨live, rp, pv, h⟩ := h
  obtain ⟨live', rp', pv', hgrow⟩ := hs live rp pv h
  obtain ⟨k, hm⟩ := h.longestMatch_iff.mp hm
  refine hgrow.wf.longestMatch_iff.mpr ⟨k, ?_⟩
  rw [hgrow.matchSymbols_eq]
  exact hm.splitOnly hgrow

/-- A match that ends at a node from before the splits was current before them. -/
theorem OnlySplits.longestMatch_of_old {key : RadixKey} {r : MatchResult}
    (hm : c'.LongestMatch key r) (hold : r.lastDeviceNode < c.nodes.size) :
    c.LongestMatch key r := by
  obtain ⟨live, rp, pv, h⟩ := h
  obtain ⟨live', rp', pv', hgrow⟩ := hs live rp pv h
  obtain ⟨k, hm⟩ := hgrow.wf.longestMatch_iff.mp hm
  rw [hgrow.matchSymbols_eq] at hm
  have hn := hgrow.fresh _ hm.found.live hold
  refine h.longestMatch_iff.mpr ⟨k, ⟨hn, ?_, ?_⟩, hm.le, fun j hj => ?_⟩
  · rw [← hgrow.path _ hn, hm.found.path]
  · rw [← hgrow.value _ hn, hm.found.value]
  · rw [← hgrow.held, hm.held j hj]

end

/-- **A current match is what matching the key again returns.** -/
theorem LongestMatch.matchPrefix_eq {key : RadixKey} {r : MatchResult}
    (hm : c.LongestMatch key r) (h : Sound c) : (c.matchPrefix key).1 = r := by
  have hs : OnlySplits c (c.matchPrefix key).2 := onlySplits_matchPrefixWith true c key
  exact LongestMatch.unique (hs.sound h) (h.longestMatch true key) (hs.longestMatch h hm)

/-! ### Two keys with one match -/

/-- The cached prefixes of the one key are those of the other. -/
def SameCached (c : RadixCache) (key key' : RadixKey) : Prop :=
  ∀ q, c.Holds q → (q <+: c.matchSymbols key ↔ q <+: c.matchSymbols key')

theorem OnlySplits.sameCached_iff (hs : OnlySplits c c') (h : Sound c) {key key' : RadixKey} :
    c'.SameCached key key' ↔ c.SameCached key key' := by
  unfold SameCached
  rw [hs.matchSymbols_eq h, hs.matchSymbols_eq h]
  exact forall_congr' fun q => imp_congr_left (hs.holds_iff h)

/-- The cached prefixes of a key are the prefixes of what its longest match spells. -/
theorem LongestMatch.prefix_iff {key : RadixKey} {k : Nat}
    (hheld : ∀ j ≤ (c.matchSymbols key).length, c.Holds ((c.matchSymbols key).take j) ↔ j ≤ k)
    {q : List ChildKey} (hq : c.Holds q) :
    q <+: c.matchSymbols key ↔ q <+: (c.matchSymbols key).take k := by
  constructor
  · intro hpre
    have hlen := (hheld q.length hpre.length_le).mp (List.prefix_iff_eq_take.mp hpre ▸ hq)
    rw [List.prefix_iff_eq_take.mp hpre]
    exact List.take_prefix_take_left hlen
  · intro hpre
    exact hpre.trans (List.take_prefix _ _)

/-- **The match of one key is that of another** just when they have the same cached prefixes. -/
theorem LongestMatch.congr_iff (h : Sound c) {key key' : RadixKey} {r : MatchResult}
    (hm : c.LongestMatch key r) : c.LongestMatch key' r ↔ c.SameCached key key' := by
  obtain ⟨k, hk, hc, hheld⟩ := hm
  constructor
  · intro hm' q hq
    obtain ⟨k', hk', hc', hheld'⟩ := hm'
    obtain ⟨live, rp, pv, h⟩ := h
    have hpath := (h.cachedAt_iff.mp hc).2.1
    have hpath' := (h.cachedAt_iff.mp hc').2.1
    rw [prefix_iff hheld hq, prefix_iff hheld' hq, ← hpath, ← hpath']
  · intro hsame
    set p := (c.matchSymbols key).take k with hp
    have hpheld : c.Holds p := (hheld k hk).mpr (Nat.le_refl k)
    have hpre : p <+: c.matchSymbols key' := (hsame p hpheld).mp (List.take_prefix _ _)
    have hcut := List.prefix_iff_eq_take.mp hpre
    refine ⟨p.length, hpre.length_le, hcut ▸ hc, fun j hj => ?_⟩
    constructor
    · intro hq
      have hback := (hsame _ hq).mpr (List.take_prefix _ _)
      have hle := ((prefix_iff hheld hq).mp hback).length_le
      rw [List.length_take, Nat.min_eq_left hj] at hle
      exact hle
    · intro hle
      refine hpheld.mono ?_
      rw [hcut]
      exact List.take_prefix_take_left hle

end RadixCache

end Peek
