/-
What the cache does with one running request's slots.

`ReqOk` is what holds of a running request: the node it has locked ends the cached path of its
first `cache_protected_len` tokens, with the slots at the beginning of its row; and all slots of
the row up to the committed length hold what the request's tokens need.  `cache_unfinished_req`
keeps that, and its assertion holds; and each of the two functions accounts for the slots the
request owned: what the tree takes over, what is freed, and what the request keeps.
-/
import Peek.Sglang.LockedSizes
import Peek.Sglang.ServerMemory
import Mathlib.Tactic.Abel

namespace Peek

open Radix Cells

/-! ### Rows and slices -/

namespace Row

theorem getElem?_upTo (row : Row) (n j : Nat) :
    (row.upTo n)[j]? = if j < n then some (row j) else none := by
  unfold upTo
  rw [List.getElem?_map]
  by_cases hj : j < n
  · rw [if_pos hj, List.getElem?_range hj]
    rfl
  · rw [if_neg hj, List.getElem?_eq_none (by simpa using hj)]
    rfl

theorem take_upTo (row : Row) (m n : Nat) : (row.upTo n).take m = row.upTo (min m n) := by
  unfold upTo
  rw [← List.map_take, List.take_range]

theorem upTo_of_eq {row row' : Row} {n : Nat} (h : ∀ j < n, row' j = row j) :
    row'.upTo n = row.upTo n :=
  List.map_congr_left fun j hj => h j (List.mem_range.mp hj)

/-- A write leaves what is before it. -/
theorem upTo_write_of_le {row : Row} {start n : Nat} {xs : List Index} (h : n ≤ start) :
    (row.write start xs).upTo n = row.upTo n :=
  upTo_of_eq fun j hj => if_neg (by omega)

/-- What was written follows what was there. -/
theorem upTo_write (row : Row) (start : Nat) (xs : List Index) :
    (row.write start xs).upTo (start + xs.length) = row.upTo start ++ xs := by
  refine List.ext_getElem? fun j => ?_
  rw [getElem?_upTo, List.getElem?_append, length_upTo, getElem?_upTo]
  unfold write
  by_cases hj : j < start
  · rw [if_pos (by omega), if_neg (by omega), if_pos hj, if_pos hj]
  · rw [if_pos (by omega : start ≤ j), if_neg hj]
    by_cases hlt : j < start + xs.length
    · rw [if_pos hlt, List.getD_eq_getElem?_getD]
      have hidx : j - start < xs.length := by omega
      rw [List.getElem?_eq_getElem hidx]
      rfl
    · rw [if_neg hlt, List.getElem?_eq_none (by omega)]

/-- A write leaves what is after it. -/
theorem drop_upTo_write {row : Row} {start n : Nat} {xs : List Index} :
    ((row.write start xs).upTo n).drop (start + xs.length) =
      (row.upTo n).drop (start + xs.length) := by
  refine List.ext_getElem? fun j => ?_
  rw [List.getElem?_drop, List.getElem?_drop, getElem?_upTo, getElem?_upTo]
  have hat : row.write start xs (start + xs.length + j) = row (start + xs.length + j) := by
    unfold write
    rw [if_pos (by omega), List.getD_eq_getElem?_getD, List.getElem?_eq_none (by omega)]
    rfl
  rw [hat]

section

variable {row : Row} {n : Nat} {indices : List Index} (hpre : row.upTo n <+: indices)
include hpre

/-- Indices that begin as the row does, written over the row from there on. -/
theorem upTo_splice : (row.write n (indices.drop n)).upTo indices.length = indices := by
  have hle := hpre.length_le
  have htake := List.prefix_iff_eq_take.mp hpre
  rw [length_upTo] at hle htake
  have hlen : n + (indices.drop n).length = indices.length := by
    rw [List.length_drop]
    omega
  rw [← hlen, upTo_write, htake, List.take_append_drop]

theorem drop_upTo_splice (k : Nat) : ((row.write n (indices.drop n)).upTo k).drop indices.length =
    (row.upTo k).drop indices.length := by
  have hle := hpre.length_le
  rw [length_upTo] at hle
  have hlen : n + (indices.drop n).length = indices.length := by
    rw [List.length_drop]
    omega
  rw [← hlen]
  exact drop_upTo_write

theorem upTo_splice_append {k : Nat} (hk : indices.length ≤ k) :
    (row.write n (indices.drop n)).upTo k = indices ++ (row.upTo k).drop indices.length := by
  rw [← drop_upTo_splice hpre k, ← List.take_append_drop indices.length
    ((row.write n (indices.drop n)).upTo k), take_upTo, Nat.min_eq_left hk, upTo_splice hpre,
    List.drop_append_of_le_length (Nat.le_refl _), List.drop_length, List.nil_append]

end

end Row

theorem slice_append_drop {α : Type} (xs : List α) {a b : Nat} (h : a ≤ b) :
    slice xs a b ++ xs.drop b = xs.drop a := by
  unfold slice
  have hb : xs.drop b = (xs.drop a).drop (b - a) := by
    rw [List.drop_drop]
    congr 1
    omega
  rw [List.drop_take, hb, List.take_append_drop]

theorem slice_append {α : Type} (xs : List α) {a b d : Nat} (h : a ≤ b) (h' : b ≤ d) :
    slice xs a b ++ slice xs b d = slice xs a d := by
  have hcut := slice_append_drop (xs.take d) h
  unfold slice at hcut ⊢
  rwa [List.take_take, Nat.min_eq_left h'] at hcut

namespace RunningReq

variable {r : RunningReq}

theorem length_key {n : Nat} (h : n ≤ r.tokens.length) : (r.key n).length = n := by
  show (r.tokens.take n).length = n
  rw [List.length_take, Nat.min_eq_left h]

theorem take_key (r : RunningReq) {m n : Nat} (h : m ≤ n) : (r.key n).take m = r.key m := by
  unfold key RadixKey.take
  simp only [List.take_take, Nat.min_eq_left h]

end RunningReq

namespace RadixCache

variable {c c' : RadixCache} {live live' : Set NodeId} {rp rp' : NodeId → List ChildKey}
  {pv pv' : NodeId → List Index} {kv kv' : Index → Option Content} {r : RunningReq}

/-! ### A running request -/

/-- **What holds of a running request.** -/
structure ReqOk (c : RadixCache) (kv : Index → Option Content) (r : RunningReq) : Prop where
  anchored : CachedAt c r.lastNode ((r.key r.cacheProtectedLen).symbols c.pageSize)
    (r.row.upTo r.cacheProtectedLen)
  aligned : c.pageSize ∣ r.cacheProtectedLen
  off : c.disable = true → r.cacheProtectedLen = 0
  protected_le : r.cacheProtectedLen ≤ r.fillIds.length
  fill : r.fillIds = r.tokens.take r.fillIds.length
  fill_le : r.fillIds.length ≤ r.kvCommittedLen
  committed_le : r.kvCommittedLen ≤ r.tokens.length
  prefix_le : r.prefixIndices.length ≤ r.kvCommittedLen
  prefixIndices : r.prefixIndices = r.row.upTo r.prefixIndices.length
  reads : Reads kv (r.row.upTo r.kvCommittedLen) (r.key r.kvCommittedLen).entries

/-- The cached paths of the one cache are there in the other, which is of the same make. -/
structure Carries (c c' : RadixCache) : Prop extends Later c c' where
  cachedAt : ∀ n p value, CachedAt c n p value → CachedAt c' n p value

theorem Carries.trans {c1 c2 c3 : RadixCache} (h : Carries c1 c2) (h' : Carries c2 c3) :
    Carries c1 c3 :=
  ⟨h.toLater.trans h'.toLater, fun n p value hc => h'.cachedAt n p value (h.cachedAt n p value hc)⟩

/-- A request whose node stays where it was is as it was. -/
theorem ReqOk.later (hr : ReqOk c kv r) (hl : Later c c')
    (hc : ∀ p value, CachedAt c r.lastNode p value → CachedAt c' r.lastNode p value) :
    ReqOk c' kv r where
  anchored := by rw [hl.pageSize]; exact hc _ _ hr.anchored
  aligned := by rw [hl.pageSize]; exact hr.aligned
  off := by rw [hl.disable]; exact hr.off
  protected_le := hr.protected_le
  fill := hr.fill
  fill_le := hr.fill_le
  committed_le := hr.committed_le
  prefix_le := hr.prefix_le
  prefixIndices := hr.prefixIndices
  reads := hr.reads

/-- Slots that the request does not use may be written. -/
theorem ReqOk.write (hr : ReqOk c kv r) (hkv : ∀ i ∈ r.row.upTo r.kvCommittedLen, kv' i = kv i) :
    ReqOk c kv' r :=
  { hr with reads := hr.reads.congr hkv }

theorem ReqOk.protected_le_committed (hr : ReqOk c kv r) :
    r.cacheProtectedLen ≤ r.kvCommittedLen := hr.protected_le.trans hr.fill_le

/-- A slot of the request is the tree's, or its own. -/
theorem ReqOk.mem_row (hr : ReqOk c kv r) (h : WF c live rp pv) {i : Index}
    (hi : i ∈ r.row.upTo r.kvCommittedLen) : i ∈ c.sum heldIndices ∨ i ∈ r.owned := by
  rw [← List.take_append_drop r.cacheProtectedLen (r.row.upTo r.kvCommittedLen), Row.take_upTo,
    Nat.min_eq_left hr.protected_le_committed, List.mem_append] at hi
  refine hi.imp (fun hi => ?_) id
  obtain ⟨hn, -, hv⟩ := h.cachedAt_iff.mp hr.anchored
  exact h.mem_held _ hn (hv ▸ hi)

/-! ### Inserting a request's pages -/

/-- The whole pages of the first `n` tokens. -/
def wholePages (c : RadixCache) (n : Nat) : Nat := c.pageSize * (n / c.pageSize)

theorem wholePages_le (c : RadixCache) (n : Nat) : c.wholePages n ≤ n := Nat.mul_div_le _ _

theorem le_wholePages {m n : Nat} (hdvd : c.pageSize ∣ m) (h : m ≤ n) : m ≤ c.wholePages n := by
  obtain ⟨k, rfl⟩ := hdvd
  unfold wholePages
  by_cases hps : c.pageSize = 0
  · rw [hps, Nat.zero_mul, Nat.zero_mul]
  · exact Nat.mul_le_mul_left _ ((Nat.le_div_iff_mul_le (Nat.pos_of_ne_zero hps)).mpr
      (by rw [Nat.mul_comm]; exact h))

theorem pageAlignKeys_eq (c : RadixCache) (ids : List Token) :
    c.pageAlignKeys ids = ids.take (c.wholePages ids.length) := by
  unfold pageAlignKeys wholePages
  by_cases h1 : c.pageSize = 1
  · rw [if_pos h1, h1, Nat.div_one, Nat.one_mul, List.take_length]
  · rw [if_neg h1, Nat.mul_comm]

theorem pageAlignKeys_take (c : RadixCache) {n : Nat} (h : n ≤ r.tokens.length) :
    c.pageAlignKeys (r.tokens.take n) = r.tokens.take (c.wholePages n) := by
  have hlen : (r.tokens.take n).length = n := by rw [List.length_take, Nat.min_eq_left h]
  rw [pageAlignKeys_eq, hlen, List.take_take, Nat.min_eq_left (c.wholePages_le n)]

section

variable {n : Nat} (hn : n ≤ r.tokens.length)
include hn

theorem reqParams_key : (c.reqParams r (r.tokens.take n)).key = r.key (c.wholePages n) :=
  congrArg (fun ids => (⟨ids, r.extraKey⟩ : RadixKey)) (c.pageAlignKeys_take hn)

theorem reqParams_indices :
    (c.reqParams r (r.tokens.take n)).indices = r.row.upTo (c.wholePages n) := by
  have hle := c.wholePages_le n
  show (r.row.upTo (r.tokens.take n).length).take (c.pageAlignKeys (r.tokens.take n)).length = _
  rw [c.pageAlignKeys_take hn, List.length_take, List.length_take, Nat.min_eq_left hn,
    Nat.min_eq_left (hle.trans hn), Row.take_upTo, Nat.min_eq_left hle]

end

theorem carries_insert (h : WF c live rp pv) (params : InsertParams) :
    Carries c (c.insert params).2 := by
  obtain ⟨live', rp', pv', hwf, hsub, hagree, -⟩ := insert_wf h params
  refine ⟨later_insert c params, fun n p value hc => ?_⟩
  obtain ⟨hn, hp, hv⟩ := h.cachedAt_iff.mp hc
  refine hwf.cachedAt_iff.mpr ⟨hsub hn, ?_, ?_⟩
  · rw [(hagree n hn).1, hp]
  · rw [(hagree n hn).2, hv]

/-- What inserting the whole pages of a request's first `n` tokens does. -/
structure ReqInserted (c : RadixCache) (kv : Index → Option Content) (r : RunningReq) (n : Nat)
    (newPrefixLen : Nat) (c' : RadixCache) : Prop extends Carries c c' where
  protected_le : r.cacheProtectedLen ≤ newPrefixLen
  le : newPrefixLen ≤ c.wholePages n
  /-- The tree takes over the slots from where it had no more of the key. -/
  sum : c'.sum heldIndices =
    (slice (r.row.upTo r.kvCommittedLen) newPrefixLen (c.wholePages n) : Multiset Index) +
      c.sum heldIndices
  faithful : Faithful c' kv
  holds : c'.Holds ((r.key (c.wholePages n)).symbols c.pageSize)

theorem ReqOk.insert (hr : ReqOk c kv r) (hf : Faithful c kv) (h : WF c live rp pv)
    (hd : c.disable = false) {n : Nat} (hpn : r.cacheProtectedLen ≤ n)
    (hnc : n ≤ r.kvCommittedLen) :
    ReqInserted c kv r n (c.insert (c.reqParams r (r.tokens.take n))).1
      (c.insert (c.reqParams r (r.tokens.take n))).2 := by
  have hps := h.pageSize_pos
  have hn := hnc.trans hr.committed_le
  have hle := c.wholePages_le n
  have hkey := reqParams_key (c := c) hn
  have hindices := reqParams_indices (c := c) hn
  set params := c.reqParams r (r.tokens.take n) with hparams
  have hlen : params.key.length = c.wholePages n := by
    rw [hkey, RunningReq.length_key (hle.trans hn)]
  have hdvd : c.pageSize ∣ params.key.length := by
    rw [hlen]
    exact Nat.dvd_mul_right _ _
  obtain ⟨k, hk, hout, hheld⟩ := insert_pages h hd hdvd
  have hmul := RadixKey.mul_length_symbols hps hdvd
  have htotal : (c.insert params).1 ≤ c.wholePages n := by
    rw [hout, ← hlen, ← hmul]
    exact Nat.mul_le_mul_left _ hk
  refine ⟨carries_insert h params, ?_, htotal, ?_, hf.insert h hdvd ?_, ?_⟩
  · -- the locked prefix is still in the tree, so the walk comes at least as far
    obtain ⟨j, hj⟩ := hr.aligned
    have hpl := le_wholePages hr.aligned hpn
    have hsym : (r.key r.cacheProtectedLen).symbols c.pageSize =
        (params.key.symbols c.pageSize).take j := by
      rw [← RadixKey.symbols_take hps, hkey, ← hj, RunningReq.take_key r hpl]
    have hjle : j ≤ (params.key.symbols c.pageSize).length := by
      refine Nat.le_of_mul_le_mul_left ?_ hps
      rw [hmul, hlen, ← hj]
      exact hpl
    rw [hout, hj]
    refine Nat.mul_le_mul_left _ ((hheld j hjle).mp ?_)
    rw [← hsym]
    exact ⟨r.lastNode, _, _, hr.anchored, List.prefix_refl _⟩
  · have hsum := (insert_sum heldIndices_divides h hd params).1
    have hslice : slice (r.row.upTo r.kvCommittedLen) (c.insert params).1 (c.wholePages n) =
        params.indices.drop (c.insert params).1 := by
      unfold slice
      rw [Row.take_upTo, Nat.min_eq_left (hle.trans hnc), hindices]
    rw [hsum, hslice]
    by_cases hlt : (c.insert params).1 < params.key.length
    · rw [if_pos hlt]
      rfl
    · rw [if_neg hlt, List.drop_eq_nil_of_le (by rw [params.length_indices]; omega)]
      rfl
  · rw [hindices, hkey]
    have hread := hr.reads.take (c.wholePages n)
    rwa [Row.take_upTo, Nat.min_eq_left (hle.trans hnc), ← RadixKey.entries_take,
      RunningReq.take_key r (hle.trans hnc)] at hread
  · rw [← hkey]
    exact (Sound.holds_insert ⟨live, rp, pv, h⟩ params).mpr (Or.inr ⟨hd, List.prefix_refl _⟩)

/-! ### Matching and locking -/

theorem SplitOnly.carries (hs : SplitOnly c c' live rp pv live' rp' pv') (h : WF c live rp pv) :
    Carries c c' :=
  ⟨hs.toLater, fun _ _ _ hc => hs.cachedAt h hc⟩

theorem carries_of_wf (h : WF c live rp pv) (h' : WF c' live rp pv) (hl : Later c c') :
    Carries c c' :=
  ⟨hl, fun _ _ _ hc => h'.cachedAt_iff.mpr (h.cachedAt_iff.mp hc)⟩

theorem WF.inTree_of_cachedAt (h : WF c live rp pv) {n : NodeId} {p : List ChildKey}
    {value : List Index} (hc : CachedAt c n p value) : c.InTree n :=
  h.inTree_iff.mpr (h.cachedAt_iff.mp hc).1

/-- The indices along a path begin those along a longer one. -/
theorem WF.cachedAt_prefix (h : WF c live rp pv) {n m : NodeId} {p q : List ChildKey}
    {v w : List Index} (hn : CachedAt c n p v) (hm : CachedAt c m q w) (hpq : p <+: q) :
    v <+: w := by
  obtain ⟨hnl, rfl, rfl⟩ := h.cachedAt_iff.mp hn
  obtain ⟨hml, rfl, rfl⟩ := h.cachedAt_iff.mp hm
  exact h.value_prefix hnl (h.labelled.below_of_prefix hnl hml hpq)

/-- A cache, the locks taken on it, and slots that hold what its paths spell. -/
structure Kept (c : RadixCache) (locks : List NodeId) (kv : Index → Option Content) : Prop
    extends Held c locks where
  faithful : Faithful c kv

/-- What a match, or a lock call, does to a cache: nothing to what it holds. -/
structure Same (c : RadixCache) (c' : RadixCache) : Prop extends Carries c c' where
  sum : c'.sum heldIndices = c.sum heldIndices

theorem Same.trans {c1 c2 c3 : RadixCache} (h : Same c1 c2) (h' : Same c2 c3) : Same c1 c3 :=
  ⟨h.toCarries.trans h'.toCarries, h'.sum.trans h.sum⟩

section

variable {locks : List NodeId} (hk : Kept c locks kv)
include hk

theorem Kept.matchPrefixWith (updateLru : Bool) (key : RadixKey) :
    Kept (c.matchPrefixWith updateLru key).2 locks kv ∧
      Same c (c.matchPrefixWith updateLru key).2 := by
  obtain ⟨live, rp, pv, h⟩ := hk.toHeld.wf
  have hcuts := matchPrefixWith_cuts h updateLru key
  obtain ⟨live', rp', pv', hgrow⟩ := Cuts.splitOnly hcuts h
  exact ⟨⟨hk.toHeld.matchPrefixWith updateLru key, hk.faithful.splitOnly hgrow h⟩,
    hgrow.carries h, (Cuts.sum_eq heldIndices_divides hcuts h).1⟩

theorem Kept.incLockRef {n : NodeId} (hn : c.InTree n) :
    Kept (c.incLockRef n) (n :: locks) kv ∧ Same c (c.incLockRef n) := by
  obtain ⟨live, rp, pv, h⟩ := hk.toHeld.wf
  have hwf := incLockRef_wf h (h.inTree_iff.mp hn)
  have hshape := sameShape_incLockRef c n
  exact ⟨⟨hk.toHeld.incLockRef hn, hk.faithful.of_sub h hwf hshape.pageSize fun _ hm => hm⟩,
    carries_of_wf h hwf hshape.toLater, sum_heldIndices_eq h hwf hshape.value⟩

theorem Kept.decLockRef {n : NodeId} (hn : c.InTree n) (hl : n ∈ locks) :
    Kept (c.decLockRef n) (locks.erase n) kv ∧ Same c (c.decLockRef n) := by
  obtain ⟨live, rp, pv, h⟩ := hk.toHeld.wf
  have hwf := decLockRef_wf h (h.inTree_iff.mp hn)
  have hshape := sameShape_decLockRef c n
  exact ⟨⟨hk.toHeld.decLockRef hn hl, hk.faithful.of_sub h hwf hshape.pageSize fun _ hm => hm⟩,
    carries_of_wf h hwf hshape.toLater, sum_heldIndices_eq h hwf hshape.value⟩

theorem Kept.perm {locks' : List NodeId} (hp : locks.Perm locks') : Kept c locks' kv :=
  ⟨hk.toHeld.perm hp, hk.faithful⟩

theorem Kept.insertReq (hr : ReqOk c kv r) (hd : c.disable = false) {n : Nat}
    (hpn : r.cacheProtectedLen ≤ n) (hnc : n ≤ r.kvCommittedLen) :
    Kept (c.insert (c.reqParams r (r.tokens.take n))).2 locks kv ∧
      ReqInserted c kv r n (c.insert (c.reqParams r (r.tokens.take n))).1
        (c.insert (c.reqParams r (r.tokens.take n))).2 := by
  obtain ⟨live, rp, pv, h⟩ := hk.toHeld.wf
  have hin := hr.insert hk.faithful h hd hpn hnc
  exact ⟨⟨hk.toHeld.insert _, hin.faithful⟩, hin⟩

end

/-! ### A request that goes on -/

/-- What `cache_unfinished_req` does with the slots of a request. -/
structure ReqCached (c : RadixCache) (locks : List NodeId) (kv : Index → Option Content)
    (r : RunningReq) (freed : List Index) (r' : RunningReq) (c' : RadixCache) : Prop
    extends Carries c c' where
  kept : Kept c' (r'.lastNode :: locks) kv
  req : ReqOk c' kv r'
  ledger : (freed : Multiset Index) + c'.sum heldIndices + (r'.owned : Multiset Index) =
    c.sum heldIndices + (r.owned : Multiset Index)
  /-- The request is now protected up to its last whole page, and has the slots of all. -/
  cached : c.disable = false → r'.cacheProtectedLen = c.wholePages r.fillIds.length ∧
    r'.prefixIndices = r'.row.upTo r.fillIds.length
  tokens : r'.tokens = r.tokens
  extraKey : r'.extraKey = r.extraKey

section

variable {m : MatchResult} (hpre : r.row.upTo r.cacheProtectedLen <+: m.deviceIndices)
  (hle : m.deviceIndices.length ≤ r.fillIds.length)
include hpre hle

/-- Afterwards `prefix_indices` is the row up to the filled length. -/
theorem prefixIndices_setCached :
    (r.setCached m).prefixIndices = (r.setCached m).row.upTo r.fillIds.length := by
  show (if m.deviceIndices.length < (r.row.upTo r.fillIds.length).length then
    m.deviceIndices ++ (r.row.upTo r.fillIds.length).drop m.deviceIndices.length
      else m.deviceIndices) = _
  have hrow := Row.upTo_splice_append hpre hle
  rw [Row.length_upTo]
  by_cases hlt : m.deviceIndices.length < r.fillIds.length
  · rw [if_pos hlt]
    exact hrow.symm
  · have heq : m.deviceIndices.length = r.fillIds.length := by omega
    rw [if_neg hlt, ← heq]
    exact (Row.upTo_splice hpre).symm

/-- **The request after its first tokens were cached and matched.** -/
theorem ReqOk.setCached (hr : ReqOk c kv r) (hl : Later c c') (hd : c.disable = false)
    (h' : WF c' live' rp' pv') (hf : Faithful c' kv)
    (hat : CachedAt c' m.lastDeviceNode ((r.key m.deviceIndices.length).symbols c.pageSize)
      m.deviceIndices) (hdvd : c.pageSize ∣ m.deviceIndices.length) :
    ReqOk c' kv (r.setCached m) := by
  have hindices := prefixIndices_setCached hpre hle
  have hlc := hle.trans hr.fill_le
  rw [← hl.pageSize] at hat hdvd
  refine ⟨?_, hdvd, fun hd' => ?_, hle, hr.fill, hr.fill_le, hr.committed_le, ?_, ?_, ?_⟩
  · have hrow : (r.setCached m).row.upTo m.deviceIndices.length = m.deviceIndices :=
      Row.upTo_splice hpre
    have hat : CachedAt c' m.lastDeviceNode ((r.key m.deviceIndices.length).symbols c'.pageSize)
        ((r.setCached m).row.upTo m.deviceIndices.length) := by rw [hrow]; exact hat
    exact hat
  · rw [hl.disable, hd] at hd'
    exact Bool.noConfusion hd'
  · rw [hindices, Row.length_upTo]
    exact hr.fill_le
  · rw [hindices, Row.length_upTo]
  · have hrow : (r.setCached m).row.upTo r.kvCommittedLen =
        m.deviceIndices ++ (r.row.upTo r.kvCommittedLen).drop m.deviceIndices.length :=
      Row.upTo_splice_append hpre hlc
    have hread := (hf.reads h'.pageSize_pos hat).append (hr.reads.drop m.deviceIndices.length)
    rw [← RunningReq.take_key r hlc, RadixKey.entries_take, List.take_append_drop] at hread
    have hread : Reads kv ((r.setCached m).row.upTo r.kvCommittedLen)
        (r.key r.kvCommittedLen).entries := by rw [hrow]; exact hread
    exact hread

end

/-- **The assertion of `cache_unfinished_req` holds**, and every slot is accounted for. -/
theorem Kept.cacheUnfinishedReq {locks : List NodeId} (hk : Kept c (r.lastNode :: locks) kv)
    (hr : ReqOk c kv r) :
    ∃ freed r' c', c.cacheUnfinishedReq r = some (freed, r', c') ∧
      ReqCached c locks kv r freed r' c' := by
  by_cases hd : c.disable = true
  · refine ⟨[], r, c, ?_, ⟨⟨Later.refl c, fun _ _ _ hc => hc⟩, hk, hr, ?_, fun hd' => ?_, rfl, rfl⟩⟩
    · unfold RadixCache.cacheUnfinishedReq
      rw [if_pos hd]
    · exact congrArg (· + (r.owned : Multiset Index)) (Multiset.zero_add _)
    · rw [hd] at hd'
      exact Bool.noConfusion hd'
  · have hdf : c.disable = false := by simpa using hd
    have hFt := hr.fill_le.trans hr.committed_le
    have hLF := c.wholePages_le r.fillIds.length
    obtain ⟨hk1, hin⟩ := hk.insertReq hr hdf hr.protected_le hr.fill_le
    rw [← hr.fill] at hk1 hin
    have hkeys : (⟨c.pageAlignKeys r.fillIds, r.extraKey⟩ : RadixKey) =
        r.key (c.wholePages r.fillIds.length) := by
      have halign := c.pageAlignKeys_take (r := r) hFt
      rw [← hr.fill] at halign
      rw [halign]
      rfl
    set L := c.wholePages r.fillIds.length with hL
    set c1 := (c.insert (c.reqParams r r.fillIds)).2 with hc1
    set T := (c.insert (c.reqParams r r.fillIds)).1 with hT
    have hLlen : (r.key L).length = L := RunningReq.length_key (hLF.trans hFt)
    -- the match after the insertion finds all of it
    obtain ⟨live1, rp1, pv1, h1⟩ := hk1.wf
    have hdvd : c.pageSize ∣ L := Nat.dvd_mul_right _ _
    have hwhole : (c.insert (c.reqParams r r.fillIds)).2.pageSize ∣ (r.key L).length := by
      rw [hLlen, hin.pageSize]
      exact hdvd
    obtain ⟨hlen, hat⟩ := h1.matchPrefix_whole (hin.disable.trans hdf) hwhole
      (by rw [hin.pageSize]; exact hin.holds)
    obtain ⟨hk2, hsame2⟩ := hk1.matchPrefixWith true (r.key L)
    rw [hLlen] at hlen
    rw [hin.pageSize] at hat
    -- the locks
    obtain ⟨live2, rp2, pv2, h2⟩ := hk2.wf
    have hanchor := hsame2.cachedAt _ _ _ (hin.cachedAt _ _ _ hr.anchored)
    obtain ⟨hk3, hsame3⟩ := hk2.decLockRef (h2.inTree_of_cachedAt hanchor) List.mem_cons_self
    rw [List.erase_cons_head] at hk3
    obtain ⟨live3, rp3, pv3, h3⟩ := hk3.wf
    obtain ⟨hk4, hsame4⟩ := hk3.incLockRef (h3.inTree_of_cachedAt (hsame3.cachedAt _ _ _ hat))
    obtain ⟨live4, rp4, pv4, h4⟩ := hk4.wf
    have hsame := (hsame2.trans hsame3).trans hsame4
    have hcarry := hin.toCarries.trans hsame.toCarries
    -- what was locked begins what is matched
    have hpre : r.row.upTo r.cacheProtectedLen <+:
        (c1.matchPrefix (r.key L)).1.deviceIndices := by
      refine h2.cachedAt_prefix hanchor hat ?_
      obtain ⟨j, hj⟩ := hr.aligned
      have htake := RadixKey.symbols_take h1.pageSize_pos (r.key L) j
      rw [hin.pageSize, ← hj, RunningReq.take_key r (hin.protected_le.trans hin.le)] at htake
      rw [htake]
      exact List.take_prefix _ _
    have hle : (c1.matchPrefix (r.key L)).1.deviceIndices.length ≤ r.fillIds.length := by
      rw [hlen]
      exact hLF
    refine ⟨slice (r.row.upTo r.fillIds.length) r.cacheProtectedLen T,
      r.setCached (c1.matchPrefix (r.key L)).1, _, ?_, ⟨hcarry, hk4, ?_, ?_,
        fun _ => ⟨hlen, prefixIndices_setCached hpre hle⟩, rfl, rfl⟩⟩
    · unfold RadixCache.cacheUnfinishedReq
      rw [if_neg hd]
      simp only [hkeys, ← hc1, ← hT]
      rw [if_pos]
      · rfl
      · rw [hlen]
        exact hLlen.symm.trans (congrArg RadixKey.length hkeys.symm)
    · refine hr.setCached hpre hle hcarry.toLater hdf h4 hk4.faithful ?_ (by rw [hlen]; exact hdvd)
      rw [hlen]
      exact hsame4.cachedAt _ _ _ (hsame3.cachedAt _ _ _ hat)
    · have howned : (r.setCached (c1.matchPrefix (r.key L)).1).owned =
          (r.row.upTo r.kvCommittedLen).drop L :=
        (Row.drop_upTo_splice hpre r.kvCommittedLen).trans
          (congrArg (fun n => (r.row.upTo r.kvCommittedLen).drop n) hlen)
      have hslice : slice (r.row.upTo r.fillIds.length) r.cacheProtectedLen T =
          slice (r.row.upTo r.kvCommittedLen) r.cacheProtectedLen T := by
        unfold slice
        have hTF := hin.le.trans hLF
        rw [Row.take_upTo, Row.take_upTo, Nat.min_eq_left hTF,
          Nat.min_eq_left (hTF.trans hr.fill_le)]
      rw [howned, hslice, hsame.sum, hin.sum]
      unfold RunningReq.owned
      rw [← slice_append_drop _ (hin.protected_le.trans hin.le),
        ← slice_append _ hin.protected_le hin.le, ← Multiset.coe_add, ← Multiset.coe_add]
      abel

/-! ### A request that finishes -/

/-- What `cache_finished_req` does with the slots of a request. -/
structure ReqReleased (c : RadixCache) (locks : List NodeId) (kv : Index → Option Content)
    (r : RunningReq) (freed : List Index) (c' : RadixCache) : Prop extends Carries c c' where
  kept : Kept c' locks kv
  ledger : (freed : Multiset Index) + c'.sum heldIndices =
    c.sum heldIndices + (r.owned : Multiset Index)

/-- **A request that finishes gives up every slot it owned**, to the tree or to the allocator. -/
theorem Kept.cacheFinishedReq {locks : List NodeId} (hk : Kept c (r.lastNode :: locks) kv)
    (hr : ReqOk c kv r) (disableFinishedInsert isInsert : Bool) :
    ReqReleased c locks kv r (c.cacheFinishedReq disableFinishedInsert r isInsert).1
      (c.cacheFinishedReq disableFinishedInsert r isInsert).2 := by
  have hlen : (r.tokens.take r.kvCommittedLen).length = r.kvCommittedLen := by
    rw [List.length_take, Nat.min_eq_left hr.committed_le]
  have hunlock : ∀ {c1 : RadixCache}, Kept c1 (r.lastNode :: locks) kv → Carries c c1 →
      Kept (c1.decLockRef r.lastNode) locks kv ∧ Same c1 (c1.decLockRef r.lastNode) := by
    intro c1 hk1 hcarry
    obtain ⟨live1, rp1, pv1, h1⟩ := hk1.wf
    have hin := h1.inTree_of_cachedAt (hcarry.cachedAt _ _ _ hr.anchored)
    obtain ⟨hk2, hsame⟩ := hk1.decLockRef hin List.mem_cons_self
    rw [List.erase_cons_head] at hk2
    exact ⟨hk2, hsame⟩
  unfold RadixCache.cacheFinishedReq
  by_cases hd : c.disable = true
  · -- nothing is cached, and all slots are the request's own
    rw [if_pos hd]
    obtain ⟨live, rp, pv, h⟩ := hk.toHeld.wf
    have howned : r.owned = r.row.upTo r.kvCommittedLen := by
      unfold RunningReq.owned
      rw [hr.off hd, List.drop_zero]
    refine ⟨⟨Later.refl c, fun _ _ _ hc => hc⟩, ⟨⟨⟨live, rp, pv, h, fun hd' => ?_⟩,
      hk.measured⟩, hk.faithful⟩, by rw [howned, add_comm]⟩
    have hd' : c.disable = false := hd'
    rw [hd] at hd'
    exact Bool.noConfusion hd'
  · have hdf : c.disable = false := by simpa using hd
    have hpl := le_wholePages hr.aligned hr.protected_le_committed
    have hkeys : (c.pageAlignKeys (r.tokens.take r.kvCommittedLen)).length =
        c.wholePages r.kvCommittedLen := by
      rw [c.pageAlignKeys_take hr.committed_le, List.length_take,
        Nat.min_eq_left ((c.wholePages_le _).trans hr.committed_le)]
    rw [if_neg hd]
    simp only [hlen, hkeys]
    generalize (if disableFinishedInsert = true then false else isInsert) = b
    cases b with
    | true =>
        obtain ⟨hk1, hin⟩ := hk.insertReq hr hdf hr.protected_le_committed (Nat.le_refl _)
        obtain ⟨hk2, hsame⟩ := hunlock hk1 hin.toCarries
        refine ⟨hin.toCarries.trans hsame.toCarries, hk2, ?_⟩
        simp only [if_true]
        rw [hsame.sum, hin.sum]
        unfold RunningReq.owned
        rw [← slice_append_drop _ hpl, ← slice_append _ hin.protected_le hin.le,
          ← Multiset.coe_add, ← Multiset.coe_add, ← Multiset.coe_add]
        abel
    | false =>
        obtain ⟨hk2, hsame⟩ := hunlock hk ⟨Later.refl c, fun _ _ _ hc => hc⟩
        refine ⟨hsame.toCarries, hk2, ?_⟩
        simp only [Bool.false_eq_true, if_false]
        rw [hsame.sum]
        unfold RunningReq.owned
        rw [slice_append_drop _ hpl, add_comm]

end RadixCache

end Peek
