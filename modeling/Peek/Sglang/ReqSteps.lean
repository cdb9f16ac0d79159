/-
What one step of the server does to one running request, and to the cache under it.

A prefill or a decoding step computes into slots no request reads yet, so the rows of the others
stay as they are.  An admitted request begins with what its match found.  An eviction takes
nothing on the path of a locked node, and counting references touches nothing at all.
-/
import Peek.Sglang.ReqSlots

namespace Peek

open Radix Cells

namespace RunningReq

variable {r : RunningReq} {slots : List Index}

theorem length_nextEntries (h : r.kvCommittedLen + slots.length ≤ r.tokens.length) :
    (r.nextEntries slots.length).length = slots.length := by
  unfold nextEntries
  rw [List.length_drop, RadixKey.length_entries, length_key h]
  omega

/-- New slots are the request's own. -/
theorem owned_compute (h : r.cacheProtectedLen ≤ r.kvCommittedLen) :
    (r.compute slots).owned = r.owned ++ slots := by
  show ((r.row.write r.kvCommittedLen slots).upTo (r.kvCommittedLen + slots.length)).drop
    r.cacheProtectedLen = _
  rw [Row.upTo_write, List.drop_append_of_le_length (by rw [Row.length_upTo]; exact h)]
  rfl

end RunningReq

namespace RadixCache

variable {c c' : RadixCache} {live live' : Set NodeId} {rp rp' : NodeId → List ChildKey}
  {pv pv' : NodeId → List Index} {kv kv' : Index → Option Content} {r : RunningReq}
  {locks refs : List NodeId}

/-! ### Computing -/

section

variable {slots : List Index} (hr : ReqOk c kv r) (hnd : slots.Nodup)
  (hle : r.kvCommittedLen + slots.length ≤ r.tokens.length)
  (hapart : ∀ i ∈ r.row.upTo r.kvCommittedLen, i ∉ slots)
include hr hnd hle hapart

/-- What is computed into free slots is what belongs there. -/
theorem ReqOk.compute :
    ReqOk c (Cells.write kv slots (r.nextEntries slots.length)) (r.compute slots) := by
  have hold : ∀ n ≤ r.kvCommittedLen, (r.compute slots).row.upTo n = r.row.upTo n := fun n hn =>
    Row.upTo_write_of_le hn
  have hpl := hr.protected_le_committed
  refine ⟨?_, hr.aligned, hr.off, hr.protected_le, hr.fill,
    hr.fill_le.trans (Nat.le_add_right _ _), hle, hr.prefix_le.trans (Nat.le_add_right _ _), ?_, ?_⟩
  · have hat := hr.anchored
    rw [← hold _ hpl] at hat
    exact hat
  · have hindices := hr.prefixIndices
    rw [← hold _ hr.prefix_le] at hindices
    exact hindices
  · have hkeep : Reads (Cells.write kv slots (r.nextEntries slots.length))
        (r.row.upTo r.kvCommittedLen) (r.key r.kvCommittedLen).entries :=
      hr.reads.congr fun i hi => write_of_notMem (hapart i hi)
    have hwrite : Reads (Cells.write kv slots (r.nextEntries slots.length)) slots
        (r.nextEntries slots.length) := reads_write hnd (RunningReq.length_nextEntries hle).symm
    have hnew := hkeep.append hwrite
    rw [← RunningReq.take_key r (Nat.le_add_right r.kvCommittedLen slots.length),
      RadixKey.entries_take, RunningReq.nextEntries, List.take_append_drop, ← Row.upTo_write]
      at hnew
    exact hnew

theorem ReqOk.extend :
    ReqOk c (Cells.write kv slots (r.nextEntries slots.length)) (r.extend slots) := by
  have hnew := hr.compute hnd hle hapart
  have hfill : (r.extend slots).fillIds.length = r.kvCommittedLen + slots.length := by
    show (r.tokens.take (r.kvCommittedLen + slots.length)).length = _
    rw [List.length_take, Nat.min_eq_left hle]
  refine ⟨hnew.anchored, hnew.aligned, hnew.off, ?_, ?_, ?_, hnew.committed_le, hnew.prefix_le,
    hnew.prefixIndices, hnew.reads⟩
  · rw [hfill]
    exact hr.protected_le_committed.trans (Nat.le_add_right _ _)
  · rw [hfill]
    rfl
  · rw [hfill]
    exact Nat.le_refl _

end

/-- A sampled token comes after all that is cached or computed. -/
theorem ReqOk.sample (hr : ReqOk c kv r) (t : Token) : ReqOk c kv (r.sample t) := by
  have htokens : (r.sample t).tokens = r.tokens ++ [t] := (List.append_assoc _ _ _).symm
  have htake : ∀ n ≤ r.tokens.length, (r.sample t).tokens.take n = r.tokens.take n := fun n hn => by
    rw [htokens, List.take_append_of_le_length hn]
  have hkey : ∀ n ≤ r.tokens.length, (r.sample t).key n = r.key n := fun n hn =>
    congrArg (fun ids => (⟨ids, r.extraKey⟩ : RadixKey)) (htake n hn)
  have hct := hr.committed_le
  refine ⟨?_, hr.aligned, hr.off, hr.protected_le, ?_, hr.fill_le, ?_, hr.prefix_le,
    hr.prefixIndices, ?_⟩
  · have hat := hr.anchored
    rw [← hkey _ (hr.protected_le_committed.trans hct)] at hat
    exact hat
  · have hfill := hr.fill
    rw [← htake _ (hr.fill_le.trans hct)] at hfill
    exact hfill
  · rw [htokens, List.length_append]
    exact hct.trans (Nat.le_add_right _ _)
  · have hread := hr.reads
    rw [← hkey _ hct] at hread
    exact hread

/-! ### Admitting -/

theorem upTo_getD (indices : List Index) :
    Row.upTo (fun j => indices.getD j 0) indices.length = indices := by
  refine List.ext_getElem? fun j => ?_
  rw [Row.getElem?_upTo, List.getD_eq_getElem?_getD]
  by_cases hj : j < indices.length
  · rw [if_pos hj, List.getElem?_eq_getElem hj]
    rfl
  · rw [if_neg hj, List.getElem?_eq_none (by omega)]

/-- **An admitted request** has what its match found. -/
theorem Kept.schedule (hk : Kept c locks kv) (originInputIds outputIds : List Token)
    (extraKey : Option ExtraKey) (priority : Option Int) (n : Nat) :
    let m := (c.matchPrefix ⟨(originInputIds ++ outputIds).take n, extraKey⟩).1
    let c1 := (c.matchPrefix ⟨(originInputIds ++ outputIds).take n, extraKey⟩).2
    Kept (c1.incLockRef m.lastDeviceNode) (m.lastDeviceNode :: locks) kv ∧
      Same c (c1.incLockRef m.lastDeviceNode) ∧
      ReqOk (c1.incLockRef m.lastDeviceNode) kv
        (.scheduled originInputIds outputIds extraKey priority m) := by
  intro m c1
  set key : RadixKey := ⟨(originInputIds ++ outputIds).take n, extraKey⟩ with hkey
  obtain ⟨hk1, hsame1⟩ : Kept c1 locks kv ∧ Same c c1 := hk.matchPrefixWith true key
  obtain ⟨live, rp, pv, h⟩ := hk.toHeld.wf
  obtain ⟨live1, rp1, pv1, h1⟩ := hk1.toHeld.wf
  obtain ⟨k, hlen, hle, hat, hoff, -⟩ :=
    (Sound.longestMatch ⟨live, rp, pv, h⟩ true key).pages h1
  have hlen : m.deviceIndices.length = c1.pageSize * k := hlen
  have hle : c1.pageSize * k ≤ key.length := hle
  have hat : CachedAt c1 m.lastDeviceNode ((key.take (c1.pageSize * k)).symbols c1.pageSize)
    m.deviceIndices := hat
  obtain ⟨hk2, hsame2⟩ := hk1.incLockRef (h1.inTree_of_cachedAt hat)
  refine ⟨hk2, hsame1.trans hsame2, ?_⟩
  set r : RunningReq := .scheduled originInputIds outputIds extraKey priority m with hr
  have hkeylen : key.length = min n (originInputIds ++ outputIds).length := List.length_take
  rw [hkeylen] at hle
  have hrow : r.row.upTo m.deviceIndices.length = m.deviceIndices := upTo_getD m.deviceIndices
  have hmt : m.deviceIndices.length ≤ r.tokens.length := by
    rw [hlen]
    exact hle.trans (Nat.min_le_right _ _)
  have hrkey : r.key m.deviceIndices.length = key.take (c1.pageSize * k) := by
    rw [hlen]
    show (⟨r.tokens.take (c1.pageSize * k), extraKey⟩ : RadixKey) = ⟨key.tokenIds.take _, extraKey⟩
    rw [hkey, List.take_take, Nat.min_eq_left (hle.trans (Nat.min_le_left _ _))]
    rfl
  have hfill : r.fillIds.length = m.deviceIndices.length := by
    show ((originInputIds ++ outputIds).take m.deviceIndices.length).length = _
    rw [List.length_take]
    exact Nat.min_eq_left hmt
  have hat2 := hsame2.cachedAt _ _ _ hat
  rw [← hrkey, ← hsame2.pageSize] at hat2
  refine ⟨?_, ?_, fun hd => ?_, ?_, ?_, ?_, hmt, Nat.le_refl _, hrow.symm, ?_⟩
  · have hat3 : CachedAt (c1.incLockRef m.lastDeviceNode) m.lastDeviceNode
        ((r.key m.deviceIndices.length).symbols (c1.incLockRef m.lastDeviceNode).pageSize)
        (r.row.upTo m.deviceIndices.length) := by rw [hrow]; exact hat2
    exact hat3
  · rw [hsame2.pageSize]
    exact ⟨k, hlen⟩
  · rw [hsame2.disable] at hd
    show m.deviceIndices.length = 0
    rw [hlen, hoff hd, Nat.mul_zero]
  · exact hfill.ge
  · rw [hfill]
    rfl
  · exact hfill.le
  · have hread := hk2.faithful.reads (by rw [hsame2.pageSize]; exact h1.pageSize_pos) hat2
    have hread2 : Reads kv (r.row.upTo m.deviceIndices.length)
        (r.key m.deviceIndices.length).entries := by rw [hrow]; exact hread
    exact hread2

/-! ### Evicting -/

theorem Kept.evict (hk : Kept c locks kv) (e : EvictionHeap) (numTokens : Nat) :
    Kept (c.evict e numTokens).2 locks kv ∧ Later c (c.evict e numTokens).2 ∧
      ((c.evict e numTokens).1 : Multiset Index) + (c.evict e numTokens).2.sum heldIndices =
        c.sum heldIndices ∧
      ∀ n ∈ locks, ∀ p value, CachedAt c n p value →
        CachedAt (c.evict e numTokens).2 n p value := by
  have hlater := later_evict c e numTokens
  by_cases hd : c.disable = true
  · have heq : c.evict e numTokens = ([], c) := by
      unfold RadixCache.evict
      rw [if_pos hd]
    rw [heq]
    exact ⟨hk, Later.refl c, Multiset.zero_add _, fun _ _ _ _ hc => hc⟩
  · obtain ⟨live, rp, pv, h, hb⟩ := id hk.held
    obtain ⟨refs, hb⟩ := hb (by simpa using hd)
    obtain ⟨live', hsub, hwf, -, hev⟩ := evict_evicted h hb.leaves e numTokens
    refine ⟨⟨hk.toHeld.evict e numTokens, hk.faithful.of_sub h hwf hlater.pageSize hsub⟩, hlater,
      hev.indices, fun n hl p value hc => ?_⟩
    obtain ⟨hn, hp, hv⟩ := h.cachedAt_iff.mp hc
    exact hwf.cachedAt_iff.mpr
      ⟨hwf.inTree_iff.mp (hk.inTree_evict e numTokens (h.inTree_iff.mpr hn) hl), hp, hv⟩

/-- With no locks nothing is protected, and all that is held is evictable. -/
theorem Kept.unlocked (hk : Kept c [] kv) (hd : c.disable = false) :
    c.protectedSize = 0 ∧ ((c.sum heldIndices).card : Int) = c.evictableSize := by
  obtain ⟨live, rp, pv, h, hb⟩ := hk.held
  obtain ⟨refs, hb⟩ := hb hd
  obtain ⟨_, _, _, -, -, hs⟩ := hk.measured
  have hnone : c.sum protectedTokens = 0 := by
    unfold sum CellSum.total
    refine Finset.sum_eq_zero fun n hn => ?_
    have hn := h.mem_tree.mp hn
    show (if 0 < (c.node n).lockRef then (c.node n).key.length else 0) = 0
    by_cases hr : n = rootNode
    · rw [hr]
      unfold RadixKey.length
      rw [h.root_empty.1]
      exact ite_self 0
    · have hlock : (c.node n).lockRef = 0 := hb.locks.count n hn hr
      rw [hlock]
      rfl
  have hzero : c.protectedSize = 0 := by
    rw [hs.guarded, hnone]
    rfl
  refine ⟨hzero, ?_⟩
  rw [hs.card_held h, hzero, Int.add_zero]

/-- Counting references changes nothing of what matters here. -/
theorem Kept.countOnly (hk : Kept c locks kv) (hc : CountOnly c c')
    (hheld : HeldCache.Inv ⟨c', locks⟩) : Kept c' locks kv ∧ Same c c' := by
  obtain ⟨live, rp, pv, h⟩ := hk.toHeld.wf
  have hwf := h.sameTree hc.toSameTree
  have hlater : Later c c' := ⟨hc.size.ge, hc.pageSize, hc.sameDisable⟩
  exact ⟨⟨⟨hheld, hk.measured.countOnly hc⟩, hk.faithful.of_sub h hwf hc.pageSize fun _ hm => hm⟩,
    carries_of_wf h hwf hlater, sum_heldIndices_eq h hwf hc.value⟩

end RadixCache

end Peek
