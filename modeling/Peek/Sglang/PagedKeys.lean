/-
Keys that fill pages.

Who inserts whole pages only has a tree whose nodes hold whole pages: a walk cuts a node between
two of its pages, and what hangs under a node begins where one of its pages ends.  So what can be
evicted is a number of pages as well.
-/
import Peek.Sglang.LockedSizes
import Mathlib.Algebra.BigOperators.Ring.Finset

namespace Peek

open Radix

namespace RadixCache

variable {c c' : RadixCache} {live live' : Set NodeId} {rp rp' : NodeId → List ChildKey}
  {pv pv' : NodeId → List Index}

/-- The nodes of the tree hold whole pages. -/
def Paged (c : RadixCache) : Prop := ∀ n, c.InTree n → c.pageSize ∣ (c.node n).key.length

theorem paged_new {pageSize : Nat} (hps : 0 < pageSize) (disable : Bool) :
    Paged (new pageSize disable) := by
  intro n hn
  have hn : n = rootNode := (new_wf hps disable).inTree_iff.mp hn
  rw [hn]
  exact Nat.dvd_zero _

/-- The same keys on the same nodes, or on fewer. -/
theorem Paged.of_sub (hp : Paged c) (hps : c'.pageSize = c.pageSize)
    (hsub : ∀ n, c'.InTree n → c.InTree n) (hkey : ∀ n, (c'.node n).key = (c.node n).key) :
    Paged c' := by
  intro n hn
  rw [hps, hkey]
  exact hp n (hsub n hn)

theorem Paged.sameShape (hp : Paged c) (hs : SameShape c c') : Paged c' :=
  hp.of_sub hs.pageSize (fun n => (hs.inTree_iff n).mp) hs.key

theorem Paged.sameTree (hp : Paged c) (h : WF c live rp pv) (hs : SameTree c c') : Paged c' :=
  hp.of_sub hs.pageSize
    (fun _ hn => h.inTree_iff.mpr ((h.sameTree hs).inTree_iff.mp hn)) hs.key

/-! ### Cuts -/

theorem Paged.cut (hp : Paged c) (hcut : Cut c c') (h : WF c live rp pv) : Paged c' := by
  cases hcut with
  | tick k => exact hp.sameTree h (sameTree_tick c k)
  | touch j hf => exact hp.sameTree h (sameTree_nodeMut c j hf)
  | @split live0 rp0 pv0 h0 ch hch hr l hl hlt =>
      rw [h0.live_eq h] at hch
      have hs := splitNode_isSplit h hch hr (c.pageSize * l)
      have hwf := (hs.splitOnly h hch hr hl hlt).wf
      have hlt := (RadixKey.lt_length_symbols_iff h.pageSize_pos).mp hlt
      have hlen := hp ch (h.inTree_iff.mpr hch)
      intro n hn
      rw [hs.pageSize]
      rcases hwf.inTree_iff.mp hn with rfl | hn
      · rw [hs.newKey, RadixKey.length_take, Nat.min_eq_left hlt.le]
        exact Nat.dvd_mul_right _ _
      · by_cases hnc : n = ch
        · rw [hnc, hs.nodeAt]
          rw [RadixKey.length_drop]
          exact Nat.dvd_sub hlen (Nat.dvd_mul_right _ _)
        · rw [(hs.old_fields hn hnc).1]
          exact hp n (h.inTree_iff.mpr hn)

theorem Paged.cuts (hp : Paged c) (hcuts : Cuts c c') (h : WF c live rp pv) : Paged c' := by
  induction hcuts with
  | refl => exact hp
  | tail hcuts hcut ih =>
      obtain ⟨live1, rp1, pv1, hgrow⟩ := Cuts.splitOnly hcuts h
      exact ih.cut hcut hgrow.wf

theorem Paged.matchPrefixWith (hp : Paged c) (h : WF c live rp pv) (updateLru : Bool)
    (key : RadixKey) : Paged (c.matchPrefixWith updateLru key).2 :=
  hp.cuts (matchPrefixWith_cuts h updateLru key) h

/-! ### The other calls -/

/-- **Inserting whole pages.** -/
theorem Paged.insert (hp : Paged c) (h : WF c live rp pv) {params : InsertParams}
    (hdvd : c.pageSize ∣ params.key.length) : Paged (c.insert params).2 := by
  by_cases hd : c.disable = true
  · unfold RadixCache.insert
    rw [if_pos hd]
    exact hp
  · obtain ⟨c1, x, live1, rp1, pv1, k, hcuts, hgrow, hwalk, hkey, -, hfree, htotal, -, hend⟩ :=
      insert_cases h (by simpa using hd) params
    have hp1 := hp.cuts hcuts h
    rw [hend]
    by_cases hpos : x.key.length > 0
    · rw [if_pos hpos]
      rw [← hgrow.pageSize] at hwalk hfree
      obtain ⟨rp', pv', hwf, -⟩ := addLeaf_wf hgrow.wf hwalk hpos hfree params.priority
      have hs := linkLeaf_isLinked hgrow.wf hwalk.live params.priority
      intro n hn
      unfold addLeaf
      rw [node_updateLeafStatus, node_updateLeafStatus, pageSize_updateLeafStatus,
        pageSize_updateLeafStatus, hs.pageSize]
      rcases hwf.inTree_iff.mp hn with rfl | hn
      · rw [hs.newKey, hkey, RadixKey.length_drop, hgrow.pageSize, htotal hdvd]
        exact Nat.dvd_sub hdvd (Nat.dvd_mul_right _ _)
      · have hold : ((c1.linkLeaf x params.priority).node n).key = (c1.node n).key := by
          by_cases hnx : n = x.node
          · rw [hnx, hs.nodeAt]
          · rw [hs.nodeOld n hn hnx]
        rw [hold]
        exact hp1 n (hgrow.wf.inTree_iff.mpr hn)
    · rw [if_neg hpos]
      exact hp1

theorem Paged.evict (hp : Paged c) (h : WF c live rp pv) (hl : LeavesExact c live)
    (e : EvictionHeap) (numTokens : Nat) : Paged (c.evict e numTokens).2 := by
  obtain ⟨live', hsub, hwf, -, hev⟩ := evict_evicted h hl e numTokens
  exact hp.of_sub (later_evict c e numTokens).pageSize
    (fun n hn => h.inTree_iff.mpr (hsub (hwf.inTree_iff.mp hn))) fun n => (hev.fields n).1

/-- **What can be evicted is a number of pages.** -/
theorem Paged.dvd_evictableSize (hp : Paged c) (h : WF c live rp pv) (hs : SizesExact c) :
    (c.pageSize : Int) ∣ c.evictableSize := by
  rw [hs.evictable, Int.natCast_dvd_natCast]
  unfold sum CellSum.total
  refine Finset.dvd_sum fun n hn => ?_
  show c.pageSize ∣ if 0 < (c.node n).lockRef then 0 else (c.node n).key.length
  split
  · exact Nat.dvd_zero _
  · exact hp n (h.inTree_iff.mpr (h.mem_tree.mp hn))

end RadixCache

end Peek
