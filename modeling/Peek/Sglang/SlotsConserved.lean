/-
No slot is lost, freed twice or shared by mistake, in any run of the server.

At every moment each slot of the pool is in one place: it is free, or some node of the tree holds
it, or one running request owns it (`slots_conserved`).  And what the slots hold is what those
who read them need: the row of every running request, and whatever a match hands out, has the
key-value pairs of the request's own namespace and tokens (`rows_hold_tokens`).  Both rest on one
invariant, which goes through the steps one at a time.
-/
import Peek.Sglang.ReqSteps

namespace Peek

open Radix Cells

namespace Server

open RadixCache

variable {s s' : Server} {pool : List Index} {before after : List RunningReq} {r r' : RunningReq}

/-! ### The invariant -/

/-- The nodes the running requests have locked. -/
def locks (s : Server) : List NodeId := s.running.map (·.lastNode)

/-- **Every slot of the pool is in one place, and holds what it should.** -/
structure Inv (pool : List Index) (s : Server) : Prop where
  kept : Kept s.cache s.locks s.kv
  reqs : ∀ r ∈ s.running, ReqOk s.cache s.kv r
  ledger : (s.free : Multiset Index) + s.cache.sum heldIndices + (s.owned : Multiset Index) =
    (pool : Multiset Index)

theorem new_inv {pageSize : Nat} (hps : 0 < pageSize) (disable disableFinishedInsert : Bool)
    (pool : List Index) : Inv pool (new pageSize disable disableFinishedInsert pool) where
  kept := ⟨⟨HeldCache.new_inv hps disable, measured_new hps disable⟩, faithful_new hps disable _⟩
  reqs r hr := by simp [new] at hr
  ledger := by
    have hwf := new_wf hps disable
    have hempty : (RadixCache.new pageSize disable).sum heldIndices = 0 := by
      have hflat : (RadixCache.new pageSize disable).allValuesFlatten = [] := rfl
      rw [← hwf.allValuesFlatten, hflat]
      rfl
    show (pool : Multiset Index) + (RadixCache.new pageSize disable).sum heldIndices +
      (([] : List Index) : Multiset Index) = _
    rw [hempty, Multiset.add_zero, Multiset.coe_nil, Multiset.add_zero]

theorem locks_split (hr : s.running = before ++ r :: after) :
    s.locks.Perm (r.lastNode :: (before ++ after).map (·.lastNode)) := by
  unfold locks
  rw [hr]
  exact (List.perm_middle.map _)

theorem owned_split (hr : s.running = before ++ r :: after) :
    (s.owned : Multiset Index) =
      (r.owned : Multiset Index) +
        ((before ++ after).flatMap RunningReq.owned : Multiset Index) := by
  unfold owned
  rw [hr, Multiset.coe_add, Multiset.coe_eq_coe]
  exact List.perm_middle.flatMap_right _

/-- Free slots are apart from all others. -/
theorem Inv.free_apart (h : Inv pool s) (hnd : pool.Nodup) {i : Index} (hi : i ∈ s.free) :
    i ∉ s.cache.sum heldIndices ∧ i ∉ s.owned := by
  have hnd : ((s.free : Multiset Index) + s.cache.sum heldIndices +
      (s.owned : Multiset Index)).Nodup := by
    rw [h.ledger]
    exact hnd
  rw [Multiset.nodup_add] at hnd
  obtain ⟨hleft, -, hapart⟩ := hnd
  rw [Multiset.nodup_add] at hleft
  refine ⟨Multiset.disjoint_left.mp hleft.2.2 hi, fun hown => ?_⟩
  exact Multiset.disjoint_left.mp hapart (Multiset.mem_add.mpr (Or.inl hi)) hown

/-- So no running request uses one. -/
theorem Inv.free_unused (h : Inv pool s) (hnd : pool.Nodup) {i : Index} (hi : i ∈ s.free)
    {q : RunningReq} (hq : q ∈ s.running) : i ∉ q.row.upTo q.kvCommittedLen := by
  obtain ⟨live, rp, pv, hwf⟩ := h.kept.toHeld.wf
  obtain ⟨htree, hown⟩ := h.free_apart hnd hi
  intro hmem
  rcases (h.reqs q hq).mem_row hwf hmem with hmem | hmem
  · exact htree hmem
  · exact hown (List.mem_flatMap.mpr ⟨q, hq, hmem⟩)

theorem Inv.slots_nodup (h : Inv pool s) (hnd : pool.Nodup) {slots rest : List Index}
    (hfree : s.free.Perm (slots ++ rest)) : slots.Nodup := by
  have hall : ((s.free : Multiset Index) + s.cache.sum heldIndices +
      (s.owned : Multiset Index)).Nodup := by
    rw [h.ledger]
    exact hnd
  have hfreeNodup : s.free.Nodup :=
    (Multiset.nodup_add.mp (Multiset.nodup_add.mp hall).1).1
  exact (List.nodup_append.mp (hfree.nodup_iff.mp hfreeNodup)).1

/-! ### One step -/

/-- A call that changes nothing of what the cache holds, for no running request in particular. -/
theorem Inv.same (h : Inv pool s) {c : RadixCache} (hk : Kept c s.locks s.kv)
    (hsame : Same s.cache c) : Inv pool { s with cache := c } where
  kept := hk
  reqs q hq := (h.reqs q hq).later hsame.toLater fun p v hc => hsame.cachedAt _ p v hc
  ledger := by
    show (s.free : Multiset Index) + c.sum heldIndices + _ = _
    rw [hsame.sum]
    exact h.ledger

/-- Slots taken from the free ones are put into a request's row and computed. -/
theorem Inv.computed (h : Inv pool s) (hnd : pool.Nodup) (hr : s.running = before ++ r :: after)
    {slots rest : List Index} (hfree : s.free.Perm (slots ++ rest))
    (hlast : r'.lastNode = r.lastNode) (howned : r'.owned = r.owned ++ slots)
    (hreq : ReqOk s.cache (Cells.write s.kv slots (r.nextEntries slots.length)) r') :
    Inv pool { s with
      free := rest, running := before ++ r' :: after
      kv := Cells.write s.kv slots (r.nextEntries slots.length) } := by
  obtain ⟨live, rp, pv, hwf⟩ := h.kept.toHeld.wf
  have hsub : ∀ i ∈ slots, i ∈ s.free := fun i hi =>
    hfree.mem_iff.mpr (List.mem_append_left _ hi)
  refine ⟨⟨?_, h.kept.faithful.write hwf fun i hi => ?_⟩, fun q hq => ?_, ?_⟩
  · have hlocks : locks { s with
        free := rest, running := before ++ r' :: after
        kv := Cells.write s.kv slots (r.nextEntries slots.length) } = s.locks := by
      unfold locks
      rw [hr]
      simp only [List.map_append, List.map_cons, hlast]
    rw [hlocks]
    exact h.kept.toHeld
  · exact write_of_notMem fun hmem => (h.free_apart hnd (hsub i hmem)).1 hi
  · have hother : ∀ q ∈ s.running, ReqOk s.cache
        (Cells.write s.kv slots (r.nextEntries slots.length)) q := fun q hq =>
      (h.reqs q hq).write fun i hi => write_of_notMem fun hmem =>
        h.free_unused hnd (hsub i hmem) hq hi
    rcases List.mem_append.mp hq with hq | hq
    · exact hother q (by rw [hr]; exact List.mem_append_left _ hq)
    · rcases List.mem_cons.mp hq with rfl | hq
      · exact hreq
      · exact hother q (by rw [hr]; exact List.mem_append_right _ (List.mem_cons_of_mem _ hq))
  · have hsum := h.ledger
    rw [owned_split hr, Multiset.coe_eq_coe.mpr hfree, ← Multiset.coe_add] at hsum
    rw [@owned_split _ before after r' rfl, howned, ← Multiset.coe_add,
      ← hsum]
    show (rest : Multiset Index) + s.cache.sum heldIndices + _ = _
    abel

/-- The requests that are not touched stay as they were. -/
theorem Inv.others (h : Inv pool s) (hr : s.running = before ++ r :: after) {c : RadixCache}
    (hcarry : Carries s.cache c) : ∀ q ∈ before ++ after, ReqOk c s.kv q := by
  intro q hq
  have hmem : q ∈ s.running := by
    rw [hr]
    exact List.perm_middle.mem_iff.mpr (List.mem_cons_of_mem _ hq)
  exact (h.reqs q hmem).later hcarry.toLater fun p v hc => hcarry.cachedAt _ p v hc

theorem Inv.cacheUnfinishedReq (h : Inv pool s) (hr : s.running = before ++ r :: after)
    {freed : List Index} {c : RadixCache}
    (hcache : s.cache.cacheUnfinishedReq r = some (freed, r', c)) :
    Inv pool { s with
      cache := c, free := s.free ++ freed, running := before ++ r' :: after } := by
  have hrun : r ∈ s.running := by rw [hr]; exact List.mem_append_right _ List.mem_cons_self
  obtain ⟨freed0, r0, c0, heq, hout⟩ :=
    (h.kept.perm (locks_split hr)).cacheUnfinishedReq (h.reqs r hrun)
  rw [hcache, Option.some.injEq, Prod.mk.injEq, Prod.mk.injEq] at heq
  obtain ⟨rfl, rfl, rfl⟩ := heq
  refine ⟨hout.kept.perm (@locks_split _ before after r' rfl).symm,
    fun q hq => ?_, ?_⟩
  · rcases List.mem_cons.mp (List.perm_middle.mem_iff.mp hq) with rfl | hq
    · exact hout.req
    · exact h.others hr hout.toCarries q hq
  · have hsum := h.ledger
    have hreq := hout.ledger
    rw [owned_split hr] at hsum
    rw [@owned_split _ before after r' rfl, ← hsum]
    show ((s.free ++ freed : List Index) : Multiset Index) + c.sum heldIndices + _ = _
    rw [← Multiset.coe_add]
    calc (s.free : Multiset Index) + freed + c.sum heldIndices +
          (r'.owned + ((before ++ after).flatMap RunningReq.owned : Multiset Index))
        = s.free + (freed + c.sum heldIndices + r'.owned) +
            ((before ++ after).flatMap RunningReq.owned : Multiset Index) := by abel
      _ = s.free + (s.cache.sum heldIndices + r.owned) +
            ((before ++ after).flatMap RunningReq.owned : Multiset Index) := by rw [hreq]
      _ = _ := by abel

theorem Inv.cacheFinishedReq (h : Inv pool s) (hr : s.running = before ++ r :: after)
    (isInsert : Bool) {freed : List Index} {c : RadixCache}
    (hcache : s.cache.cacheFinishedReq s.disableFinishedInsert r isInsert = (freed, c)) :
    Inv pool { s with cache := c, free := s.free ++ freed, running := before ++ after } := by
  have hrun : r ∈ s.running := by rw [hr]; exact List.mem_append_right _ List.mem_cons_self
  have hout := (h.kept.perm (locks_split hr)).cacheFinishedReq (h.reqs r hrun)
    s.disableFinishedInsert isInsert
  rw [hcache] at hout
  refine ⟨hout.kept, h.others hr hout.toCarries, ?_⟩
  have hsum := h.ledger
  have hreq := hout.ledger
  rw [owned_split hr] at hsum
  rw [← hsum]
  show ((s.free ++ freed : List Index) : Multiset Index) + c.sum heldIndices +
    ((before ++ after).flatMap RunningReq.owned : Multiset Index) = _
  rw [← Multiset.coe_add]
  calc (s.free : Multiset Index) + freed + c.sum heldIndices +
        ((before ++ after).flatMap RunningReq.owned : Multiset Index)
      = s.free + (freed + c.sum heldIndices) +
          ((before ++ after).flatMap RunningReq.owned : Multiset Index) := by abel
    _ = s.free + (s.cache.sum heldIndices + r.owned) +
          ((before ++ after).flatMap RunningReq.owned : Multiset Index) := by rw [hreq]
    _ = _ := by abel

theorem Inv.sampled (h : Inv pool s) (hr : s.running = before ++ r :: after) (t : Token) :
    Inv pool { s with running := before ++ r.sample t :: after } where
  kept := by
    have hlocks : locks { s with running := before ++ r.sample t :: after } = s.locks := by
      unfold locks
      rw [hr, List.map_append, List.map_append]
      rfl
    rw [hlocks]
    exact h.kept
  reqs q hq := by
    rcases List.mem_cons.mp (List.perm_middle.mem_iff.mp hq) with rfl | hq
    · exact (h.reqs r (by rw [hr]; exact List.mem_append_right _ List.mem_cons_self)).sample t
    · exact h.others hr ⟨Later.refl s.cache, fun _ _ _ hc => hc⟩ q hq
  ledger := by
    have hsum := h.ledger
    rw [owned_split hr] at hsum
    rw [@owned_split _ before after (r.sample t) rfl]
    exact hsum

/-- What is evicted is free again, and no running request had it. -/
theorem Inv.evicted (h : Inv pool s) (e : EvictionHeap) (numTokens : Nat) {freed : List Index}
    {c : RadixCache} (hevict : s.cache.evict e numTokens = (freed, c)) :
    Inv pool { s with cache := c, free := s.free ++ freed } := by
  obtain ⟨hk, hlater, hsum, hlocked⟩ := h.kept.evict e numTokens
  rw [hevict] at hk hlater hsum hlocked
  refine ⟨hk, fun q hq => ?_, ?_⟩
  · exact (h.reqs q hq).later hlater (hlocked _ (List.mem_map_of_mem hq))
  · rw [← h.ledger, ← hsum]
    show ((s.free ++ freed : List Index) : Multiset Index) + c.sum heldIndices +
      (s.owned : Multiset Index) = _
    rw [← Multiset.coe_add]
    abel

/-- **Every step keeps the invariant.** -/
theorem Inv.step (h : Inv pool s) (hnd : pool.Nodup) (hs : Step s s') : Inv pool s' := by
  cases hs with
  | schedule originInputIds outputIds extraKey priority n hm =>
      rename_i m c
      obtain ⟨hk, hsame, hreq⟩ := h.kept.schedule originInputIds outputIds extraKey priority n
      rw [hm] at hk hsame hreq
      refine ⟨hk, fun q hq => ?_, ?_⟩
      · rcases List.mem_cons.mp hq with rfl | hq
        · exact hreq
        · exact (h.reqs q hq).later hsame.toLater fun p v hc => hsame.cachedAt _ p v hc
      · have hnone :
            (RunningReq.scheduled originInputIds outputIds extraKey priority m).owned = [] := by
          refine List.drop_eq_nil_of_le ?_
          rw [Row.length_upTo]
          exact Nat.le_refl _
        show (s.free : Multiset Index) + RadixCache.sum heldIndices _ +
          ((RunningReq.scheduled originInputIds outputIds extraKey priority m :: s.running).flatMap
            RunningReq.owned : Multiset Index) = _
        rw [hsame.sum, List.flatMap_cons, hnone, List.nil_append]
        exact h.ledger
  | extend hr hfree hle =>
      rename_i before after r slots rest
      have hrun : r ∈ s.running := by rw [hr]; exact List.mem_append_right _ List.mem_cons_self
      have hsub : ∀ i ∈ slots, i ∈ s.free := fun i hi =>
        hfree.mem_iff.mpr (List.mem_append_left _ hi)
      have hreq := h.reqs r hrun
      refine h.computed hnd hr hfree rfl (RunningReq.owned_compute hreq.protected_le_committed) ?_
      exact hreq.extend (h.slots_nodup hnd hfree) hle fun i hi hmem =>
        h.free_unused hnd (hsub i hmem) hrun hi
  | decode hr hfree hle =>
      rename_i before after r slots rest
      have hrun : r ∈ s.running := by rw [hr]; exact List.mem_append_right _ List.mem_cons_self
      have hsub : ∀ i ∈ slots, i ∈ s.free := fun i hi =>
        hfree.mem_iff.mpr (List.mem_append_left _ hi)
      have hreq := h.reqs r hrun
      refine h.computed hnd hr hfree rfl (RunningReq.owned_compute hreq.protected_le_committed) ?_
      exact hreq.compute (h.slots_nodup hnd hfree) hle fun i hi hmem =>
        h.free_unused hnd (hsub i hmem) hrun hi
  | sample hr t => exact h.sampled hr t
  | cacheUnfinishedReq hr hcache => exact h.cacheUnfinishedReq hr hcache
  | cacheFinishedReq hr isInsert hcache => exact h.cacheFinishedReq hr isInsert hcache
  | evict e numTokens hevict => exact h.evicted e numTokens hevict
  | matchPrefix updateLru key =>
      obtain ⟨hk, hsame⟩ := h.kept.matchPrefixWith updateLru key
      exact h.same hk hsame
  | incQueueRef n hn =>
      obtain ⟨hk, hsame⟩ := h.kept.countOnly (countOnly_incQueueRef s.cache n)
        (h.kept.held.step (HeldCache.Step.incQueueRef ⟨s.cache, s.locks⟩ n hn))
      exact h.same hk hsame
  | resetAllQueueRefs =>
      obtain ⟨hk, hsame⟩ := h.kept.countOnly (countOnly_resetAllQueueRefs s.cache)
        (h.kept.held.step (HeldCache.Step.resetAllQueueRefs ⟨s.cache, s.locks⟩))
      exact h.same hk hsame

theorem Inv.later (h : Inv pool s) (hs : Step s s') : Later s.cache s'.cache := by
  cases hs with
  | schedule originInputIds outputIds extraKey priority n hm =>
      obtain ⟨-, hsame, -⟩ := h.kept.schedule originInputIds outputIds extraKey priority n
      rw [hm] at hsame
      exact hsame.toLater
  | extend hr hfree hle => exact Later.refl _
  | decode hr hfree hle => exact Later.refl _
  | sample hr t => exact Later.refl _
  | cacheUnfinishedReq hr hcache =>
      obtain ⟨_, _, _, heq, hout⟩ := (h.kept.perm (locks_split hr)).cacheUnfinishedReq
        (h.reqs _ (by rw [hr]; exact List.mem_append_right _ List.mem_cons_self))
      rw [hcache, Option.some.injEq, Prod.mk.injEq, Prod.mk.injEq] at heq
      obtain ⟨rfl, rfl, rfl⟩ := heq
      exact hout.toLater
  | cacheFinishedReq hr isInsert hcache =>
      have hout := (h.kept.perm (locks_split hr)).cacheFinishedReq
        (h.reqs _ (by rw [hr]; exact List.mem_append_right _ List.mem_cons_self))
        s.disableFinishedInsert isInsert
      rw [hcache] at hout
      exact hout.toLater
  | evict e numTokens hevict =>
      have hlater := later_evict s.cache e numTokens
      rw [hevict] at hlater
      exact hlater
  | matchPrefix updateLru key => exact (h.kept.matchPrefixWith updateLru key).2.toLater
  | incQueueRef n hn =>
      have hc := countOnly_incQueueRef s.cache n
      exact ⟨hc.size.ge, hc.pageSize, hc.sameDisable⟩
  | resetAllQueueRefs =>
      have hc := countOnly_resetAllQueueRefs s.cache
      exact ⟨hc.size.ge, hc.pageSize, hc.sameDisable⟩

theorem run_inv {pageSize : Nat} {disable disableFinishedInsert : Bool} (hps : 0 < pageSize)
    (hnd : pool.Nodup) (hrun : Reachable pageSize disable disableFinishedInsert pool s) :
    Inv pool s := by
  induction hrun with
  | refl => exact new_inv hps disable disableFinishedInsert pool
  | tail _ hs ih => exact ih.step hnd hs

/-- The cache is not turned off on the way, nor does its page size change. -/
theorem run_later {pageSize : Nat} {disable disableFinishedInsert : Bool} (hps : 0 < pageSize)
    (hnd : pool.Nodup) (hrun : Reachable pageSize disable disableFinishedInsert pool s) :
    Later (RadixCache.new pageSize disable) s.cache := by
  induction hrun with
  | refl => exact Later.refl _
  | tail hrun hs ih => exact ih.trans ((run_inv hps hnd hrun).later hs)

/-! ### Whole runs -/

/-- A prompt of two tokens is computed and cached, then a third one is sampled and computed. -/
theorem run_three : ∃ s r, Reachable 1 false false [1, 2, 3] s ∧ s.running = [r] ∧
    s.free = [] ∧ s.cache.allValuesFlatten = [1, 2] ∧ r.owned = [3] ∧
    r.extraKey = none ∧ r.tokens = [7, 8, 9] ∧ r.kvCommittedLen = 3 ∧ r.fillIds = [7, 8] := by
  exact ⟨_, _, ((((Relation.ReflTransGen.refl.tail
    (Step.schedule _ [7, 8] [] none none 1 rfl)).tail
    (@Step.extend _ [] [] _ rfl [1, 2] [3]
      (List.Perm.refl _) (by decide))).tail
    (@Step.cacheUnfinishedReq _ [] [] _ _ rfl _ _ rfl)).tail
    (@Step.sample _ [] [] _ rfl 9)).tail
    (@Step.decode _ [] [] _ rfl [3] []
      (List.Perm.refl _) (by decide)),
    rfl, rfl, by decide, by decide, rfl, by decide, by decide, by decide⟩

section

variable {pageSize : Nat} {disable disableFinishedInsert : Bool} (hps : 0 < pageSize)
  (hnd : pool.Nodup)
include hps hnd

/--
**No slot is lost, and none is used twice.**  In every run each slot of the pool is in just one
place: among the free ones, in one node of the tree, or with one running request.
-/
theorem slots_conserved (hrun : Reachable pageSize disable disableFinishedInsert pool s) :
    (s.free ++ s.cache.allValuesFlatten ++ s.owned).Perm pool := by
  have h := run_inv hps hnd hrun
  obtain ⟨live, rp, pv, hwf⟩ := h.kept.toHeld.wf
  rw [← Multiset.coe_eq_coe, ← Multiset.coe_add, ← Multiset.coe_add, hwf.allValuesFlatten]
  exact h.ledger

/--
**Nobody reads what was meant for another.**  In every run the row of each running request has,
up to the committed length, slots with the key-value pairs of just its own namespace and tokens;
and so have the slots that a match of any key hands out.
-/
theorem rows_hold_tokens (hrun : Reachable pageSize disable disableFinishedInsert pool s) :
    (∀ r ∈ s.running, ∀ j < r.kvCommittedLen,
      s.kv (r.row j) = some (r.extraKey, r.tokens.take (j + 1))) ∧
    ∀ (updateLru : Bool) (key : RadixKey) (j : Nat) (i : Index),
      (s.cache.matchPrefixWith updateLru key).1.deviceIndices[j]? = some i →
        s.kv i = some (key.extraKey, key.tokenIds.take (j + 1)) := by
  have h := run_inv hps hnd hrun
  refine ⟨fun r hr j hj => ?_, fun updateLru key j i hi => ?_⟩
  · have hreq := h.reqs r hr
    have hread := hreq.reads.getElem? j
    rw [Row.getElem?_upTo, if_pos hj, RadixKey.getElem?_entries,
      if_pos (by rw [RunningReq.length_key hreq.committed_le]; exact hj), Option.map_some,
      Option.map_some, Option.some.injEq] at hread
    rw [hread]
    have htake : (r.key r.kvCommittedLen).tokenIds.take (j + 1) = r.tokens.take (j + 1) := by
      show (r.tokens.take r.kvCommittedLen).take (j + 1) = _
      rw [List.take_take, Nat.min_eq_left hj]
    rw [htake]
    rfl
  · obtain ⟨live, rp, pv, hwf⟩ := h.kept.toHeld.wf
    obtain ⟨hk, -⟩ := h.kept.matchPrefixWith updateLru key
    obtain ⟨live', rp', pv', hwf'⟩ := hk.toHeld.wf
    obtain ⟨k, hlen, hle, hat, -⟩ :=
      (Sound.longestMatch ⟨live, rp, pv, hwf⟩ updateLru key).pages hwf'
    have hread := (hk.faithful.reads hwf'.pageSize_pos hat).getElem? j
    have hj := (List.getElem?_eq_some_iff.mp hi).1
    rw [hlen] at hj
    have hkey : j < key.length := lt_of_lt_of_le hj hle
    rw [hi, RadixKey.entries_take, List.getElem?_take, if_pos hj, RadixKey.getElem?_entries,
      if_pos hkey] at hread
    exact Option.some.inj hread

/--
**A request is cached whole, and found again.**  In every run with the cache on,
`cache_unfinished_req` of a running request does not fail its assertion; the request then holds
the pages of its filled tokens, with their slots in its row and in `prefix_indices`; and the next
match of those pages finds just these slots, and the node the request has locked.
-/
theorem cacheUnfinishedReq_cached
    (hrun : Reachable pageSize false disableFinishedInsert pool s) {r : RunningReq}
    (hr : r ∈ s.running) :
    ∃ freed r' c, s.cache.cacheUnfinishedReq r = some (freed, r', c) ∧
      r'.cacheProtectedLen = pageSize * (r.fillIds.length / pageSize) ∧
      r'.prefixIndices = r'.row.upTo r.fillIds.length ∧
      (c.matchPrefix (r.key r'.cacheProtectedLen)).1.deviceIndices =
        r'.row.upTo r'.cacheProtectedLen ∧
      (c.matchPrefix (r.key r'.cacheProtectedLen)).1.lastDeviceNode = r'.lastNode := by
  have h := run_inv hps hnd hrun
  have hlater := run_later hps hnd hrun
  obtain ⟨before, after, hsplit⟩ := List.append_of_mem hr
  obtain ⟨freed, r', c, heq, hout⟩ :=
    (h.kept.perm (locks_split hsplit)).cacheUnfinishedReq (h.reqs r hr)
  obtain ⟨hprotected, hindices⟩ := hout.cached hlater.disable
  have hpages : s.cache.wholePages r.fillIds.length = pageSize * (r.fillIds.length / pageSize) := by
    unfold wholePages
    rw [hlater.pageSize]
    rfl
  refine ⟨freed, r', c, heq, hprotected.trans hpages, hindices, ?_⟩
  obtain ⟨live, rp, pv, hwf⟩ := hout.kept.toHeld.wf
  have hkey : r.key r'.cacheProtectedLen = r'.key r'.cacheProtectedLen := by
    unfold RunningReq.key
    rw [hout.tokens, hout.extraKey]
  have hlen : (r'.key r'.cacheProtectedLen).length = r'.cacheProtectedLen :=
    RunningReq.length_key (hout.req.protected_le_committed.trans hout.req.committed_le)
  have hwhole : c.pageSize ∣ (r'.key r'.cacheProtectedLen).length := by
    rw [hlen]
    exact hout.req.aligned
  obtain ⟨-, hat⟩ := hwf.matchPrefix_whole (hout.toLater.disable.trans hlater.disable) hwhole
    ⟨_, _, _, hout.req.anchored, List.prefix_refl _⟩
  -- both nodes end the same path, so they are one
  obtain ⟨hk, hsame⟩ := hout.kept.matchPrefixWith true (r'.key r'.cacheProtectedLen)
  obtain ⟨live', rp', pv', hwf'⟩ := hk.toHeld.wf
  obtain ⟨hn, hp, hv⟩ := hwf'.cachedAt_iff.mp (hsame.cachedAt _ _ _ hout.req.anchored)
  obtain ⟨hn', hp', hv'⟩ := hwf'.cachedAt_iff.mp hat
  have hnode := hwf'.labelled.path_injective hn' hn (hp'.trans hp.symm)
  rw [hkey]
  refine ⟨?_, hnode⟩
  rw [← hv', hnode, hv]

end

theorem slots_conserved_three : ∃ s, Reachable 1 false false [1, 2, 3] s ∧
    (s.free ++ s.cache.allValuesFlatten ++ s.owned).Perm [1, 2, 3] ∧ s.free = [] ∧
    s.cache.allValuesFlatten = [1, 2] := by
  obtain ⟨s, r, hrun, -, hfree, htree, -⟩ := run_three
  exact ⟨s, hrun, slots_conserved Nat.one_pos (by decide) hrun, hfree, htree⟩

theorem rows_hold_tokens_three : ∃ s r, Reachable 1 false false [1, 2, 3] s ∧ s.running = [r] ∧
    s.kv (r.row 2) = some (none, [7, 8, 9]) := by
  obtain ⟨s, r, hrun, hr, -, -, -, hextra, htokens, hlen, -⟩ := run_three
  have hhold := (rows_hold_tokens Nat.one_pos (by decide) hrun).1 r
    (by rw [hr]; exact List.mem_singleton_self r) 2 (by rw [hlen]; decide)
  rw [hextra, htokens] at hhold
  exact ⟨s, r, hrun, hr, hhold⟩

theorem cacheUnfinishedReq_cached_three : ∃ s r freed r' c,
    Reachable 1 false false [1, 2, 3] s ∧ s.running = [r] ∧
    s.cache.cacheUnfinishedReq r = some (freed, r', c) ∧ r'.cacheProtectedLen = 2 := by
  obtain ⟨s, r, hrun, hr, -, -, -, -, -, -, hfill⟩ := run_three
  obtain ⟨freed, r', c, heq, hprotected, -⟩ := cacheUnfinishedReq_cached Nat.one_pos
    (by decide) hrun (r := r) (by rw [hr]; exact List.mem_singleton_self r)
  rw [hfill] at hprotected
  exact ⟨s, r, freed, r', c, hrun, hr, heq, hprotected⟩

/--
**An idle server has all of its memory.**  In every run with the cache on, when no request runs
then nothing is protected, what is free and what is evictable make up the pool; and an eviction
of what is evictable, in any order, makes every slot of the pool free.
-/
theorem idle_has_pool {pageSize : Nat} {disableFinishedInsert : Bool} (hps : 0 < pageSize)
    (hnd : pool.Nodup) (hrun : Reachable pageSize false disableFinishedInsert pool s)
    (hidle : s.running = []) (e : EvictionHeap)
    (hpop : ∀ c heap, heap ≠ [] → (e.heappop c heap).isSome) {numTokens : Nat}
    (hall : s.cache.evictableSize ≤ numTokens) :
    s.cache.protectedSize = 0 ∧ s.free.length + s.cache.evictableSize = pool.length ∧
      (s.free ++ (s.cache.evict e numTokens).1).Perm pool := by
  have h := run_inv hps hnd hrun
  have hd := (run_later hps hnd hrun).disable
  have hlocks : s.locks = [] := by
    unfold locks
    rw [hidle]
    rfl
  have howned : s.owned = [] := by
    unfold owned
    rw [hidle]
    rfl
  have hk := h.kept
  have hledger := h.ledger
  rw [hlocks] at hk
  rw [howned, Multiset.coe_nil, Multiset.add_zero] at hledger
  obtain ⟨hnone, hheld⟩ := hk.unlocked hd
  have hcard := congrArg Multiset.card hledger
  rw [Multiset.card_add, Multiset.coe_card, Multiset.coe_card] at hcard
  refine ⟨hnone, by omega, ?_⟩
  obtain ⟨hk', hlater, hsum, -⟩ := hk.evict e numTokens
  obtain ⟨-, hheld'⟩ := hk'.unlocked (hlater.disable.trans hd)
  have hgiven := congrArg Multiset.card hsum
  rw [Multiset.card_add, Multiset.coe_card] at hgiven
  -- whether or not it ran out of leaves, nothing is left in the tree
  have hempty : (s.cache.evict e numTokens).2.sum heldIndices = 0 := by
    refine Multiset.card_eq_zero.mp ?_
    rcases hk.held.evict_yield hk.measured hd e hpop numTokens with henough | hout
    · have henough : numTokens ≤ (s.cache.evict e numTokens).1.length := henough
      omega
    · have hout : (s.cache.evict e numTokens).2.evictableSize = 0 := hout
      omega
  rw [hempty, Multiset.add_zero] at hsum
  rw [← Multiset.coe_eq_coe, ← Multiset.coe_add, hsum]
  exact hledger

/-- The request finishes, and all that was computed for it is evicted. -/
theorem idle_has_pool_three : ∃ s, Reachable 1 false false [1, 2, 3] s ∧ s.running = [] ∧
    (s.free ++ (s.cache.evict (HeapQ.sorted.evictionHeap
      (queueAwareEvictionPriority fun refs depth => refs * depth))
        s.cache.evictableSize.toNat).1).Perm [1, 2, 3] := by
  obtain ⟨s, r, hrun, hr, -⟩ := run_three
  have hrun := hrun.tail (@Step.cacheFinishedReq s [] [] _ hr true _ _
    (Prod.eta _).symm)
  exact ⟨_, hrun, rfl, (idle_has_pool Nat.one_pos (by decide) hrun rfl _
    HeapQ.sorted.pop_some (Int.self_le_toNat _)).2.2⟩

end Server

end Peek
