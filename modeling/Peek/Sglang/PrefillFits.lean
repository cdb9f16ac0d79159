/-
A prefill batch fits into the memory.

Whatever requests the adder is asked to take, in whatever order, with matches in between: the
prompts of those it takes, rounded up to pages, are no more than what is free and what an
eviction can still give after the locks that it took (`batch_fits`).  It holds one lock for each
request it took, and none for those it turned away.
-/
import Peek.Sglang.PagedKeys
import Peek.Sglang.PrefillSteps
import Peek.Sglang.SlotsConserved

namespace Peek

open RadixCache

namespace PrefillAdder

/-! ### Steps -/

/-- An adder, and the requests that `add_one_req` has put into its batch. -/
structure Filling where
  adder : PrefillAdder
  added : List PrefillReq

namespace Filling

/-- One call: a request is offered that was matched before, or one more is matched. -/
inductive Step : Filling → Filling → Prop
  | addOneReq (s : Filling) (req : PrefillReq) (align : Option Int) (allowPrefill : Bool)
      (hn : s.adder.treeCache.InTree req.lastNode) (hmax : 0 ≤ req.maxNewTokens) :
      Step s
        { adder := (s.adder.addOneReq req align allowPrefill).2
          added := s.added ++ (s.adder.addOneReq req align allowPrefill).2.canRunList.drop
            s.adder.canRunList.length }
  /-- While there is memory left; without it the chunk is added all the same. -/
  | addChunkedReq (s : Filling) (req : PrefillReq) (hmax : 0 ≤ req.maxNewTokens)
      (hroom : 1 ≤ s.adder.remTotalTokens) {rest : Option PrefillReq} {a : PrefillAdder}
      (heq : s.adder.addChunkedReq req = some (rest, a)) : Step s { s with adder := a }
  | matchPrefix (s : Filling) (updateLru : Bool) (key : RadixKey) :
      Step s { s with adder := { s.adder with
        treeCache := (s.adder.treeCache.matchPrefixWith updateLru key).2 } }

end Filling

/-- What the prompts of the batch take, in whole pages. -/
def batchTokens (a : PrefillAdder) : Int :=
  (a.canRunList.map fun r => a.ceilPagedTokens r.extendInputLen).sum

/-! ### The invariant -/

/-- **The batch fits**, and the budgets count it. -/
structure Budgeted (disable : Bool) (mixed : Int) (locks : List NodeId) (a : PrefillAdder)
    (added : List PrefillReq) : Prop where
  held : Held a.treeCache (added.map (·.lastNode) ++ locks)
  paged : Paged a.treeCache
  pageSize : a.pageSize = a.treeCache.pageSize
  disable : a.treeCache.disable = disable
  available : a.pageSize ∣ a.availableSize
  clip : 0 ≤ a.clipMaxNewTokens
  anchored : ∀ r ∈ added, a.treeCache.InTree r.lastNode
  spent : a.curRemTokenOffset = mixed + a.batchTokens
  total : (a.curRemTokenOffset : ℚ) ≤ a.remTotalTokenOffset
  fits : a.batchTokens ≤ a.availableAndEvictable

section

variable {a : PrefillAdder} {added : List PrefillReq} {disable : Bool} {mixed : Int}
  {locks : List NodeId}

theorem dvd_batchTokens (a : PrefillAdder) : (a.pageSize : Int) ∣ a.batchTokens := by
  refine List.dvd_sum fun x hx => ?_
  obtain ⟨r, -, rfl⟩ := List.mem_map.mp hx
  exact dvd_ceilPaged _ _

theorem Budgeted.pageSize_pos (h : Budgeted disable mixed locks a added) : 0 < a.pageSize := by
  obtain ⟨live, rp, pv, hwf⟩ := h.held.wf
  rw [h.pageSize]
  exact hwf.pageSize_pos

/-- Another cache of the same make, with as much to evict. -/
theorem Budgeted.cache {added' : List PrefillReq} (h : Budgeted disable mixed locks a added)
    {c : RadixCache} (hk : Held c (added'.map (·.lastNode) ++ locks)) (hp : Paged c)
    (hl : Later a.treeCache c) (hanchored : ∀ r ∈ added', c.InTree r.lastNode)
    (he : c.evictableSize = a.treeCache.evictableSize) :
    Budgeted disable mixed locks { a with treeCache := c } added' where
  held := hk
  paged := hp
  pageSize := h.pageSize.trans hl.pageSize.symm
  disable := hl.disable.trans h.disable
  available := h.available
  clip := h.clip
  anchored := hanchored
  spent := h.spent
  total := h.total
  fits := by
    have hfits := h.fits
    unfold availableAndEvictable at hfits ⊢
    rw [he]
    exact hfits

theorem batchTokens_taken (a : PrefillAdder) (cache : RadixCache)
    (states : Option (List (ℚ × Nat))) (req : PrefillReq) (chunked : Option PrefillReq)
    (prefixLen tokens maxNewTokens : Int) :
    (a.taken cache states req chunked prefixLen tokens maxNewTokens).batchTokens =
      a.batchTokens + a.ceilPagedTokens req.extendInputLen := by
  show ((a.canRunList ++ [req]).map fun r => ceilPaged a.pageSize r.extendInputLen).sum = _
  rw [List.map_append, List.sum_append, List.map_singleton, List.sum_singleton]
  rfl

/--
**One more request**, on a cache of which the pages that are free or evictable have room for it.
-/
theorem Budgeted.taken {added' : List PrefillReq} (h : Budgeted disable mixed locks a added)
    {c : RadixCache} (hk : Held c (added'.map (·.lastNode) ++ locks)) (hp : Paged c)
    (hl : Later a.treeCache c) (hanchored : ∀ r ∈ added', c.InTree r.lastNode)
    (states : Option (List (ℚ × Nat))) {req : PrefillReq} (chunked : Option PrefillReq)
    (prefixLen : Int) {tokens maxNewTokens : Int}
    (hrounded : a.ceilPagedTokens tokens = a.ceilPagedTokens req.extendInputLen)
    (hmax : 0 ≤ maxNewTokens)
    (hroom : a.batchTokens + a.ceilPagedTokens req.extendInputLen ≤
      a.availableSize + c.evictableSize) :
    Budgeted disable mixed locks (a.taken c states req chunked prefixLen tokens maxNewTokens)
      added' where
  held := hk
  paged := hp
  pageSize := h.pageSize.trans hl.pageSize.symm
  disable := hl.disable.trans h.disable
  available := h.available
  clip := h.clip
  anchored := hanchored
  spent := by
    rw [batchTokens_taken]
    show a.curRemTokenOffset + a.ceilPagedTokens tokens = _
    rw [h.spent, hrounded, Int.add_assoc]
  total := by
    show ((a.curRemTokenOffset + a.ceilPagedTokens tokens : Int) : ℚ) ≤
      a.remTotalTokenOffset + (a.ceilPagedTokens tokens + maxNewTokens : Int)
    have htotal := h.total
    have hmaxq : (0 : ℚ) ≤ maxNewTokens := by exact_mod_cast hmax
    push_cast
    linarith
  fits := by
    rw [batchTokens_taken]
    exact hroom

/-- Free and evictable memory are whole pages, so what is below them fits rounded up. -/
theorem Budgeted.ceil_fits (h : Budgeted disable mixed locks a added) (hmixed : 0 ≤ mixed)
    {c : RadixCache} {locks' : List NodeId} (hk : Held c locks') (hp : Paged c)
    (hps : c.pageSize = a.treeCache.pageSize) {tokens : Int}
    (hlt : (tokens : ℚ) ≤ { a with treeCache := c }.remTotalTokens) :
    a.batchTokens + a.ceilPagedTokens tokens ≤ a.availableSize + c.evictableSize := by
  obtain ⟨live, rp, pv, hwf⟩ := hk.wf
  obtain ⟨_, _, _, -, -, hs⟩ := hk.measured
  have hevict := hp.dvd_evictableSize hwf hs
  rw [hps, ← h.pageSize] at hevict
  have hdvd : (a.pageSize : Int) ∣ a.availableSize + c.evictableSize - a.batchTokens :=
    Int.dvd_sub (Int.dvd_add (Int.natCast_dvd_natCast.mpr h.available) hevict) (dvd_batchTokens a)
  have hle : tokens ≤ a.availableSize + c.evictableSize - a.batchTokens := by
    have htotal := h.total
    rw [h.spent] at htotal
    have hmixedq : (0 : ℚ) ≤ mixed := by exact_mod_cast hmixed
    have hlt : (tokens : ℚ) ≤ ((a.availableSize + c.evictableSize : Int) : ℚ) -
      a.remTotalTokenOffset := hlt
    have hq : (tokens : ℚ) ≤ ((a.availableSize + c.evictableSize - a.batchTokens : Int) : ℚ) := by
      push_cast at htotal hlt ⊢
      linarith
    exact_mod_cast hq
  have hceil := ceilPaged_le h.pageSize_pos hdvd hle
  have hceil : a.ceilPagedTokens tokens ≤ _ := hceil
  omega

/-- A lock that counts nothing may be taken for any. -/
theorem held_of_disable {c : RadixCache} {locks locks' : List NodeId} (hk : Held c locks)
    (hd : c.disable = true) : Held c locks' := by
  obtain ⟨live, rp, pv, hwf⟩ := hk.wf
  refine ⟨⟨live, rp, pv, hwf, fun hd' => ?_⟩, hk.measured⟩
  have hd' : c.disable = false := hd'
  rw [hd] at hd'
  exact Bool.noConfusion hd'

theorem Budgeted.addOneReq (h : Budgeted disable mixed locks a added) (hmixed : 0 ≤ mixed)
    {req : PrefillReq} (align : Option Int) (allowPrefill : Bool)
    (hn : a.treeCache.InTree req.lastNode) (hmax : 0 ≤ req.maxNewTokens) :
    Budgeted disable mixed locks (a.addOneReq req align allowPrefill).2
      (added ++ (a.addOneReq req align allowPrefill).2.canRunList.drop a.canRunList.length) := by
  have hnone : ∀ l : List PrefillReq, added ++ l.drop l.length = added := fun l => by
    rw [List.drop_length, List.append_nil]
  rcases @addOneReq_cases a req h.pageSize_pos align allowPrefill with ⟨states, heq⟩ | heq |
    ⟨c, states, req', chunked, prefixLen, tokens, maxNewTokens, htakes, heq⟩
  · rw [heq]
    show Budgeted disable mixed locks _ (added ++ a.canRunList.drop a.canRunList.length)
    rw [hnone]
    exact ⟨h.held, h.paged, h.pageSize, h.disable, h.available, h.clip, h.anchored, h.spent,
      h.total, h.fits⟩
  · rw [heq]
    show Budgeted disable mixed locks _ (added ++ a.canRunList.drop a.canRunList.length)
    rw [hnone]
    obtain ⟨hk, hs, he⟩ := h.held.lockBack hn
    exact h.cache hk (h.paged.sameShape hs) hs.toLater
      (fun r hr => (hs.inTree_iff _).mpr (h.anchored r hr)) he
  · have hdrop : (a.taken c states req' chunked prefixLen tokens maxNewTokens).canRunList.drop
        a.canRunList.length = [req'] := List.drop_left
    rw [heq, hdrop]
    have hle : a.ceilPagedTokens req'.extendInputLen ≤ a.ceilPagedTokens req.extendInputLen :=
      htakes.rounded ▸ htakes.le
    have hmaxNew := htakes.maxNewTokens hmax h.clip
    rcases htakes.room with ⟨hd, rfl, hroom⟩ | ⟨rfl, -, hroom⟩
    · refine h.taken (held_of_disable h.held hd) h.paged (Later.refl _) (fun r hr => ?_) states
        chunked prefixLen htakes.rounded hmaxNew ?_
      · rcases List.mem_append.mp hr with hr | hr
        · exact h.anchored r hr
        · rw [List.mem_singleton.mp hr, htakes.lastNode]
          exact hn
      · have hspent := h.spent
        unfold curRemTokens availableAndEvictable at hroom
        omega
    · obtain ⟨hk, hs, he⟩ := h.held.lockTwice hn
      refine h.taken (hk.perm ?_) (h.paged.sameShape hs) hs.toLater (fun r hr => ?_) states chunked
        prefixLen htakes.rounded hmaxNew ?_
      · rw [List.map_append, List.append_assoc, List.map_singleton, htakes.lastNode]
        exact List.perm_middle.symm
      · refine (hs.inTree_iff _).mpr ?_
        rcases List.mem_append.mp hr with hr | hr
        · exact h.anchored r hr
        · rw [List.mem_singleton.mp hr, htakes.lastNode]
          exact hn
      · have hs1 := sameShape_incLockRef a.treeCache req.lastNode
        have hextend : req.extendInputLen ≤ a.totalTokens req :=
          Int.le_add_of_nonneg_right (le_min (le_max_right _ _) h.clip)
        have hfit := h.ceil_fits hmixed (h.held.incLockRef hn) (h.paged.sameShape hs1) hs1.pageSize
          (le_trans (Int.cast_le.mpr hextend) hroom.le)
        rw [he]
        omega

theorem le_of_le_truncToInt {t : Int} {q : ℚ} (hq : 0 ≤ q) (h : t ≤ truncToInt q) :
    (t : ℚ) ≤ q := by
  unfold truncToInt at h
  rw [if_pos hq] at h
  exact Int.le_floor.mp h

theorem Budgeted.addChunkedReq (h : Budgeted disable mixed locks a added) (hmixed : 0 ≤ mixed)
    {req : PrefillReq} (hmax : 0 ≤ req.maxNewTokens) (hroom : 1 ≤ a.remTotalTokens)
    {rest : Option PrefillReq} {a' : PrefillAdder}
    (heq : a.addChunkedReq req = some (rest, a')) : Budgeted disable mixed locks a' added := by
  unfold PrefillAdder.addChunkedReq at heq
  cases hrem : a.remChunkTokens with
  | none => simp [hrem] at heq
  | some rem =>
      simp only [hrem, Option.some.injEq, Prod.mk.injEq] at heq
      obtain ⟨-, rfl⟩ := heq
      set n : Int := if min rem (truncToInt a.remTotalTokens) ≤ 0 then rem
        else min rem (truncToInt a.remTotalTokens) with hn
      have hq : (0 : ℚ) ≤ a.remTotalTokens := zero_le_one.trans hroom
      have hle : ((min req.extendInputLen n : Int) : ℚ) ≤ a.remTotalTokens := by
        have hone : 1 ≤ truncToInt a.remTotalTokens := by
          unfold truncToInt
          rw [if_pos hq]
          exact Int.le_floor.mpr (by exact_mod_cast hroom)
        refine le_of_le_truncToInt hq ((min_le_right _ _).trans ?_)
        rw [hn]
        split <;> omega
      refine h.taken h.held h.paged (Later.refl _) h.anchored a.reqStates a.newChunkedReq 0
        (rfl : a.ceilPagedTokens (min req.extendInputLen n) =
          a.ceilPagedTokens (truncate req (min req.extendInputLen n)).extendInputLen) ?_
        (h.ceil_fits hmixed h.held h.paged rfl hle)
      split
      · exact le_refl _
      · exact le_min hmax h.clip

theorem Budgeted.matchPrefix (h : Budgeted disable mixed locks a added) (updateLru : Bool)
    (key : RadixKey) :
    Budgeted disable mixed locks
      { a with treeCache := (a.treeCache.matchPrefixWith updateLru key).2 } added := by
  obtain ⟨live, rp, pv, hwf⟩ := h.held.wf
  obtain ⟨live', rp', pv', hgrow⟩ :=
    Cuts.splitOnly (matchPrefixWith_cuts hwf updateLru key) hwf
  exact h.cache (h.held.matchPrefixWith updateLru key) (h.paged.matchPrefixWith hwf updateLru key)
    hgrow.toLater
    (fun r hr => hgrow.wf.inTree_iff.mpr (hgrow.sub (hwf.inTree_iff.mp (h.anchored r hr))))
    (h.held.evictableSize_matchPrefixWith updateLru key)

end

/-- What holds of a filling batch. -/
theorem Filling.run_budgeted {disable : Bool} {mixed : Int} {locks : List NodeId}
    (hmixed : 0 ≤ mixed) {s0 s : Filling}
    (h0 : Budgeted disable mixed locks s0.adder s0.added)
    (hrun : Relation.ReflTransGen Filling.Step s0 s) :
    Budgeted disable mixed locks s.adder s.added := by
  induction hrun with
  | refl => exact h0
  | tail _ hs ih =>
      cases hs with
      | addOneReq req align allowPrefill hn hmax =>
          exact ih.addOneReq hmixed align allowPrefill hn hmax
      | addChunkedReq req hmax hroom heq => exact ih.addChunkedReq hmixed hmax hroom heq
      | matchPrefix updateLru key => exact ih.matchPrefix updateLru key

end PrefillAdder

/-! ### The server's cache -/

namespace Server

variable {s s' : Server} {pool : List Index}

theorem paged_reqParams {c : RadixCache} (hp : Paged c) {locks : List NodeId} (hk : Held c locks)
    (r : RunningReq) (tokenIds : List Token) : Paged (c.insert (c.reqParams r tokenIds)).2 := by
  obtain ⟨live, rp, pv, hwf⟩ := hk.wf
  refine hp.insert hwf ?_
  show c.pageSize ∣ (c.pageAlignKeys tokenIds).length
  rw [c.pageAlignKeys_eq, List.length_take, Nat.min_eq_left (c.wholePages_le _)]
  exact Nat.dvd_mul_right _ _

/-- The server inserts whole pages only. -/
theorem Inv.paged_step (h : Inv pool s) (hp : Paged s.cache) (hs : Step s s') :
    Paged s'.cache := by
  have hk := h.kept.toHeld
  obtain ⟨live, rp, pv, hwf⟩ := hk.wf
  have hlock : ∀ {c : RadixCache}, Paged c → ∀ n, Paged (c.incLockRef n) ∧ Paged (c.decLockRef n) :=
    fun hp n => ⟨hp.sameShape (sameShape_incLockRef _ n), hp.sameShape (sameShape_decLockRef _ n)⟩
  cases hs with
  | schedule originInputIds outputIds extraKey priority n hm =>
      have hm := congrArg Prod.snd hm
      dsimp only at hm
      rw [← hm]
      exact (hlock (hp.matchPrefixWith hwf true _) _).1
  | extend hr hfree hle => exact hp
  | decode hr hfree hle => exact hp
  | sample hr t => exact hp
  | @cacheUnfinishedReq before after r r' hr freed c hcache =>
      unfold RadixCache.cacheUnfinishedReq at hcache
      by_cases hd : s.cache.disable = true
      · rw [if_pos hd, Option.some.injEq, Prod.mk.injEq, Prod.mk.injEq] at hcache
        obtain ⟨-, -, rfl⟩ := hcache
        exact hp
      · rw [if_neg hd] at hcache
        dsimp only at hcache
        split at hcache
        · rw [Option.some.injEq, Prod.mk.injEq, Prod.mk.injEq] at hcache
          obtain ⟨-, -, rfl⟩ := hcache
          have hp1 := paged_reqParams hp hk r r.fillIds
          obtain ⟨live1, rp1, pv1, hwf1⟩ := (hk.insert (s.cache.reqParams r r.fillIds)).wf
          exact (hlock (hlock (hp1.matchPrefixWith hwf1 true _) _).2 _).1
        · simp at hcache
  | @cacheFinishedReq before after r hr isInsert freed c hcache =>
      unfold RadixCache.cacheFinishedReq at hcache
      by_cases hd : s.cache.disable = true
      · rw [if_pos hd, Prod.mk.injEq] at hcache
        obtain ⟨-, rfl⟩ := hcache
        exact hp
      · rw [if_neg hd] at hcache
        dsimp only at hcache
        rw [Prod.mk.injEq] at hcache
        obtain ⟨-, rfl⟩ := hcache
        refine (hlock ?_ _).2
        generalize (if s.disableFinishedInsert = true then false else isInsert) = b
        cases b with
        | true => exact paged_reqParams hp hk r _
        | false => exact hp
  | evict e numTokens hevict =>
      obtain ⟨_, _, _, hwf, hl, -⟩ := h.kept.measured
      have hevict := congrArg Prod.snd hevict
      dsimp only at hevict
      rw [← hevict]
      exact hp.evict hwf hl e numTokens
  | matchPrefix updateLru key => exact hp.matchPrefixWith hwf updateLru key
  | incQueueRef n hn => exact hp.sameTree hwf (countOnly_incQueueRef s.cache n).toSameTree
  | resetAllQueueRefs =>
      exact hp.sameTree hwf (countOnly_resetAllQueueRefs s.cache).toSameTree

theorem run_paged {pageSize : Nat} {disable disableFinishedInsert : Bool} (hps : 0 < pageSize)
    (hnd : pool.Nodup) (hrun : Reachable pageSize disable disableFinishedInsert pool s) :
    Paged s.cache := by
  induction hrun with
  | refl => exact paged_new hps disable
  | tail hrun hs ih => exact (run_inv hps hnd hrun).paged_step ih hs

end Server

namespace PrefillAdder

section

variable {pageSize : Nat} {disable disableFinishedInsert : Bool} (hps : 0 < pageSize)
  {pool : List Index} (hnd : pool.Nodup) {s : Server}
include hps hnd

/-- The invariant of an adder that a server starts. -/
theorem Budgeted.start
    (hrun : Server.Reachable pageSize disable disableFinishedInsert pool s)
    (hfree : pageSize ∣ s.free.length) (runningBatch : List PrefillReq) (newTokenRatio : ℚ)
    (remInputTokens : Int) (remChunkTokens : Option Int) (mixed threshold : Int)
    (prefillMaxRequests : Option Nat) (nsa : Bool) {clip : Int} (hclip : 0 ≤ clip)
    (hrunning : 0 ≤ (runningBatch.map (runningOffset clip newTokenRatio)).sum) :
    Budgeted disable mixed s.locks
      (new pageSize s.cache s.free.length runningBatch newTokenRatio remInputTokens remChunkTokens
        mixed threshold prefillMaxRequests nsa clip) [] where
  held := (Server.run_inv hps hnd hrun).kept.toHeld
  paged := Server.run_paged hps hnd hrun
  pageSize := (Server.run_later hps hnd hrun).pageSize.symm
  disable := (Server.run_later hps hnd hrun).disable
  available := hfree
  clip := hclip
  anchored r hr := by simp at hr
  spent := (Int.add_zero mixed).symm
  total := le_add_of_nonneg_right hrunning
  fits := by
    obtain ⟨_, _, _, -, -, hm⟩ := (Server.run_inv hps hnd hrun).kept.measured
    show (0 : Int) ≤ s.free.length + s.cache.evictableSize
    rw [hm.evictable]
    exact Int.add_nonneg (Int.natCast_nonneg _) (Int.natCast_nonneg _)

end

end PrefillAdder

end Peek
