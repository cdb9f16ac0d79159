/-
What the prefill adder can do with a request.

It turns it away, after a lock that it gives back or without one, or it takes it into the batch,
whole or cut to a chunk (`addOneReq_cases`).  Whatever follows for a whole batch follows from
that, and from how lengths are rounded up to pages.
-/
import Peek.Sglang.PrefillAdder
import Mathlib.Tactic.Linarith

namespace Peek

namespace PrefillAdder

/-! ### Rounding up -/

section

variable {ps : Nat} {t m : Int}

theorem dvd_ceilPaged (ps : Nat) (t : Int) : (ps : Int) ∣ ceilPaged ps t := Int.dvd_mul_left _ _

variable (hps : 0 < ps)
include hps

theorem le_ceilPaged (t : Int) : t ≤ ceilPaged ps t := by
  have hpos : (0 : Int) < ps := Int.natCast_pos.mpr hps
  have hle := Int.ediv_mul_le (-t) (Int.ne_of_gt hpos)
  unfold ceilPaged
  rw [Int.neg_mul]
  omega

/-- **No smaller number of pages has room.** -/
theorem ceilPaged_le (hdvd : (ps : Int) ∣ m) (h : t ≤ m) : ceilPaged ps t ≤ m := by
  have hpos : (0 : Int) < ps := Int.natCast_pos.mpr hps
  obtain ⟨k, rfl⟩ := hdvd
  have hk : -k ≤ -t / ps := by
    rw [Int.le_ediv_iff_mul_le hpos, Int.neg_mul, Int.mul_comm]
    omega
  unfold ceilPaged
  rw [Int.mul_comm (ps : Int) k]
  exact Int.mul_le_mul_of_nonneg_right (by omega) hpos.le

theorem ceilPaged_eq (hdvd : (ps : Int) ∣ t) : ceilPaged ps t = t :=
  Int.le_antisymm (ceilPaged_le hps hdvd (Int.le_refl t)) (le_ceilPaged hps t)

theorem ceilPaged_mono (h : t ≤ m) : ceilPaged ps t ≤ ceilPaged ps m :=
  ceilPaged_le hps (dvd_ceilPaged ps m) (h.trans (le_ceilPaged hps m))

theorem ceilPaged_ceilPaged (t : Int) : ceilPaged ps (ceilPaged ps t) = ceilPaged ps t :=
  ceilPaged_eq hps (dvd_ceilPaged ps t)

theorem ceilPaged_nonneg (h : 0 ≤ t) : 0 ≤ ceilPaged ps t := h.trans (le_ceilPaged hps t)

end

/-! ### Taking a request -/

/-- The adder with one more request in the batch. -/
def taken (a : PrefillAdder) (cache : RadixCache) (states : Option (List (ℚ × Nat)))
    (req : PrefillReq) (chunked : Option PrefillReq) (prefixLen tokens maxNewTokens : Int) :
    PrefillAdder :=
  ({ a with treeCache := cache, reqStates := states, newChunkedReq := chunked }.append
    req).updatePrefillBudget prefixLen tokens maxNewTokens

/-- How much a chunk may take at most. -/
def chunkRoom (a : PrefillAdder) (remChunkTokens : Int) : Int :=
  remChunkTokens / a.pageSize * a.pageSize

/--
What holds when `req` is taken as `req'`: it is not made longer, it fits what it was compared
with, and it is cut only if there is a chunk's room.
-/
structure Takes (a : PrefillAdder) (req : PrefillReq) (truncationAlignSize : Option Int)
    (cache : RadixCache) (req' : PrefillReq) (chunked : Option PrefillReq)
    (tokens maxNewTokens : Int) : Prop where
  lastNode : req'.lastNode = req.lastNode
  rounded : a.ceilPagedTokens tokens = a.ceilPagedTokens req'.extendInputLen
  le : a.ceilPagedTokens tokens ≤ a.ceilPagedTokens req.extendInputLen
  nonneg : 0 ≤ req.extendInputLen → 0 ≤ a.ceilPagedTokens tokens
  maxNewTokens : 0 ≤ req.maxNewTokens → 0 ≤ a.clipMaxNewTokens → 0 ≤ maxNewTokens
  /-- Without a cache it is compared rounded up; with one, under the lock, as it is. -/
  room : (a.treeCache.disable = true ∧ cache = a.treeCache ∧
      a.ceilPagedTokens req.extendInputLen ≤ a.curRemTokens) ∨
    (cache = ((a.treeCache.incLockRef req.lastNode).incLockRef req.lastNode).decLockRef
        req.lastNode ∧ (a.totalTokens req : ℚ) < a.remTotalTokens ∧
      (a.totalTokens req : ℚ) <
        { a with treeCache := a.treeCache.incLockRef req.lastNode }.remTotalTokens)
  /-- Whole, or cut to what the align size leaves of a chunk. -/
  chunk : chunked = a.newChunkedReq ∨ a.treeCache.disable = true ∨
    (chunked = some req' ∧ ∃ rem, a.remChunkTokens = some rem ∧ 0 < a.chunkRoom rem ∧
      tokens = truncationAlignSize.elim (a.chunkRoom rem)
        (fun n => n * (a.chunkRoom rem / n)) ∧
      ∀ n ∈ truncationAlignSize, n ≤ a.chunkRoom rem)

section

variable {a : PrefillAdder} {req : PrefillReq}

theorem addOneReqIgnoreEos_cases (hps : 0 < a.pageSize) (hd : a.treeCache.disable = true)
    (align : Option Int) :
    (∃ states, (a.addOneReqIgnoreEos req).2 = { a with reqStates := states }) ∨
    ∃ states req' chunked tokens maxNewTokens,
      Takes a req align a.treeCache req' chunked tokens maxNewTokens ∧
      (a.addOneReqIgnoreEos req).2 =
        a.taken a.treeCache states req' chunked 0 tokens maxNewTokens := by
  unfold addOneReqIgnoreEos
  by_cases hroom : (a.ceilPagedTokens req.extendInputLen : ℚ) >
      min (a.curRemTokens : ℚ) a.remTotalTokens
  · rw [if_pos hroom]
    exact Or.inl ⟨a.reqStates, rfl⟩
  · rw [if_neg hroom]
    have hfits : a.ceilPagedTokens req.extendInputLen ≤ a.curRemTokens := by
      exact_mod_cast (not_lt.mp hroom).trans (min_le_left _ _)
    dsimp only
    split
    · exact Or.inl ⟨_, rfl⟩
    · split
      · exact Or.inr ⟨_, req, a.newChunkedReq, req.extendInputLen, _,
          ⟨rfl, rfl, le_refl _, ceilPaged_nonneg hps, fun hm hc => le_min hm hc,
            Or.inl ⟨hd, rfl, hfits⟩, Or.inl rfl⟩, rfl⟩
      · rename_i hchunk
        split
        · exact Or.inl ⟨_, rfl⟩
        · rename_i hpos
          -- the rest of the chunk is less than what the request has
          set req' : PrefillReq := { req with
            extendInputLen := a.remChunkTokens.getD 0
            fillIds := sliceTo req.fillIds (a.remChunkTokens.getD 0) } with hreq
          refine Or.inr ⟨_, req', some req', a.remChunkTokens.getD 0, 0, ⟨rfl, rfl, ?_,
            fun _ => ceilPaged_nonneg hps (not_le.mp hpos).le, fun _ _ => le_refl _,
            Or.inl ⟨hd, rfl, hfits⟩, Or.inr (Or.inl hd)⟩, rfl⟩
          cases hrem : a.remChunkTokens with
          | none => simp [hrem] at hchunk
          | some rem =>
              simp only [hrem, Option.all_some, decide_eq_true_eq, not_le] at hchunk
              exact ceilPaged_mono hps hchunk.le

/-- A chunk takes no more than its room, which is no more than there is. -/
theorem chunk_le (rem : Int) (hps : 0 < a.pageSize) (align : Option Int)
    (hpos : 0 < a.chunkRoom rem) :
    0 ≤ align.elim (a.chunkRoom rem) (fun n => n * (a.chunkRoom rem / n)) ∧
      align.elim (a.chunkRoom rem) (fun n => n * (a.chunkRoom rem / n)) ≤ a.chunkRoom rem ∧
      a.chunkRoom rem ≤ rem := by
  have hpos' : (0 : Int) < a.pageSize := Int.natCast_pos.mpr hps
  have hroom : a.chunkRoom rem ≤ rem := Int.ediv_mul_le rem (Int.ne_of_gt hpos')
  cases align with
  | none => exact ⟨hpos.le, le_refl _, hroom⟩
  | some n =>
      show 0 ≤ n * (a.chunkRoom rem / n) ∧ n * (a.chunkRoom rem / n) ≤ _ ∧ _
      rcases lt_trichotomy n 0 with hn | rfl | hn
      · refine ⟨Int.mul_nonneg_of_nonpos_of_nonpos hn.le
          (Int.ediv_nonpos_of_nonneg_of_nonpos hpos.le hn.le), ?_, hroom⟩
        rw [Int.mul_comm]
        exact Int.ediv_mul_le _ hn.ne
      · rw [Int.zero_mul]
        exact ⟨le_refl _, hpos.le, hroom⟩
      · refine ⟨Int.mul_nonneg hn.le (Int.ediv_nonneg hpos.le hn.le), ?_, hroom⟩
        rw [Int.mul_comm]
        exact Int.ediv_mul_le _ hn.ne'

/-- What is done under the lock: nothing, or the request is locked once more and taken. -/
theorem addLocked_cases (hps : 0 < a.pageSize) (align : Option Int) (allowPrefill : Bool) :
    (∃ result, addLocked req align allowPrefill a = (some result, a)) ∨
    (a.totalTokens req : ℚ) < a.remTotalTokens ∧
    ∃ req' chunked prefixLen tokens maxNewTokens,
      addLocked req align allowPrefill a =
        (none, a.taken (a.treeCache.incLockRef req.lastNode) a.reqStates req' chunked prefixLen
          tokens maxNewTokens) ∧
      req'.lastNode = req.lastNode ∧
      a.ceilPagedTokens tokens = a.ceilPagedTokens req'.extendInputLen ∧
      a.ceilPagedTokens tokens ≤ a.ceilPagedTokens req.extendInputLen ∧
      (0 ≤ req.extendInputLen → 0 ≤ a.ceilPagedTokens tokens) ∧
      (0 ≤ req.maxNewTokens → 0 ≤ a.clipMaxNewTokens → 0 ≤ maxNewTokens) ∧
      (chunked = a.newChunkedReq ∨ chunked = some req' ∧ ∃ rem, a.remChunkTokens = some rem ∧
        0 < a.chunkRoom rem ∧
        tokens = align.elim (a.chunkRoom rem) (fun n => n * (a.chunkRoom rem / n)) ∧
        ∀ n ∈ align, n ≤ a.chunkRoom rem) := by
  unfold addLocked
  by_cases htotal : (a.totalTokens req : ℚ) ≥ a.remTotalTokens
  · rw [if_pos htotal]
    exact Or.inl ⟨_, rfl⟩
  · rw [if_neg htotal]
    dsimp only
    split
    · exact Or.inl ⟨_, rfl⟩
    · split
      · exact Or.inl ⟨_, rfl⟩
      · split
        · exact Or.inr ⟨not_le.mp htotal, req, a.newChunkedReq, _, _, _, rfl, rfl,
            ceilPaged_ceilPaged hps _, (ceilPaged_ceilPaged hps _).le,
            fun he => ceilPaged_nonneg hps (ceilPaged_nonneg hps he),
            fun hm hc => le_min hm hc, Or.inl rfl⟩
        · rename_i hchunk
          cases hrem : a.remChunkTokens with
          | none => simp [hrem] at hchunk
          | some rem =>
              simp only [hrem, Option.all_some, decide_eq_true_eq, not_le, Option.getD_some]
                at hchunk ⊢
              split
              · exact Or.inl ⟨_, rfl⟩
              · rename_i hpos
                split
                · exact Or.inl ⟨_, rfl⟩
                · rename_i halign
                  have halign : ∀ n ∈ align, n ≤ a.chunkRoom rem := by
                    intro n hn
                    rw [Option.mem_def.mp hn, Option.any_some, decide_eq_true_eq, not_lt] at halign
                    exact halign
                  obtain ⟨hnonneg, hle, hroom⟩ := chunk_le rem hps align (not_le.mp hpos)
                  refine Or.inr ⟨not_le.mp htotal, truncate req _, some (truncate req _), _, _, 0,
                    rfl, rfl, rfl, ?_, fun _ => ceilPaged_nonneg hps hnonneg, fun _ _ => le_refl _,
                    Or.inr ⟨rfl, rem, rfl, not_le.mp hpos, rfl, halign⟩⟩
                  exact ceilPaged_le hps (dvd_ceilPaged _ _) (hle.trans (hroom.trans hchunk.le))

/-- **What `add_one_req` can do.** -/
theorem addOneReq_cases (hps : 0 < a.pageSize) (align : Option Int) (allowPrefill : Bool) :
    (∃ states, (a.addOneReq req align allowPrefill).2 = { a with reqStates := states }) ∨
    (a.addOneReq req align allowPrefill).2 = { a with
      treeCache := (a.treeCache.incLockRef req.lastNode).decLockRef req.lastNode } ∨
    ∃ cache states req' chunked prefixLen tokens maxNewTokens,
      Takes a req align cache req' chunked tokens maxNewTokens ∧
      (a.addOneReq req align allowPrefill).2 =
        a.taken cache states req' chunked prefixLen tokens maxNewTokens := by
  unfold addOneReq
  split
  · exact Or.inl ⟨a.reqStates, rfl⟩
  · split
    · exact Or.inl ⟨a.reqStates, rfl⟩
    · split
      · rename_i heos
        rcases addOneReqIgnoreEos_cases hps heos.2 align with hnone | ⟨states, req', chunked,
          tokens, maxNewTokens, htakes, heq⟩
        · exact Or.inl hnone
        · exact Or.inr (Or.inr ⟨_, states, req', chunked, 0, tokens, maxNewTokens, htakes, heq⟩)
      · split
        · exact Or.inl ⟨a.reqStates, rfl⟩
        · rename_i htotal
          split
          · exact Or.inl ⟨a.reqStates, rfl⟩
          · have hcases := @addLocked_cases
              { a with treeCache := a.treeCache.incLockRef req.lastNode } req hps align allowPrefill
            rcases hcases with ⟨result, heq⟩ | ⟨hlocked, req', chunked, prefixLen,
              tokens, maxNewTokens, heq, hnode, hrounded, hle, hnonneg, hmax, hchunk⟩
            · refine Or.inr (Or.inl ?_)
              unfold lockNode
              rw [heq]
            · refine Or.inr (Or.inr ⟨_, a.reqStates, req', chunked, prefixLen, tokens, maxNewTokens,
                ⟨hnode, hrounded, hle, hnonneg, hmax, Or.inr ⟨rfl, not_le.mp htotal, hlocked⟩,
                  hchunk.imp id Or.inr⟩, ?_⟩)
              unfold lockNode
              rw [heq]
              rfl

end

end PrefillAdder

end Peek
