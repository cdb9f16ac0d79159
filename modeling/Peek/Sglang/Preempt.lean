/-
Which running requests give way to a more urgent one.

Those that may are the ones below the threshold that still run and were not preempted before.
They are picked from the least urgent on, until the memory they were going to take is enough;
if all of them together are not enough, nothing happens (`preempt_iff`).  Each that is picked is
released once, with the number of requests that then remain, and the others go on in their order
(`preempt_releases`).
-/
import Peek.Base.Greedy
import Peek.Base.Sorting
import Peek.Sglang.PrefillAdder
import Mathlib.Tactic.Linarith

namespace Peek

open Greedy

namespace PrefillAdder

variable {a : PrefillAdder} {req : PrefillReq}

/-- The running requests that may give way to `req`. -/
def eligible (a : PrefillAdder) (sign : Int) (req : PrefillReq) : List PrefillReq :=
  a.validRunningReqs.filter fun r => a.Preemptible sign req r

/-- The requests that are picked. -/
def picked (a : PrefillAdder) (sign : Int) (req : PrefillReq) : List PrefillReq × ℚ :=
  a.preemptLoop sign req (a.validRunningReqs.insertionSort fun x y =>
    preemptKey sign x ≤ preemptKey sign y) (a.minTokensToRemove req)

/-- The loop stops at the first request that is too urgent. -/
theorem preemptLoop_eq (a : PrefillAdder) (sign : Int) (req : PrefillReq) :
    ∀ (l : List PrefillReq) (m : ℚ), a.preemptLoop sign req l m =
      pickUntil a.getRunningRequestTotalTokenOffset
        (l.takeWhile fun r => a.Preemptible sign req r) m := by
  intro l
  induction l with
  | nil => intro m; rfl
  | cons r rs ih =>
      intro m
      unfold preemptLoop
      by_cases hp : a.Preemptible sign req r
      · rw [if_pos hp, List.takeWhile_cons_of_pos (by simpa using hp), pickUntil]
        dsimp only
        rw [ih]
      · rw [if_neg hp, List.takeWhile_cons_of_neg (by simpa using hp), pickUntil]

/-- Of two requests the one that sorts first is no more urgent. -/
theorem preemptible_of_le {sign : Int} {x y : PrefillReq}
    (hle : preemptKey sign x ≤ preemptKey sign y) (hy : a.Preemptible sign req y) :
    a.Preemptible sign req x := by
  have hprio : x.priority * -sign ≤ y.priority * -sign := by
    rcases Prod.Lex.toLex_le_toLex.mp hle with hlt | ⟨heq, -⟩
    · exact hlt.le
    · exact heq.le
  unfold Preemptible at hy ⊢
  rw [Int.sub_mul] at hy ⊢
  omega

/-- The eligible ones, the least urgent first. -/
def sortedEligible (a : PrefillAdder) (sign : Int) (req : PrefillReq) : List PrefillReq :=
  (a.validRunningReqs.insertionSort fun x y => preemptKey sign x ≤ preemptKey sign y).filter
    fun r => a.Preemptible sign req r

theorem sortedEligible_perm (a : PrefillAdder) (sign : Int) (req : PrefillReq) :
    (a.sortedEligible sign req).Perm (a.eligible sign req) :=
  (List.perm_insertionSort _ _).filter _

theorem picked_eq (a : PrefillAdder) (sign : Int) (req : PrefillReq) :
    a.picked sign req = pickUntil a.getRunningRequestTotalTokenOffset (a.sortedEligible sign req)
      (a.minTokensToRemove req) := by
  unfold picked sortedEligible
  rw [preemptLoop_eq, takeWhile_eq_filter]
  refine (pairwise_sorted (preemptKey sign) a.validRunningReqs).imp fun hle hy => ?_
  rw [decide_eq_true_eq] at hy ⊢
  exact preemptible_of_le hle hy

/-! ### Releasing -/

/-- The loop releases those that were picked, and keeps the others. -/
theorem releaseLoop_eq (a : PrefillAdder) (rids : List ReqId) (numReqs : Nat) :
    ∀ (l : List PrefillReq) (i counter : Nat), a.releaseLoop rids numReqs i counter l =
      (((l.filter fun r => r.rid ∈ rids).map a.getRunningRequestTotalTokenOffset).sum,
        ((l.zipIdx i).filter fun x => x.1.rid ∈ rids).mapIdx fun j x =>
          (x.2, numReqs - (counter + j + 1)),
        l.filter fun r => r.rid ∉ rids) := by
  intro l
  induction l with
  | nil => intro i counter; rfl
  | cons r rs ih =>
      intro i counter
      unfold releaseLoop
      by_cases hr : r.rid ∈ rids
      · rw [if_pos hr, ih]
        simp only [List.zipIdx_cons, List.filter_cons, hr, decide_true, if_true, List.map_cons,
          List.sum_cons, not_true_eq_false, decide_false, List.mapIdx_cons]
        have hshift : ∀ j, counter + 1 + j + 1 = counter + (j + 1) + 1 := fun j => by omega
        simp only [hshift]
        rfl
      · rw [if_neg hr, ih]
        simp only [List.zipIdx_cons, List.filter_cons, hr, decide_false, not_false_eq_true,
          decide_true, if_true, Bool.false_eq_true, if_false]

/-- Among requests with distinct ids, those whose ids were picked are those that were picked. -/
theorem filter_rid_perm {l picked : List PrefillReq} (hnd : (l.map (·.rid)).Nodup)
    (hsub : ∀ r ∈ picked, r ∈ l) (hpicked : picked.Nodup) :
    (l.filter fun r => r.rid ∈ picked.map (·.rid)).Perm picked := by
  refine (List.perm_ext_iff_of_nodup (hnd.of_map.filter _) hpicked).mpr fun r => ?_
  rw [List.mem_filter, decide_eq_true_eq, List.mem_map]
  constructor
  · rintro ⟨hr, q, hq, heq⟩
    rwa [← List.inj_on_of_nodup_map hnd (hsub q hq) hr heq]
  · exact fun hr => ⟨hsub r hr, r, hr, rfl⟩

section

variable (hnd : (a.runningBatch.map (·.rid)).Nodup)
  (hoffset : ∀ r ∈ a.runningBatch, 0 ≤ a.getRunningRequestTotalTokenOffset r)

theorem mem_eligible {sign : Int} {r : PrefillReq} : r ∈ a.eligible sign req ↔
    r ∈ a.runningBatch ∧ r.rid ∉ a.preemptList.map (·.rid) ∧ r.finished = false ∧
      a.Preemptible sign req r := by
  unfold eligible validRunningReqs
  rw [List.mem_filter, List.mem_filter, decide_eq_true_eq, decide_eq_true_eq, Bool.not_eq_true',
    and_assoc, and_assoc]

/-- The new state, with those that were picked out of the batch. -/
def preempted (a : PrefillAdder) (picked : List PrefillReq) : PrefillAdder :=
  { a with
    remTotalTokenOffset :=
      a.remTotalTokenOffset - (picked.map a.getRunningRequestTotalTokenOffset).sum
    runningBatch := a.runningBatch.filter fun r => r.rid ∉ picked.map (·.rid)
    preemptList := a.preemptList ++ picked }

/-- For each that was picked its index, and how many then remain. -/
def releaseCalls (a : PrefillAdder) (picked : List PrefillReq) : List ReleaseCall :=
  (a.runningBatch.zipIdx.filter fun x => x.1.rid ∈ picked.map (·.rid)).mapIdx fun j x =>
    (x.2, a.runningBatch.length - (j + 1))

include hnd in
theorem picked_spec (sign : Int) :
    (a.picked sign req).1.Nodup ∧ (∀ r ∈ (a.picked sign req).1, r ∈ a.eligible sign req) ∧
      (a.picked sign req).2 = a.minTokensToRemove req -
        ((a.picked sign req).1.map a.getRunningRequestTotalTokenOffset).sum := by
  have hperm := a.sortedEligible_perm sign req
  obtain ⟨hpre, hmissing⟩ := pickUntil_spec a.getRunningRequestTotalTokenOffset
    (a.sortedEligible sign req) (a.minTokensToRemove req)
  rw [← picked_eq] at hpre hmissing
  have hsorted : (a.sortedEligible sign req).Nodup :=
    hperm.nodup_iff.mpr ((hnd.of_map.filter _).filter _)
  exact ⟨hsorted.sublist hpre.sublist, fun r hr => hperm.mem_iff.mp (hpre.subset hr), hmissing⟩

include hnd in
theorem preempt_eq (low : Bool) :
    a.preemptToSchedule req low =
      if (a.picked (prioritySign low) req).1 = [] ∨ (a.picked (prioritySign low) req).2 > 0 then
        (false, [], a)
      else (true, a.releaseCalls (a.picked (prioritySign low) req).1,
        a.preempted (a.picked (prioritySign low) req).1) := by
  obtain ⟨hnodup, hsub, -⟩ := @picked_spec a req hnd (prioritySign low)
  have hreleased := filter_rid_perm hnd (fun r hr => (mem_eligible.mp (hsub r hr)).1) hnodup
  unfold preemptToSchedule
  show (if _ then _ else _) = _
  by_cases hstop : (a.picked (prioritySign low) req).1 = [] ∨
      (a.picked (prioritySign low) req).2 > 0
  · rw [if_pos hstop]
    exact if_pos hstop
  · rw [if_neg hstop]
    refine (if_neg hstop).trans ?_
    rw [releaseLoop_eq]
    unfold releaseCalls preempted
    rw [← (hreleased.map a.getRunningRequestTotalTokenOffset).sum_eq]
    simp only [Nat.zero_add]
    rfl

include hnd hoffset in
/-- **When requests give way.** -/
theorem preempt_fst_iff (low : Bool) :
    (a.preemptToSchedule req low).1 = true ↔
      a.eligible (prioritySign low) req ≠ [] ∧ a.minTokensToRemove req ≤
        ((a.eligible (prioritySign low) req).map a.getRunningRequestTotalTokenOffset).sum := by
  have hperm := a.sortedEligible_perm (prioritySign low) req
  have hnil : a.sortedEligible (prioritySign low) req = [] ↔
      a.eligible (prioritySign low) req = [] := by
    rw [← List.length_eq_zero_iff, ← List.length_eq_zero_iff, hperm.length_eq]
  rw [preempt_eq hnd low, picked_eq]
  by_cases hempty : a.eligible (prioritySign low) req = []
  · rw [hnil.mpr hempty]
    simp [pickUntil, hempty]
  · have hne := mt hnil.mp hempty
    have hiff := missing_nonpos_iff (w := a.getRunningRequestTotalTokenOffset)
      (m := a.minTokensToRemove req) (fun r hr => hoffset r
        (mem_eligible.mp (hperm.mem_iff.mp hr)).1) hne
    rw [(hperm.map _).sum_eq] at hiff
    rw [and_iff_right hempty, ← hiff]
    by_cases hmissing : (pickUntil a.getRunningRequestTotalTokenOffset
        (a.sortedEligible (prioritySign low) req) (a.minTokensToRemove req)).2 ≤ 0
    · rw [if_neg (by rw [not_or]; exact ⟨pickUntil_ne_nil hne _, not_lt.mpr hmissing⟩)]
      exact iff_of_true rfl hmissing
    · rw [if_pos (Or.inr (not_le.mp hmissing))]
      exact iff_of_false Bool.false_ne_true hmissing

end

/-- Two running requests that are to generate four tokens each, and seven free slots. -/
def twoRunning : PrefillAdder :=
  new 1 (RadixCache.new 1 false) 7
    [⟨"a", [1], [], [1], [], 0, 1, 4, false, 0, 0, false⟩,
      ⟨"b", [2], [], [2], [], 0, 1, 4, false, 1, 1, false⟩] 1 100 none 0 0 none false 4096

/-- A more urgent prompt of two tokens, to generate one. -/
def urgent : PrefillReq := ⟨"c", [3, 4], [], [3, 4], [], 0, 2, 1, false, 5, 2, false⟩

end PrefillAdder

end Peek
