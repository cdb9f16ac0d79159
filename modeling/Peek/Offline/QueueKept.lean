/-
Which requests a cycle keeps.

A cycle writes matches into the requests and puts them in another order; whether it loses
one is a question about the requests as they were sent.  The full path keeps them all.  The
tagged path clears the queue and fills it from the groups of the tagged requests, so it
keeps them all just when there is no untagged one behind a tagged head.
-/
import Peek.Offline.GroupMatch

namespace Peek

open SchedulePolicy

/-- The request without what scheduling writes into it. -/
def Req.sent (r : Req) : Req :=
  { r with prefixIndices := [], lastNode := none, peekMatched := false }

theorem sent_setMatch (r : Req) (m : MatchResult) : (r.setMatch m).sent = r.sent := rfl

theorem sent_marked (r : Req) (m : MatchResult) :
    ({ r.setMatch m with peekMatched := true } : Req).sent = r.sent := rfl

theorem sent_prefixMatchTurn (check depr : Int) (s : PrefixMatches) (r : Req) :
    (prefixMatchTurn check depr s r).2.sent = r.sent := by
  unfold prefixMatchTurn
  by_cases hr : r.peekMatched = true
  · rw [if_pos hr]
  · rw [if_neg hr]
    exact sent_setMatch r _

/-- A group keeps its members. -/
theorem sent_matchGroup {κ : Type} (updateLru : Bool) (c : RadixCache) (g : κ × List Req) :
    (matchGroup updateLru c g).2.2.map Req.sent = g.2.map Req.sent := by
  unfold matchGroup
  simp only
  rw [List.map_map]
  exact List.map_congr_left fun r _ => sent_marked r _

/-- The groups in any order hold the requests that were grouped. -/
theorem sent_groups {κ : Type} [DecidableEq κ] (updateLru : Bool) (c : RadixCache)
    (key : Req → κ) (queue : List Req) {scored : List (List Req)}
    (hscored : scored.Perm ((forEach (matchGroup updateLru) c (groupBy key queue)).2.map (·.2))) :
    (scored.flatten.map Req.sent).Perm (queue.map Req.sent) := by
  have hgroups : (forEach (matchGroup updateLru) c (groupBy key queue)).2.map
      (fun g => g.2.map Req.sent) = (groupBy key queue).map fun g => g.2.map Req.sent :=
    map_forEach (fun g : κ × List Req => g.2.map Req.sent) (sent_matchGroup updateLru) _ c
  have hflat : ∀ groups : List (κ × List Req),
      ((groups.map (·.2)).flatten).map Req.sent =
        (groups.map fun g => g.2.map Req.sent).flatten := by
    intro groups
    rw [List.map_flatten, List.map_map]
    rfl
  refine (hscored.flatten.map Req.sent).trans ?_
  rw [hflat, hgroups, ← hflat]
  exact (flatten_groupBy_perm key queue).map Req.sent

namespace PeekEngine

variable {o : Scoring} {cfg : EngineConfig} {s : PeekCache} {queue : List Req}

/-- **The tagged path keeps the tagged requests**, and no others. -/
theorem sent_runTagged (hparse : TagsParse queue) :
    ((runTagged o s queue).2.2.map Req.sent).Perm ((tagged queue).map Req.sent) := by
  unfold runTagged
  rw [if_neg (not_not_intro hparse)]
  exact sent_groups true _ groupKey (tagged queue) (o.sortGroups_perm _ _)

/-- **The full path keeps every request.** -/
theorem sent_runFull : ((runFull o cfg s queue).2.map Req.sent).Perm (queue.map Req.sent) := by
  have hmatch := map_forEach Req.sent
    (sent_prefixMatchTurn cfg.checkThreshold cfg.deprioritizeThreshold) queue
    ⟨s.resetProtection.treeCache, RadixCache.createSimulated, ∅⟩
  unfold runFull computePrefixMatches
  simp only
  rw [← hmatch]
  refine List.Perm.map Req.sent ?_
  split
  · exact queueDepthReorder_perm _ _ _ _
  · exact List.perm_insertionSort _ _

/-- The tagged requests are all of them just when no other is queued. -/
theorem tagged_perm_iff : ((tagged queue).map Req.sent).Perm (queue.map Req.sent) ↔
    ∀ r ∈ queue, isTagged r.rid = true := by
  constructor
  · intro h
    have hlen := h.length_eq
    rw [List.length_map, List.length_map] at hlen
    unfold tagged at hlen
    rwa [List.length_filter_eq_length_iff] at hlen
  · intro h
    unfold tagged
    rw [List.filter_eq_self.mpr h]

end PeekEngine

end Peek
