/-
What a queued request carries from its last match, and whether it is still current.

A request is `Current` when it carries what matching it now would return.  Splitting nodes
makes nothing stale and nothing current again, as long as the request refers to an object
the cache already had.  So a loop that matches requests one by one, and skips some, leaves
all of them current just when those it skipped were current before (`forEach_current_iff`).
-/
import Peek.Sglang.CacheLookup
import Peek.Sglang.SchedulePolicy

namespace Peek

open RadixCache

namespace RadixCache

/-- A current match ends at an object of the cache. -/
theorem LongestMatch.lt_size {c : RadixCache} (h : Sound c) {key : RadixKey} {m : MatchResult}
    (hm : c.LongestMatch key m) : m.lastDeviceNode < c.nodes.size := by
  obtain ⟨live, rp, pv, h⟩ := h
  obtain ⟨k, hm⟩ := h.longestMatch_iff.mp hm
  exact h.bound _ hm.found.live

end RadixCache

namespace Req

/-- The request carries the match `m`. -/
def Carries (r : Req) (m : MatchResult) : Prop :=
  r.prefixIndices = m.deviceIndices ∧ r.lastNode = some m.lastDeviceNode

/-- What the request carries is what matching it now would return. -/
def Current (r : Req) (c : RadixCache) : Prop := r.Carries (c.matchPrefix r.key).1

instance (r : Req) (c : RadixCache) : Decidable (r.Current c) :=
  inferInstanceAs (Decidable (_ ∧ _))

/-- The node the request refers to, if any, is an object of the cache. -/
def Refers (r : Req) (c : RadixCache) : Prop := ∀ n, r.lastNode = some n → n < c.nodes.size

variable {c c' : RadixCache} {r : Req}

theorem Refers.later (hr : r.Refers c) (hl : Later c c') : r.Refers c' :=
  fun n hn => Nat.lt_of_lt_of_le (hr n hn) hl.size

/-- A request is current when it carries the longest cached prefix of its own key. -/
theorem current_iff (h : Sound c) (hr : r.Refers c) :
    r.Current c ↔ ∃ m, r.Carries m ∧ c.LongestMatch r.key m := by
  constructor
  · intro hcur
    have hs : OnlySplits c (c.matchPrefix r.key).2 := onlySplits_matchPrefixWith true c r.key
    exact ⟨_, hcur, hs.longestMatch_of_old h (h.longestMatch true r.key) (hr _ hcur.2)⟩
  · intro hcur
    obtain ⟨m, hm, hlong⟩ := hcur
    unfold Current
    rw [hlong.matchPrefix_eq h]
    exact hm

/-- **Splits make nothing stale, and nothing current again.** -/
theorem current_onlySplits_iff (hs : OnlySplits c c') (h : Sound c) (hr : r.Refers c) :
    r.Current c' ↔ r.Current c := by
  rw [current_iff h hr, current_iff (hs.sound h) (hr.later (hs.later h))]
  refine exists_congr fun m => and_congr_right fun hm => ?_
  exact ⟨fun hl => hs.longestMatch_of_old h hl (hr _ hm.2), hs.longestMatch h⟩

theorem refers_setMatch (h : Sound c) {key : RadixKey} {m : MatchResult}
    (hm : c.LongestMatch key m) : (r.setMatch m).Refers c := by
  intro n hn
  rw [← Option.some.inj hn]
  exact hm.lt_size h

/-- A request that was given a match is current if the match is one of its own key. -/
theorem current_setMatch_iff (h : Sound c) {key : RadixKey} {m : MatchResult}
    (hm : c.LongestMatch key m) : (r.setMatch m).Current c ↔ c.LongestMatch r.key m := by
  rw [current_iff h (refers_setMatch h hm)]
  constructor
  · intro hcur
    obtain ⟨m', hc, hl⟩ := hcur
    have hmm : m' = m := by
      cases m
      cases m'
      simp only [Carries, setMatch, Option.some.injEq] at hc
      rw [hc.1, hc.2]
    exact hmm ▸ hl
  · exact fun hl => ⟨m, ⟨rfl, rfl⟩, hl⟩

end Req

/-- What a loop over a queue does that matches its requests, but for those it skips. -/
structure MatchesBut {σ : Type} (Skip : Req → Prop) (cache : σ → RadixCache)
    (f : σ → Req → σ × Req) : Prop where
  skipped : ∀ s r, Skip r → cache (f s r).1 = cache s ∧ (f s r).2 = r
  matched : ∀ s r, ¬ Skip r → cache (f s r).1 = ((cache s).matchPrefix r.key).2 ∧
    (f s r).2 = r.setMatch ((cache s).matchPrefix r.key).1

/-- **After such a loop all are current** just when those it skipped were current before. -/
theorem forEach_current_iff {σ : Type} {Skip : Req → Prop} {cache : σ → RadixCache}
    {f : σ → Req → σ × Req} (hf : MatchesBut Skip cache f) :
    ∀ (queue : List Req) (s : σ), Sound (cache s) → (∀ r ∈ queue, r.Refers (cache s)) →
      OnlySplits (cache s) (cache (forEach f s queue).1) ∧
      (∀ r ∈ (forEach f s queue).2, r.Refers (cache (forEach f s queue).1)) ∧
      ((∀ r ∈ (forEach f s queue).2, r.Current (cache (forEach f s queue).1)) ↔
        ∀ r ∈ queue, Skip r → r.Current (cache s)) := by
  intro queue
  induction queue with
  | nil =>
      intro s _ _
      refine ⟨OnlySplits.refl _, ?_, ?_⟩
      · simp [forEach]
      · simp [forEach]
  | cons r queue ih =>
      intro s h hr
      have hr0 := hr r List.mem_cons_self
      rw [forEach_cons]
      -- the turn of `r`
      have hturn : OnlySplits (cache s) (cache (f s r).1) ∧
          (f s r).2.Refers (cache (f s r).1) ∧
          ((f s r).2.Current (cache (f s r).1) ↔ (Skip r → r.Current (cache s))) := by
        by_cases hskip : Skip r
        · obtain ⟨hc, heq⟩ := hf.skipped s r hskip
          rw [hc, heq]
          exact ⟨OnlySplits.refl _, hr0, fun hcur _ => hcur, fun hcur => hcur hskip⟩
        · obtain ⟨hc, heq⟩ := hf.matched s r hskip
          rw [hc, heq]
          have hs : OnlySplits (cache s) ((cache s).matchPrefix r.key).2 :=
            onlySplits_matchPrefixWith true (cache s) r.key
          have hm := h.longestMatch true r.key
          refine ⟨hs, Req.refers_setMatch (hs.sound h) hm, fun _ hc => absurd hc hskip, fun _ => ?_⟩
          exact (Req.current_setMatch_iff (hs.sound h) hm).mpr hm
      obtain ⟨hs, href, hcur⟩ := hturn
      have h1 := hs.sound h
      have hr1 : ∀ r' ∈ queue, r'.Refers (cache (f s r).1) := fun r' hr' =>
        (hr r' (List.mem_cons_of_mem _ hr')).later (hs.later h)
      obtain ⟨hs', href', hcur'⟩ := ih (f s r).1 h1 hr1
      refine ⟨hs.trans hs', ?_, ?_⟩
      · intro b hb
        rcases List.mem_cons.mp hb with rfl | hb
        · exact href.later (hs'.later h1)
        · exact href' b hb
      · rw [List.forall_mem_cons, List.forall_mem_cons, hcur',
          Req.current_onlySplits_iff hs' h1 href, hcur]
        refine and_congr_right fun _ => forall_congr' fun r' => imp_congr_right fun hr' =>
          imp_congr_right fun _ => ?_
        exact Req.current_onlySplits_iff hs h (hr r' (List.mem_cons_of_mem _ hr'))

end Peek
