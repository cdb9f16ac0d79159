/-
The SGLang hook's sync (`python/peek/online/engines/sglang/patch_hook.py`).

`_sync` runs on every turn of the scheduler.  It compares the rids of the waiting queue
with those of the last sync and does nothing when they are the same; otherwise it brings
the tables in line.

What is proved is that skipping is harmless.  A queue with the same rids carries the same
tokens, so the tables are what a full rebuild would make them, after every call of every
run.  The phase timings, a record for measurements that nothing here reads, are left out.
-/
import Peek.Online.SessionDiff
import Mathlib.Data.List.Chain

namespace Peek

structure SglangHook where
  session : Session
  lastRids : Finset ReqId

namespace SglangHook

def new : SglangHook := { session := Session.new, lastRids := ∅ }

/-- `{req.rid for req in wq}` -/
def currentStrs (wq : List Req) : Finset ReqId := (wq.map (·.rid)).toFinset

/-- `_sync`; `order` is the order in which Python goes through the tracked ids. -/
def sync (order : List Rid → List Rid) (h : SglangHook) (wq : List Req) : SglangHook :=
  if wq.length = h.lastRids.card ∧ currentStrs wq = h.lastRids then h
  else
    { session := h.session.diff order (wq.map fun r => (r.rid, r.tokens))
      lastRids := currentStrs wq }

/-- One `_sync` after the other, from the hook as it is installed. -/
def run (order : List Rid → List Rid) (queues : List (List Req)) : SglangHook :=
  queues.foldl (sync order) new

/-! ### In sync -/

/-- **The tables are in line with a waiting queue**: nothing is missing, stale or shared. -/
structure InSync (h : SglangHook) (wq : List Req) : Prop where
  repInv : PendingTree.RepInv h.session.peekTree
  pending : ∀ i tokens, h.session.peekTree.paths.lookup i = some tokens ↔
    ∃ r ∈ wq, h.session.interner.ridInterner.lookup r.rid = some i ∧ r.tokens = tokens
  seen : ∀ i, i ∈ h.session.seenThisSession ↔
    ∃ r ∈ wq, h.session.interner.ridInterner.lookup r.rid = some i
  seenNodup : h.session.seenThisSession.Nodup
  inverse : ∀ rid i, h.session.interner.ridInterner.lookup rid = some i ↔
    h.session.interner.ridUnintern.lookup i = some rid
  interned : ∀ rid, (∃ i, h.session.interner.ridInterner.lookup rid = some i) ↔
    ∃ r ∈ wq, r.rid = rid
  valueErrors : h.session.valueErrors = 0

/-- A rid in both of two queues carries the same tokens in both. -/
def Carries (wq wq' : List Req) : Prop :=
  ∀ r ∈ wq, ∀ r' ∈ wq', r.rid = r'.rid → r.tokens = r'.tokens

instance (wq wq' : List Req) : Decidable (Carries wq wq') :=
  inferInstanceAs (Decidable (∀ r ∈ wq, ∀ r' ∈ wq', r.rid = r'.rid → r.tokens = r'.tokens))

/-! ### The queue as a map -/

/-- The tokens a queue has for a rid. -/
def queueTokens (wq : List Req) (rid : ReqId) : Option (List Token) :=
  (wq.map fun r => (r.rid, r.tokens)).lookup rid

theorem queueTokens_cons (r : Req) (wq : List Req) (rid : ReqId) :
    queueTokens (r :: wq) rid = if rid = r.rid then some r.tokens else queueTokens wq rid := by
  unfold queueTokens
  rw [List.map_cons, List.lookup_cons]
  by_cases h : rid = r.rid
  · rw [if_pos h, beq_iff_eq.mpr h]
  · rw [if_neg h, beq_false_of_ne h]

theorem exists_of_queueTokens {wq : List Req} {rid : ReqId} {tokens : List Token}
    (h : queueTokens wq rid = some tokens) : ∃ r ∈ wq, r.rid = rid ∧ r.tokens = tokens := by
  induction wq with
  | nil => simp [queueTokens] at h
  | cons r wq ih =>
      rw [queueTokens_cons] at h
      by_cases hr : rid = r.rid
      · rw [if_pos hr, Option.some.injEq] at h
        exact ⟨r, List.mem_cons_self, hr.symm, h⟩
      · rw [if_neg hr] at h
        obtain ⟨r', hr', hrid, ht⟩ := ih h
        exact ⟨r', List.mem_cons_of_mem _ hr', hrid, ht⟩

theorem queueTokens_ne_none_iff {wq : List Req} {rid : ReqId} :
    queueTokens wq rid ≠ none ↔ ∃ r ∈ wq, r.rid = rid := by
  constructor
  · intro h
    obtain ⟨tokens, ht⟩ := Option.ne_none_iff_exists'.mp h
    obtain ⟨r, hr, hrid, -⟩ := exists_of_queueTokens ht
    exact ⟨r, hr, hrid⟩
  · intro h
    induction wq with
    | nil => simp at h
    | cons r wq ih =>
        rw [queueTokens_cons]
        by_cases hr : rid = r.rid
        · rw [if_pos hr]; simp
        · rw [if_neg hr]
          obtain ⟨r', hr', hrid⟩ := h
          rcases List.mem_cons.mp hr' with rfl | hr'
          · exact absurd hrid.symm hr
          · exact ih ⟨r', hr', hrid⟩

theorem queueTokens_of_mem {wq : List Req} (hnd : (wq.map (·.rid)).Nodup) {r : Req} (hr : r ∈ wq) :
    queueTokens wq r.rid = some r.tokens := by
  obtain ⟨tokens, ht⟩ := Option.ne_none_iff_exists'.mp
    (queueTokens_ne_none_iff.mpr ⟨r, hr, rfl⟩)
  obtain ⟨r', hr', hrid, heq⟩ := exists_of_queueTokens ht
  rw [ht, ← heq, List.inj_on_of_nodup_map hnd hr' hr hrid]

theorem mem_currentStrs {wq : List Req} {rid : ReqId} :
    rid ∈ currentStrs wq ↔ ∃ r ∈ wq, r.rid = rid := by
  unfold currentStrs
  rw [List.mem_toFinset, List.mem_map]

/-- Two queues that carry the same tokens agree where both have something. -/
theorem Carries.queueTokens_eq {wq wq' : List Req} (hc : Carries wq wq') {rid : ReqId}
    (h : queueTokens wq rid ≠ none) (h' : queueTokens wq' rid ≠ none) :
    queueTokens wq rid = queueTokens wq' rid := by
  obtain ⟨ts, hts⟩ := Option.ne_none_iff_exists'.mp h
  obtain ⟨ts', hts'⟩ := Option.ne_none_iff_exists'.mp h'
  obtain ⟨r, hr, hrid, hrt⟩ := exists_of_queueTokens hts
  obtain ⟨r', hr', hrid', hrt'⟩ := exists_of_queueTokens hts'
  rw [hts, hts', ← hrt, ← hrt', hc r hr r' hr' (hrid.trans hrid'.symm)]

/-! ### One sync -/

/-- The tables track the last queue, and the interner knows no one else. -/
structure Synced (h : SglangHook) (wq : List Req) : Prop where
  tracks : Tracks h.session (queueTokens wq)
  interned : ∀ rid i, h.session.interner.ridInterner.lookup rid = some i →
    queueTokens wq rid ≠ none
  lastRids : h.lastRids = currentStrs wq

theorem new_synced : Synced new [] where
  tracks := Tracks.new
  interned rid i h := by simp [new, Session.new, Interner.new] at h
  lastRids := rfl

/-- What `Synced` says, table by table. -/
theorem Synced.inSync {h : SglangHook} {wq : List Req} (hs : Synced h wq)
    (hnd : (wq.map (·.rid)).Nodup) : InSync h wq where
  repInv := hs.tracks.tree.repInv
  pending i tokens := by
    rw [hs.tracks.paths]
    constructor
    · rintro ⟨rid, hi, hT⟩
      obtain ⟨r, hr, rfl, ht⟩ := exists_of_queueTokens hT
      exact ⟨r, hr, hi, ht⟩
    · rintro ⟨r, hr, hi, rfl⟩
      exact ⟨r.rid, hi, queueTokens_of_mem hnd hr⟩
  seen i := by
    rw [hs.tracks.seen]
    constructor
    · rintro ⟨rid, hi, hT⟩
      obtain ⟨r, hr, rfl⟩ := queueTokens_ne_none_iff.mp hT
      exact ⟨r, hr, hi⟩
    · rintro ⟨r, hr, hi⟩
      exact ⟨r.rid, hi, queueTokens_ne_none_iff.mpr ⟨r, hr, rfl⟩⟩
  seenNodup := hs.tracks.nodup
  inverse := h.session.interner.inverse
  interned rid := by
    rw [← queueTokens_ne_none_iff]
    exact ⟨fun ⟨i, hi⟩ => hs.interned rid i hi, hs.tracks.interned rid⟩
  valueErrors := hs.tracks.valueErrors

section

variable {order : List Rid → List Rid} (horder : ∀ l, (order l).Perm l)
include horder

/-- **A sync brings the tables in line with its queue**, by doing nothing if it can. -/
theorem Synced.sync {h : SglangHook} {wq wq' : List Req} (hs : Synced h wq)
    (hc : Carries wq wq') : Synced (sync order h wq') wq' := by
  unfold SglangHook.sync
  by_cases hfast : wq'.length = h.lastRids.card ∧ currentStrs wq' = h.lastRids
  · -- the same rids, hence the same tokens
    rw [if_pos hfast]
    have hsame : queueTokens wq' = queueTokens wq := by
      funext rid
      have hiff : queueTokens wq rid ≠ none ↔ queueTokens wq' rid ≠ none := by
        rw [queueTokens_ne_none_iff, queueTokens_ne_none_iff, ← mem_currentStrs, ← mem_currentStrs,
          hfast.2, hs.lastRids]
      by_cases hrid : queueTokens wq rid = none
      · rw [hrid]
        by_contra hne
        exact hiff.mpr hne hrid
      · exact (hc.queueTokens_eq hrid (hiff.mp hrid)).symm
    exact ⟨hsame ▸ hs.tracks, hsame ▸ hs.interned, hfast.2.symm⟩
  · rw [if_neg hfast]
    obtain ⟨htracks, -, -, hothers⟩ :=
      hs.tracks.diff horder (wq'.map fun r => (r.rid, r.tokens))
    have hmem : ∀ rid, rid ∈ (wq'.map fun r => (r.rid, r.tokens)).map (·.1) ↔
        queueTokens wq' rid ≠ none := by
      intro rid
      rw [queueTokens_ne_none_iff, List.map_map, List.mem_map]
      rfl
    have hT : queueTokens wq' = fun rid =>
        if rid ∈ (wq'.map fun r => (r.rid, r.tokens)).map (·.1) then
          (queueTokens wq rid).or (queueTokens wq' rid) else none := by
      funext rid
      by_cases hrid : queueTokens wq' rid = none
      · rw [if_neg (by rw [hmem]; simp [hrid]), hrid]
      · rw [if_pos ((hmem rid).mpr hrid)]
        by_cases hold : queueTokens wq rid = none
        · rw [hold, Option.none_or]
        · rw [hc.queueTokens_eq hold hrid, Option.or_self]
    refine ⟨hT ▸ htracks, fun rid i hi => ?_, rfl⟩
    by_contra hrid
    rw [hothers rid fun hc => (hmem rid).mp hc hrid] at hi
    by_cases hold : queueTokens wq rid = none
    · rw [if_pos hold] at hi
      exact hs.interned rid i hi hold
    · rw [if_neg hold] at hi
      simp at hi

/-! ### Every run -/

/-- What a run of syncs preserves. -/
theorem Synced.run : ∀ (queues : List (List Req)) {h : SglangHook} {wq : List Req}, Synced h wq →
    (wq :: queues).IsChain Carries →
    Synced (queues.foldl (SglangHook.sync order) h) (queues.getLastD wq) := by
  intro queues
  induction queues with
  | nil => intro h wq hs _; exact hs
  | cons wq' queues ih =>
      intro h wq hs hc
      rw [List.isChain_cons_cons] at hc
      rw [List.foldl_cons, List.getLastD_cons]
      exact ih (hs.sync horder hc.1) hc.2

/-- Whatever the queues, a sync gives out no id again. -/
theorem later_sync {h : SglangHook} (hs : ∃ T, Tracks h.session T) (wq : List Req) :
    (∃ T, Tracks (sync order h wq).session T) ∧
      h.session.interner.Later (sync order h wq).session.interner := by
  unfold sync
  by_cases hfast : wq.length = h.lastRids.card ∧ currentStrs wq = h.lastRids
  · rw [if_pos hfast]; exact ⟨hs, Interner.Later.refl _⟩
  · rw [if_neg hfast]
    obtain ⟨T, hT⟩ := hs
    obtain ⟨h1, h2, -⟩ := hT.diff horder (wq.map fun r => (r.rid, r.tokens))
    exact ⟨⟨_, h1⟩, h2⟩

theorem later_foldl : ∀ (queues : List (List Req)) {h : SglangHook}, (∃ T, Tracks h.session T) →
    (∃ T, Tracks (queues.foldl (sync order) h).session T) ∧
      h.session.interner.Later (queues.foldl (sync order) h).session.interner := by
  intro queues
  induction queues with
  | nil => intro h hs; exact ⟨hs, Interner.Later.refl _⟩
  | cons wq queues ih =>
      intro h hs
      obtain ⟨h1, h2⟩ := later_sync horder hs wq
      obtain ⟨h3, h4⟩ := ih h1
      exact ⟨h3, h2.trans h4⟩

/-- A longer run is later. -/
theorem later_run (before after : List (List Req)) :
    (run order before).session.interner.Later (run order (before ++ after)).session.interner := by
  obtain ⟨hs, -⟩ := later_foldl horder before ⟨_, Tracks.new⟩ (h := new)
  unfold run
  rw [List.foldl_append]
  exact (later_foldl horder after hs).2

/--
**The SGLang sync invariant.**  After every call of every run the tables are in line
with the queue just passed, and an id stands for one rid only: if two moments of a run
have it, then for the same rid, which kept it all the time between.
-/
theorem run_inSync (queues : List (List Req)) (hnd : ∀ wq ∈ queues, (wq.map (·.rid)).Nodup)
    (hc : queues.IsChain Carries) :
    InSync (run order queues) (queues.getLastD []) ∧
      ∀ before mid after, queues = before ++ mid ++ after → ∀ a b i,
        (run order before).session.interner.ridInterner.lookup a = some i →
        (run order queues).session.interner.ridInterner.lookup b = some i →
        a = b ∧ (run order (before ++ mid)).session.interner.ridInterner.lookup a = some i := by
  have hchain : ([] :: queues).IsChain Carries := by
    cases queues with
    | nil => exact List.IsChain.singleton _
    | cons wq rest =>
        rw [List.isChain_cons_cons]
        exact ⟨fun r hr => by simp at hr, hc⟩
  have hs := Synced.run horder queues new_synced hchain
  refine ⟨hs.inSync ?_, ?_⟩
  · rw [List.getLastD_eq_getLast?]
    cases hlast : queues.getLast? with
    | none => exact List.nodup_nil
    | some wq => exact hnd wq (List.mem_of_getLast? hlast)
  · intro before mid after hq a b i ha hb
    have h1 := later_run horder before mid
    have h2 := later_run horder (before ++ mid) after
    rw [← hq] at h2
    have hbound := (run order before).session.interner.bound a i ha
    have hmid : (run order (before ++ mid)).session.interner.ridInterner.lookup b = some i :=
      (h2.fresh b i hb).resolve_right (Nat.not_lt_of_le (hbound.trans h1.counter))
    have hbefore : (run order before).session.interner.ridInterner.lookup b = some i :=
      (h1.fresh b i hmid).resolve_right (Nat.not_lt_of_le hbound)
    have hab := (run order before).session.interner.injective ha hbefore
    exact ⟨hab, hab ▸ hmid⟩

end

/-- A rid that leaves the queue and comes back gets a new id. -/
theorem run_inSync_return :
    let a : Req := ⟨"a", [1, 2], [3], none, [], none, false⟩
    let b : Req := ⟨"b", [1, 4], [], none, [], none, false⟩
    InSync (run id [[a], [a, b], [b], [b, a]]) [b, a] ∧
      (run id [[a]]).session.interner.ridInterner.lookup "a" = some 1 ∧
      (run id [[a], [a, b], [b], [b, a]]).session.interner.ridInterner.lookup "a" = some 3 := by
  intro a b
  refine ⟨(run_inSync (fun l => List.Perm.refl l) [[a], [a, b], [b], [b, a]] (by decide) ?_).1,
    by decide, by decide⟩
  rw [List.isChain_cons_cons, List.isChain_cons_cons, List.isChain_cons_cons]
  exact ⟨by decide, by decide, by decide, List.IsChain.singleton _⟩

end SglangHook

end Peek
