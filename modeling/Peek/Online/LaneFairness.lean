/-
What the fairness lane bounds.

A run of ticks carries one share for each tree from tick to tick (`_dyn_lane_state`), and the
smoothing keeps it where the clamp puts every raw share.  So both lanes of a dynamic tick have
turns, and `Stride.Fair` bounds how long a request waits by its place in either lane: in Lane B,
that is by the requests of lower sections and by the older ones of its own.
-/
import Peek.Online.StrideQuota

namespace Peek

open LaneMerge

/-! ### Ticks -/

/-- One call of the sort, and which tree it is for (`id(tree)`). -/
structure SortTick (F : Type) where
  treeId : Nat
  options : ClpmOptions F
  ridToInt : Map ReqId Rid
  tree : PendingTree
  time : F
  waitingQueue : List Req

namespace SortTick

variable {F : Type} (f : PyFloat F) (t : SortTick F) (dynLaneState : Map Nat F)

/-- Lane A's share in the tick, and what `_dyn_lane_state` holds for its tree then. -/
def laneShare : F × Option F :=
  Peek.laneShare f t.options t.ridToInt t.tree.allClusterInfo (sampledNow f t.options t.time)
    t.waitingQueue (dynLaneState.lookup t.treeId)

def share : F := (t.laneShare f dynLaneState).1

def result : ClpmResult F :=
  peekClpmSortInplace f t.options t.ridToInt t.tree t.time (dynLaneState.lookup t.treeId)
    t.waitingQueue

/-- `_dyn_lane_state` after the tick. -/
def next : Map Nat F :=
  match (t.result f dynLaneState).dynLaneState with
  | some smoothedB => dynLaneState.insert t.treeId smoothedB
  | none => dynLaneState

/-- The lane keys of the tick's requests. -/
def metas : List LaneMeta :=
  laneMetas f t.options t.ridToInt t.tree t.time t.waitingQueue

def aOrder : List Nat := laneAOrder t.options.groupMajor (t.metas f)

def bOrder : List Nat := laneBOrder (t.metas f)

/-- `[waiting_queue[i] for i in order]` -/
def requests (order : List Nat) : List Req := order.map fun i => t.waitingQueue.getD i default

end SortTick

/-- `_dyn_lane_state` after a run of ticks, of any trees in any order. -/
def dynLaneRun {F : Type} (f : PyFloat F) (ticks : List (SortTick F)) : Map Nat F :=
  ticks.foldl (fun dynLaneState t => t.next f dynLaneState) ∅

/-! ### The dynamic lane -/

/-- Where the clamp puts a share of Lane B. -/
def InLaneRange (b : ℚ) : Prop := 1 / 10 ≤ b ∧ b ≤ 6 / 10

section

variable (o : ClpmOptions ℚ) (ridToInt : Map ReqId Rid)
  (allInfo : Map Rid (Option (NodeId × Nat × Nat))) (now : ℚ)

/-- `max(0.10, min(0.60, raw_b))` -/
theorem inLaneRange_clamp (raw : ℚ) : InLaneRange (PyFloat.exact.max (PyFloat.exact.ofRat 0.1)
    (PyFloat.exact.min (PyFloat.exact.ofRat 0.6) raw)) := by
  unfold InLaneRange PyFloat.max PyFloat.min PyFloat.exact
  simp only [decide_eq_true_eq]
  split <;> split at * <;> constructor <;> norm_num at * <;> linarith

theorem inLaneRange_rawLaneB (waitingQueue : List Req) :
    InLaneRange (rawLaneB PyFloat.exact o ridToInt allInfo now waitingQueue) :=
  inLaneRange_clamp _

/-- Smoothing stays between what it smooths. -/
theorem inLaneRange_smoothed {prevB rawB : ℚ} (hprev : InLaneRange prevB)
    (hraw : InLaneRange rawB) : InLaneRange (0.7 * prevB + 0.3 * rawB) := by
  obtain ⟨hlow, hhigh⟩ := hprev
  obtain ⟨hlow', hhigh'⟩ := hraw
  constructor <;> norm_num <;> linarith

/-- **The share of a dynamic tick**, from a state in range. -/
theorem laneShare_dynamic {waitingQueue : List Req} (prevB : Option ℚ)
    (hdyn : o.dynamicLane = true) (hne : waitingQueue ≠ [])
    (hprev : ∀ b, prevB = some b → InLaneRange b) :
    ∃ b, InLaneRange b ∧
      laneShare PyFloat.exact o ridToInt allInfo now waitingQueue prevB = (1 - b, some b) := by
  have hdefault : InLaneRange (prevB.getD (PyFloat.exact.ofRat 0.3)) := by
    cases prevB with
    | none =>
        show InLaneRange 0.3
        constructor <;> norm_num
    | some b => exact hprev b rfl
  refine ⟨_, inLaneRange_smoothed hdefault
    (inLaneRange_rawLaneB o ridToInt allInfo now waitingQueue), ?_⟩
  unfold laneShare
  rw [if_pos ⟨hdyn, hne⟩]
  rfl

theorem laneShare_static {waitingQueue : List Req} (prevB : Option ℚ)
    (h : ¬ (o.dynamicLane = true ∧ waitingQueue ≠ [])) :
    laneShare PyFloat.exact o ridToInt allInfo now waitingQueue prevB =
      (o.bigLaneShare, prevB) := by
  unfold laneShare
  rw [if_neg h]

end

/-- Every share that is kept is in range. -/
def StateInRange (dynLaneState : Map Nat ℚ) : Prop :=
  ∀ treeId b, dynLaneState.lookup treeId = some b → InLaneRange b

namespace SortTick

variable (t : SortTick ℚ) {dynLaneState : Map Nat ℚ}

/-- **One tick keeps the shares in range.** -/
theorem stateInRange_next (h : StateInRange dynLaneState) :
    StateInRange (t.next PyFloat.exact dynLaneState) := by
  have hkept : ∀ b, (t.laneShare PyFloat.exact dynLaneState).2 = some b → InLaneRange b := by
    intro b hb
    unfold laneShare at hb
    by_cases hdyn : t.options.dynamicLane = true ∧ t.waitingQueue ≠ []
    · obtain ⟨b', hrange, heq⟩ := laneShare_dynamic t.options t.ridToInt t.tree.allClusterInfo
        (sampledNow PyFloat.exact t.options t.time) (dynLaneState.lookup t.treeId) hdyn.1 hdyn.2
        (h t.treeId)
      rw [heq] at hb
      exact Option.some.inj hb ▸ hrange
    · rw [laneShare_static _ _ _ _ _ hdyn] at hb
      exact h t.treeId b hb
  intro treeId b hb
  have hresult : (t.result PyFloat.exact dynLaneState).dynLaneState =
      (t.laneShare PyFloat.exact dynLaneState).2 := rfl
  unfold next at hb
  rw [hresult] at hb
  cases hshare : (t.laneShare PyFloat.exact dynLaneState).2 with
  | none =>
      rw [hshare] at hb
      exact h treeId b hb
  | some smoothedB =>
      rw [hshare, Map.lookup_insert_of] at hb
      split at hb
      · exact hkept b (hshare.trans hb)
      · exact h treeId b hb

end SortTick

/-- **So does a run of ticks.** -/
theorem stateInRange_run (ticks : List (SortTick ℚ)) :
    StateInRange (dynLaneRun PyFloat.exact ticks) := by
  have hfold : ∀ dynLaneState : Map Nat ℚ, StateInRange dynLaneState → StateInRange
      (ticks.foldl (fun dynLaneState t => t.next PyFloat.exact dynLaneState) dynLaneState) := by
    induction ticks with
    | nil => exact fun _ h => h
    | cons t ticks ih => exact fun _ h => ih _ (t.stateInRange_next h)
  refine hfold ∅ fun treeId b hb => ?_
  rw [AList.lookup_empty] at hb
  exact absurd hb (by simp)

/-! ### Every tick sorts -/

namespace SortTick

variable (t : SortTick ℚ) (dynLaneState : Map Nat ℚ)

/-- The share leaves both lanes more than a sliver. -/
def TakesStridePath : Prop :=
  1e-9 < t.share PyFloat.exact dynLaneState ∧ t.share PyFloat.exact dynLaneState < 1 - 1e-9

/-- The merge of the tick's lanes after `k` turns. -/
def mergeAfter (k : Nat) : StrideState ℚ :=
  strideAfter PyFloat.exact (t.share PyFloat.exact dynLaneState) (t.aOrder PyFloat.exact)
    (t.bOrder PyFloat.exact) k

/-- What one tick does. -/
structure Sorts : Prop where
  perm : (t.result PyFloat.exact dynLaneState).waitingQueue.Perm t.waitingQueue
  picksEach : PicksEach PyFloat.exact (t.share PyFloat.exact dynLaneState)
    (t.aOrder PyFloat.exact) (t.bOrder PyFloat.exact)
  /-- On the stride path there are as many turns as requests. -/
  stride : t.TakesStridePath dynLaneState →
    (t.result PyFloat.exact dynLaneState).waitingQueue =
      t.requests (t.mergeAfter dynLaneState t.waitingQueue.length).order
  dynamic : t.options.dynamicLane = true → t.waitingQueue ≠ [] →
    InLaneRange (1 - t.share PyFloat.exact dynLaneState) ∧ t.TakesStridePath dynLaneState

theorem length_aOrder : (t.aOrder PyFloat.exact).length = t.waitingQueue.length :=
  (length_laneAOrder _ _).trans (length_laneMetas _ _ _ _ _ _)

theorem nodup_aOrder : (t.aOrder PyFloat.exact).Nodup := nodup_laneAOrder _ _

theorem aOrder_perm : (t.aOrder PyFloat.exact).Perm (t.bOrder PyFloat.exact) :=
  laneOrders_perm _ _

/-- The result, read off the merge. -/
theorem result_of_stride (h : t.TakesStridePath dynLaneState) :
    (t.result PyFloat.exact dynLaneState).waitingQueue =
      t.requests (strideMerge PyFloat.exact (t.share PyFloat.exact dynLaneState)
        (t.aOrder PyFloat.exact).length (t.aOrder PyFloat.exact) (t.bOrder PyFloat.exact)) :=
  congrArg t.requests (laneOrder_eq_strideMerge (t.metas PyFloat.exact) t.options.groupMajor
    h.1 h.2)

variable {dynLaneState}

/-- A share of Lane B in range leaves Lane A one. -/
theorem inLaneRange_share (h : StateInRange dynLaneState) (hdyn : t.options.dynamicLane = true)
    (hne : t.waitingQueue ≠ []) : InLaneRange (1 - t.share PyFloat.exact dynLaneState) := by
  obtain ⟨b, hrange, heq⟩ := laneShare_dynamic t.options t.ridToInt t.tree.allClusterInfo
    (sampledNow PyFloat.exact t.options t.time) (dynLaneState.lookup t.treeId) hdyn hne
    (h t.treeId)
  unfold share laneShare
  rw [heq, sub_sub_cancel]
  exact hrange

theorem sorts (h : StateInRange dynLaneState) : t.Sorts dynLaneState where
  perm := (lanes_perm _ _ _ _ _ _).2.2
  picksEach := picksEach _ _ t.nodup_aOrder t.aOrder_perm
  stride hstride := by
    rw [t.result_of_stride dynLaneState hstride, strideMerge_eq _ _ t.nodup_aOrder t.aOrder_perm,
      length_aOrder]
    rfl
  dynamic hdyn hne := by
    have hrange := t.inLaneRange_share h hdyn hne
    refine ⟨hrange, ?_, ?_⟩
    · have hhigh := hrange.2
      norm_num at hhigh ⊢
      linarith
    · have hlow := hrange.1
      norm_num at hlow ⊢
      linarith

end SortTick

/--
**Every tick of every run sorts.**  Whatever ticks came before, a tick's result is a permutation
of its queue, each turn of the stride loop appends one request and sets no clock to infinity, and a
dynamic tick keeps Lane B's share between 0.10 and 0.60, so that both lanes take part.
-/
theorem dynLaneRun_sorts (ticks : List (SortTick ℚ)) (t : SortTick ℚ) :
    StateInRange (dynLaneRun PyFloat.exact ticks) ∧ t.Sorts (dynLaneRun PyFloat.exact ticks) :=
  ⟨stateInRange_run ticks, t.sorts (stateInRange_run ticks)⟩

/-! ### The quota and the starvation bound -/

namespace SortTick

variable (t : SortTick ℚ) (dynLaneState : Map Nat ℚ)

/-- What the turns of a tick's merge keep at every prefix of its result. -/
structure KeepsQuota : Prop where
  /-- The first `k` of the result are what the first `k` turns pick. -/
  prefixes : ∀ k ≤ t.waitingQueue.length,
    (t.result PyFloat.exact dynLaneState).waitingQueue.take k =
      t.requests (t.mergeAfter dynLaneState k).order
  quota : ∀ k ≤ t.waitingQueue.length,
    |(aTurns PyFloat.exact (t.share PyFloat.exact dynLaneState) (t.aOrder PyFloat.exact)
      (t.bOrder PyFloat.exact) k : ℚ) - t.share PyFloat.exact dynLaneState * k| < 1
  laneA : ∀ (p : Nat) (r : Req), (t.requests (t.aOrder PyFloat.exact))[p]? = some r →
    ∃ j ≤ ⌈((p : ℚ) + 1) / t.share PyFloat.exact dynLaneState⌉₊ - 1,
      (t.result PyFloat.exact dynLaneState).waitingQueue[j]? = some r
  laneB : ∀ (p : Nat) (r : Req), (t.requests (t.bOrder PyFloat.exact))[p]? = some r →
    ∃ j ≤ ⌈((p : ℚ) + 1) / (1 - t.share PyFloat.exact dynLaneState)⌉₊ - 1,
      (t.result PyFloat.exact dynLaneState).waitingQueue[j]? = some r

variable {dynLaneState}

theorem TakesStridePath.share_pos (h : t.TakesStridePath dynLaneState) :
    0 < t.share PyFloat.exact dynLaneState := by
  have hlow := h.1
  norm_num at hlow
  linarith

theorem TakesStridePath.share_lt_one (h : t.TakesStridePath dynLaneState) :
    t.share PyFloat.exact dynLaneState < 1 := by
  have hhigh := h.2
  norm_num at hhigh
  linarith

/-- A place of a list of indices is one of the requests. -/
theorem getElem?_requests {order : List Nat} {p : Nat} {r : Req}
    (h : (t.requests order)[p]? = some r) :
    ∃ i, order[p]? = some i ∧ t.waitingQueue.getD i default = r := by
  unfold requests at h
  rw [List.getElem?_map, Option.map_eq_some_iff] at h
  exact h

theorem requests_getElem? {order : List Nat} {p i : Nat} (h : order[p]? = some i) :
    (t.requests order)[p]? = some (t.waitingQueue.getD i default) := by
  unfold requests
  rw [List.getElem?_map, h, Option.map_some]

/-- Place `p` of Lane A, in the result. -/
theorem exists_index_laneA (h : t.TakesStridePath dynLaneState) {p : Nat} {r : Req}
    (hr : (t.requests (t.aOrder PyFloat.exact))[p]? = some r) :
    ∃ j ≤ ⌈((p : ℚ) + 1) / t.share PyFloat.exact dynLaneState⌉₊ - 1,
      (t.result PyFloat.exact dynLaneState).waitingQueue[j]? = some r := by
  obtain ⟨i, hi, rfl⟩ := t.getElem?_requests hr
  obtain ⟨j, hj, hget⟩ := (index_strideMerge_le h.share_pos h.share_lt_one t.nodup_aOrder
    t.aOrder_perm).1 hi
  rw [t.result_of_stride dynLaneState h]
  exact ⟨j, hj, t.requests_getElem? hget⟩

theorem exists_index_laneB (h : t.TakesStridePath dynLaneState) {p : Nat} {r : Req}
    (hr : (t.requests (t.bOrder PyFloat.exact))[p]? = some r) :
    ∃ j ≤ ⌈((p : ℚ) + 1) / (1 - t.share PyFloat.exact dynLaneState)⌉₊ - 1,
      (t.result PyFloat.exact dynLaneState).waitingQueue[j]? = some r := by
  obtain ⟨i, hi, rfl⟩ := t.getElem?_requests hr
  obtain ⟨j, hj, hget⟩ := (index_strideMerge_le h.share_pos h.share_lt_one t.nodup_aOrder
    t.aOrder_perm).2 hi
  rw [t.result_of_stride dynLaneState h]
  exact ⟨j, hj, t.requests_getElem? hget⟩

end SortTick

/--
**Stride quota and starvation bound.**  On the stride path, the first `k` of the result hold less
than one request more or less of Lane A than its share of `k`, and place `p` of a lane with share
`q` comes at index `⌈(p + 1) / q⌉ - 1` at the latest.
-/
theorem strideTick_keepsQuota (t : SortTick ℚ) (dynLaneState : Map Nat ℚ)
    (h : t.TakesStridePath dynLaneState) : t.KeepsQuota dynLaneState where
  prefixes k hk := by
    have hk : k ≤ (t.aOrder PyFloat.exact).length := hk.trans_eq t.length_aOrder.symm
    have hprefix := strideAfter_prefix PyFloat.exact (t.share PyFloat.exact dynLaneState)
      t.nodup_aOrder t.aOrder_perm hk
    have hlen := (picking_after PyFloat.exact (t.share PyFloat.exact dynLaneState)
      t.nodup_aOrder t.aOrder_perm hk).2
    rw [List.prefix_iff_eq_take, hlen] at hprefix
    rw [t.result_of_stride dynLaneState h]
    unfold SortTick.requests SortTick.mergeAfter
    rw [← List.map_take, hprefix]
  quota k hk := abs_aTurns_sub_lt h.share_pos h.share_lt_one t.nodup_aOrder t.aOrder_perm
    (hk.trans_eq t.length_aOrder.symm)
  laneA _ _ hr := t.exists_index_laneA h hr
  laneB _ _ hr := t.exists_index_laneB h hr

/-- Two requests that wait for an even share of the lanes. -/
def evenTick : SortTick ℚ where
  treeId := 0
  options := { ClpmOptions.byDefault PyFloat.exact with bigLaneShare := 1 / 2 }
  ridToInt := ∅
  tree := PendingTree.new
  time := 0
  waitingQueue := [⟨"a", [1, 2], [], none, [], none, false⟩, ⟨"b", [1, 3], [], none, [], none, false⟩]

theorem strideTick_keepsQuota_even : evenTick.TakesStridePath ∅ ∧ evenTick.KeepsQuota ∅ :=
  have h : evenTick.TakesStridePath ∅ := ⟨by decide +kernel, by decide +kernel⟩
  ⟨h, strideTick_keepsQuota evenTick ∅ h⟩

/-! ### Who is ahead in Lane B -/

namespace SortTick

variable (t : SortTick ℚ) (dynLaneState : Map Nat ℚ)

/-- `section_of[r.rid]` -/
def sectionOf (r : Req) : Nat := sectionIn t.options t.ridToInt t.waitingQueue r

/-- `arrival_ns` -/
def arrivalNs (r : Req) : Int :=
  match t.options.arrivals with
  | none => 0
  | some ts =>
      let now := sampledNow PyFloat.exact t.options t.time
      PyFloat.exact.int ((ts.lookup r.rid).getD (if PyFloat.exact.truthy now then now else 0) * 1e9)

/-- `x` is of a lower section, or of the same one and no later. -/
def AheadInLaneB (r x : Req) : Prop :=
  x.rid ≠ r.rid ∧
    (t.sectionOf x < t.sectionOf r ∨ t.sectionOf x = t.sectionOf r ∧ t.arrivalNs x ≤ t.arrivalNs r)

instance (r x : Req) : Decidable (t.AheadInLaneB r x) :=
  inferInstanceAs (Decidable (_ ∧ (_ ∨ _ ∧ _)))

/-- How many requests are ahead of `r` in Lane B. -/
def aheadInLaneB (r : Req) : Nat := (t.waitingQueue.filter fun x => t.AheadInLaneB r x).length

/-- `(section, arrival_ns, -mh)` -/
def bKey (r : Req) : Nat ×ₗ Int ×ₗ Int :=
  toLex (t.sectionOf r, toLex (t.arrivalNs r, -mainHit t.ridToInt t.options.mainHits r))

theorem laneBKey_metas {i : Nat} (hi : i < t.waitingQueue.length) :
    laneBKey ((t.metas PyFloat.exact).getD i default) = t.bKey (t.waitingQueue.getD i default) := by
  unfold metas
  rw [getD_laneMetas _ _ _ _ _ _ hi]
  unfold laneBKey laneMeta bKey arrivalNs sectionOf sectionIn
  cases harr : t.options.arrivals with
  | none => rfl
  | some ts => rfl

theorem bOrder_perm : (t.bOrder PyFloat.exact).Perm (List.range t.waitingQueue.length) := by
  have hperm := (isLane_laneBOrder (t.metas PyFloat.exact)).perm
  rw [show (t.metas PyFloat.exact).length = t.waitingQueue.length from length_laneMetas _ _ _ _ _ _]
    at hperm
  exact hperm

theorem pairwise_bOrder :
    (t.requests (t.bOrder PyFloat.exact)).Pairwise fun x y => t.bKey x ≤ t.bKey y :=
  pairwise_map_of_lane PyFloat.exact t.options t.ridToInt t.tree t.time t.bOrder_perm
    (fun _ hi => t.laneBKey_metas hi)
    (pairwise_sorted (fun i => laneBKey ((t.metas PyFloat.exact).getD i default)) _)

/-- **The place in Lane B**: no more requests stand before `r` than are ahead of it. -/
theorem exists_place (hrids : (t.waitingQueue.map Req.rid).Nodup) {r : Req}
    (hr : r ∈ t.waitingQueue) :
    ∃ p ≤ t.aheadInLaneB r, (t.requests (t.bOrder PyFloat.exact))[p]? = some r := by
  have hperm : (t.requests (t.bOrder PyFloat.exact)).Perm t.waitingQueue :=
    map_perm_queue t.bOrder_perm
  have hsorted := t.pairwise_bOrder
  have hnodup := (hperm.map Req.rid).symm.nodup hrids
  obtain ⟨before, rest, hsplit⟩ := List.append_of_mem (hperm.symm.subset hr)
  rw [hsplit] at hsorted hnodup
  refine ⟨before.length, ?_, by rw [hsplit, List.getElem?_append_right le_rfl, Nat.sub_self]; rfl⟩
  have hbefore : before.Nodup := (List.nodup_append.mp hnodup.of_map).1
  refine (List.subperm_of_subset hbefore fun x hx => ?_).length_le
  have hne : x.rid ≠ r.rid := by
    rw [List.map_append, List.nodup_append] at hnodup
    exact hnodup.2.2 _ (List.mem_map_of_mem hx) _ (List.mem_map_of_mem List.mem_cons_self)
  have hle : t.bKey x ≤ t.bKey r :=
    (List.pairwise_append.mp hsorted).2.2 x hx r List.mem_cons_self
  refine List.mem_filter.mpr ⟨?_, decide_eq_true ⟨hne, ?_⟩⟩
  · refine hperm.subset ?_
    rw [hsplit]
    exact List.mem_append_left _ hx
  · rcases Prod.Lex.toLex_le_toLex.mp hle with hlt | ⟨heq, hle⟩
    · exact Or.inl hlt
    · exact Or.inr ⟨heq, Prod.Lex.monotone_fst _ _ hle⟩

/-- The result has no request twice, so a request has one place in it. -/
theorem index_unique (hrids : (t.waitingQueue.map Req.rid).Nodup) {i j : Nat} {r : Req}
    (hi : (t.result PyFloat.exact dynLaneState).waitingQueue[i]? = some r)
    (hj : (t.result PyFloat.exact dynLaneState).waitingQueue[j]? = some r) : i = j := by
  have hperm : (t.result PyFloat.exact dynLaneState).waitingQueue.Perm t.waitingQueue :=
    (lanes_perm _ _ _ _ _ _).2.2
  have hnodup := hperm.symm.nodup hrids.of_map
  exact (List.getElem?_inj (List.getElem?_eq_some_iff.mp hi).1 hnodup).mp (hi.trans hj.symm)

end SortTick

/-- A waiting time that is a whole number of turns, or more. -/
theorem le_ceil_sub_one {j : Nat} {x : ℚ} (h : (j : ℚ) + 1 ≤ x) : j ≤ ⌈x⌉₊ - 1 := by
  have hceil : ((j + 1 : Nat) : ℚ) ≤ ⌈x⌉₊ := by
    rw [Nat.cast_succ]
    exact h.trans (Nat.le_ceil x)
  have hle : j + 1 ≤ ⌈x⌉₊ := Nat.cast_le.mp hceil
  omega

/--
**Oldest first, within the sections.**  A request waits for those ahead of it in Lane B, and for
Lane A's share of the turns meanwhile.  From a share of `1 - 1e-9` on there is no Lane B.
-/
theorem index_le_of_aheadInLaneB (t : SortTick ℚ) (dynLaneState : Map Nat ℚ)
    (hrids : (t.waitingQueue.map Req.rid).Nodup)
    (hpos : 0 < t.share PyFloat.exact dynLaneState)
    (hlt : t.share PyFloat.exact dynLaneState < 1)
    (hlane : t.share PyFloat.exact dynLaneState < 1 - 1e-9 ∨ t.waitingQueue.length ≤ 10 ^ 9)
    (r : Req) (j : Nat) (hj : (t.result PyFloat.exact dynLaneState).waitingQueue[j]? = some r) :
    j ≤ ⌈((t.aheadInLaneB r : ℚ) + 1) / (1 - t.share PyFloat.exact dynLaneState)⌉₊ - 1 := by
  have hperm : (t.result PyFloat.exact dynLaneState).waitingQueue.Perm t.waitingQueue :=
    (lanes_perm _ _ _ _ _ _).2.2
  have hother : 0 < 1 - t.share PyFloat.exact dynLaneState := sub_pos.mpr hlt
  obtain ⟨p, hp, hplace⟩ := t.exists_place hrids (hperm.subset (List.mem_of_getElem? hj))
  have hp : (p : ℚ) ≤ t.aheadInLaneB r := Nat.cast_le.mpr hp
  by_cases hhigh : 1 - 1e-9 ≤ t.share PyFloat.exact dynLaneState
  · -- a queue of a thousand million requests is as long as the wait may be
    have hlen := hlane.resolve_left (not_lt_of_ge hhigh)
    have hjlt := (List.getElem?_eq_some_iff.mp hj).1
    rw [hperm.length_eq] at hjlt
    have hjle : ((j + 1 : Nat) : ℚ) ≤ (10 ^ 9 : Nat) := Nat.cast_le.mpr (hjlt.trans_le hlen)
    refine le_ceil_sub_one ((le_div_iff₀ hother).mpr ?_)
    rw [← Nat.cast_succ]
    refine (mul_le_mul hjle (show 1 - t.share PyFloat.exact dynLaneState ≤ 1e-9 by linarith)
      hother.le (Nat.cast_nonneg _)).trans ?_
    norm_num
  have hhigh := lt_of_not_ge hhigh
  by_cases hlow : t.share PyFloat.exact dynLaneState ≤ 1e-9
  · -- Lane B alone
    have hresult : (t.result PyFloat.exact dynLaneState).waitingQueue =
        t.requests (t.bOrder PyFloat.exact) :=
      congrArg t.requests (laneOrder_eq_laneBOrder (t.metas PyFloat.exact) t.options.groupMajor hlow)
    have hjp : j = p := t.index_unique dynLaneState hrids hj (hresult ▸ hplace)
    rw [hjp]
    refine le_ceil_sub_one ((le_div_iff₀ hother).mpr ?_)
    nlinarith
  · obtain ⟨j', hj', hget⟩ := t.exists_index_laneB ⟨lt_of_not_ge hlow, hhigh⟩ hplace
    rw [t.index_unique dynLaneState hrids hj hget]
    refine hj'.trans (Nat.sub_le_sub_right (Nat.ceil_le_ceil ?_) 1)
    exact div_le_div_of_nonneg_right (by linarith) hother.le

/-- A cold request that came before two warm ones, and an even share of the lanes. -/
def coldBehindWarm : SortTick ℚ where
  treeId := 0
  options := { ClpmOptions.byDefault PyFloat.exact with
    checkThreshold := 0, bigLaneShare := 1 / 2
    arrivalTs := some ((((∅ : Map ReqId ℚ).insert "old" 1).insert "w" 2).insert "v" 3) }
  ridToInt := ∅
  tree := PendingTree.new
  time := 4
  waitingQueue := [⟨"old", [1, 2], [], none, [], none, false⟩,
    ⟨"w", [3], [], none, [0], none, false⟩, ⟨"v", [4], [], none, [0], none, false⟩]

theorem index_le_of_aheadInLaneB_coldBehindWarm :
    coldBehindWarm.aheadInLaneB (coldBehindWarm.waitingQueue.getD 0 default) = 2 ∧
      2 ≤ ⌈((coldBehindWarm.aheadInLaneB (coldBehindWarm.waitingQueue.getD 0 default) : ℚ) + 1) /
        (1 - coldBehindWarm.share PyFloat.exact ∅)⌉₊ - 1 :=
  ⟨by decide +kernel, index_le_of_aheadInLaneB coldBehindWarm ∅ (by decide +kernel)
    (by decide +kernel) (by decide +kernel) (Or.inr (by decide +kernel)) _ 2 (by decide +kernel)⟩

/-- The oldest request is not among the first two, as an even share of the lanes would have it. -/
theorem not_oldest_first : ¬ ∀ (t : SortTick ℚ) (dynLaneState : Map Nat ℚ) (ts : Map ReqId ℚ),
    (t.waitingQueue.map Req.rid).Nodup → t.options.arrivals = some ts →
    (t.waitingQueue.map fun r => ts.lookup r.rid).Nodup →
    (∀ r ∈ t.waitingQueue, (ts.lookup r.rid).isSome = true) →
    0 < t.share PyFloat.exact dynLaneState → t.share PyFloat.exact dynLaneState < 1 →
    ∀ r ∈ t.waitingQueue, ∀ j : Nat,
      (t.result PyFloat.exact dynLaneState).waitingQueue[j]? = some r →
      j ≤ ⌈(((t.waitingQueue.filter fun x =>
          decide ((ts.lookup x.rid).getD 0 < (ts.lookup r.rid).getD 0)).length : ℚ) + 1) /
        (1 - t.share PyFloat.exact dynLaneState)⌉₊ - 1 := by
  intro h
  have hle := h coldBehindWarm ∅ _ (by decide +kernel) rfl (by decide +kernel) (by decide +kernel)
    (by decide +kernel) (by decide +kernel) (coldBehindWarm.waitingQueue.getD 0 default)
    (by decide +kernel) 2 (by decide +kernel)
  revert hle
  decide +kernel

end Peek
