/-
What Cluster-LPM does with a queue in which nothing is shared.

There are no clusters then and no siblings, and every group is one request.  What is left of the
keys is not stock order: the score still is the length of the prompt and breaks ties of the hit,
group-major order has no hit in it at all, and Lane B looks at the arrival before the hit.  So the
result is stock order just when, at every place, the lane that is up happens to agree
(`peekClpmSortInplace_eq_stock_iff`).
-/
import Mathlib.Data.Rat.Floor
import Peek.Online.LaneFairness
import Peek.Online.StockMerge
import Peek.Pending.NoSharing

namespace Peek

open LaneMerge

/-- `int` never turns an order round. -/
theorem PyFloat.int_exact_mono {x y : ℚ} (h : x ≤ y) :
    PyFloat.exact.int x ≤ PyFloat.exact.int y := by
  have hfloor : ∀ x : ℚ, 0 ≤ x → PyFloat.exact.int x = ⌊x⌋ := by
    intro x hx
    rw [Rat.floor_def']
    exact Int.tdiv_eq_ediv_of_nonneg (Rat.num_nonneg.mpr hx)
  have hceil : ∀ x : ℚ, x ≤ 0 → PyFloat.exact.int x = ⌈x⌉ := by
    intro x hx
    have hnum : 0 ≤ -x.num := neg_nonneg.mpr (Rat.num_nonpos.mpr hx)
    rw [Rat.ceil_def', ← Int.tdiv_eq_ediv_of_nonneg hnum, Int.neg_tdiv, neg_neg]
    rfl
  rcases le_total 0 x with hx | hx
  · rw [hfloor x hx, hfloor y (hx.trans h)]
    exact Int.floor_mono h
  · rcases le_total 0 y with hy | hy
    · rw [hceil x hx, hfloor y hy]
      exact (Int.ceil_le.mpr (by simpa using hx)).trans (Int.floor_nonneg.mpr hy)
    · rw [hceil x hx, hceil y hy]
      exact Int.ceil_mono h

section

variable (o : ClpmOptions ℚ) (ridToInt : Map ReqId Rid) (tree : PendingTree) (queue : List Req)

/-! ### Stock order, and when the lanes agree with it -/

/-- Stock longest-prefix-match: by hit, and ties as they arrived. -/
def stockOrder (mh : Req → Int) (queue : List Req) : List Req :=
  queue.insertionSort fun a b => -mh a ≤ -mh b

/-- Neither the queue nor the pending tree has two prompts with the first token in common. -/
structure NoSharing : Prop where
  queue : queue.Pairwise fun r r' => Unlike r.tokens r'.tokens
  pending : tree.Unshared

/-- Every request has arrived, and none before the one that stands before it. -/
def ArrivesInOrder : Prop :=
  ∀ ts, o.arrivals = some ts → (∀ r ∈ queue, (ts.lookup r.rid).isSome = true) ∧
    queue.Pairwise fun r r' => (ts.lookup r.rid).getD 0 ≤ (ts.lookup r'.rid).getD 0

/-- `int(at * 1e9)` -/
def arrivalNs (r : Req) : Int :=
  (o.arrivals.map fun ts => PyFloat.exact.int ((ts.lookup r.rid).getD 0 * 1e9)).getD 0

/-- The length of the prompt that is pending for the request. -/
def pendingLength (r : Req) : Int :=
  (((ridToInt.lookup r.rid).bind fun rid => tree.paths.lookup rid).map fun ts =>
    (ts.length : Int)).getD 0

def Warm (r : Req) : Prop := mainHit ridToInt o.mainHits r > o.checkThreshold

instance (r : Req) : Decidable (Warm o ridToInt r) := inferInstanceAs (Decidable (_ > _))

/-- Lane A's share of a queue without sharing: the dynamic lane has Lane B at its ceiling. -/
def unsharedShare (dynLaneState : Option ℚ) : ℚ :=
  if o.dynamicLane then 1 - (0.7 * dynLaneState.getD 0.3 + 0.3 * 0.6) else o.bigLaneShare

/-- The lane that is up has `x` before `y`, which is further back in stock order. -/
def LaneAgrees (laneA : Bool) (x y : Req) : Prop :=
  if laneA then
    if o.groupMajor then (Warm o ridToInt x ↔ Warm o ridToInt y) → Before queue x y
    else mainHit ridToInt o.mainHits x = mainHit ridToInt o.mainHits y →
      pendingLength ridToInt tree y ≤ pendingLength ridToInt tree x
  else (Warm o ridToInt x ↔ Warm o ridToInt y) → arrivalNs o x ≤ arrivalNs o y

/-- At every place of stock order the lane that is up agrees with it on what comes after. -/
def LanesAgree (dynLaneState : Option ℚ) : Prop :=
  ∀ k x, (stockOrder (mainHit ridToInt o.mainHits) queue)[k]? = some x →
    ∀ y ∈ (stockOrder (mainHit ridToInt o.mainHits) queue).drop (k + 1),
      LaneAgrees o ridToInt tree queue (decide (LaneAUp (unsharedShare o dynLaneState) k)) x y

end

variable {o : ClpmOptions ℚ} {ridToInt : Map ReqId Rid} {tree : PendingTree} {queue : List Req}
  {time : ℚ} {dynLaneState : Option ℚ}

/-! ### The keys without sharing -/

/-- Nobody's prefix is claimed by another request. -/
theorem NoSharing.not_claimed (h : NoSharing tree queue) (hdepr : 1 ≤ o.deprioritizeThreshold)
    (mh : Req → Int) {before rest : List Req} {r : Req} (hqueue : queue = before ++ r :: rest) :
    ¬ Claimed o mh before r := by
  rintro ⟨⟨-, -, -, hlong⟩, q, hq, ⟨-, -, -, hqlong⟩, hkey⟩
  have hunlike : Unlike q.tokens r.tokens := by
    have hpair := h.queue
    rw [hqueue, List.pairwise_append] at hpair
    exact hpair.2.2 q hq r List.mem_cons_self
  obtain ⟨n, hn⟩ : ∃ n, o.deprioritizeThreshold.toNat = n + 1 :=
    Nat.exists_eq_succ_of_ne_zero (by omega)
  unfold prefixKeyOf at hkey
  rw [hn] at hkey
  cases hqt : q.tokens with
  | nil =>
      rw [hqt, List.length_nil] at hqlong
      omega
  | cons t ts =>
      cases hrt : r.tokens with
      | nil =>
          rw [hrt, List.length_nil] at hlong
          omega
      | cons u us =>
          rw [hqt, hrt, List.take_succ_cons, List.take_succ_cons, List.cons.injEq] at hkey
          rw [hqt, hrt] at hunlike
          exact hunlike t rfl (congrArg some hkey.1.symm)

/-- 0 = warm, 1 = cold pioneer. -/
def unsharedSection (o : ClpmOptions ℚ) (ridToInt : Map ReqId Rid) (r : Req) : Nat :=
  if Warm o ridToInt r then 0 else 1

/-- Who has more cached is in no later section. -/
theorem unsharedSection_le {x y : Req}
    (h : mainHit ridToInt o.mainHits y ≤ mainHit ridToInt o.mainHits x) :
    unsharedSection o ridToInt x ≤ unsharedSection o ridToInt y := by
  unfold unsharedSection
  by_cases hx : Warm o ridToInt x
  · rw [if_pos hx]
    exact Nat.zero_le _
  · have hy : ¬ Warm o ridToInt y := fun hy => hx (lt_of_lt_of_le hy h)
    rw [if_neg hx, if_neg hy]

theorem unsharedSection_eq_iff {x y : Req} :
    unsharedSection o ridToInt x = unsharedSection o ridToInt y ↔
      (Warm o ridToInt x ↔ Warm o ridToInt y) := by
  unfold unsharedSection
  by_cases hx : Warm o ridToInt x <;> by_cases hy : Warm o ridToInt y <;> simp [hx, hy]

theorem NoSharing.section_eq (h : NoSharing tree queue) (hdepr : 1 ≤ o.deprioritizeThreshold)
    (hrids : (queue.map Req.rid).Nodup) {r : Req} (hr : r ∈ queue) :
    sectionIn o ridToInt queue r = unsharedSection o ridToInt r := by
  obtain ⟨before, rest, hqueue⟩ := List.append_of_mem hr
  rw [sectionIn_eq o ridToInt hrids hqueue]
  unfold sectionBehind
  rw [if_neg (h.not_claimed hdepr _ hqueue)]
  rfl

/-- What the second pass makes of a request. -/
def unsharedMeta (o : ClpmOptions ℚ) (ridToInt : Map ReqId Rid) (tree : PendingTree) (r : Req) :
    LaneMeta where
  sectionId := unsharedSection o ridToInt r
  effectiveMh := mainHit ridToInt o.mainHits r
  reqScore := pendingLength ridToInt tree r
  clusterSize := 0
  arrivalNs := arrivalNs o r
  mh := mainHit ridToInt o.mainHits r
  groupKey := .single r.rid
  groupScore := 0

theorem NoSharing.clusterInfoOf_eq (h : NoSharing tree queue) (hp : tree.Sound) (r : Req) :
    clusterInfoOf ridToInt tree.allClusterInfo r = none := by
  unfold clusterInfoOf
  cases ridToInt.lookup r.rid with
  | none => rfl
  | some rid => exact h.pending.lookup_allClusterInfo hp rid

theorem NoSharing.getD_laneMetas (h : NoSharing tree queue) (hp : tree.Sound)
    (hrids : (queue.map Req.rid).Nodup) (harr : ArrivesInOrder o queue)
    (hdepr : 1 ≤ o.deprioritizeThreshold) (hage : o.ageAlpha = 0) {i : Nat}
    (hi : i < queue.length) :
    (laneMetas PyFloat.exact o ridToInt tree time queue).getD i default =
      unsharedMeta o ridToInt tree (queue.getD i default) := by
  rw [Peek.getD_laneMetas PyFloat.exact o ridToInt tree time queue hi]
  set r := queue.getD i default with hr
  have hmem : r ∈ queue := by
    rw [hr, getD_of_lt _ _ hi]
    exact List.getElem_mem hi
  have hsection := @NoSharing.section_eq o ridToInt tree queue h hdepr hrids r hmem
  have hscore : ((ridToInt.lookup r.rid).bind fun rid => tree.computeReqScores.lookup rid).getD 0 =
      pendingLength ridToInt tree r := by
    unfold pendingLength
    cases ridToInt.lookup r.rid with
    | none => rfl
    | some rid =>
        rw [Option.bind_some, Option.bind_some, h.pending.lookup_computeReqScores hp]
  have haged : (o.arrivals.isSome && PyFloat.exact.lt (PyFloat.exact.ofRat 0) o.ageAlpha) =
      false := by
    rw [hage, Bool.and_eq_false_imp]
    exact fun _ => decide_eq_false (lt_irrefl (0 : ℚ))
  unfold sectionIn at hsection
  unfold laneMeta unsharedMeta
  simp only [h.clusterInfoOf_eq hp, hsection, hscore, haged, Bool.false_eq_true, if_false]
  cases harrivals : o.arrivals with
  | none =>
      have hns : arrivalNs o r = 0 := by
        unfold arrivalNs
        rw [harrivals]
        rfl
      rw [hns]
      rfl
  | some ts =>
      obtain ⟨arrived, hat⟩ := Option.isSome_iff_exists.mp ((harr ts harrivals).1 r hmem)
      have hns : arrivalNs o r = PyFloat.exact.int (arrived * 1e9) := by
        unfold arrivalNs
        rw [harrivals, Option.map_some, Option.getD_some, hat, Option.getD_some]
      rw [hns]
      simp only [hat, Option.getD_some]
      rfl

theorem ArrivesInOrder.arrivalNs_le (h : ArrivesInOrder o queue) {i j : Nat} (hij : i < j)
    (hj : j < queue.length) :
    arrivalNs o (queue.getD i default) ≤ arrivalNs o (queue.getD j default) := by
  unfold arrivalNs
  cases harrivals : o.arrivals with
  | none => exact le_rfl
  | some ts =>
      have hle := List.pairwise_iff_getElem.mp (h ts harrivals).2 i j (hij.trans hj) hj hij
      rw [← getD_of_lt _ default (hij.trans hj), ← getD_of_lt _ default hj] at hle
      rw [Option.map_some, Option.map_some, Option.getD_some, Option.getD_some]
      exact PyFloat.int_exact_mono (mul_le_mul_of_nonneg_right hle (by norm_num))

/-! ### The share without sharing -/

theorem singleAgeTurn_nonneg {now oldest : ℚ} (h : 0 ≤ oldest) (r : Req) :
    0 ≤ singleAgeTurn PyFloat.exact o now oldest r := by
  have hlater : ∀ age : ℚ, 0 ≤ if PyFloat.exact.lt oldest age = true then age else oldest := by
    intro age
    split
    · rename_i hlt
      exact h.trans (of_decide_eq_true hlt).le
    · exact h
  unfold singleAgeTurn
  split
  · exact h
  split
  · exact hlater _
  · exact h

/-- With nothing but single requests Lane B is at its ceiling. -/
theorem NoSharing.rawLaneB_eq (h : NoSharing tree queue) (hp : tree.Sound) (hne : queue ≠ [])
    (now : ℚ) : rawLaneB PyFloat.exact o ridToInt tree.allClusterInfo now queue = 0.6 := by
  have hsingle : queue.filter (isSingle ridToInt tree.allClusterInfo) = queue := by
    refine List.filter_eq_self.mpr fun r _ => ?_
    unfold isSingle
    rw [h.clusterInfoOf_eq hp r]
  have holdest : 0 ≤ queue.foldl (singleAgeTurn PyFloat.exact o now) (PyFloat.exact.ofRat 0) := by
    suffices key : ∀ (l : List Req) (oldest : ℚ), 0 ≤ oldest →
        0 ≤ l.foldl (singleAgeTurn PyFloat.exact o now) oldest from key queue _ le_rfl
    intro l
    induction l with
    | nil => exact fun _ h => h
    | cons r l ih => exact fun _ h => ih _ (singleAgeTurn_nonneg h r)
  have hfrac : PyFloat.exact.div (PyFloat.exact.ofRat queue.length)
      (PyFloat.exact.ofRat queue.length) = 1 :=
    div_self (Nat.cast_ne_zero.mpr fun hzero => hne (List.length_eq_zero_iff.mp hzero))
  unfold rawLaneB
  simp only [hsingle, hfrac]
  set oldest := queue.foldl (singleAgeTurn PyFloat.exact o now) (PyFloat.exact.ofRat 0)
  have hpressure : 0 ≤ if PyFloat.exact.lt (PyFloat.exact.ofRat 0) o.sloBudgetS = true then
      PyFloat.exact.min (PyFloat.exact.ofRat 1) (PyFloat.exact.div oldest o.sloBudgetS)
      else PyFloat.exact.ofRat 0 := by
    split
    · rename_i hslo
      have hslo : 0 < o.sloBudgetS := of_decide_eq_true hslo
      unfold PyFloat.min
      split
      · exact div_nonneg holdest hslo.le
      · exact zero_le_one
    · exact le_rfl
  generalize (if PyFloat.exact.lt (PyFloat.exact.ofRat 0) o.sloBudgetS = true then
      PyFloat.exact.min (PyFloat.exact.ofRat 1) (PyFloat.exact.div oldest o.sloBudgetS)
      else PyFloat.exact.ofRat 0) = agePressure at hpressure ⊢
  have hmin : PyFloat.exact.min (PyFloat.exact.ofRat 0.6) (PyFloat.exact.add
      (PyFloat.exact.add (PyFloat.exact.ofRat 0.15)
        (PyFloat.exact.mul (PyFloat.exact.ofRat 0.5) 1))
      (PyFloat.exact.mul (PyFloat.exact.ofRat 0.3) agePressure)) = 0.6 := by
    refine if_neg fun hlt => ?_
    have hlt : (0.15 : ℚ) + 0.5 * 1 + 0.3 * agePressure < 0.6 := of_decide_eq_true hlt
    norm_num at hlt
    linarith
  rw [hmin]
  have hfloor : (0.1 : ℚ) < 0.6 := by norm_num
  exact if_pos (decide_eq_true hfloor)

theorem NoSharing.laneShare_eq (h : NoSharing tree queue) (hp : tree.Sound) (hne : queue ≠ [])
    (now : ℚ) : (laneShare PyFloat.exact o ridToInt tree.allClusterInfo now queue
      dynLaneState).1 = unsharedShare o dynLaneState := by
  unfold laneShare unsharedShare
  by_cases hdyn : o.dynamicLane = true
  · rw [if_pos ⟨hdyn, hne⟩, if_pos hdyn]
    simp only [h.rawLaneB_eq hp hne now]
    rfl
  · rw [if_neg fun hboth => hdyn hboth.1, if_neg hdyn]

/-! ### The lanes without sharing -/

/-- Before in the queue is: at a smaller index. -/
theorem before_getD_iff (hnd : queue.Nodup) {i j : Nat} (hi : i < queue.length)
    (hj : j < queue.length) (hij : i ≠ j) :
    Before queue (queue.getD i default) (queue.getD j default) ↔ i < j := by
  have hlt : ∀ {i j : Nat}, i < j → j < queue.length →
      Before queue (queue.getD i default) (queue.getD j default) := by
    intro i j hlt hj
    have hi : i < queue.length := hlt.trans hj
    refine ⟨queue.take j, queue.drop (j + 1), ?_, ?_⟩
    · rw [getD_of_lt _ _ hj, ← List.drop_eq_getElem_cons hj, List.take_append_drop]
    · rw [getD_of_lt _ _ hi]
      exact List.mem_take_iff_getElem.mpr ⟨i, by omega, rfl⟩
  constructor
  · intro h
    by_contra hge
    exact h.asymm hnd (hlt (lt_of_le_of_ne (not_lt.mp hge) (Ne.symm hij)) hi)
  · exact fun h => hlt h hj

/-- What is asked of a queue for its keys to be those of single requests. -/
structure Unclustered (o : ClpmOptions ℚ) (tree : PendingTree) (queue : List Req) : Prop where
  noSharing : NoSharing tree queue
  sound : tree.Sound
  rids : (queue.map Req.rid).Nodup
  arrives : ArrivesInOrder o queue
  depr : 1 ≤ o.deprioritizeThreshold
  age : o.ageAlpha = 0

namespace Unclustered

variable (h : Unclustered o tree queue)
include h

theorem getD_metas {i : Nat} (hi : i < queue.length) :
    (laneMetas PyFloat.exact o ridToInt tree time queue).getD i default =
      unsharedMeta o ridToInt tree (queue.getD i default) :=
  h.noSharing.getD_laneMetas h.sound h.rids h.arrives h.depr h.age hi

theorem arrivalNs_le_or {i j : Nat} (hi : i < queue.length) (hj : j < queue.length) :
    (i < j → arrivalNs o (queue.getD i default) ≤ arrivalNs o (queue.getD j default)) ∧
      (j < i → arrivalNs o (queue.getD j default) ≤ arrivalNs o (queue.getD i default)) :=
  ⟨fun hij => h.arrives.arrivalNs_le hij hj, fun hij => h.arrives.arrivalNs_le hij hi⟩

/-- Every group is one request. -/
theorem groupMajorOrder_eq :
    groupMajorOrder (laneMetas PyFloat.exact o ridToInt tree time queue) =
      sortedIdx singleKey (laneMetas PyFloat.exact o ridToInt tree time queue) := by
  refine groupMajorOrder_of_singles ?_
  rw [length_laneMetas]
  refine List.Nodup.map_on (fun i hi j hj heq => ?_) List.nodup_range
  rw [List.mem_range] at hi hj
  rw [h.getD_metas hi, h.getD_metas hj] at heq
  have hrid : (queue.getD i default).rid = (queue.getD j default).rid :=
    GroupKey.single.inj (congrArg Prod.snd heq)
  rw [getD_of_lt _ _ hi, getD_of_lt _ _ hj] at hrid
  have hreq := List.inj_on_of_nodup_map h.rids (List.getElem_mem hi) (List.getElem_mem hj) hrid
  exact (h.rids.of_map.getElem_inj_iff).mp hreq

/-- **When Lane A has the one of two requests first that is first in stock order.** -/
theorem before_laneA_iff {i j : Nat} (hi : i < queue.length) (hj : j < queue.length) (hij : i ≠ j)
    (hstock : mainHit ridToInt o.mainHits (queue.getD j default) <
        mainHit ridToInt o.mainHits (queue.getD i default) ∨
      mainHit ridToInt o.mainHits (queue.getD i default) =
        mainHit ridToInt o.mainHits (queue.getD j default) ∧ i < j) :
    Before (laneAOrder o.groupMajor (laneMetas PyFloat.exact o ridToInt tree time queue)) i j ↔
      LaneAgrees o ridToInt tree queue true (queue.getD i default) (queue.getD j default) := by
  have hlen := length_laneMetas PyFloat.exact o ridToInt tree time queue
  have harr := h.arrivalNs_le_or hi hj
  have hxy := @unsharedSection_le o ridToInt (queue.getD i default) (queue.getD j default)
  have hyx := @unsharedSection_le o ridToInt (queue.getD j default) (queue.getD i default)
  unfold laneAOrder LaneAgrees
  rw [if_pos rfl]
  cases hgm : o.groupMajor with
  | true =>
      rw [if_pos rfl, if_pos rfl, ← unsharedSection_eq_iff, h.groupMajorOrder_eq,
        before_sortedIdx_iff singleKey _ (hlen ▸ hi) (hlen ▸ hj) hij, h.getD_metas hi,
        h.getD_metas hj, before_getD_iff h.rids.of_map hi hj hij]
      simp only [singleKey, unsharedMeta, Prod.Lex.toLex_lt_toLex, toLex_inj, Prod.mk.injEq,
        lt_irrefl, false_or, true_and]
      omega
  | false =>
      rw [if_neg Bool.false_ne_true, if_neg Bool.false_ne_true,
        before_sortedIdx_iff laneAKey _ (hlen ▸ hi) (hlen ▸ hj) hij, h.getD_metas hi,
        h.getD_metas hj]
      simp only [laneAKey, unsharedMeta, Prod.Lex.toLex_lt_toLex, toLex_inj, Prod.mk.injEq,
        lt_irrefl, false_or, true_and]
      omega

theorem before_laneB_iff {i j : Nat} (hi : i < queue.length) (hj : j < queue.length) (hij : i ≠ j)
    (hstock : mainHit ridToInt o.mainHits (queue.getD j default) <
        mainHit ridToInt o.mainHits (queue.getD i default) ∨
      mainHit ridToInt o.mainHits (queue.getD i default) =
        mainHit ridToInt o.mainHits (queue.getD j default) ∧ i < j) :
    Before (laneBOrder (laneMetas PyFloat.exact o ridToInt tree time queue)) i j ↔
      LaneAgrees o ridToInt tree queue false (queue.getD i default) (queue.getD j default) := by
  have hlen := length_laneMetas PyFloat.exact o ridToInt tree time queue
  have harr := h.arrivalNs_le_or hi hj
  have hxy := @unsharedSection_le o ridToInt (queue.getD i default) (queue.getD j default)
  have hyx := @unsharedSection_le o ridToInt (queue.getD j default) (queue.getD i default)
  unfold laneBOrder LaneAgrees
  rw [if_neg Bool.false_ne_true, ← unsharedSection_eq_iff, before_sortedIdx_iff laneBKey _ (hlen ▸ hi) (hlen ▸ hj) hij,
    h.getD_metas hi, h.getD_metas hj]
  simp only [laneBKey, unsharedMeta, Prod.Lex.toLex_lt_toLex, toLex_inj, Prod.mk.injEq]
  omega

/-- The lane that is up in turn `k`, by `LaneAgrees`. -/
theorem before_lane_iff (k : Nat) {i j : Nat} (hi : i < queue.length) (hj : j < queue.length)
    (hij : i ≠ j)
    (hstock : mainHit ridToInt o.mainHits (queue.getD j default) <
        mainHit ridToInt o.mainHits (queue.getD i default) ∨
      mainHit ridToInt o.mainHits (queue.getD i default) =
        mainHit ridToInt o.mainHits (queue.getD j default) ∧ i < j) (share : ℚ) :
    Before (if LaneAUp share k then
        laneAOrder o.groupMajor (laneMetas PyFloat.exact o ridToInt tree time queue)
      else laneBOrder (laneMetas PyFloat.exact o ridToInt tree time queue)) i j ↔
      LaneAgrees o ridToInt tree queue (decide (LaneAUp share k)) (queue.getD i default)
        (queue.getD j default) := by
  by_cases hup : LaneAUp share k
  · rw [if_pos hup, decide_eq_true hup]
    exact h.before_laneA_iff hi hj hij hstock
  · rw [if_neg hup, decide_eq_false hup]
    exact h.before_laneB_iff hi hj hij hstock

end Unclustered

/-! ### The sort without sharing -/

/-- Stock order, as indices. -/
def stockIdx (mh : Req → Int) (queue : List Req) : List Nat :=
  (List.range queue.length).insertionSort fun i j =>
    -mh (queue.getD i default) ≤ -mh (queue.getD j default)

theorem stockOrder_eq (mh : Req → Int) (queue : List Req) :
    stockOrder mh queue = (stockIdx mh queue).map fun i => queue.getD i default := by
  unfold stockIdx stockOrder
  rw [List.map_insertionSort _ (fun a b => -mh a ≤ -mh b) _ _ fun i _ j _ => Iff.rfl, map_getD_range]

theorem stockIdx_perm (mh : Req → Int) (queue : List Req) :
    (stockIdx mh queue).Perm (List.range queue.length) := List.perm_insertionSort _ _

/-- Stock order has the higher hit first, and of equal ones the older. -/
theorem pairwise_stockIdx (mh : Req → Int) (queue : List Req) :
    (stockIdx mh queue).Pairwise fun i j => mh (queue.getD j default) < mh (queue.getD i default) ∨
      mh (queue.getD i default) = mh (queue.getD j default) ∧ i < j := by
  have hsorted : (stockIdx mh queue).Pairwise
      (KeyThen (fun i => -mh (queue.getD i default)) (· < ·)) := by
    exact pairwise_keyThen (fun i => -mh (queue.getD i default)) List.pairwise_lt_range
  refine hsorted.imp fun h => ?_
  unfold KeyThen at h
  rw [neg_lt_neg_iff, neg_inj] at h
  exact h

theorem map_inj_on {α β : Type} {f : α → β} {l l' : List α} (hlen : l.length = l'.length)
    (hinj : ∀ a ∈ l, ∀ b ∈ l', f a = f b → a = b) : l.map f = l'.map f ↔ l = l' := by
  constructor
  · intro h
    refine List.ext_getElem hlen fun i hi hi' => ?_
    refine hinj _ (List.getElem_mem hi) _ (List.getElem_mem hi') ?_
    have hget := congrArg (fun m => m[i]?) h
    simp only [List.getElem?_map, List.getElem?_eq_getElem hi, List.getElem?_eq_getElem hi',
      Option.map_some, Option.some.injEq] at hget
    exact hget
  · exact congrArg _

/-- Two cold requests that share nothing; the second one has the longer prompt. -/
def unsharedQueue : List Req :=
  [⟨"a", [1], [], none, [], none, false⟩, ⟨"b", [2, 3], [], none, [], none, false⟩]

def unsharedIds : Map ReqId Rid := ((∅ : Map ReqId Rid).insert "a" 1).insert "b" 2

def unsharedCalls : List PendingTree.Op := [.insert 1 [1], .insert 2 [2, 3]]

/-- The defaults, with a second between the two arrivals. -/
def unsharedOptions : ClpmOptions ℚ :=
  { ClpmOptions.byDefault PyFloat.exact with
    arrivalTs := some (((∅ : Map ReqId ℚ).insert "a" 1).insert "b" 2) }

theorem unsharedQueue_noSharing : NoSharing (PendingTree.run unsharedCalls) unsharedQueue where
  queue := by decide
  pending := by decide +kernel

theorem unsharedQueue_arrives : ArrivesInOrder unsharedOptions unsharedQueue := by
  intro ts hts
  have harr : unsharedOptions.arrivals =
      some (((∅ : Map ReqId ℚ).insert "a" 1).insert "b" 2) := by decide +kernel
  rw [harr, Option.some.injEq] at hts
  rw [← hts]
  decide +kernel

end Peek
