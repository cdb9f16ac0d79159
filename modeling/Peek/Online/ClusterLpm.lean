/-
Cluster-LPM, a sort in two lanes (`python/peek/online/lpm_integration.py`).

`peek_clpm_sort_inplace` puts every request into a section, sorts the queue twice, and takes
requests from both orders in turn, by a stride scheduler.  Lane A prefers what is cached and
what many requests share; Lane B prefers what has waited longest.

Shares, clocks and times are `float`.  The operations on them are a parameter (`PyFloat`), so
that what is proved holds of rounded arithmetic and of exact arithmetic.
-/
import Peek.Base.Groups
import Peek.Base.LaneMerge
import Peek.Base.PyFloat
import Peek.Online.LpmIntegration

namespace Peek

/-- The keyword arguments of `peek_clpm_sort_inplace`. -/
structure ClpmOptions (F : Type) where
  checkThreshold : Int := 32
  deprioritizeThreshold : Int := 32
  mainHits : Option (Map Rid Int) := none
  arrivalTs : Option (Map ReqId F) := none
  ageAlpha : F
  bigLaneShare : F
  groupMajor : Bool := false
  dynamicLane : Bool := false
  sloBudgetS : F

namespace ClpmOptions

variable {F : Type}

/-- `if arrival_ts:`; an empty dictionary counts as none. -/
def arrivals (o : ClpmOptions F) : Option (Map ReqId F) :=
  o.arrivalTs.filter fun ts => decide (ts.entries ≠ [])

/-- The arguments that are given by default. -/
def byDefault (f : PyFloat F) : ClpmOptions F :=
  { ageAlpha := f.ofRat 0, bigLaneShare := f.ofRat 0.7, sloBudgetS := f.ofRat 2 }

end ClpmOptions

/-! ### Sections -/

/-- What the first pass collects. -/
structure SectionPass where
  /-- 0 = warm, 1 = cold pioneer, 2 = cold sibling. -/
  sectionOf : Map ReqId Nat
  deprioritized : Finset ReqId
  seenPrefixes : Finset (List Token)

/-- One turn of the first pass. -/
def sectionTurn {F : Type} (o : ClpmOptions F) (mh : Req → Int) (s : SectionPass) (r : Req) :
    SectionPass :=
  if mh r > o.checkThreshold then { s with sectionOf := s.sectionOf.insert r.rid 0 }
  else if o.checkThreshold < 0 ∨ o.deprioritizeThreshold < 0 then
    { s with sectionOf := s.sectionOf.insert r.rid 1 }
  else if (r.tokens.length : Int) < o.deprioritizeThreshold then
    { s with sectionOf := s.sectionOf.insert r.rid 1 }
  else
    let prefixKey := r.tokens.take o.deprioritizeThreshold.toNat
    if prefixKey ∈ s.seenPrefixes then
      { s with
        deprioritized := insert r.rid s.deprioritized, sectionOf := s.sectionOf.insert r.rid 2 }
    else
      { s with
        seenPrefixes := insert prefixKey s.seenPrefixes
        sectionOf := s.sectionOf.insert r.rid 1 }

def sectionPass {F : Type} (o : ClpmOptions F) (mh : Req → Int) (waitingQueue : List Req) :
    SectionPass :=
  waitingQueue.foldl (sectionTurn o mh) ⟨∅, ∅, ∅⟩

/-! ### The lanes -/

/-- A cluster, or a request on its own. -/
inductive GroupKey where
  | cluster (node : NodeId)
  | single (rid : ReqId)
  deriving DecidableEq

/-- What a request is sorted by: the parts of its two lane keys and its group. -/
structure LaneMeta where
  sectionId : Nat
  effectiveMh : Int
  reqScore : Int
  clusterSize : Int
  arrivalNs : Int
  mh : Int
  groupKey : GroupKey
  groupScore : Int
  deriving DecidableEq

instance : Inhabited LaneMeta := ⟨⟨0, 0, 0, 0, 0, 0, .cluster 0, 0⟩⟩

/-- `(section, -effective_mh, -req_score, -cluster_size, arrival_ns)` -/
def laneAKey (m : LaneMeta) : Nat ×ₗ Int ×ₗ Int ×ₗ Int ×ₗ Int :=
  toLex (m.sectionId, toLex (-m.effectiveMh, toLex (-m.reqScore, toLex (-m.clusterSize,
    m.arrivalNs))))

/-- `(section, arrival_ns, -mh)` -/
def laneBKey (m : LaneMeta) : Nat ×ₗ Int ×ₗ Int :=
  toLex (m.sectionId, toLex (m.arrivalNs, -m.mh))

/-- `sorted(idx, key=...)`; the sort is stable. -/
def sortedIdx {κ : Type} [LE κ] [DecidableLE κ] (key : LaneMeta → κ) (metas : List LaneMeta) :
    List Nat :=
  (List.range metas.length).insertionSort fun i j =>
    key (metas.getD i default) ≤ key (metas.getD j default)

/-- `group_score[bk]`: the last member has written it. -/
def groupScore (metas : List LaneMeta) (members : List Nat) : Int :=
  (members.getLast?.map fun i => (metas.getD i default).groupScore).getD 0

/-- `group_min_arr[bk]` -/
def groupMinArr (metas : List LaneMeta) (members : List Nat) : Int :=
  ((members.map fun i => (metas.getD i default).arrivalNs).min?).getD 0

/-- `(bk[0], -group_score[bk], group_min_arr[bk])` -/
def groupOrderKey (metas : List LaneMeta) (g : (Nat × GroupKey) × List Nat) :
    Nat ×ₗ Int ×ₗ Int :=
  toLex (g.1.1, toLex (-groupScore metas g.2, groupMinArr metas g.2))

/-- `(-mh, arrival_ns)` -/
def memberKey (m : LaneMeta) : Int ×ₗ Int := toLex (-m.mh, m.arrivalNs)

/-- The groups one after the other, and in each what is cached most first. -/
def groupMajorOrder (metas : List LaneMeta) : List Nat :=
  let groups := groupBy (fun i => ((metas.getD i default).sectionId, (metas.getD i default).groupKey))
    (List.range metas.length)
  let groupOrder := groups.insertionSort fun g g' => groupOrderKey metas g ≤ groupOrderKey metas g'
  groupOrder.flatMap fun g => g.2.insertionSort fun i j =>
    memberKey (metas.getD i default) ≤ memberKey (metas.getD j default)

/-- `_lane_a_order` -/
def laneAOrder (groupMajor : Bool) (metas : List LaneMeta) : List Nat :=
  if groupMajor then groupMajorOrder metas else sortedIdx laneAKey metas

def laneBOrder (metas : List LaneMeta) : List Nat := sortedIdx laneBKey metas

/-! ### The stride merge -/

section

variable {F : Type} (f : PyFloat F)

/-- A clock; `none` is `float("inf")`. -/
abbrev VClock (F : Type) := Option F

/-- `a_vclock <= b_vclock` -/
def VClock.le : VClock F → VClock F → Bool
  | _, none => true
  | none, some _ => false
  | some x, some y => f.le x y

/-- The variables of the merge; of each lane what its pointer has not passed. -/
structure StrideState (F : Type) where
  aRest : List Nat
  bRest : List Nat
  aVclock : VClock F
  bVclock : VClock F
  picked : Finset Nat
  order : List Nat

/-- One turn of the loop: the lane with the smaller clock picks. -/
def strideTurn (aStride bStride : F) (s : StrideState F) : StrideState F :=
  if VClock.le f s.aVclock s.bVclock then
    match s.aRest.dropWhile fun i => decide (i ∈ s.picked) with
    | i :: rest =>
        { s with
          aRest := rest, order := s.order ++ [i], picked := insert i s.picked
          aVclock := s.aVclock.map fun clock => f.add clock aStride }
    | [] => { s with aRest := [], aVclock := none }
  else
    match s.bRest.dropWhile fun i => decide (i ∈ s.picked) with
    | i :: rest =>
        { s with
          bRest := rest, order := s.order ++ [i], picked := insert i s.picked
          bVclock := s.bVclock.map fun clock => f.add clock bStride }
    | [] => { s with bRest := [], bVclock := none }

/-- `while len(order) < n` -/
def strideLoop (aStride bStride : F) (n : Nat) : Nat → StrideState F → StrideState F
  | 0, s => s
  | fuel + 1, s =>
      if s.order.length < n then strideLoop aStride bStride n fuel (strideTurn f aStride bStride s)
      else s

/-- The merge of the two lanes; every turn picks one, so there are as many turns as requests. -/
def strideMerge (bigLaneShare : F) (n : Nat) (aSorted bSorted : List Nat) : List Nat :=
  let aStride := f.div (f.ofRat 1) bigLaneShare
  let bStride := f.div (f.ofRat 1) (f.sub (f.ofRat 1) bigLaneShare)
  (strideLoop f aStride bStride n n
    { aRest := aSorted, bRest := bSorted, aVclock := some aStride, bVclock := some bStride
      picked := ∅, order := [] }).order

/-- Both lanes, or only one of them if the other has no share. -/
def laneOrder (bigLaneShare : F) (groupMajor : Bool) (metas : List LaneMeta) : List Nat :=
  if f.le (f.sub (f.ofRat 1) (f.ofRat 1e-9)) bigLaneShare then laneAOrder groupMajor metas
  else if f.le bigLaneShare (f.ofRat 1e-9) then laneBOrder metas
  else strideMerge f bigLaneShare metas.length (laneAOrder groupMajor metas) (laneBOrder metas)

/-! ### The sort -/

variable (o : ClpmOptions F) (ridToInt : Map ReqId Rid)
  (allInfo : Map Rid (Option (NodeId × Nat × Nat))) (now : F)

/-- `all_info.get(rid_int) if rid_int is not None else None` -/
def clusterInfoOf (r : Req) : Option (NodeId × Nat × Nat) :=
  (ridToInt.lookup r.rid).bind fun rid => (allInfo.lookup rid).join

/-- In no cluster of two. -/
def isSingle (r : Req) : Bool :=
  match clusterInfoOf ridToInt allInfo r with
  | none => true
  | some (_, _, size) => decide (size < 2)

/-- `oldest_single_age`, after one more request. -/
def singleAgeTurn (oldest : F) (r : Req) : F :=
  match o.arrivals.bind fun ts => ts.lookup r.rid with
  | none => oldest
  | some arrived =>
      if f.truthy arrived then
        let age := if f.truthy now then f.sub now arrived else f.ofRat 0
        if f.lt oldest age then age else oldest
      else oldest

/-- Lane B's share before smoothing: between 0.1 and 0.6. -/
def rawLaneB (waitingQueue : List Req) : F :=
  let single := waitingQueue.filter (isSingle ridToInt allInfo)
  let oldestSingleAge := single.foldl (singleAgeTurn f o now) (f.ofRat 0)
  let singletonFrac := f.div (f.ofRat single.length) (f.ofRat waitingQueue.length)
  let agePressure := if f.lt (f.ofRat 0) o.sloBudgetS then
    f.min (f.ofRat 1) (f.div oldestSingleAge o.sloBudgetS) else f.ofRat 0
  let rawB := f.add (f.add (f.ofRat 0.15) (f.mul (f.ofRat 0.5) singletonFrac))
    (f.mul (f.ofRat 0.3) agePressure)
  f.max (f.ofRat 0.1) (f.min (f.ofRat 0.6) rawB)

/-- Lane A's share; `_dyn_lane_state` keeps Lane B's for the next tick. -/
def laneShare (waitingQueue : List Req) (dynLaneState : Option F) : F × Option F :=
  if o.dynamicLane ∧ waitingQueue ≠ [] then
    let prevB := dynLaneState.getD (f.ofRat 0.3)
    let smoothedB := f.add (f.mul (f.ofRat 0.7) prevB)
      (f.mul (f.ofRat 0.3) (rawLaneB f o ridToInt allInfo now waitingQueue))
    (f.sub (f.ofRat 1) smoothedB, some smoothedB)
  else (o.bigLaneShare, dynLaneState)

/-- The second pass, for one request. -/
def laneMeta (reqScores : Map Rid Int) (sectionOf : Map ReqId Nat) (r : Req) : LaneMeta :=
  let mh := mainHit ridToInt o.mainHits r
  let arrived : F := match o.arrivals with
    | none => f.ofRat 0
    | some ts => (ts.lookup r.rid).getD (if f.truthy now then now else f.ofRat 0)
  let aged := o.arrivals.isSome && f.lt (f.ofRat 0) o.ageAlpha
  let info := clusterInfoOf ridToInt allInfo r
  { sectionId := (sectionOf.lookup r.rid).getD 1
    effectiveMh := if aged then
      mh + f.int (f.mul o.ageAlpha (f.max (f.ofRat 0) (f.sub now arrived))) else mh
    reqScore := ((ridToInt.lookup r.rid).bind fun rid => reqScores.lookup rid).getD 0
    clusterSize := (info.map fun i => (i.2.2 : Int)).getD 0
    arrivalNs := if o.arrivals.isSome then f.int (f.mul arrived (f.ofRat 1e9)) else 0
    mh := mh
    groupKey := match info with
      | some (node, _, size) => if 2 ≤ size then .cluster node else .single r.rid
      | none => .single r.rid
    groupScore := match info with
      | some (_, depth, size) => if 2 ≤ size then (depth : Int) * (size : Int) else 0
      | none => 0 }

/-- What one call leaves behind. -/
structure ClpmResult (F : Type) where
  waitingQueue : List Req
  deprioritized : Finset ReqId
  dynLaneState : Option F

/-- The time the call works with, if it needs one. -/
def sampledNow (time : F) : F :=
  if o.arrivals.isSome && (f.lt (f.ofRat 0) o.ageAlpha || o.dynamicLane) then time else f.ofRat 0

/-- Both lane keys of every request, in queue order. -/
def laneMetas (tree : PendingTree) (time : F) (waitingQueue : List Req) : List LaneMeta :=
  waitingQueue.map (laneMeta f o ridToInt tree.allClusterInfo (sampledNow f o time)
    tree.computeReqScores (sectionPass o (mainHit ridToInt o.mainHits) waitingQueue).sectionOf)

/-- `peek_clpm_sort_inplace` -/
def peekClpmSortInplace (tree : PendingTree) (time : F) (dynLaneState : Option F)
    (waitingQueue : List Req) : ClpmResult F :=
  let pass := sectionPass o (mainHit ridToInt o.mainHits) waitingQueue
  let (bigLaneShare, dynLaneState) := laneShare f o ridToInt tree.allClusterInfo
    (sampledNow f o time) waitingQueue dynLaneState
  let order := laneOrder f bigLaneShare o.groupMajor (laneMetas f o ridToInt tree time waitingQueue)
  { waitingQueue := order.map fun i => waitingQueue.getD i default
    deprioritized := pass.deprioritized
    dynLaneState := dynLaneState }

end

end Peek
