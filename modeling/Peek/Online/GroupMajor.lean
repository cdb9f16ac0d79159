/-
Lane A, cluster by cluster (`_lane_a_order` of `python/peek/online/lpm_integration.py`, with
`group_major` on).

Requests are put into buckets by section and cluster, the buckets are sorted, and so is each of
them.  Of two requests either both are of one bucket, which then decides, or their buckets stand as
they do (`before_groupMajorOrder`).

A bucket's score is what its last member has written.  That is the score of every member: what
`cluster_info` says of a cluster is the same for all that are in it (`Sound.clusterInfo_node`), and
it is above the score of a request on its own.
-/
import Peek.Online.LaneOrder
import Peek.Pending.ClusterInfo

namespace Peek

open LaneMerge

/-! ### Buckets -/

section

variable (metas : List LaneMeta)

/-- `(section, gkey)` -/
def bucketAt (i : Nat) : Nat × GroupKey :=
  ((metas.getD i default).sectionId, (metas.getD i default).groupKey)

def arrivalAt (i : Nat) : Int := (metas.getD i default).arrivalNs

def hitAt (i : Nat) : Int := (metas.getD i default).mh

/-- `groups` -/
def buckets : List ((Nat × GroupKey) × List Nat) := groupBy (bucketAt metas) (List.range metas.length)

/-- `group_order`, with the members of each group. -/
def bucketOrder : List ((Nat × GroupKey) × List Nat) :=
  (buckets metas).insertionSort fun g g' => groupOrderKey metas g ≤ groupOrderKey metas g'

/-- The members of a group as they are sorted. -/
def memberOrder (g : (Nat × GroupKey) × List Nat) : List Nat :=
  g.2.insertionSort fun i j => memberKey (metas.getD i default) ≤ memberKey (metas.getD j default)

theorem groupMajorOrder_eq : groupMajorOrder metas = (bucketOrder metas).flatMap (memberOrder metas) :=
  rfl

variable {metas} {g g' : (Nat × GroupKey) × List Nat} {i j : Nat}

theorem mem_bucketOrder : g ∈ bucketOrder metas ↔ g ∈ buckets metas :=
  (List.perm_insertionSort _ _).mem_iff

theorem mem_memberOrder : i ∈ memberOrder metas g ↔ i ∈ g.2 :=
  (List.perm_insertionSort _ _).mem_iff

/-- A bucket has the requests with its key, as they stand in the queue. -/
theorem members_eq (hg : g ∈ buckets metas) :
    g.2 = (List.range metas.length).filter fun i => bucketAt metas i = g.1 :=
  (mem_groupBy.mp (show (g.1, g.2) ∈ groupBy _ _ from hg)).1

theorem mem_bucket (hg : g ∈ buckets metas) : i ∈ g.2 ↔ i < metas.length ∧ bucketAt metas i = g.1 := by
  rw [members_eq hg, List.mem_filter, List.mem_range, decide_eq_true_eq]

theorem bucket_ext (hg : g ∈ buckets metas) (hg' : g' ∈ buckets metas) (h : g.1 = g'.1) : g = g' := by
  refine Prod.ext h ?_
  rw [members_eq hg, members_eq hg', h]

theorem nodup_bucketOrder : (bucketOrder metas).Nodup :=
  (List.perm_insertionSort _ _).symm.nodup (List.Nodup.of_map _ (groupBy_spec _ _).1)

/-- By the key of the bucket, and then by who stands first in the queue. -/
theorem pairwise_bucketOrder :
    (bucketOrder metas).Pairwise (KeyThen (groupOrderKey metas) (StartsAhead (· < ·))) :=
  pairwise_keyThen (groupOrderKey metas) (pairwise_groupBy List.pairwise_lt_range)

theorem pairwise_memberOrder (hg : g ∈ buckets metas) :
    (memberOrder metas g).Pairwise (KeyThen (fun i => memberKey (metas.getD i default)) (· < ·)) := by
  have hqueue : g.2.Pairwise (· < ·) := by
    rw [members_eq hg]
    exact List.pairwise_lt_range.filter _
  exact pairwise_keyThen (fun i => memberKey (metas.getD i default)) hqueue

/-- **Two requests are of one bucket, or stand as their buckets do.** -/
theorem before_groupMajorOrder (h : Before (groupMajorOrder metas) i j) :
    ∃ g ∈ buckets metas, ∃ g' ∈ buckets metas, i ∈ g.2 ∧ j ∈ g'.2 ∧
      (g = g' ∧ KeyThen (fun i => memberKey (metas.getD i default)) (· < ·) i j ∨
        Before (bucketOrder metas) g g') := by
  rw [groupMajorOrder_eq] at h
  rcases h.of_flatMap with ⟨g, hg, hij⟩ | ⟨g, g', hgg, hi, hj⟩
  · have hg := mem_bucketOrder.mp hg
    exact ⟨g, hg, g, hg, mem_memberOrder.mp hij.left_mem, mem_memberOrder.mp hij.right_mem,
      Or.inl ⟨rfl, hij.rel (pairwise_memberOrder hg)⟩⟩
  · exact ⟨g, mem_bucketOrder.mp hgg.left_mem, g', mem_bucketOrder.mp hgg.right_mem,
      mem_memberOrder.mp hi, mem_memberOrder.mp hj, Or.inr hgg⟩

/-- **Nothing stands between two requests of one bucket** but others of that bucket. -/
theorem bucketAt_between {k : Nat} (hij : Before (groupMajorOrder metas) i j)
    (hjk : Before (groupMajorOrder metas) j k) (hik : bucketAt metas i = bucketAt metas k) :
    bucketAt metas j = bucketAt metas i := by
  obtain ⟨g, hg, g', hg', hi, hj, hfirst⟩ := before_groupMajorOrder hij
  obtain ⟨g₁, hg₁, g₂, hg₂, hj', hk, hsecond⟩ := before_groupMajorOrder hjk
  have hi := ((mem_bucket hg).mp hi).2
  have hj := ((mem_bucket hg').mp hj).2
  have hj' := ((mem_bucket hg₁).mp hj').2
  have hk := ((mem_bucket hg₂).mp hk).2
  obtain rfl : g' = g₁ := bucket_ext hg' hg₁ (hj.symm.trans hj')
  obtain rfl : g = g₂ := bucket_ext hg hg₂ (hi.symm.trans (hik.trans hk))
  rcases hfirst with ⟨rfl, -⟩ | hfirst
  · exact hj.trans hi.symm
  · rcases hsecond with ⟨rfl, -⟩ | hsecond
    · exact hj.trans hi.symm
    · exact absurd hsecond (hfirst.asymm nodup_bucketOrder)

/-! ### The keys of the buckets -/

/-- The minimum that is kept along the way is that of all members. -/
theorem groupMinArr_spec {members : List Nat} (hne : members ≠ []) :
    (∃ x ∈ members, arrivalAt metas x = groupMinArr metas members) ∧
      ∀ y ∈ members, groupMinArr metas members ≤ arrivalAt metas y := by
  unfold groupMinArr
  cases hmin : (members.map fun i => (metas.getD i default).arrivalNs).min? with
  | none =>
      rw [List.min?_eq_none_iff, List.map_eq_nil_iff] at hmin
      exact absurd hmin hne
  | some a =>
      obtain ⟨hmem, hle⟩ := List.min?_eq_some_iff.mp hmin
      obtain ⟨x, hx, rfl⟩ := List.mem_map.mp hmem
      exact ⟨⟨x, hx, rfl⟩, fun y hy => hle _ (List.mem_map_of_mem hy)⟩

/-- The score that is written last is one of a member. -/
theorem groupScore_spec {members : List Nat} (hne : members ≠ []) :
    ∃ x ∈ members, (metas.getD x default).groupScore = groupScore metas members := by
  unfold groupScore
  rw [List.getLast?_eq_some_getLast hne]
  exact ⟨members.getLast hne, List.getLast_mem hne, rfl⟩

/--
All of `S` are behind some of `T`: the earliest arrival is of `T`, and where the arrivals tie, the
first place in the queue.
-/
def ArrivedFirst (metas : List LaneMeta) (S T : Nat → Prop) : Prop :=
  (∃ x, S x ∧ ∀ y, T y → arrivalAt metas x < arrivalAt metas y) ∨
    (∃ x, S x ∧ ∀ y, T y → arrivalAt metas x ≤ arrivalAt metas y) ∧ ∃ x, S x ∧ ∀ y, T y → x < y

/-- Of two buckets in a section the first has the higher score, or as high a one and arrived first. -/
theorem bucketOrder_cases (hgg : Before (bucketOrder metas) g g') (hsec : g.1.1 = g'.1.1) :
    groupScore metas g'.2 < groupScore metas g.2 ∨
      groupScore metas g.2 = groupScore metas g'.2 ∧ ArrivedFirst metas (· ∈ g.2) (· ∈ g'.2) := by
  have hg := mem_bucketOrder.mp hgg.left_mem
  have hg' := mem_bucketOrder.mp hgg.right_mem
  have hne : ∀ {g}, g ∈ buckets metas → g.2 ≠ [] := fun hg => (groupBy_spec _ _).2.1 _ hg
  obtain ⟨⟨x, hx, hmin⟩, -⟩ := @groupMinArr_spec metas _ (hne hg)
  obtain ⟨-, hle'⟩ := @groupMinArr_spec metas _ (hne hg')
  rcases hgg.rel pairwise_bucketOrder with hlt | ⟨heq, hahead⟩
  · unfold groupOrderKey at hlt
    rw [hsec, Prod.Lex.toLex_lt_toLex] at hlt
    have hlt := (hlt.resolve_left (lt_irrefl _)).2
    rw [Prod.Lex.toLex_lt_toLex] at hlt
    rcases hlt with hscore | ⟨hscore, harr⟩
    · exact Or.inl (neg_lt_neg_iff.mp hscore)
    · refine Or.inr ⟨neg_inj.mp hscore, Or.inl ⟨x, hx, fun y hy => ?_⟩⟩
      exact hmin ▸ lt_of_lt_of_le harr (hle' y hy)
  · unfold groupOrderKey at heq
    simp only [EmbeddingLike.apply_eq_iff_eq, Prod.mk.injEq, neg_inj] at heq
    refine Or.inr ⟨heq.2.1, Or.inr ⟨⟨x, hx, fun y hy => ?_⟩, hahead⟩⟩
    exact hmin ▸ heq.2.2 ▸ hle' y hy

end

/-! ### Clusters -/

section

variable (metas : List LaneMeta) (cluster : Nat → Option (NodeId × Nat × Nat))

/-- `x` waits in the section of `i`, and for the same cluster. -/
def Cohort (i x : Nat) : Prop :=
  x < metas.length ∧ sectionAt metas x = sectionAt metas i ∧
    ∃ node, (cluster i).map (·.1) = some node ∧ (cluster x).map (·.1) = some node

/--
The order that group-major asks for.  `cluster` says of a request which cluster it is in, how deep
that is and how many are in it.
-/
structure GroupMajor (order : List Nat) : Prop where
  perm : order.Perm (List.range metas.length)
  sections : order.Pairwise fun i j => sectionAt metas i ≤ sectionAt metas j
  contiguous : ∀ i j k, Before order i j → Before order j k → Cohort metas cluster i k →
    Cohort metas cluster i j
  /-- The deeper and larger cluster first, and of equal ones the one that arrived first. -/
  clusters : ∀ i j, Before order i j → sectionAt metas i = sectionAt metas j →
    ∀ node depth size node' depth' size', cluster i = some (node, depth, size) →
      cluster j = some (node', depth', size') → node ≠ node' →
      depth' * size' < depth * size ∨ depth * size = depth' * size' ∧
        ArrivedFirst metas (Cohort metas cluster i) (Cohort metas cluster j)
  clusteredFirst : ∀ i j, Before order i j → sectionAt metas i = sectionAt metas j →
    cluster i = none → cluster j = none
  singletons : ∀ i j, Before order i j → sectionAt metas i = sectionAt metas j →
    cluster i = none → cluster j = none →
      arrivalAt metas i < arrivalAt metas j ∨ arrivalAt metas i = arrivalAt metas j ∧ i < j
  members : ∀ i j, Before order i j → Cohort metas cluster i j →
    hitAt metas j < hitAt metas i ∨ hitAt metas i = hitAt metas j ∧
      (arrivalAt metas i < arrivalAt metas j ∨ arrivalAt metas i = arrivalAt metas j ∧ i < j)

/-- What the lane knows of a request, against the cluster it is in. -/
structure Labels : Prop where
  clustered : ∀ i < metas.length, ∀ node depth size, cluster i = some (node, depth, size) →
    (metas.getD i default).groupKey = .cluster node ∧
      (metas.getD i default).groupScore = (depth : Int) * (size : Int) ∧ 0 < depth * size
  single : ∀ i < metas.length, cluster i = none →
    (metas.getD i default).groupScore = 0 ∧
      ∀ j < metas.length, (metas.getD j default).groupKey = (metas.getD i default).groupKey → j = i
  /-- One cluster, one score. -/
  score : ∀ i j node depth size depth' size', cluster i = some (node, depth, size) →
    cluster j = some (node, depth', size') → depth * size = depth' * size'

variable {metas cluster} {i j : Nat} {g : (Nat × GroupKey) × List Nat}

/-- Requests of one bucket are of one cluster, or one request. -/
theorem Labels.same_cluster (h : Labels metas cluster) (hi : i < metas.length) (hj : j < metas.length)
    (hkey : bucketAt metas j = bucketAt metas i) :
    (cluster i = none ∧ j = i) ∨ ∃ node depth size depth' size',
      cluster i = some (node, depth, size) ∧ cluster j = some (node, depth', size') := by
  have hgroup : (metas.getD j default).groupKey = (metas.getD i default).groupKey :=
    congrArg Prod.snd hkey
  cases hci : cluster i with
  | none => exact Or.inl ⟨rfl, (h.single i hi hci).2 j hj hgroup⟩
  | some c =>
      obtain ⟨node, depth, size⟩ := c
      refine Or.inr ⟨node, depth, size, ?_⟩
      cases hcj : cluster j with
      | none =>
          have hij : i = j := (h.single j hj hcj).2 i hi hgroup.symm
          rw [hij, hcj] at hci
          cases hci
      | some c' =>
          obtain ⟨node', depth', size'⟩ := c'
          rw [(h.clustered i hi _ _ _ hci).1, (h.clustered j hj _ _ _ hcj).1] at hgroup
          obtain rfl : node' = node := by simpa using hgroup
          exact ⟨depth', size', rfl, rfl⟩

/-- The members of a cluster that wait in a section are the bucket of any of them. -/
theorem Labels.cohort_iff (h : Labels metas cluster) (hi : i < metas.length) {node : NodeId}
    {depth size : Nat} (hci : cluster i = some (node, depth, size)) (x : Nat) :
    Cohort metas cluster i x ↔ x < metas.length ∧ bucketAt metas x = bucketAt metas i := by
  constructor
  · rintro ⟨hx, hsec, node', hni, hnx⟩
    refine ⟨hx, Prod.ext hsec ?_⟩
    obtain ⟨⟨node', depth', size'⟩, hcx, rfl⟩ := Option.map_eq_some_iff.mp hnx
    rw [hci] at hni
    obtain rfl : node = node' := by simpa using hni
    exact (h.clustered x hx _ _ _ hcx).1.trans (h.clustered i hi _ _ _ hci).1.symm
  · rintro ⟨hx, hkey⟩
    refine ⟨hx, congrArg Prod.fst hkey, node, by rw [hci]; rfl, ?_⟩
    rcases h.same_cluster hi hx hkey with ⟨hnone, -⟩ | ⟨node', _, _, _, _, hsome, hcx⟩
    · rw [hci] at hnone
      cases hnone
    · rw [hci] at hsome
      obtain ⟨rfl, -⟩ : node = node' ∧ _ := by simpa using hsome
      rw [hcx]
      rfl

/-- **The score of a bucket is that of any member**, whichever wrote it last. -/
theorem Labels.groupScore_eq (h : Labels metas cluster) (hg : g ∈ buckets metas) (hi : i ∈ g.2) :
    groupScore metas g.2 = (metas.getD i default).groupScore := by
  obtain ⟨x, hx, hscore⟩ := @groupScore_spec metas _ (List.ne_nil_of_mem hi)
  obtain ⟨hxlt, hxkey⟩ := (mem_bucket hg).mp hx
  obtain ⟨hilt, hikey⟩ := (mem_bucket hg).mp hi
  rw [← hscore]
  rcases h.same_cluster hilt hxlt (hxkey.trans hikey.symm) with
    ⟨-, rfl⟩ | ⟨node, depth, size, depth', size', hci, hcx⟩
  · rfl
  · rw [(h.clustered i hilt _ _ _ hci).2.1, (h.clustered x hxlt _ _ _ hcx).2.1]
    exact_mod_cast h.score x i _ _ _ _ _ hcx hci

/-- Of two requests in different buckets of a section the first has the better bucket. -/
theorem Labels.cases_of_ne (h : Labels metas cluster) (hij : Before (groupMajorOrder metas) i j)
    (hsec : sectionAt metas i = sectionAt metas j) (hne : bucketAt metas i ≠ bucketAt metas j) :
    (metas.getD j default).groupScore < (metas.getD i default).groupScore ∨
      (metas.getD i default).groupScore = (metas.getD j default).groupScore ∧
        ArrivedFirst metas (fun x => x < metas.length ∧ bucketAt metas x = bucketAt metas i)
          fun x => x < metas.length ∧ bucketAt metas x = bucketAt metas j := by
  obtain ⟨g, hg, g', hg', hi, hj, hcases⟩ := before_groupMajorOrder hij
  have hikey := ((mem_bucket hg).mp hi).2
  have hjkey := ((mem_bucket hg').mp hj).2
  rcases hcases with ⟨rfl, -⟩ | hgg
  · exact absurd (hikey.trans hjkey.symm) hne
  have hfirst : g.1.1 = g'.1.1 := by
    rw [← hikey, ← hjkey]
    exact hsec
  have hcases := bucketOrder_cases hgg hfirst
  rw [h.groupScore_eq hg hi, h.groupScore_eq hg' hj] at hcases
  simp only [mem_bucket hg, mem_bucket hg', ← hikey, ← hjkey] at hcases
  exact hcases

/-- Two requests of one bucket: the higher hit first, and of equal ones the one that arrived first. -/
theorem members_cases (hij : Before (groupMajorOrder metas) i j)
    (hkey : bucketAt metas i = bucketAt metas j) :
    hitAt metas j < hitAt metas i ∨ hitAt metas i = hitAt metas j ∧
      (arrivalAt metas i < arrivalAt metas j ∨ arrivalAt metas i = arrivalAt metas j ∧ i < j) := by
  obtain ⟨g, hg, g', hg', hi, hj, hcases⟩ := before_groupMajorOrder hij
  have hikey := ((mem_bucket hg).mp hi).2
  have hjkey := ((mem_bucket hg').mp hj).2
  obtain rfl : g = g' := bucket_ext hg hg' (hikey.symm.trans (hkey.trans hjkey))
  rcases hcases with ⟨-, hthen⟩ | hgg
  · unfold KeyThen memberKey at hthen
    rw [Prod.Lex.toLex_lt_toLex, neg_lt_neg_iff, neg_inj] at hthen
    simp only [EmbeddingLike.apply_eq_iff_eq, Prod.mk.injEq, neg_inj] at hthen
    unfold hitAt arrivalAt
    tauto
  · exact absurd hgg (hgg.asymm nodup_bucketOrder)

theorem index_lt (hi : i ∈ groupMajorOrder metas) : i < metas.length :=
  List.mem_range.mp ((isLane_groupMajorOrder metas).perm.mem_iff.mp hi)

theorem ne_of_before (hij : Before (groupMajorOrder metas) i j) : i ≠ j := by
  rintro rfl
  have hnodup := (isLane_groupMajorOrder metas).perm.symm.nodup List.nodup_range
  exact hij.asymm hnodup hij

/-- The deeper and larger cluster first. -/
theorem Labels.clusters (h : Labels metas cluster) (hij : Before (groupMajorOrder metas) i j)
    (hsec : sectionAt metas i = sectionAt metas j) {node node' : NodeId}
    {depth size depth' size' : Nat} (hci : cluster i = some (node, depth, size))
    (hcj : cluster j = some (node', depth', size')) (hne : node ≠ node') :
    depth' * size' < depth * size ∨ depth * size = depth' * size' ∧
      ArrivedFirst metas (Cohort metas cluster i) (Cohort metas cluster j) := by
  have hi := index_lt hij.left_mem
  have hj := index_lt hij.right_mem
  obtain ⟨hikey, hiscore, -⟩ := h.clustered i hi _ _ _ hci
  obtain ⟨hjkey, hjscore, -⟩ := h.clustered j hj _ _ _ hcj
  have hbuckets : bucketAt metas i ≠ bucketAt metas j := by
    intro heq
    have hgroup : (metas.getD i default).groupKey = (metas.getD j default).groupKey :=
      congrArg Prod.snd heq
    rw [hikey, hjkey, GroupKey.cluster.injEq] at hgroup
    exact hne hgroup
  have hcases := h.cases_of_ne hij hsec hbuckets
  rw [hiscore, hjscore] at hcases
  have hcohort : ∀ {k node depth size}, k < metas.length → cluster k = some (node, depth, size) →
      Cohort metas cluster k = fun x => x < metas.length ∧ bucketAt metas x = bucketAt metas k :=
    fun hk hck => funext fun x => propext (h.cohort_iff hk hck x)
  rw [hcohort hi hci, hcohort hj hcj]
  exact_mod_cast hcases

/-- A request on its own scores nothing, so no cluster comes after it. -/
theorem Labels.clusteredFirst (h : Labels metas cluster) (hij : Before (groupMajorOrder metas) i j)
    (hsec : sectionAt metas i = sectionAt metas j) (hci : cluster i = none) : cluster j = none := by
  cases hcj : cluster j with
  | none => rfl
  | some c =>
      obtain ⟨node, depth, size⟩ := c
      obtain ⟨-, hjscore, hpos⟩ := h.clustered j (index_lt hij.right_mem) _ _ _ hcj
      obtain ⟨hiscore, halone⟩ := h.single i (index_lt hij.left_mem) hci
      have hbuckets : bucketAt metas i ≠ bucketAt metas j := by
        intro heq
        exact ne_of_before hij (halone j (index_lt hij.right_mem) (congrArg Prod.snd heq).symm).symm
      have hcases := h.cases_of_ne hij hsec hbuckets
      rw [hiscore, hjscore] at hcases
      have hpos : (0 : Int) < (depth : Int) * (size : Int) := by exact_mod_cast hpos
      omega

/-- Requests on their own come by arrival. -/
theorem Labels.singletons (h : Labels metas cluster) (hij : Before (groupMajorOrder metas) i j)
    (hsec : sectionAt metas i = sectionAt metas j) (hci : cluster i = none) (hcj : cluster j = none) :
    arrivalAt metas i < arrivalAt metas j ∨ arrivalAt metas i = arrivalAt metas j ∧ i < j := by
  have hj := index_lt hij.right_mem
  obtain ⟨hiscore, hialone⟩ := h.single i (index_lt hij.left_mem) hci
  obtain ⟨hjscore, -⟩ := h.single j hj hcj
  have hbuckets : bucketAt metas i ≠ bucketAt metas j := by
    intro heq
    exact ne_of_before hij (hialone j hj (congrArg Prod.snd heq).symm).symm
  have hcases := h.cases_of_ne hij hsec hbuckets
  rw [hiscore, hjscore] at hcases
  have harrived := (hcases.resolve_left (lt_irrefl _)).2
  -- the bucket of `i` is `i` alone
  have hself : ∀ {x}, x < metas.length ∧ bucketAt metas x = bucketAt metas i → x = i := fun hx =>
    hialone _ hx.1 (congrArg Prod.snd hx.2)
  rcases harrived with ⟨x, hx, hxy⟩ | ⟨⟨x, hx, hxy⟩, y, hy, hyx⟩
  · rw [hself hx] at hxy
    exact Or.inl (hxy j ⟨hj, rfl⟩)
  · rw [hself hx] at hxy
    rw [hself hy] at hyx
    exact (lt_or_eq_of_le (hxy j ⟨hj, rfl⟩)).imp id fun heq => ⟨heq, hyx j ⟨hj, rfl⟩⟩

/-- The cohort of a request is its bucket. -/
theorem Labels.bucketAt_of_cohort (h : Labels metas cluster) (hi : i < metas.length)
    (hij : Cohort metas cluster i j) :
    bucketAt metas j = bucketAt metas i ∧
      ∀ x < metas.length, bucketAt metas x = bucketAt metas i → Cohort metas cluster i x := by
  obtain ⟨-, -, node, hni, -⟩ := id hij
  obtain ⟨⟨node', depth, size⟩, hci, -⟩ := Option.map_eq_some_iff.mp hni
  have hcohort := h.cohort_iff hi hci
  exact ⟨((hcohort j).mp hij).2, fun x hx hkey => (hcohort x).mpr ⟨hx, hkey⟩⟩

/-- **The lane puts cluster after cluster**, if it knows the clusters. -/
theorem Labels.groupMajor (h : Labels metas cluster) :
    GroupMajor metas cluster (groupMajorOrder metas) where
  perm := (isLane_groupMajorOrder metas).perm
  sections := (isLane_groupMajorOrder metas).sections
  contiguous i j k hij hjk hik := by
    obtain ⟨hkey, hcohort⟩ := h.bucketAt_of_cohort (index_lt hij.left_mem) hik
    exact hcohort j (index_lt hij.right_mem) (bucketAt_between hij hjk hkey.symm)
  clusters i j hij hsec _ _ _ _ _ _ hci hcj hne := h.clusters hij hsec hci hcj hne
  clusteredFirst i j hij hsec hci := h.clusteredFirst hij hsec hci
  singletons i j hij hsec hci hcj := h.singletons hij hsec hci hcj
  members i j hij hcohort :=
    members_cases hij (h.bucketAt_of_cohort (index_lt hij.left_mem) hcohort).1.symm

end

/-! ### What the sort knows of the clusters -/

section

variable {F : Type} (f : PyFloat F) (o : ClpmOptions F) (ridToInt : Map ReqId Rid)
  (tree : PendingTree) (now : F) (reqScores : Map Rid Int) (sectionOf : Map ReqId Nat)
  (queue : List Req)

/-- `cluster_info` of the request at an index. -/
def clusterAt (i : Nat) : Option (NodeId × Nat × Nat) :=
  (ridToInt.lookup (queue.getD i default).rid).bind tree.clusterInfo

/-- The lanes' view of the queue, whatever the sections. -/
def metasOf : List LaneMeta :=
  queue.map (laneMeta f o ridToInt tree.allClusterInfo now reqScores sectionOf)

/-- A rid that is not pending is in no cluster, as if it were alone. -/
theorem clusterInfoOf_allClusterInfo (r : Req) :
    clusterInfoOf ridToInt tree.allClusterInfo r = (ridToInt.lookup r.rid).bind tree.clusterInfo := by
  unfold clusterInfoOf
  refine Option.bind_congr fun rid _ => ?_
  rw [PendingTree.lookup_allClusterInfo]
  cases hl : tree.paths.lookup rid with
  | none =>
      unfold PendingTree.clusterInfo
      rw [hl]
      rfl
  | some tokens => rfl

/-- The group of a request is its cluster's, or its own. -/
theorem group_metasOf {i : Nat} (hi : i < queue.length) :
    let m := (metasOf f o ridToInt tree now reqScores sectionOf queue).getD i default
    (m.groupKey = match clusterAt ridToInt tree queue i with
      | some (node, _, size) => if 2 ≤ size then .cluster node else .single (queue.getD i default).rid
      | none => .single (queue.getD i default).rid) ∧
    m.groupScore = match clusterAt ridToInt tree queue i with
      | some (_, depth, size) => if 2 ≤ size then (depth : Int) * (size : Int) else 0
      | none => 0 := by
  intro m
  have hm : m = laneMeta f o ridToInt tree.allClusterInfo now reqScores sectionOf (queue.getD i default) :=
    getD_map_of_lt _ queue default default hi
  rw [hm]
  unfold laneMeta clusterAt
  rw [clusterInfoOf_allClusterInfo]
  exact ⟨rfl, rfl⟩

/-- **What the sort knows of the clusters is so**, if the rids are distinct. -/
theorem labels_metasOf (hp : tree.Sound) (hrids : (queue.map Req.rid).Nodup) :
    Labels (metasOf f o ridToInt tree now reqScores sectionOf queue)
      (clusterAt ridToInt tree queue) := by
  obtain ⟨depthOf, sizeOf, hinfo⟩ := hp.clusterInfo_node
  have hnode : ∀ i node depth size, clusterAt ridToInt tree queue i = some (node, depth, size) →
      depth = depthOf node ∧ size = sizeOf node ∧ 1 ≤ depth ∧ 2 ≤ size := by
    intro i node depth size hci
    obtain ⟨rid, -, hrid⟩ := Option.bind_eq_some_iff.mp hci
    exact hinfo rid node depth size hrid
  have hlen : (metasOf f o ridToInt tree now reqScores sectionOf queue).length = queue.length :=
    List.length_map _
  refine ⟨fun i hi node depth size hci => ?_, fun i hi hci => ?_, ?_⟩
  · obtain ⟨-, -, hdepth, hsize⟩ := hnode i node depth size hci
    obtain ⟨hkey, hscore⟩ := group_metasOf f o ridToInt tree now reqScores sectionOf queue (hlen ▸ hi)
    rw [hci] at hkey hscore
    simp only [if_pos hsize] at hkey hscore
    exact ⟨hkey, hscore, Nat.mul_pos hdepth (by omega)⟩
  · obtain ⟨hkey, hscore⟩ := group_metasOf f o ridToInt tree now reqScores sectionOf queue (hlen ▸ hi)
    rw [hci] at hkey hscore
    refine ⟨hscore, fun j hj hgroup => ?_⟩
    obtain ⟨hkeyj, -⟩ := group_metasOf f o ridToInt tree now reqScores sectionOf queue (hlen ▸ hj)
    rw [hkey, hkeyj] at hgroup
    have hrid : (queue.getD j default).rid = (queue.getD i default).rid := by
      cases hcj : clusterAt ridToInt tree queue j with
      | none =>
          rw [hcj] at hgroup
          simpa using hgroup
      | some c =>
          obtain ⟨node, depth, size⟩ := c
          rw [hcj] at hgroup
          simp only [if_pos (hnode j node depth size hcj).2.2.2] at hgroup
          cases hgroup
    rw [hlen] at hi hj
    rw [getD_of_lt _ _ hi, getD_of_lt _ _ hj] at hrid
    refine (List.getElem?_inj (by rwa [List.length_map]) hrids).mp ?_
    rw [List.getElem?_map, List.getElem?_map, List.getElem?_eq_getElem hi, List.getElem?_eq_getElem hj]
    exact congrArg some hrid
  · intro i j node depth size depth' size' hci hcj
    obtain ⟨hd, hs, -, -⟩ := hnode i node depth size hci
    obtain ⟨hd', hs', -, -⟩ := hnode j node depth' size' hcj
    rw [hd, hs, hd', hs']

end

/--
**Group-major Lane A.**  Over a queue of distinct rids, with any sections, hits and arrivals, it
lists all indices, section after section; in a section the members of a cluster stand together, the
higher hit first and then by arrival; clusters come by depth times size and then by the earliest
arrival among their members there; and what is in no cluster comes last, by arrival.
-/
theorem laneAOrder_groupMajor {F : Type} (f : PyFloat F) (o : ClpmOptions F)
    (ridToInt : Map ReqId Rid) (ops : List PendingTree.Op) (now : F) (reqScores : Map Rid Int)
    (sectionOf : Map ReqId Nat) (queue : List Req) (hrids : (queue.map Req.rid).Nodup) :
    let metas := metasOf f o ridToInt (PendingTree.run ops) now reqScores sectionOf queue
    GroupMajor metas (clusterAt ridToInt (PendingTree.run ops) queue) (laneAOrder true metas) :=
  (labels_metasOf f o ridToInt _ now reqScores sectionOf queue (PendingTree.sound_run ops)
    hrids).groupMajor

/-- Two nested clusters, of which the outer one has more members, and a request on its own. -/
theorem laneAOrder_groupMajor_nested :
    let tree := PendingTree.run
      [.insert 0 [9], .insert 1 [1, 2, 3], .insert 2 [1, 4], .insert 3 [1, 2, 5], .insert 4 [1, 6]]
    let ridToInt : Map ReqId Rid := ((((((∅ : Map ReqId Rid).insert "e" 0).insert "a" 1).insert "b" 2).insert
      "c" 3).insert "d" 4)
    let queue : List Req := [("e", [9]), ("a", [1, 2, 3]), ("b", [1, 4]), ("c", [1, 2, 5]), ("d", [1, 6])].map
      fun e => ⟨e.1, e.2, [], none, [], none, false⟩
    let o : ClpmOptions Rat := { ClpmOptions.byDefault PyFloat.exact with groupMajor := true }
    let metas := metasOf PyFloat.exact o ridToInt tree 0 ∅ ∅ queue
    GroupMajor metas (clusterAt ridToInt tree queue) (laneAOrder true metas) ∧
      laneAOrder true metas = [1, 3, 2, 4, 0] := by
  refine ⟨laneAOrder_groupMajor _ _ _ _ _ _ _ _ (by decide), ?_⟩
  decide +kernel

end Peek
