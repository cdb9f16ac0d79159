/-
What a read-only match leaves as it was.

`match_prefix_readonly` writes no access time and no hit count, and returns what
`match_prefix` returns.  But where the match ends inside a stored segment it splits the node,
and the new upper half carries over the priority, the locks and the queue references only: its
access time is the one of its making, and its hit count is zero.  So the call is a read-only
probe just when no segment is cut, or the cut one has nothing to lose (`readonly_probe_iff`).
-/
import Peek.Radix.Holder
import Peek.Sglang.QueueAware

namespace Peek

open Radix

/-- What the eviction strategies read off a node, besides its depth. -/
structure NodeMetadata (τ : Type) where
  lastAccessTime : τ
  hitCount : Nat
  priority : Int
  lockRef : Int
  queueRefCount : Nat
  deriving DecidableEq

/-- The metadata of a node, where `time k` is what the `k`-th reading of the clock returned. -/
def TreeNode.metadata {τ : Type} (time : Nat → τ) (n : TreeNode) : NodeMetadata τ :=
  { lastAccessTime := time n.lastAccessTime, hitCount := n.hitCount, priority := n.priority
    lockRef := n.lockRef, queueRefCount := n.queueRefCount }

namespace RadixCache

variable {c c1 : RadixCache} {live : Set NodeId} {rp : NodeId → List ChildKey}
  {pv : NodeId → List Index} {τ : Type}

/--
The key is found like by `match_prefix`, and every position of the tree sits at a node with
the metadata its node had before.
-/
def ReadonlyProbe (c : RadixCache) (time : Nat → τ) (key : RadixKey) : Prop :=
  (c.matchPrefixReadonly key).1.deviceIndices = (c.matchPrefix key).1.deviceIndices ∧
  (∀ p, PathTo (c.matchPrefixReadonly key).2.heap (c.matchPrefixReadonly key).1.lastDeviceNode p ↔
    PathTo (c.matchPrefix key).2.heap (c.matchPrefix key).1.lastDeviceNode p) ∧
  ∀ q n, HeldBy c.heap q n → (∃ n', HeldBy (c.matchPrefixReadonly key).2.heap q n') ∧
    ∀ n', HeldBy (c.matchPrefixReadonly key).2.heap q n' →
      ((c.matchPrefixReadonly key).2.node n').metadata time = (c.node n).metadata time

/-- `q` is the longest prefix of the key that is cached. -/
def LongestCached (c : RadixCache) (key : RadixKey) (q : List ChildKey) : Prop :=
  q <+: c.matchSymbols key ∧ ∀ p, p <+: c.matchSymbols key → (c.Holds p ↔ p <+: q)

/-- The longest cached prefix of the key ends at `n`, or inside its segment. -/
def EndsAt (c : RadixCache) (key : RadixKey) (n : NodeId) : Prop :=
  ∃ q, c.LongestCached key q ∧ HeldBy c.heap q n

/-- The longest cached prefix of the key ends inside the segment of `n`, and not with it. -/
def EndsInside (c : RadixCache) (key : RadixKey) (n : NodeId) : Prop :=
  ∃ q, c.LongestCached key q ∧ HeldBy c.heap q n ∧ ¬ PathTo c.heap n q

/-! ### Where the longest cached prefix ends -/

theorem LongestCached.unique {key : RadixKey} {q q' : List ChildKey}
    (h : c.LongestCached key q) (h' : c.LongestCached key q') : q = q' := by
  have hle := (h'.2 q h.1).mp ((h.2 q h.1).mpr (List.prefix_refl q))
  have hge := (h.2 q' h'.1).mp ((h'.2 q' h'.1).mpr (List.prefix_refl q'))
  exact hle.eq_of_length_le hge.length_le

/-- A walk along the key rests at the end of its longest cached prefix. -/
theorem longestCached_of_stopped (h : WF c live rp pv) {key : RadixKey} {e : NodeId} {o k : Nat}
    (hs : Stopped c.heap live rp (c.matchSymbols key) e o k) :
    c.LongestCached key ((c.matchSymbols key).take k) := by
  refine ⟨List.take_prefix _ _, fun p hp => ?_⟩
  rw [List.prefix_take_iff, and_iff_right hp, ← h.labelled.held_take_iff hs hp.length_le,
    ← List.prefix_iff_eq_take.mp hp]
  exact h.holds_iff

/-- A walk that rests inside an edge is a match that ends inside a segment. -/
theorem endsInside_iff (h : WF c live rp pv) {key : RadixKey} {e n : NodeId} {o k : Nat}
    (hs : Stopped c.heap live rp (c.matchSymbols key) e o k) :
    c.EndsInside key n ↔ n = e ∧ o < (c.heap.edge e).length := by
  have hlongest := longestCached_of_stopped h hs
  constructor
  · intro hin
    obtain ⟨q, hq, hheld, hpath⟩ := hin
    obtain rfl := hq.unique hlongest
    by_cases hlt : o < (c.heap.edge e).length
    · exact ⟨h.labelled.heldBy_unique hheld (h.labelled.heldBy_of_stopped hs hlt).2.1, hlt⟩
    · -- the walk rests at the end of `e`, so that is the node its end belongs to
      have hend := h.labelled.path_of_stopped hs hlt
      have he := (h.labelled.stopped_path hs).1
      have her : e ≠ rootNode := by
        rintro rfl
        obtain ⟨-, -, hlen, -⟩ := h.labelled.heldBy_iff.mp hheld
        have hroot : rp rootNode = [] := h.labelled.rootPath
        rw [← hend, hroot] at hlen
        exact absurd hlen (Nat.not_lt_zero _)
      have hne : n = e := h.labelled.heldBy_unique hheld (hend ▸ h.labelled.heldBy_path he her)
      exact absurd (h.labelled.pathTo_iff.mpr ⟨hne ▸ he, hne ▸ hend⟩) hpath
  · intro hin
    obtain ⟨rfl, hlt⟩ := hin
    obtain ⟨-, hheld, hne⟩ := h.labelled.heldBy_of_stopped hs hlt
    exact ⟨_, hlongest, hheld, fun hpath => hne (h.labelled.pathTo_iff.mp hpath).2⟩

/-! ### The two calls find the same -/

/-- Touching nodes on the way makes no difference to what is found. -/
theorem matchLoop_found_eq (t t' : Nat) : ∀ (fuel : Nat) (c c1 : RadixCache) (n : NodeId)
    (key : RadixKey) (value : List Index), WF c live rp pv → n ∈ live → SameTree c c1 →
      (matchLoop false t fuel c n key value).2 = (matchLoop true t' fuel c1 n key value).2 := by
  intro fuel
  induction fuel with
  | zero => intro c c1 n key value _ _ _; rfl
  | succ fuel ih =>
      intro c c1 n key value h hn hs
      unfold matchLoop
      by_cases hpos : key.length > 0
      · rw [if_pos hpos, if_pos hpos, hs.children, hs.pageSize]
        cases hkid : (c.node n).children.lookup (getChildKey key c.pageSize) with
        | none => rfl
        | some ch =>
            have hch := h.labelled.kidLive hn hkid
            have hr := h.labelled.kid_ne_root hn hkid
            have hs1 := hs.trans (sameTree_nodeMut c1 ch (bookkeeping_accessTime t'))
            simp only [if_true, Bool.false_eq_true, if_false]
            set c2 := c1.nodeMut ch fun m => { m with lastAccessTime := t' } with hc2
            rw [show keyMatch c2.pageSize (c2.node ch).key key =
              keyMatch c.pageSize (c.node ch).key key by rw [hs1.pageSize, hs1.key], hs1.key]
            set len := keyMatch c.pageSize (c.node ch).key key with hlen
            by_cases hcut : len < (c.node ch).key.length
            · rw [if_pos hcut, if_pos hcut]
              have hsplit := splitNode_isSplit h hch hr len
              have hsplit1 := splitNode_isSplit (h.sameTree hs1) hch hr len
              have hid : (c2.splitNode ch len).2 = (c.splitNode ch len).2 := hs1.size
              have hvalue := proj_nodeMut (·.value) (c2.splitNode ch len).1
                (c2.splitNode ch len).2 (fun m => { m with hitCount := m.hitCount + 1 })
                (fun _ => rfl) (c2.splitNode ch len).2
              simp only at hvalue ⊢
              rw [hvalue, hsplit.newValue, hsplit1.newValue, hs1.value, hid]
            · rw [if_neg hcut, if_neg hcut]
              have hs2 := hs1.trans (sameTree_nodeMut c2 ch bookkeeping_hitCount)
              rw [hs2.value]
              exact ih _ _ _ _ _ h hch hs2
      · rw [if_neg hpos, if_neg hpos]

/-! ### What a read-only match does -/

/-- The cache with a node that ends where a walk rests. -/
def cutAt (c : RadixCache) (n : NodeId) (o : Nat) : RadixCache :=
  if o < (c.heap.edge n).length then (c.splitNode n (c.pageSize * o)).1 else c

theorem cutAt_end (c : RadixCache) (n : NodeId) : c.cutAt n (c.heap.edge n).length = c :=
  if_neg (Nat.lt_irrefl _)

/-- **A read-only walk cuts at most the edge it rests in.** -/
theorem matchLoop_cutAt (t : Nat) (S : List ChildKey) (h : WF c live rp pv) : ∀ (fuel : Nat)
    (n : NodeId) (key : RadixKey) (value : List Index) (k : Nat), WalkAt c live rp S k n key →
      S.length ≤ k + fuel → ∃ e o k', Stopped c.heap live rp S e o k' ∧
        (matchLoop false t fuel c n key value).1 = c.cutAt e o := by
  have hps := h.pageSize_pos
  intro fuel
  induction fuel with
  | zero =>
      intro n key value k hw hlen
      exact ⟨n, _, k, hw.stopped (hw.over_whole hlen), (c.cutAt_end n).symm⟩
  | succ fuel ih =>
      intro n key value k hw hlen
      unfold matchLoop
      by_cases hpos : key.length > 0
      · rw [if_pos hpos]
        cases hkid : (c.node n).children.lookup (getChildKey key c.pageSize) with
        | none => exact ⟨n, _, k, hw.stopped (hw.over_none hps hpos hkid), (c.cutAt_end n).symm⟩
        | some ch =>
            have hkid : c.heap.kid n (getChildKey key c.pageSize) = some ch := hkid
            simp only [Bool.false_eq_true, if_false]
            rw [hw.keyMatch_eq h hkid (SameTree.refl c)]
            obtain ⟨hlpos, -⟩ := hw.advance h hpos hkid
            by_cases hcut : c.pageSize * lcpLen (c.heap.edge ch) (S.drop k) < (c.node ch).key.length
            · rw [if_pos hcut]
              obtain ⟨hlt, hstop⟩ := hw.stopped_cut hps hpos hkid hcut
              exact ⟨ch, _, _, hstop, (if_pos hlt).symm⟩
            · rw [if_neg hcut]
              exact ih ch _ _ _ (hw.next h hpos hkid hcut) (by omega)
      · rw [if_neg hpos]
        exact ⟨n, _, k, hw.stopped (hw.over_end hps hpos), (c.cutAt_end n).symm⟩

/-- A walk along nothing rests at the root. -/
theorem stopped_nil (h : WF c live rp pv) :
    Stopped c.heap live rp [] rootNode (c.heap.edge rootNode).length 0 :=
  Stopped.atNode h.labelled.rootLive (Nat.le_refl _) h.labelled.rootPath fun a ha => by simp at ha

theorem matchPrefixReadonly_cutAt (h : WF c live rp pv) (key : RadixKey) :
    ∃ e o k, Stopped c.heap live rp (c.matchSymbols key) e o k ∧
      (c.matchPrefixReadonly key).2 = c.cutAt e o := by
  have hps := h.pageSize_pos
  unfold matchPrefixReadonly
  by_cases hnil : c.matchSymbols key = []
  · rw [matchPrefixWith_of_nil hps false hnil, hnil]
    exact ⟨rootNode, _, 0, stopped_nil h, (c.cutAt_end rootNode).symm⟩
  · rw [matchPrefixWith_of_ne_nil hps false hnil]
    obtain ⟨hwalk, hfuel⟩ := walkAt_root h hnil
    exact matchLoop_cutAt c.clock (c.matchSymbols key) h _ rootNode _ [] 0 hwalk hfuel

theorem matchPrefix_found_eq (h : WF c live rp pv) (key : RadixKey) :
    (c.matchPrefixReadonly key).1 = (c.matchPrefix key).1 := by
  have hps := h.pageSize_pos
  unfold matchPrefixReadonly matchPrefix
  by_cases hnil : c.matchSymbols key = []
  · rw [matchPrefixWith_of_nil hps false hnil, matchPrefixWith_of_nil hps true hnil]
  · rw [matchPrefixWith_of_ne_nil hps false hnil, matchPrefixWith_of_ne_nil hps true hnil]
    have hfound := matchLoop_found_eq c.clock c.clock (c.pageAlign key).length c _ rootNode
      (c.pageAlign key) [] h h.labelled.rootLive (sameTree_touchRoot true c).1
    exact congrArg (fun found => MatchResult.mk found.1 found.2) hfound

/-- The path the two calls end at is the same, too. -/
theorem matchPrefix_path_iff (h : WF c live rp pv) (key : RadixKey) {p : List ChildKey} :
    PathTo (c.matchPrefixReadonly key).2.heap (c.matchPrefixReadonly key).1.lastDeviceNode p ↔
      PathTo (c.matchPrefix key).2.heap (c.matchPrefix key).1.lastDeviceNode p := by
  have hpath : ∀ updateLru, ∃ k ≤ (c.matchSymbols key).length,
      (∀ p, PathTo (c.matchPrefixWith updateLru key).2.heap
      (c.matchPrefixWith updateLru key).1.lastDeviceNode p ↔ (c.matchSymbols key).take k = p) ∧
      ∀ j ≤ (c.matchSymbols key).length, Held live rp ((c.matchSymbols key).take j) ↔ j ≤ k := by
    intro updateLru
    obtain ⟨live', rp', pv', k, hgrow, hm⟩ := matchPrefixWith_matches h updateLru key
    refine ⟨k, hm.le, fun p => ?_, fun j hj => (hgrow.held _).symm.trans (hm.held j hj)⟩
    rw [hgrow.wf.labelled.pathTo_iff, hm.found.path]
    exact and_iff_right hm.found.live
  obtain ⟨k, hk, hiff, hheld⟩ := hpath false
  obtain ⟨k', hk', hiff', hheld'⟩ := hpath true
  have heq : k = k' := by
    refine Nat.le_antisymm ?_ ?_
    · exact (hheld' k hk).mp ((hheld k hk).mpr (Nat.le_refl k))
    · exact (hheld k' hk').mp ((hheld' k' hk').mpr (Nat.le_refl k'))
  exact (hiff p).trans (heq ▸ (hiff' p).symm)

/-! ### What a cut does to the metadata -/

/-- The new node of a split carries over all but the access time and the hit count. -/
theorem splitNode_metadata (time : Nat → τ) (c : RadixCache) (ch : NodeId) (len : Nat) :
    ((c.splitNode ch len).1.node c.nodes.size).metadata time =
      { (c.node ch).metadata time with lastAccessTime := time c.clock, hitCount := 0 } ∧
    ∀ n < c.nodes.size,
      ((c.splitNode ch len).1.node n).metadata time = (c.node n).metadata time :=
  proj_splitNode (TreeNode.metadata time) (fun _ _ _ _ => rfl) (fun _ _ => rfl) c ch len

/-- A cut in the upper half's metadata shows unless it is what the new node starts with. -/
theorem metadata_cut_eq_iff (time : Nat → τ) {n : TreeNode} {t : Nat} :
    ({ n.metadata time with lastAccessTime := time t, hitCount := 0 } : NodeMetadata τ) =
      n.metadata time ↔ time t = time n.lastAccessTime ∧ n.hitCount = 0 := by
  rw [NodeMetadata.mk.injEq]
  constructor
  · intro heq
    exact ⟨heq.1, heq.2.1.symm⟩
  · intro heq
    exact ⟨heq.1, heq.2.symm, rfl, rfl, rfl⟩

/-- **Where positions sit after a cut inside the segment of `ch`.** -/
theorem heldBy_splitNode (h : WF c live rp pv) {ch : NodeId} (hch : ch ∈ live)
    (hr : ch ≠ rootNode) {l : Nat} (hl : 0 < l) (hlt : l < (c.heap.edge ch).length) :
    (∀ q n n', HeldBy c.heap q n →
      HeldBy (c.splitNode ch (c.pageSize * l)).1.heap q n' → n' = n ∨ n' = c.nodes.size ∧ n = ch) ∧
    (∀ q n, HeldBy c.heap q n → ∃ n', HeldBy (c.splitNode ch (c.pageSize * l)).1.heap q n') ∧
    ∃ q, HeldBy c.heap q ch ∧ HeldBy (c.splitNode ch (c.pageSize * l)).1.heap q c.nodes.size := by
  have hs := splitNode_isSplit h hch hr (c.pageSize * l)
  have hgrow := hs.splitOnly h hch hr hl hlt
  have hu : (c.splitNode ch (c.pageSize * l)).2 = c.nodes.size := rfl
  have hp : (c.node ch).parent ∈ live := h.labelled.parent_live hch hr
  have hlab := hgrow.wf.labelled
  set c' := (c.splitNode ch (c.pageSize * l)).1 with hc'
  rw [hu] at hs hgrow hlab
  set p := rp (c.node ch).parent with hpdef
  set edge := (c.node ch).key.symbols c.pageSize with hedge
  have hpath : rp ch = p ++ edge := h.labelled.path_eq hch hr
  have hupper : p ++ edge.take l <+: rp ch := by
    rw [hpath]
    exact (List.prefix_append_right_inj p).mpr (List.take_prefix _ _)
  have hlt : l < edge.length := hlt
  have hlen : p.length < (p ++ edge.take l).length := by
    rw [List.length_append, List.length_take, Nat.min_eq_left (Nat.le_of_lt hlt)]
    omega
  refine ⟨fun q n n' hq hq' => ?_, fun q n hq => ?_, p ++ edge.take l, ?_, ?_⟩
  · refine h.labelled.heldBy_cut hlab hch hr hs.fresh rfl (fun n => Iff.rfl) hgrow.path ?_
      (fun n hn hnc => (hs.old_fields hn hnc).2.2.1) ?_ hs.newParent hq hq'
    · simp only [if_true]
      exact hupper
    · rw [heap_parent, hs.nodeAt]
  · obtain ⟨hn, -, hlen, hpre⟩ := h.labelled.heldBy_iff.mp hq
    exact hlab.exists_heldBy (List.ne_nil_of_length_pos (Nat.zero_lt_of_lt hlen))
      ((hgrow.held q).mpr ⟨n, hn, hpre⟩)
  · exact h.labelled.heldBy_iff.mpr ⟨hch, hr, hlen, hupper⟩
  · have hne : c.nodes.size ≠ rootNode := fun heq => hs.fresh (heq ▸ h.labelled.rootLive)
    refine hlab.heldBy_iff.mpr ⟨Or.inl rfl, hne, ?_, ?_⟩
    · rw [heap_parent, hs.newParent, hgrow.path _ hp]
      exact hlen
    · simp only [if_true]
      exact List.prefix_refl _

/-! ### When the call is a read-only probe -/

theorem WF.readonlyProbe_iff (h : WF c live rp pv) (time : Nat → τ) (key : RadixKey) :
    c.ReadonlyProbe time key ↔ ∀ n, c.EndsInside key n →
      time c.clock = time (c.node n).lastAccessTime ∧ (c.node n).hitCount = 0 := by
  obtain ⟨e, o, k, hstop, hcache⟩ := matchPrefixReadonly_cutAt h key
  have hsame := congrArg MatchResult.deviceIndices (matchPrefix_found_eq h key)
  unfold ReadonlyProbe
  rw [and_iff_right hsame, and_iff_right fun p => matchPrefix_path_iff h key, hcache]
  simp only [endsInside_iff h hstop]
  unfold cutAt
  by_cases hlt : o < (c.heap.edge e).length
  · -- the segment of `e` is cut
    rw [if_pos hlt]
    obtain ⟨hpos, hq, -⟩ := h.labelled.heldBy_of_stopped hstop hlt
    obtain ⟨he, her, -⟩ := h.labelled.heldBy_iff.mp hq
    obtain ⟨hmoved, hkept, q0, hq0, hq0'⟩ := heldBy_splitNode h he her hpos hlt
    obtain ⟨hnew, hold⟩ := splitNode_metadata time c e (c.pageSize * o)
    constructor
    · rintro hprobe n ⟨rfl, -⟩
      have heq := (hprobe q0 n hq0).2 _ hq0'
      rw [hnew] at heq
      exact (metadata_cut_eq_iff time).mp heq
    · intro hcond q n hq
      refine ⟨hkept q n hq, fun n' hq' => ?_⟩
      rcases hmoved q n n' hq hq' with rfl | ⟨rfl, rfl⟩
      · exact hold n' (h.bound n' (h.labelled.heldBy_iff.mp hq).1)
      · rw [hnew]
        exact (metadata_cut_eq_iff time).mpr (hcond n ⟨rfl, hlt⟩)
  · rw [if_neg hlt]
    refine iff_of_true (fun q n hq => ⟨⟨n, hq⟩, fun n' hq' => ?_⟩) fun n hn => absurd hn.2 hlt
    rw [h.labelled.heldBy_unique hq' hq]

end RadixCache

namespace HeldCache

open RadixCache

variable {s : HeldCache} {τ : Type}

/--
**When `match_prefix_readonly` is a read-only probe.**  After any run of calls it returns what
`match_prefix` would and leaves every position its metadata, just when the longest cached
prefix of the key does not end inside a segment that has been hit, or was accessed at another
time than the one the clock shows.
-/
theorem readonly_probe_iff {pageSize : Nat} (hps : 0 < pageSize) {disable : Bool}
    (hrun : Relation.ReflTransGen Step (new pageSize disable) s) (time : Nat → τ)
    (key : RadixKey) : s.cache.ReadonlyProbe time key ↔ ∀ n, s.cache.EndsInside key n →
      time s.cache.clock = time (s.cache.node n).lastAccessTime ∧
        (s.cache.node n).hitCount = 0 := by
  obtain ⟨live, rp, pv, h, -⟩ := run_inv hps hrun
  exact h.readonlyProbe_iff time key

theorem edge_of_pageSize_one {c : RadixCache} (h1 : c.pageSize = 1) (n : NodeId) :
    c.heap.edge n =
      (c.node n).key.tokenIds.map fun t => ⟨(c.node n).key.extraKey, .token t⟩ := by
  rw [heap_edge, h1, RadixKey.symbols_one]

/-- A cache that has seen one prompt, and matched it once. -/
def onePrompt : HeldCache :=
  { cache := ((createSimulated.insert (plainPrompt [1, 2])).2.matchPrefix ⟨[1, 2], none⟩).2
    locks := [] }

theorem onePrompt_run : Relation.ReflTransGen Step (new 1 false) onePrompt :=
  (Relation.ReflTransGen.refl.tail (Step.insert (new 1 false) (plainPrompt [1, 2]))).tail
    (Step.matchPrefix ⟨(createSimulated.insert (plainPrompt [1, 2])).2, []⟩ ⟨[1, 2], none⟩)

/-- The whole prompt ends where its node does, so looking for it is a read-only probe. -/
theorem readonly_probe_whole : onePrompt.cache.ReadonlyProbe id ⟨[1, 2], none⟩ := by
  refine (readonly_probe_iff Nat.one_pos onePrompt_run id ⟨[1, 2], none⟩).mpr fun n hn => ?_
  obtain ⟨live, rp, pv, h, -⟩ := run_inv Nat.one_pos onePrompt_run
  set S := onePrompt.cache.matchSymbols ⟨[1, 2], none⟩ with hS
  have hkid : onePrompt.cache.heap.kid rootNode ⟨none, .token 1⟩ = some 1 := by decide
  have hpath : PathTo onePrompt.cache.heap 1 S := PathTo.kid PathTo.root hkid
  obtain ⟨hlive, hrp⟩ := h.labelled.pathTo_iff.mp hpath
  have hheld : HeldBy onePrompt.cache.heap S 1 :=
    hrp ▸ h.labelled.heldBy_path hlive (by decide)
  obtain ⟨q, hq, hqn, hne⟩ := hn
  have hwhole : S <+: q :=
    (hq.2 S (List.prefix_refl S)).mp (h.holds_iff.mpr ⟨1, hlive, by rw [hrp]⟩)
  obtain rfl := hwhole.eq_of_length_le hq.1.length_le
  rw [h.labelled.heldBy_unique hqn hheld] at hne
  exact absurd hpath hne

/-- A look for its first token alone is none: the token's node is new, and was never hit. -/
theorem not_readonly_probe : Relation.ReflTransGen Step (new 1 false) onePrompt ∧
    ¬ onePrompt.cache.ReadonlyProbe id ⟨[1], none⟩ := by
  refine ⟨onePrompt_run, fun hprobe => ?_⟩
  have hq : HeldBy onePrompt.cache.heap [⟨none, .token 1⟩] 1 := by
    refine ⟨rootNode, [], ⟨none, .token 1⟩, PathTo.root, by decide, by decide, ?_⟩
    rw [edge_of_pageSize_one (by decide)]
    decide
  have hq' : HeldBy (onePrompt.cache.matchPrefixReadonly ⟨[1], none⟩).2.heap
      [⟨none, .token 1⟩] 2 := by
    refine ⟨rootNode, [], ⟨none, .token 1⟩, PathTo.root, by decide, by decide, ?_⟩
    rw [edge_of_pageSize_one (by decide)]
    decide
  exact absurd ((hprobe.2.2 _ 1 hq).2 2 hq') (by decide)

end HeldCache

end Peek
