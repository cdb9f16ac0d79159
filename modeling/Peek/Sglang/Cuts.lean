/-
What a walk down the tree does to the objects.

Matching, and the walk of an insertion, cut nodes and write down that they came by, and do nothing
else (`Cuts`).  An insertion then hangs one leaf at most (`insert_cases`).  `Moves` allows for
every call at once; here it is told apart which call can do what, as is needed for whatever a new
leaf or a deletion changes.
-/
import Peek.Sglang.QueueAware

namespace Peek

open Radix

theorem RadixKey.drop_drop (key : RadixKey) (a b : Nat) :
    (key.drop a).drop b = key.drop (a + b) := by
  unfold RadixKey.drop
  rw [List.drop_drop]

theorem RadixKey.length_drop (key : RadixKey) (n : Nat) : (key.drop n).length = key.length - n :=
  List.length_drop

theorem RadixKey.length_take (key : RadixKey) (n : Nat) :
    (key.take n).length = min n key.length := List.length_take

theorem RadixKey.length_take_add_drop (key : RadixKey) (n : Nat) :
    (key.take n).length + (key.drop n).length = key.length := by
  unfold RadixKey.length RadixKey.take RadixKey.drop
  rw [← List.length_append, List.take_append_drop]

/-- The symbols of a key of whole pages. -/
theorem RadixKey.mul_length_symbols {ps : Nat} (hps : 0 < ps) {key : RadixKey}
    (hdvd : ps ∣ key.length) : ps * (key.symbols ps).length = key.length := by
  obtain ⟨n, hn⟩ := hdvd
  have hcount : ∀ a ∈ key.symbols ps, a.tokenCount = ps := fun a ha =>
    RadixKey.tokenCount_of_mem_symbols hps hn ha
  have hsum := RadixKey.sum_tokenCount_symbols hps key
  rw [List.map_congr_left hcount, List.map_const', List.sum_replicate_nat] at hsum
  rw [Nat.mul_comm]
  exact hsum

namespace RadixCache

variable {c c' : RadixCache} {live live' : Set NodeId} {rp rp' : NodeId → List ChildKey}
  {pv pv' : NodeId → List Index}

/-- One of the things a walk down the tree does: it cuts a node, or writes down that it came by. -/
inductive Cut : RadixCache → RadixCache → Prop
  | tick (c : RadixCache) (k : Nat) : Cut c (c.tick k)
  | touch (c : RadixCache) (j : NodeId) {f : TreeNode → TreeNode} (hf : Bookkeeping f) :
      Cut c (c.nodeMut j f)
  | split {c : RadixCache} {live : Set NodeId} {rp : NodeId → List ChildKey}
      {pv : NodeId → List Index} (h : WF c live rp pv) {ch : NodeId} (hch : ch ∈ live)
      (hr : ch ≠ rootNode) {l : Nat} (hl : 0 < l)
      (hlt : l < ((c.node ch).key.symbols c.pageSize).length) :
      Cut c (c.splitNode ch (c.pageSize * l)).1

abbrev Cuts : RadixCache → RadixCache → Prop := Relation.ReflTransGen Cut

theorem Cut.splitOnly (hcut : Cut c c') (h : WF c live rp pv) :
    ∃ live' rp' pv', SplitOnly c c' live rp pv live' rp' pv' := by
  cases hcut with
  | tick k => exact ⟨live, rp, pv, (SplitOnly.refl h).sameTree (sameTree_tick c k) rfl⟩
  | touch j hf => exact ⟨live, rp, pv, (SplitOnly.refl h).sameTree (sameTree_nodeMut c j hf) rfl⟩
  | split h0 hch hr hl hlt =>
      rw [h0.live_eq h] at hch
      exact ⟨_, _, _, (splitNode_isSplit h hch hr _).splitOnly h hch hr hl hlt⟩

theorem Cuts.splitOnly (hcuts : Cuts c c') (h : WF c live rp pv) :
    ∃ live' rp' pv', SplitOnly c c' live rp pv live' rp' pv' := by
  induction hcuts with
  | refl => exact ⟨live, rp, pv, SplitOnly.refl h⟩
  | tail _ hcut ih =>
      obtain ⟨live1, rp1, pv1, hgrow⟩ := ih
      obtain ⟨live2, rp2, pv2, hgrow'⟩ := hcut.splitOnly hgrow.wf
      exact ⟨live2, rp2, pv2, hgrow.trans hgrow'⟩

/-- A key leaves the edge of the child under its first symbol at the end of some page. -/
theorem keyMatch_kid_mul (h : WF c live rp pv) {n ch : NodeId} {key : RadixKey} (hn : n ∈ live)
    (hpos : key.length > 0) (hkid : c.heap.kid n (getChildKey key c.pageSize) = some ch)
    (hcut : keyMatch c.pageSize (c.node ch).key key < (c.node ch).key.length) :
    ∃ l, 0 < l ∧ l < ((c.node ch).key.symbols c.pageSize).length ∧
      keyMatch c.pageSize (c.node ch).key key = c.pageSize * l := by
  have hps := h.pageSize_pos
  have hfirst : (key.symbols c.pageSize)[0]? = some (getChildKey key c.pageSize) := by
    rw [← List.head?_eq_getElem?]
    exact RadixKey.head_symbols hps (List.ne_nil_of_length_pos hpos)
  have hl := h.labelled.walk_pos hn hfirst hkid
  rw [List.drop_zero] at hl
  have hmatch := keyMatch_kid h hn hkid
  rw [hmatch] at hcut
  exact ⟨_, hl, (RadixKey.lt_length_symbols_iff hps).mpr hcut, hmatch⟩

/-- The child under a key's first symbol, which the key leaves inside its edge, can be cut there. -/
theorem cut_kid (h : WF c live rp pv) {n ch : NodeId} {key : RadixKey} (hn : n ∈ live)
    (hpos : key.length > 0) (hkid : c.heap.kid n (getChildKey key c.pageSize) = some ch)
    (hcut : keyMatch c.pageSize (c.node ch).key key < (c.node ch).key.length) :
    Cut c (c.splitNode ch (keyMatch c.pageSize (c.node ch).key key)).1 ∧ ∃ live' rp' pv',
      SplitOnly c (c.splitNode ch (keyMatch c.pageSize (c.node ch).key key)).1 live rp pv
        live' rp' pv' ∧
      (c.splitNode ch (keyMatch c.pageSize (c.node ch).key key)).2 ∈ live' := by
  have hch := h.labelled.kidLive hn hkid
  have hr := h.labelled.kid_ne_root hn hkid
  obtain ⟨l, hl, hlt, hmatch⟩ := keyMatch_kid_mul h hn hpos hkid hcut
  rw [hmatch]
  exact ⟨Cut.split h hch hr hl hlt, _, _, _,
    (splitNode_isSplit h hch hr _).splitOnly h hch hr hl hlt, Or.inl rfl⟩

theorem touch_ite_cuts (b : Bool) (c : RadixCache) (j : NodeId) {f : TreeNode → TreeNode}
    (hf : Bookkeeping f) : Cuts c (if b then c.nodeMut j f else c) := by
  cases b with
  | true => exact .single (Cut.touch c j hf)
  | false => exact .refl

/-- **A match does nothing but cut.** -/
theorem matchLoop_cuts (updateLru : Bool) (t : Nat) :
    ∀ (fuel : Nat) (c : RadixCache) (live : Set NodeId) (rp : NodeId → List ChildKey)
      (pv : NodeId → List Index) (n : NodeId) (key : RadixKey) (value : List Index),
      WF c live rp pv → n ∈ live → Cuts c (matchLoop updateLru t fuel c n key value).1 := by
  intro fuel
  induction fuel with
  | zero => intro c live rp pv n key value _ _; exact .refl
  | succ fuel ih =>
      intro c live rp pv n key value h hn
      unfold matchLoop
      by_cases hpos : key.length > 0
      · rw [if_pos hpos]
        cases hkid : (c.node n).children.lookup (getChildKey key c.pageSize) with
        | none => exact .refl
        | some ch =>
            have htouch := touch_ite_cuts updateLru c ch (bookkeeping_accessTime t)
            have hsame := sameTree_ite updateLru c ch (bookkeeping_accessTime t)
            simp only
            set c1 := if updateLru = true then
              c.nodeMut ch fun m => { m with lastAccessTime := t } else c with hc1
            have h1 := h.sameTree hsame
            have hkid1 : c1.heap.kid n (getChildKey key c1.pageSize) = some ch := by
              rw [hsame.heap_eq, hsame.pageSize]; exact hkid
            by_cases hcut : keyMatch c1.pageSize (c1.node ch).key key < (c1.node ch).key.length
            · rw [if_pos hcut]
              have hsplit := (cut_kid h1 hn hpos hkid1 hcut).1
              exact (htouch.tail hsplit).trans (touch_ite_cuts updateLru _ _ bookkeeping_hitCount)
            · rw [if_neg hcut]
              have hhit := touch_ite_cuts updateLru c1 ch bookkeeping_hitCount
              have hsame2 := sameTree_ite updateLru c1 ch bookkeeping_hitCount
              exact (htouch.trans hhit).trans (ih _ live rp pv ch _ _ (h1.sameTree hsame2)
                (h1.labelled.kidLive hn hkid1))
      · rw [if_neg hpos]

theorem matchPrefixWith_cuts (h : WF c live rp pv) (updateLru : Bool) (key : RadixKey) :
    Cuts c (c.matchPrefixWith updateLru key).2 := by
  rw [matchPrefixWith_eq]
  split
  · exact .refl
  · have hstart : Cuts c (c.touchRoot updateLru) := by
      cases updateLru with
      | true =>
          exact (Relation.ReflTransGen.single (Cut.tick c 1)).tail
            (Cut.touch (c.tick 1) rootNode (bookkeeping_accessTime c.clock))
      | false => exact .refl
    have hwf := h.sameTree (sameTree_touchRoot updateLru c).1
    exact hstart.trans (matchLoop_cuts updateLru c.clock (c.pageAlign key).length _ live rp pv
      rootNode (c.pageAlign key) [] hwf h.labelled.rootLive)

/-- **So does the walk of an insertion.** -/
theorem insertLoop_cuts (priority : Int) (t : Nat) :
    ∀ (fuel : Nat) (c : RadixCache) (live : Set NodeId) (rp : NodeId → List ChildKey)
      (pv : NodeId → List Index) (w : InsertWalk), WF c live rp pv → w.node ∈ live →
      Cuts c (insertLoop priority t fuel c w).1 := by
  intro fuel
  induction fuel with
  | zero => intro c live rp pv w _ _; exact .refl
  | succ fuel ih =>
      intro c live rp pv w h hw
      unfold insertLoop
      by_cases hpos : w.key.length > 0
      · rw [if_pos hpos]
        cases hkid : (c.node w.node).children.lookup (getChildKey w.key c.pageSize) with
        | none => exact .refl
        | some ch =>
            have hsame := sameTree_nodeMut c ch (bookkeeping_accessTime t)
            have htouch : Cuts c _ := .single (Cut.touch c ch (bookkeeping_accessTime t))
            simp only
            set c1 := c.nodeMut ch fun m => { m with lastAccessTime := t } with hc1
            have h1 := h.sameTree hsame
            have hkid1 : c1.heap.kid w.node (getChildKey w.key c1.pageSize) = some ch := by
              rw [hsame.heap_eq, hsame.pageSize]; exact hkid
            by_cases hcut : keyMatch c1.pageSize (c1.node ch).key w.key < (c1.node ch).key.length
            · rw [if_pos hcut]
              obtain ⟨hsplit, live', rp', pv', hgrow, hu⟩ := cut_kid h1 hw hpos hkid1 hcut
              have hsame2 := sameTree_nodeMut
                (c1.splitNode ch (keyMatch c1.pageSize (c1.node ch).key w.key)).1
                (c1.splitNode ch (keyMatch c1.pageSize (c1.node ch).key w.key)).2
                (bookkeeping_priority priority)
              have hcuts := htouch.tail hsplit
              exact (hcuts.tail (Cut.touch _ _ (bookkeeping_priority priority))).trans
                (ih _ live' rp' pv' _ (hgrow.wf.sameTree hsame2) hu)
            · rw [if_neg hcut]
              have hsame2 := sameTree_nodeMut c1 ch (bookkeeping_priority priority)
              exact (htouch.tail (Cut.touch c1 ch (bookkeeping_priority priority))).trans
                (ih _ live rp pv _ (h1.sameTree hsame2) (h1.labelled.kidLive hw hkid1))
      · rw [if_neg hpos]

/-! ### The whole insertion -/

/-- The walk drops as much of key and value as it counts. -/
theorem insertLoop_rest (priority : Int) (t : Nat) (key : RadixKey) (value : List Index) :
    ∀ (fuel : Nat) (c : RadixCache) (x : InsertWalk), x.key = key.drop x.totalPrefixLength →
      x.value = value.drop x.totalPrefixLength →
      (insertLoop priority t fuel c x).2.key =
        key.drop (insertLoop priority t fuel c x).2.totalPrefixLength ∧
      (insertLoop priority t fuel c x).2.value =
        value.drop (insertLoop priority t fuel c x).2.totalPrefixLength := by
  intro fuel
  induction fuel with
  | zero => intro c x hk hv; exact ⟨hk, hv⟩
  | succ fuel ih =>
      intro c x hk hv
      unfold insertLoop
      by_cases hpos : x.key.length > 0
      · rw [if_pos hpos]
        cases (c.node x.node).children.lookup (getChildKey x.key c.pageSize) with
        | none => exact ⟨hk, hv⟩
        | some ch =>
            simp only
            set c1 := c.nodeMut ch fun m => { m with lastAccessTime := t } with hc1
            set len := keyMatch c1.pageSize (c1.node ch).key x.key with hlen
            have hk' : x.key.drop len = key.drop (x.totalPrefixLength + len) := by
              rw [hk, RadixKey.drop_drop]
            have hv' : x.value.drop len = value.drop (x.totalPrefixLength + len) := by
              rw [hv, List.drop_drop]
            split
            · exact ih _ _ hk' hv'
            · exact ih _ _ hk' hv'
      · rw [if_neg hpos]
        exact ⟨hk, hv⟩

/-! ### Whole pages -/

/-- What two keys have in common is counted in whole pages, whatever their namespaces. -/
theorem keyMatch_pages {ps : Nat} (hps : 0 < ps) (key0 key1 : RadixKey) :
    keyMatch ps key0 key1 = ps * lcpLen (pages ps key0.tokenIds) (pages ps key1.tokenIds) := by
  have he : (⟨key0.tokenIds, none⟩ : RadixKey).extraKey =
      (⟨key1.tokenIds, none⟩ : RadixKey).extraKey := rfl
  have hmatch := keyMatch_eq hps he
  rw [RadixKey.lcpLen_symbols hps he] at hmatch
  exact hmatch

/-- A key of whole pages is not overrun. -/
theorem keyMatch_le {ps : Nat} (hps : 0 < ps) (key0 : RadixKey) {key1 : RadixKey}
    (hdvd : ps ∣ key1.length) : keyMatch ps key0 key1 ≤ key1.length := by
  have hmul := RadixKey.mul_length_symbols hps hdvd
  unfold RadixKey.symbols at hmul
  rw [List.length_map] at hmul
  rw [keyMatch_pages hps, ← hmul]
  exact Nat.mul_le_mul_left ps (lcpLen_le_right _ _)

/-- The walk of a key of whole pages counts what it drops. -/
theorem insertLoop_total {ps : Nat} (hps : 0 < ps) (priority : Int) (t total : Nat) :
    ∀ (fuel : Nat) (c : RadixCache) (x : InsertWalk), c.pageSize = ps → ps ∣ x.key.length →
      x.totalPrefixLength + x.key.length = total →
      (insertLoop priority t fuel c x).2.totalPrefixLength +
        (insertLoop priority t fuel c x).2.key.length = total := by
  intro fuel
  induction fuel with
  | zero => intro c x _ _ htotal; exact htotal
  | succ fuel ih =>
      intro c x hc hdvd htotal
      unfold insertLoop
      by_cases hpos : x.key.length > 0
      · rw [if_pos hpos]
        cases (c.node x.node).children.lookup (getChildKey x.key c.pageSize) with
        | none => exact htotal
        | some ch =>
            simp only
            set c1 := c.nodeMut ch fun m => { m with lastAccessTime := t } with hc1
            have hps1 : c1.pageSize = ps := hc
            rw [hps1]
            set len := keyMatch ps (c1.node ch).key x.key with hlen
            have hle : len ≤ x.key.length := keyMatch_le hps _ hdvd
            have hrest : ps ∣ (x.key.drop len).length := by
              rw [RadixKey.length_drop]
              refine Nat.dvd_sub hdvd ?_
              rw [hlen, keyMatch_pages hps]
              exact Nat.dvd_mul_right _ _
            have hsum : x.totalPrefixLength + len + (x.key.drop len).length = total := by
              rw [RadixKey.length_drop]
              omega
            split
            · exact ih _ _ hps1 hrest hsum
            · exact ih _ _ hps1 hrest hsum
      · rw [if_neg hpos]
        exact htotal

/-- What is left of a walk says how far it came. -/
theorem Walked.total_eq {key : RadixKey} {k : Nat} {x : InsertWalk} (hps : 0 < c.pageSize)
    (hw : Walked c live rp (key.symbols c.pageSize) k x) (hdvd : c.pageSize ∣ key.length)
    (htotal : x.totalPrefixLength + x.key.length = key.length) :
    x.totalPrefixLength = c.pageSize * k := by
  have hmul := RadixKey.mul_length_symbols hps hdvd
  have hle := Nat.mul_le_mul_left c.pageSize hw.le
  have hcount : ∀ a ∈ x.key.symbols c.pageSize, a.tokenCount = c.pageSize := by
    obtain ⟨n, hn⟩ := hdvd
    intro a ha
    rw [hw.rest] at ha
    exact RadixKey.tokenCount_of_mem_symbols hps hn (List.mem_of_mem_drop ha)
  have hrest := RadixKey.sum_tokenCount_symbols hps x.key
  rw [List.map_congr_left hcount, List.map_const', List.sum_replicate_nat, hw.rest,
    List.length_drop, Nat.sub_mul, Nat.mul_comm, Nat.mul_comm k] at hrest
  omega

/-- The indices an insertion works with: those given, or the tokens in their place. -/
def InsertParams.indices (params : InsertParams) : List Index :=
  params.value.getD params.key.tokenIds

theorem InsertParams.length_indices (params : InsertParams) :
    params.indices.length = params.key.length := by
  unfold indices
  cases hv : params.value with
  | none => rfl
  | some v => exact params.value_length v hv

/--
**An insertion cuts nodes and then hangs one leaf at most**, which takes the rest of the key
from where the tree has no more of it.
-/
theorem insert_cases (h : WF c live rp pv) (hd : c.disable = false) (params : InsertParams) :
    ∃ c1 x live1 rp1 pv1 k, Cuts c c1 ∧ SplitOnly c c1 live rp pv live1 rp1 pv1 ∧
      Walked c1 live1 rp1 (params.key.symbols c.pageSize) k x ∧
      x.key = params.key.drop x.totalPrefixLength ∧
      x.value = params.indices.drop x.totalPrefixLength ∧
      (∀ a, (params.key.symbols c.pageSize)[k]? = some a → c1.heap.kid x.node a = none) ∧
      (c.pageSize ∣ params.key.length → x.totalPrefixLength = c.pageSize * k) ∧
      (c.insert params).1 = x.totalPrefixLength ∧
      (c.insert params).2 = if x.key.length > 0 then c1.addLeaf x params.priority else c1 := by
  have hlen : params.indices.length = params.key.length := params.length_indices
  have hd' : ¬ c.disable = true := by rw [hd]; exact Bool.false_ne_true
  unfold insert
  rw [if_neg hd']
  unfold insertHelper
  set c1 := (c.tick 1).nodeMut rootNode fun n =>
    { n with lastAccessTime := c.clock, priority := max n.priority params.priority } with hc1
  have hbook := (bookkeeping_accessTime c.clock).comp (bookkeeping_priority params.priority)
  have hsame : SameTree c c1 :=
    (sameTree_tick c 1).trans (sameTree_nodeMut (c.tick 1) rootNode hbook)
  have hstart : Cuts c c1 :=
    (Relation.ReflTransGen.single (Cut.tick c 1)).tail (Cut.touch (c.tick 1) rootNode hbook)
  have h1 := h.sameTree hsame
  by_cases hempty : params.key.length = 0
  · have hS : params.key.symbols c.pageSize = [] :=
      (RadixKey.symbols_eq_nil_iff h.pageSize_pos).mpr (List.length_eq_zero_iff.mp hempty)
    refine ⟨c1, ⟨rootNode, params.key, params.indices, 0⟩, live, rp, pv, 0, hstart,
      (SplitOnly.refl h).sameTree hsame rfl, ?_, rfl, rfl, ?_, fun _ => rfl, ?_, ?_⟩
    · refine ⟨h.labelled.rootLive, Nat.zero_le _, h.labelled.rootPath, ?_, hlen⟩
      rw [hsame.pageSize, List.drop_zero]
    · rw [hS]
      intro a ha
      simp at ha
    · simp only [if_pos hempty]
    · simp only [if_pos hempty]
      rw [if_neg (by omega)]
  · obtain ⟨live1, rp1, pv1, k, hgrow, hwalk, hfree⟩ :=
      insertLoop_root_walked h1 params.key hlen params.priority c.clock
    have hcuts := insertLoop_cuts params.priority c.clock (params.key.length + 1) c1 live rp pv
      ⟨rootNode, params.key, params.indices, 0⟩ h1 h1.labelled.rootLive
    obtain ⟨hk, hv⟩ := insertLoop_rest params.priority c.clock params.key params.indices
      (params.key.length + 1) c1 ⟨rootNode, params.key, params.indices, 0⟩ rfl rfl
    have hgrow := ((SplitOnly.refl h).sameTree hsame rfl).trans hgrow
    rw [hsame.pageSize] at hwalk hfree
    refine ⟨_, _, live1, rp1, pv1, k, hstart.trans hcuts, hgrow, hwalk, hk, hv, hfree,
      fun hdvd => ?_, ?_, ?_⟩
    · have htotal := insertLoop_total h1.pageSize_pos params.priority c.clock params.key.length
        (params.key.length + 1) c1 ⟨rootNode, params.key, params.indices, 0⟩ rfl hdvd
        (Nat.zero_add _)
      rw [← hgrow.pageSize] at hwalk hdvd ⊢
      exact hwalk.total_eq hgrow.wf.pageSize_pos hdvd htotal
    · simp only [if_neg hempty]
      split <;> rfl
    · simp only [if_neg hempty]
      split
      · rename_i hpos
        exact (if_pos hpos).symm
      · rename_i hpos
        exact (if_neg hpos).symm

end RadixCache

end Peek
