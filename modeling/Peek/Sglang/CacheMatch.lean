/-
What matching does to the cache, and what it returns.

A match may split one node, and it writes access times and hit counts; the paths the
cache holds and the indices along them stay as they were.  `SplitOnly` is that, and it
composes, so a whole series of matches is again one `SplitOnly`.

The node returned sits at the longest cached prefix of the key, in whole pages, and the
indices returned are the ones cached along its path.
-/
import Peek.Sglang.CacheHeap

namespace Peek

open Radix

namespace RadixCache

variable {c c' : RadixCache} {live live' : Set NodeId} {rp rp' : NodeId → List ChildKey}
  {pv pv' : NodeId → List Index}

/-- Nodes may have been split; every old node is where it was, and the others are new. -/
structure SplitOnly (c c' : RadixCache) (live : Set NodeId) (rp : NodeId → List ChildKey)
    (pv : NodeId → List Index) (live' : Set NodeId) (rp' : NodeId → List ChildKey)
    (pv' : NodeId → List Index) : Prop extends Later c c' where
  wf : WF c' live' rp' pv'
  sub : live ⊆ live'
  path : ∀ n ∈ live, rp' n = rp n
  value : ∀ n ∈ live, pv' n = pv n
  held : ∀ q, Held live' rp' q ↔ Held live rp q
  fresh : ∀ n ∈ live', n < c.nodes.size → n ∈ live

theorem SplitOnly.refl (h : WF c live rp pv) : SplitOnly c c live rp pv live rp pv :=
  ⟨Later.refl c, h, fun _ hn => hn, fun _ _ => rfl, fun _ _ => rfl, fun _ => Iff.rfl,
    fun _ hn _ => hn⟩

theorem SplitOnly.trans {c1 c2 c3 : RadixCache} {l1 l2 l3 : Set NodeId}
    {r1 r2 r3 : NodeId → List ChildKey} {p1 p2 p3 : NodeId → List Index}
    (h : SplitOnly c1 c2 l1 r1 p1 l2 r2 p2) (h' : SplitOnly c2 c3 l2 r2 p2 l3 r3 p3) :
    SplitOnly c1 c3 l1 r1 p1 l3 r3 p3 where
  toLater := h.toLater.trans h'.toLater
  wf := h'.wf
  sub := h.sub.trans h'.sub
  path n hn := (h'.path n (h.sub hn)).trans (h.path n hn)
  value n hn := (h'.value n (h.sub hn)).trans (h.value n hn)
  held q := (h'.held q).trans (h.held q)
  fresh n hn hlt := h.fresh n (h'.fresh n hn (Nat.lt_of_lt_of_le hlt h.size)) hlt

theorem SplitOnly.sameTree (h : SplitOnly c c' live rp pv live' rp' pv') {c'' : RadixCache}
    (hs : SameTree c' c'') (hd : c''.disable = c'.disable) :
    SplitOnly c c'' live rp pv live' rp' pv' where
  toLater := h.toLater.trans ⟨hs.size.ge, hs.pageSize, hd⟩
  wf := h.wf.sameTree hs
  sub := h.sub
  path := h.path
  value := h.value
  held := h.held
  fresh := h.fresh

/-! ### Splitting a node -/

/-- What a split writes: the fresh upper half `u`, the cut node, the parent's child entry. -/
structure IsSplit (c c' : RadixCache) (live : Set NodeId) (ch u : NodeId) (len : Nat) : Prop where
  fresh : u ∉ live
  size : ∀ n, n ∈ live ∨ n = u → n < c'.nodes.size
  after : c.nodes.size ≤ u
  pageSize : c'.pageSize = c.pageSize
  disable : c'.disable = c.disable
  leaves : c'.evictableLeaves = c.evictableLeaves
  newKey : (c'.node u).key = (c.node ch).key.take len
  newValue : (c'.node u).value = (c.node ch).value.take len
  newParent : (c'.node u).parent = (c.node ch).parent
  newChildren : (c'.node u).children =
    AList.singleton (getChildKey ((c.node ch).key.drop len) c.pageSize) ch
  nodeAt : c'.node ch =
    { c.node ch with
      parent := u, key := (c.node ch).key.drop len, value := (c.node ch).value.drop len }
  nodeParent : c'.node (c.node ch).parent =
    { c.node (c.node ch).parent with
      children := (c.node (c.node ch).parent).children.insert
        (getChildKey (c.node ch).key c.pageSize) u }
  nodeOld : ∀ m ∈ live, m ≠ ch → m ≠ (c.node ch).parent → c'.node m = c.node m

/-- The node a split puts above `ch`. -/
def upperHalf (c : RadixCache) (ch : NodeId) (len : Nat) : TreeNode :=
  { TreeNode.new c.clock (c.node ch).priority with
    children := AList.singleton (getChildKey ((c.node ch).key.drop len) c.pageSize) ch
    parent := (c.node ch).parent
    lockRef := (c.node ch).lockRef
    queueRefCount := (c.node ch).queueRefCount
    key := (c.node ch).key.take len
    value := (c.node ch).value.take len
    depth := (c.node (c.node ch).parent).depth + len }

/-- What is left of `ch` below it. -/
def lowerHalf (c : RadixCache) (ch : NodeId) (len : Nat) (n : TreeNode) : TreeNode :=
  { n with
    parent := c.nodes.size
    key := (c.node ch).key.drop len
    value := (c.node ch).value.drop len }

/-- The old parent of `ch`, with the new node in its place. -/
def withUpper (c : RadixCache) (ch : NodeId) (n : TreeNode) : TreeNode :=
  { n with children := n.children.insert (getChildKey (c.node ch).key c.pageSize) c.nodes.size }

theorem splitNode_eq (c : RadixCache) (ch : NodeId) (len : Nat) : c.splitNode ch len =
    (((c.pushNode (c.upperHalf ch len)).nodeMut ch (c.lowerHalf ch len)).nodeMut
      (c.node ch).parent (c.withUpper ch), c.nodes.size) := rfl

/-- A split writes no field of an old node but the links, the key and the value. -/
theorem proj_splitNode {β : Type} (p : TreeNode → β)
    (hcut : ∀ n parent key value, p { n with parent := parent, key := key, value := value } = p n)
    (hentry : ∀ n children, p { n with children := children } = p n) (c : RadixCache)
    (ch : NodeId) (len : Nat) :
    p ((c.splitNode ch len).1.node c.nodes.size) = p (c.upperHalf ch len) ∧
    ∀ n < c.nodes.size, p ((c.splitNode ch len).1.node n) = p (c.node n) := by
  obtain ⟨hnew, hold⟩ := node_pushNode c (c.upperHalf ch len)
  have hproj : ∀ n, p ((c.splitNode ch len).1.node n) =
      p ((c.pushNode (c.upperHalf ch len)).node n) := fun n => by
    rw [splitNode_eq, proj_nodeMut p _ _ (c.withUpper ch) fun _ => hentry _ _,
      proj_nodeMut p _ _ (c.lowerHalf ch len) fun _ => hcut _ _ _ _]
  exact ⟨by rw [hproj, hnew], fun n hn => by rw [hproj, hold n hn]⟩

theorem splitNode_isSplit (h : WF c live rp pv) {ch : NodeId} (hch : ch ∈ live)
    (hr : ch ≠ rootNode) (len : Nat) :
    IsSplit c (c.splitNode ch len).1 live ch (c.splitNode ch len).2 len := by
  have hp : (c.node ch).parent ∈ live := h.labelled.parent_live hch hr
  have hpc : (c.node ch).parent ≠ ch := h.labelled.parent_ne_self hch hr
  have hlt := h.bound ch hch
  have hplt := h.bound _ hp
  have hsize := size_pushNode c (c.upperHalf ch len)
  obtain ⟨hnew, hold⟩ := node_pushNode c (c.upperHalf ch len)
  have hu : ∀ m ∈ live, m ≠ c.nodes.size := fun m hm => Nat.ne_of_lt (h.bound m hm)
  have hnode : ∀ {m : NodeId}, m ≠ ch → m ≠ (c.node ch).parent →
      (c.splitNode ch len).1.node m = (c.pushNode (c.upperHalf ch len)).node m := by
    intro m hmc hmp
    rw [splitNode_eq, node_nodeMut_ne _ _ hmp, node_nodeMut_ne _ _ hmc]
  have hupper : (c.splitNode ch len).1.node c.nodes.size = c.upperHalf ch len :=
    (hnode (Ne.symm (hu ch hch)) (Ne.symm (hu _ hp))).trans hnew
  refine ⟨fun hl => hu _ hl rfl, ?_, Nat.le_refl _, rfl, rfl, rfl, ?_, ?_, ?_, ?_, ?_, ?_, ?_⟩
  · intro n hn
    rw [splitNode_eq, size_nodeMut, size_nodeMut, hsize]
    rcases hn with hn | rfl
    · exact Nat.lt_succ_of_lt (h.bound n hn)
    · exact Nat.lt_succ_self _
  · exact congrArg (·.key) hupper
  · exact congrArg (·.value) hupper
  · exact congrArg (·.parent) hupper
  · exact congrArg (·.children) hupper
  · rw [splitNode_eq, node_nodeMut_ne _ _ (Ne.symm hpc),
      node_nodeMut_self _ _ (hsize ▸ Nat.lt_succ_of_lt hlt), hold _ hlt]
    rfl
  · rw [splitNode_eq,
      node_nodeMut_self _ _ (by rw [size_nodeMut]; exact hsize ▸ Nat.lt_succ_of_lt hplt),
      node_nodeMut_ne _ _ hpc, hold _ hplt]
    rfl
  · intro m hm hmc hmp
    rw [hnode hmc hmp, hold _ (h.bound m hm)]

namespace IsSplit

variable {ch u : NodeId} {l : Nat}

/-- The fields every old node but the cut one keeps. -/
theorem old_fields {len : Nat} (hs : IsSplit c c' live ch u len) {m : NodeId} (hm : m ∈ live)
    (hmc : m ≠ ch) :
    (c'.node m).key = (c.node m).key ∧ (c'.node m).value = (c.node m).value ∧
      (c'.node m).parent = (c.node m).parent ∧ (c'.node m).lockRef = (c.node m).lockRef := by
  by_cases hmp : m = (c.node ch).parent
  · rw [hmp, hs.nodeParent]; exact ⟨rfl, rfl, rfl, rfl⟩
  · rw [hs.nodeOld m hm hmc hmp]; exact ⟨rfl, rfl, rfl, rfl⟩

theorem labelled (hs : IsSplit c c' live ch u (c.pageSize * l)) (h : WF c live rp pv)
    (hch : ch ∈ live) (hr : ch ≠ rootNode) (hl : 0 < l)
    (hlt : l < ((c.node ch).key.symbols c.pageSize).length) :
    Labelled c'.heap (Insert.insert u live) fun m =>
      if m = u then rp (c.node ch).parent ++ ((c.node ch).key.symbols c.pageSize).take l
      else rp m := by
  have hps := h.pageSize_pos
  have hpc : (c.node ch).parent ≠ ch := h.labelled.parent_ne_self hch hr
  set edge := (c.node ch).key.symbols c.pageSize with hedge
  have hne : edge ≠ [] := List.ne_nil_of_length_pos (by omega)
  have hkey : (c.node ch).key.tokenIds ≠ [] := by
    rwa [hedge, Ne, RadixKey.symbols_eq_nil_iff hps] at hne
  have hlow : ((c.node ch).key.drop (c.pageSize * l)).symbols c.pageSize = edge.drop l :=
    RadixKey.symbols_drop hps _ _
  have hlowkey : ((c.node ch).key.drop (c.pageSize * l)).tokenIds ≠ [] := by
    rw [Ne, ← RadixKey.symbols_eq_nil_iff hps, hlow, List.drop_eq_nil_iff]
    omega
  have hlowhead : edge.drop l = getChildKey ((c.node ch).key.drop (c.pageSize * l)) c.pageSize ::
      edge.drop (l + 1) := by
    have hhead := RadixKey.head_symbols hps hlowkey
    rw [hlow, List.drop_eq_getElem_cons hlt, List.head?_cons, Option.some.injEq] at hhead
    rw [← hhead]
    exact List.drop_eq_getElem_cons hlt
  have hcut : c.heap.edge ch = edge.take l ++
      getChildKey ((c.node ch).key.drop (c.pageSize * l)) c.pageSize :: edge.drop (l + 1) := by
    rw [← hlowhead, List.take_append_drop]; rfl
  have hhead : (edge.take l).head? = some (getChildKey (c.node ch).key c.pageSize) := by
    have := RadixKey.head_symbols hps hkey
    rw [← hedge] at this
    cases hed : edge with
    | nil => exact absurd hed hne
    | cons x xs =>
        obtain ⟨j, rfl⟩ := Nat.exists_eq_succ_of_ne_zero (by omega : l ≠ 0)
        rw [hed] at this
        simpa using this
  refine h.labelled.splitUpper hch hr hs.fresh hhead hcut rfl ?_ ?_ ?_ ?_ ?_ ?_ ?_ ?_ ?_
  · rw [heap_edge, hs.nodeAt, hs.pageSize, hlow, hlowhead]
  · rw [heap_edge, hs.newKey, hs.pageSize, RadixKey.symbols_take hps]
  · intro m hm hmc
    rw [heap_edge, (hs.old_fields hm hmc).1, hs.pageSize]; rfl
  · intro x
    rw [heap_kid, hs.newChildren, ← AList.insert_empty, Map.lookup_insert_of, AList.lookup_empty]
  · intro x
    rw [heap_kid, heap_parent, hs.nodeParent, Map.lookup_insert_of]; rfl
  · intro m hm hmp x
    rw [heap_kid]
    by_cases hmc : m = ch
    · rw [hmc, hs.nodeAt]; rfl
    · rw [hs.nodeOld m hm hmc hmp]; rfl
  · rw [heap_parent, hs.newParent]; rfl
  · rw [heap_parent, hs.nodeAt]
  · intro m hm hmc
    rw [heap_parent, (hs.old_fields hm hmc).2.2.1]; rfl

/-- **A split moves no old node and adds no path.** -/
theorem splitOnly (hs : IsSplit c c' live ch u (c.pageSize * l)) (h : WF c live rp pv)
    (hch : ch ∈ live) (hr : ch ≠ rootNode) (hl : 0 < l)
    (hlt : l < ((c.node ch).key.symbols c.pageSize).length) :
    SplitOnly c c' live rp pv (Insert.insert u live)
      (fun m => if m = u then rp (c.node ch).parent ++ ((c.node ch).key.symbols c.pageSize).take l
        else rp m)
      (fun m => if m = u then pv (c.node ch).parent ++ (c.node ch).value.take (c.pageSize * l)
        else pv m) := by
  have hne : ∀ m ∈ live, m ≠ u := fun m hm heq => hs.fresh (heq ▸ hm)
  have hp : (c.node ch).parent ∈ live := h.labelled.parent_live hch hr
  have hpc : (c.node ch).parent ≠ ch := h.labelled.parent_ne_self hch hr
  have hroot : rootNode ∈ live := h.labelled.rootLive
  have hlab := hs.labelled h hch hr hl hlt
  have hval : pv ch = pv (c.node ch).parent ++ (c.node ch).value := by
    obtain ⟨a, -, -, hk⟩ := h.labelled.up hch hr
    exact h.kidValue hp hk
  have hsize := hs.after.trans (Nat.le_of_lt (hs.size _ (Or.inr rfl)))
  refine ⟨⟨hsize, hs.pageSize, hs.disable⟩,
    ⟨by rw [hs.pageSize]; exact h.pageSize_pos, hlab, ?_, ?_, ?_, ?_, ?_, ?_,
      by rw [hs.leaves]; exact h.leavesNodup⟩,
    fun n hn => Or.inr hn, fun n hn => if_neg (hne n hn), fun n hn => if_neg (hne n hn), ?_, ?_⟩
  · rintro n (rfl | hn)
    · exact hs.size _ (Or.inr rfl)
    · exact hs.size n (Or.inl hn)
  · rw [if_neg (hne _ hroot)]; exact h.rootValue
  · intro n a k hn hk
    have hkl := hlab.kidLive hn hk
    have hpar := hlab.kidParent hn hk
    rw [heap_parent] at hpar
    rcases hkl with rfl | hkl
    · -- the new node, below the cut node's old parent
      rw [hs.newParent] at hpar
      rw [if_pos rfl, ← hpar, if_neg (hne _ hp), hs.newValue]
    · rw [if_neg (hne k hkl)]
      by_cases hkc : k = ch
      · subst hkc
        rw [hs.nodeAt] at hpar ⊢
        rw [← hpar, if_pos rfl, hval, List.append_assoc, List.take_append_drop]
      · have hkr : k ≠ rootNode := hlab.kid_ne_root hn hk
        obtain ⟨b, -, hpl, hkid⟩ := h.labelled.up hkl hkr
        have hpar' : (c.node k).parent = n := by rw [← (hs.old_fields hkl hkc).2.2.1]; exact hpar
        rw [heap_parent, hpar'] at hkid hpl
        rw [if_neg (hne n hpl), (hs.old_fields hkl hkc).2.1]
        exact h.kidValue hpl hkid
  · rintro n (rfl | hn)
    · have hlen := h.valueLength ch hch
      rw [hs.newValue, hs.newKey]
      simp only [RadixKey.length, RadixKey.tokenIds_take, List.length_take] at hlen ⊢
      rw [hlen]
    · by_cases hnc : n = ch
      · subst hnc
        have hlen := h.valueLength n hn
        rw [hs.nodeAt]
        simp only [RadixKey.length, RadixKey.tokenIds_drop, List.length_drop] at hlen ⊢
        rw [hlen]
      · rw [(hs.old_fields hn hnc).2.1, (hs.old_fields hn hnc).1]; exact h.valueLength n hn
  · rw [(hs.old_fields hroot (Ne.symm hr)).2.2.2]; exact h.rootLock
  · intro n hn
    rw [hs.leaves] at hn
    obtain ⟨hnl, hnr, hkids⟩ := h.leaves n hn
    refine ⟨Or.inr hnl, hnr, ?_⟩
    by_cases hnc : n = ch
    · rw [hnc, hs.nodeAt, ← hnc]; exact hkids
    · rw [hs.nodeOld n hnl hnc, hkids]
      rintro rfl
      obtain ⟨a, -, -, hk⟩ := h.labelled.up hch hr
      rw [heap_kid, heap_parent, Map.entries_eq_nil_iff.mp hkids] at hk
      simp at hk
  · intro q
    constructor
    · rintro ⟨n, rfl | hn, hq⟩
      · simp only [if_pos] at hq
        refine ⟨ch, hch, hq.trans ?_⟩
        rw [h.labelled.path_eq hch hr]
        exact (List.prefix_append_right_inj _).mpr (List.take_prefix _ _)
      · simp only [if_neg (hne n hn)] at hq
        exact ⟨n, hn, hq⟩
    · rintro ⟨n, hn, hq⟩
      exact ⟨n, Or.inr hn, by simp only [if_neg (hne n hn)]; exact hq⟩
  · rintro n (rfl | hn) hlt
    · exact absurd hs.after (Nat.not_le_of_lt hlt)
    · exact hn

end IsSplit

/-! ### The match loop -/

/-- What a walk found: a live node at the end of the first `k` symbols of `S`. -/
structure Found (live : Set NodeId) (rp : NodeId → List ChildKey) (pv : NodeId → List Index)
    (S : List ChildKey) (k : Nat) (n : NodeId) (value : List Index) : Prop where
  live : n ∈ live
  path : rp n = S.take k
  value : value = pv n

/-- A touch of one node, or none. -/
theorem sameTree_ite (b : Bool) (c : RadixCache) (j : NodeId) {f : TreeNode → TreeNode}
    (hf : Bookkeeping f) : SameTree c (if b then c.nodeMut j f else c) := by
  cases b with
  | true => exact sameTree_nodeMut c j hf
  | false => exact SameTree.refl c

/-- One turn: the child under the key's first symbol, and how far its edge agrees. -/
theorem keyMatch_kid (h : WF c live rp pv) {n ch : NodeId} {key : RadixKey} (hn : n ∈ live)
    (hkid : c.heap.kid n (getChildKey key c.pageSize) = some ch) :
    keyMatch c.pageSize (c.node ch).key key = c.pageSize *
      lcpLen (c.heap.edge ch) (key.symbols c.pageSize) :=
  keyMatch_eq h.pageSize_pos (h.extraKey_kid hn hkid)

/-- Where the comparison does not cut the child's edge, it runs along all of it. -/
theorem lcpLen_eq_of_not_cut (hps : 0 < c.pageSize) {ch : NodeId} {q : List ChildKey}
    (hcut : ¬ c.pageSize * lcpLen (c.heap.edge ch) q < (c.node ch).key.length) :
    lcpLen (c.heap.edge ch) q = (c.heap.edge ch).length := by
  refine Nat.le_antisymm (lcpLen_le_left _ _) (Nat.le_of_not_lt fun hlt => hcut ?_)
  exact (RadixKey.lt_length_symbols_iff hps).mp hlt

/-- A walk along `S` has come to `n` after `k` symbols, and `key` is what is left. -/
structure WalkAt (c : RadixCache) (live : Set NodeId) (rp : NodeId → List ChildKey)
    (S : List ChildKey) (k : Nat) (n : NodeId) (key : RadixKey) : Prop where
  le : k ≤ S.length
  live : n ∈ live
  path : rp n = S.take k
  rest : key.symbols c.pageSize = S.drop k

namespace WalkAt

variable {S : List ChildKey} {k : Nat} {n ch : NodeId} {key : RadixKey}

theorem sameTree (hw : WalkAt c live rp S k n key) (hs : SameTree c c') :
    WalkAt c' live rp S k n key :=
  ⟨hw.le, hw.live, hw.path, by rw [hs.pageSize]; exact hw.rest⟩

/-- The next symbol is the child key of what is left. -/
theorem head (hw : WalkAt c live rp S k n key) (hps : 0 < c.pageSize) (hpos : key.length > 0) :
    S[k]? = some (getChildKey key c.pageSize) := by
  have hhead := RadixKey.head_symbols hps (List.ne_nil_of_length_pos hpos)
  rw [hw.rest, List.head?_drop] at hhead
  exact hhead

/-- The walk goes no further where all of `S` is used up, -/
theorem over_whole (hw : WalkAt c live rp S k n key) (hlen : S.length ≤ k) :
    ∀ a, S[k]? = some a → c.heap.kid n a = none := by
  intro a ha
  rw [show k = S.length from Nat.le_antisymm hw.le hlen, List.getElem?_length] at ha
  simp at ha

/-- or nothing of the key is left, -/
theorem over_end (hw : WalkAt c live rp S k n key) (hps : 0 < c.pageSize)
    (hpos : ¬ key.length > 0) : ∀ a, S[k]? = some a → c.heap.kid n a = none := by
  intro a ha
  rw [RadixKey.no_symbol_left hps hw.rest hpos] at ha
  simp at ha

/-- or no child has the next symbol. -/
theorem over_none (hw : WalkAt c live rp S k n key) (hps : 0 < c.pageSize)
    (hpos : key.length > 0) (hkid : c.heap.kid n (getChildKey key c.pageSize) = none) :
    ∀ a, S[k]? = some a → c.heap.kid n a = none := by
  intro a ha
  rw [hw.head hps hpos, Option.some.injEq] at ha
  rw [← ha]
  exact hkid

/-- There it rests at its node. -/
theorem stopped (hw : WalkAt c live rp S k n key)
    (hend : ∀ a, S[k]? = some a → c.heap.kid n a = none) :
    Stopped c.heap live rp S n (c.heap.edge n).length k :=
  Stopped.atNode hw.live hw.le hw.path hend

/-- How much of the child's key is compared as equal. -/
theorem keyMatch_eq (hw : WalkAt c live rp S k n key) (h : WF c live rp pv)
    (hkid : c.heap.kid n (getChildKey key c.pageSize) = some ch) (hs : SameTree c c') :
    keyMatch c'.pageSize (c'.node ch).key key =
      c.pageSize * lcpLen (c.heap.edge ch) (S.drop k) := by
  rw [hs.pageSize, hs.key, keyMatch_kid h hw.live hkid, hw.rest]

/-- It rests inside the child's edge where the comparison stops there. -/
theorem stopped_cut (hw : WalkAt c live rp S k n key) (hps : 0 < c.pageSize)
    (hpos : key.length > 0) (hkid : c.heap.kid n (getChildKey key c.pageSize) = some ch)
    (hcut : c.pageSize * lcpLen (c.heap.edge ch) (S.drop k) < (c.node ch).key.length) :
    lcpLen (c.heap.edge ch) (S.drop k) < (c.heap.edge ch).length ∧
      Stopped c.heap live rp S ch (lcpLen (c.heap.edge ch) (S.drop k))
        (k + lcpLen (c.heap.edge ch) (S.drop k)) := by
  have hlt : lcpLen (c.heap.edge ch) (S.drop k) < (c.heap.edge ch).length :=
    (RadixKey.lt_length_symbols_iff hps).mpr hcut
  exact ⟨hlt, Stopped.onEdge hw.live hw.path (hw.head hps hpos) hkid hlt⟩

/-- A turn comes at least one symbol further, and not past the end. -/
theorem advance (hw : WalkAt c live rp S k n key) (h : WF c live rp pv) (hpos : key.length > 0)
    (hkid : c.heap.kid n (getChildKey key c.pageSize) = some ch) :
    0 < lcpLen (c.heap.edge ch) (S.drop k) ∧
      k + lcpLen (c.heap.edge ch) (S.drop k) ≤ S.length := by
  have hle := lcpLen_le_right (c.heap.edge ch) (S.drop k)
  have hk := hw.le
  rw [List.length_drop] at hle
  exact ⟨h.labelled.walk_pos hw.live (hw.head h.pageSize_pos hpos) hkid, by omega⟩

/-- Otherwise it goes on from the child. -/
theorem next (hw : WalkAt c live rp S k n key) (h : WF c live rp pv) (hpos : key.length > 0)
    (hkid : c.heap.kid n (getChildKey key c.pageSize) = some ch)
    (hcut : ¬ c.pageSize * lcpLen (c.heap.edge ch) (S.drop k) < (c.node ch).key.length) :
    WalkAt c live rp S (k + lcpLen (c.heap.edge ch) (S.drop k)) ch
      (key.drop (c.pageSize * lcpLen (c.heap.edge ch) (S.drop k))) where
  le := (hw.advance h hpos hkid).2
  live := h.labelled.kidLive hw.live hkid
  path := by
    have hfull := lcpLen_eq_of_not_cut h.pageSize_pos hcut
    rw [h.labelled.walk_full hw.live hw.path hkid hfull, hfull]
  rest := by rw [RadixKey.symbols_drop h.pageSize_pos, hw.rest, List.drop_drop]

end WalkAt

/--
A walk that breaks off inside the edge of `ch` goes on from the node the split makes.
The walk has touched the child by then, which changes neither the links nor the values.
-/
theorem splitNode_found (h : WF c live rp pv) {S : List ChildKey} {k l : Nat} {n ch : NodeId}
    {a : ChildKey} {value : List Index} (hf : Found live rp pv S k n value) (ha : S[k]? = some a)
    (hkid : c.heap.kid n a = some ch) (hl : l = lcpLen (c.heap.edge ch) (S.drop k))
    (hlt : l < (c.heap.edge ch).length) {c1 : RadixCache} (hsame : SameTree c c1)
    (hdis : c1.disable = c.disable) : ∃ live' rp' pv',
      SplitOnly c (c1.splitNode ch (c.pageSize * l)).1 live rp pv live' rp' pv' ∧
      Found live' rp' pv' S (k + l) (c1.splitNode ch (c.pageSize * l)).2
        (value ++ ((c1.splitNode ch (c.pageSize * l)).1.node
          (c1.splitNode ch (c.pageSize * l)).2).value) := by
  have hch := h.labelled.kidLive hf.live hkid
  have hr := h.labelled.kid_ne_root hf.live hkid
  have hpos : 0 < l := by rw [hl]; exact h.labelled.walk_pos hf.live ha hkid
  have h1 := h.sameTree hsame
  have hs := splitNode_isSplit h1 hch hr (c.pageSize * l)
  have hparent : (c1.node ch).parent = n :=
    (hsame.parent ch).trans (h.labelled.kidParent hf.live hkid)
  rw [← hsame.heap_eq] at hlt hl
  rw [← hsame.pageSize] at hs ⊢
  refine ⟨_, _, _, ((SplitOnly.refl h).sameTree hsame hdis).trans (hs.splitOnly h1 hch hr hpos hlt),
    Or.inl rfl, ?_, ?_⟩
  · rw [if_pos rfl, hparent, hf.path, List.take_add, hl]
    exact congrArg _ (take_lcpLen (c1.heap.edge ch) (S.drop k))
  · rw [if_pos rfl, hparent, hs.newValue, hf.value]

theorem disable_ite (b : Bool) (c : RadixCache) (j : NodeId) (f : TreeNode → TreeNode) :
    (if b then c.nodeMut j f else c).disable = c.disable := by
  cases b <;> rfl

/--
**The match loop stops where a walk along the key stops**, with the node that ends the
part of the key it consumed.  The split, if there is one, is the last thing it does.
-/
theorem matchLoop_found (updateLru : Bool) (t : Nat) (S : List ChildKey) :
    ∀ (fuel : Nat) (c : RadixCache) (n : NodeId) (key : RadixKey) (value : List Index) (k : Nat),
      WF c live rp pv → WalkAt c live rp S k n key → value = pv n → S.length ≤ k + fuel →
      ∃ live' rp' pv' e o k',
        SplitOnly c (matchLoop updateLru t fuel c n key value).1 live rp pv live' rp' pv' ∧
        Stopped c.heap live rp S e o k' ∧
        Found live' rp' pv' S k' (matchLoop updateLru t fuel c n key value).2.2
          (matchLoop updateLru t fuel c n key value).2.1 := by
  intro fuel
  induction fuel with
  | zero =>
      intro c n key value k h hw hvalue hlen
      exact ⟨live, rp, pv, _, _, k, SplitOnly.refl h, hw.stopped (hw.over_whole hlen),
        ⟨hw.live, hw.path, hvalue⟩⟩
  | succ fuel ih =>
      intro c n key value k h hw hvalue hlen
      have hps := h.pageSize_pos
      have hf : Found live rp pv S k n value := ⟨hw.live, hw.path, hvalue⟩
      unfold matchLoop
      by_cases hpos : key.length > 0
      · rw [if_pos hpos]
        cases hkid : (c.node n).children.lookup (getChildKey key c.pageSize) with
        | none =>
            exact ⟨live, rp, pv, _, _, k, SplitOnly.refl h,
              hw.stopped (hw.over_none hps hpos hkid), hf⟩
        | some ch =>
            have hkid : c.heap.kid n (getChildKey key c.pageSize) = some ch := hkid
            -- touching the child changes neither the links nor the comparison
            have hsame := sameTree_ite updateLru c ch (bookkeeping_accessTime t)
            have hdis := disable_ite updateLru c ch fun m => { m with lastAccessTime := t }
            simp only
            set c1 := if updateLru = true then
              c.nodeMut ch fun m => { m with lastAccessTime := t } else c with hc1
            rw [hw.keyMatch_eq h hkid hsame, hsame.key]
            obtain ⟨hlpos, -⟩ := hw.advance h hpos hkid
            set l := lcpLen (c.heap.edge ch) (S.drop k) with hl
            by_cases hcut : c.pageSize * l < (c.node ch).key.length
            · rw [if_pos hcut]
              obtain ⟨hlt, hstop⟩ := hw.stopped_cut hps hpos hkid hcut
              obtain ⟨live', rp', pv', hgrow, hfound⟩ :=
                splitNode_found h hf (hw.head hps hpos) hkid hl hlt hsame hdis
              set c2 := (c1.splitNode ch (c.pageSize * l)).1 with hc2
              set u := (c1.splitNode ch (c.pageSize * l)).2 with hu
              have hsame2 := sameTree_ite updateLru c2 u bookkeeping_hitCount
              have hout := hgrow.sameTree hsame2 (disable_ite updateLru c2 u _)
              rw [← hsame2.value] at hfound
              exact ⟨live', rp', pv', _, _, k + l, hout, hstop, hfound⟩
            · rw [if_neg hcut]
              have hdis2 := disable_ite updateLru c1 ch fun m => { m with hitCount := m.hitCount + 1 }
              have hsame := hsame.trans (sameTree_ite updateLru c1 ch bookkeeping_hitCount)
              set c2 := if updateLru = true then
                c1.nodeMut ch fun m => { m with hitCount := m.hitCount + 1 } else c1 with hc2
              have hvalue2 : value ++ (c2.node ch).value = pv ch := by
                rw [hsame.value, hvalue, h.kidValue hw.live hkid]
              obtain ⟨live', rp', pv', e, o, k', hgrow, hstop, hfound⟩ :=
                ih c2 ch (key.drop (c.pageSize * l)) _ (k + l) (h.sameTree hsame)
                  ((hw.next h hpos hkid hcut).sameTree hsame) hvalue2 (by omega)
              refine ⟨live', rp', pv', e, o, k', ?_, ?_, hfound⟩
              · exact ((SplitOnly.refl h).sameTree hsame (hdis2.trans hdis)).trans hgrow
              · rw [hsame.heap_eq] at hstop; exact hstop
      · rw [if_neg hpos]
        exact ⟨live, rp, pv, _, _, k, SplitOnly.refl h, hw.stopped (hw.over_end hps hpos), hf⟩

/-! ### A whole match -/

/--
What a match of `S` returned: a live node, the indices along its path, and a length in
symbols up to which, and no further, the cache holds `S`.
-/
structure Matches (live : Set NodeId) (rp : NodeId → List ChildKey) (pv : NodeId → List Index)
    (S : List ChildKey) (r : MatchResult) (k : Nat) : Prop where
  found : Found live rp pv S k r.lastDeviceNode r.deviceIndices
  le : k ≤ S.length
  held : ∀ j ≤ S.length, Held live rp (S.take j) ↔ j ≤ k

/-- What a match found stays so when other keys are matched after it. -/
theorem Matches.splitOnly {S : List ChildKey} {r : MatchResult} {k : Nat}
    (h : Matches live rp pv S r k) (hs : SplitOnly c c' live rp pv live' rp' pv') :
    Matches live' rp' pv' S r k where
  found :=
    { live := hs.sub h.found.live
      path := (hs.path _ h.found.live).trans h.found.path
      value := h.found.value.trans (hs.value _ h.found.live).symm }
  le := h.le
  held j hj := (hs.held _).trans (h.held j hj)

/-- The key a match looks up: cut to whole pages, and nothing at all when the cache is off. -/
def matchSymbols (c : RadixCache) (key : RadixKey) : List ChildKey :=
  if c.disable then [] else (c.pageAlign key).symbols c.pageSize

theorem length_pageAlign_le (c : RadixCache) (key : RadixKey) :
    (c.pageAlign key).length ≤ key.length := by
  unfold pageAlign
  by_cases hp : c.pageSize ≠ 1
  · rw [if_pos hp]
    exact List.length_take_le' _ _
  · rw [if_neg hp]

theorem matchSymbols_eq_nil_iff (hps : 0 < c.pageSize) {key : RadixKey} :
    c.matchSymbols key = [] ↔ c.disable = true ∨ (c.pageAlign key).length = 0 := by
  unfold matchSymbols
  by_cases hd : c.disable = true
  · rw [if_pos hd]
    simp [hd]
  · rw [if_neg hd, RadixKey.symbols_eq_nil_iff hps, or_iff_right hd]
    exact List.length_eq_zero_iff.symm

/-- A match is a loop over whole pages, if there are any. -/
theorem matchPrefixWith_eq (updateLru : Bool) (c : RadixCache) (key : RadixKey) :
    c.matchPrefixWith updateLru key =
      if c.disable = true ∨ (c.pageAlign key).length = 0 then (emptyMatchResult, c)
      else
        (⟨(c.matchPrefixHelper updateLru (c.pageAlign key)).2.1,
          (c.matchPrefixHelper updateLru (c.pageAlign key)).2.2⟩,
          (c.matchPrefixHelper updateLru (c.pageAlign key)).1) := by
  unfold matchPrefixWith
  by_cases hnone : c.disable = true ∨ (c.pageAlign key).length = 0
  · rw [if_pos hnone]
    by_cases hempty : c.disable = true ∨ key.length = 0
    · rw [if_pos hempty]
    · rw [if_neg hempty]
      exact if_pos (hnone.resolve_left fun hd => hempty (Or.inl hd))
  · rw [if_neg hnone]
    rw [not_or] at hnone
    have hle := c.length_pageAlign_le key
    rw [if_neg (not_or.mpr ⟨hnone.1, fun hlen => hnone.2 (by omega)⟩)]
    exact if_neg hnone.2

theorem matchPrefixWith_of_nil (hps : 0 < c.pageSize) (updateLru : Bool) {key : RadixKey}
    (hnil : c.matchSymbols key = []) : c.matchPrefixWith updateLru key = (emptyMatchResult, c) := by
  rw [matchPrefixWith_eq, if_pos ((matchSymbols_eq_nil_iff hps).mp hnil)]

theorem matchPrefixWith_of_ne_nil (hps : 0 < c.pageSize) (updateLru : Bool) {key : RadixKey}
    (hne : c.matchSymbols key ≠ []) : c.matchPrefixWith updateLru key =
      (⟨(c.matchPrefixHelper updateLru (c.pageAlign key)).2.1,
        (c.matchPrefixHelper updateLru (c.pageAlign key)).2.2⟩,
        (c.matchPrefixHelper updateLru (c.pageAlign key)).1) := by
  rw [matchPrefixWith_eq, if_neg (mt (matchSymbols_eq_nil_iff hps).mpr hne)]

/-- The cache when the loop starts: the root has been touched. -/
def touchRoot (updateLru : Bool) (c : RadixCache) : RadixCache :=
  if updateLru then (c.tick 1).nodeMut rootNode fun n => { n with lastAccessTime := c.clock } else c

theorem sameTree_touchRoot (updateLru : Bool) (c : RadixCache) :
    SameTree c (c.touchRoot updateLru) ∧ (c.touchRoot updateLru).disable = c.disable := by
  cases updateLru with
  | true =>
      exact ⟨(sameTree_tick c 1).trans
        (sameTree_nodeMut (c.tick 1) rootNode (bookkeeping_accessTime c.clock)), rfl⟩
  | false => exact ⟨SameTree.refl c, rfl⟩

/-- The loop of a match starts at the root, with fuel for the whole key. -/
theorem walkAt_root (h : WF c live rp pv) {key : RadixKey} (hne : c.matchSymbols key ≠ []) :
    WalkAt c live rp (c.matchSymbols key) 0 rootNode (c.pageAlign key) ∧
      (c.matchSymbols key).length ≤ 0 + (c.pageAlign key).length := by
  have hd : ¬ c.disable = true := fun hd => hne (if_pos hd)
  have hS : c.matchSymbols key = (c.pageAlign key).symbols c.pageSize := if_neg hd
  refine ⟨⟨Nat.zero_le _, h.labelled.rootLive, h.labelled.rootPath, ?_⟩, ?_⟩
  · rw [hS, List.drop_zero]
  · rw [hS, Nat.zero_add]
    exact RadixKey.length_symbols_le h.pageSize_pos _

/-- The empty match, when there is nothing to look up. -/
theorem matches_empty (h : WF c live rp pv) : Matches live rp pv [] emptyMatchResult 0 where
  found :=
    { live := h.labelled.rootLive
      path := h.labelled.rootPath
      value := h.rootValue.symm }
  le := Nat.le_refl _
  held j hj := by
    simp only [List.take_nil]
    exact ⟨fun _ => hj, fun _ => ⟨rootNode, h.labelled.rootLive, List.nil_prefix⟩⟩

/--
**A match returns the longest cached prefix, in whole pages.**  The node ends it, the
indices are those cached along it, and nothing else in the cache moves.
-/
theorem matchPrefixWith_matches (h : WF c live rp pv) (updateLru : Bool) (key : RadixKey) :
    ∃ live' rp' pv' k,
      SplitOnly c (c.matchPrefixWith updateLru key).2 live rp pv live' rp' pv' ∧
      Matches live' rp' pv' (c.matchSymbols key) (c.matchPrefixWith updateLru key).1 k := by
  have hps := h.pageSize_pos
  by_cases hnil : c.matchSymbols key = []
  · rw [matchPrefixWith_of_nil hps updateLru hnil, hnil]
    exact ⟨live, rp, pv, 0, SplitOnly.refl h, matches_empty h⟩
  · rw [matchPrefixWith_of_ne_nil hps updateLru hnil]
    obtain ⟨hwalk, hfuel⟩ := walkAt_root h hnil
    obtain ⟨hsame, hdis⟩ := sameTree_touchRoot updateLru c
    obtain ⟨live', rp', pv', e, o, k, hgrow, hstop, hfound⟩ :=
      matchLoop_found updateLru c.clock (c.matchSymbols key) (c.pageAlign key).length _ rootNode
        (c.pageAlign key) [] 0 (h.sameTree hsame) (hwalk.sameTree hsame) h.rootValue.symm hfuel
    rw [hsame.heap_eq] at hstop
    have hout := ((SplitOnly.refl h).sameTree hsame hdis).trans hgrow
    refine ⟨live', rp', pv', k, hout, hfound, (h.labelled.stopped_path hstop).2.1, fun j hj => ?_⟩
    rw [hout.held, h.labelled.held_take_iff hstop hj]

end RadixCache

end Peek
