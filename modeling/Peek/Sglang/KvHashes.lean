/-
What the hashes of the nodes are.

The hash of a page is made with the hash of the page before it, which may be the last of the node
above.  So what a node keeps is the part of the chain of its whole path that its own edge takes up
(`Hashed`), wherever the nodes have been cut since the hashes were made.
-/
import Peek.Sglang.KvEvents
import Peek.Sglang.LockedSizes

namespace Peek

open Radix RadixCache

theorem RadixKey.chunks_eq_pages {ps : Nat} (hps : 0 < ps) (key : RadixKey) :
    key.chunks ps = pages ps key.tokenIds := by
  refine List.ext_getElem? fun i => ?_
  have hcount : i < (key.length + (ps - 1)) / ps ↔ ps * i < key.tokenIds.length := by
    rw [← Nat.succ_le_iff, Nat.le_div_iff_mul_le hps, Nat.succ_mul, Nat.mul_comm ps]
    unfold RadixKey.length
    omega
  have hpage : (pages ps key.tokenIds)[i]? = (pages ps (key.tokenIds.drop (ps * i))).head? := by
    rw [pages_drop hps, List.head?_drop]
  unfold RadixKey.chunks
  rw [hpage, List.getElem?_map]
  by_cases hi : ps * i < key.tokenIds.length
  · have hne : key.tokenIds.drop (ps * i) ≠ [] := by simpa using hi
    rw [pages_eq_cons hps hne, List.getElem?_range (hcount.mpr hi)]
    rfl
  · rw [List.drop_eq_nil_of_le (Nat.le_of_not_lt hi), pages_nil, List.getElem?_eq_none]
    · rfl
    · rw [List.length_range]
      exact Nat.le_of_not_lt (mt hcount.mp hi)

namespace EventCache

variable {H : PageHash} {s : EventCache H} {c' : RadixCache} {live live' : Set NodeId}
  {rp rp' : NodeId → List ChildKey} {pv pv' : NodeId → List Index} {n : NodeId}

/-! ### Hashes of nodes -/

/-- The hash of the last page of a node, if it has one. -/
def lastHash (s : EventCache H) (n : NodeId) : Option H.Hash := (s.hashValue n).bind List.getLast?

/-- The pages of a node's key. -/
def pagesOf (s : EventCache H) (n : NodeId) : List (List Token) :=
  pages s.cache.pageSize (s.cache.node n).key.tokenIds

/-- The hashes of a node's pages, chained to those of its parent. -/
def chained (s : EventCache H) (n : NodeId) : List H.Hash :=
  HashChain.chain H.getHashStr (s.lastHash (s.cache.node n).parent) (s.pagesOf n)

/-- Every node of the tree keeps the hashes of its pages, and no other has any. -/
structure Hashed (s : EventCache H) (live : Set NodeId) : Prop where
  enabled : s.enableKvCacheEvents = true
  root : s.hashValue rootNode = some []
  node : ∀ n ∈ live, n ≠ rootNode → s.hashValue n = some (s.chained n)
  fresh : ∀ n, s.cache.nodes.size ≤ n → s.hashValue n = none

theorem pagesOf_ne_nil (h : WF s.cache live rp pv) (hn : n ∈ live) (hr : n ≠ rootNode) :
    s.pagesOf n ≠ [] := by
  intro hnil
  refine h.labelled.edge_ne_nil hn hr ?_
  rw [heap_edge]
  unfold RadixKey.symbols
  rw [show pages s.cache.pageSize (s.cache.node n).key.tokenIds = [] from hnil, List.map_nil]

namespace Hashed

theorem lastHash_root (hh : Hashed s live) : s.lastHash rootNode = none := by
  unfold lastHash
  rw [hh.root]
  rfl

/-- The last hash goes over to the node from its parent, through all of its pages. -/
theorem lastHash_eq (hh : Hashed s live) (h : WF s.cache live rp pv) (hn : n ∈ live)
    (hr : n ≠ rootNode) : s.lastHash n =
      HashChain.last H.getHashStr (s.lastHash (s.cache.node n).parent) (s.pagesOf n) := by
  conv_lhs => unfold lastHash
  rw [hh.node n hn hr, Option.bind_some]
  exact HashChain.getLast?_chain H.getHashStr _ (pagesOf_ne_nil h hn hr)

/-- A change that leaves keys and links alone leaves the hashes right. -/
theorem withCache (hh : Hashed s live) (hsize : s.cache.nodes.size ≤ c'.nodes.size)
    (hpage : c'.pageSize = s.cache.pageSize) (hsub : live' ⊆ live)
    (hkey : ∀ n ∈ live', (c'.node n).key = (s.cache.node n).key)
    (hparent : ∀ n ∈ live', (c'.node n).parent = (s.cache.node n).parent) :
    Hashed { s with cache := c' } live' where
  enabled := hh.enabled
  root := hh.root
  node n hn hr := by
    have hpages : ({ s with cache := c' } : EventCache H).pagesOf n = s.pagesOf n := by
      show pages c'.pageSize (c'.node n).key.tokenIds = _
      rw [hpage, hkey n hn]
      rfl
    have hchained : ({ s with cache := c' } : EventCache H).chained n = s.chained n := by
      unfold chained
      rw [hpages]
      show HashChain.chain _ (s.lastHash (c'.node n).parent) _ = _
      rw [hparent n hn]
    rw [hchained]
    exact hh.node n (hsub hn) hr
  fresh n hn := hh.fresh n (hsize.trans hn)

end Hashed

/-! ### Cutting a node -/

/-- A split made at a page parts the hashes there. -/
theorem splitNodeHashValue_mul {ps : Nat} (hps : 0 < ps) (hashes : List H.Hash) (l : Nat) :
    splitNodeHashValue (some hashes) (ps * l) ps =
      (some (hashes.take l), some (hashes.drop l)) := by
  have hpages : (if ps = 1 then ps * l else ps * l / ps) = l := by
    by_cases h1 : ps = 1
    · rw [if_pos h1, h1, Nat.one_mul]
    · rw [if_neg h1, Nat.mul_div_cancel_left l hps]
  unfold splitNodeHashValue
  simp only [hpages]

/-- What a split makes of the hashes. -/
theorem hashValue_splitNode (hh : Hashed s live) (h : WF s.cache live rp pv) {ch : NodeId}
    (hch : ch ∈ live) (hr : ch ≠ rootNode) (l : Nat) :
    (s.splitNode ch (s.cache.pageSize * l)).1.hashValue =
      Function.update (Function.update s.hashValue s.cache.nodes.size
        (some ((s.chained ch).take l))) ch (some ((s.chained ch).drop l)) := by
  show Function.update (Function.update s.hashValue s.cache.nodes.size
    (splitNodeHashValue (s.hashValue ch) (s.cache.pageSize * l) s.cache.pageSize).1) ch
    (splitNodeHashValue (s.hashValue ch) (s.cache.pageSize * l) s.cache.pageSize).2 = _
  rw [hh.node ch hch hr, splitNodeHashValue_mul h.pageSize_pos]

section

variable {ch : NodeId} {l : Nat} (hh : Hashed s live) (h : WF s.cache live rp pv) (hch : ch ∈ live)
  (hr : ch ≠ rootNode)
include hh h hch hr

omit hh in
theorem pagesOf_splitNode :
    (s.splitNode ch (s.cache.pageSize * l)).1.pagesOf s.cache.nodes.size = (s.pagesOf ch).take l ∧
      (s.splitNode ch (s.cache.pageSize * l)).1.pagesOf ch = (s.pagesOf ch).drop l := by
  have hs := splitNode_isSplit h hch hr (s.cache.pageSize * l)
  have hps := h.pageSize_pos
  refine ⟨?_, ?_⟩
  · have hkey : ((s.splitNode ch (s.cache.pageSize * l)).1.cache.node s.cache.nodes.size).key =
        (s.cache.node ch).key.take (s.cache.pageSize * l) := hs.newKey
    unfold pagesOf
    rw [hkey, RadixKey.tokenIds_take]
    exact pages_take hps l _
  · have hkey : ((s.splitNode ch (s.cache.pageSize * l)).1.cache.node ch).key =
        (s.cache.node ch).key.drop (s.cache.pageSize * l) := congrArg TreeNode.key hs.nodeAt
    unfold pagesOf
    rw [hkey, RadixKey.tokenIds_drop]
    exact pages_drop hps l _

/-- **A cut moves no hash**: the nodes that were there end with the hash they ended with. -/
theorem lastHash_splitNode (hl : 0 < l) (hlt : l < (s.pagesOf ch).length) :
    (∀ m ∈ live, (s.splitNode ch (s.cache.pageSize * l)).1.lastHash m = s.lastHash m) ∧
      (s.splitNode ch (s.cache.pageSize * l)).1.lastHash s.cache.nodes.size =
        HashChain.last H.getHashStr (s.lastHash (s.cache.node ch).parent)
          ((s.pagesOf ch).take l) := by
  have hfresh : ∀ m ∈ live, m ≠ s.cache.nodes.size := fun m hm => Nat.ne_of_lt (h.bound m hm)
  have hvalue := hashValue_splitNode hh h hch hr l
  refine ⟨fun m hm => ?_, ?_⟩
  · unfold lastHash
    by_cases hmc : m = ch
    · subst hmc
      have hdrop : (s.pagesOf m).drop l ≠ [] := by simpa using hlt
      rw [hvalue, Function.update_self, hh.node m hm hr, Option.bind_some, Option.bind_some,
        chained, ← HashChain.chain_drop, HashChain.getLast?_chain _ _ hdrop,
        HashChain.getLast?_chain _ _ (pagesOf_ne_nil h hm hr), ← HashChain.last_append,
        List.take_append_drop]
    · rw [hvalue, Function.update_of_ne hmc, Function.update_of_ne (hfresh m hm)]
  · have htake : (s.pagesOf ch).take l ≠ [] := by
      rw [Ne, List.take_eq_nil_iff, not_or]
      exact ⟨by omega, pagesOf_ne_nil h hch hr⟩
    unfold lastHash
    rw [hvalue, Function.update_of_ne (Ne.symm (hfresh ch hch)), Function.update_self,
      Option.bind_some, chained, ← HashChain.chain_take, HashChain.getLast?_chain _ _ htake]
    rfl

theorem Hashed.splitNode (hl : 0 < l) (hlt : l < (s.pagesOf ch).length) :
    Hashed (s.splitNode ch (s.cache.pageSize * l)).1 (Insert.insert s.cache.nodes.size live) := by
  have hs := splitNode_isSplit h hch hr (s.cache.pageSize * l)
  have hfresh : ∀ m ∈ live, m ≠ s.cache.nodes.size := fun m hm => Nat.ne_of_lt (h.bound m hm)
  have hvalue := hashValue_splitNode hh h hch hr l
  obtain ⟨hupper, hlower⟩ := @pagesOf_splitNode _ _ _ _ _ _ l h hch hr
  obtain ⟨hlast, hnew⟩ := lastHash_splitNode hh h hch hr hl hlt
  have hroot : rootNode ∈ live := h.labelled.rootLive
  refine ⟨hh.enabled, ?_, fun n hn hnr => ?_, fun n hn => ?_⟩
  · rw [hvalue, Function.update_of_ne (Ne.symm hr), Function.update_of_ne (hfresh _ hroot), hh.root]
  · by_cases hnc : n = ch
    · subst hnc
      have hparent : ((s.splitNode n (s.cache.pageSize * l)).1.cache.node n).parent =
          s.cache.nodes.size := congrArg TreeNode.parent hs.nodeAt
      rw [hvalue, Function.update_self]
      conv_rhs => unfold chained
      rw [hparent, hnew, hlower, HashChain.chain_drop]
      rfl
    · rw [hvalue, Function.update_of_ne hnc]
      rcases hn with rfl | hn
      · have hparent : ((s.splitNode ch (s.cache.pageSize * l)).1.cache.node
            s.cache.nodes.size).parent = (s.cache.node ch).parent := hs.newParent
        have habove : (s.splitNode ch (s.cache.pageSize * l)).1.lastHash
            (s.cache.node ch).parent = s.lastHash (s.cache.node ch).parent :=
          hlast _ (h.labelled.parent_live hch hr)
        rw [Function.update_self]
        conv_rhs => unfold chained
        rw [hparent, habove, hupper, HashChain.chain_take]
        rfl
      · obtain ⟨hkey, -, hparent, -⟩ := hs.old_fields hn hnc
        have hparent : ((s.splitNode ch (s.cache.pageSize * l)).1.cache.node n).parent =
            (s.cache.node n).parent := hparent
        have hpages : (s.splitNode ch (s.cache.pageSize * l)).1.pagesOf n = s.pagesOf n :=
          congrArg (fun key : RadixKey => pages s.cache.pageSize key.tokenIds) hkey
        have habove : (s.splitNode ch (s.cache.pageSize * l)).1.lastHash
            (s.cache.node n).parent = s.lastHash (s.cache.node n).parent :=
          hlast _ (h.labelled.parent_live hn hnr)
        rw [Function.update_of_ne (hfresh n hn), hh.node n hn hnr]
        conv_rhs => unfold chained
        rw [hparent, habove, hpages]
        rfl
  · have hsize := (splitNode_links s.cache (h.bound ch hch) (s.cache.pageSize * l)).1
    have hafter : s.cache.nodes.size < n := Nat.lt_of_lt_of_le (hsize ▸ Nat.lt_succ_self _) hn
    have hnc : n ≠ ch := Nat.ne_of_gt ((h.bound ch hch).trans hafter)
    rw [hvalue, Function.update_of_ne hnc, Function.update_of_ne (Nat.ne_of_gt hafter),
      hh.fresh n hafter.le]

end

/-! ### A new leaf -/

/-- An event leaves the cache alone. -/
theorem cache_recordEvent (s : EventCache H) (n : NodeId) :
    (s.recordStoreEvent n).cache = s.cache ∧ (s.recordRemoveEvent n).cache = s.cache := by
  unfold recordStoreEvent recordRemoveEvent
  split
  · exact ⟨rfl, rfl⟩
  · exact ⟨rfl, rfl⟩

/-- A node whose hashes are not there yet is given those of its pages. -/
theorem computeNodeHashValues_eq (hh : Hashed s live) (h : WF s.cache live' rp pv)
    (hp : (s.cache.node n).parent ∈ live) (hp' : (s.cache.node n).parent ∈ live') :
    s.computeNodeHashValues n = s.chained n := by
  unfold computeNodeHashValues
  rw [RadixKey.chunks_eq_pages h.pageSize_pos]
  unfold chained pagesOf
  by_cases hr : (s.cache.node n).parent = rootNode
  · simp only [hr, hh.lastHash_root, hh.root, List.getLast?_nil, ite_self]
  · have hpos : 0 < (s.cache.node (s.cache.node n).parent).key.length := by
      refine List.length_pos_iff.mpr fun hnil => pagesOf_ne_nil h hp' hr ?_
      unfold pagesOf
      rw [hnil, pages_nil]
    unfold lastHash
    simp only [hh.node _ hp hr, if_pos hpos, Option.bind_some]

/-- The event for a leaf gives it the hashes of its pages, and tells of them. -/
theorem recordStoreEvent_eq (hh : Hashed s live) (h : WF s.cache live' rp pv)
    (hp : (s.cache.node n).parent ∈ live) (hp' : (s.cache.node n).parent ∈ live')
    (hnone : s.hashValue n = none) : s.recordStoreEvent n = { s with
      hashValue := Function.update s.hashValue n (some (s.chained n))
      kvEventQueue := s.kvEventQueue ++ storedEvents
        ((s.lastHash (s.cache.node n).parent).map H.hashStrToInt64)
        (((s.cache.node n).key.chunks s.cache.pageSize).zip (s.chained n)) } := by
  have hhashes : s.hashesOf n = s.chained n := by
    unfold hashesOf
    rw [hnone]
    exact computeNodeHashValues_eq hh h hp hp'
  have hparent : (if (s.cache.node n).parent ≠ rootNode then
      ((s.hashValue (s.cache.node n).parent).bind List.getLast?).map H.hashStrToInt64
      else none) = (s.lastHash (s.cache.node n).parent).map H.hashStrToInt64 := by
    by_cases hr : (s.cache.node n).parent = rootNode
    · rw [if_neg (not_not.mpr hr), hr, hh.lastHash_root]
      rfl
    · rw [if_pos hr]
      rfl
  unfold recordStoreEvent
  rw [if_pos hh.enabled]
  simp only [hhashes, hparent]

/-- The event for a leaf that goes tells of the hashes it has. -/
theorem recordRemoveEvent_eq (hh : Hashed s live) (hn : n ∈ live) (hr : n ≠ rootNode) :
    s.recordRemoveEvent n = { s with
      kvEventQueue := s.kvEventQueue ++
        (((s.cache.node n).key.chunks s.cache.pageSize).zip (s.chained n)).map fun page =>
          .blockRemoved (H.hashStrToInt64 page.2) } := by
  have hvalue := hh.node n hn hr
  have hhashes : s.hashesOf n = s.chained n := by
    unfold hashesOf
    rw [hvalue, Option.getD_some]
  unfold recordRemoveEvent
  rw [if_pos hh.enabled]
  simp only [hhashes, ← hvalue, Function.update_eq_self]

theorem Hashed.recordStoreEvent (hh : Hashed s live) (h : WF s.cache (Insert.insert n live) rp pv)
    (hn : n ∉ live) (hup : ∀ m ∈ live, m ≠ rootNode → (s.cache.node m).parent ∈ live)
    (hp : (s.cache.node n).parent ∈ live) (hnone : s.hashValue n = none) :
    Hashed (s.recordStoreEvent n) (Insert.insert n live) := by
  rw [recordStoreEvent_eq hh h hp (Or.inr hp) hnone]
  have hroot : rootNode ≠ n := fun heq => by
    rw [← heq, hh.root] at hnone
    simp at hnone
  set hashValue := Function.update s.hashValue n (some (s.chained n)) with hvalue
  have hlast : ∀ m ∈ live, (hashValue m).bind List.getLast? = s.lastHash m := by
    intro m hm
    have hmn : m ≠ n := fun heq => hn (heq ▸ hm)
    rw [hvalue, Function.update_of_ne hmn]
    rfl
  have hchained : ∀ m, (s.cache.node m).parent ∈ live → HashChain.chain H.getHashStr
      ((hashValue (s.cache.node m).parent).bind List.getLast?) (s.pagesOf m) = s.chained m :=
    fun m hm => congrArg (HashChain.chain H.getHashStr · _) (hlast _ hm)
  refine ⟨hh.enabled, ?_, fun m hm hr => ?_, fun m hm => ?_⟩
  · show hashValue rootNode = _
    rw [hvalue, Function.update_of_ne hroot, hh.root]
  · show hashValue m = some (HashChain.chain H.getHashStr
      ((hashValue (s.cache.node m).parent).bind List.getLast?) (s.pagesOf m))
    by_cases hmn : m = n
    · subst hmn
      rw [hchained m hp, hvalue, Function.update_self]
    · have hm : m ∈ live := Set.mem_of_mem_insert_of_ne hm hmn
      rw [hchained m (hup m hm hr), hvalue, Function.update_of_ne hmn, hh.node m hm hr]
  · have hmn : m ≠ n := Nat.ne_of_gt (Nat.lt_of_lt_of_le (h.bound n (Or.inl rfl)) hm)
    show hashValue m = none
    rw [hvalue, Function.update_of_ne hmn]
    exact hh.fresh m hm

end EventCache

end Peek
