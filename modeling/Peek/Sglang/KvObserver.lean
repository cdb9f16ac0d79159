/-
What the events of a cache tell of it.

An observer keeps count of the blocks: it adds what is stored and takes away what is removed.  A
cut makes no event and moves no block; a new leaf and a leaf that goes are told of, page by page,
and the observer can follow (`Follows`).  What it then counts are the hashes of the pages that the
tree holds (`mem_blocks_iff`).
-/
import Peek.Sglang.KvHashes

namespace Peek

open Radix RadixCache

/-! ### The observer -/

/-- What the blocks are after an event; `none` if the event does not fit what was seen before. -/
def KvEvent.apply (blocks : Multiset Int) : KvEvent → Option (Multiset Int)
  | .blockStored blockHash parentBlockHash _ =>
      if ∀ b ∈ parentBlockHash, b ∈ blocks then some (blockHash ::ₘ blocks) else none
  | .blockRemoved blockHash => if blockHash ∈ blocks then some (blocks.erase blockHash) else none
  | .allBlocksCleared => some 0

/-- What the blocks are after a series of events. -/
def replay (events : List KvEvent) (blocks : Multiset Int) : Option (Multiset Int) :=
  events.foldlM KvEvent.apply blocks

@[simp] theorem replay_nil (blocks : Multiset Int) : replay [] blocks = some blocks := rfl

theorem replay_cons (e : KvEvent) (events : List KvEvent) (blocks : Multiset Int) :
    replay (e :: events) blocks = (e.apply blocks).bind (replay events) := List.foldlM_cons

theorem replay_append (events events' : List KvEvent) (blocks : Multiset Int) :
    replay (events ++ events') blocks = (replay events blocks).bind (replay events') :=
  List.foldlM_append

/-- The short hash of the last of some pages, each of which is hashed with the one before it. -/
def PageHash.blockHash (H : PageHash) (pages : List (List Token)) : Option Int :=
  (HashChain.last H.getHashStr none pages).map H.hashStrToInt64

/-- A stored block is that of its page after those pages whose block it gives as its parent. -/
def KvEvent.Chained (H : PageHash) : KvEvent → Prop
  | .blockStored blockHash parentBlockHash tokenIds => ∃ before,
      parentBlockHash = H.blockHash before ∧ some blockHash = H.blockHash (before ++ [tokenIds])
  | .blockRemoved _ => True
  | .allBlocksCleared => True

namespace EventCache

variable {H : PageHash}

/-- The events for a node are chained from the pages above it. -/
theorem chained_storedEvents (pages : List (List Token)) : ∀ before : List (List Token),
    ∀ e ∈ storedEvents (H.blockHash before) (pages.zip
      (HashChain.chain H.getHashStr (HashChain.last H.getHashStr none before) pages)),
    e.Chained H := by
  induction pages with
  | nil => intro before e he; simp [storedEvents, HashChain.chain] at he
  | cons page rest ih =>
      intro before e he
      have hlast : HashChain.last H.getHashStr none (before ++ [page]) =
          some (H.getHashStr page (HashChain.last H.getHashStr none before)) := by
        rw [HashChain.last_append]
        rfl
      have hblock : H.blockHash (before ++ [page]) = some (H.hashStrToInt64
          (H.getHashStr page (HashChain.last H.getHashStr none before))) := by
        rw [PageHash.blockHash, hlast]
        rfl
      rw [HashChain.chain, List.zip_cons_cons, storedEvents, List.mem_cons] at he
      rcases he with rfl | he
      · exact ⟨before, rfl, hblock.symm⟩
      · rw [← hlast, ← hblock] at he
        exact ih (before ++ [page]) e he

/-- The short hashes of the pages that events tell of. -/
def shortHashes (pages : List (List Token × H.Hash)) : List Int :=
  pages.map fun page => H.hashStrToInt64 page.2

/-- **The pages of a node fit after what is above it.** -/
theorem replay_storedEvents (pages : List (List Token × H.Hash)) :
    ∀ (prior : Option Int) (blocks : Multiset Int), (∀ b ∈ prior, b ∈ blocks) →
      replay (storedEvents prior pages) blocks =
        some ((shortHashes pages : Multiset Int) + blocks) := by
  induction pages with
  | nil => intro prior blocks _; simp [storedEvents, shortHashes]
  | cons page rest ih =>
      intro prior blocks hprior
      have hself : ∀ b ∈ some (H.hashStrToInt64 page.2),
          b ∈ H.hashStrToInt64 page.2 ::ₘ blocks := by simp
      show replay (_ :: storedEvents (some (H.hashStrToInt64 page.2)) rest) blocks = _
      rw [replay_cons, KvEvent.apply, if_pos hprior, Option.bind_some, ih _ _ hself]
      simp [shortHashes, ← Multiset.cons_coe]

/-- The pages of a node that goes are there to be removed. -/
theorem replay_removedEvents (pages : List (List Token × H.Hash)) (blocks : Multiset Int) :
    replay (pages.map fun page => .blockRemoved (H.hashStrToInt64 page.2))
      ((shortHashes pages : Multiset Int) + blocks) = some blocks := by
  induction pages with
  | nil => simp [shortHashes]
  | cons page rest ih =>
      have hcons : ((shortHashes (page :: rest) : Multiset Int) + blocks) =
          H.hashStrToInt64 page.2 ::ₘ ((shortHashes rest : Multiset Int) + blocks) := by
        simp [shortHashes, ← Multiset.cons_coe]
      rw [List.map_cons, replay_cons, hcons, KvEvent.apply, if_pos (Multiset.mem_cons_self _ _),
        Multiset.erase_cons_head, Option.bind_some, ih]

variable {s s' s'' : EventCache H} {c' : RadixCache} {live live' : Set NodeId}
  {rp rp' : NodeId → List ChildKey} {pv pv' : NodeId → List Index} {n : NodeId}

/-! ### The blocks of a tree -/

/-- The blocks a node's hashes make. -/
def announced (hashes : Option (List H.Hash)) : Multiset Int :=
  ((hashes.getD []).map H.hashStrToInt64 : List Int)

/-- The blocks of the tree, as they were announced. -/
noncomputable def blocks (s : EventCache H) : Multiset Int :=
  CellSum.total announced s.hashValue s.cache.tree

/-- The tree is in order, and so are its hashes. -/
def Tracked (s : EventCache H) : Prop :=
  ∃ live rp pv, WF s.cache live rp pv ∧ Hashed s live

/-- What was sent on the way from one state to the other tells of all that happened. -/
def Tells (s s' : EventCache H) : Prop :=
  ∃ events, s'.kvEventQueue = s.kvEventQueue ++ events ∧ (∀ e ∈ events, e.Chained H) ∧
    replay events s.blocks = some s'.blocks

/-- A call that keeps the hashes right and tells of what it does. -/
def Follows (s s' : EventCache H) : Prop := Tracked s → Tracked s' ∧ Tells s s'

theorem Follows.refl (s : EventCache H) : Follows s s :=
  fun h => ⟨h, [], by simp, by simp, rfl⟩

theorem Follows.trans (h : Follows s s') (h' : Follows s' s'') : Follows s s'' := by
  intro ht
  obtain ⟨ht1, events, hqueue, hchained, hreplay⟩ := h ht
  obtain ⟨ht2, events', hqueue', hchained', hreplay'⟩ := h' ht1
  refine ⟨ht2, events ++ events', ?_, List.forall_mem_append.mpr ⟨hchained, hchained'⟩, ?_⟩
  · rw [hqueue', hqueue, List.append_assoc]
  · rw [replay_append, hreplay]
    exact hreplay'

/-- A step that makes no event keeps the blocks. -/
theorem follows_of_blocks (h : Tracked s → Tracked s' ∧ s'.blocks = s.blocks)
    (hqueue : s'.kvEventQueue = s.kvEventQueue) : Follows s s' := by
  intro ht
  obtain ⟨ht', hblocks⟩ := h ht
  exact ⟨ht', [], by rw [hqueue, List.append_nil], by simp, by rw [replay_nil, hblocks]⟩

/-! ### Writes that leave the tree as it is -/

theorem withCache_follows (hsize : c'.nodes.size = s.cache.nodes.size)
    (hpage : c'.pageSize = s.cache.pageSize) (hkey : ∀ n, (c'.node n).key = (s.cache.node n).key)
    (hparent : ∀ n, (c'.node n).parent = (s.cache.node n).parent)
    (hwf : ∀ live rp pv, WF s.cache live rp pv → WF c' live rp pv) :
    Follows s { s with cache := c' } := by
  refine follows_of_blocks (fun ht => ?_) rfl
  obtain ⟨live, rp, pv, h, hh⟩ := ht
  refine ⟨⟨live, rp, pv, hwf live rp pv h, hh.withCache hsize.ge hpage (fun _ hn => hn)
    (fun n _ => hkey n) fun n _ => hparent n⟩, ?_⟩
  unfold blocks
  rw [show ({ s with cache := c' } : EventCache H).cache.tree = s.cache.tree from
    h.tree_eq (hwf live rp pv h)]

theorem sameTree_follows (hs : SameTree s.cache c') : Follows s { s with cache := c' } :=
  withCache_follows hs.size hs.pageSize hs.key hs.parent fun _ _ _ h => h.sameTree hs

theorem touch_follows (s : EventCache H) (j : NodeId) {f : TreeNode → TreeNode}
    (hf : Bookkeeping f) : Follows s (s.onCache fun c => c.nodeMut j f) :=
  sameTree_follows (sameTree_nodeMut s.cache j hf)

theorem touch_ite_follows (b : Bool) (s : EventCache H) (j : NodeId) {f : TreeNode → TreeNode}
    (hf : Bookkeeping f) : Follows s (s.onCache fun c => if b then c.nodeMut j f else c) :=
  sameTree_follows (sameTree_ite b s.cache j hf)

/-! ### Cutting a node -/

theorem splitNode_follows (h : WF s.cache live rp pv) {ch : NodeId} (hch : ch ∈ live)
    (hr : ch ≠ rootNode) {l : Nat} (hl : 0 < l)
    (hlt : l < ((s.cache.node ch).key.symbols s.cache.pageSize).length) :
    Follows s (s.splitNode ch (s.cache.pageSize * l)).1 := by
  refine follows_of_blocks (fun ht => ?_) rfl
  obtain ⟨live0, rp0, pv0, h0, hh⟩ := ht
  obtain rfl := h.live_eq h0
  have hgrow := (splitNode_isSplit h hch hr (s.cache.pageSize * l)).splitOnly h hch hr hl hlt
  have hpages : l < (s.pagesOf ch).length := by
    unfold RadixKey.symbols at hlt
    rwa [List.length_map] at hlt
  have hvalue := hashValue_splitNode hh h hch hr l
  have hfresh : s.cache.nodes.size ∉ s.cache.tree := fun hmem =>
    Nat.lt_irrefl _ (h.bound _ (h.mem_tree.mp hmem))
  have hne : s.cache.nodes.size ≠ ch := Ne.symm (Nat.ne_of_lt (h.bound ch hch))
  refine ⟨⟨_, _, _, hgrow.wf, hh.splitNode h hch hr hl hpages⟩, ?_⟩
  unfold blocks
  have htree : (s.splitNode ch (s.cache.pageSize * l)).1.cache.tree =
      Insert.insert s.cache.nodes.size s.cache.tree := h.tree_insert hgrow.wf
  rw [htree]
  refine CellSum.total_split (h.mem_tree.mpr hch) hfresh (fun m hm hmc => ?_) ?_
  · have hmu : m ≠ s.cache.nodes.size := fun heq => hfresh (heq ▸ hm)
    rw [hvalue, Function.update_of_ne hmc, Function.update_of_ne hmu]
  · -- the two halves have the hashes that the node had
    rw [hvalue, Function.update_of_ne hne, Function.update_self, Function.update_self,
      hh.node ch hch hr]
    unfold announced
    rw [Option.getD_some, Option.getD_some, Option.getD_some, Multiset.coe_add, ← List.map_append,
      List.take_append_drop]

theorem cut_kid_follows (h : WF s.cache live rp pv) {n ch : NodeId} {key : RadixKey}
    (hn : n ∈ live) (hpos : key.length > 0)
    (hkid : s.cache.heap.kid n (getChildKey key s.cache.pageSize) = some ch)
    (hcut : keyMatch s.cache.pageSize (s.cache.node ch).key key < (s.cache.node ch).key.length) :
    Follows s (s.splitNode ch (keyMatch s.cache.pageSize (s.cache.node ch).key key)).1 := by
  obtain ⟨l, hl, hlt, hmatch⟩ := keyMatch_kid_mul h hn hpos hkid hcut
  rw [hmatch]
  exact splitNode_follows h (h.labelled.kidLive hn hkid) (h.labelled.kid_ne_root hn hkid) hl hlt

/-! ### A new leaf, and a leaf that goes -/

theorem map_tokens_symbols {ps : Nat} (hps : 0 < ps) (key : RadixKey) :
    (key.symbols ps).map ChildKey.tokens = pages ps key.tokenIds := by
  unfold RadixKey.symbols
  rw [List.map_map]
  exact (List.map_congr_left fun _ h => tokens_pageSymbol hps key.extraKey h).trans (List.map_id _)

/-- The last hash of a node is that of all the pages of its path. -/
theorem lastHash_path (hh : Hashed s live) (h : WF s.cache live rp pv) : ∀ n ∈ live,
    s.lastHash n = HashChain.last H.getHashStr none ((rp n).map ChildKey.tokens) := by
  refine h.labelled.up_induction ?_ fun n hn hr ih => ?_
  · have hroot : rp rootNode = [] := h.labelled.rootPath
    rw [heap_root, hh.lastHash_root, hroot]
    rfl
  · rw [heap_parent] at ih
    rw [h.labelled.path_eq hn hr, List.map_append, HashChain.last_append, heap_parent, ← ih,
      heap_edge, map_tokens_symbols h.pageSize_pos]
    exact hh.lastHash_eq h hn hr

/-- The last hash of a node is among the blocks. -/
theorem mem_blocks_lastHash (h : WF s.cache live rp pv) (hn : n ∈ live)
    {hash : H.Hash} (hlast : s.lastHash n = some hash) : H.hashStrToInt64 hash ∈ s.blocks := by
  unfold lastHash at hlast
  obtain ⟨hashes, hvalue, hlast⟩ := Option.bind_eq_some_iff.mp hlast
  unfold blocks CellSum.total
  refine Multiset.mem_sum.mpr ⟨n, h.mem_tree.mpr hn, ?_⟩
  rw [hvalue]
  exact Multiset.mem_coe.mpr (List.mem_map_of_mem (List.mem_of_getLast? hlast))

/-- The pages an event tells of are the blocks of the node. -/
theorem shortHashes_zip (h : WF s.cache live rp pv) (n : NodeId) :
    (shortHashes (((s.cache.node n).key.chunks s.cache.pageSize).zip (s.chained n)) :
      Multiset Int) = announced (some (s.chained n)) := by
  have hlen : (s.chained n).length ≤ ((s.cache.node n).key.chunks s.cache.pageSize).length := by
    rw [chained, HashChain.length_chain, RadixKey.chunks_eq_pages h.pageSize_pos]
    exact le_refl _
  have hsnd := List.map_snd_zip hlen
  unfold shortHashes announced
  rw [Option.getD_some]
  conv_rhs => rw [← hsnd, List.map_map]
  rfl

/-- **A new leaf is announced** as it is put in. -/
theorem addLeaf_follows (h : WF s.cache live rp pv) {w : InsertWalk} (hw : w.node ∈ live)
    (priority : Int)
    (h' : WF (s.cache.addLeaf w priority) (Insert.insert s.cache.nodes.size live) rp' pv') :
    Follows s (s.addLeaf w priority) := by
  intro ht
  obtain ⟨live0, rp0, pv0, h0, hh⟩ := ht
  obtain rfl := h.live_eq h0
  set u := s.cache.nodes.size with hu
  set s1 : EventCache H := s.onCache fun c => c.addLeaf w priority with hs1
  have hlink := linkLeaf_isLinked h hw priority
  obtain ⟨hsize, hparentNew, hparent, -, -⟩ := addLeaf_links s.cache w priority
  have hfresh : u ∉ live := fun hl => Nat.lt_irrefl _ (h.bound _ hl)
  have hparentNew : (s1.cache.node u).parent = w.node := hparentNew
  have hparent : ∀ m ∈ live, (s1.cache.node m).parent = (s.cache.node m).parent :=
    fun m hm => hparent m (h.bound m hm)
  have hkey : ∀ m ∈ live, (s1.cache.node m).key = (s.cache.node m).key := by
    intro m hm
    show ((s.cache.addLeaf w priority).node m).key = _
    unfold RadixCache.addLeaf
    rw [node_updateLeafStatus, node_updateLeafStatus]
    exact (hlink.old_fields hm).1
  have hpage : s1.cache.pageSize = s.cache.pageSize := by
    show (s.cache.addLeaf w priority).pageSize = _
    unfold RadixCache.addLeaf
    rw [pageSize_updateLeafStatus, pageSize_updateLeafStatus]
    exact hlink.pageSize
  have hh1 : Hashed s1 live := hh.withCache (by rw [hsize]; exact Nat.le_succ _) hpage
    (fun _ hm => hm) hkey hparent
  have hup : ∀ m ∈ live, m ≠ rootNode → (s1.cache.node m).parent ∈ live := by
    intro m hm hr
    rw [hparent m hm]
    exact h.labelled.parent_live hm hr
  have hp : (s1.cache.node u).parent ∈ live := by rw [hparentNew]; exact hw
  have hnone : s1.hashValue u = none := hh.fresh u le_rfl
  have heq : s.addLeaf w priority = s1.recordStoreEvent u := rfl
  have htracked := hh1.recordStoreEvent h' hfresh hup hp hnone
  rw [heq]
  refine ⟨⟨_, rp', pv', ?_, htracked⟩, ?_⟩
  · rw [recordStoreEvent_eq hh1 h' hp (Or.inr hp) hnone]
    exact h'
  · rw [recordStoreEvent_eq hh1 h' hp (Or.inr hp) hnone]
    refine ⟨_, rfl, ?_, ?_⟩
    · have habove := lastHash_path hh h _ hw
      have hpages : (s1.cache.node u).key.chunks s1.cache.pageSize = s1.pagesOf u :=
        RadixKey.chunks_eq_pages h'.pageSize_pos _
      unfold chained
      rw [hparentNew, hpages, show s1.lastHash w.node = s.lastHash w.node from rfl, habove]
      exact chained_storedEvents _ _
    rw [replay_storedEvents, shortHashes_zip h' u]
    · have htree : s1.cache.tree = Insert.insert u s.cache.tree := h.tree_insert h'
      have hnew : u ∉ s.cache.tree := mt h.mem_tree.mp hfresh
      have hold : ∀ m ∈ s.cache.tree,
          announced (Function.update s.hashValue u (some (s1.chained u)) m) =
            announced (s.hashValue m) := by
        intro m hm
        have hmu : m ≠ u := fun heq => hnew (heq ▸ hm)
        rw [Function.update_of_ne hmu]
      have hsum := CellSum.total_insert hnew hold
      rw [Function.update_self] at hsum
      unfold blocks
      rw [htree]
      exact congrArg some hsum.symm
    · -- what the first page is chained to was announced with the node above
      intro b hb
      obtain ⟨hash, hlast, rfl⟩ := Option.map_eq_some_iff.mp hb
      rw [hparentNew] at hlast
      exact mem_blocks_lastHash h hw hlast

/-- **A leaf that goes is taken back**, page by page. -/
theorem deleteLeaf_follows (h : WF s.cache live rp pv) (hn : n ∈ live) (hr : n ≠ rootNode)
    (hkids : (s.cache.node n).children.entries = []) :
    Follows s ((s.onCache fun c => c.deleteLeaf n).recordRemoveEvent n) := by
  intro ht
  obtain ⟨live0, rp0, pv0, h0, hh⟩ := ht
  obtain rfl := h.live_eq h0
  set s1 : EventCache H := s.onCache fun c => c.deleteLeaf n with hs1
  have h' := deleteLeaf_wf h hn hr hkids
  have hlater := later_deleteLeaf s.cache n
  have hkey : ∀ m, (s1.cache.node m).key = (s.cache.node m).key :=
    proj_deleteLeaf (·.key) (fun _ _ => rfl) s.cache n
  have hparent : ∀ m, (s1.cache.node m).parent = (s.cache.node m).parent :=
    proj_deleteLeaf (·.parent) (fun _ _ => rfl) s.cache n
  have hh1 : Hashed s1 live := hh.withCache hlater.size hlater.pageSize (fun _ hm => hm)
    (fun m _ => hkey m) fun m _ => hparent m
  rw [recordRemoveEvent_eq hh1 hn hr]
  refine ⟨⟨_, rp, pv, h', ?_⟩, _, rfl, ?_, ?_⟩
  · exact ⟨hh1.enabled, hh1.root, fun m hm hr => hh1.node m hm.1 hr, hh1.fresh⟩
  · intro e he
    obtain ⟨page, -, rfl⟩ := List.mem_map.mp he
    exact trivial
  · have htree : s1.cache.tree = s.cache.tree.erase n := h.tree_erase h'
    have hzip := shortHashes_zip h' n (s := s1)
    have hsum : announced (s.hashValue n) + CellSum.total announced s.hashValue s1.cache.tree =
        s.blocks := by
      rw [htree]
      exact CellSum.total_erase (h.mem_tree.mpr hn) fun _ _ _ => rfl
    have hvalue : s.hashValue n = some (s1.chained n) := hh1.node n hn hr
    rw [← hsum, hvalue, ← hzip]
    exact replay_removedEvents _ _

/-! ### Which blocks the tree has -/

/-- Where a path that is held ends: inside the edge of one node. -/
theorem exists_edge (h : WF s.cache live rp pv) {q : List ChildKey} (hq : q ≠ []) : ∀ n ∈ live,
    q <+: rp n → ∃ m ∈ live, m ≠ rootNode ∧ ∃ pre, pre ≠ [] ∧
      pre <+: (s.cache.node m).key.symbols s.cache.pageSize ∧
      q = rp (s.cache.node m).parent ++ pre := by
  refine h.labelled.up_induction (fun hpre => ?_) fun n hn hr ih hpre => ?_
  · have hroot : rp rootNode = [] := h.labelled.rootPath
    rw [heap_root, hroot] at hpre
    exact absurd (List.prefix_nil.mp hpre) hq
  · rw [h.labelled.path_eq hn hr, heap_parent, heap_edge] at hpre
    rw [heap_parent] at ih
    rcases Nat.le_total q.length (rp (s.cache.node n).parent).length with hle | hle
    · exact ih (List.prefix_of_prefix_length_le hpre (List.prefix_append _ _) hle)
    · obtain ⟨pre, rfl⟩ := List.prefix_of_prefix_length_le (List.prefix_append _ _) hpre hle
      by_cases hnil : pre = []
      · subst hnil
        exact ih (by rw [List.append_nil])
      · exact ⟨n, hn, hr, pre, hnil, (List.prefix_append_right_inj _).mp hpre, rfl⟩

/-- The blocks of a node are those of the pages that end inside its edge. -/
theorem mem_announced_iff (hh : Hashed s live) (h : WF s.cache live rp pv) (hn : n ∈ live)
    (hr : n ≠ rootNode) {b : Int} : b ∈ announced (s.hashValue n) ↔
      ∃ pre, pre ≠ [] ∧ pre <+: (s.cache.node n).key.symbols s.cache.pageSize ∧
        H.blockHash ((rp (s.cache.node n).parent ++ pre).map ChildKey.tokens) = some b := by
  have hpages : s.pagesOf n =
      ((s.cache.node n).key.symbols s.cache.pageSize).map ChildKey.tokens :=
    (map_tokens_symbols h.pageSize_pos _).symm
  have habove := lastHash_path hh h _ (h.labelled.parent_live hn hr)
  rw [heap_parent] at habove
  have hlast : ∀ pre : List ChildKey, H.blockHash ((rp (s.cache.node n).parent ++ pre).map
      ChildKey.tokens) = (HashChain.last H.getHashStr (s.lastHash (s.cache.node n).parent)
        (pre.map ChildKey.tokens)).map H.hashStrToInt64 := by
    intro pre
    rw [PageHash.blockHash, List.map_append, HashChain.last_append, ← habove]
  rw [hh.node n hn hr]
  unfold announced chained
  rw [Option.getD_some, Multiset.mem_coe, List.mem_map, hpages]
  constructor
  · rintro ⟨hash, hmem, rfl⟩
    obtain ⟨pages, hne, hpre, heq⟩ := (HashChain.mem_chain_iff H.getHashStr _).mp hmem
    obtain ⟨pre, hedge, rfl⟩ := List.prefix_map_iff.mp hpre
    refine ⟨pre, fun hnil => hne (by rw [hnil, List.map_nil]), hedge, ?_⟩
    rw [hlast, heq]
    rfl
  · rintro ⟨pre, hne, hpre, heq⟩
    rw [hlast] at heq
    obtain ⟨hash, heq, hb⟩ := Option.map_eq_some_iff.mp heq
    refine ⟨hash, (HashChain.mem_chain_iff H.getHashStr _).mpr ⟨pre.map ChildKey.tokens, ?_,
      hpre.map _, heq⟩, hb⟩
    rwa [Ne, List.map_eq_nil_iff]

/-- **A block is there if and only if the tree holds pages whose hash it is**, in whatever
namespace. -/
theorem mem_blocks_iff (hh : Hashed s live) (h : WF s.cache live rp pv) {b : Int} :
    b ∈ s.blocks ↔ ∃ q, s.cache.Holds q ∧ H.blockHash (q.map ChildKey.tokens) = some b := by
  unfold blocks CellSum.total
  rw [Multiset.mem_sum]
  constructor
  · rintro ⟨n, hn, hb⟩
    have hn := h.mem_tree.mp hn
    by_cases hr : n = rootNode
    · rw [hr, hh.root] at hb
      simp [announced] at hb
    · obtain ⟨pre, -, hpre, heq⟩ := (mem_announced_iff hh h hn hr).mp hb
      refine ⟨_, h.holds_iff.mpr ⟨n, hn, ?_⟩, heq⟩
      rw [h.labelled.path_eq hn hr]
      exact (List.prefix_append_right_inj _).mpr hpre
  · rintro ⟨q, hq, heq⟩
    obtain ⟨n, hn, hpre⟩ := h.holds_iff.mp hq
    have hne : q ≠ [] := by
      rintro rfl
      simp [PageHash.blockHash, HashChain.last] at heq
    obtain ⟨m, hm, hr, pre, hpne, hedge, rfl⟩ := exists_edge h hne n hn hpre
    exact ⟨m, h.mem_tree.mpr hm, (mem_announced_iff hh h hm hr).mpr ⟨pre, hpne, hedge, heq⟩⟩

end EventCache

end Peek
