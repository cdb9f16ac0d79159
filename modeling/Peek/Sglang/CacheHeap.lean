/-
Reading the radix cache as a radix tree over page symbols.

The cache compares keys page by page and files a child under the first page of its
key, together with the key's namespace.  So its alphabet is `ChildKey`, a whole page
under a namespace, and `symbols` spells a key in it.  In that alphabet the walks,
splits and deletions are those of `Peek.Radix`, for every page size at once, and two
namespaces have no symbol in common.

`WF` is the invariant: besides the labelling with root paths it gives every live node
the indices cached along its path.
-/
import Peek.Sglang.RadixCache
import Peek.Base.Pages
import Peek.Radix.Update
import Mathlib.Data.Set.Insert

namespace Peek

open Radix

/-! ### Keys as symbols -/

/-- One page of a key, as the dictionary key it makes. -/
def pageSymbol (extraKey : Option ExtraKey) (ps : Nat) (pg : List Token) : ChildKey :=
  { extraKey := extraKey, plain := if ps = 1 then .token (pg.headD 0) else .page pg }

namespace RadixKey

/-- A key, page by page. -/
def symbols (ps : Nat) (key : RadixKey) : List ChildKey :=
  (pages ps key.tokenIds).map (pageSymbol key.extraKey ps)

@[simp] theorem tokenIds_take (key : RadixKey) (n : Nat) :
    (key.take n).tokenIds = key.tokenIds.take n := rfl

@[simp] theorem tokenIds_drop (key : RadixKey) (n : Nat) :
    (key.drop n).tokenIds = key.tokenIds.drop n := rfl

@[simp] theorem extraKey_take (key : RadixKey) (n : Nat) : (key.take n).extraKey = key.extraKey :=
  rfl

@[simp] theorem extraKey_drop (key : RadixKey) (n : Nat) : (key.drop n).extraKey = key.extraKey :=
  rfl

/-- With pages of one token, a key is spelled token by token. -/
theorem symbols_one (key : RadixKey) :
    key.symbols 1 = key.tokenIds.map fun t => ⟨key.extraKey, .token t⟩ := by
  unfold symbols
  rw [pages_one, List.map_map]
  rfl

theorem length_symbols_one (key : RadixKey) : (key.symbols 1).length = key.length := by
  rw [symbols_one, List.length_map]
  rfl

variable {ps : Nat} (hps : 0 < ps)
include hps

theorem symbols_drop (key : RadixKey) (l : Nat) :
    (key.drop (ps * l)).symbols ps = (key.symbols ps).drop l := by
  unfold symbols
  rw [tokenIds_drop, extraKey_drop, pages_drop hps, List.map_drop]

theorem symbols_take (key : RadixKey) (l : Nat) :
    (key.take (ps * l)).symbols ps = (key.symbols ps).take l := by
  unfold symbols
  rw [tokenIds_take, extraKey_take, pages_take hps, List.map_take]

theorem symbols_eq_nil_iff {key : RadixKey} : key.symbols ps = [] ↔ key.tokenIds = [] := by
  unfold symbols
  rw [List.map_eq_nil_iff, pages_eq_nil_iff hps]

theorem lt_length_symbols_iff {key : RadixKey} {l : Nat} :
    l < (key.symbols ps).length ↔ ps * l < key.length := by
  unfold symbols
  rw [List.length_map, lt_length_pages_iff hps]
  rfl

theorem length_symbols_le (key : RadixKey) : (key.symbols ps).length ≤ key.length := by
  by_contra hc
  have hlt := (lt_length_symbols_iff hps).mp (Nat.lt_of_not_le hc)
  exact absurd (Nat.le_mul_of_pos_left key.length hps) (Nat.not_le_of_lt hlt)

/-- A walk that has used up its key has no symbol left. -/
theorem no_symbol_left {key : RadixKey} {S : List ChildKey} {k : Nat}
    (hrest : key.symbols ps = S.drop k) (hpos : ¬ key.length > 0) : S[k]? = none := by
  have hnil : key.tokenIds = [] := List.length_eq_zero_iff.mp (Nat.eq_zero_of_not_pos hpos)
  rw [← List.head?_drop, ← hrest, (symbols_eq_nil_iff hps).mpr hnil]
  rfl

/-- The child key of a key is its first symbol. -/
theorem head_symbols {key : RadixKey} (h : key.tokenIds ≠ []) :
    (key.symbols ps).head? = some (getChildKey key ps) := by
  unfold symbols
  rw [pages_eq_cons hps h, List.map_cons, List.head?_cons, Option.some.injEq]
  unfold pageSymbol getChildKey
  by_cases h1 : ps = 1
  · subst h1
    cases ht : key.tokenIds with
    | nil => exact absurd ht h
    | cons t ts => simp
  · simp only [if_neg h1]

/-- A symbol says which page it is. -/
theorem pageSymbol_injective {e : Option ExtraKey} {ts us pg pg' : List Token}
    (h : pg ∈ pages ps ts) (h' : pg' ∈ pages ps us)
    (heq : pageSymbol e ps pg = pageSymbol e ps pg') : pg = pg' := by
  unfold pageSymbol at heq
  by_cases h1 : ps = 1
  · subst h1
    rw [pages_one, List.mem_map] at h h'
    obtain ⟨t, -, rfl⟩ := h
    obtain ⟨u, -, rfl⟩ := h'
    simpa using heq
  · simpa [if_neg h1] using heq

/-- Comparing symbols is comparing pages. -/
theorem lcpLen_symbols {key0 key1 : RadixKey} (he : key0.extraKey = key1.extraKey) :
    lcpLen (key0.symbols ps) (key1.symbols ps) =
      lcpLen (pages ps key0.tokenIds) (pages ps key1.tokenIds) := by
  unfold symbols
  rw [he]
  exact lcpLen_map _ _ fun _ ha _ hb hab => pageSymbol_injective hps ha hb hab

omit hps in
/-- All symbols of a key carry its namespace. -/
theorem extraKey_of_mem_symbols {key : RadixKey} {a : ChildKey} (h : a ∈ key.symbols ps) :
    a.extraKey = key.extraKey := by
  unfold symbols at h
  obtain ⟨pg, -, rfl⟩ := List.mem_map.mp h
  rfl

end RadixKey

/-- The tokens a symbol spells. -/
def ChildKey.tokens (a : ChildKey) : List Token :=
  match a.plain with
  | .token t => [t]
  | .page ts => ts

theorem tokens_pageSymbol {ps : Nat} (hps : 0 < ps) (e : Option ExtraKey) {ts pg : List Token}
    (h : pg ∈ pages ps ts) : (pageSymbol e ps pg).tokens = pg := by
  unfold pageSymbol ChildKey.tokens
  by_cases h1 : ps = 1
  · subst h1
    obtain ⟨hne, hle⟩ := mem_pages_length hps h
    have := List.length_pos_iff.mpr hne
    obtain ⟨t, rfl⟩ := List.length_eq_one_iff.mp (by omega : pg.length = 1)
    rfl
  · rw [if_neg h1]

namespace RadixKey

/-- The symbols of a key spell the key. -/
theorem flatMap_tokens_symbols {ps : Nat} (hps : 0 < ps) (key : RadixKey) :
    (key.symbols ps).flatMap ChildKey.tokens = key.tokenIds := by
  unfold symbols
  have hspell : ∀ pg ∈ pages ps key.tokenIds,
      (ChildKey.tokens ∘ pageSymbol key.extraKey ps) pg = id pg :=
    fun _ h => tokens_pageSymbol hps key.extraKey h
  rw [List.flatMap_def, List.map_map, List.map_congr_left hspell, List.map_id, flatten_pages hps]

end RadixKey

theorem keyMatchPagedLoop_eq {ps : Nat} (hps : 0 < ps) (k0 k1 : List Token) :
    ∀ (fuel i : Nat), min k0.length k1.length ≤ i + fuel → keyMatchPagedLoop k0 k1 ps fuel i =
      i + ps * lcpLen (pages ps (k0.drop i)) (pages ps (k1.drop i)) := by
  have hend : ∀ i, min k0.length k1.length ≤ i →
      lcpLen (pages ps (k0.drop i)) (pages ps (k1.drop i)) = 0 := by
    intro i hi
    by_cases h : k0.length ≤ i
    · rw [List.drop_eq_nil_of_le h]; simp
    · have h1 : k1.length ≤ i := by omega
      rw [List.drop_eq_nil_of_le h1]; simp
  intro fuel
  induction fuel with
  | zero =>
      intro i hi
      rw [hend i (by omega)]
      rfl
  | succ fuel ih =>
      intro i hi
      unfold keyMatchPagedLoop
      by_cases hlt : i < min k0.length k1.length
      · rw [if_pos hlt]
        have h0 : k0.drop i ≠ [] := by rw [Ne, List.drop_eq_nil_iff]; omega
        have h1 : k1.drop i ≠ [] := by rw [Ne, List.drop_eq_nil_iff]; omega
        rw [pages_eq_cons hps h0, pages_eq_cons hps h1, lcpLen_cons]
        by_cases hpg : (k0.drop i).take ps = (k1.drop i).take ps
        · rw [if_neg (by simpa using hpg), if_pos hpg, ih (i + ps) (by omega), List.drop_drop,
            List.drop_drop, Nat.mul_add]
          omega
        · rw [if_pos hpg, if_neg hpg]; rfl
      · rw [if_neg hlt, hend i (by omega)]; rfl

/-- **The key match counts whole common pages, in tokens.** -/
theorem keyMatch_eq {ps : Nat} (hps : 0 < ps) {key0 key1 : RadixKey}
    (he : key0.extraKey = key1.extraKey) :
    keyMatch ps key0 key1 = ps * lcpLen (key0.symbols ps) (key1.symbols ps) := by
  rw [RadixKey.lcpLen_symbols hps he]
  unfold keyMatch
  by_cases h1 : ps = 1
  · subst h1
    have hinj : ∀ a ∈ key0.tokenIds, ∀ b ∈ key1.tokenIds, [a] = [b] → a = b := by simp
    rw [if_pos rfl, pages_one, pages_one, lcpLen_map _ _ hinj, Nat.one_mul]
    exact length_takeWhile_zip _ _
  · rw [if_neg h1]
    unfold keyMatchPaged
    rw [keyMatchPagedLoop_eq hps _ _ _ _ (by simp [RadixKey.length]), Nat.zero_add, List.drop_zero,
      List.drop_zero]

namespace RadixCache

/-! ### The heap -/

/-- The links of the cache, edges spelled in symbols. -/
def heap (c : RadixCache) : Heap NodeId ChildKey where
  root := rootNode
  edge n := (c.node n).key.symbols c.pageSize
  parent n := (c.node n).parent
  kid n a := (c.node n).children.lookup a

@[simp] theorem heap_root (c : RadixCache) : c.heap.root = rootNode := rfl
@[simp] theorem heap_edge (c : RadixCache) (n : NodeId) :
    c.heap.edge n = (c.node n).key.symbols c.pageSize := rfl
@[simp] theorem heap_parent (c : RadixCache) (n : NodeId) : c.heap.parent n = (c.node n).parent :=
  rfl
@[simp] theorem heap_kid (c : RadixCache) (n : NodeId) (a : ChildKey) :
    c.heap.kid n a = (c.node n).children.lookup a := rfl

/-! ### Writing a node -/

@[simp] theorem size_nodeMut (c : RadixCache) (j : NodeId) (f : TreeNode → TreeNode) :
    (c.nodeMut j f).nodes.size = c.nodes.size := by simp [nodeMut]

@[simp] theorem pageSize_nodeMut (c : RadixCache) (j : NodeId) (f : TreeNode → TreeNode) :
    (c.nodeMut j f).pageSize = c.pageSize := rfl

@[simp] theorem disable_nodeMut (c : RadixCache) (j : NodeId) (f : TreeNode → TreeNode) :
    (c.nodeMut j f).disable = c.disable := rfl

@[simp] theorem leaves_nodeMut (c : RadixCache) (j : NodeId) (f : TreeNode → TreeNode) :
    (c.nodeMut j f).evictableLeaves = c.evictableLeaves := rfl

@[simp] theorem size_tick (c : RadixCache) (k : Nat) : (c.tick k).nodes.size = c.nodes.size := rfl

@[simp] theorem size_push (c : RadixCache) (x : TreeNode) :
    (c.push x).nodes.size = c.nodes.size + 1 := by simp [push]

@[simp] theorem node_tick (c : RadixCache) (k : Nat) (n : NodeId) : (c.tick k).node n = c.node n :=
  rfl

theorem node_nodeMut_ne (c : RadixCache) {i j : NodeId} (f : TreeNode → TreeNode) (h : i ≠ j) :
    (c.nodeMut j f).node i = c.node i := by
  simp [node, nodeMut, Array.getD_eq_getD_getElem?, Array.getElem?_modify, Ne.symm h]

theorem node_nodeMut_self (c : RadixCache) {j : NodeId} (f : TreeNode → TreeNode)
    (h : j < c.nodes.size) : (c.nodeMut j f).node j = f (c.node j) := by
  simp [node, nodeMut, Array.getD_eq_getD_getElem?, Array.getElem_modify, h]

/-- A write that leaves a field alone leaves it alone on every node. -/
theorem proj_nodeMut {β : Type} (p : TreeNode → β) (c : RadixCache) (j : NodeId)
    (f : TreeNode → TreeNode) (hf : ∀ n, p (f n) = p n) (i : NodeId) :
    p ((c.nodeMut j f).node i) = p (c.node i) := by
  by_cases hij : i = j
  · subst hij
    by_cases hlt : i < c.nodes.size
    · rw [node_nodeMut_self c f hlt, hf]
    · simp [node, nodeMut, Array.getD_eq_getD_getElem?, hlt]
  · rw [node_nodeMut_ne c f hij]

theorem node_push_ne (c : RadixCache) (x : TreeNode) {n : NodeId} (h : n < c.nodes.size) :
    (c.push x).node n = c.node n := by
  simp [node, push, Array.getD_eq_getD_getElem?, Array.getElem?_push, Nat.ne_of_lt h]

theorem node_push_self (c : RadixCache) (x : TreeNode) : (c.push x).node c.nodes.size = x := by
  simp [node, push, Array.getD_eq_getD_getElem?]

/-- The cache with a new object, which takes two readings of the clock. -/
def pushNode (c : RadixCache) (x : TreeNode) : RadixCache := (c.push x).tick 2

theorem size_pushNode (c : RadixCache) (x : TreeNode) :
    (c.pushNode x).nodes.size = c.nodes.size + 1 :=
  (size_tick _ _).trans (size_push _ _)

theorem node_pushNode (c : RadixCache) (x : TreeNode) :
    (c.pushNode x).node c.nodes.size = x ∧
      ∀ n < c.nodes.size, (c.pushNode x).node n = c.node n :=
  ⟨(node_tick _ _ _).trans (node_push_self c x),
    fun _ hn => (node_tick _ _ _).trans (node_push_ne c x hn)⟩

/-! ### The invariant -/

/--
`rp` gives every live node its root path and `pv` the indices cached along it.  What
may be evicted are leaves.
-/
structure WF (c : RadixCache) (live : Set NodeId) (rp : NodeId → List ChildKey)
    (pv : NodeId → List Index) : Prop where
  pageSize_pos : 0 < c.pageSize
  labelled : Labelled c.heap live rp
  bound : ∀ n ∈ live, n < c.nodes.size
  rootValue : pv rootNode = []
  kidValue : ∀ {n a k}, n ∈ live → c.heap.kid n a = some k → pv k = pv n ++ (c.node k).value
  valueLength : ∀ n ∈ live, (c.node n).value.length = (c.node n).key.length
  rootLock : 0 < (c.node rootNode).lockRef
  leaves : ∀ n ∈ c.evictableLeaves, n ∈ live ∧ n ≠ rootNode ∧ (c.node n).children.entries = []
  leavesNodup : c.evictableLeaves.Nodup

variable {c c' : RadixCache} {live : Set NodeId} {rp : NodeId → List ChildKey}
  {pv : NodeId → List Index}

namespace WF

/-- **A child found under a child key has that key's namespace**, so comparing them is in order. -/
theorem extraKey_kid (h : WF c live rp pv) {n k : NodeId} {a : ChildKey} (hn : n ∈ live)
    (hk : c.heap.kid n a = some k) : (c.node k).key.extraKey = a.extraKey := by
  have hhead := h.labelled.kidHead hn hk
  rw [heap_edge] at hhead
  exact (RadixKey.extraKey_of_mem_symbols (List.mem_of_mem_head? hhead)).symm

/-- A child sits under its own child key. -/
theorem childKey_kid (h : WF c live rp pv) {n k : NodeId} {a : ChildKey} (hn : n ∈ live)
    (hk : c.heap.kid n a = some k) : getChildKey (c.node k).key c.pageSize = a := by
  have hhead := h.labelled.kidHead hn hk
  have hne : (c.node k).key.tokenIds ≠ [] := by
    intro hnil
    rw [heap_edge, (RadixKey.symbols_eq_nil_iff h.pageSize_pos).mpr hnil] at hhead
    simp at hhead
  rw [heap_edge, RadixKey.head_symbols h.pageSize_pos hne] at hhead
  simpa using hhead

end WF

/-! ### Later caches -/

/-- Objects are never forgotten, and the page size and the switch never change. -/
structure Later (c c' : RadixCache) : Prop where
  size : c.nodes.size ≤ c'.nodes.size
  pageSize : c'.pageSize = c.pageSize
  disable : c'.disable = c.disable

theorem Later.refl (c : RadixCache) : Later c c :=
  ⟨Nat.le_refl _, rfl, rfl⟩

theorem Later.trans {c1 c2 c3 : RadixCache} (h : Later c1 c2) (h' : Later c2 c3) : Later c1 c3 :=
  ⟨h.size.trans h'.size, h'.pageSize.trans h.pageSize, h'.disable.trans h.disable⟩

theorem later_nodeMut (c : RadixCache) (j : NodeId) (f : TreeNode → TreeNode) :
    Later c (c.nodeMut j f) :=
  ⟨(size_nodeMut c j f).ge, rfl, rfl⟩

/-! ### Writes that touch no link -/

/-- Same links, values, locks at the root, leaves: all the invariant looks at. -/
structure SameTree (c c' : RadixCache) : Prop where
  pageSize : c'.pageSize = c.pageSize
  size : c'.nodes.size = c.nodes.size
  key : ∀ n, (c'.node n).key = (c.node n).key
  parent : ∀ n, (c'.node n).parent = (c.node n).parent
  children : ∀ n, (c'.node n).children = (c.node n).children
  value : ∀ n, (c'.node n).value = (c.node n).value
  rootLock : (c'.node rootNode).lockRef = (c.node rootNode).lockRef
  leaves : c'.evictableLeaves = c.evictableLeaves

theorem SameTree.refl (c : RadixCache) : SameTree c c :=
  ⟨rfl, rfl, fun _ => rfl, fun _ => rfl, fun _ => rfl, fun _ => rfl, rfl, rfl⟩

theorem SameTree.trans {c1 c2 c3 : RadixCache} (h : SameTree c1 c2) (h' : SameTree c2 c3) :
    SameTree c1 c3 :=
  ⟨h'.pageSize.trans h.pageSize, h'.size.trans h.size, fun n => (h'.key n).trans (h.key n),
    fun n => (h'.parent n).trans (h.parent n), fun n => (h'.children n).trans (h.children n),
    fun n => (h'.value n).trans (h.value n), h'.rootLock.trans h.rootLock,
    h'.leaves.trans h.leaves⟩

theorem SameTree.heap_eq (h : SameTree c c') : c'.heap = c.heap := by
  simp only [heap, h.pageSize, h.key, h.parent, h.children]

/-- A write to the bookkeeping fields, which the invariant does not look at. -/
structure Bookkeeping (f : TreeNode → TreeNode) : Prop where
  key : ∀ n, (f n).key = n.key
  parent : ∀ n, (f n).parent = n.parent
  children : ∀ n, (f n).children = n.children
  value : ∀ n, (f n).value = n.value
  lockRef : ∀ n, (f n).lockRef = n.lockRef

theorem bookkeeping_accessTime (t : Nat) : Bookkeeping fun n => { n with lastAccessTime := t } :=
  ⟨fun _ => rfl, fun _ => rfl, fun _ => rfl, fun _ => rfl, fun _ => rfl⟩

theorem bookkeeping_hitCount : Bookkeeping fun n => { n with hitCount := n.hitCount + 1 } :=
  ⟨fun _ => rfl, fun _ => rfl, fun _ => rfl, fun _ => rfl, fun _ => rfl⟩

theorem bookkeeping_priority (p : Int) :
    Bookkeeping fun n => { n with priority := max n.priority p } :=
  ⟨fun _ => rfl, fun _ => rfl, fun _ => rfl, fun _ => rfl, fun _ => rfl⟩

theorem bookkeeping_queueRef (h : Nat → Nat) :
    Bookkeeping fun n => { n with queueRefCount := h n.queueRefCount } :=
  ⟨fun _ => rfl, fun _ => rfl, fun _ => rfl, fun _ => rfl, fun _ => rfl⟩

theorem Bookkeeping.comp {f g : TreeNode → TreeNode} (hf : Bookkeeping f) (hg : Bookkeeping g) :
    Bookkeeping fun n => g (f n) where
  key n := (hg.key _).trans (hf.key n)
  parent n := (hg.parent _).trans (hf.parent n)
  children n := (hg.children _).trans (hf.children n)
  value n := (hg.value _).trans (hf.value n)
  lockRef n := (hg.lockRef _).trans (hf.lockRef n)

theorem sameTree_nodeMut (c : RadixCache) (j : NodeId) {f : TreeNode → TreeNode}
    (hf : Bookkeeping f) : SameTree c (c.nodeMut j f) :=
  ⟨rfl, size_nodeMut c j f, proj_nodeMut (·.key) c j f hf.key,
    proj_nodeMut (·.parent) c j f hf.parent, proj_nodeMut (·.children) c j f hf.children,
    proj_nodeMut (·.value) c j f hf.value, proj_nodeMut (·.lockRef) c j f hf.lockRef rootNode, rfl⟩

theorem sameTree_tick (c : RadixCache) (k : Nat) : SameTree c (c.tick k) :=
  ⟨rfl, rfl, fun _ => rfl, fun _ => rfl, fun _ => rfl, fun _ => rfl, rfl, rfl⟩

theorem WF.sameTree (h : WF c live rp pv) (hs : SameTree c c') : WF c' live rp pv where
  pageSize_pos := by rw [hs.pageSize]; exact h.pageSize_pos
  labelled := by rw [hs.heap_eq]; exact h.labelled
  bound n hn := by rw [hs.size]; exact h.bound n hn
  rootValue := h.rootValue
  kidValue hn hk := by
    rw [hs.heap_eq] at hk
    rw [hs.value]
    exact h.kidValue hn hk
  valueLength n hn := by rw [hs.value, hs.key]; exact h.valueLength n hn
  rootLock := by rw [hs.rootLock]; exact h.rootLock
  leaves n hn := by
    obtain ⟨hl, hr, hk⟩ := h.leaves n (hs.leaves ▸ hn)
    exact ⟨hl, hr, by rw [hs.children]; exact hk⟩
  leavesNodup := by rw [hs.leaves]; exact h.leavesNodup

/-! ### The new cache -/

theorem node_new (pageSize : Nat) (disable : Bool) (n : NodeId) :
    ((new pageSize disable).node n).children = ∅ ∧
      ((new pageSize disable).node n).key = ⟨[], none⟩ ∧
      ((new pageSize disable).node n).value = [] := by
  cases n <;> exact ⟨rfl, rfl, rfl⟩

theorem new_wf {pageSize : Nat} (hps : 0 < pageSize) (disable : Bool) :
    WF (new pageSize disable) {rootNode} (fun _ => []) (fun _ => []) := by
  have hkid : ∀ n a k, (new pageSize disable).heap.kid n a ≠ some k := by
    intro n a k
    rw [heap_kid, (node_new pageSize disable n).1]
    exact Option.some_ne_none k ∘ Eq.symm
  exact
    { pageSize_pos := hps
      labelled :=
        { rootLive := rfl, rootPath := rfl
          rootEdge := by
            rw [heap_edge, (node_new pageSize disable _).2.1]
            simp [RadixKey.symbols]
          kidLive := fun _ hk => absurd hk (hkid _ _ _)
          kidHead := fun _ hk => absurd hk (hkid _ _ _)
          kidPath := fun _ hk => absurd hk (hkid _ _ _)
          kidParent := fun _ hk => absurd hk (hkid _ _ _)
          up := fun hn hr => absurd hn hr }
      bound := fun n hn => by rw [Set.mem_singleton_iff.mp hn]; exact Nat.one_pos
      rootValue := rfl
      kidValue := fun _ hk => absurd hk (hkid _ _ _)
      valueLength := fun n _ => by
        obtain ⟨-, hk, hv⟩ := node_new pageSize disable n
        rw [hk, hv]; rfl
      rootLock := Int.one_pos
      leaves := fun n hn => by simp [new] at hn
      leavesNodup := List.nodup_nil }

end RadixCache

end Peek
