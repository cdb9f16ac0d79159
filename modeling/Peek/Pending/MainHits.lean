/-
The dual walk computes every request's match.

`computeMainHits` queries the cache once per edge, not once per request, and gives up
on a subtree as soon as the cache or the sharing threshold does.  What it writes for a
request is nevertheless a function of that request alone: its own match length, capped
at the depth down to which its path is shared enough (`sharedDepths`).

The walk writes into one result map from all levels of the recursion, so the proof
speaks of regions: `Writes V Q` says that a piece of the walk gave every request whose
tokens satisfy `Q` its value, and touched no other entry.  Pieces compose, the scratch
stack comes back as it was found, and the region of the root is everything.
-/
import Peek.Pending.History
import Peek.Base.PrefixCache
import Mathlib.Data.Finset.Card
import Mathlib.Order.Lattice.Nat

namespace Peek

open Radix

namespace PendingTree

variable {p : PendingTree} {live : Set NodeId} {rp : NodeId → List Token}
variable {order : Map Token NodeId → List NodeId}

/-! ### Regions of the result -/

/-- Every pending request in `Q` got its value, every other entry is as it was. -/
structure Writes (p : PendingTree) (V : List Token → Nat) (Q : List Token → Prop)
    (res res' : Map Rid Nat) : Prop where
  inside : ∀ rid ts, p.paths.lookup rid = some ts → Q ts → res'.lookup rid = some (V ts)
  outside : ∀ rid, (∀ ts, p.paths.lookup rid = some ts → ¬ Q ts) →
    res'.lookup rid = res.lookup rid

namespace Writes

variable {V : List Token → Nat} {Q Q' : List Token → Prop} {r0 r1 r2 : Map Rid Nat}

theorem none (r : Map Rid Nat) (hQ : ∀ rid ts, p.paths.lookup rid = some ts → ¬ Q ts) :
    Writes p V Q r r :=
  ⟨fun rid ts hl hq => absurd hq (hQ rid ts hl), fun _ _ => rfl⟩

theorem trans (h : Writes p V Q r0 r1) (h' : Writes p V Q' r1 r2) :
    Writes p V (fun ts => Q ts ∨ Q' ts) r0 r2 := by
  refine ⟨fun rid ts hl hq => ?_, fun rid hno => ?_⟩
  · by_cases hq' : Q' ts
    · exact h'.inside rid ts hl hq'
    · rw [h'.outside rid fun us hus => by rw [hl, Option.some.injEq] at hus; exact hus ▸ hq']
      exact h.inside rid ts hl (hq.resolve_right hq')
  · rw [h'.outside rid fun ts hl hq => hno ts hl (Or.inr hq),
      h.outside rid fun ts hl hq => hno ts hl (Or.inl hq)]

theorem congr (h : Writes p V Q r0 r1)
    (hQ : ∀ rid ts, p.paths.lookup rid = some ts → (Q ts ↔ Q' ts)) : Writes p V Q' r0 r1 :=
  ⟨fun rid ts hl hq => h.inside rid ts hl ((hQ rid ts hl).mpr hq),
    fun rid hno => h.outside rid fun ts hl hq => hno ts hl ((hQ rid ts hl).mp hq)⟩

end Writes

theorem lookup_assignAll (terminators : List Rid) (hit : Nat) (res : Map Rid Nat) (rid : Rid) :
    (assignAll terminators hit res).lookup rid =
      if rid ∈ terminators then some hit else res.lookup rid := by
  unfold assignAll
  induction terminators generalizing res with
  | nil => rfl
  | cons r rs ih =>
      rw [List.foldl_cons, ih, Map.lookup_insert_of]
      by_cases h1 : rid ∈ rs
      · rw [if_pos h1, if_pos (List.mem_cons_of_mem _ h1)]
      · rw [if_neg h1]
        by_cases h2 : rid = r
        · rw [if_pos h2, if_pos (by rw [h2]; exact List.mem_cons_self)]
        · rw [if_neg h2, if_neg (by rw [List.mem_cons, not_or]; exact ⟨h2, h1⟩)]

/-- One node's terminators are the requests that end at its path. -/
theorem writes_assignAll (h : p.tree.Counted live rp p.paths.entries) {V : List Token → Nat}
    {n : NodeId} (hn : n ∈ live) {hit : Nat} (hV : V (rp n) = hit) (res : Map Rid Nat) :
    Writes p V (fun ts => ts = rp n) res (assignAll (p.tree.node n).terminators hit res) := by
  have hmem : ∀ rid, rid ∈ (p.tree.node n).terminators ↔ p.paths.lookup rid = some (rp n) :=
    fun rid => (h.terms n hn rid).trans mem_entries_iff
  refine ⟨?_, fun rid hno => ?_⟩
  · rintro rid ts hl rfl
    rw [lookup_assignAll, if_pos ((hmem rid).mpr hl), hV]
  · rw [lookup_assignAll, if_neg fun hc => hno _ ((hmem rid).mp hc) rfl]

/-! ### The children on the stack -/

section children

variable (horder : ∀ children, (order children).Perm (Map.values children))
include horder

theorem mem_order {children : Map Token NodeId} {c : NodeId} :
    c ∈ order children ↔ ∃ a, children.lookup a = some c :=
  (horder children).mem_iff.trans Map.mem_values

theorem nodup_order {t : Tree} (h : Labelled t.heap live rp) {n : NodeId} (hn : n ∈ live) :
    (order (t.node n).children).Nodup := by
  refine (horder _).nodup_iff.mpr (Map.nodup_values fun a b c hk hk' => ?_)
  exact h.kid_key_unique hn hk hk'

end children

/-! ### Assigning a subtree -/

/-- What assigning the nodes `vs` in turn makes of the result. -/
def assignNodes (t : Tree) (hit : Nat) (vs : List NodeId) (res : Map Rid Nat) : Map Rid Nat :=
  vs.foldl (fun res n => assignAll (t.node n).terminators hit res) res

theorem assignLoop_done {t : Tree} {hit base : Nat} {w : Walk} (hw : w.scratch.length ≤ base)
    (fuel : Nat) : assignLoop order t hit base fuel w = w := by
  cases fuel with
  | zero => rfl
  | succ fuel => rw [assignLoop, if_neg (by omega)]

/-- `vs` are the nodes the loop pops, in order, before it is back to `rest`. -/
def Visits (order : Map Token NodeId → List NodeId) (t : Tree) (stack vs : List NodeId) : Prop :=
  ∀ (hit base fuel : Nat) (path : List Token) (res : Map Rid Nat) (rest : List NodeId),
    base ≤ rest.length →
    assignLoop order t hit base (vs.length + fuel) ⟨path, res, stack ++ rest⟩ =
      assignLoop order t hit base fuel ⟨path, assignNodes t hit vs res, rest⟩

theorem Visits.append {t : Tree} {s s' vs vs' : List NodeId} (h : Visits order t s vs)
    (h' : Visits order t s' vs') : Visits order t (s ++ s') (vs ++ vs') := by
  intro hit base fuel path res rest hbase
  rw [List.length_append, Nat.add_assoc, List.append_assoc,
    h hit base _ path res (s' ++ rest) (by rw [List.length_append]; omega),
    h' hit base fuel path _ rest hbase, assignNodes, assignNodes, assignNodes, List.foldl_append]

theorem Visits.node {t : Tree} {n : NodeId} {vs : List NodeId}
    (h : Visits order t (order (t.node n).children).reverse vs) : Visits order t [n] (n :: vs) := by
  intro hit base fuel path res rest hbase
  rw [List.length_cons, show vs.length + 1 + fuel = (vs.length + fuel) + 1 by omega, assignLoop,
    if_pos (by simp only [List.length_append, List.length_cons, List.length_nil]; omega)]
  simp only [List.cons_append, List.nil_append]
  exact h hit base fuel path _ rest hbase

/-- The subtree below a node is visited once each. -/
theorem visits_below {t : Tree} (horder : ∀ children, (order children).Perm (Map.values children))
    (h : Labelled t.heap live rp) (hfin : live.Finite) : ∀ n ∈ live, ∃ vs,
      vs.Nodup ∧ (∀ m, m ∈ vs ↔ Below t.heap n m) ∧ Visits order t [n] vs := by
  refine h.down_induction hfin fun n hn ih => ?_
  -- the children's visits, one after the other
  have kids : ∀ cs : List NodeId, cs.Nodup → (∀ c ∈ cs, ∃ a, t.heap.kid n a = some c) → ∃ vs,
      vs.Nodup ∧ (∀ m, m ∈ vs ↔ ∃ c ∈ cs, Below t.heap c m) ∧ Visits order t cs vs := by
    intro cs
    induction cs with
    | nil =>
        intro _ _
        exact ⟨[], List.nodup_nil, by simp, fun _ _ _ _ _ _ _ => by
          rw [List.length_nil, Nat.zero_add, List.nil_append]; rfl⟩
    | cons c cs ihcs =>
        intro hnd hkids
        rw [List.nodup_cons] at hnd
        obtain ⟨a, hk⟩ := hkids c List.mem_cons_self
        obtain ⟨vs, hvs, hmem, hvisit⟩ := ih a c hk
        obtain ⟨us, hus, hmem', hvisit'⟩ :=
          ihcs hnd.2 fun d hd => hkids d (List.mem_cons_of_mem _ hd)
        refine ⟨vs ++ us, ?_, fun m => ?_, hvisit.append hvisit'⟩
        · refine List.nodup_append.mpr ⟨hvs, hus, ?_⟩
          rintro m hm _ hm' rfl
          obtain ⟨d, hd, hbd⟩ := (hmem' m).mp hm'
          obtain ⟨b, hkd⟩ := hkids d (List.mem_cons_of_mem _ hd)
          have hcd := h.kids_disjoint hn hk hkd ((hmem m).mp hm) hbd
          exact hnd.1 (hcd ▸ hd)
        · rw [List.mem_append, hmem, hmem']
          simp
  obtain ⟨vs, hvs, hmem, hvisit⟩ := kids (order (t.node n).children).reverse
    (List.nodup_reverse.mpr (nodup_order horder h hn))
    fun c hc => (mem_order horder).mp (List.mem_reverse.mp hc)
  refine ⟨n :: vs, List.nodup_cons.mpr ⟨?_, hvs⟩, fun m => ?_, hvisit.node⟩
  · intro hc
    obtain ⟨c, hc, hb⟩ := (hmem n).mp hc
    obtain ⟨a, hk⟩ := (mem_order horder).mp (List.mem_reverse.mp hc)
    have h1 := h.kid_length_lt hn hk
    have h2 := (h.below_prefix (h.kidLive hn hk) hb).length_le
    omega
  · rw [List.mem_cons, hmem]
    constructor
    · rintro (rfl | ⟨c, hc, hb⟩)
      · exact Below.refl _
      · obtain ⟨a, hk⟩ := (mem_order horder).mp (List.mem_reverse.mp hc)
        exact Below.step hk hb
    · intro hb
      rcases h.below_cases hn hb with hmn | ⟨a, c, hk, hb, -⟩
      · exact Or.inl hmn
      · exact Or.inr ⟨c, List.mem_reverse.mpr ((mem_order horder).mpr ⟨a, hk⟩), hb⟩

theorem writes_assignNodes (h : p.tree.Counted live rp p.paths.entries) {V : List Token → Nat}
    {hit : Nat} : ∀ (vs : List NodeId) (res : Map Rid Nat), (∀ m ∈ vs, m ∈ live) →
      (∀ m ∈ vs, V (rp m) = hit) →
      Writes p V (fun ts => ∃ m ∈ vs, ts = rp m) res (assignNodes p.tree hit vs res) := by
  intro vs
  induction vs with
  | nil => intro res _ _; exact Writes.none res (by simp)
  | cons m vs ih =>
      intro res hlive hV
      have h1 := writes_assignAll h (hlive m List.mem_cons_self) (hV m List.mem_cons_self) res
      have h2 := ih (assignAll (p.tree.node m).terminators hit res)
        (fun k hk => hlive k (List.mem_cons_of_mem _ hk))
        (fun k hk => hV k (List.mem_cons_of_mem _ hk))
      refine (h1.trans h2).congr fun rid ts _ => ?_
      simp

/--
**A whole subtree gets one value.**  The arena's size is fuel enough, because no node
is popped twice.
-/
theorem assignSubtree_writes (h : p.tree.Counted live rp p.paths.entries)
    (horder : ∀ children, (order children).Perm (Map.values children)) {V : List Token → Nat}
    {n : NodeId} (hn : n ∈ live) {hit : Nat}
    (hV : ∀ rid ts, p.paths.lookup rid = some ts → rp n <+: ts → V ts = hit) (w : Walk) :
    ∃ res, assignSubtreeMainHit order p.tree n hit w = { w with result := res } ∧
      Writes p V (fun ts => rp n <+: ts) w.result res := by
  obtain ⟨vs, hnd, hmem, hvisit⟩ := visits_below horder h.labelled h.arena.finite n hn
  have hlive : ∀ m ∈ vs, m ∈ live := fun m hm => h.labelled.below_live hn ((hmem m).mp hm)
  have hlen : vs.length ≤ p.tree.nodes.size := by
    rw [← List.toFinset_card_of_nodup hnd, ← Finset.card_range p.tree.nodes.size]
    refine Finset.card_le_card fun m hm => Finset.mem_range.mpr ?_
    exact h.arena.lt_size (hlive m (List.mem_toFinset.mp hm))
  refine ⟨assignNodes p.tree hit vs w.result, ?_, ?_⟩
  · have hrun := hvisit hit w.scratch.length (p.tree.nodes.size - vs.length) w.path w.result
      w.scratch (Nat.le_refl _)
    rw [Nat.add_sub_cancel' hlen] at hrun
    exact hrun.trans (assignLoop_done (w := { w with result := assignNodes p.tree hit vs w.result })
      (Nat.le_refl _) _)
  · -- give each visited path the value its requests have; a path nobody ends at does not matter
    have hall := writes_assignNodes h (V := fun _ => hit) vs w.result hlive fun _ _ => rfl
    have hin : ∀ rid ts, p.paths.lookup rid = some ts →
        ((∃ m ∈ vs, ts = rp m) ↔ rp n <+: ts) := by
      intro rid ts hl
      constructor
      · rintro ⟨m, hm, rfl⟩
        exact h.labelled.below_prefix hn ((hmem m).mp hm)
      · intro hpre
        obtain ⟨m, hm, hp⟩ := h.covers _ (mem_entries_iff.mpr hl)
        simp only at hp
        refine ⟨m, (hmem m).mpr (h.labelled.below_of_prefix hn hm (by rw [hp]; exact hpre)), hp.symm⟩
    have hall := hall.congr hin
    exact ⟨fun rid ts hl hq => by rw [hall.inside rid ts hl hq, hV rid ts hl hq], hall.outside⟩

/-! ### Draining the stack -/

/-- A loop whose turns write their child's region writes the regions of all children. -/
theorem drain_writes {V : List Token → Nat} {turn : NodeId → Walk → Walk} {path : List Token}
    (rest : List NodeId) : ∀ (cs : List NodeId) (res : Map Rid Nat),
      (∀ c ∈ cs, ∀ w : Walk, w.path = path → ∃ res', turn c w = { w with result := res' } ∧
        Writes p V (fun ts => rp c <+: ts) w.result res') →
      ∃ res', drain turn rest.length cs.length ⟨path, res, cs ++ rest⟩ = ⟨path, res', rest⟩ ∧
        Writes p V (fun ts => ∃ c ∈ cs, rp c <+: ts) res res' := by
  intro cs
  induction cs with
  | nil => intro res _; exact ⟨res, rfl, Writes.none res (by simp)⟩
  | cons c cs ih =>
      intro res hturn
      obtain ⟨res1, h1, hw1⟩ := hturn c List.mem_cons_self ⟨path, res, cs ++ rest⟩ rfl
      obtain ⟨res2, h2, hw2⟩ := ih res1 fun d hd => hturn d (List.mem_cons_of_mem _ hd)
      refine ⟨res2, ?_, (hw1.trans hw2).congr fun rid ts _ => by simp⟩
      rw [List.length_cons, drain,
        if_pos (by simp only [List.length_append, List.length_cons]; omega)]
      simp only [List.cons_append]
      rw [h1]
      exact h2

/-! ### How deep a path is shared -/

/--
The depths on the path `ts` that count for the threshold `m`: a node's, if it is a
child of the root or at least `m` pending requests run through it.
-/
def sharedDepths (p : PendingTree) (m : Nat) (ts : List Token) : Set Nat :=
  {d | d = 0 ∨ ∃ n path, PathTo p.tree.heap n path ∧ path <+: ts ∧ n ≠ ROOT ∧
    ((p.tree.node n).parent = ROOT ∨ m ≤ (p.tree.node n).pendingCount) ∧ d = path.length}

theorem exists_sharedDepth (p : PendingTree) (m : Nat) (ts : List Token) :
    ∃ D, IsGreatest (p.sharedDepths m ts) D := by
  have hbdd : BddAbove (p.sharedDepths m ts) := by
    refine ⟨ts.length, ?_⟩
    rintro d (rfl | ⟨n, path, -, hpre, -, -, rfl⟩)
    · exact Nat.zero_le _
    · exact hpre.length_le
  exact ⟨_, Nat.sSup_mem ⟨0, Or.inl rfl⟩ hbdd, fun d hd => le_csSup hbdd hd⟩

section depth

variable {m : Nat} {ts : List Token} {D : Nat}

theorem sharedDepth_le (hD : IsGreatest (p.sharedDepths m ts) D) : D ≤ ts.length := by
  rcases hD.1 with rfl | ⟨n, path, -, hpre, -, -, rfl⟩
  · exact Nat.zero_le _
  · exact hpre.length_le

theorem le_sharedDepth (h : p.tree.Counted live rp p.paths.entries)
    (hD : IsGreatest (p.sharedDepths m ts) D) {n : NodeId} (hn : n ∈ live) (hr : n ≠ ROOT)
    (hpre : rp n <+: ts)
    (hq : (p.tree.node n).parent = ROOT ∨ m ≤ (p.tree.node n).pendingCount) :
    (rp n).length ≤ D :=
  hD.2 (Or.inr ⟨n, rp n, h.labelled.pathTo_of_live n hn, hpre, hr, hq, rfl⟩)

/-- Fewer requests run further down. -/
theorem pendingCount_antitone (h : p.tree.Counted live rp p.paths.entries) {n k : NodeId}
    (hn : n ∈ live) (hk : k ∈ live) (hnr : n ≠ ROOT) (hkr : k ≠ ROOT) (hpre : rp n <+: rp k) :
    (p.tree.node k).pendingCount ≤ (p.tree.node n).pendingCount := by
  rw [h.count n hn hnr, h.count k hk hkr]
  refine List.countP_mono_left fun e _ he => ?_
  rw [List.isPrefixOf_iff_prefix] at he ⊢
  exact hpre.trans he

/-- Below a child that misses the threshold no depth counts. -/
theorem sharedDepth_le_of_cut (h : p.tree.Counted live rp p.paths.entries)
    (hD : IsGreatest (p.sharedDepths m ts) D) {n c : NodeId} {a : Token} (hn : n ∈ live)
    (hr : n ≠ ROOT) (hkid : p.tree.heap.kid n a = some c) (hcts : rp c <+: ts)
    (hlow : (p.tree.node c).pendingCount < m) : D ≤ (rp n).length := by
  rcases hD.1 with rfl | ⟨k, path, hkpath, hkts, hkr, hq, rfl⟩
  · exact Nat.zero_le _
  obtain ⟨hk, rfl⟩ := h.labelled.pathTo_iff.mp hkpath
  by_contra hlt
  have hc := h.labelled.kidLive hn hkid
  have hcr := h.labelled.kid_ne_root hn hkid
  have hnc : rp n <+: rp c := by
    rw [h.labelled.kidPath hn hkid]; exact List.prefix_append _ _
  have hck : rp c <+: rp k := by
    rcases Nat.le_total (rp c).length (rp k).length with hle | hle
    · exact List.prefix_of_prefix_length_le hcts hkts hle
    · -- `k` would sit strictly between `n` and its child
      have hkc := List.prefix_of_prefix_length_le hkts hcts hle
      rcases (h.labelled.prefix_parent_iff hk hc hcr).mp hkc with rfl | hup
      · exact List.prefix_refl _
      · rw [h.labelled.kidParent hn hkid] at hup
        exact absurd hup.length_le hlt
  have hlowk := pendingCount_antitone h hc hk hcr hkr hck
  rcases hq with hpar | hhigh
  · rcases (h.labelled.prefix_parent_iff hc hk hkr).mp hck with rfl | hup
    · exact hr ((h.labelled.kidParent hn hkid).symm.trans hpar)
    · rw [Tree.heap_parent, hpar] at hup
      exact hcr (h.labelled.eq_root_of_prefix hc hup)
  · omega

end depth

/-! ### The walk itself -/

theorem length_le_maxDepth {rid : Rid} {ts : List Token} (hl : p.paths.lookup rid = some ts) :
    ts.length ≤ p.maxDepth := by
  have hmem := mem_entries_iff.mpr hl
  suffices key : ∀ es : Requests, ⟨rid, ts⟩ ∈ es →
      ts.length ≤ es.foldr (fun e n => max e.2.length n) 0 from key _ hmem
  intro es
  induction es with
  | nil => intro hmem; simp at hmem
  | cons e es ih =>
      intro hmem
      rw [List.foldr_cons]
      rcases List.mem_cons.mp hmem with rfl | hmem
      · exact Nat.le_max_left _ _
      · exact (ih hmem).trans (Nat.le_max_right _ _)

/-- No root path is longer than the longest prompt. -/
theorem path_le_maxDepth (h : p.tree.Counted live rp p.paths.entries)
    (hcomp : p.tree.Compressed live) {n : NodeId} (hn : n ∈ live) :
    (rp n).length ≤ p.maxDepth := by
  by_cases hr : n = ROOT
  · rw [hr, show rp ROOT = [] from h.labelled.rootPath]
    exact Nat.zero_le _
  · obtain ⟨⟨rid, ts⟩, he, hpre⟩ := Tree.exists_request h hcomp hn hr
    exact hpre.length_le.trans (length_le_maxDepth (mem_entries_iff.mp he))

/-- A prompt runs no further than `n`, or on into one of its children. -/
theorem prefix_cases (h : p.tree.Counted live rp p.paths.entries)
    (horder : ∀ children, (order children).Perm (Map.values children)) {n : NodeId} (hn : n ∈ live)
    {rid : Rid} {ts : List Token} (hl : p.paths.lookup rid = some ts) :
    (ts = rp n ∨ ∃ c ∈ (order (p.tree.node n).children).reverse, rp c <+: ts) ↔ rp n <+: ts := by
  constructor
  · rintro (rfl | ⟨c, hc, hpre⟩)
    · exact List.prefix_refl _
    · obtain ⟨a, hk⟩ := (mem_order horder).mp (List.mem_reverse.mp hc)
      refine List.IsPrefix.trans ?_ hpre
      rw [h.labelled.kidPath hn hk]
      exact List.prefix_append _ _
  · intro hpre
    obtain ⟨k, hk, hp⟩ := h.covers _ (mem_entries_iff.mpr hl)
    simp only at hp
    rw [← hp] at hpre ⊢
    rcases h.labelled.below_cases hn (h.labelled.below_of_prefix hn hk hpre) with
      rfl | ⟨a, c, hkid, hb, -⟩
    · exact Or.inl rfl
    · exact Or.inr ⟨c, List.mem_reverse.mpr ((mem_order horder).mpr ⟨a, hkid⟩),
        h.labelled.below_prefix (h.labelled.kidLive hn hkid) hb⟩

/-- What the walk knows when it enters `n` with the given hit. -/
structure Entered (p : PendingTree) (live : Set NodeId) (rp : NodeId → List Token)
    (cache : PrefixCache Token) (m : Nat) (n : NodeId) (hit : Nat) (established : Bool)
    (w : Walk) : Prop where
  live : n ∈ live
  path : w.path = rp n
  hit : hit = (rp n).length
  held : cache.holds (rp n) = true
  established : established = true ↔ n ≠ ROOT
  counts : n ≠ ROOT →
    (p.tree.node n).parent = ROOT ∨ m ≤ (p.tree.node n).pendingCount

section entered

variable {cache : PrefixCache Token} {m n : Nat} {hit : Nat} {established : Bool} {w : Walk}
variable {D : List Token → Nat}

/-- The requests that end at an entered node match down to it. -/
theorem Entered.own (he : Entered p live rp cache m n hit established w)
    (h : p.tree.Counted live rp p.paths.entries)
    (hD : ∀ ts, IsGreatest (p.sharedDepths m ts) (D ts)) :
    min (cache.matchLen (rp n)) (D (rp n)) = hit := by
  have h1 := cache.matchLen_le (rp n)
  have h2 := (cache.holds_prefix_iff (List.prefix_refl (rp n))).mp he.held
  have h3 := sharedDepth_le (hD (rp n))
  have h4 : (rp n).length ≤ D (rp n) := by
    by_cases hr : n = ROOT
    · rw [hr, show rp ROOT = [] from h.labelled.rootPath]
      exact Nat.zero_le _
    · exact le_sharedDepth h (hD _) he.live hr (List.prefix_refl _) (he.counts hr)
  rw [he.hit]
  omega

/--
**One turn of the loop over the children.**  The child is skipped, queried and left, or
queried and entered; `henter` is what the recursive call does in the last case.
-/
theorem Entered.turn (he : Entered p live rp cache m n hit established w)
    (h : p.tree.Counted live rp p.paths.entries)
    (horder : ∀ children, (order children).Perm (Map.values children))
    (hD : ∀ ts, IsGreatest (p.sharedDepths m ts) (D ts)) {a : Token} {c : NodeId}
    (hkid : p.tree.heap.kid n a = some c) (fuel : Nat) {v : Walk} (hv : v.path = w.path)
    (henter : Entered p live rp cache m c (rp c).length true { v with path := rp c } →
      ∃ res, dualwalk order p.tree cache.matchLen m fuel c (rp c).length true
          { v with path := rp c } = { v with path := rp c, result := res } ∧
        Writes p (fun ts => min (cache.matchLen ts) (D ts)) (fun ts => rp c <+: ts) v.result
          res) :
    ∃ res, dualwalkTurn order p.tree cache.matchLen m
        (dualwalk order p.tree cache.matchLen m fuel) hit established c v =
        { v with result := res } ∧
      Writes p (fun ts => min (cache.matchLen ts) (D ts)) (fun ts => rp c <+: ts) v.result
        res := by
  have hn := he.live
  have hcl := h.labelled.kidLive hn hkid
  have hcr := h.labelled.kid_ne_root hn hkid
  have hpc : rp c = rp n ++ (p.tree.node c).edge := h.labelled.kidPath hn hkid
  have hnc : rp n <+: rp c := by rw [hpc]; exact List.prefix_append _ _
  unfold dualwalkTurn
  by_cases hskip : established = true ∧ (p.tree.node c).pendingCount < m
  · -- skipped: nothing below is shared enough, and the cache holds the node's own path
    rw [if_pos hskip]
    have hr := he.established.mp hskip.1
    refine assignSubtree_writes h horder hcl (fun rid ts hl hpre => ?_) v
    have h1 := (cache.holds_prefix_iff (hnc.trans hpre)).mp he.held
    have h2 := sharedDepth_le_of_cut h (hD ts) hn hr hkid hpre hskip.2
    have h3 := le_sharedDepth h (hD ts) hn hr (hnc.trans hpre) (he.counts hr)
    rw [he.hit]
    omega
  · rw [if_neg hskip]
    have hcounts : (p.tree.node c).parent = ROOT ∨ m ≤ (p.tree.node c).pendingCount := by
      by_cases hr : n = ROOT
      · left
        rw [← hr]
        exact h.labelled.kidParent hn hkid
      · right
        have := he.established.mpr hr
        by_contra hlow
        exact hskip ⟨this, by omega⟩
    have hpath : v.path ++ (p.tree.node c).edge = rp c := by rw [hv, he.path, hpc]
    have hback : (rp c).take ((rp c).length - (p.tree.node c).edge.length) = v.path := by
      rw [hpc, List.length_append, Nat.add_sub_cancel, List.take_left, hv, he.path]
    simp only [hpath]
    by_cases hfull : cache.matchLen (rp c) ≥ (rp c).length
    · -- entered: the cache holds the child's path
      rw [if_pos hfull]
      obtain ⟨res, hres, hw⟩ := henter
        ⟨hcl, rfl, rfl, (cache.holds_prefix_iff (List.prefix_refl _)).mpr hfull,
          iff_of_true rfl hcr, fun _ => hcounts⟩
      refine ⟨res, ?_, hw⟩
      rw [hres]
      simp only [hback]
    · -- left: the cache breaks off within the child's edge, for everything below alike
      rw [if_neg hfull]
      have hsame : ∀ rid ts, p.paths.lookup rid = some ts → rp c <+: ts →
          min (cache.matchLen ts) (D ts) = cache.matchLen (rp c) := by
        intro rid ts hl hpre
        have h1 := cache.matchLen_of_prefix hpre (by omega)
        have h2 := le_sharedDepth h (hD ts) hcl hcr hpre hcounts
        omega
      obtain ⟨res, hres, hw⟩ := assignSubtree_writes h horder hcl hsame
        { v with path := rp c }
      refine ⟨res, ?_, hw⟩
      rw [hres]
      simp only [hback]

end entered

/--
**Each node's region gets the values of its requests.**  The induction is on the depth
of the recursion; the children's turns compose over the scratch stack, and the regions
of the node's own requests and of its children make up its region.
-/
theorem dualwalk_writes (h : p.tree.Counted live rp p.paths.entries)
    (hcomp : p.tree.Compressed live)
    (horder : ∀ children, (order children).Perm (Map.values children))
    (cache : PrefixCache Token) (m : Nat) {D : List Token → Nat}
    (hD : ∀ ts, IsGreatest (p.sharedDepths m ts) (D ts)) :
    ∀ (fuel : Nat) (n : NodeId) (hit : Nat) (established : Bool) (w : Walk),
      Entered p live rp cache m n hit established w → p.maxDepth < (rp n).length + fuel →
      ∃ res, dualwalk order p.tree cache.matchLen m fuel n hit established w =
          { w with result := res } ∧
        Writes p (fun ts => min (cache.matchLen ts) (D ts)) (fun ts => rp n <+: ts) w.result
          res := by
  intro fuel
  induction fuel with
  | zero =>
      intro n hit established w he hlt
      have := path_le_maxDepth h hcomp he.live
      omega
  | succ fuel ih =>
      intro n hit established w he hlt
      have hn := he.live
      have h0 := writes_assignAll h (V := fun ts => min (cache.matchLen ts) (D ts)) hn
        (he.own h hD) w.result
      have hturn : ∀ c ∈ (order (p.tree.node n).children).reverse, ∀ v : Walk, v.path = w.path →
          ∃ res, dualwalkTurn order p.tree cache.matchLen m
              (dualwalk order p.tree cache.matchLen m fuel) hit established c v =
              { v with result := res } ∧
            Writes p (fun ts => min (cache.matchLen ts) (D ts)) (fun ts => rp c <+: ts) v.result
              res := by
        intro c hc v hv
        obtain ⟨a, hkid⟩ := (mem_order horder).mp (List.mem_reverse.mp hc)
        have hkid : p.tree.heap.kid n a = some c := hkid
        have hdeep := h.labelled.kid_length_lt hn hkid
        exact he.turn h horder hD hkid fuel hv fun hent => ih c _ true _ hent (by omega)
      obtain ⟨res, hres, hw⟩ := drain_writes w.scratch _
        (assignAll (p.tree.node n).terminators hit w.result) hturn
      refine ⟨res, ?_, (h0.trans hw).congr fun rid ts hl => prefix_cases h horder hn hl⟩
      rw [dualwalk]
      rw [List.length_reverse] at hres
      exact hres

/-- The result of the whole walk. -/
theorem Sound.lookup_computeMainHits (hp : Sound p)
    (horder : ∀ children, (order children).Perm (Map.values children))
    (cache : PrefixCache Token) (m : Nat) (rid : Rid) :
    (∀ ts, p.paths.lookup rid = some ts → ∃ D, IsGreatest (p.sharedDepths m ts) D ∧
      (p.computeMainHits order cache.matchLen m).lookup rid =
        some (min (cache.matchLen ts) D)) ∧
    (p.paths.lookup rid = none → (p.computeMainHits order cache.matchLen m).lookup rid = none) := by
  obtain ⟨live, rp, h, hcomp⟩ := hp
  choose D hD using fun ts => exists_sharedDepth p m ts
  have hroot : rp ROOT = [] := h.labelled.rootPath
  obtain ⟨res, hres, hw⟩ := dualwalk_writes h hcomp horder cache m hD (p.maxDepth + 1) ROOT 0 false
    { path := [], result := ∅, scratch := [] }
    ⟨h.labelled.rootLive, hroot.symm, by rw [hroot]; rfl, by rw [hroot]; exact cache.nil,
      by simp, fun hr => absurd rfl hr⟩ (by rw [hroot]; simp)
  rw [computeMainHits, hres]
  refine ⟨fun ts hl => ⟨D ts, hD ts, ?_⟩, fun hl => ?_⟩
  · exact hw.inside rid ts hl (by rw [hroot]; exact List.nil_prefix)
  · rw [hw.outside rid fun ts hts => by rw [hl] at hts; simp at hts]
    rfl

/-- At a threshold of one or less every node counts, so the whole path is shared enough. -/
theorem Sound.sharedDepth_eq_length (hp : Sound p) {m : Nat} (hm : m ≤ 1) {rid : Rid}
    {ts : List Token} (hl : p.paths.lookup rid = some ts) {D : Nat}
    (hD : IsGreatest (p.sharedDepths m ts) D) : D = ts.length := by
  obtain ⟨live, rp, h, hcomp⟩ := hp
  refine Nat.le_antisymm (sharedDepth_le hD) ?_
  obtain ⟨n, hn, hpn⟩ := h.covers _ (mem_entries_iff.mpr hl)
  simp only at hpn
  by_cases hr : n = ROOT
  · rw [← hpn, hr, show rp ROOT = [] from h.labelled.rootPath]; exact Nat.zero_le _
  · rw [← hpn]
    refine le_sharedDepth h hD hn hr (by rw [hpn]) (Or.inr (hm.trans ?_))
    rw [h.count n hn hr]
    refine List.countP_pos_iff.mpr ⟨_, mem_entries_iff.mpr hl, ?_⟩
    rw [List.isPrefixOf_iff_prefix, hpn]

/--
**`compute_main_hits` is exact above its sharing threshold.**  Up to a threshold of one
the result is every pending request's match length and nothing else; above it, the match
length capped at the greatest shared depth.
-/
theorem computeMainHits_exact (order : Map Token NodeId → List NodeId)
    (horder : ∀ children, (order children).Perm (Map.values children))
    (cache : PrefixCache Token) (ops : List Op) (m : Nat) :
    (m ≤ 1 → ∀ rid, ((run ops).computeMainHits order cache.matchLen m).lookup rid =
      ((run ops).paths.lookup rid).map cache.matchLen) ∧
    (2 ≤ m → ∀ rid,
      (∀ ts, (run ops).paths.lookup rid = some ts → ∃ D,
        IsGreatest ((run ops).sharedDepths m ts) D ∧
        ((run ops).computeMainHits order cache.matchLen m).lookup rid =
          some (min (cache.matchLen ts) D)) ∧
      ((run ops).paths.lookup rid = none →
        ((run ops).computeMainHits order cache.matchLen m).lookup rid = none)) := by
  have hsound := sound_run ops
  refine ⟨fun hm rid => ?_, fun _ rid => hsound.lookup_computeMainHits horder cache m rid⟩
  obtain ⟨hsome, hnone⟩ := hsound.lookup_computeMainHits horder cache m rid
  cases hl : (run ops).paths.lookup rid with
  | none => exact hnone hl
  | some ts =>
      obtain ⟨D, hD, hres⟩ := hsome ts hl
      have hDlen := hsound.sharedDepth_eq_length hm hl hD
      rw [hres, Option.map_some, hDlen, Nat.min_eq_left (cache.matchLen_le ts)]

/-- The prefixes of one path, as a cache. -/
def prefixesOf (path : List Token) : PrefixCache Token where
  holds q := q.isPrefixOf path
  nil := by cases path <;> rfl
  closed p q hpq hq := by
    rw [List.isPrefixOf_iff_prefix] at hq ⊢
    exact hpq.trans hq

/-- Two prompts that part after `5, 6`, and a cache that follows the first one to its end. -/
theorem computeMainHits_exact_fork :
    ((run [.insert 1 [5, 6, 7], .insert 2 [5, 6, 8]]).computeMainHits Map.values
      (prefixesOf [5, 6, 7]).matchLen 1).lookup 1 = some 3 ∧
    ∃ D, ((run [.insert 1 [5, 6, 7], .insert 2 [5, 6, 8]]).computeMainHits Map.values
      (prefixesOf [5, 6, 7]).matchLen 2).lookup 1 = some (min 3 D) := by
  have h := computeMainHits_exact Map.values (fun _ => List.Perm.refl _)
    (prefixesOf [5, 6, 7]) [.insert 1 [5, 6, 7], .insert 2 [5, 6, 8]]
  refine ⟨((h 1).1 (by decide) 1).trans (by decide), ?_⟩
  obtain ⟨D, -, hD⟩ := ((h 2).2 (by decide) 1).1 [5, 6, 7] (by decide)
  have hlen : (prefixesOf [5, 6, 7]).matchLen [5, 6, 7] = 3 := by decide
  rw [hlen] at hD
  exact ⟨D, hD⟩

example : ((run [.insert 1 [5, 6, 7], .insert 2 [5, 6, 8]]).computeMainHits Map.values
    (prefixesOf [5, 6, 7]).matchLen 2).lookup 1 = some 2 := by decide

end PendingTree

end Peek
