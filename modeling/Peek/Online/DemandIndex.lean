/-
Demand for cached blocks (`python/peek/online/engines/vllm/patch_hook.py`).

The vLLM hook counts, for every block hash, how often it occurs in the prompts of the
waiting requests.  A request is counted from a snapshot of its block hashes, taken when it
was first seen, and uncounted from the same snapshot, so what the request has become in
the meantime does not matter.

In cluster mode the deepest position of a hash is kept as well.  It is only ever raised,
and forgotten when the last count goes: an upper bound, not the exact depth.
-/
import Peek.Base.Counts
import Peek.Pending.Tree
import Mathlib.Algebra.GroupWithZero.Nat

namespace Peek

abbrev BlockHash := Nat

structure DemandIndex where
  blockHashDemand : Map BlockHash Int
  blockHashMaxDepth : Map BlockHash Nat
  /-- The snapshots. -/
  ridToHashes : Map Rid (List BlockHash)

namespace DemandIndex

def new : DemandIndex := { blockHashDemand := ∅, blockHashMaxDepth := ∅, ridToHashes := ∅ }

/-- The loop of `_bump_rid`, at position `i` of the snapshot. -/
def bumpLoop (cluster : Bool) : Nat → List BlockHash → DemandIndex → DemandIndex
  | _, [], d => d
  | i, h :: rest, d =>
      let d := { d with
        blockHashDemand := d.blockHashDemand.insert h ((d.blockHashDemand.lookup h).getD 0 + 1) }
      let depth := i + 1
      let prev := (d.blockHashMaxDepth.lookup h).getD 0
      let d := if cluster ∧ depth > prev then
          { d with blockHashMaxDepth := d.blockHashMaxDepth.insert h depth }
        else d
      bumpLoop cluster (i + 1) rest d

/-- `_bump_rid`: take a snapshot and count it. -/
def bumpRid (cluster : Bool) (d : DemandIndex) (blockHashes : List BlockHash) (ridInt : Rid) :
    DemandIndex :=
  let d := bumpLoop cluster 0 blockHashes d
  { d with ridToHashes := d.ridToHashes.insert ridInt blockHashes }

/-- One turn of the loop of `_drop_rid`. -/
def dropTurn (cluster : Bool) (d : DemandIndex) (h : BlockHash) : DemandIndex :=
  let n := (d.blockHashDemand.lookup h).getD 0 - 1
  if n ≤ 0 then
    { d with
      blockHashDemand := d.blockHashDemand.erase h
      blockHashMaxDepth := if cluster then d.blockHashMaxDepth.erase h else d.blockHashMaxDepth }
  else { d with blockHashDemand := d.blockHashDemand.insert h n }

/-- `_drop_rid`: uncount a request's snapshot. -/
def dropRid (cluster : Bool) (d : DemandIndex) (ridInt : Rid) : DemandIndex :=
  match d.ridToHashes.lookup ridInt with
  | none => d
  | some snap =>
      snap.foldl (dropTurn cluster) { d with ridToHashes := d.ridToHashes.erase ridInt }

/-! ### What the index says -/

/-- How often `h` occurs in the snapshots. -/
def total (d : DemandIndex) (h : BlockHash) : Nat :=
  (d.ridToHashes.entries.map fun e => e.2.count h).sum

/--
**The demand is the number of occurrences in the snapshots**, with no entry for what
does not occur; in cluster mode every hash in demand has a depth no less than any position
it stands at, and no other hash has one.
-/
structure OK (cluster : Bool) (d : DemandIndex) : Prop where
  demand : Counts d.blockHashDemand d.total
  depthKeys : cluster = true → ∀ h,
    (d.blockHashMaxDepth.lookup h).isSome ↔ (d.blockHashDemand.lookup h).isSome
  depth : cluster = true → ∀ rid snap, d.ridToHashes.lookup rid = some snap →
    ∀ i h, snap[i]? = some h → ∃ m, d.blockHashMaxDepth.lookup h = some m ∧ i + 1 ≤ m

theorem new_ok (cluster : Bool) : OK cluster new where
  demand := Counts.empty
  depthKeys _ h := by simp [new]
  depth _ rid snap hs := by simp [new] at hs

theorem total_eq_add_erase {d : DemandIndex} {ridInt : Rid} {snap : List BlockHash}
    (hs : d.ridToHashes.lookup ridInt = some snap) (h : BlockHash) :
    d.total h = snap.count h +
      { d with ridToHashes := d.ridToHashes.erase ridInt : DemandIndex }.total h := by
  unfold total
  rw [((Map.perm_erase_cons hs).map _).sum_nat, List.map_cons, List.sum_cons]

theorem total_insert {d : DemandIndex} {ridInt : Rid} (hs : d.ridToHashes.lookup ridInt = none)
    (snap : List BlockHash) (h : BlockHash) :
    { d with ridToHashes := d.ridToHashes.insert ridInt snap : DemandIndex }.total h =
      d.total h + snap.count h := by
  unfold total
  rw [AList.entries_insert_of_notMem (AList.lookup_eq_none.mp hs), List.map_cons, List.sum_cons,
    Nat.add_comm]

/-- A snapshot's hashes are in demand. -/
theorem total_pos {d : DemandIndex} {rid : Rid} {snap : List BlockHash}
    (hs : d.ridToHashes.lookup rid = some snap) {h : BlockHash} (hmem : h ∈ snap) :
    0 < d.total h := by
  rw [total_eq_add_erase hs]
  have := List.count_pos_iff.mpr hmem
  omega

/-! ### Counting a snapshot -/

/-- What the counting loop has done once it has gone through `hs`, from position `i` on. -/
structure Bumped (cluster : Bool) (i : Nat) (hs : List BlockHash) (d d' : DemandIndex) : Prop where
  ridToHashes : d'.ridToHashes = d.ridToHashes
  demand : ∀ t, Counts d.blockHashDemand t →
    Counts d'.blockHashDemand fun h => t h + hs.count h
  depthKeys : cluster = true → ∀ h, (d'.blockHashMaxDepth.lookup h).isSome ↔
    (d.blockHashMaxDepth.lookup h).isSome ∨ h ∈ hs
  raised : ∀ h m, d.blockHashMaxDepth.lookup h = some m →
    ∃ m', d'.blockHashMaxDepth.lookup h = some m' ∧ m ≤ m'
  depth : cluster = true → ∀ j h, hs[j]? = some h →
    ∃ m, d'.blockHashMaxDepth.lookup h = some m ∧ i + j + 1 ≤ m

/-- One turn of the counting loop, on the depths: `h` has depth `i + 1` at least. -/
theorem raiseDepth {cluster : Bool} (i : Nat) (h : BlockHash) (m : Map BlockHash Nat) :
    let m' := if cluster = true ∧ i + 1 > (m.lookup h).getD 0 then m.insert h (i + 1) else m
    (∀ k v, m.lookup k = some v → ∃ v', m'.lookup k = some v' ∧ v ≤ v') ∧
      (cluster = true → ∃ v, m'.lookup h = some v ∧ i + 1 ≤ v) ∧
      (cluster = true → ∀ k, (m'.lookup k).isSome ↔ (m.lookup k).isSome ∨ k = h) := by
  intro m'
  by_cases hc : cluster = true ∧ i + 1 > (m.lookup h).getD 0
  · have hm' : m' = m.insert h (i + 1) := if_pos hc
    refine ⟨fun k v hk => ?_, fun _ => ⟨i + 1, ?_, Nat.le_refl _⟩, fun _ k => ?_⟩
    · rw [hm', Map.lookup_insert_of]
      by_cases hkh : k = h
      · rw [if_pos hkh]
        rw [← hkh, hk, Option.getD_some] at hc
        exact ⟨i + 1, rfl, Nat.le_of_lt hc.2⟩
      · rw [if_neg hkh]
        exact ⟨v, hk, Nat.le_refl _⟩
    · rw [hm', Map.lookup_insert_of, if_pos rfl]
    · rw [hm', Map.lookup_insert_of]
      by_cases hkh : k = h
      · simp [hkh]
      · simp [hkh]
  · have hm' : m' = m := if_neg hc
    have hat : cluster = true → ∃ v, m.lookup h = some v ∧ i + 1 ≤ v := by
      intro hcl
      have hle : i + 1 ≤ (m.lookup h).getD 0 := Nat.le_of_not_lt fun hlt => hc ⟨hcl, hlt⟩
      cases hv : m.lookup h with
      | none => rw [hv] at hle; simp at hle
      | some v => rw [hv] at hle; exact ⟨v, rfl, hle⟩
    rw [hm']
    refine ⟨fun k v hk => ⟨v, hk, Nat.le_refl _⟩, hat, fun hcl k => ?_⟩
    constructor
    · exact Or.inl
    · rintro (hk | rfl)
      · exact hk
      · obtain ⟨v, hv, -⟩ := hat hcl
        rw [hv]; rfl

theorem bumpLoop_bumped (cluster : Bool) : ∀ (hs : List BlockHash) (i : Nat) (d : DemandIndex),
    Bumped cluster i hs d (bumpLoop cluster i hs d) := by
  intro hs
  induction hs with
  | nil =>
      intro i d
      exact ⟨rfl, fun t ht => ht.congr fun _ => rfl, fun _ h => by simp [bumpLoop],
        fun h m hm => ⟨m, hm, Nat.le_refl _⟩, fun _ j h hj => by simp at hj⟩
  | cons h hs ih =>
      intro i d
      unfold bumpLoop
      simp only
      obtain ⟨hraise, hat, hkeys⟩ := @raiseDepth cluster i h d.blockHashMaxDepth
      set m' := if cluster = true ∧ i + 1 > (d.blockHashMaxDepth.lookup h).getD 0 then
        d.blockHashMaxDepth.insert h (i + 1) else d.blockHashMaxDepth with hm'
      have hd1 : (if cluster = true ∧ i + 1 > (d.blockHashMaxDepth.lookup h).getD 0 then
          ({ blockHashDemand := d.blockHashDemand.insert h ((d.blockHashDemand.lookup h).getD 0 + 1)
             blockHashMaxDepth := d.blockHashMaxDepth.insert h (i + 1)
             ridToHashes := d.ridToHashes } : DemandIndex)
          else
            { blockHashDemand := d.blockHashDemand.insert h ((d.blockHashDemand.lookup h).getD 0 + 1)
              blockHashMaxDepth := d.blockHashMaxDepth
              ridToHashes := d.ridToHashes }) =
          { blockHashDemand := d.blockHashDemand.insert h ((d.blockHashDemand.lookup h).getD 0 + 1)
            blockHashMaxDepth := m', ridToHashes := d.ridToHashes } := by
        rw [hm']
        split <;> rfl
      rw [hd1]
      obtain ⟨h1, h2, h3, h4, h5⟩ := ih (i + 1)
        { blockHashDemand := d.blockHashDemand.insert h ((d.blockHashDemand.lookup h).getD 0 + 1)
          blockHashMaxDepth := m', ridToHashes := d.ridToHashes }
      refine ⟨h1, fun t ht => ?_, fun hcl k => ?_, fun k m hk => ?_, fun hcl j k hj => ?_⟩
      · refine (h2 _ (ht.bump h)).congr fun k => ?_
        rw [List.count_cons]
        by_cases hk : k = h
        · subst hk; rw [Function.update_self]; simp; omega
        · rw [Function.update_of_ne hk, if_neg (by simpa using Ne.symm hk)]; rfl
      · rw [h3 hcl, hkeys hcl, List.mem_cons, or_assoc]
      · obtain ⟨v, hv, hle⟩ := hraise k m hk
        obtain ⟨v', hv', hle'⟩ := h4 k v hv
        exact ⟨v', hv', Nat.le_trans hle hle'⟩
      · cases j with
        | zero =>
            rw [List.getElem?_cons_zero, Option.some.injEq] at hj
            obtain ⟨v, hv, hle⟩ := hat hcl
            obtain ⟨v', hv', hle'⟩ := h4 h v hv
            exact ⟨v', hj ▸ hv', by omega⟩
        | succ j =>
            rw [List.getElem?_cons_succ] at hj
            obtain ⟨v, hv, hle⟩ := h5 hcl j k hj
            exact ⟨v, hv, by omega⟩

/-- **Counting a new request keeps the index right.** -/
theorem OK.bumpRid {cluster : Bool} {d : DemandIndex} (hd : OK cluster d) {ridInt : Rid}
    (hnew : d.ridToHashes.lookup ridInt = none) (blockHashes : List BlockHash) :
    OK cluster (d.bumpRid cluster blockHashes ridInt) := by
  obtain ⟨h1, h2, h3, h4, h5⟩ := bumpLoop_bumped cluster blockHashes 0 d
  unfold DemandIndex.bumpRid
  set d1 := bumpLoop cluster 0 blockHashes d with hd1
  have hnew1 : d1.ridToHashes.lookup ridInt = none := by rw [h1]; exact hnew
  have htotal : ∀ h, d1.total h = d.total h := fun h => by unfold total; rw [h1]
  have hcount : ∀ h, ({ d1 with
      ridToHashes := d1.ridToHashes.insert ridInt blockHashes } : DemandIndex).total h =
        d.total h + blockHashes.count h := fun h => by rw [total_insert hnew1, htotal]
  have hdemand := (h2 _ hd.demand).congr hcount
  refine ⟨hdemand, fun hcl h => ?_, fun hcl rid snap hs i h hi => ?_⟩
  · show (d1.blockHashMaxDepth.lookup h).isSome ↔ _
    rw [h3 hcl, hd.depthKeys hcl, hd.demand.mem_iff, hdemand.mem_iff, hcount]
    have hmem : h ∈ blockHashes ↔ 0 < blockHashes.count h := List.count_pos_iff.symm
    rw [hmem]
    omega
  · have hs : (d1.ridToHashes.insert ridInt blockHashes).lookup rid = some snap := hs
    rw [Map.lookup_insert_of, h1] at hs
    by_cases hr : rid = ridInt
    · rw [if_pos hr, Option.some.injEq] at hs
      obtain ⟨m, hm, hle⟩ := h5 hcl i h (hs ▸ hi)
      exact ⟨m, hm, by omega⟩
    · rw [if_neg hr] at hs
      obtain ⟨m, hm, hle⟩ := hd.depth hcl rid snap hs i h hi
      obtain ⟨m', hm', hle'⟩ := h4 h m hm
      exact ⟨m', hm', Nat.le_trans hle hle'⟩

/-! ### Uncounting a snapshot -/

/-- What the uncounting loop keeps, at any point. -/
structure Dropped (cluster : Bool) (hs : List BlockHash) (d d' : DemandIndex) : Prop where
  ridToHashes : d'.ridToHashes = d.ridToHashes
  demand : ∀ t, Counts d.blockHashDemand t →
    Counts d'.blockHashDemand fun h => t h - hs.count h
  depthKeys : cluster = true →
    (∀ h, (d.blockHashMaxDepth.lookup h).isSome ↔ (d.blockHashDemand.lookup h).isSome) →
    ∀ h, (d'.blockHashMaxDepth.lookup h).isSome ↔ (d'.blockHashDemand.lookup h).isSome
  kept : ∀ h m, d'.blockHashMaxDepth.lookup h = some m → d.blockHashMaxDepth.lookup h = some m

theorem dropTurn_dropped (cluster : Bool) (d : DemandIndex) (h : BlockHash) :
    Dropped cluster [h] d (dropTurn cluster d h) := by
  have hcount : ∀ (t : BlockHash → Nat) k, t k - [h].count k = Function.update t h (t h - 1) k := by
    intro t k
    by_cases hk : k = h
    · subst hk; simp
    · rw [Function.update_of_ne hk, List.count_singleton, if_neg (by simpa using Ne.symm hk)]; rfl
  unfold dropTurn
  by_cases hn : (d.blockHashDemand.lookup h).getD 0 - 1 ≤ 0
  · simp only [if_pos hn]
    refine ⟨rfl, fun t ht => (ht.erase hn).congr (hcount t), fun hcl hkeys k => ?_, fun k m hk => ?_⟩
    · simp only [if_pos hcl]
      rw [Map.lookup_erase_of, Map.lookup_erase_of]
      by_cases hk : k = h
      · rw [if_pos hk, if_pos hk]; simp
      · rw [if_neg hk, if_neg hk]; exact hkeys k
    · by_cases hcl : cluster = true
      · simp only [if_pos hcl, Map.lookup_erase_of] at hk
        by_cases hkh : k = h
        · rw [if_pos hkh] at hk; simp at hk
        · rwa [if_neg hkh] at hk
      · simpa only [if_neg hcl] using hk
  · simp only [if_neg hn]
    refine ⟨rfl, fun t ht => (ht.drop (by omega)).congr (hcount t), fun _ hkeys k => ?_,
      fun k m hk => hk⟩
    rw [hkeys k, Map.lookup_insert_of]
    by_cases hk : k = h
    · -- a count of two or more was there before
      subst hk
      rw [if_pos rfl]
      cases hl : d.blockHashDemand.lookup k with
      | none => rw [hl] at hn; simp at hn
      | some v => simp
    · rw [if_neg hk]

theorem foldl_dropTurn_dropped (cluster : Bool) : ∀ (hs : List BlockHash) (d : DemandIndex),
    Dropped cluster hs d (hs.foldl (dropTurn cluster) d) := by
  intro hs
  induction hs with
  | nil =>
      intro d
      exact ⟨rfl, fun t ht => ht.congr fun _ => rfl, fun _ hkeys => hkeys, fun _ _ hm => hm⟩
  | cons h hs ih =>
      intro d
      obtain ⟨h1, h2, h3, h4⟩ := dropTurn_dropped cluster d h
      obtain ⟨g1, g2, g3, g4⟩ := ih (dropTurn cluster d h)
      rw [List.foldl_cons]
      refine ⟨g1.trans h1, fun t ht => ?_, fun hcl hkeys => g3 hcl (h3 hcl hkeys),
        fun k m hk => h4 k m (g4 k m hk)⟩
      refine (g2 _ (h2 t ht)).congr fun k => ?_
      rw [List.count_cons, List.count_singleton]
      omega

theorem ridToHashes_dropRid (cluster : Bool) (d : DemandIndex) (ridInt x : Rid) :
    (d.dropRid cluster ridInt).ridToHashes.lookup x =
      if x = ridInt then none else d.ridToHashes.lookup x := by
  unfold dropRid
  cases hs : d.ridToHashes.lookup ridInt with
  | none =>
      by_cases hx : x = ridInt
      · rw [if_pos hx, hx]; exact hs
      · rw [if_neg hx]
  | some snap =>
      simp only
      rw [(foldl_dropTurn_dropped cluster snap _).ridToHashes]
      exact Map.lookup_erase_of _ _ _

theorem ridToHashes_bumpRid (cluster : Bool) (d : DemandIndex) (blockHashes : List BlockHash)
    (ridInt x : Rid) : (d.bumpRid cluster blockHashes ridInt).ridToHashes.lookup x =
      if x = ridInt then some blockHashes else d.ridToHashes.lookup x := by
  unfold bumpRid
  simp only
  rw [(bumpLoop_bumped cluster blockHashes 0 d).ridToHashes]
  exact Map.lookup_insert_of _ _ _ _

/-- **Uncounting a request keeps the index right.** -/
theorem OK.dropRid {cluster : Bool} {d : DemandIndex} (hd : OK cluster d) (ridInt : Rid) :
    OK cluster (d.dropRid cluster ridInt) := by
  unfold DemandIndex.dropRid
  cases hs : d.ridToHashes.lookup ridInt with
  | none => exact hd
  | some snap =>
      simp only
      set d0 : DemandIndex := { d with ridToHashes := d.ridToHashes.erase ridInt } with hd0
      obtain ⟨h1, h2, h3, h4⟩ := foldl_dropTurn_dropped cluster snap d0
      set d1 := snap.foldl (dropTurn cluster) d0 with hd1
      have htotal : ∀ h, d1.total h = d0.total h := fun h => by unfold total; rw [h1]
      have hdemand : Counts d1.blockHashDemand d1.total := by
        refine (h2 _ hd.demand).congr fun h => ?_
        rw [htotal, total_eq_add_erase hs, Nat.add_sub_cancel_left]
      have hkeys : cluster = true → ∀ h,
          (d1.blockHashMaxDepth.lookup h).isSome ↔ (d1.blockHashDemand.lookup h).isSome :=
        fun hcl => h3 hcl (hd.depthKeys hcl)
      refine ⟨hdemand, hkeys, fun hcl rid snap' hs' i h hi => ?_⟩
      -- the hash is still in demand, so it still has the depth it had
      have hpos := total_pos hs' (List.mem_of_getElem? hi)
      have hsome := (hkeys hcl h).mpr (hdemand.mem_iff.mpr hpos)
      obtain ⟨m, hm⟩ := Option.isSome_iff_exists.mp hsome
      rw [h1, hd0, Map.lookup_erase_of] at hs'
      by_cases hr : rid = ridInt
      · rw [if_pos hr] at hs'; simp at hs'
      · rw [if_neg hr] at hs'
        obtain ⟨m', hm', hle⟩ := hd.depth hcl rid snap' hs' i h hi
        have hmm : m' = m := Option.some.inj (hm'.symm.trans (h4 h m hm))
        exact ⟨m, hm, hmm ▸ hle⟩

end DemandIndex

end Peek
