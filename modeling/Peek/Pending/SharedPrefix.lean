/-
How far some tokens agree with what is pending (`deepest_with_count` of `src/tree.rs`,
`longest_shared_prefix` and `match_prefix` of `src/pending.rs`).

The count is the same all along an edge, so the walk reads it where the edge ends, also when the
tokens stop before (`countFrom_edge`).  Counts fall along the tokens: the depths where enough
requests pass are those up to the best one, at every turn of the loop (`Best`).
-/
import Mathlib.Data.Nat.Find
import Peek.Pending.Demand

namespace Peek

open Radix

/-- The most that any of the requests has in common with `ts`. -/
def Requests.longestCommon (E : Requests) (ts : List Token) : Nat :=
  (E.map fun e => lcpLen ts e.2).foldr max 0

namespace Tree

def deepestWithCountLoop (t : Tree) (tokens : List Token) (threshold : Nat) :
    Nat → NodeId → Nat → Nat → Nat
  | 0, _, _, best => best
  | fuel + 1, node, consumed, best =>
      if consumed = tokens.length then best
      else
        match (t.node node).children.lookup (tokens.getD consumed 0) with
        | none => best
        | some child =>
            let edge := (t.node child).edge
            let common := matchEdgeLen edge (tokens.drop consumed)
            let consumed := consumed + common
            let best := if (t.node child).pendingCount ≥ threshold then consumed else best
            if common < edge.length then best
            else t.deepestWithCountLoop tokens threshold fuel child consumed best

/-- The length of the longest prefix of `tokens` whose path has the count all along. -/
def deepestWithCount (t : Tree) (tokens : List Token) (threshold : Nat) : Nat :=
  t.deepestWithCountLoop tokens threshold (tokens.length + 1) ROOT 0 0

variable {t : Tree} {live : Set NodeId} {rp : NodeId → List Token} {E : Requests}

/-! ### Counts along the tokens -/

theorem countFrom_mono {p q : List Token} (h : p <+: q) : E.countFrom q ≤ E.countFrom p := by
  refine List.countP_mono_left fun e _ hq => ?_
  rw [List.isPrefixOf_iff_prefix] at hq ⊢
  exact h.trans hq

/-- **The count is the same all along an edge**: it is that of the node where the edge ends. -/
theorem countFrom_edge (h : Counted t live rp E) {ts : List Token} {n c : NodeId} {a : Token} {k j : Nat}
    (hn : n ∈ live) (hp : rp n = ts.take k) (ha : ts[k]? = some a) (hkid : t.heap.kid n a = some c)
    (hkj : k < j) (hj : j ≤ k + lcpLen (t.node c).edge (ts.drop k)) :
    E.countFrom (ts.take j) = (t.node c).pendingCount := by
  have hc := h.labelled.kidLive hn hkid
  obtain ⟨-, hdrop⟩ := Labelled.take_length_of_getElem? ha
  obtain ⟨i, rfl⟩ : ∃ i, j = k + (i + 1) := ⟨j - k - 1, by omega⟩
  obtain ⟨hi, -, htake⟩ := le_lcpLen_iff.mp (by omega : i + 1 ≤ lcpLen (t.node c).edge (ts.drop k))
  have hcut : ts.take (k + (i + 1)) = rp n ++ a :: (ts.drop (k + 1)).take i := by
    rw [List.take_add, ← hp, hdrop, List.take_succ_cons]
  have habove : ts.take (k + (i + 1)) <+: rp c := by
    rw [List.take_add, ← hp, ← htake, h.labelled.kidPath hn hkid]
    exact (List.prefix_append_right_inj (rp n)).mpr (List.take_prefix _ _)
  rw [h.count c hc (h.labelled.kid_ne_root hn hkid)]
  refine countFrom_congr fun e he => ⟨fun hpre => ?_, habove.trans⟩
  exact h.prefix_kid hn hkid he (hcut ▸ hpre)

/-! ### The walk -/

/-- Up to the depth `consumed`, at least `threshold` requests pass exactly as far as `best`. -/
def Best (E : Requests) (ts : List Token) (threshold consumed best : Nat) : Prop :=
  best ≤ consumed ∧ ∀ j, 0 < j → j ≤ consumed → (threshold ≤ E.countFrom (ts.take j) ↔ j ≤ best)

/-- One turn: what the count at the end of the edge says holds of the whole edge. -/
theorem Best.edge {ts : List Token} {threshold consumed best common count : Nat}
    (h : Best E ts threshold consumed best) (hpos : 0 < common)
    (hcount : ∀ j, consumed < j → j ≤ consumed + common → E.countFrom (ts.take j) = count) :
    Best E ts threshold (consumed + common) (if count ≥ threshold then consumed + common else best) := by
  obtain ⟨hle, hbest⟩ := h
  by_cases hreached : count ≥ threshold
  · rw [if_pos hreached]
    refine ⟨Nat.le_refl _, fun j hj hjc => iff_of_true ?_ hjc⟩
    have hlast := hcount (consumed + common) (by omega) (Nat.le_refl _)
    have hmono := countFrom_mono (E := E) (List.take_prefix_take_left hjc : ts.take j <+: ts.take _)
    omega
  · rw [if_neg hreached]
    refine ⟨by omega, fun j hj hjc => ?_⟩
    by_cases hold : j ≤ consumed
    · exact hbest j hj hold
    · rw [hcount j (by omega) hjc]
      omega

/-- The loop goes the way of the descent and knows the best depth on it. -/
theorem deepestWithCountLoop_best (h : Counted t live rp E) (ts : List Token) (threshold : Nat) :
    ∀ (fuel : Nat) (n : NodeId) (k best : Nat), n ∈ live → k ≤ ts.length → rp n = ts.take k →
      ts.length < k + fuel → Best E ts threshold k best →
      Best E ts threshold (t.descendLoop ts fuel n k).consumed
        (t.deepestWithCountLoop ts threshold fuel n k best) := by
  intro fuel
  induction fuel with
  | zero => intro n k best _ hk _ hlt; omega
  | succ fuel ih =>
      intro n k best hn hk hp hlt hbest
      rw [deepestWithCountLoop, descendLoop]
      by_cases hend : k = ts.length
      · rw [if_pos hend, if_pos hend]
        exact hbest
      · rw [if_neg hend, if_neg hend]
        have ha := getElem?_of_ne_length hk hend
        cases hkid : (t.node n).children.lookup (ts.getD k 0) with
        | none => exact hbest
        | some c =>
            have hpos : 0 < lcpLen (t.node c).edge (ts.drop k) := h.labelled.walk_pos hn ha hkid
            have hle := lcpLen_le_right (t.node c).edge (ts.drop k)
            rw [List.length_drop] at hle
            have hnext := hbest.edge hpos fun j hj hjc => countFrom_edge h hn hp ha hkid hj hjc
            simp only [matchEdgeLen_eq]
            by_cases hcut : lcpLen (t.node c).edge (ts.drop k) < (t.node c).edge.length
            · rw [if_pos hcut, if_pos hcut]
              exact hnext
            · rw [if_neg hcut, if_neg hcut]
              have hfull : lcpLen (t.node c).edge (ts.drop k) = (t.node c).edge.length :=
                Nat.le_antisymm (lcpLen_le_left _ _) (Nat.le_of_not_lt hcut)
              refine ih c _ _ (h.labelled.kidLive hn hkid) (by omega) ?_ (by omega) hnext
              rw [h.labelled.walk_full hn hp hkid hfull, hfull]
              rfl

/-- **The depth**: enough requests pass up to there, and no further. -/
theorem le_deepestWithCount_iff (h : Counted t live rp E) (ts : List Token) {threshold : Nat}
    (hpos : 1 ≤ threshold) {j : Nat} (hj : 0 < j) :
    j ≤ t.deepestWithCount ts threshold ↔ j ≤ ts.length ∧ threshold ≤ E.countFrom (ts.take j) := by
  have hlen := consumed_le h.labelled ts
  have hstart : Best E ts threshold 0 0 := ⟨Nat.le_refl 0, fun i hi hi0 => by omega⟩
  obtain ⟨hle, hbest⟩ : Best E ts threshold (t.descend ts).consumed (t.deepestWithCount ts threshold) :=
    deepestWithCountLoop_best h ts threshold (ts.length + 1) ROOT 0 0 h.labelled.rootLive
      (Nat.zero_le _) h.labelled.rootPath (by omega) hstart
  by_cases hreach : j ≤ (t.descend ts).consumed
  · rw [hbest j hj hreach]
    omega
  · refine iff_of_false (by omega) fun ⟨hjlen, hcount⟩ => ?_
    rw [countFrom_eq_zero h (by omega) hjlen] at hcount
    omega

theorem deepestWithCount_eq (h : Counted t live rp E) (ts : List Token) {threshold : Nat}
    (hpos : 1 ≤ threshold) : t.deepestWithCount ts threshold =
      Nat.findGreatest (fun j => threshold ≤ E.countFrom (ts.take j)) ts.length := by
  refine (Nat.findGreatest_eq_iff.mpr ⟨?_, fun hne => ?_, fun j hj hjlen hcount => ?_⟩).symm
  · by_contra hlong
    have hlong := Nat.lt_of_not_le hlong
    have := ((le_deepestWithCount_iff h ts hpos (Nat.zero_lt_of_lt hlong)).mp (Nat.le_refl _)).1
    omega
  · exact ((le_deepestWithCount_iff h ts hpos (Nat.pos_of_ne_zero hne)).mp (Nat.le_refl _)).2
  · have := (le_deepestWithCount_iff h ts hpos (Nat.zero_lt_of_lt hj)).mpr ⟨hjlen, hcount⟩
    omega

end Tree

/-! ### Common prefixes -/

theorem Requests.le_longestCommon_iff (E : Requests) (ts : List Token) {j : Nat} (hj : 0 < j) :
    j ≤ E.longestCommon ts ↔ ∃ e ∈ E, j ≤ lcpLen ts e.2 := by
  unfold Requests.longestCommon
  induction E with
  | nil => simp; omega
  | cons e E ih =>
      rw [List.map_cons, List.foldr_cons, le_max_iff, ih]
      simp

theorem Requests.longestCommon_eq_zero_iff (E : Requests) (ts : List Token) :
    E.longestCommon ts = 0 ↔ ∀ e ∈ E, lcpLen ts e.2 = 0 := by
  rw [← Nat.not_le.trans Nat.lt_one_iff, E.le_longestCommon_iff ts Nat.one_pos]
  simp only [not_exists, not_and, Nat.not_le, Nat.lt_one_iff]

theorem Requests.longestCommon_eq (E : Requests) {ts : List Token} {d : Nat}
    (hd : ∀ j, 0 < j → (j ≤ d ↔ j ≤ ts.length ∧ 1 ≤ E.countFrom (ts.take j))) :
    d = E.longestCommon ts := by
  have hiff : ∀ j, 0 < j → (j ≤ d ↔ j ≤ E.longestCommon ts) := by
    intro j hj
    rw [hd j hj, E.le_longestCommon_iff ts hj, Requests.countFrom, Nat.one_le_iff_ne_zero,
      ← Nat.pos_iff_ne_zero, List.countP_pos_iff]
    constructor
    · rintro ⟨hlen, e, he, hpre⟩
      have hpre := List.isPrefixOf_iff_prefix.mp hpre
      refine ⟨e, he, le_lcpLen_iff.mpr ⟨hlen, ?_, ?_⟩⟩
      · have := hpre.length_le
        rwa [List.length_take, Nat.min_eq_left hlen] at this
      · have := List.prefix_iff_eq_take.mp hpre
        rwa [List.length_take, Nat.min_eq_left hlen] at this
    · rintro ⟨e, he, hle⟩
      obtain ⟨hlen, -, htake⟩ := le_lcpLen_iff.mp hle
      exact ⟨hlen, e, he, List.isPrefixOf_iff_prefix.mpr (htake ▸ List.take_prefix j e.2)⟩
  refine Nat.le_antisymm ?_ ?_
  · rcases Nat.eq_zero_or_pos d with hzero | hpos
    · omega
    · exact (hiff d hpos).mp (Nat.le_refl d)
  · rcases Nat.eq_zero_or_pos (E.longestCommon ts) with hzero | hpos
    · omega
    · exact (hiff _ hpos).mpr (Nat.le_refl _)

namespace PendingTree

def deepestWithCount (p : PendingTree) (tokens : List Token) (threshold : Nat) : Nat :=
  p.tree.deepestWithCount tokens threshold

/-- What `rid` has in common with another request; 0 if `rid` is not pending. -/
def longestSharedPrefix (p : PendingTree) (rid : Rid) : Nat :=
  match p.paths.lookup rid with
  | none => 0
  | some tokens => p.tree.deepestWithCount tokens 2

/-- What `tokens` have in common with any request. -/
def matchPrefix (p : PendingTree) (tokens : List Token) : Nat := p.tree.deepestWithCount tokens 1

/-- The pending requests but for `rid`. -/
def others (p : PendingTree) (rid : Rid) : Requests := p.paths.entries.filter fun e => e.1 ≠ rid

variable {p : PendingTree}

/-- The pending requests are `rid` and the others. -/
theorem perm_others {rid : Rid} {ts : List Token} (hl : p.paths.lookup rid = some ts) :
    p.paths.entries.Perm (⟨rid, ts⟩ :: p.others rid) := by
  have hkept : ∀ e ∈ (p.paths.erase rid).entries, e.1 ≠ rid := by
    rintro ⟨r, us⟩ he rfl
    rw [← AList.mem_lookup_iff, AList.lookup_erase] at he
    exact absurd he (Option.not_mem_none us)
  have hperm := Map.perm_erase_cons hl
  have hfilter := hperm.filter fun e => decide (e.1 ≠ rid)
  rw [List.filter_cons_of_neg (by simp), List.filter_eq_self.mpr fun e he =>
    decide_eq_true (hkept e he)] at hfilter
  exact hperm.trans (hfilter.symm.cons _)

/-- One request more passes than of the others, along the tokens of `rid`. -/
theorem pendingFrom_take {rid : Rid} {ts : List Token} (hl : p.paths.lookup rid = some ts) (j : Nat) :
    p.pendingFrom (ts.take j) = (p.others rid).countFrom (ts.take j) + 1 := by
  have hself : (ts.take j).isPrefixOf ts = true := List.isPrefixOf_iff_prefix.mpr (List.take_prefix j ts)
  rw [pendingFrom, (perm_others hl).countP_eq, List.countP_cons, if_pos hself]
  rfl

theorem Sound.le_longestSharedPrefix_iff (h : Sound p) {rid : Rid} {ts : List Token}
    (hl : p.paths.lookup rid = some ts) {j : Nat} (hj : 0 < j) :
    j ≤ p.longestSharedPrefix rid ↔ j ≤ ts.length ∧ 2 ≤ p.pendingFrom (ts.take j) := by
  obtain ⟨live, rp, hc, -⟩ := h
  unfold longestSharedPrefix
  rw [hl]
  exact Tree.le_deepestWithCount_iff hc ts (by omega) hj

theorem Sound.matchPrefix_eq (h : Sound p) (ts : List Token) :
    p.matchPrefix ts = Requests.longestCommon p.paths.entries ts := by
  obtain ⟨live, rp, hc, -⟩ := h
  exact Requests.longestCommon_eq _ fun j hj => Tree.le_deepestWithCount_iff hc ts (Nat.le_refl 1) hj

theorem Sound.longestSharedPrefix_eq (h : Sound p) (rid : Rid) :
    p.longestSharedPrefix rid = (p.paths.lookup rid).elim 0 (p.others rid).longestCommon := by
  cases hl : p.paths.lookup rid with
  | none =>
      unfold longestSharedPrefix
      rw [hl]
      rfl
  | some ts =>
      refine (p.others rid).longestCommon_eq fun j hj => ?_
      rw [h.le_longestSharedPrefix_iff hl hj, pendingFrom_take hl]
      exact and_congr_right fun _ => Nat.succ_le_succ_iff

/-- **What the tree says of common prefixes after every run**: of some tokens with at least
`threshold` requests, with any request, and of a request with any other. -/
theorem shared_prefixes (ops : List Op) :
    (∀ (ts : List Token) (threshold : Nat), 1 ≤ threshold →
      (run ops).deepestWithCount ts threshold =
        Nat.findGreatest (fun j => threshold ≤ (run ops).pendingFrom (ts.take j)) ts.length) ∧
    (∀ ts, (run ops).matchPrefix ts = Requests.longestCommon (run ops).paths.entries ts) ∧
    ∀ rid, (run ops).longestSharedPrefix rid =
      ((run ops).paths.lookup rid).elim 0 ((run ops).others rid).longestCommon := by
  refine ⟨fun ts threshold hpos => ?_, (sound_run ops).matchPrefix_eq, (sound_run ops).longestSharedPrefix_eq⟩
  obtain ⟨live, rp, hc, -⟩ := sound_run ops
  exact Tree.deepestWithCount_eq hc ts hpos

/-- Inside an edge, with a duplicate and with a prompt that is a prefix of the others. -/
theorem shared_prefixes_nested :
    (run [.insert 1 [5, 6, 7, 8], .insert 2 [5, 6, 7, 9], .insert 3 [5], .insert 4 [5]]).deepestWithCount
        [5, 6, 7, 1] 2 =
      Nat.findGreatest (fun j => 2 ≤ (run [.insert 1 [5, 6, 7, 8], .insert 2 [5, 6, 7, 9], .insert 3 [5],
        .insert 4 [5]]).pendingFrom (List.take j [5, 6, 7, 1])) 4 :=
  (shared_prefixes _).1 _ _ (by decide)

end PendingTree

end Peek
