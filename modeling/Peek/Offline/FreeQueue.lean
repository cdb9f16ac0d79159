/-
Taking blocks from vLLM's free queue (`popleft_queue_aware`, which
`python/peek/offline/vllm_patches/install.py` adds to `FreeKVCacheBlockQueue`).

The free blocks are a linked list between two fake blocks.  The method walks it once and tells
the blocks that nobody waits for from the others, sorts only the others, and then unlinks what it
has chosen.  What it takes is what a stable sort of the whole list by the counts has in front
(`popleftQueueAware_eq`).

`remove` and `popleft_n` are vLLM's.  They are parameters, with what is documented of them.
-/
import Peek.Base.Sorting
import Mathlib.Data.List.Nodup

namespace Peek

/-- `FreeKVCacheBlockQueue`, as the patched method sees it. -/
structure FreeQueue (β σ : Type) where
  numFreeBlocks : Nat
  fakeFreeListHead : β
  fakeFreeListTail : β
  nextFreeBlock : β → Option β
  /-- How many waiting requests have the block in their prefix. -/
  queueRefCount : β → Nat
  /-- What else vLLM keeps. -/
  rest : σ

/-- The methods of vLLM that the patched one calls. -/
structure VllmFreeQueue (β σ : Type) where
  remove : FreeQueue β σ → β → FreeQueue β σ
  popleftN : FreeQueue β σ → Nat → List β × FreeQueue β σ

namespace FreeQueue

variable {β σ : Type} [DecidableEq β]

/-- The loop that collects the free blocks, over at most so many of them. -/
def tiersLoop (s : FreeQueue β σ) : Nat → Option β → List β → List β → List β × List β
  | 0, _, unprotectedBlocks, protectedBlocks => (unprotectedBlocks, protectedBlocks)
  | fuel + 1, curr, unprotectedBlocks, protectedBlocks =>
      match curr with
      | none => (unprotectedBlocks, protectedBlocks)
      | some curr =>
          if curr = s.fakeFreeListTail then (unprotectedBlocks, protectedBlocks)
          else if s.queueRefCount curr = 0 then
            tiersLoop s fuel (s.nextFreeBlock curr) (unprotectedBlocks ++ [curr]) protectedBlocks
          else
            tiersLoop s fuel (s.nextFreeBlock curr) unprotectedBlocks (protectedBlocks ++ [curr])

/-- The unprotected and the protected free blocks. -/
def tiers (s : FreeQueue β σ) : List β × List β :=
  tiersLoop s (s.numFreeBlocks + 1) (s.nextFreeBlock s.fakeFreeListHead) [] []

/-- `popleft_queue_aware`, with the text of its `ValueError`. -/
def popleftQueueAware (v : VllmFreeQueue β σ) (s : FreeQueue β σ) (n : Nat) :
    Except String (List β) × FreeQueue β σ :=
  let numFree := s.numFreeBlocks
  if n > numFree then
    (.error s!"Cannot pop {n} blocks from the free list (only {numFree} free)", s)
  else
    let (unprotectedBlocks, protectedBlocks) := s.tiers
    if protectedBlocks = [] then
      let (ret, s) := v.popleftN s n
      (.ok ret, s)
    else
      let protectedBlocks :=
        protectedBlocks.insertionSort fun b b' => s.queueRefCount b ≤ s.queueRefCount b'
      let victims := unprotectedBlocks.take n
      let victims :=
        if victims.length < n then victims ++ protectedBlocks.take (n - victims.length)
        else victims
      (.ok victims, victims.foldl v.remove s)

/-! ### Linked lists -/

/-- From `a` the links go along these blocks, to the end. -/
def LinksFrom (next : β → Option β) (tail : β) : β → List β → Prop
  | a, [] => next a = some tail
  | a, b :: l => next a = some b ∧ LinksFrom next tail b l

/-- The free blocks, in the order of the links. -/
structure Linked (s : FreeQueue β σ) (l : List β) : Prop where
  links : LinksFrom s.nextFreeBlock s.fakeFreeListTail s.fakeFreeListHead l
  nodup : l.Nodup
  real : s.fakeFreeListHead ∉ l ∧ s.fakeFreeListTail ∉ l
  num : s.numFreeBlocks = l.length

end FreeQueue

/-- What vLLM documents: `remove` unlinks a block, and `popleft_n` takes blocks from the head. -/
structure VllmFreeQueue.Documented {β σ : Type} [DecidableEq β] (v : VllmFreeQueue β σ) : Prop where
  remove : ∀ s l b, FreeQueue.Linked s l → b ∈ l → (v.remove s b).Linked (l.erase b)
  popleftN : ∀ s l n, FreeQueue.Linked s l → n ≤ l.length →
    (v.popleftN s n).1 = l.take n ∧ (v.popleftN s n).2.Linked (l.drop n)

namespace FreeQueue

variable {β σ : Type} [DecidableEq β] {s : FreeQueue β σ} {l : List β}

/-- The walk collects what is linked, each block in its tier. -/
theorem tiersLoop_eq : ∀ (l : List β) (a : β) (fuel : Nat) (unprotectedBlocks protectedBlocks : List β),
    LinksFrom s.nextFreeBlock s.fakeFreeListTail a l → s.fakeFreeListTail ∉ l → l.length < fuel →
    tiersLoop s fuel (s.nextFreeBlock a) unprotectedBlocks protectedBlocks =
      (unprotectedBlocks ++ l.filter (fun b => s.queueRefCount b = 0),
        protectedBlocks ++ l.filter fun b => s.queueRefCount b ≠ 0) := by
  intro l
  induction l with
  | nil =>
      intro a fuel unprotectedBlocks protectedBlocks hlinks _ hfuel
      obtain ⟨fuel, rfl⟩ := Nat.exists_eq_succ_of_ne_zero (Nat.ne_of_gt hfuel)
      have hend : s.nextFreeBlock a = some s.fakeFreeListTail := hlinks
      rw [hend]
      simp [tiersLoop]
  | cons b l ih =>
      intro a fuel unprotectedBlocks protectedBlocks hlinks htail hfuel
      obtain ⟨hnext, hlinks⟩ := hlinks
      obtain ⟨fuel, rfl⟩ := Nat.exists_eq_succ_of_ne_zero (Nat.ne_of_gt (Nat.zero_lt_of_lt hfuel))
      rw [List.mem_cons, not_or] at htail
      have hfuel : l.length < fuel := by simpa using hfuel
      rw [hnext, tiersLoop, if_neg (Ne.symm htail.1)]
      by_cases hb : s.queueRefCount b = 0
      · rw [if_pos hb, ih b fuel _ _ hlinks htail.2 hfuel]
        simp [hb]
      · rw [if_neg hb, ih b fuel _ _ hlinks htail.2 hfuel]
        simp [hb]

theorem Linked.tiers_eq (h : s.Linked l) :
    s.tiers = (l.filter (fun b => s.queueRefCount b = 0),
      l.filter fun b => s.queueRefCount b ≠ 0) :=
  tiersLoop_eq l _ _ [] [] h.links h.real.2 (h.num ▸ Nat.lt_succ_self _)

/-- **Unlinking**: what stays keeps its order. -/
theorem Linked.foldl_remove {v : VllmFreeQueue β σ} (hv : v.Documented) : ∀ (victims : List β)
    {s : FreeQueue β σ} {l : List β}, s.Linked l → victims.Nodup → (∀ b ∈ victims, b ∈ l) →
    (victims.foldl v.remove s).Linked (l.filter fun b => b ∉ victims) := by
  intro victims
  induction victims with
  | nil =>
      intro s l h _ _
      simpa using h
  | cons b victims ih =>
      intro s l h hnd hmem
      rw [List.nodup_cons] at hnd
      rw [List.forall_mem_cons] at hmem
      have hrest : ∀ b' ∈ victims, b' ∈ l.erase b := fun b' hb' =>
        h.nodup.mem_erase_iff.mpr ⟨fun heq => hnd.1 (heq ▸ hb'), hmem.2 b' hb'⟩
      have hunlinked := ih (hv.remove s l b h hmem.1) hnd.2 hrest
      rw [h.nodup.erase_eq_filter, List.filter_filter] at hunlinked
      rw [List.foldl_cons]
      refine Eq.mp (congrArg _ (List.filter_congr fun b' _ => ?_)) hunlinked
      by_cases hb : b' = b
      · simp [hb]
      · simp [hb]

theorem filter_notMem_take {l : List β} (hnd : l.Nodup) (n : Nat) :
    (l.filter fun b => b ∉ l.take n) = l.drop n := by
  have hsplit := congrArg (List.filter fun b => b ∉ l.take n) (List.take_append_drop n l)
  have hdisj := List.disjoint_take_drop hnd (Nat.le_refl n)
  rw [← hsplit, List.filter_append, List.filter_eq_nil_iff.mpr (by simp), List.nil_append,
    List.filter_eq_self]
  exact fun b hb => decide_eq_true fun htake => hdisj htake hb

/-- The free blocks, stably sorted by their counts. -/
def byCount (s : FreeQueue β σ) (l : List β) : List β :=
  l.insertionSort fun b b' => s.queueRefCount b ≤ s.queueRefCount b'

omit [DecidableEq β] in
/-- What is chosen from the two tiers is what the sort has in front. -/
theorem victims_eq (s : FreeQueue β σ) (l : List β) (n : Nat) :
    let victims := (l.filter fun b => s.queueRefCount b = 0).take n
    (if victims.length < n then
      victims ++ ((l.filter fun b => s.queueRefCount b ≠ 0).insertionSort fun b b' =>
        s.queueRefCount b ≤ s.queueRefCount b').take (n - victims.length)
    else victims) = (s.byCount l).take n := by
  intro victims
  have hvictims : victims = (l.filter fun b => s.queueRefCount b = 0).take n := rfl
  have hsorted : s.byCount l = _ :=
    insertionSort_eq_append s.queueRefCount (fun b => Nat.zero_le _) l
  rw [hsorted, List.take_append, ← hvictims]
  have hlen : victims.length = min n (l.filter fun b => s.queueRefCount b = 0).length :=
    List.length_take
  by_cases hfew : victims.length < n
  · rw [if_pos hfew, show victims.length = (l.filter fun b => s.queueRefCount b = 0).length by omega]
  · rw [if_neg hfew, show n - (l.filter fun b => s.queueRefCount b = 0).length = 0 by omega]
    simp

/-- What the method does where there are enough blocks. -/
theorem Linked.popleftQueueAware_of_le (v : VllmFreeQueue β σ) (h : s.Linked l) {n : Nat}
    (hle : n ≤ l.length) : s.popleftQueueAware v n =
      if (l.filter fun b => s.queueRefCount b ≠ 0) = [] then
        (.ok (v.popleftN s n).1, (v.popleftN s n).2)
      else (.ok ((s.byCount l).take n), ((s.byCount l).take n).foldl v.remove s) := by
  unfold popleftQueueAware
  simp only
  rw [if_neg (Nat.not_lt_of_le (h.num ▸ hle)), h.tiers_eq]
  simp only
  rw [victims_eq]

/--
**Which blocks are taken.**  For every linked list of distinct free blocks, all counts and every
`n`: if there are fewer than `n` blocks, it raises and nothing changes.  Otherwise the first `n`
blocks of the list stably sorted by count are returned, and the others stay, in their order.
Where no block has a count, it does what `popleft_n` does.
-/
theorem popleftQueueAware_eq {v : VllmFreeQueue β σ} (hv : v.Documented) (h : s.Linked l) (n : Nat) :
    (l.length < n → ∃ message, s.popleftQueueAware v n = (.error message, s)) ∧
    (n ≤ l.length →
      (s.popleftQueueAware v n).1 = .ok ((s.byCount l).take n) ∧
      (s.popleftQueueAware v n).2.Linked (l.filter fun b => b ∉ (s.byCount l).take n) ∧
      ((∀ b ∈ l, s.queueRefCount b = 0) →
        s.popleftQueueAware v n = (.ok (v.popleftN s n).1, (v.popleftN s n).2))) := by
  have hperm : (s.byCount l).Perm l := List.perm_insertionSort _ l
  constructor
  · intro hlt
    unfold popleftQueueAware
    simp only
    rw [if_pos (h.num ▸ hlt)]
    exact ⟨_, rfl⟩
  · intro hle
    have hpop := h.popleftQueueAware_of_le v hle
    by_cases hnone : (l.filter fun b => s.queueRefCount b ≠ 0) = []
    · -- nothing is protected, and the sort leaves the list as it is
      have hzero : ∀ b ∈ l, s.queueRefCount b = 0 := by simpa using hnone
      have hsorted : s.byCount l = l := by
        refine List.Pairwise.insertionSort_eq (List.pairwise_of_forall_mem_list fun b hb b' _ => ?_)
        exact (hzero b hb).trans_le (Nat.zero_le _)
      obtain ⟨hret, hlinked⟩ := hv.popleftN s l n h hle
      rw [if_pos hnone] at hpop
      rw [hpop, hsorted, filter_notMem_take h.nodup]
      exact ⟨congrArg _ hret, hlinked, fun _ => rfl⟩
    · rw [if_neg hnone] at hpop
      rw [hpop]
      refine ⟨rfl, ?_, fun hzero => absurd (by simpa using hzero) hnone⟩
      refine h.foldl_remove hv _ ((hperm.nodup_iff.mpr h.nodup).sublist (List.take_sublist _ _)) ?_
      exact fun b hb => hperm.subset (List.mem_of_mem_take hb)

/-! ### A list that is linked from block to block -/

/-- Whoever comes before the block is linked to whoever comes after it. -/
def unlink (s : FreeQueue β σ) (b : β) : FreeQueue β σ :=
  { s with
    numFreeBlocks := s.numFreeBlocks - 1
    nextFreeBlock := fun a =>
      if a = b then none
      else if s.nextFreeBlock a = some b then s.nextFreeBlock b
      else s.nextFreeBlock a }

/-- Unlink the first block, so many times. -/
def unlinkFirst : Nat → FreeQueue β σ → List β × FreeQueue β σ
  | 0, s => ([], s)
  | n + 1, s =>
      match s.nextFreeBlock s.fakeFreeListHead with
      | none => ([], s)
      | some b =>
          let (ret, s) := unlinkFirst n (s.unlink b)
          (b :: ret, s)

omit [DecidableEq β] in
theorem LinksFrom.congr {next next' : β → Option β} {tail : β} {l : List β} {a : β}
    (h : LinksFrom next tail a l) (hsame : ∀ x ∈ a :: l, next' x = next x) :
    LinksFrom next' tail a l := by
  induction l generalizing a with
  | nil => exact (hsame a List.mem_cons_self).trans h
  | cons b l ih =>
      rw [List.forall_mem_cons] at hsame
      exact ⟨hsame.1.trans h.1, ih h.2 hsame.2⟩

omit [DecidableEq β] in
/-- The links of the list do not leave it. -/
theorem LinksFrom.next_mem {next : β → Option β} {tail : β} {l : List β} {a x c : β}
    (h : LinksFrom next tail a l) (hx : x ∈ a :: l) (hnext : next x = some c) :
    c ∈ l ∨ c = tail := by
  induction l generalizing a with
  | nil =>
      obtain rfl : x = a := by simpa using hx
      exact Or.inr (Option.some.inj (hnext.symm.trans h))
  | cons b l ih =>
      rcases List.mem_cons.mp hx with rfl | hx
      · obtain rfl : c = b := Option.some.inj (hnext.symm.trans h.1)
        exact Or.inl List.mem_cons_self
      · exact (ih h.2 hx).imp_left (List.mem_cons_of_mem b)

theorem LinksFrom.unlink {l : List β} {a b : β}
    (h : LinksFrom s.nextFreeBlock s.fakeFreeListTail a l) (hnd : l.Nodup) (ha : a ∉ l)
    (htail : s.fakeFreeListTail ∉ l) (hb : b ∈ l) :
    LinksFrom (s.unlink b).nextFreeBlock s.fakeFreeListTail a (l.erase b) := by
  induction l generalizing a with
  | nil => simp at hb
  | cons c l ih =>
      obtain ⟨hnext, hrest⟩ := h
      rw [List.nodup_cons] at hnd
      rw [List.mem_cons, not_or] at htail
      have hab : a ≠ b := fun heq => ha (heq ▸ hb)
      by_cases hc : c = b
      · -- `a` takes over the link of the block that leaves
        subst hc
        have hskip : (s.unlink c).nextFreeBlock a = s.nextFreeBlock c := by
          unfold FreeQueue.unlink
          simp only
          rw [if_neg hab, if_pos hnext]
        rw [List.erase_cons_head]
        cases l with
        | nil => exact hskip.trans hrest
        | cons d l =>
            refine ⟨hskip.trans hrest.1, hrest.2.congr fun x hx => ?_⟩
            have hxc : x ≠ c := fun heq => hnd.1 (heq ▸ hx)
            unfold FreeQueue.unlink
            simp only
            rw [if_neg hxc, if_neg fun hback => ?_]
            rcases hrest.2.next_mem hx hback with hin | hend
            · exact hnd.1 (List.mem_cons_of_mem d hin)
            · exact htail.1 hend.symm
      · have hkept : (s.unlink b).nextFreeBlock a = some c := by
          unfold FreeQueue.unlink
          simp only
          rw [if_neg hab, hnext, if_neg fun heq => hc (Option.some.inj heq)]
        rw [List.erase_cons_tail (by simpa using hc)]
        exact ⟨hkept, ih hrest hnd.2 hnd.1 htail.2 ((List.mem_cons.mp hb).resolve_left (Ne.symm hc))⟩

theorem Linked.unlink (h : s.Linked l) {b : β} (hb : b ∈ l) : (s.unlink b).Linked (l.erase b) where
  links := h.links.unlink h.nodup h.real.1 h.real.2 hb
  nodup := h.nodup.erase b
  real := ⟨fun hin => h.real.1 (List.mem_of_mem_erase hin), fun hin =>
    h.real.2 (List.mem_of_mem_erase hin)⟩
  num := by
    rw [List.length_erase_of_mem hb, ← h.num]
    rfl

theorem Linked.unlinkFirst : ∀ (n : Nat) {s : FreeQueue β σ} {l : List β}, s.Linked l →
    n ≤ l.length → (unlinkFirst n s).1 = l.take n ∧ (unlinkFirst n s).2.Linked (l.drop n) := by
  intro n
  induction n with
  | zero => exact fun h _ => ⟨rfl, h⟩
  | succ n ih =>
      intro s l h hle
      cases l with
      | nil => simp at hle
      | cons b l =>
          have hnext : s.nextFreeBlock s.fakeFreeListHead = some b := h.links.1
          have hunlinked := h.unlink (b := b) List.mem_cons_self
          rw [List.erase_cons_head] at hunlinked
          obtain ⟨hret, hlinked⟩ := ih hunlinked (Nat.le_of_succ_le_succ hle)
          unfold FreeQueue.unlinkFirst
          rw [hnext]
          exact ⟨congrArg (b :: ·) hret, hlinked⟩

theorem unlink_documented :
    (⟨unlink, fun s n => unlinkFirst n s⟩ : VllmFreeQueue β σ).Documented where
  remove _ _ _ h hb := h.unlink hb
  popleftN _ _ n h hle := h.unlinkFirst n hle

/-- Three free blocks, of which the first and the last are waited for. -/
def threeFree : FreeQueue Nat Unit where
  numFreeBlocks := 3
  fakeFreeListHead := 0
  fakeFreeListTail := 4
  nextFreeBlock b := if b < 4 then some (b + 1) else none
  queueRefCount b := if b = 1 then 2 else if b = 3 then 1 else 0
  rest := ()

/-- Two are taken: the one that nobody waits for, and the one with the lower count. -/
theorem popleftQueueAware_three :
    (threeFree.popleftQueueAware ⟨unlink, fun s n => unlinkFirst n s⟩ 2).1 = .ok [2, 3] ∧
      (threeFree.popleftQueueAware ⟨unlink, fun s n => unlinkFirst n s⟩ 2).2.Linked [1] := by
  have hlinked : threeFree.Linked [1, 2, 3] :=
    ⟨⟨rfl, rfl, rfl, rfl⟩, by decide, by decide, rfl⟩
  obtain ⟨hret, hkept, -⟩ := (popleftQueueAware_eq unlink_documented hlinked 2).2 (by decide)
  exact ⟨hret, hkept⟩

end FreeQueue

end Peek
