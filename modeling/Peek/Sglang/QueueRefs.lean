/-
Queue references on the nodes of the cache (`patched_files/radix_cache.py`).

A node's count says how many protected prefixes run through it; the queue-aware eviction
strategy reads it.  Counting moves nothing in the tree, so every match stays what it was.
-/
import Peek.Sglang.CacheLookup

namespace Peek

namespace RadixCache

def setQueueRef (c : RadixCache) (n : NodeId) (f : Nat → Nat) : RadixCache :=
  c.nodeMut n fun m => { m with queueRefCount := f m.queueRefCount }

def incQueueRef (c : RadixCache) (n : NodeId) : RadixCache :=
  climb (fun n c => c.setQueueRef n (· + 1)) c.nodes.size n c

/-- The inner loop of `_reset_protection`: zero on the way from `n` to the root. -/
def clearQueueRefs (c : RadixCache) (n : NodeId) : RadixCache :=
  climb (fun n c => c.setQueueRef n fun _ => 0) c.nodes.size n c

/-- The loop of `reset_all_queue_refs`; the end of the list it pops from is the head here. -/
def resetLoop : Nat → List NodeId → RadixCache → RadixCache
  | 0, _, c => c
  | _ + 1, [], c => c
  | fuel + 1, node :: stack, c =>
      let c := c.setQueueRef node fun _ => 0
      resetLoop fuel ((Map.values (c.node node).children).reverse ++ stack) c

def resetAllQueueRefs (c : RadixCache) : RadixCache := resetLoop c.nodes.size [rootNode] c

/-- The loop of `_total_size_helper`. -/
def totalLoop (c : RadixCache) : Nat → List NodeId → Nat → Nat
  | 0, _, total => total
  | _ + 1, [], total => total
  | fuel + 1, node :: stack, total =>
      c.totalLoop fuel ((Map.values (c.node node).children).reverse ++ stack)
        (total + (c.node node).value.length)

def totalSize (c : RadixCache) : Nat := c.totalLoop c.nodes.size [rootNode] 0

/-! ### Counting moves nothing -/

theorem onlySplits_setQueueRef (c : RadixCache) (n : NodeId) (f : Nat → Nat) :
    OnlySplits c (c.setQueueRef n f) :=
  onlySplits_of_sameTree (sameTree_nodeMut c n (bookkeeping_queueRef f)) rfl

section

variable {R : RadixCache → RadixCache → Prop} (hrefl : ∀ c, R c c)
  (htrans : ∀ {c1 c2 c3}, R c1 c2 → R c2 c3 → R c1 c3)
include hrefl htrans

theorem resetLoop_rel (hf : ∀ c n f, R c (setQueueRef c n f)) :
    ∀ (fuel : Nat) (stack : List NodeId) (c : RadixCache), R c (resetLoop fuel stack c) := by
  intro fuel
  induction fuel with
  | zero => intro stack c; exact hrefl c
  | succ fuel ih =>
      intro stack c
      cases stack with
      | nil => exact hrefl c
      | cons node stack => exact htrans (hf c node _) (ih _ _)

/-- A fold of such steps is one. -/
theorem foldl_rel {f : RadixCache → NodeId → RadixCache} (hf : ∀ c n, R c (f c n))
    (nodes : List NodeId) (c : RadixCache) : R c (nodes.foldl f c) := by
  induction nodes generalizing c with
  | nil => exact hrefl c
  | cons n nodes ih =>
      rw [List.foldl_cons]
      exact htrans (hf c n) (ih _)

end

theorem onlySplits_incQueueRef (c : RadixCache) (n : NodeId) : OnlySplits c (c.incQueueRef n) :=
  climb_rel OnlySplits.refl OnlySplits.trans (fun n c => onlySplits_setQueueRef c n _) _ n c

theorem onlySplits_clearQueueRefs (c : RadixCache) (n : NodeId) :
    OnlySplits c (c.clearQueueRefs n) :=
  climb_rel OnlySplits.refl OnlySplits.trans (fun n c => onlySplits_setQueueRef c n _) _ n c

theorem onlySplits_resetAllQueueRefs (c : RadixCache) : OnlySplits c c.resetAllQueueRefs :=
  resetLoop_rel OnlySplits.refl OnlySplits.trans onlySplits_setQueueRef _ _ c

theorem onlySplits_foldl {f : RadixCache → NodeId → RadixCache} (hf : ∀ c n, OnlySplits c (f c n))
    (nodes : List NodeId) (c : RadixCache) : OnlySplits c (nodes.foldl f c) :=
  foldl_rel OnlySplits.refl OnlySplits.trans hf nodes c

end RadixCache

end Peek
