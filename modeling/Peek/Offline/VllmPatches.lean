/-
The vLLM patches (`python/peek/offline/vllm_patches/install.py`).

The four patch functions, with the texts they look for and the texts they put in.
-/
import Peek.Offline.Installer

namespace Peek.Installer.Vllm

open TextPattern

/-! ### kv_cache_utils.py -/

/-- `queue_aware_method` -/
def queueAwareMethod : String := "
    def popleft_queue_aware(self, n: int) -> list[\"KVCacheBlock\"]:
        \"\"\"Pop *n* blocks, preferring those with lowest queue_ref_count.

        Two-tier eviction:
          Tier 1: blocks with queue_ref_count == 0 (unprotected, LRU order)
          Tier 2: blocks with queue_ref_count > 0 (protected, lowest cost first)

        Falls back to plain LRU (popleft_n) when no blocks are protected.
        \"\"\"
        if n > self.num_free_blocks:
            raise ValueError(
                f\"Cannot pop \x7bn\x7d blocks from the free list \"
                f\"(only \x7bself.num_free_blocks\x7d free)\"
            )

        # Collect all free blocks with their queue_ref_count
        unprotected: list[\"KVCacheBlock\"] = []
        protected: list[\"KVCacheBlock\"] = []
        curr = self.fake_free_list_head.next_free_block
        while curr is not self.fake_free_list_tail and curr is not None:
            if curr.queue_ref_count == 0:
                unprotected.append(curr)
            else:
                protected.append(curr)
            curr = curr.next_free_block

        # If nothing is protected, just use fast LRU path
        if not protected:
            return self.popleft_n(n)

        # Pick from unprotected first (LRU order), then protected (lowest cost)
        # Cost = queue_ref_count (lower = cheaper to evict)
        protected.sort(key=lambda b: b.queue_ref_count)
        victims = unprotected[:n]
        if len(victims) < n:
            victims.extend(protected[: n - len(victims)])

        for block in victims:
            self.remove(block)

        return victims

"

/-- `(    is_null: bool = False\n)` -/
def nullField : Pattern := lit "    is_null: bool = False\n"

def refCountField : String := "
    # Queue-aware eviction: number of waiting-queue requests
    # whose prefix includes this block.
    queue_ref_count: int = 0
"

def addRefCount : List Char → List Char :=
  replaceFirst nullField fun g => g 0 ++ refCountField.toList

/-- `(\n    def get_all_free_blocks\b)`; `isalnum` is `str.isalnum` of a character. -/
def allFreeBlocks (isalnum : Char → Bool) : Pattern :=
  lit "\n    def get_all_free_blocks" ++ [.notNext fun c => isalnum c || c == '_']

/-- The method goes before `get_all_free_blocks`, or to the end of the file. -/
def addPopleft (isalnum : Char → Bool) (text : List Char) : List Char :=
  let new := replaceFirst (allFreeBlocks isalnum) (fun g => queueAwareMethod.toList ++ g 0) text
  if contains "popleft_queue_aware" new then new
  else rstrip new ++ '\n' :: queueAwareMethod.toList

def kvCacheUtilsSteps (isalnum : Char → Bool) : List Step :=
  [.addUnless "queue_ref_count" addRefCount, .addUnless "popleft_queue_aware" (addPopleft isalnum)]

/-- `patch_kv_cache_utils` -/
def patchKvCacheUtils (isalnum : Char → Bool) : Target → Target × Bool :=
  patchFile (kvCacheUtilsSteps isalnum)

/-! ### block_pool.py -/

/-- `QUEUE_REF_METHODS` -/
def queueRefMethods : String := "
    # ------------------------------------------------------------------
    # Queue-aware eviction: reference counting
    # ------------------------------------------------------------------

    def reset_queue_ref_counts(self) -> None:
        \"\"\"Reset queue_ref_count to 0 on all blocks.\"\"\"
        for block in self.blocks:
            block.queue_ref_count = 0

    def inc_queue_ref_count(self, blocks: list[\"KVCacheBlock\"]) -> None:
        \"\"\"Increment queue_ref_count on a list of cached blocks.\"\"\"
        for block in blocks:
            if not block.is_null:
                block.queue_ref_count += 1

"

/-- `(\n    def get_num_free_blocks\(self\))` -/
def numFreeBlocks : Pattern := lit "\n    def get_num_free_blocks(self)"

def addRefMethods : List Char → List Char :=
  replaceFirst numFreeBlocks fun g => queueRefMethods.toList ++ g 0

def metricsParameter : Pattern :=
  lit "        metrics_collector: KVCacheMetricsCollector | None = None,\n    ):"

def metricsAttribute : Pattern :=
  lit "        self.metrics_collector = metrics_collector\n"

def flagParameter : String := "        metrics_collector: KVCacheMetricsCollector | None = None,
        enable_queue_aware_eviction: bool = False,
    ):"

def addParameter : List Char → List Char :=
  replaceFirst metricsParameter fun _ => flagParameter.toList

def flagAttribute : String := "        import os as _os
        self.enable_queue_aware_eviction = (
            enable_queue_aware_eviction
            or _os.environ.get(\"PEEK_QUEUE_AWARE\") == \"1\"
        )
"

def addAttribute : List Char → List Char :=
  replaceFirst metricsAttribute fun g => g 0 ++ flagAttribute.toList

def poplefts : Pattern :=
  lit "        ret: list[KVCacheBlock] = self.free_block_queue.popleft_n(num_blocks)"

def queueAwareCall : String := "        if self.enable_queue_aware_eviction:
            ret: list[KVCacheBlock] = self.free_block_queue.popleft_queue_aware(num_blocks)
        else:
            ret: list[KVCacheBlock] = self.free_block_queue.popleft_n(num_blocks)"

def usePopleft : List Char → List Char :=
  replaceFirst poplefts fun _ => queueAwareCall.toList

def blockPoolSteps : List Step :=
  [.addUnless "reset_queue_ref_counts" addRefMethods,
    .addUnless "enable_queue_aware_eviction" fun text => addAttribute (addParameter text),
    .addUnless "popleft_queue_aware" usePopleft]

/-- `patch_block_pool` -/
def patchBlockPool : Target → Target × Bool := patchFile blockPoolSteps

/-! ### scheduler.py -/

/-- `PEEK_SCHEDULER_CODE` -/
def peekSchedulerCode : String := "        # Peek: all feature gating is inside vllm_on_schedule
        from peek.offline.scheduler import vllm_on_schedule as _peek_hook
        _peek_hook(self)

"

/-- `        # (?:Peek|Queue-aware).*?(?=        # (?:NOTE|There\'s no))`, with `re.DOTALL` -/
def oldPatch : Pattern :=
  lit "        # " ++ [.word ["Peek", "Queue-aware"], .many true fun _ => true,
    .ahead ["        # NOTE", "        # There's no"]]

def removeOldPatch (text : List Char) : List Char :=
  if contains "_peek_enabled" text || contains "reset_queue_ref_counts" text then
    replaceFirst oldPatch (fun _ => []) text
  else text

def scheduleNote : Pattern :=
  lit "    def schedule(self) -> SchedulerOutput:\n        # NOTE(woosuk) on the scheduling algorithm:\n"

def scheduleDef : Pattern := lit "    def schedule(self) -> SchedulerOutput:\n"

def addHook (schedule : Pattern) : List Char → List Char :=
  replaceFirst schedule fun g => g 0 ++ peekSchedulerCode.toList

/-- The text that `patch_scheduler` makes of a text without the hook. -/
def hooked (text : List Char) : List Char :=
  let text := addHook scheduleNote (removeOldPatch text)
  if contains "_peek_hook" text then text else addHook scheduleDef text

/-- `patch_scheduler` -/
def patchScheduler (t : Target) : Target × Bool :=
  match t.file with
  | none => (t, false)
  | some content =>
      let text := readText content
      if contains "_peek_hook" text then (t, true)
      else if contains "_peek_hook" (hooked text) then (t.backup.write (hooked text), true)
      else (t.backup, false)

/-! ### cache.py -/

def prefixCaching : Pattern := lit "    enable_prefix_caching: bool = True\n"

def flagField : String := "    enable_queue_aware_eviction: bool = False\n"

def addField : List Char → List Char :=
  replaceFirst prefixCaching fun g => g 0 ++ flagField.toList

/-- `patch_cache_config` -/
def patchCacheConfig (t : Target) : Target × Bool :=
  match t.file with
  | none => (t, false)
  | some content =>
      let text := readText content
      if contains "enable_queue_aware_eviction" text then (t, true)
      else if contains "enable_queue_aware_eviction" (addField text) then
        (t.backup.write (addField text), true)
      else (t.backup, false)

end Peek.Installer.Vllm
