/-
The SGLang patches (`python/peek/offline/sglang_patches/install.py`).

The four patch functions, with the texts they look for and the texts they put in.
-/
import Peek.Offline.Installer

namespace Peek.Installer.Sglang

open TextPattern

/-! ### evict_policy.py -/

/-- `QUEUE_AWARE_STRATEGY_CODE` -/
def queueAwareStrategyCode : String := "

class QueueAwareStrategy(EvictionStrategy):
    \"\"\"Queue-aware eviction: protects blocks referenced by the waiting queue.

    Delegates scoring to ``peek.scheduler.queue_aware_eviction_priority``
    so that the algorithm lives in peek core, not in the sglang patch.
    \"\"\"

    def get_priority(self, node: \"TreeNode\") -> Tuple[float, float]:
        from peek.offline.scheduler import queue_aware_eviction_priority
        return queue_aware_eviction_priority(node)
"

def addStrategy (text : List Char) : List Char :=
  rstrip text ++ '\n' :: queueAwareStrategyCode.toList

def evictPolicySteps : List Step := [.addUnless "QueueAwareStrategy" addStrategy, .superkv]

/-- `patch_evict_policy` -/
def patchEvictPolicy : Target → Target × Bool := patchFile evictPolicySteps

/-! ### radix_cache.py -/

/-- `MATCH_PREFIX_READONLY_METHOD` -/
def matchPrefixReadonlyMethod : String := "
    # ------------------------------------------------------------------
    # Read-only prefix matching (no LRU timestamp update)
    # ------------------------------------------------------------------

    def match_prefix_readonly(self, params: MatchPrefixParams) -> MatchResult:
        \"\"\"Like match_prefix but without updating LRU timestamps.

        Used by Peek's scheduler to score cache state for all prefix
        groups without poisoning eviction priority.  Only the groups
        that are actually admitted should later get a real match_prefix
        (via init_next_round_input) which refreshes their timestamps.
        \"\"\"
        key = params.key
        key, _ = self.maybe_bigram_convert(key)

        def empty_match_result():
            return MatchResult(
                device_indices=torch.empty(
                    (0,),
                    dtype=torch.int64,
                    device=self.device,
                ),
                last_device_node=self.root_node,
                last_host_node=self.root_node,
            )

        if self.disable or len(key) == 0:
            return empty_match_result()

        if self.page_size != 1:
            page_aligned_len = len(key) // self.page_size * self.page_size
            key = key[:page_aligned_len]

        if len(key) == 0:
            return empty_match_result()

        value, last_node = self._match_prefix_helper(self.root_node, key, update_lru=False)
        if value:
            value = torch.cat(value)
        else:
            value = torch.empty((0,), dtype=torch.int64, device=self.device)
        return MatchResult(
            device_indices=value,
            last_device_node=last_node,
            last_host_node=last_node,
        )
"

/-- `QUEUE_REF_METHODS` -/
def queueRefMethods : String := "
    # ------------------------------------------------------------------
    # Queue-aware eviction: reference counting
    # ------------------------------------------------------------------

    def inc_queue_ref(self, node: TreeNode) -> None:
        \"\"\"Increment queue_ref_count on *node* and all ancestors up to root.

        Called when a waiting-queue request's prefix match lands on *node*,
        indicating that every block on the path from root to *node* is needed
        by at least one pending request.
        \"\"\"
        while node != self.root_node:
            node.queue_ref_count += 1
            node = node.parent

    def dec_queue_ref(self, node: TreeNode) -> None:
        \"\"\"Decrement queue_ref_count on *node* and all ancestors up to root.\"\"\"
        while node != self.root_node:
            node.queue_ref_count = max(0, node.queue_ref_count - 1)
            node = node.parent

    def reset_all_queue_refs(self) -> None:
        \"\"\"Reset queue_ref_count to 0 on every node in the tree.

        Called at the start of each scheduling cycle before recomputing
        queue references from the current waiting queue.
        \"\"\"
        stack = [self.root_node]
        while stack:
            node = stack.pop()
            node.queue_ref_count = 0
            for child in node.children.values():
                stack.append(child)
"

def importBlock : Pattern := lit "from sglang.srt.mem_cache.evict_policy import ("

/-- `(from sglang\.srt\.mem_cache\.evict_policy import .+)` -/
def importLine : Pattern :=
  lit "from sglang.srt.mem_cache.evict_policy import " ++ [.one isDot, .many false isDot]

def importBlockHead : String := "from sglang.srt.mem_cache.evict_policy import (\n    QueueAwareStrategy,"

def importStrategy : String := "\nfrom sglang.srt.mem_cache.evict_policy import QueueAwareStrategy"

/-- 2a: in the import block, or else behind an import in one line. -/
def addImport (text : List Char) : List Char :=
  let text := replaceFirst importBlock (fun _ => importBlockHead.toList) text
  if contains "QueueAwareStrategy" text then text
  else replaceFirst importLine (fun g => g 0 ++ importStrategy.toList) text

/-- `(self\.priority = priority\n)` -/
def priorityAttribute : Pattern := lit "self.priority = priority\n"

def refCountLines : String := "        # queue-aware eviction: number of waiting-queue requests referencing
        # this node (or an ancestor/descendant sharing its prefix blocks)
        self.queue_ref_count = 0
"

/-- 2b -/
def addRefCount : List Char → List Char :=
  replaceFirst priorityAttribute fun g => g 0 ++ refCountLines.toList

/-- `(elif self\.eviction_policy == "priority":\s*\n\s*self\.eviction_strategy.*?PriorityStrategy\(\)\n)` -/
def priorityCase : Pattern :=
  lit "elif self.eviction_policy == \"priority\":" ++ (spacesItem :: lit "\n" ++ (spacesItem ::
    lit "self.eviction_strategy" ++ (.many true isDot :: lit "PriorityStrategy()\n")))

/-- `Supported policies: '.*?'\.` -/
def policiesMessage : Pattern :=
  lit "Supported policies: '" ++ (.many true isDot :: lit "'.")

def queueAwareCase : String := "        elif self.eviction_policy == \"queue-aware\":
            self.eviction_strategy: EvictionStrategy = QueueAwareStrategy()
"

def addCase : List Char → List Char :=
  replaceFirst priorityCase fun g => g 0 ++ queueAwareCase.toList

def allPolicies : String := "Supported policies: 'lru', 'lfu', 'fifo', 'mru', 'filo', 'priority', 'queue-aware'."

def updateMessage : List Char → List Char :=
  replaceFirst policiesMessage fun _ => allPolicies.toList

/-- `(new_node\.lock_ref = child\.lock_ref\n)(\s*new_node\.key = child\.key\[:split_len\])` -/
def splitNode : Pattern :=
  lit "new_node.lock_ref = child.lock_ref\n" ++ (.bound :: spacesItem ::
    lit "new_node.key = child.key[:split_len]")

def inheritLine : String := "        new_node.queue_ref_count = child.queue_ref_count\n"

/-- 2d -/
def inheritRefCount : List Char → List Char :=
  replaceFirst splitNode fun g =>
    g 0 ++ (inheritLine.toList ++ g 1)

/-- `(\n    def evictable_size\(self\):)` -/
def evictableSize : Pattern := lit "\n    def evictable_size(self):"

/-- 2e -/
def addRefMethods : List Char → List Char :=
  replaceFirst evictableSize fun g => queueRefMethods.toList ++ g 0

/-- The head of `_match_prefix_helper`; group 1 is its indentation. -/
def matchHelper : Pattern :=
  lit "def _match_prefix_helper(self, node: TreeNode, key: RadixKey):\n" ++ (.bound :: someSpaces ++
    (.bound :: lit "access_time = time.monotonic()\n" ++ (someSpaces ++
      lit "node.last_access_time = access_time\n")))

/-- `(\s+)(child = node\.children\[child_key\]\n)\s+child\.last_access_time = access_time\n` -/
def childAccess : Pattern :=
  someSpaces ++ (.bound :: lit "child = node.children[child_key]\n" ++ (.bound :: someSpaces ++
    lit "child.last_access_time = access_time\n"))

def addUpdateLru : List Char → List Char :=
  replaceFirst matchHelper fun g =>
    "def _match_prefix_helper(self, node: TreeNode, key: RadixKey, update_lru: bool = True):\n".toList ++
      (g 1 ++ ("if update_lru:\n".toList ++
      (g 1 ++ ("    access_time = time.monotonic()\n".toList ++
      (g 1 ++ ("    node.last_access_time = access_time\n".toList ++
      (g 1 ++ ("else:\n".toList ++
      (g 1 ++ "    access_time = None\n".toList)))))))))

def guardAccess : List Char → List Char :=
  replaceFirst childAccess fun g =>
    g 0 ++ (g 1 ++ (g 0 ++ ("if update_lru:\n".toList ++
      (g 0 ++ "    child.last_access_time = access_time\n".toList))))

/-- `(\n    def insert\(self, params: InsertParams\))` -/
def insertDef : Pattern := lit "\n    def insert(self, params: InsertParams)"

/-- 2g -/
def addReadonlyMatch : List Char → List Char :=
  replaceFirst insertDef fun g => matchPrefixReadonlyMethod.toList ++ g 0

def radixCacheSteps : List Step :=
  [.addUnless "QueueAwareStrategy" addImport,
    .addUnless "queue_ref_count" addRefCount,
    .addUnless "\"queue-aware\"" fun text => updateMessage (addCase text),
    .addUnless "queue_ref_count = child.queue_ref_count" inheritRefCount,
    .addUnless "inc_queue_ref" addRefMethods,
    .addUnless "update_lru" fun text => guardAccess (addUpdateLru text),
    .addUnless "match_prefix_readonly" addReadonlyMatch,
    .superkv]

/-- `patch_radix_cache` -/
def patchRadixCache : Target → Target × Bool := patchFile radixCacheSteps

/-! ### schedule_policy.py -/

/-- `PEEK_ENGINE_HOOK` -/
def peekEngineHook : String := "        # --- PeekEngine: delegate when queue-aware eviction is active ---
        if not hasattr(self, '_peek_engine'):
            from peek.offline.engine import PeekEngine
            self._peek_engine = (
                PeekEngine(self.tree_cache, self)
                if PeekEngine.is_enabled(self.tree_cache) else None
            )
        if self._peek_engine is not None:
            return self._peek_engine.run(waiting_queue, running_batch)
        # --- stock SGLang below ---
"

/-- `PEEK_MATCHED_SKIP` -/
def peekMatchedSkip : String := "            # PeekEngine: skip requests already matched at group level
            if getattr(r, '_peek_matched', False):
                continue
"

/-- `(def calc_priority\(\s*self, waiting_queue.*?running_batch.*?\)\s*->\s*bool:\n)`, with `re.DOTALL` -/
def calcPriority : Pattern :=
  lit "def calc_priority(" ++ (spacesItem :: lit "self, waiting_queue" ++ (.many true (fun _ => true) ::
    lit "running_batch" ++ (.many true (fun _ => true) :: lit ")" ++ (spacesItem :: lit "->" ++
      (spacesItem :: lit "bool:\n")))))

def addEngineHook : List Char → List Char :=
  replaceFirst calcPriority fun g => g 0 ++ peekEngineHook.toList

/-- `(for r in waiting_queue:\n)(\s+)(prefix_ids = r\.origin_input_ids)` -/
def waitingLoop : Pattern :=
  lit "for r in waiting_queue:\n" ++ (.bound :: someSpaces ++
    (.bound :: lit "prefix_ids = r.origin_input_ids"))

def addMatchedSkip : List Char → List Char :=
  replaceFirst waitingLoop fun g => g 0 ++ (peekMatchedSkip.toList ++ (g 1 ++ g 2))

def schedulePolicySteps : List Step :=
  [.addIfFound "PeekEngine" addEngineHook, .addIfFound "_peek_matched" addMatchedSkip, .superkv]

/-- `patch_schedule_policy` -/
def patchSchedulePolicy : Target → Target × Bool := patchFile schedulePolicySteps

/-! ### server_args.py -/

/-- `RADIX_EVICTION_POLICY_CHOICES\s*=\s*\[([^\]]*)\]`; the choices are group 1. -/
def policyChoices : Pattern :=
  lit "RADIX_EVICTION_POLICY_CHOICES" ++ (spacesItem :: lit "=" ++ (spacesItem :: lit "[" ++
    (.bound :: .many false (fun c => c != ']') :: .bound :: lit "]")))

def addChoice : List Char → List Char :=
  replaceFirst policyChoices fun g =>
    "RADIX_EVICTION_POLICY_CHOICES = [".toList ++ (rstrip (g 1) ++ ", \"queue-aware\"]".toList)

/-- `patch_server_args` -/
def patchServerArgs (t : Target) : Target × Bool :=
  match t.file with
  | none => (t, false)
  | some content =>
      let text := readText content
      if contains "\"queue-aware\"" text then (t, true)
      else (t.backup.write (addChoice text), true)

end Peek.Installer.Sglang
