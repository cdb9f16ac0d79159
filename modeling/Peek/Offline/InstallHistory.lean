/-
Runs of the installers over the life of the packages.

An installation of vLLM or SGLang sees installs and reverts, one engine at a time, and upgrades,
which put new contents in the place of the files and leave the backups where they are.  A history
goes along with what an observer remembers: for each file what it held just before the install
that last patched it, and for each engine whether its patches are in.
-/
import Mathlib.Logic.Function.Basic
import Peek.Offline.VllmPatches
import Peek.Offline.SglangPatches

namespace Peek.Installer

open TextPattern

inductive Engine where
  | vllm
  | sglang
  deriving DecidableEq, Repr

/-- The files of the two `PATCHED_FILES`. -/
inductive PatchedFile where
  | kvCacheUtils
  | blockPool
  | scheduler
  | cacheConfig
  | evictPolicy
  | radixCache
  | schedulePolicy
  | serverArgs
  deriving DecidableEq, Repr

def PatchedFile.engine : PatchedFile → Engine
  | .kvCacheUtils | .blockPool | .scheduler | .cacheConfig => .vllm
  | .evictPolicy | .radixCache | .schedulePolicy | .serverArgs => .sglang

/-- `PATCHED_FILES` of the installer of the engine, which is also the order of its `main`. -/
def Engine.patchedFiles : Engine → List PatchedFile
  | .vllm => [.kvCacheUtils, .blockPool, .scheduler, .cacheConfig]
  | .sglang => [.evictPolicy, .radixCache, .schedulePolicy, .serverArgs]

/-- The patch function that `main` calls for the file. -/
def PatchedFile.patch (isalnum : Char → Bool) : PatchedFile → Target → Target × Bool
  | .kvCacheUtils => Vllm.patchKvCacheUtils isalnum
  | .blockPool => Vllm.patchBlockPool
  | .scheduler => Vllm.patchScheduler
  | .cacheConfig => Vllm.patchCacheConfig
  | .evictPolicy => Sglang.patchEvictPolicy
  | .radixCache => Sglang.patchRadixCache
  | .schedulePolicy => Sglang.patchSchedulePolicy
  | .serverArgs => Sglang.patchServerArgs

/-- The files of both packages, each with its backup. -/
abbrev Packages := PatchedFile → Target

/-- `revert`, and how many files it restored. -/
def revert (e : Engine) (dir : Packages) : Packages × Nat :=
  e.patchedFiles.foldl (fun acc f =>
    (Function.update acc.1 f (acc.1 f).revert.1, if (acc.1 f).revert.2 then acc.2 + 1 else acc.2)) (dir, 0)

/-- `main` without `--revert`, and whether all patches went in. -/
def install (isalnum : Char → Bool) (e : Engine) (dir : Packages) : Packages × Bool :=
  e.patchedFiles.foldl (fun acc f =>
    (Function.update acc.1 f (f.patch isalnum (acc.1 f)).1, acc.2 && (f.patch isalnum (acc.1 f)).2)) (dir, true)

/-- Words of Peek, or of its old project name, that a published package does not have in the file. -/
def PatchedFile.ownWords : PatchedFile → List String
  | .evictPolicy | .schedulePolicy => ["superkv"]
  | .radixCache => ["superkv", "QueueAwareStrategy", "queue_ref_count"]
  | .kvCacheUtils | .blockPool | .scheduler | .cacheConfig | .serverArgs => []

def PatchedFile.Unpatched (f : PatchedFile) (content : List Char) : Prop :=
  ∀ x ∈ f.ownWords, contains x (readText content) = false

/-- A published version of the packages. -/
structure Release where
  contents : PatchedFile → Option (List Char)
  unpatched : ∀ f content, contents f = some content → f.Unpatched content

/-- New files, and the backups as they are. -/
def upgrade (e : Engine) (r : Release) (dir : Packages) : Packages :=
  fun f => if f.engine = e then { dir f with file := r.contents f } else dir f

inductive Event where
  | install (e : Engine)
  | revert (e : Engine)
  | upgrade (e : Engine) (r : Release)

structure History where
  dir : Packages
  /-- What the file held just before the install that last patched it. -/
  before : PatchedFile → Option (List Char)
  /-- There was an install, and neither a revert nor an upgrade since. -/
  installed : Engine → Bool

namespace History

def start (r : Release) : History where
  dir f := { file := r.contents f, bak := none }
  before _ := none
  installed _ := false

def step (isalnum : Char → Bool) (s : History) : Event → History
  | .install e =>
      let dir := (Installer.install isalnum e s.dir).1
      { dir
        before := fun f => if (dir f).file ≠ (s.dir f).file then (s.dir f).file else s.before f
        installed := Function.update s.installed e true }
  | .revert e =>
      { dir := (Installer.revert e s.dir).1
        before := fun f => if f.engine = e ∧ (s.dir f).bak.isSome then none else s.before f
        installed := Function.update s.installed e false }
  | .upgrade e r =>
      { dir := Installer.upgrade e r s.dir
        before := s.before
        installed := Function.update s.installed e false }

def run (isalnum : Char → Bool) (s : History) (events : List Event) : History :=
  events.foldl (step isalnum) s

/-- A revert gives back every patched file, and one more install changes nothing. -/
structure Undoable (isalnum : Char → Bool) (s : History) : Prop where
  restores : ∀ f content, s.before f = some content →
    ((Installer.revert f.engine s.dir).1 f).file = some content
  settled : ∀ e, s.installed e = true → (Installer.install isalnum e s.dir).1 = s.dir

/-- What an install is about to patch has no backup, or one of what it holds now. -/
def Ready (isalnum : Char → Bool) (s : History) (e : Engine) : Prop :=
  ∀ f : PatchedFile, f.engine = e → (f.patch isalnum (s.dir f)).1.file ≠ (s.dir f).file →
    (s.dir f).bak = none ∨ (s.dir f).bak = (s.dir f).file

end History

end Peek.Installer
