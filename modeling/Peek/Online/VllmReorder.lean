/-
The vLLM hook's order of the waiting queue (`python/peek/online/engines/vllm/patch_hook.py`).

vLLM has no order by longest prefix, so the hook asks its KV cache manager what it has of every
waiting prompt, and passes the answers to the sorts that were written for SGLang.  On the way an
answer is put into a dictionary under the request's id, taken over into one under the id's number,
and looked up there by a wrapper that stands for the request.  What comes back to the queue are the
wrapped requests.

`reorder_order` says that nothing is lost or mixed up on the way: the queue keeps its requests, and
each mode orders them by what the cache manager has of their own prompts.
-/
import Peek.Online.SessionDiff
import Peek.Online.SortKeys
import Peek.Online.VllmHook

namespace Peek

/-- What the hook asks vLLM.  The requests' fields are vLLM's own. -/
structure VllmMatching where
  /-- There is a KV cache manager, and it caches prefixes. -/
  enableCaching : Bool
  skipReadingPrefixCache : VllmReq → Bool
  numTokens : VllmReq → Nat
  /-- The tokens of the hit, or nothing if the call raises. -/
  findLongestCacheHit : List BlockHash → Nat → Option Nat

namespace VllmMatching

/-- What one turn of the loop of `_compute_main_hits` writes down. -/
def numHit (m : VllmMatching) (req : VllmReq) : Nat :=
  if m.skipReadingPrefixCache req then 0
  else if req.blockHashes = [] then 0
  else (m.findLongestCacheHit req.blockHashes (m.numTokens req - 1)).getD 0

/-- `_compute_main_hits` -/
def computeMainHits (m : VllmMatching) (wq : List VllmReq) : Map ReqId Nat :=
  if m.enableCaching then wq.foldl (fun out req => out.insert req.requestId (m.numHit req)) ∅
  else ∅

end VllmMatching

/-- `_ReqAdapter`, without the reference to the request, which is found by its id. -/
def reqAdapter (req : VllmReq) (mainHit : Nat) : Req where
  rid := req.requestId
  originInputIds := req.promptTokenIds
  outputIds := req.outputTokenIds
  extraKey := none
  prefixIndices := List.replicate mainHit 0
  lastNode := none
  peekMatched := false

/-- The environment flags of the sorts. -/
structure VllmSort (F : Type) where
  peekClpm : Bool
  checkThreshold : Int
  deprioritizeThreshold : Int
  ageAlpha : F
  bigLaneShare : F
  groupMajor : Bool
  dynamicLane : Bool
  sloBudgetS : F
  phaseTracking : Bool

/-- What a call leaves behind. -/
structure VllmReordered (F : Type) where
  hook : VllmHook
  waiting : List VllmReq
  dynLaneState : Option F

namespace VllmHook

/-- `rid_to_int`, and the tables with every waiting rid in them. -/
def internWaiting (h : VllmHook) (wq : List VllmReq) : Map ReqId Rid × VllmHook :=
  wq.foldl (fun p req => (p.1.insert req.requestId (p.2.session.interner.intern req.requestId).1,
    p.2.internTurn req)) (∅, h)

/-- `main_hits_by_int`; every key of `main_hits_by_str` is one of `rid_to_int`. -/
def mainHitsByInt (ridToInt : Map ReqId Rid) (mainHitsByStr : Map ReqId Nat) : Map Rid Int :=
  mainHitsByStr.entries.foldl (fun out e => out.insert ((ridToInt.lookup e.1).getD 0) (e.2 : Int)) ∅

/-- `arr_ts`; `arriveTs` is what the phase timings have of a rid. -/
def arrTs {F : Type} (arriveTs : ReqId → Option F) (wq : List VllmReq) : Map ReqId F :=
  wq.foldl (fun out req => match arriveTs req.requestId with
    | some ts => out.insert req.requestId ts
    | none => out) ∅

section

variable {F : Type} (fl : PyFloat F) (f : VllmFlags) (g : VllmSort F) (m : VllmMatching)
  (arriveTs : ReqId → Option F) (time : F)

/-- The arguments of `peek_sort_inplace`. -/
def sortOptions (hits : Option (Map Rid Int)) : SortOptions where
  checkThreshold := g.checkThreshold
  deprioritizeThreshold := g.deprioritizeThreshold
  rankByClusterSize := false
  mainHits := hits
  peekLpmSort := f.peekLpm

/-- The arguments of `peek_clpm_sort_inplace`. -/
def clpmOptions (wq : List VllmReq) (hits : Option (Map Rid Int)) : ClpmOptions F where
  checkThreshold := g.checkThreshold
  deprioritizeThreshold := g.deprioritizeThreshold
  mainHits := hits
  arrivalTs := if g.phaseTracking then some (arrTs arriveTs wq) else none
  ageAlpha := g.ageAlpha
  bigLaneShare := g.bigLaneShare
  groupMajor := g.groupMajor
  dynamicLane := g.dynamicLane
  sloBudgetS := g.sloBudgetS

/-- The queue is left as it is. -/
def Skips (wq : List VllmReq) : Prop :=
  f.scheduler = false ∨ f.fcfs = false ∨ wq.length ≤ 1 ∨
    f.peekLpm = true ∧ wq.length > f.lpmFallbackThreshold

instance (wq : List VllmReq) : Decidable (Skips f wq) := inferInstanceAs (Decidable (_ ∨ _))

/-- `wq.append(a._req)` for every adapter. -/
def unwrap (wq : List VllmReq) (adapters : List Req) : List VllmReq :=
  adapters.filterMap fun a => wq.find? fun req => req.requestId = a.rid

/-- The whole of `_reorder_waiting`. -/
def reorder (h : VllmHook) (dynLaneState : Option F) (wq : List VllmReq) : VllmReordered F :=
  if Skips f wq then ⟨h, wq, dynLaneState⟩
  else
    let mainHitsByStr := m.computeMainHits wq
    let (ridToInt, h) := h.internWaiting wq
    let hits := some (mainHitsByInt ridToInt mainHitsByStr)
    let adapters := wq.map fun req =>
      reqAdapter req ((mainHitsByStr.lookup req.requestId).getD 0)
    if g.peekClpm then
      let sorted := peekClpmSortInplace fl (clpmOptions g arriveTs wq hits) ridToInt
        h.session.peekTree time dynLaneState adapters
      ⟨h, unwrap wq sorted.waitingQueue, sorted.dynLaneState⟩
    else
      ⟨h, unwrap wq (peekSortInplace adapters ridToInt h.session.peekTree
        (sortOptions f g hits)).1, dynLaneState⟩

end

end VllmHook

/-! ### The sorts look at the hits of the queue only -/

section

variable {ridToInt : Map ReqId Rid} {hits hits' : Option (Map Rid Int)} {queue : List Req}

theorem insertionSort_congr {α : Type} {le le' : α → α → Prop} [DecidableRel le]
    [DecidableRel le'] {l : List α} (h : ∀ a ∈ l, ∀ b ∈ l, le a b ↔ le' a b) :
    l.insertionSort le = l.insertionSort le' := by
  have hmap := List.map_insertionSort le le' id l h
  rwa [List.map_id, List.map_id] at hmap

theorem peekSortInplace_congr (o : SortOptions) (tree : PendingTree)
    (h : ∀ r ∈ queue, mainHit ridToInt hits r = mainHit ridToInt hits' r) :
    peekSortInplace queue ridToInt tree { o with mainHits := hits } =
      peekSortInplace queue ridToInt tree { o with mainHits := hits' } := by
  have hpass : ∀ allInfo s,
      queue.foldl (sortPassTurn ridToInt allInfo { o with mainHits := hits }) s =
        queue.foldl (sortPassTurn ridToInt allInfo { o with mainHits := hits' }) s := by
    intro allInfo s
    refine List.foldl_ext _ _ _ fun s r hr => ?_
    unfold sortPassTurn claimPrefix
    simp only [h r hr]
  have hlpm : ∀ depr, lpmSort (mainHit ridToInt hits) depr queue =
      lpmSort (mainHit ridToInt hits') depr queue := by
    intro depr
    unfold lpmSort
    have hkeys : (queue.map fun r => (mainHit ridToInt hits r, decide (r.rid ∈ depr))) =
        queue.map fun r => (mainHit ridToInt hits' r, decide (r.rid ∈ depr)) :=
      List.map_congr_left fun r hr => by rw [h r hr]
    rw [hkeys]
  have hcluster : ∀ s, (queue.insertionSort fun a b => clusterKey (mainHit ridToInt hits) s a ≤
      clusterKey (mainHit ridToInt hits) s b) = queue.insertionSort fun a b =>
        clusterKey (mainHit ridToInt hits') s a ≤ clusterKey (mainHit ridToInt hits') s b := by
    intro s
    refine insertionSort_congr fun a ha b hb => ?_
    unfold clusterKey
    rw [h a ha, h b hb]
  have hplain : ∀ s, (queue.insertionSort fun a b => plainKey (mainHit ridToInt hits) s a ≤
      plainKey (mainHit ridToInt hits) s b) = queue.insertionSort fun a b =>
        plainKey (mainHit ridToInt hits') s a ≤ plainKey (mainHit ridToInt hits') s b := by
    intro s
    refine insertionSort_congr fun a ha b hb => ?_
    unfold plainKey
    rw [h a ha, h b hb]
  unfold peekSortInplace
  simp only [hpass, hlpm, hcluster, hplain]

theorem peekClpmSortInplace_congr {F : Type} (fl : PyFloat F) (o : ClpmOptions F)
    (tree : PendingTree) (time : F) (dynLaneState : Option F)
    (h : ∀ r ∈ queue, mainHit ridToInt hits r = mainHit ridToInt hits' r) :
    peekClpmSortInplace fl { o with mainHits := hits } ridToInt tree time dynLaneState queue =
      peekClpmSortInplace fl { o with mainHits := hits' } ridToInt tree time dynLaneState
        queue := by
  have hpass : sectionPass { o with mainHits := hits } (mainHit ridToInt hits) queue =
      sectionPass { o with mainHits := hits' } (mainHit ridToInt hits') queue := by
    refine List.foldl_ext _ _ _ fun s r hr => ?_
    unfold sectionTurn
    rw [h r hr]
  have hmetas : laneMetas fl { o with mainHits := hits } ridToInt tree time queue =
      laneMetas fl { o with mainHits := hits' } ridToInt tree time queue := by
    unfold laneMetas
    refine List.map_congr_left fun r hr => ?_
    show laneMeta fl _ _ _ _ _ (sectionPass { o with mainHits := hits } (mainHit ridToInt hits)
      queue).sectionOf r = _
    rw [hpass]
    unfold laneMeta
    simp only [h r hr]
    rfl
  unfold peekClpmSortInplace
  simp only [hpass, hmetas]
  rfl

end

/-! ### The hits on their way -/

/-- What was put into a dictionary under a key is found there, if nothing else was. -/
theorem lookup_foldl_insert {κ ν α : Type} [DecidableEq κ] (key : α → κ) (value : α → ν)
    (m : Map κ ν) {l : List α} {a : α} (ha : a ∈ l)
    (hsame : ∀ b ∈ l, key b = key a → value b = value a) :
    (l.foldl (fun m b => m.insert (key b) (value b)) m).lookup (key a) = some (value a) := by
  induction l using List.reverseRecOn with
  | nil => exact absurd ha List.not_mem_nil
  | append_singleton l b ih =>
      rw [List.foldl_append, List.foldl_cons, List.foldl_nil, Map.lookup_insert_of]
      by_cases hb : key a = key b
      · rw [if_pos hb, hsame b (List.mem_append_right _ (List.mem_singleton_self b)) hb.symm]
      · rw [if_neg hb]
        have hal : a ∈ l := (List.mem_append.mp ha).resolve_right fun hab =>
          hb (by rw [List.mem_singleton.mp hab])
        exact ih hal fun c hc => hsame c (List.mem_append_left _ hc)

namespace VllmHook

section

variable {h : VllmHook} {wq : List VllmReq}

theorem internWaiting_snd : (h.internWaiting wq).2 = wq.foldl internTurn h := by
  unfold internWaiting
  generalize (∅ : Map ReqId Rid) = ids
  induction wq generalizing h ids with
  | nil => rfl
  | cons req wq ih => exact ih _

/-- `rid_to_int` gives every waiting rid the id that it has in the tables. -/
theorem lookup_internWaiting {req : VllmReq} (hreq : req ∈ wq) :
    ∃ i, (h.internWaiting wq).1.lookup req.requestId = some i ∧
      (h.internWaiting wq).2.session.interner.ridInterner.lookup req.requestId = some i := by
  unfold internWaiting
  induction wq using List.reverseRecOn with
  | nil => exact absurd hreq List.not_mem_nil
  | append_singleton wq req' ih =>
      rw [List.foldl_append, List.foldl_cons, List.foldl_nil]
      set p := wq.foldl (fun p req => (p.1.insert req.requestId
        (p.2.session.interner.intern req.requestId).1, p.2.internTurn req))
        ((∅ : Map ReqId Rid), h) with hp
      show ∃ i, (p.1.insert req'.requestId _).lookup req.requestId = some i ∧
        (p.2.session.interner.intern req'.requestId).2.ridInterner.lookup req.requestId = some i
      rw [Map.lookup_insert_of]
      by_cases hid : req.requestId = req'.requestId
      · refine ⟨_, if_pos hid, ?_⟩
        rw [Interner.lookup_intern, if_pos hid]
      · have hmem : req ∈ wq := (List.mem_append.mp hreq).resolve_right fun hr =>
          hid (by rw [List.mem_singleton.mp hr])
        obtain ⟨i, hi, hi'⟩ := ih hmem
        exact ⟨i, by rw [if_neg hid, hi], Interner.lookup_intern_of_some hi' _⟩

end

end VllmHook

namespace VllmMatching

variable (m : VllmMatching) {wq : List VllmReq}

/-- What vLLM has of a waiting prompt, as far as the hook asks. -/
def hitOf (req : VllmReq) : Nat := if m.enableCaching then m.numHit req else 0

/-- A waiting request with what vLLM has of its prompt. -/
def adapted (req : VllmReq) : Req := reqAdapter req (m.hitOf req)

variable {m}

theorem computeMainHits_off (hc : m.enableCaching = false) : m.computeMainHits wq = ∅ := by
  unfold computeMainHits
  rw [hc, if_neg Bool.false_ne_true]

theorem lookup_computeMainHits (hc : m.enableCaching = true)
    (hids : (wq.map VllmReq.requestId).Nodup) {req : VllmReq} (hreq : req ∈ wq) :
    (m.computeMainHits wq).lookup req.requestId = some (m.hitOf req) := by
  unfold computeMainHits hitOf
  rw [if_pos hc, if_pos hc]
  refine lookup_foldl_insert VllmReq.requestId m.numHit ∅ hreq fun b hb heq => ?_
  rw [List.inj_on_of_nodup_map hids hb hreq heq]

/-- `main_hits_by_str.get(r.request_id, 0)` -/
theorem getD_computeMainHits (hids : (wq.map VllmReq.requestId).Nodup) {req : VllmReq}
    (hreq : req ∈ wq) : ((m.computeMainHits wq).lookup req.requestId).getD 0 = m.hitOf req := by
  cases hc : m.enableCaching with
  | true =>
      rw [lookup_computeMainHits hc hids hreq]
      rfl
  | false =>
      rw [computeMainHits_off hc]
      unfold hitOf
      rw [hc, if_neg Bool.false_ne_true]
      rfl

/-- The keys of `main_hits_by_str` are waiting rids. -/
theorem exists_of_mem_computeMainHits {e : Sigma fun _ : ReqId => Nat}
    (he : e ∈ (m.computeMainHits wq).entries) : ∃ req ∈ wq, req.requestId = e.1 := by
  have hkeys : ∀ (wq : List VllmReq) (out : Map ReqId Nat),
      (wq.foldl (fun out req => out.insert req.requestId (m.numHit req)) out).lookup e.1 =
          some e.2 →
        (∃ req ∈ wq, req.requestId = e.1) ∨ out.lookup e.1 = some e.2 := by
    intro wq
    induction wq with
    | nil => exact fun out hlookup => Or.inr hlookup
    | cons req wq ih =>
        intro out hlookup
        rcases ih _ hlookup with ⟨req', hreq', heq⟩ | hout
        · exact Or.inl ⟨req', List.mem_cons_of_mem _ hreq', heq⟩
        · rw [Map.lookup_insert_of] at hout
          by_cases hid : e.1 = req.requestId
          · exact Or.inl ⟨req, List.mem_cons_self, hid.symm⟩
          · rw [if_neg hid] at hout
            exact Or.inr hout
  have hlookup : (m.computeMainHits wq).lookup e.1 = some e.2 := AList.mem_lookup_iff.mpr he
  cases hc : m.enableCaching with
  | true =>
      unfold computeMainHits at hlookup
      rw [if_pos hc] at hlookup
      exact (hkeys wq ∅ hlookup).resolve_right (by simp)
  | false =>
      rw [computeMainHits_off hc] at hlookup
      simp at hlookup

/-- **The sorts find for every wrapper what vLLM has of its own prompt.** -/
theorem mainHit_adapted {h : VllmHook} (hids : (wq.map VllmReq.requestId).Nodup) {req : VllmReq}
    (hreq : req ∈ wq) :
    let ids := (h.internWaiting wq).1
    mainHit ids (some (VllmHook.mainHitsByInt ids (m.computeMainHits wq))) (m.adapted req) =
      m.hitOf req := by
  intro ids
  obtain ⟨i, hi, hi'⟩ := VllmHook.lookup_internWaiting (h := h) hreq
  have hget : ∀ hits : Map Rid Int, mainHit (h.internWaiting wq).1 (some hits) (m.adapted req) =
      (hits.lookup i).getD 0 := by
    intro hits
    have hi : (h.internWaiting wq).1.lookup (m.adapted req).rid = some i := hi
    unfold mainHit
    rw [hi]
  rw [hget]
  cases hc : m.enableCaching with
  | true =>
      have hhit := lookup_computeMainHits hc hids hreq
      -- two rids with one id are the same rid
      have hsame : ∀ e ∈ (m.computeMainHits wq).entries,
          ((h.internWaiting wq).1.lookup e.1).getD 0 = i → (e.2 : Int) = m.hitOf req := by
        intro e he heq
        obtain ⟨req', hreq', hid⟩ := exists_of_mem_computeMainHits he
        obtain ⟨j, hj, hj'⟩ := VllmHook.lookup_internWaiting (h := h) hreq'
        rw [hid] at hj hj'
        rw [hj, Option.getD_some] at heq
        have hrid := (h.internWaiting wq).2.session.interner.injective hj' (heq ▸ hi')
        have he := AList.mem_lookup_iff.mpr he
        rw [hrid] at he
        exact congrArg _ (Option.mem_unique he hhit)
      have hkey : ((h.internWaiting wq).1.lookup req.requestId).getD 0 = i := by
        rw [hi, Option.getD_some]
      have hfound : (VllmHook.mainHitsByInt (h.internWaiting wq).1 (m.computeMainHits wq)).lookup
          (((h.internWaiting wq).1.lookup req.requestId).getD 0) = some (m.hitOf req : Int) :=
        lookup_foldl_insert
          (fun e : Sigma fun _ : ReqId => Nat => ((h.internWaiting wq).1.lookup e.1).getD 0)
          (fun e => (e.2 : Int)) ∅ (AList.mem_lookup_iff.mp hhit) fun e he heq =>
            hsame e he (heq.trans hkey)
      rw [hkey] at hfound
      rw [hfound]
      rfl
  | false =>
      rw [computeMainHits_off hc]
      unfold hitOf
      rw [hc, if_neg Bool.false_ne_true]
      rfl

/-! ### Back to the queue -/

/-- A wrapper leads back to its request. -/
theorem find_adapted (hids : (wq.map VllmReq.requestId).Nodup) {req : VllmReq} (hreq : req ∈ wq) :
    wq.find? (fun req' => req'.requestId = (m.adapted req).rid) = some req := by
  cases hf : wq.find? (fun req' => req'.requestId = (m.adapted req).rid) with
  | some req' =>
      have hid : req'.requestId = (m.adapted req).rid := by simpa using List.find?_some hf
      rw [List.inj_on_of_nodup_map hids (List.mem_of_find?_eq_some hf) hreq hid]
  | none =>
      have hno := List.find?_eq_none.mp hf req hreq
      exact absurd (decide_eq_true rfl) hno

/-- **What comes back are the wrapped requests**, in the order of the wrappers. -/
theorem map_adapted_unwrap (hids : (wq.map VllmReq.requestId).Nodup) {adapters : List Req}
    (hfrom : ∀ a ∈ adapters, a ∈ wq.map m.adapted) :
    (VllmHook.unwrap wq adapters).map m.adapted = adapters := by
  unfold VllmHook.unwrap
  induction adapters with
  | nil => rfl
  | cons a adapters ih =>
      obtain ⟨req, hreq, rfl⟩ := List.mem_map.mp (hfrom a List.mem_cons_self)
      rw [List.filterMap_cons, find_adapted hids hreq, List.map_cons,
        ih fun b hb => hfrom b (List.mem_cons_of_mem _ hb)]

theorem unwrap_perm (hids : (wq.map VllmReq.requestId).Nodup) {adapters : List Req}
    (hperm : adapters.Perm (wq.map m.adapted)) : (VllmHook.unwrap wq adapters).Perm wq := by
  have hback : VllmHook.unwrap wq (wq.map m.adapted) = wq := by
    unfold VllmHook.unwrap
    rw [List.filterMap_map]
    refine (List.filterMap_congr fun req hreq => ?_).trans List.filterMap_some
    exact find_adapted hids hreq
  have hunwrap := hperm.filterMap fun a => wq.find? fun req => req.requestId = a.rid
  exact hunwrap.trans (List.Perm.of_eq hback)

end VllmMatching

/-! ### The order -/

/-- How much vLLM has of a wrapped prompt. -/
def adapterHit (a : Req) : Int := a.prefixIndices.length

/-- Warm, or cold and not a repeat, or a repeat. -/
def hitSection (o : SortOptions) (queue : List Req) (a : Req) : Nat :=
  if adapterHit a > o.checkThreshold then 0 else if Repeats o adapterHit queue a then 2 else 1

/-- The section that Cluster-LPM gives a request. -/
theorem sectionIn_eq_hitSection {F : Type} {o : ClpmOptions F} (ids : Map ReqId Rid)
    (hhits : o.mainHits = none) {so : SortOptions} (hcheck : so.checkThreshold = o.checkThreshold)
    (hdepr : so.deprioritizeThreshold = o.deprioritizeThreshold) {queue : List Req}
    (hrids : (queue.map Req.rid).Nodup) {a : Req} (ha : a ∈ queue) :
    sectionIn o ids queue a = hitSection so queue a := by
  obtain ⟨before, rest, hqueue⟩ := List.append_of_mem ha
  have hmh : mainHit ids o.mainHits = adapterHit := by
    rw [hhits]
    rfl
  have hrepeats : Repeats so adapterHit queue a ↔ Claimed o adapterHit before a := by
    unfold Repeats
    rw [aheadOf_eq hrids hqueue]
    unfold Claimed ClaimsPrefix prefixKeyOf SortOptions.thresholds
    simp only [hcheck, hdepr]
  rw [sectionIn_eq o ids hrids hqueue, hmh]
  unfold sectionBehind hitSection
  simp only [hcheck, hrepeats]

namespace VllmHook

section

variable {F : Type} (fl : PyFloat F) (f : VllmFlags) (g : VllmSort F) (m : VllmMatching)
  (arriveTs : ReqId → Option F) (time : F)

/-- What a sort makes of the queue, as vLLM's cache sees it: `sorted` is a rearranged `queue`. -/
structure OrderedByHits (wq : List VllmReq) (queue sorted : List Req) : Prop where
  /-- `PEEK_ONLINE_LPM`: stock order. -/
  lpm : g.peekClpm = false → f.peekLpm = true →
    sorted = stockLpm (sortOptions f g none) adapterHit queue
  /-- Neither flag: by hit, among equals the repeats last, and then by id. -/
  plain : g.peekClpm = false → f.peekLpm = false → sorted.Pairwise fun a b =>
    adapterHit b < adapterHit a ∨ adapterHit a = adapterHit b ∧
      ((¬ Repeats (sortOptions f g none) adapterHit queue a ∧
          Repeats (sortOptions f g none) adapterHit queue b) ∨
        (Repeats (sortOptions f g none) adapterHit queue a ↔
          Repeats (sortOptions f g none) adapterHit queue b) ∧ a.rid ≤ b.rid)
  /-- `PEEK_ONLINE_CLPM`: in sections, and by hit if nothing else tells requests apart. -/
  sections : g.peekClpm = true → sorted.Pairwise fun a b =>
    hitSection (sortOptions f g none) queue a ≤ hitSection (sortOptions f g none) queue b
  byHit : g.peekClpm = true → g.groupMajor = false →
    (clpmOptions g arriveTs wq none).arrivals = none → sorted.Pairwise fun a b =>
      hitSection (sortOptions f g none) queue a = hitSection (sortOptions f g none) queue b →
        adapterHit b ≤ adapterHit a

variable {fl f g m arriveTs time}

theorem sectionIn_clpmOptions {wq : List VllmReq} {queue : List Req}
    (hrids : (queue.map Req.rid).Nodup) (ids : Map ReqId Rid) {a : Req} (ha : a ∈ queue) :
    sectionIn (clpmOptions g arriveTs wq none) ids queue a =
      hitSection (sortOptions f g none) queue a :=
  @sectionIn_eq_hitSection F (clpmOptions g arriveTs wq none) ids rfl (sortOptions f g none) rfl rfl
    queue hrids a ha

/-- The three sorts, on wrappers that carry their hits. -/
theorem orderedByHits_sort {wq : List VllmReq} {queue : List Req}
    (hrids : (queue.map Req.rid).Nodup) (ids : Map ReqId Rid) (tree : PendingTree)
    (dynLaneState : Option F) : OrderedByHits f g arriveTs wq queue (if g.peekClpm then
      (peekClpmSortInplace fl (clpmOptions g arriveTs wq none) ids tree time dynLaneState
        queue).waitingQueue
      else (peekSortInplace queue ids tree (sortOptions f g none)).1) where
  lpm hclpm hlpm := by
    rw [hclpm, if_neg Bool.false_ne_true]
    exact peekSortInplace_lpm_eq_stockLpm hrids hlpm
  plain hclpm hlpm := by
    rw [hclpm, if_neg Bool.false_ne_true]
    unfold peekSortInplace
    simp only [show (sortOptions f g none).peekLpmSort = false from hlpm,
      show (sortOptions f g none).rankByClusterSize = false from rfl, Bool.false_eq_true, if_false]
    refine (pairwise_sorted _ queue).imp_of_mem fun {a b} ha hb hle => ?_
    rw [plainKey_le_iff, mem_deprioritized_iff hrids ((List.mem_insertionSort _).mp ha),
      mem_deprioritized_iff hrids ((List.mem_insertionSort _).mp hb)] at hle
    exact hle
  sections hclpm := by
    rw [if_pos hclpm]
    obtain ⟨-, -, hperm⟩ := @lanes_perm F fl (clpmOptions g arriveTs wq none) ids tree time
      dynLaneState queue
    refine (pairwise_sections fl (clpmOptions g arriveTs wq none) ids tree time dynLaneState
      hrids).imp_of_mem fun {a b} ha hb hle => ?_
    rwa [sectionIn_clpmOptions hrids ids (hperm.subset ha),
      sectionIn_clpmOptions hrids ids (hperm.subset hb)] at hle
  byHit hclpm hgroup harr := by
    rw [if_pos hclpm]
    obtain ⟨-, -, hperm⟩ := @lanes_perm F fl (clpmOptions g arriveTs wq none) ids tree time
      dynLaneState queue
    refine (pairwise_sectionHit fl (clpmOptions g arriveTs wq none) ids tree time dynLaneState hrids
      harr hgroup).imp_of_mem fun {a b} ha hb hle heq => ?_
    unfold sectionHitKey at hle
    rw [sectionIn_clpmOptions hrids ids (hperm.subset ha),
      sectionIn_clpmOptions hrids ids (hperm.subset hb), heq, Prod.Lex.toLex_le_toLex] at hle
    exact neg_le_neg_iff.mp (hle.resolve_left (lt_irrefl _)).2

variable (fl f g m arriveTs time)

/--
**The queue is ordered by what vLLM has of its own prompts.**  Whatever the tables hold, and
whatever the cache manager answers: the hook moves requests around and does nothing else, and but
for the queues it leaves alone, each mode orders the requests by the hits of their own prompts.
-/
theorem reorder_order {wq : List VllmReq} (hids : (wq.map VllmReq.requestId).Nodup) (h : VllmHook)
    (dynLaneState : Option F) :
    let out := reorder fl f g m arriveTs time h dynLaneState wq
    out.hook = h.reorderWaiting f wq ∧ out.waiting.Perm wq ∧ (Skips f wq → out.waiting = wq) ∧
      (¬ Skips f wq →
        OrderedByHits f g arriveTs wq (wq.map m.adapted) (out.waiting.map m.adapted)) := by
  intro out
  by_cases hskip : Skips f wq
  · have hout : out = ⟨h, wq, dynLaneState⟩ := if_pos hskip
    rw [hout]
    exact ⟨(if_pos hskip).symm, List.Perm.refl wq, fun _ => rfl, fun hc => absurd hskip hc⟩
  · set ids := (h.internWaiting wq).1 with hidsDef
    set tree := (h.internWaiting wq).2.session.peekTree with htree
    set hits : Map Rid Int := mainHitsByInt ids (m.computeMainHits wq) with hhits
    have hadapters : (wq.map fun req =>
        reqAdapter req (((m.computeMainHits wq).lookup req.requestId).getD 0)) = wq.map m.adapted :=
      List.map_congr_left fun req hreq => by
        rw [VllmMatching.getD_computeMainHits hids hreq]
        rfl
    have hrids : ((wq.map m.adapted).map Req.rid).Nodup := by
      rw [List.map_map]
      exact hids
    have hsame : ∀ a ∈ wq.map m.adapted, mainHit ids (some hits) a = mainHit ids none a := by
      intro a ha
      obtain ⟨req, hreq, rfl⟩ := List.mem_map.mp ha
      rw [hhits, VllmMatching.mainHit_adapted hids hreq]
      show (m.hitOf req : Int) = ((List.replicate (m.hitOf req) 0 : List Index).length : Int)
      rw [List.length_replicate]
    set sorted := if g.peekClpm then
      (peekClpmSortInplace fl (clpmOptions g arriveTs wq none) ids tree time dynLaneState
        (wq.map m.adapted)).waitingQueue
      else (peekSortInplace (wq.map m.adapted) ids tree (sortOptions f g none)).1 with hsorted
    have hout : out.hook = (h.internWaiting wq).2 ∧ out.waiting = unwrap wq sorted := by
      show (reorder fl f g m arriveTs time h dynLaneState wq).hook = _ ∧
        (reorder fl f g m arriveTs time h dynLaneState wq).waiting = _
      have hclpm : peekClpmSortInplace fl (clpmOptions g arriveTs wq (some hits)) ids tree time
          dynLaneState (wq.map m.adapted) = _ :=
        peekClpmSortInplace_congr fl (clpmOptions g arriveTs wq none) tree time dynLaneState hsame
      have hpeek : peekSortInplace (wq.map m.adapted) ids tree (sortOptions f g (some hits)) = _ :=
        peekSortInplace_congr (sortOptions f g none) tree hsame
      unfold reorder
      rw [if_neg hskip]
      simp only [hadapters, ← hidsDef, ← htree, ← hhits]
      rw [hclpm, hpeek, hsorted]
      split
      · exact ⟨rfl, rfl⟩
      · exact ⟨rfl, rfl⟩
    have hperm : sorted.Perm (wq.map m.adapted) := by
      rw [hsorted]
      split
      · exact (@lanes_perm F fl (clpmOptions g arriveTs wq none) ids tree time dynLaneState _).2.2
      · exact peekSortInplace_perm _ _ _ _
    obtain ⟨hhook, hwaiting⟩ := hout
    rw [hhook, hwaiting, VllmMatching.map_adapted_unwrap hids fun a ha => hperm.subset ha]
    refine ⟨?_, VllmMatching.unwrap_perm hids hperm, fun hc => absurd hc hskip, fun _ => ?_⟩
    · rw [internWaiting_snd]
      exact (if_neg hskip).symm
    · exact orderedByHits_sort hrids ids tree dynLaneState

end

/-- Blocks of two tokens, of which one is cached. -/
def oneBlock : VllmMatching where
  enableCaching := true
  skipReadingPrefixCache _ := false
  numTokens req := req.tokens.length
  findLongestCacheHit hashes maxLen :=
    some (2 * min (maxLen / 2) (hashes.takeWhile (· = 78)).length)

/-- Two prompts that begin alike, and one that begins with the cached block. -/
def threePrompts : List VllmReq :=
  [⟨"a", [1, 2, 3, 4], [], [12, 34]⟩, ⟨"b", [1, 2, 5, 6], [], [12, 56]⟩, ⟨"c", [7, 8, 9], [], [78]⟩]

/-- Stock order, with thresholds as short as the prompts. -/
def shortThresholds : VllmSort ℚ := ⟨false, 0, 2, 0, 0.7, false, false, 2, false⟩

def lpmFlags : VllmFlags := ⟨true, true, true, true, true, 128⟩

theorem reorder_order_three :
    let out := reorder PyFloat.exact lpmFlags shortThresholds oneBlock (fun _ => none) 0 new none
      threePrompts
    out.waiting.Perm threePrompts ∧
      out.waiting.map oneBlock.adapted = stockLpm (sortOptions lpmFlags shortThresholds none)
        adapterHit (threePrompts.map oneBlock.adapted) ∧
      out.waiting.map VllmReq.requestId = ["c", "a", "b"] := by
  intro out
  have hids : (threePrompts.map VllmReq.requestId).Nodup := by decide
  obtain ⟨-, hperm, -, horder⟩ := reorder_order PyFloat.exact lpmFlags shortThresholds oneBlock
    (fun _ => none) 0 hids new none
  refine ⟨hperm, (horder (by decide)).lpm rfl rfl, ?_⟩
  decide +kernel

end VllmHook

end Peek
