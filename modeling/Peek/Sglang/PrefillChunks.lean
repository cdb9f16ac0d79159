/-
At most one request of a batch is left unfinished.

The scheduler keeps one request that is prefilled in chunks.  A batch may begin with its next
chunk; and if that was its last one, or there was none, some other request may be cut instead.
After one cut there is no room for another: either the chunk's tokens are used up to less than a
page (or the align size), or no memory is left for a single token (`Exhausted`).
-/
import Peek.Sglang.LockedSizes
import Peek.Sglang.PrefillSteps

namespace Peek

open RadixCache

namespace PrefillAdder

variable {a a' a0 : PrefillAdder} {align : Option Int} {locks : List NodeId}

/-! ### Room for a chunk -/

section

variable (hps : 0 < a.pageSize)
include hps

theorem chunkRoom_mono {m n : Int} (h : m ≤ n) : a.chunkRoom m ≤ a.chunkRoom n := by
  have hpos : (0 : Int) < a.pageSize := Int.natCast_pos.mpr hps
  exact Int.mul_le_mul_of_nonneg_right (Int.ediv_le_ediv hpos h) hpos.le

theorem chunkRoom_nonpos {m : Int} (h : m ≤ 0) : a.chunkRoom m ≤ 0 :=
  (Int.ediv_mul_le m (Int.ne_of_gt (Int.natCast_pos.mpr hps))).trans h

theorem chunkRoom_sub_ceil (rem t : Int) :
    a.chunkRoom (rem - a.ceilPagedTokens t) = a.chunkRoom rem - a.ceilPagedTokens t := by
  have hpos : (a.pageSize : Int) ≠ 0 := Int.ne_of_gt (Int.natCast_pos.mpr hps)
  obtain ⟨k, hk⟩ := dvd_ceilPaged a.pageSize t
  have hk : a.ceilPagedTokens t = a.pageSize * k := hk
  unfold chunkRoom
  rw [hk, Int.sub_eq_add_neg, ← Int.mul_neg, Int.add_mul_ediv_left _ _ hpos, Int.add_mul]
  rw [Int.neg_mul, Int.mul_comm k]
  rfl

end

/-- There is no chunk to be had, or no memory for a token. -/
def Exhausted (align : Option Int) (a : PrefillAdder) : Prop :=
  (∃ rem, a.remChunkTokens = some rem ∧ (a.chunkRoom rem ≤ 0 ∨ ∃ n ∈ align, a.chunkRoom rem < n)) ∨
    a.remTotalTokens < 1

/-- **A chunk leaves no room for another.** -/
theorem exhausted_after_chunk (hps : 0 < a.pageSize) (halign : ∀ n ∈ align, 0 < n) (rem : Int) :
    a.chunkRoom (rem - a.ceilPagedTokens
      (align.elim (a.chunkRoom rem) fun n => n * (a.chunkRoom rem / n))) ≤ 0 ∨
    ∃ n ∈ align, a.chunkRoom (rem - a.ceilPagedTokens
      (align.elim (a.chunkRoom rem) fun n => n * (a.chunkRoom rem / n))) < n := by
  rw [chunkRoom_sub_ceil hps]
  cases align with
  | none =>
      have hle := le_ceilPaged hps (a.chunkRoom rem)
      have hle : a.chunkRoom rem ≤ a.ceilPagedTokens (a.chunkRoom rem) := hle
      refine Or.inl ?_
      show a.chunkRoom rem - a.ceilPagedTokens (a.chunkRoom rem) ≤ 0
      omega
  | some n =>
      have hn := halign n rfl
      have hle := le_ceilPaged hps (n * (a.chunkRoom rem / n))
      have hle : n * (a.chunkRoom rem / n) ≤ a.ceilPagedTokens (n * (a.chunkRoom rem / n)) := hle
      have hmod := Int.emod_lt_of_pos (a.chunkRoom rem) hn
      have hdiv := Int.mul_ediv_add_emod (a.chunkRoom rem) n
      refine Or.inr ⟨n, rfl, ?_⟩
      show a.chunkRoom rem - a.ceilPagedTokens (n * (a.chunkRoom rem / n)) < n
      omega

/-! ### Offers -/

/-- One request more is offered, with a new token at least, or one is matched. -/
inductive Offer (align : Option Int) : PrefillAdder → PrefillAdder → Prop
  | addOneReq (a : PrefillAdder) (req : PrefillReq) (allowPrefill : Bool)
      (hn : a.treeCache.InTree req.lastNode) (hpos : 1 ≤ req.extendInputLen) :
      Offer align a (a.addOneReq req align allowPrefill).2
  | matchPrefix (a : PrefillAdder) (updateLru : Bool) (key : RadixKey) :
      Offer align a { a with treeCache := (a.treeCache.matchPrefixWith updateLru key).2 }

/-- What the proof needs to know of an adder; `some`: and it has cut a request. -/
structure Cutting (align : Option Int) (a : PrefillAdder) : Prop where
  held : ∃ locks, Held a.treeCache locks
  enabled : a.treeCache.disable = false
  pageSize : 0 < a.pageSize
  clip : 0 ≤ a.clipMaxNewTokens
  cut : a.newChunkedReq ≠ none → Exhausted align a

/-- Of the budgets it is only the chunk's tokens and the total that matter. -/
theorem Exhausted.congr (h : Exhausted align a) (hps : a'.pageSize = a.pageSize)
    (hrem : a'.remChunkTokens = a.remChunkTokens) (htotal : a'.remTotalTokens = a.remTotalTokens) :
    Exhausted align a' := by
  unfold Exhausted chunkRoom at h ⊢
  rw [hps, hrem, htotal]
  exact h

theorem remTotalTokens_congr {c : RadixCache} (he : c.evictableSize = a.treeCache.evictableSize) :
    { a with treeCache := c }.remTotalTokens = a.remTotalTokens := by
  unfold remTotalTokens availableAndEvictable
  rw [he]

/-- **What an offer does to an adder**: nothing, or it takes the request. -/
theorem Cutting.offer (h : Cutting align a) (halign : ∀ n ∈ align, 0 < n) (ho : Offer align a a') :
    Cutting align a' ∧ (Exhausted align a → Exhausted align a' ∧
      a'.newChunkedReq = a.newChunkedReq) := by
  obtain ⟨locks, hk⟩ := h.held
  have hps := h.pageSize
  cases ho with
  | matchPrefix updateLru key =>
      obtain ⟨live, rp, pv, hwf⟩ := hk.wf
      obtain ⟨_, _, _, hgrow⟩ := Cuts.splitOnly (matchPrefixWith_cuts hwf updateLru key) hwf
      have htotal := remTotalTokens_congr (a := a) (hk.evictableSize_matchPrefixWith updateLru key)
      exact ⟨⟨⟨locks, hk.matchPrefixWith updateLru key⟩, hgrow.toLater.disable.trans h.enabled,
        hps, h.clip, fun hc => (h.cut hc).congr rfl rfl htotal⟩,
        fun he => ⟨he.congr rfl rfl htotal, rfl⟩⟩
  | addOneReq req allowPrefill hn hpos =>
      rcases @addOneReq_cases a req hps align allowPrefill with ⟨states, heq⟩ | heq |
        ⟨c, states, req', chunked, prefixLen, tokens, maxNewTokens, htakes, heq⟩
      · rw [heq]
        exact ⟨⟨⟨locks, hk⟩, h.enabled, hps, h.clip, fun hc => (h.cut hc).congr rfl rfl rfl⟩,
          fun he => ⟨he.congr rfl rfl rfl, rfl⟩⟩
      · obtain ⟨hk', hs, he⟩ := hk.lockBack hn
        have htotal := remTotalTokens_congr (a := a) he
        rw [heq]
        exact ⟨⟨⟨locks, hk'⟩, hs.disable.trans h.enabled, hps, h.clip,
          fun hc => (h.cut hc).congr rfl rfl htotal⟩, fun he => ⟨he.congr rfl rfl htotal, rfl⟩⟩
      · rw [heq]
        have hroom := htakes.room
        rw [h.enabled] at hroom
        obtain ⟨hfalse, -⟩ | ⟨hc, htotal, -⟩ := hroom
        · exact Bool.noConfusion hfalse
        · obtain ⟨hk', hs, -⟩ := hk.lockTwice hn
          rw [← hc] at hk' hs
          -- with no memory for a token it would not have been taken
          have hmem : ¬ a.remTotalTokens < 1 := by
            have hextend : req.extendInputLen ≤ a.totalTokens req :=
              Int.le_add_of_nonneg_right (le_min (le_max_right _ _) h.clip)
            have hone : (1 : ℚ) ≤ a.totalTokens req := by exact_mod_cast hpos.trans hextend
            exact not_lt.mpr (hone.trans htotal.le)
          have hceil := htakes.nonneg (Int.le_trans Int.one_nonneg hpos)
          have hkeep : Exhausted align a → Exhausted align
              (a.taken c states req' chunked prefixLen tokens maxNewTokens) ∧
                chunked = a.newChunkedReq := by
            intro hex
            obtain ⟨rem, hrem, hex⟩ := hex.resolve_right hmem
            refine ⟨Or.inl ⟨rem - a.ceilPagedTokens tokens, ?_, ?_⟩, ?_⟩
            · show a.remChunkTokens.map _ = _
              rw [hrem]
              rfl
            · have hmono : a.chunkRoom (rem - a.ceilPagedTokens tokens) ≤ a.chunkRoom rem :=
                chunkRoom_mono hps (by omega)
              exact hex.imp hmono.trans fun ⟨n, hn, hlt⟩ => ⟨n, hn, hmono.trans_lt hlt⟩
            · rcases htakes.chunk with hsame | hd | ⟨-, rem', hrem', hpos', -, hle⟩
              · exact hsame
              · rw [h.enabled] at hd
                exact Bool.noConfusion hd
              · rw [hrem, Option.some.injEq] at hrem'
                subst hrem'
                rcases hex with hex | ⟨n, hn, hlt⟩
                · exact absurd hex (not_le.mpr hpos')
                · exact absurd (hle n hn) (not_le.mpr hlt)
          refine ⟨⟨⟨_, hk'⟩, hs.disable.trans h.enabled, hps, h.clip, fun hc => ?_⟩, hkeep⟩
          rcases htakes.chunk with hsame | hd | ⟨-, rem, hrem, hpos', rfl, -⟩
          · have hc : chunked ≠ none := hc
            rw [hsame] at hc
            exact (hkeep (h.cut hc)).1
          · rw [h.enabled] at hd
            exact Bool.noConfusion hd
          · refine Or.inl ⟨_, ?_, exhausted_after_chunk hps halign rem⟩
            show a.remChunkTokens.map _ = _
            rw [hrem]
            rfl

theorem Cutting.run (h : Cutting align a) (halign : ∀ n ∈ align, 0 < n)
    (hrun : Relation.ReflTransGen (Offer align) a a') :
    Cutting align a' ∧ (Exhausted align a → Exhausted align a' ∧
      a'.newChunkedReq = a.newChunkedReq) := by
  induction hrun with
  | refl => exact ⟨h, fun he => ⟨he, rfl⟩⟩
  | tail _ ho ih =>
      obtain ⟨h1, hkeep1⟩ := ih
      obtain ⟨h2, hkeep2⟩ := h1.offer halign ho
      refine ⟨h2, fun he => ?_⟩
      obtain ⟨he1, heq1⟩ := hkeep1 he
      obtain ⟨he2, heq2⟩ := hkeep2 he1
      exact ⟨he2, heq2.trans heq1⟩

/-- A request that is still not finished after its chunk has used up what there was. -/
theorem exhausted_of_unfinished (hps : 0 < a.pageSize) {req rest : PrefillReq}
    (heq : a.addChunkedReq req = some (some rest, a')) : Exhausted align a' := by
  unfold addChunkedReq at heq
  cases hrem : a.remChunkTokens with
  | none => simp [hrem] at heq
  | some rem =>
      simp only [hrem, Option.some.injEq, Prod.mk.injEq] at heq
      obtain ⟨hrest, rfl⟩ := heq
      set m := min rem (truncToInt a.remTotalTokens) with hm
      set n : Int := if m ≤ 0 then rem else m with hn
      have hlt : n < req.extendInputLen := by
        by_contra hle
        simp [hle] at hrest
      rw [min_eq_right hlt.le, decide_eq_true hlt]
      have hceil : n ≤ a.ceilPagedTokens n := le_ceilPaged hps n
      by_cases hnr : n = rem
      · -- all of the chunk
        refine Or.inl ⟨rem - a.ceilPagedTokens n, ?_, Or.inl (chunkRoom_nonpos hps (by omega))⟩
        show a.remChunkTokens.map _ = _
        rw [hrem]
        rfl
      · -- all of the memory
        have hmn : n = truncToInt a.remTotalTokens ∧ 0 < n := by
          rw [hn] at hnr ⊢
          split at hnr
          · exact absurd rfl hnr
          · rename_i hmpos
            rw [if_neg hmpos]
            omega
        have hfloor : n = ⌊a.remTotalTokens⌋ := by
          obtain ⟨heq, hpos⟩ := hmn
          unfold truncToInt at heq
          split at heq
          · exact heq
          · rename_i hneg
            have : ⌈a.remTotalTokens⌉ ≤ 0 := Int.ceil_le.mpr (by exact_mod_cast (not_le.mp hneg).le)
            omega
        refine Or.inr ?_
        show ((a.availableAndEvictable : Int) : ℚ) -
          (a.remTotalTokenOffset + ((a.ceilPagedTokens n + 0 : Int) : ℚ)) < 1
        have hless := Int.lt_floor_add_one a.remTotalTokens
        rw [← hfloor] at hless
        have hceilq : (n : ℚ) ≤ a.ceilPagedTokens n := by exact_mod_cast hceil
        unfold remTotalTokens at hless
        push_cast
        linarith

theorem addChunkedReq_fields {req : PrefillReq} {rest : Option PrefillReq}
    (heq : a.addChunkedReq req = some (rest, a')) :
    a'.treeCache = a.treeCache ∧ a'.pageSize = a.pageSize ∧
      a'.clipMaxNewTokens = a.clipMaxNewTokens ∧ a'.newChunkedReq = a.newChunkedReq := by
  unfold addChunkedReq at heq
  cases hrem : a.remChunkTokens with
  | none => simp [hrem] at heq
  | some rem =>
      simp only [hrem, Option.some.injEq, Prod.mk.injEq] at heq
      obtain ⟨-, rfl⟩ := heq
      exact ⟨rfl, rfl, rfl, rfl⟩

/-- A prompt of five tokens, of which none is cached. -/
def fiveTokens (rid : ReqId) : PrefillReq :=
  ⟨rid, [1, 2, 3, 4, 5], [], [1, 2, 3, 4, 5], [], rootNode, 5, 0, false, 0, 0, false⟩

/-- An empty cache and ten free slots, in chunks of three tokens. -/
def chunksOfThree : PrefillAdder :=
  new 1 (RadixCache.new 1 false) 10 [] 1 100 (some 3) 0 0 none false 4096

end PrefillAdder

end Peek
