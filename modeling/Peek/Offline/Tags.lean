/-
The server reads the tags the dispatcher writes.

A tag holds two numbers without sign and blanks, and everything behind the third colon is the
client's own rid, colons included (`parsePeekRid_peekRid`).
-/
import Peek.Offline.Dispatcher
import Peek.Offline.PeekRid

namespace Peek

/-- What stands before the first colon is split off. -/
theorem splitColon_append (n : Nat) {s : List Char} (hs : ':' ∉ s) (rest : List Char) :
    splitColon (n + 1) (s ++ ':' :: rest) = s :: splitColon n rest := by
  have hne : ∀ ch ∈ s, decide (ch ≠ ':') = true := fun ch hch =>
    decide_eq_true fun heq => hs (heq ▸ hch)
  rw [splitColon, List.dropWhile_append_of_pos hne, List.takeWhile_append_of_pos hne]
  simp

/-! ### Numbers -/

variable {digits : List Char} (hdigits : ∀ ch ∈ digits, ch.isDigit = true)
include hdigits

theorem intDigits_eq (n : Nat) (last : Bool) (hne : digits = [] → last = true) :
    intDigits n last digits = some (Nat.ofDigitChars 10 digits n) := by
  induction digits generalizing n last with
  | nil => simp [intDigits, hne]
  | cons ch digits ih =>
      have hch := hdigits ch List.mem_cons_self
      have hus : ch ≠ '_' := by
        rintro rfl
        simp at hch
      unfold intDigits
      rw [if_neg hus, if_pos hch, ih (fun c hc => hdigits c (List.mem_cons_of_mem _ hc)) _ _
        fun _ => rfl, Nat.ofDigitChars_cons, Nat.mul_comm]
      rfl

/-- Digits are not stripped off. -/
theorem dropWhile_isBlank : digits.dropWhile isBlank = digits := by
  cases digits with
  | nil => rfl
  | cons ch digits =>
      have hch := hdigits ch List.mem_cons_self
      refine List.dropWhile_cons_of_neg ?_
      have hrange : 48 ≤ ch.toNat ∧ ch.toNat ≤ 57 := Char.isDigit_iff_toNat.mp hch
      unfold isBlank
      rw [decide_eq_true_eq]
      omega

theorem pyInt_eq (hne : digits ≠ []) : pyInt digits = some (Nat.ofDigitChars 10 digits 0 : Int) := by
  have hrev : ∀ ch ∈ digits.reverse, ch.isDigit = true := fun ch hch =>
    hdigits ch (List.mem_reverse.mp hch)
  unfold pyInt
  rw [dropWhile_isBlank hdigits, dropWhile_isBlank hrev, List.reverse_reverse]
  -- no digit is a sign
  split
  · exact absurd (hdigits '-' List.mem_cons_self) (by decide)
  · exact absurd (hdigits '+' List.mem_cons_self) (by decide)
  · rw [intDigits_eq hdigits 0 false fun h => absurd h hne]
    rfl

omit hdigits

theorem pyInt_toDigits (n : Nat) : pyInt (Nat.toDigits 10 n) = some (n : Int) := by
  rw [pyInt_eq (fun ch hch => Nat.isDigit_of_mem_toDigits (by decide) (by decide) hch)
    Nat.toDigits_ne_nil, Nat.ofDigitChars_ten_toDigits]

theorem colon_notMem_repr (n : Nat) : ':' ∉ n.repr.toList := by
  rw [Nat.toList_repr]
  intro hmem
  have := Nat.isDigit_of_mem_toDigits (by decide) (by decide) hmem
  simp at this

/-! ### Tags -/

namespace PeekDispatcher

theorem toList_peekRid (rank groupKeyHash : Nat) (origRid : ReqId) :
    (peekRid rank groupKeyHash origRid).toList =
      "peek".toList ++ ':' :: (rank.repr.toList ++ ':' :: (groupKeyHash.repr.toList ++
        ':' :: origRid.toList)) := by
  show ("peek:" ++ rank.repr ++ ":" ++ groupKeyHash.repr ++ ":" ++ origRid).toList = _
  simp [String.toList_append]

theorem isTagged_peekRid (rank groupKeyHash : Nat) (origRid : ReqId) :
    isTagged (peekRid rank groupKeyHash origRid) = true := by
  unfold isTagged
  rw [toList_peekRid]
  simp

/-- **The server reads what the client wrote.** -/
theorem parsePeekRid_peekRid (rank groupKeyHash : Nat) (origRid : ReqId) :
    parsePeekRid (peekRid rank groupKeyHash origRid) = some ((rank : Int), (groupKeyHash : Int), origRid) := by
  have hpeek : ':' ∉ "peek".toList := by decide
  unfold parsePeekRid
  rw [toList_peekRid, splitColon_append _ hpeek, splitColon_append _ (colon_notMem_repr _),
    splitColon_append _ (colon_notMem_repr _)]
  simp [splitColon, pyInt_toDigits]

end PeekDispatcher

end Peek
