/-
The tags a client puts into its request ids (`python/peek/offline/engine.py`).

A tagged rid reads `peek:<group_order>:<group_key>:<original_rid>`.  The two numbers go
through Python's `int`, which takes blanks around the digits, a sign, and single
underscores between digits, and raises `ValueError` for anything else.  The digits of
other scripts, which it takes as well, are left out.
-/
import Peek.Sglang.SchedulePolicy

namespace Peek

/-- `s.split(":", n)` -/
def splitColon : Nat → List Char → List (List Char)
  | 0, s => [s]
  | n + 1, s =>
      match s.dropWhile (· ≠ ':') with
      | [] => [s]
      | _ :: rest => s.takeWhile (· ≠ ':') :: splitColon n rest

/-- The digits of an integer literal; `last` says whether a digit stands before them. -/
def intDigits : Nat → Bool → List Char → Option Nat
  | n, last, [] => if last then some n else none
  | n, last, ch :: rest =>
      if ch = '_' then (if last then intDigits n false rest else none)
      else if ch.isDigit then intDigits (n * 10 + (ch.toNat - 48)) true rest
      else none

/-- What `str.strip` takes off. -/
def isBlank (ch : Char) : Bool := ch.toNat = 32 ∨ 9 ≤ ch.toNat ∧ ch.toNat ≤ 13 ∨
  28 ≤ ch.toNat ∧ ch.toNat ≤ 31

/-- `int(s)`; nothing where it raises `ValueError`. -/
def pyInt (s : List Char) : Option Int :=
  match ((s.dropWhile isBlank).reverse.dropWhile isBlank).reverse with
  | '-' :: digits => (intDigits 0 false digits).map fun n => -(n : Int)
  | '+' :: digits => (intDigits 0 false digits).map fun n => (n : Int)
  | digits => (intDigits 0 false digits).map fun n => (n : Int)

/-- `rid.startswith("peek:")` -/
def isTagged (rid : ReqId) : Bool := "peek:".toList.isPrefixOf rid.toList

/-- `_parse_peek_rid`: group order, group key, original rid. -/
def parsePeekRid (rid : ReqId) : Option (Int × Int × ReqId) :=
  match splitColon 3 rid.toList with
  | [tag, groupOrder, groupKey, original] =>
      if tag = "peek".toList then do
        let groupOrder ← pyInt groupOrder
        let groupKey ← pyInt groupKey
        return (groupOrder, groupKey, String.ofList original)
      else some (0, 0, rid)
  | _ => some (0, 0, rid)

example : parsePeekRid "peek:3:-12:req:7" = some (3, -12, "req:7") := by decide

example : parsePeekRid "peek:x" = some (0, 0, "peek:x") := by decide

end Peek
