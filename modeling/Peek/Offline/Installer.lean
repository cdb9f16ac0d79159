/-
How the installers change a file (`python/peek/offline/vllm_patches/install.py` and
`sglang_patches/install.py`).

Both installers patch a file the same way.  A step looks for its marker in the text and, if it
is not there, sees to it that there is a backup and edits the text; at the end the text is
written if a step has changed it.  A backup is only made where there is none, and only a revert
takes it away.

The contents of a file are its decoded characters.  Reading makes every end of line a "\n";
copying does not.
-/
import Peek.Base.TextPattern
import Mathlib.Data.List.DropRight

namespace Peek.Installer

open TextPattern

/-! ### Characters -/

/-- What `str.isspace` and `\s` take. -/
def spaces : List Char :=
  [9, 10, 11, 12, 13, 28, 29, 30, 31, 32, 133, 160, 5760, 8192, 8193, 8194, 8195, 8196, 8197, 8198,
    8199, 8200, 8201, 8202, 8232, 8233, 8239, 8287, 12288].map Char.ofNat

def isSpace (c : Char) : Bool := spaces.contains c

/-- `.` without `re.DOTALL`. -/
def isDot (c : Char) : Bool := c != '\n'

/-- `\s*` -/
def spacesItem : Item := .many false isSpace

/-- `\s+` -/
def someSpaces : Pattern := [.one isSpace, .many false isSpace]

/-- `str.rstrip` -/
def rstrip (s : List Char) : List Char := s.rdropWhile isSpace

/-- The ends of line that `Path.read_text` reads as a "\n": "\r\n", and "\r" by itself. -/
def readText : List Char → List Char
  | [] => []
  | c :: s =>
      if c = '\r' then
        if s.head? = some '\n' then readText s else '\n' :: readText s
      else c :: readText s

/-! ### One file and its backup -/

structure Target where
  /-- The file, if it is there. -/
  file : Option (List Char)
  /-- Its `.peek_bak`. -/
  bak : Option (List Char)

namespace Target

/-- `backup` -/
def backup (t : Target) : Target := if t.bak.isSome then t else { t with bak := t.file }

/-- One round of `revert`, and whether it restored the file. -/
def revert (t : Target) : Target × Bool :=
  match t.bak with
  | none => (t, false)
  | some content => ({ file := some content, bak := none }, true)

/-- `path.write_text(text)` -/
def write (text : List Char) (t : Target) : Target := { t with file := some text }

end Target

/-! ### The steps of a patch -/

/-- The local variables of a patch function. -/
structure Patching where
  target : Target
  text : List Char
  changed : Bool

namespace Patching

/-- `if not changed: backup(path)` -/
def secure (p : Patching) : Target := if p.changed then p.target else p.target.backup

/-- `if changed: path.write_text(text)` -/
def finish (p : Patching) : Target := if p.changed then p.target.write p.text else p.target

end Patching

/-- A step of a patch function. -/
inductive Step where
  /-- Edit the text unless the marker is in it. -/
  | addUnless (marker : String) (edit : List Char → List Char)
  /-- The same, but a place that is not found counts as no change. -/
  | addIfFound (marker : String) (edit : List Char → List Char)
  /-- Stale references of the old project name. -/
  | superkv

def Step.run (p : Patching) : Step → Patching
  | .addUnless marker edit =>
      if contains marker p.text then p else { target := p.secure, text := edit p.text, changed := true }
  | .addIfFound marker edit =>
      if contains marker p.text then p
      else if edit p.text ≠ p.text then { target := p.secure, text := edit p.text, changed := true }
      else { p with target := p.secure }
  | .superkv =>
      if contains "superkv" p.text then
        { target := p.secure, text := replaceAll "superkv" "peek".toList p.text, changed := true }
      else p

/-- A patch function made of such steps, and what it returns. -/
def patchFile (steps : List Step) (t : Target) : Target × Bool :=
  match t.file with
  | none => (t, false)
  | some content =>
      ((steps.foldl Step.run { target := t, text := readText content, changed := false }).finish, true)

end Peek.Installer
