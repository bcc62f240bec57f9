import Preassembler.Line

/-! Continuation lines.

A line that ends in a backslash goes on with the next line. The joined line has the number of its
first part. -/
namespace Preassembler.Continuation
open Text (byte)

/-- An unfinished line. -/
structure Held where
  /-- The number of its first part. -/
  no : Int
  /-- Its parts without their backslashes, newest first. -/
  parts : List Text
  deriving DecidableEq, Repr

namespace Held

/-- Adds a part. -/
def add (h : Held) (part : Text) : Held := { h with parts := part :: h.parts }

/-- The text joined so far. -/
def text (h : Held) : Text := h.parts.reverse.flatten

/-- The joined line, unless it is empty. -/
def release (h : Held) : List Line := if h.text.isEmpty then [] else [⟨h.no, h.text⟩]

end Held

/-- Takes a line: the line left unfinished and the lines that are finished. -/
def step (held : Option Held) (l : Line) : Option Held × List Line :=
  match Text.dropLast? (byte '\\') l.text, held with
  | some part, none => (some ⟨l.no, [part]⟩, [])
  | some part, some h => (some (h.add part), [])
  | none, none => (none, [l])
  | none, some h => (none, (h.add l.text).release)

/-- The line left unfinished at the end of the input. -/
def flush : Option Held → List Line
  | none => []
  | some h => h.release

end Preassembler.Continuation
