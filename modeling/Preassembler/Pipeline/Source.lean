import Preassembler.Text.Basic

/-! Source lines.

Lines end at a newline; a carriage return before it belongs to the line's end. A last piece without
a newline is a line unless it is empty. A line that does not fit into the reader's limit ends the
source with an error. -/
namespace Preassembler
open Text (ascii byte)

/-- Why a source ended early. -/
inductive SourceError where
  | lineTooLong
  /-- The source could not be read on; `reason` describes why. -/
  | unreadable (reason : Text)
  deriving DecidableEq, Repr

/-- The lines of a source, and the error it ended with, if any. -/
structure Source where
  lines : List Text
  error : Option SourceError
  deriving DecidableEq, Repr

namespace Source

/-- The number of bytes a line may take, with its ending. -/
def lineLimit : Nat := 1048576

end Source

def SourceError.message : SourceError → Text
  | lineTooLong =>
    ascii "source line longer than " ++ .ofNat Source.lineLimit ++
      ascii " bytes: bufio.Scanner: token too long"
  | unreadable reason => reason

namespace Source

/-- A piece without one carriage return at its end. -/
def dropReturn (t : Text) : Text := (Text.dropLast? (byte '\r') t).getD t

/-- The source made of pieces between newlines, behind the lines already `seen`, newest first. -/
def collect (error : Option SourceError) (seen : List Text) : List Text → Source
  | [] => ⟨seen.reverse, error⟩
  | [piece] =>
    if piece.isEmpty then ⟨seen.reverse, error⟩
    else if lineLimit ≤ piece.length then ⟨seen.reverse, some .lineTooLong⟩
    else ⟨(dropReturn piece :: seen).reverse, error⟩
  | piece :: rest =>
    if lineLimit ≤ piece.length then ⟨seen.reverse, some .lineTooLong⟩
    else collect error (dropReturn piece :: seen) rest

/-- Reads a text that ends with the given error, if any. -/
def read (t : Text) (error : Option SourceError) : Source :=
  collect error [] (t.splitOn (byte '\n'))

/-- The first `n` lines of a source; one that has that many is not read to its end. -/
def take (s : Source) (n : Nat) : Source :=
  if n ≤ s.lines.length then ⟨s.lines.take n, none⟩ else s

end Source

end Preassembler
