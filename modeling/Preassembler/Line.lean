import Preassembler.Macro.Error

/-! Numbered lines, and errors that name the line they are about. -/
namespace Preassembler
open Text (ascii)

/-- A line and the number of the source line it came from. -/
structure Line where
  no : Int
  text : Text
  deriving DecidableEq, Repr

/-- The cause of a failure at a line. -/
inductive Cause where
  | expansion (error : Macro.Error)
  /-- A label of more than `width` bytes. -/
  | labelTooLong (label : Text) (width : Nat)
  /-- A label declared while `label` still waits for its instruction. -/
  | labelTwice (declaration label : Text)
  /-- The input ended inside a block comment. -/
  | openComment
  deriving DecidableEq, Repr

/-- The seven kinds of failure. -/
inductive Kind where
  | invalidDirective
  | invalidDefinition
  | wrongArity
  | expansionTooDeep
  | labelTooLong
  | duplicateLabel
  | unterminatedComment
  deriving DecidableEq, Repr

namespace Macro.Error

/-- The kind of failure an error belongs to. -/
def kind : Error → Kind
  | unknownDirective _ => .invalidDirective
  | badName _ => .invalidDefinition
  | missingName _ => .invalidDefinition
  | openParameters _ => .invalidDefinition
  | noParameters _ => .invalidDefinition
  | arity .. => .wrongArity
  | tooDeep .. => .expansionTooDeep

end Macro.Error

namespace Cause

/-- The kind of failure a cause belongs to. -/
def kind : Cause → Kind
  | expansion e => e.kind
  | labelTooLong .. => .labelTooLong
  | labelTwice .. => .duplicateLabel
  | openComment => .unterminatedComment

/-- The wording of a cause. -/
def message : Cause → Text
  | expansion e => e.message
  | labelTooLong l w =>
    ascii "label too long: " ++ l.quote ++ ascii " exceeds " ++ .ofNat w ++ ascii " characters"
  | labelTwice d l =>
    ascii "multiple labels for the same line: " ++ d.quote ++ ascii " already labeled " ++ l.quote
  | openComment => ascii "unterminated block comment"

end Cause

/-- A failure and the line that caused it. -/
structure LineError where
  line : Line
  cause : Cause
  deriving DecidableEq, Repr

/-- A failure names its line by number and text; a line without a positive number is not named. -/
def LineError.message (e : LineError) : Text :=
  if e.line.no ≤ 0 then e.cause.message
  else
    ascii "line " ++ .ofInt e.line.no ++ ascii ": " ++ e.cause.message ++ ascii ": " ++
      e.line.text.quote

end Preassembler
