import Preassembler.Text.Quoted

/-! Why a directive or an expansion is refused. -/
namespace Preassembler.Macro

/-- The cause of a refused directive, definition or expansion. -/
inductive Error where
  /-- A line that begins with a number sign but is no definition; `text` follows the sign. -/
  | unknownDirective (text : Text)
  /-- A predefined name that is no name. -/
  | badName (name : Text)
  /-- A definition that does not begin with a name. -/
  | missingName (definition : Text)
  /-- A parameter list that is never closed. -/
  | openParameters (name : Text)
  /-- A parameter list without parameters. -/
  | noParameters (name : Text)
  /-- A call with the wrong number of arguments. -/
  | arity (name : Text) (expected given : Nat)
  /-- Replacements nested deeper than the limit. -/
  | tooDeep (name : Text) (limit : Nat)
  deriving DecidableEq, Repr

namespace Error

/-- The wording of a cause. -/
def message : Error → Text
  | unknownDirective t => .ascii "invalid directive: " ++ t
  | badName n => .ascii "invalid macro definition: bad macro name " ++ n.quote
  | missingName d => .ascii "invalid macro definition: " ++ d.quote ++ .ascii " has no macro name"
  | openParameters n => .ascii "invalid macro definition: unterminated parameter list for " ++ n
  | noParameters n => .ascii "invalid macro definition: empty parameter list for " ++ n
  | arity n e g =>
    .ascii "wrong number of macro arguments: " ++ n ++ .ascii " expects " ++ .ofNat e ++
      .ascii ", got " ++ .ofNat g
  | tooDeep n l =>
    .ascii "macro expansion too deep: " ++ n ++ .ascii " nested more than " ++ .ofNat l ++
      .ascii " levels"

end Error

end Preassembler.Macro
