import Preassembler.Macro.Name

/-! Macro bodies.

A value stands for a fixed text. A function stands for a template: literal text with places for the
arguments. A place is an index below the number of parameters, so filling a template with that many
arguments cannot fail. -/
namespace Preassembler.Macro

/-- One piece of a template over `n` parameters. -/
inductive Fragment (n : Nat) where
  | literal (text : Text)
  | param (index : Fin n)
  deriving DecidableEq, Repr

/-- A template and the names of its parameters. -/
structure Function where
  params : List Text
  template : List (Fragment params.length)
  deriving DecidableEq, Repr

/-- What a name stands for. -/
inductive Definition where
  | value (text : Text)
  | function (f : Function)
  deriving DecidableEq, Repr

/-- The place of an argument that was not given, and the number of arguments that were. -/
structure MissingArgument where
  index : Nat
  given : Nat
  deriving DecidableEq, Repr

/-- The description of a missing argument. -/
def MissingArgument.message (m : MissingArgument) : Text :=
  .ascii "runtime error: index out of range [" ++ .ofNat m.index ++ .ascii "] with length " ++
    .ofNat m.given

namespace Fragment

/-- The text of a fragment when every parameter has an argument. -/
def fill {n : Nat} (args : List Text) (h : args.length = n) : Fragment n → Text
  | literal t => t
  | param i => args.get (i.cast h.symm)

/-- The text of a fragment under any number of arguments. -/
def fill? {n : Nat} (args : List Text) : Fragment n → Except MissingArgument Text
  | literal t => .ok t
  | param i => match args[i.val]? with
    | some a => .ok a
    | none => .error ⟨i, args.length⟩

/-- Puts a fragment in front of a template; neighbouring literals become one. -/
def glue {n : Nat} : Fragment n → List (Fragment n) → List (Fragment n)
  | literal a, literal b :: r => literal (a ++ b) :: r
  | f, r => f :: r

/-- The fragment for a lexeme of a body: the place of the first parameter of that name, or the text
itself. -/
def ofLexeme (params : List Text) : Lexeme → Fragment params.length
  | .gap t => literal t
  | .name t => match params.finIdxOf? t with
    | some i => param i
    | none => literal t

end Fragment

namespace Function

/-- The function with the given parameters whose body is `body`. -/
def ofBody (params : List Text) (body : Text) : Function where
  params
  template := (lexemes body).foldr (fun l => Fragment.glue (.ofLexeme params l)) []

/-- The body of a function with its arguments put in place. -/
def render (f : Function) (args : List Text) (h : args.length = f.params.length) : Text :=
  (f.template.map (Fragment.fill args h)).flatten

/-- The body of a function under any number of arguments. Surplus arguments are ignored. -/
def render? (f : Function) (args : List Text) : Except MissingArgument Text :=
  (f.template.mapM (Fragment.fill? args)).map List.flatten

end Function

end Preassembler.Macro
