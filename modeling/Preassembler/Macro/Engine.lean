import Preassembler.Macro.Expansion
import Preassembler.Text.Blank

/-! Directives and code lines.

An engine holds the macros in force and the nesting limit. A line that begins with `#define` changes
the macros; any other line is expanded under them. -/
namespace Preassembler.Macro
open Text (ascii byte)

/-- The nesting limit used when none is asked for. -/
def defaultLimit : Nat := 64

/-- The limit in force: a limit that is not positive asks for the default. -/
def effectiveLimit (n : Int) : Nat := if n ≤ 0 then defaultLimit else n.toNat

/-- The macros in force and the nesting limit. -/
structure Engine where
  table : Table
  limit : Nat
  deriving DecidableEq, Repr

namespace Engine

/-- An engine without macros. -/
def new (limit : Int) : Engine := ⟨.empty, effectiveLimit limit⟩

def lookup (e : Engine) (name : Text) : Option Definition := e.table.find? name

/-- Binds a name. -/
def bind (e : Engine) (name : Text) (d : Definition) : Engine :=
  { e with table := e.table.insert name d }

/-- A text with every invocation replaced. -/
def expand (e : Engine) (t : Text) : Except Error Text := e.table.expand e.limit t

/-- Binds a name to a text, expanded under the macros in force. -/
def defineValue (e : Engine) (name text : Text) : Except Error Engine :=
  if isName name then (e.expand text).map fun t => e.bind name (.value t)
  else .error (.badName name)

/-- A definition as it is written: a name, and either parameters and a body or a text. -/
inductive Written where
  | function (name : Text) (params : List Text) (body : Text)
  | value (name text : Text)
  deriving DecidableEq, Repr

/-- Reads the text after `#define`. -/
def Written.parse (t : Text) : Except Error Written :=
  let t := t.trim
  let name := t.takeWhile isNameByte
  if name.isEmpty then .error (.missingName t)
  else match (t.dropWhile isNameByte).dropWhile isGapByte with
    | [] => .ok (.value name [])
    | b :: r =>
      if b == byte '(' then
        match Text.cut? (byte ')') r with
        | none => .error (.openParameters name)
        | some (inner, after) =>
          let params := arguments inner
          if params.isEmpty then .error (.noParameters name)
          else .ok (.function name params (after.dropWhile isGapByte))
      else .ok (.value name (b :: r))

/-- Binds the macro that the text after `#define` describes; the name is part of the answer. -/
def define (e : Engine) (t : Text) : Except Error (Text × Engine) :=
  match Written.parse t with
  | .error c => .error c
  | .ok (.function name params body) =>
    .ok (name, e.bind name (.function (.ofBody params body)))
  | .ok (.value name text) => (e.defineValue name text).map fun e' => (name, e')

/-- What a line comes to. -/
inductive Outcome where
  /-- A directive: the engine after it. -/
  | defined (engine : Engine)
  /-- Code: its expansion. -/
  | code (text : Text)
  deriving DecidableEq, Repr

/-- The word that begins a definition. -/
def directive : Text := ascii "#define"

/-- Handles one line. -/
def process (e : Engine) (line : Text) : Except Error Outcome :=
  match line with
  | [] => (e.expand line).map .code
  | b :: r =>
    if b == byte '#' then
      match Text.after? directive line with
      | some t => (e.define t).map fun (_, e') => .defined e'
      | none => .error (.unknownDirective r)
    else (e.expand line).map .code

end Engine

end Preassembler.Macro
