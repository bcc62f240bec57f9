import Preassembler.Stage

/-! Settings of a pipeline, and the stages they call for. -/
namespace Preassembler
open Text (ascii)

/-- The settings of a pipeline. -/
structure Options where
  /-- Width of the label field; the default when not positive. -/
  labelWidth : Int := Label.defaultWidth
  /-- Nesting limit of macro expansion; the default when not positive. -/
  expansionLimit : Int := Macro.defaultLimit
  /-- Whether a block comment left open at the end of the input is an error. -/
  strictComments : Bool := false
  /-- Whether registers are written as numbers. -/
  numberRegisters : Bool := true
  /-- Value macros defined before the first line. -/
  defines : Dictionary Text := .empty
  deriving DecidableEq, Repr

/-- A predefined macro that was refused. -/
structure SetupError where
  name : Text
  error : Macro.Error
  deriving DecidableEq, Repr

def SetupError.message (e : SetupError) : Text :=
  ascii "predefined macro " ++ e.name ++ ascii ": " ++ e.error.message

namespace Options

/-- Defines macros in order. -/
def predefine (engine : Macro.Engine) : List (Text × Text) → Except SetupError Macro.Engine
  | [] => .ok engine
  | (name, text) :: r =>
    match engine.defineValue name text with
    | .ok engine' => predefine engine' r
    | .error e => .error ⟨name, e⟩

/-- The engine a run starts with: the predefined macros, defined in the order of their names. -/
def engine (o : Options) : Except SetupError Macro.Engine :=
  predefine (.new o.expansionLimit) o.defines.entries

end Options

/-- Settings that were accepted, with the engine every run starts with. -/
structure Pipeline where
  options : Options
  engine : Macro.Engine
  deriving DecidableEq, Repr

namespace Pipeline

/-- Accepts settings whose predefined macros can be defined. -/
def new (o : Options) : Except SetupError Pipeline := o.engine.map fun engine => ⟨o, engine⟩

theorem new_eq_ok_iff {o : Options} {p : Pipeline} :
    new o = .ok p ↔ p.options = o ∧ o.engine = .ok p.engine := by
  rw [new]
  cases o.engine with
  | error e => exact ⟨nofun, nofun⟩
  | ok engine =>
    constructor
    · rintro ⟨⟩
      exact ⟨rfl, rfl⟩
    · rintro ⟨rfl, ⟨⟩⟩
      rfl

/-- The stages of a run, in order. -/
def stages (p : Pipeline) : List Stage :=
  [.trim, .continuations none, .comments p.options.strictComments none, .labels, .trim,
    .macros p.engine, .statements, .trim, .fill] ++
  (if p.options.numberRegisters then [.registers] else []) ++
  [.resolve (Label.effectiveWidth p.options.labelWidth) none]

/-- The last stage lays the lines out. -/
theorem stages_eq (p : Pipeline) : p.stages =
    p.stages.dropLast ++ [.resolve (Label.effectiveWidth p.options.labelWidth) none] := by
  rw [stages, List.dropLast_concat]

end Pipeline

end Preassembler
