import Preassembler.Log.Logger
import Preassembler.Pipeline.Options

/-! The configuration of a run.

A configuration is read from a file, completed with defaults and checked; it then gives the settings
of the pipeline and of the logger. -/
namespace Preassembler
open Text (ascii)

/-- The settings a configuration file can make. -/
structure Config where
  labelWidth : Int := 0
  expansionLimit : Int := 0
  strictComments : Bool := false
  numberRegisters : Option Bool := none
  defines : Option (Dictionary Text) := none
  logLevel : Text := []
  logFormat : Text := []
  deriving DecidableEq, Repr

namespace Config

/-- A setting that makes no sense. -/
inductive Invalid where
  | labelWidth (n : Int)
  | expansionLimit (n : Int)
  | logLevel (name : Text)
  | logFormat (name : Text)
  deriving DecidableEq, Repr

def Invalid.message : Invalid → Text
  | labelWidth n => ascii "label_width must be positive, got " ++ .ofInt n
  | expansionLimit n => ascii "max_expansion_depth must not be negative, got " ++ .ofInt n
  | logLevel name => Log.Level.unknownMessage name
  | logFormat name => ascii "unknown log_format " ++ name.quote

/-- Puts defaults where nothing was set. -/
def complete (c : Config) : Config where
  labelWidth := if c.labelWidth = 0 then Label.defaultWidth else c.labelWidth
  expansionLimit := if c.expansionLimit = 0 then Macro.defaultLimit else c.expansionLimit
  strictComments := c.strictComments
  numberRegisters := some (c.numberRegisters.getD true)
  defines := some (c.defines.getD .empty)
  logLevel := if c.logLevel.isEmpty then ascii "warn" else c.logLevel
  logFormat := if c.logFormat.isEmpty then ascii "text" else c.logFormat

/-- The configuration without a file. -/
def default : Config := complete {}

/-- Checks the settings, in a fixed order. -/
def validate (c : Config) : Except Invalid Unit :=
  if c.labelWidth < 1 then .error (.labelWidth c.labelWidth)
  else if c.expansionLimit < 0 then .error (.expansionLimit c.expansionLimit)
  else if (Log.Level.parse? c.logLevel).isNone then .error (.logLevel c.logLevel)
  else if c.logFormat ≠ ascii "text" ∧ c.logFormat ≠ ascii "json" then
    .error (.logFormat c.logFormat)
  else .ok ()

/-- The settings of the pipeline. -/
def options (c : Config) : Options where
  labelWidth := c.labelWidth
  expansionLimit := c.expansionLimit
  strictComments := c.strictComments
  numberRegisters := c.numberRegisters.getD true
  defines := c.defines.getD .empty

/-- The settings of the logger. -/
def logSettings (c : Config) : Log.Settings where
  level := c.logLevel
  format := c.logFormat
  name := ascii "lc2kpp"

/-- Adds a predefined macro. -/
def define (c : Config) (name value : Text) : Config :=
  { c with defines := some ((c.defines.getD .empty).insert name value) }

end Config

end Preassembler
