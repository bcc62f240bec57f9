import Preassembler.Text.Blank
import Preassembler.Text.Quoted

/-! Levels of log records. -/
namespace Preassembler.Log
open Text (ascii)

/-- How much a record matters. -/
inductive Level where
  | debug
  | info
  | warn
  | error
  deriving DecidableEq, Repr

namespace Level

/-- The number of a level. Loggers show records from a number on, which may lie between levels. -/
def number : Level → Int
  | debug => -4
  | info => 0
  | warn => 4
  | error => 8

/-- The word that stands for a level in a record. -/
def word : Level → Text
  | debug => ascii "DEBUG"
  | info => ascii "INFO"
  | warn => ascii "WARN"
  | error => ascii "ERROR"

/-- The level when none is given, or an unknown one. -/
def fallback : Level := warn

/-- Reads the name of a level, in any case and with white space around it. -/
def parse? (t : Text) : Option Level :=
  let name := t.trim.lower
  if name = ascii "debug" then some debug
  else if name = ascii "info" then some info
  else if name = [] || name = ascii "warn" || name = ascii "warning" then some warn
  else if name = ascii "error" then some error
  else none

/-- The description of a name that `parse?` does not know. -/
def unknownMessage (t : Text) : Text := ascii "unknown log level " ++ t.quote

end Level

end Preassembler.Log
