import Preassembler.Config
import Preassembler.Config.Toml

/-! Configurations from TOML.

Settings are found in the top table by name, whatever the case of the letters; a name that is no
setting is passed over. A value of the wrong type makes the document unreadable as a configuration. -/
namespace Preassembler.Config.Toml
open Text (ascii byte)

/-- The lower-case form under which names are compared: besides the ASCII capitals, the long s and
the Kelvin sign have one. -/
def foldName (t : Text) : Text :=
  t.symbols.flatMap fun
    | .point c bs =>
      if 0x41 ≤ c && c ≤ 0x5A then [UInt8.ofNat (c + 0x20)]
      else if c = 0x17F then [byte 's']
      else if c = 0x212A then [byte 'k']
      else bs
    | .stray b => [b]

def Value.int? : Value → Option Int
  | int n => some n
  | _ => none

def Value.bool? : Value → Option Bool
  | bool b => some b
  | _ => none

def Value.text? : Value → Option Text
  | text t => some t
  | _ => none

/-- Adds the texts of a table to the predefined macros. -/
def takeDefines (c : Config) (t : Table) : Option Config :=
  t.foldlM (fun c (k, v) => v.text?.map (c.define k ·))
    { c with defines := some (c.defines.getD .empty) }

/-- Takes one name of the top table over into a configuration. Only a table can hold predefined
macros; anything else under their name is passed over. -/
def takeSetting (c : Config) (name : Text) (v : Value) : Option Config :=
  let field := foldName name
  if field = ascii "label_width" then v.int?.map fun n => { c with labelWidth := n }
  else if field = ascii "max_expansion_depth" then v.int?.map fun n => { c with expansionLimit := n }
  else if field = ascii "strict_comments" then v.bool?.map fun b => { c with strictComments := b }
  else if field = ascii "normalize_registers" then
    v.bool?.map fun b => { c with numberRegisters := some b }
  else if field = ascii "defines" then
    match v with
    | .table t => takeDefines c t
    | _ => some c
  else if field = ascii "log_level" then v.text?.map fun t => { c with logLevel := t }
  else if field = ascii "log_format" then v.text?.map fun t => { c with logFormat := t }
  else some c

/-- The settings of a document. -/
def settings? (t : Text) : Option Config := do
  (← parse? t).reverse.foldlM (fun c (name, v) => takeSetting c name v) {}

end Preassembler.Config.Toml
