import Preassembler.Config.Toml.Settings
import Preassembler.Config.Yaml.Settings

/-! Configurations from documents in one of two formats. -/
namespace Preassembler.Config
open Text (ascii byte)

/-- The formats of configuration files. -/
inductive Format where
  | toml
  | yaml
  deriving DecidableEq, Repr

namespace Format

def name : Format → Text
  | toml => ascii "toml"
  | yaml => ascii "yaml"

/-- The format of a name; the empty name means TOML. -/
def ofName? (t : Text) : Option Format :=
  if t = ascii "yaml" then some yaml
  else if t = ascii "toml" || t.isEmpty then some toml
  else none

/-- What follows the last dot of the last part of a path, with the dot. -/
def extension (path : Text) : Text :=
  let file := ((Text.cutLast? (byte '/') path).map (·.2)).getD path
  match Text.cutLast? (byte '.') file with
  | some (_, e) => byte '.' :: e
  | none => []

/-- The format of a file by its name. -/
def ofPath (path : Text) : Format :=
  let e := (extension path).lower
  if e = ascii ".yaml" || e = ascii ".yml" then yaml else toml

end Format

/-- Why a document gives no configuration. -/
inductive ReadError where
  | unreadable (format : Format)
  /-- Merged mappings have keys of a type that cannot be compared. -/
  | unhashable (type : Text)
  | invalid (setting : Invalid)
  | unknownFormat (name : Text)
  deriving DecidableEq, Repr

def ReadError.message : ReadError → Text
  | unreadable .toml => ascii "failed to parse TOML config"
  | unreadable .yaml => ascii "failed to parse YAML config"
  | unhashable type => ascii "runtime error: hash of unhashable type " ++ type
  | invalid s => s.message
  | unknownFormat n => ascii "unsupported config format: " ++ n

/-- The settings of a document. -/
def settings (format : Format) (t : Text) : Except ReadError Config :=
  match format with
  | .toml =>
    match Toml.settings? t with
    | some c => .ok c
    | none => .error (.unreadable .toml)
  | .yaml =>
    match Yaml.settings t with
    | .ok c => .ok c
    | .error .malformed => .error (.unreadable .yaml)
    | .error (.unhashable type) => .error (.unhashable type)

/-- The configuration of a document, completed and checked. -/
def read (format : Format) (t : Text) : Except ReadError Config :=
  match settings format t with
  | .error e => .error e
  | .ok c =>
    match c.complete.validate with
    | .ok () => .ok c.complete
    | .error e => .error (.invalid e)

/-- The configuration of a document in a format given by name. -/
def readNamed (format : Text) (t : Text) : Except ReadError Config :=
  match Format.ofName? format with
  | some f => read f t
  | none => .error (.unknownFormat format)

end Preassembler.Config
