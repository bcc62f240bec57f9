import Preassembler.Log.Level

/-! Log records and their two written forms. -/
namespace Preassembler.Log
open Text (ascii byte)

/-- A value in a record. -/
inductive Value where
  | text (t : Text)
  | int (n : Int)
  | bool (b : Bool)
  | null
  deriving DecidableEq, Repr

/-- A value under a key. -/
structure Attribute where
  key : Text
  value : Value
  deriving DecidableEq, Repr

namespace Attribute

/-- The key of a value that has none. -/
def badKey : Text := ascii "!BADKEY"

/-- Pairs keys with values. A value that is no text where a key is expected, and a key at the end,
stand under the key for values without one. -/
def pairs : List Value → List Attribute
  | [] => []
  | [v] => [⟨badKey, v⟩]
  | .text k :: v :: r => ⟨k, v⟩ :: pairs r
  | v :: w :: r => ⟨badKey, v⟩ :: pairs (w :: r)

/-- An attribute with neither key nor value is not written. -/
def isBlank (a : Attribute) : Bool := a.key.isEmpty && a.value == .null

end Attribute

/-- One entry of the log. -/
structure Record where
  level : Level
  message : Text
  attributes : List Attribute
  deriving DecidableEq, Repr

/-- How records are written. -/
inductive Format where
  | text
  | json
  deriving DecidableEq, Repr

/-- The format of a name: all but one name mean text. -/
def Format.ofName (t : Text) : Format := if t = ascii "json" then .json else .text

/-! ### Records as text -/

namespace Plain

/-- Whether a symbol makes a text be written in quotes. -/
def needsQuotes : Text.Symbol → Bool
  | .stray _ => true
  | .point c _ =>
    if c < 0x80 then c ≤ 0x20 || c == 0x3D || c == 0x22
    else c == 0xFFFD || Text.isBlankPoint c || !Text.isPrintable c

/-- A key or a text value: in quotes when it is empty or could be misread. -/
def word (t : Text) : Text :=
  if t.isEmpty || t.symbols.any needsQuotes then t.quote else t

def value : Value → Text
  | .text t => word t
  | .int n => .ofInt n
  | .bool b => if b then ascii "true" else ascii "false"
  | .null => ascii "<nil>"

def member (key : Text) (v : Value) : Text := word key ++ byte '=' :: value v

/-- A record as words of the form `key=value` between blanks. -/
def record (r : Record) : Text :=
  let attributes := r.attributes.filter (!·.isBlank)
  [byte ' '].intercalate <|
    member (ascii "level") (.text r.level.word) :: member (ascii "msg") (.text r.message) ::
      attributes.map fun a => member a.key a.value

end Plain

/-! ### Records as JSON -/

namespace Json

/-- The written form of a symbol inside a JSON string. -/
def escape : Text.Symbol → Text
  | .stray _ => ascii "\\ufffd"
  | .point c bs =>
    if c = 0x22 then ascii "\\\""
    else if c = 0x5C then ascii "\\\\"
    else if c = 0x08 then ascii "\\b"
    else if c = 0x0C then ascii "\\f"
    else if c = 0x0A then ascii "\\n"
    else if c = 0x0D then ascii "\\r"
    else if c = 0x09 then ascii "\\t"
    else if c < 0x20 || c = 0x2028 || c = 0x2029 then ascii "\\u" ++ Text.hex 4 c
    else bs

def string (t : Text) : Text := 0x22 :: (t.symbols.flatMap escape ++ [0x22])

def value : Value → Text
  | .text t => string t
  | .int n => .ofInt n
  | .bool b => if b then ascii "true" else ascii "false"
  | .null => ascii "null"

def member (key : Text) (v : Value) : Text := string key ++ byte ':' :: value v

/-- A record as a JSON object. Keys that occur twice are written twice. -/
def record (r : Record) : Text :=
  let attributes := r.attributes.filter (!·.isBlank)
  let members :=
    member (ascii "level") (.text r.level.word) :: member (ascii "msg") (.text r.message) ::
      attributes.map fun a => member a.key a.value
  0x7B :: ([byte ','].intercalate members ++ [0x7D])

end Json

/-- The written form of a record. -/
def Record.render : Format → Record → Text
  | .text, r => Plain.record r
  | .json, r => Json.record r

end Preassembler.Log
