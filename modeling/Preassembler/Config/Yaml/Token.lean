import Preassembler.Config.Yaml.Scalar

/-! Tokens of YAML, and the reading of those that are names: anchors, tags and directives. -/
namespace Preassembler.Config.Yaml
open Reader
open Text (ascii byte)

/-- A token. -/
inductive Token where
  | streamStart
  | streamEnd
  | version (major minor : Nat)
  /-- A short form for the start of tags. -/
  | tagHandle (handle meaning : Text)
  | documentStart
  | documentEnd
  | blockSequence
  | blockMapping
  | blockEnd
  | openSequence
  | closeSequence
  | openMapping
  | closeMapping
  /-- A dash. -/
  | entry
  /-- A comma. -/
  | separator
  | key
  | value
  | alias (name : Text)
  | anchor (name : Text)
  | tag (handle suffix : Text)
  | scalar (isPlain : Bool) (text : Text)
  deriving DecidableEq, Repr

/-! ### Anchors and aliases -/

/-- Whether a character can follow a name. -/
def endsName (c : Char) : Bool :=
  isVoid c || c == '?' || c == ':' || c == ',' || c == ']' || c == '\x7d' || c == '%' || c == '@' ||
    c == '\x60'

/-- Reads the name behind the mark of an anchor or an alias. -/
def name : Reader Text := do
  skip
  need 1
  let cs ← takeWhile isName
  if cs.isEmpty || !endsName (← peek 0) then fail
  return textOf cs

/-! ### Tags -/

/-- Whether a character can stand in a tag. -/
def isTagChar (c : Char) : Bool :=
  isName c || (";/?:@&=+$,.!~*()[]%".toList.contains c) || c == '\x27'

/-- Reads one escaped octet. -/
def octet : Reader UInt8 := do
  need 3
  match (← peek 0) == '%', hexDigit? (← peek 1), hexDigit? (← peek 2) with
  | true, some a, some b =>
    skips 3
    return UInt8.ofNat (a * 16 + b)
  | _, _, _ => fail

/-- Reads escaped octets that continue a character. -/
def tailOctets (seen : Text) : Nat → Reader Text
  | 0 => return seen
  | n + 1 => do
    let b ← octet
    if Text.Utf8.isTail b then tailOctets (b :: seen) n else fail

/-- Reads a character written in escaped octets, newest first. -/
def octets : Reader Text := do
  let b ← octet
  match Encoding.utf8Length? b with
  | some n => tailOctets [b] (n - 1)
  | none => fail

/-- Reads the characters of a tag behind those already `seen`, newest first. -/
def tagCharsFrom (seen : Text) : Nat → Reader Text
  | 0 => fail
  | fuel + 1 => do
    let c ← peek 0
    if c == '%' then
      let bs ← octets
      need 1
      tagCharsFrom (bs ++ seen) fuel
    else if isTagChar c then
      skip
      need 1
      tagCharsFrom ((Text.encode c.toNat).reverse ++ seen) fuel
    else return seen.reverse

/-- Reads the characters of a tag. -/
def tagChars : Reader Text := do
  need 1
  tagCharsFrom [] (← get).bound

/-- Reads at least one character of a tag. -/
def tagCharsSome : Reader Text := do
  let t ← tagChars
  if t.isEmpty then fail else return t

/-- Reads a handle: a mark, a name and, for a whole handle, a second mark. -/
def handle : Reader (Text × Bool) := do
  need 1
  if (← peek 0) != '!' then fail
  skip
  need 1
  let cs ← takeWhile isName
  if (← peek 0) == '!' then
    skip
    return (byte '!' :: textOf cs ++ [byte '!'], true)
  else return (byte '!' :: textOf cs, false)

/-- Reads a tag. The handle is empty for a tag that is written out or has no suffix. -/
def tag : Reader Token := do
  need 2
  let t ← if (← peek 1) == '<' then do
      skips 2
      let suffix ← tagCharsSome
      if (← peek 0) != '>' then fail
      skip
      pure (Token.tag [] suffix)
    else do
      let (h, isWhole) ← handle
      if isWhole then pure (Token.tag h (← tagCharsSome))
      else
        let suffix := h.drop 1 ++ (← tagChars)
        pure (if suffix.isEmpty then .tag [] [byte '!'] else .tag [byte '!'] suffix)
  need 1
  if !isVoid (← peek 0) then fail
  return t

/-! ### Directives -/

/-- Reads a number of one or two digits. -/
def versionNumber : Reader Nat := do
  need 1
  let cs ← takeWhile Char.isDigit
  if cs.isEmpty || 2 < cs.length then fail
  return cs.foldl (fun n c => n * 10 + (c.toNat - '0'.toNat)) 0

/-- Reads the value of a version directive. -/
def versionValue : Reader Token := do
  need 1
  skipWhile isBlank
  let major ← versionNumber
  if (← peek 0) != '.' then fail
  skip
  let minor ← versionNumber
  return .version major minor

/-- Reads the value of a tag directive. -/
def tagHandleValue : Reader Token := do
  need 1
  skipWhile isBlank
  let (h, isWhole) ← handle
  if !isWhole && h != [byte '!'] then fail
  need 1
  if !isBlank (← peek 0) then fail
  skipWhile isBlank
  let meaning ← tagCharsSome
  need 1
  if !isVoid (← peek 0) then fail
  return .tagHandle h meaning

/-- Reads a directive to the end of its line. -/
def directive : Reader Token := do
  skip
  need 1
  let cs ← takeWhile isName
  if !isVoid (← peek 0) then fail
  let t ← if textOf cs = ascii "YAML" then versionValue
    else if textOf cs = ascii "TAG" then tagHandleValue
    else fail
  finishLine
  return t

end Preassembler.Config.Yaml
