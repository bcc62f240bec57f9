import Preassembler.Config.Decimal
import Preassembler.Config.Moment
import Preassembler.Config.Toml.Document

/-! Numbers, dates and times of TOML.

What kind of value is written follows from the first byte that is no digit; it then reaches as far as
bytes of that kind do, and must be well formed as a whole. -/
namespace Preassembler.Config.Toml
open Text (ascii byte isDigit)

/-! ### Form -/

/-- Underscores stand between digits. -/
def underscoresFit (t : Text) : Bool :=
  let (ok, last) := t.foldl (fun (ok, last) b => (ok && (b != byte '_' || last), isHex b)) (true, false)
  ok && last

def dropUnderscores (t : Text) : Text := t.filter (· != byte '_')

/-- Whether a number begins with a zero that says nothing. A zero before a letter names a base. -/
def hasLeadingZero (t : Text) : Bool :=
  match t with
  | 0x30 :: b :: _ => !(b == byte 'b' || b == byte 'o' || b == byte 'x')
  | s :: 0x30 :: _ :: _ => s == byte '+' || s == byte '-'
  | _ => false

/-- Every point has a digit behind it. -/
def pointsFit : Text → Bool
  | [] => true
  | 0x2E :: r => r.head?.any isDigit && pointsFit r
  | _ :: r => pointsFit r

def isExponentMark (b : UInt8) : Bool := b == byte 'e' || b == byte 'E'

/-! ### Values -/

/-- An integer. -/
def integerValue? (t : Text) : Option Value :=
  if underscoresFit t && !hasLeadingZero t then
    (integer? prefixed? (dropUnderscores t)).map .int
  else none

/-- A float that is not too large. -/
def floatValue? (t : Text) : Option Value :=
  let parts := Text.wordsBy (fun b => b == byte '.' || isExponentMark b) t
  if parts.all underscoresFit && !parts.head?.any hasLeadingZero && pointsFit t then do
    let _ ← Binary64.nearest? (← Decimal.parse? (dropUnderscores t))
    some .other
  else none

/-- The forms of dates and times. -/
def forms : List (List Part) :=
  let both := Part.date false ++ .mark (byte 'T') :: Part.time false
  [both ++ [.zone], both, Part.date false, Part.time false]

/-- A date, a time or both. A blank may stand between them, and letters may be small. -/
def momentValue? (t : Text) : Option Value :=
  let t := t.map fun b =>
    if b == byte 'z' then byte 'Z' else if b == byte 't' || b == 0x20 then byte 'T' else b
  if forms.any (isMoment · t) then some .other else none

/-! ### Reading -/

def isMomentByte (b : UInt8) : Bool :=
  isDigit b || b == byte '-' || b == byte ':' || b == byte 'T' || b == byte 't' || b == 0x20 ||
    b == byte '.' || b == byte 'Z' || b == byte 'z' || b == byte '+'

def isFloatByte (b : UInt8) : Bool :=
  isDigit b || b == byte '_' || b == byte '.' || b == byte '-' || b == byte '+' || isExponentMark b

/-- The value of the front of a text up to a given length, and the rest. -/
def split? (value : Text → Option Value) (t : Text) (size : Nat) : Option (Value × Text) :=
  (value (t.take size)).map (·, t.drop size)

/-- The number of bytes that satisfy a condition behind the first `start` ones, and those. -/
def reach (p : UInt8 → Bool) (start : Nat) (t : Text) : Nat :=
  start + ((t.drop start).takeWhile p).length

/-- An integer or a float whose first `start` bytes are its sign. -/
def decimal? (start : Nat) (t : Text) : Option (Value × Text) :=
  let size := reach (fun b => isDigit b || b == byte '_') start t
  match t.drop size with
  | b :: _ =>
    if b == byte '.' || isExponentMark b then split? floatValue? t (reach isFloatByte size t)
    else split? integerValue? t size
  | [] => split? integerValue? t size

/-- A number, a date or a time that begins with a digit. -/
def numberOrMoment? (t : Text) : Option (Value × Text) :=
  match t.dropWhile isDigit with
  | b :: _ =>
    if b == byte '-' || b == byte ':' then
      let written := t.takeWhile isMomentByte
      (momentValue? (written.reverse.dropWhile (· == 0x20)).reverse).map (·, t.drop written.length)
    else decimal? 0 t
  | [] => decimal? 0 t

/-- An integer in a base other than ten. -/
def based? (base : Nat) (t : Text) : Option (Value × Text) :=
  let isDigitOf (b : UInt8) := (digit? b).any (· < base)
  if (t.drop 2).head?.any isDigitOf then
    split? integerValue? t (reach (fun b => isDigitOf b || b == byte '_') 2 t)
  else none

/-- One of the names of floats behind so many bytes. -/
def named? (start : Nat) (t : Text) : Option (Value × Text) :=
  let name := (t.drop start).take 3
  if name = ascii "inf" || name = ascii "nan" then some (.other, t.drop (start + 3)) else none

/-- A number, a date or a time. -/
def numeral? (t : Text) : Option (Value × Text) :=
  match t with
  | [] => none
  | b :: r =>
    if b == byte '+' || b == byte '-' then
      if r.head?.any isDigit then decimal? 1 t else named? 1 t
    else if isDigit b then
      let base := if b == byte '0' then r.head? else none
      if base == some (byte 'b') then based? 2 t
      else if base == some (byte 'o') then based? 8 t
      else if base == some (byte 'x') then based? 16 t
      else numberOrMoment? t
    else named? 0 t

end Preassembler.Config.Toml
