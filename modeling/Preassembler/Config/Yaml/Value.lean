import Preassembler.Config.Decimal
import Preassembler.Config.Moment
import Preassembler.Config.Yaml.Node
import Preassembler.Text.Base64

/-! What YAML scalars stand for.

A plain scalar without a tag stands for the first of these it can be read as: nothing, a truth value,
a moment, an integer, a float, a text. A tag asks for one of them. -/
namespace Preassembler.Config.Yaml
open Text (ascii byte isDigit)

/-- What a scalar stands for. -/
inductive Value where
  | null
  | bool (b : Bool)
  /-- An integer; those without a sign may have 64 bits and none for it. -/
  | int (n : Int)
  /-- A float with the integer it counts as, if it is not too large. -/
  | float (whole : Option Int)
  | moment
  | text (t : Text)
  deriving DecidableEq, Repr

namespace Value

/-- The scalars with a fixed meaning. -/
def words : List (String × Value) :=
  [("true", bool true), ("True", bool true), ("TRUE", bool true),
    ("false", bool false), ("False", bool false), ("FALSE", bool false),
    ("", null), ("~", null), ("null", null), ("Null", null), ("NULL", null),
    (".nan", float none), (".NaN", float none), (".NAN", float none),
    (".inf", float none), (".Inf", float none), (".INF", float none),
    ("+.inf", float none), ("+.Inf", float none), ("+.INF", float none),
    ("-.inf", float (some (-wordBound))), ("-.Inf", float (some (-wordBound))),
    ("-.INF", float (some (-wordBound)))]

/-- The fixed meaning of a scalar. -/
def fixed? (t : Text) : Option Value := (words.find? fun (w, _) => ascii w = t).map (·.2)

/-! ### Numbers -/

/-- A number without a sign below the second power of the word size. -/
def wide? (t : Text) : Option Int := do
  let n ← prefixed? t
  if n < 2 * wordBound then some (n : Int) else none

/-- An integer of a base behind its mark, with the sign behind the mark too. -/
def marked? (mark : String) (base : Nat) (t : Text) : Option Int :=
  match Text.after? (ascii mark) t, Text.after? (byte '-' :: ascii mark) t with
  | some r, _ => (integer? (number? base) r).orElse fun _ => (number? base r).bind fun n =>
      if n < 2 * wordBound then some (n : Int) else none
  | none, some r => (number? base r).bind (word? true)
  | none, none => none

/-- A float in decimal. -/
def float? (t : Text) : Option Value := do
  let x ← Binary64.nearest? (← Decimal.parse? t)
  some (float x.toWord?)

/-- A number that begins with a digit or a sign; underscores in it mean nothing. -/
def numeral? (t : Text) : Option Value :=
  let t := t.filter (· != byte '_')
  (((integer? prefixed? t).orElse fun _ => wide? t).map int).orElse fun _ =>
    (float? t).orElse fun _ =>
      ((marked? "0b" 2 t).orElse fun _ => marked? "0o" 8 t).map int

/-- Underscores in a float stand between digits. -/
def underscoresFit (t : Text) : Bool :=
  let (ok, last) := t.foldl (fun (ok, last) b =>
    (ok && (b != byte '_' || isDigit last) && (last != byte '_' || isDigit b), b)) (true, byte '.')
  ok && last != byte '_'

/-! ### Moments -/

/-- The forms of dates and times. -/
def forms : List (List Part) :=
  [Part.date true ++ .mark (byte 'T') :: Part.time true ++ [.zone],
    Part.date true ++ .mark (byte 't') :: Part.time true ++ [.zone],
    Part.date true ++ .gap :: Part.time true,
    Part.date true]

/-- Whether a text is a date, which may have a time. -/
def isMoment (t : Text) : Bool :=
  let year := t.takeWhile isDigit
  year.length = 4 && (t.drop 4).head? == some (byte '-') && forms.any (Config.isMoment · t)

/-! ### Resolution -/

/-- What a scalar stands for when nothing speaks against reading it as anything else than a text. Only
scalars with certain first bytes are read as anything else. -/
def resolve (moments : Bool) (t : Text) : Value :=
  match t with
  | [] => null
  | b :: _ =>
    let known := fixed? t
    if (ascii "yYnNtTfFoO~").contains b then known.getD (.text t)
    else if b == byte '.' then
      (known.orElse fun _ => if underscoresFit t then float? (t.filter (· != byte '_')) else none).getD (.text t)
    else if isDigit b || b == byte '+' || b == byte '-' then
      (known.orElse fun _ => if moments && isMoment t then some moment else numeral? t).getD (.text t)
    else .text t

/-- The tag of a value. -/
def tag : Value → Text
  | null => ascii "!!null"
  | bool _ => ascii "!!bool"
  | int _ => ascii "!!int"
  | float _ => ascii "!!float"
  | moment => ascii "!!timestamp"
  | text _ => ascii "!!str"

/-- The tags that ask for a kind of value. -/
def kindTags : List Text :=
  [ascii "!!null", ascii "!!bool", ascii "!!int", ascii "!!float", ascii "!!timestamp"]

/-- An integer of 64 bits as a float. -/
def ofInteger (n : Int) : Option Value := do
  let t := Text.ofInt n
  if -wordBound ≤ n && n < wordBound then float? t else none

/-- What a scalar stands for. Nothing when it cannot be read as its tag asks; a tag of no kind of
value makes it a text. -/
def ofScalar? (tag : Text) (isPlain : Bool) (t : Text) : Option Value :=
  if tag.isEmpty then
    some (if isPlain && t != ascii "<<" then resolve true t else text t)
  else if tag = ascii "!!binary" then (Text.Base64.decode? t).map text
  else if kindTags.contains tag then
    let v := resolve (tag = ascii "!!timestamp") t
    if v.tag = tag then some v
    else match v with
      | int n => if tag = ascii "!!float" then ofInteger n else none
      | _ => none
  else some (text t)

/-! ### As settings -/

/-- A value as an integer. -/
def toInt? : Value → Option Int
  | int n => if n < wordBound then some n else none
  | float whole => whole
  | _ => none

/-- A value as a truth value; some texts count as one. -/
def toBool? : Value → Option Bool
  | bool b => some b
  | text t =>
    if ["y", "Y", "yes", "Yes", "YES", "on", "On", "ON"].any fun w => ascii w = t then some true
    else if ["n", "N", "no", "No", "NO", "off", "Off", "OFF"].any fun w => ascii w = t then some false
    else none
  | _ => none

end Value

end Preassembler.Config.Yaml
