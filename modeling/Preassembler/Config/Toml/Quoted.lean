import Preassembler.Config.Integer
import Preassembler.Text.Utf8

/-! Strings of TOML.

A string stands in double quotes, with escapes, or in single quotes, as it is. Three quotes begin a
string of several lines. -/
namespace Preassembler.Config.Toml
open Text (byte)

def isBlank (b : UInt8) : Bool := b == 0x20 || b == 0x09

def isNewline (b : UInt8) : Bool := b == 0x0A || b == 0x0D

/-! ### Where strings end -/

/-- The inside of a string on one line, up to the quote that ends it, and what follows that. A
backslash protects the byte behind it when `escapes`. -/
def lineString (quote : UInt8) (escapes : Bool) (seen : Text) : Text → Option (Text × Text)
  | [] => none
  | b :: r =>
    if b == quote then some (seen.reverse, r)
    else if isNewline b then none
    else if b == 0x5C && escapes then
      match r with
      | [] => none
      | e :: r => lineString quote escapes (e :: b :: seen) r
    else lineString quote escapes (b :: seen) r

/-- Whether two quotes were already read at the end of a string: with the ones that follow there are
too many. An escaped quote before them does not count. -/
def isFull (quote : UInt8) (escapes : Bool) (seen : Text) : Bool :=
  match seen with
  | a :: b :: r => a == quote && b == quote && !(escapes && r.head? == some 0x5C)
  | _ => false

/-- The inside of a string of several lines, up to the three quotes that end it. One or two more
quotes before them belong to the string. -/
def blockString (quote : UInt8) (escapes : Bool) (seen : Text) : Text → Option (Text × Text)
  | [] => none
  | b :: r =>
    if b == quote then
      match r with
      | q₁ :: q₂ :: r' =>
        if q₁ == quote && q₂ == quote then
          if r'.head? != some quote then some (seen.reverse, r')
          else if isFull quote escapes seen then none
          else blockString quote escapes (b :: seen) r
        else blockString quote escapes (b :: seen) r
      | _ => blockString quote escapes (b :: seen) r
    else if b == 0x5C && escapes then
      match r with
      | [] => none
      | e :: r => blockString quote escapes (e :: b :: seen) r
    else blockString quote escapes (b :: seen) r

/-! ### What strings stand for -/

/-- A newline right behind the opening quotes is not part of the string. -/
def dropFirstNewline (t : Text) : Text :=
  match t with
  | 0x0A :: r => r
  | 0x0D :: 0x0A :: r => r
  | t => t

/-- Takes out each backslash at the end of a line, with the blanks and newlines behind it. -/
def joinLines (seen : Text) : Nat → Text → Text
  | 0, t => seen.reverse ++ t
  | fuel + 1, t =>
    match t with
    | [] => seen.reverse
    | 0x5C :: 0x5C :: r => joinLines (0x5C :: 0x5C :: seen) fuel r
    | 0x5C :: r =>
      let space := r.takeWhile fun b => isBlank b || isNewline b
      if space.contains 0x0A then joinLines seen fuel (r.drop space.length)
      else joinLines (0x5C :: seen) fuel r
    | b :: r => joinLines (b :: seen) fuel r

/-- The code point written by the first `n` hexadecimal digits. -/
def codePoint? (n : Nat) (t : Text) : Option (Text × Text) := do
  let digits := t.take n
  let c ← if digits.length = n then number? 16 digits else none
  if c < 0xD800 || (0xE000 ≤ c && c < 0x110000) then some (Text.encode c, t.drop n) else none

/-- Replaces the escapes of a string. -/
def unescape (seen : Text) : Nat → Text → Option Text
  | 0, _ => none
  | fuel + 1, t =>
    match t with
    | [] => some seen.reverse
    | 0x5C :: e :: r =>
      let simple (b : UInt8) := unescape (b :: seen) fuel r
      if e == byte 'b' then simple 0x08
      else if e == byte 't' then simple 0x09
      else if e == byte 'n' then simple 0x0A
      else if e == byte 'f' then simple 0x0C
      else if e == byte 'r' then simple 0x0D
      else if e == 0x22 then simple 0x22
      else if e == 0x5C then simple 0x5C
      else if e == byte 'u' then do
        let (bs, r) ← codePoint? 4 r
        unescape (bs.reverse ++ seen) fuel r
      else if e == byte 'U' then do
        let (bs, r) ← codePoint? 8 r
        unescape (bs.reverse ++ seen) fuel r
      else none
    | [0x5C] => none
    | b :: r => unescape (b :: seen) fuel r

/-! ### Strings -/

/-- A string on one line, and what follows it. -/
def lineString? (t : Text) : Option (Text × Text) :=
  match t with
  | 0x22 :: r => do
    let (inner, r) ← lineString 0x22 true [] r
    some (← unescape [] (inner.length + 1) inner, r)
  | 0x27 :: r => lineString 0x27 false [] r
  | _ => none

/-- A string, and what follows it. -/
def string? (t : Text) : Option (Text × Text) :=
  match t with
  | 0x22 :: 0x22 :: 0x22 :: r => do
    let (inner, r) ← blockString 0x22 true [] r
    let joined := joinLines [] inner.length (dropFirstNewline inner)
    some (← unescape [] (joined.length + 1) joined, r)
  | 0x27 :: 0x27 :: 0x27 :: r => do
    let (inner, r) ← blockString 0x27 false [] r
    some (dropFirstNewline inner, r)
  | t => lineString? t

end Preassembler.Config.Toml
