import Preassembler.Line
import Preassembler.Text.Blank

/-! Statements: one per line, bare integers as data, registers by number. -/
namespace Preassembler.Statement
open Text (ascii byte isDigit isWord)

/-! ### Separators -/

/-- The statements of a line, between its semicolons. -/
def split (l : Line) : List Line := (l.text.splitOn (byte ';')).map fun t => { l with text := t }

/-! ### Integers -/

/-- A written decimal integer: its sign and its digits. -/
structure Numeral where
  negative : Bool
  digits : Text
  deriving DecidableEq, Repr

namespace Numeral

/-- Reads one or more digits. -/
def ofDigits? (negative : Bool) (t : Text) : Option Numeral :=
  if t.isEmpty || !t.all isDigit then none else some ⟨negative, t⟩

/-- Reads digits with at most one sign in front. -/
def parse? (t : Text) : Option Numeral :=
  match t with
  | [] => none
  | b :: r =>
    if b == byte '-' then ofDigits? true r
    else if b == byte '+' then ofDigits? false r
    else ofDigits? false (b :: r)

/-- The written form without leading zeros and without a sign that says nothing. -/
def canonical (n : Numeral) : Text :=
  match n.digits.dropWhile (· == byte '0') with
  | [] => [byte '0']
  | digits => if n.negative then byte '-' :: digits else digits

end Numeral

/-- A line that holds only an integer places that integer as data. -/
def fill (t : Text) : Text :=
  match Numeral.parse? t.trim with
  | some n => ascii ".fill " ++ n.canonical
  | none => t

/-! ### Registers -/

/-- The bytes between the operation and its operands: ASCII white space but the vertical tab. -/
def isSeparator (b : UInt8) : Bool := b == 0x20 || b == 0x09 || b == 0x0A || b == 0x0C || b == 0x0D

/-- Whether a text begins with a word byte. -/
def beginsInWord : Text → Bool
  | [] => false
  | b :: _ => isWord b

/-- Writes each word that is an `r` and one digit as the digit. The bytes before are already `seen`,
last one first; `inWord` tells whether the last one is a word byte. -/
def numberFrom (seen : Text) (inWord : Bool) : Text → Text
  | [] => seen.reverse
  | [a] => (a :: seen).reverse
  | a :: d :: r =>
    if !inWord && a == byte 'r' && isDigit d && !beginsInWord r then
      numberFrom (d :: seen) true r
    else numberFrom (a :: seen) (isWord a) (d :: r)

/-- Writes the registers among the operands of an instruction as numbers. The operation, and a line
without operands, is left alone. -/
def numberRegisters (t : Text) : Text :=
  let operation := t.takeWhile (!isSeparator ·)
  let rest := t.dropWhile (!isSeparator ·)
  operation ++ (rest.takeWhile isSeparator ++ numberFrom [] false (rest.dropWhile isSeparator))

end Preassembler.Statement
