import Preassembler.Text.Printable
import Preassembler.Text.Utf8

/-! Quoted text, as messages show it.

A quoted text stands between double quotes. Printable code points stand for themselves; quotes,
backslashes and control characters are written with a backslash, other code points by their number,
and bytes that belong to no code point by their value. -/
namespace Preassembler.Text

/-- The letter that stands for a control character after a backslash. -/
def controlLetter? (c : Nat) : Option UInt8 :=
  if c = 0x07 then some (byte 'a')
  else if c = 0x08 then some (byte 'b')
  else if c = 0x0C then some (byte 'f')
  else if c = 0x0A then some (byte 'n')
  else if c = 0x0D then some (byte 'r')
  else if c = 0x09 then some (byte 't')
  else if c = 0x0B then some (byte 'v')
  else none

/-- The written form of a code point inside quotes. -/
def quotePoint (c : Nat) (bytes : Text) : Text :=
  if c = 0x22 then [0x5C, 0x22]
  else if c = 0x5C then [0x5C, 0x5C]
  else if isPrintable c then bytes
  else match controlLetter? c with
    | some l => [0x5C, l]
    | none =>
      if c < 0x20 || c = 0x7F then 0x5C :: byte 'x' :: hex 2 c
      else if c < 0x10000 then 0x5C :: byte 'u' :: hex 4 c
      else 0x5C :: byte 'U' :: hex 8 c

/-- The written form of a symbol inside quotes. -/
def quoteSymbol : Symbol → Text
  | .point c bs => quotePoint c bs
  | .stray b => 0x5C :: byte 'x' :: hex 2 b.toNat

/-- A text between double quotes. -/
def quote (t : Text) : Text := 0x22 :: ((symbols t).flatMap quoteSymbol ++ [0x22])

end Preassembler.Text
