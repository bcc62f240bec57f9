import Preassembler.Text.Basic

/-! Written integers of configuration files. -/
namespace Preassembler.Config
open Text (byte isDigit)

/-- The value of a digit in any base up to sixteen. -/
def digit? (b : UInt8) : Option Nat :=
  if isDigit b then some (b - byte '0').toNat
  else if byte 'a' ≤ b && b ≤ byte 'f' then some ((b - byte 'a').toNat + 10)
  else if byte 'A' ≤ b && b ≤ byte 'F' then some ((b - byte 'A').toNat + 10)
  else none

/-- Whether a byte is a hexadecimal digit. -/
def isHex (b : UInt8) : Bool := (digit? b).isSome

/-- The number some digits stand for in a base. -/
def number? (base : Nat) (t : Text) : Option Nat :=
  if t.isEmpty then none
  else t.foldl (fun n b =>
    match n, digit? b with
    | some n, some d => if d < base then some (n * base + d) else none
    | _, _ => none) (some 0)

/-- A number in the base its first bytes tell: hexadecimal after `0x`, binary after `0b`, octal after
`0o` or a zero alone, else decimal. -/
def prefixed? (t : Text) : Option Nat :=
  match t with
  | 0x30 :: x :: r =>
    if x == byte 'x' || x == byte 'X' then number? 16 r
    else if x == byte 'o' || x == byte 'O' then number? 8 r
    else if x == byte 'b' || x == byte 'B' then number? 2 r
    else number? 8 (x :: r)
  | t => number? 10 t

/-- The sign in front of a number, and the number. -/
def signed (t : Text) : Bool × Text :=
  match t with
  | b :: r =>
    if b == byte '-' then (true, r)
    else if b == byte '+' then (false, r)
    else (false, t)
  | [] => (false, [])

/-- The first size that is too large for a positive integer of 64 bits. -/
def wordBound : Nat := 0x8000000000000000

/-- The integer with a sign and a size, if it has 64 bits. -/
def word? (negative : Bool) (n : Nat) : Option Int :=
  if negative then if n ≤ wordBound then some (-(n : Int)) else none
  else if n < wordBound then some n else none

/-- An integer of 64 bits with an optional sign. -/
def integer? (read : Text → Option Nat) (t : Text) : Option Int := do
  let (negative, size) := signed t
  word? negative (← read size)

end Preassembler.Config
