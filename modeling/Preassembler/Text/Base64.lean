import Preassembler.Text.Basic

/-! Bytes written as letters, digits and two marks, six bits in each. -/
namespace Preassembler.Text.Base64

/-- The six bits a byte of the alphabet stands for. -/
def sextet? (b : UInt8) : Option Nat :=
  if isUpper b then some (b - byte 'A').toNat
  else if isLower b then some ((b - byte 'a').toNat + 26)
  else if isDigit b then some ((b - byte '0').toNat + 52)
  else if b == byte '+' then some 62
  else if b == byte '/' then some 63
  else none

/-- The first bytes of a group of four sextets. -/
def bytesOf (a b c d : Nat) : Text :=
  let n := ((a * 64 + b) * 64 + c) * 64 + d
  [UInt8.ofNat (n / 65536), UInt8.ofNat (n / 256), UInt8.ofNat n]

/-- The bytes of groups of four; the last group may be filled up with one or two equals signs. -/
def groups (seen : Text) : Text → Option Text
  | [] => some seen.reverse
  | [a, b, 0x3D, 0x3D] => do
    some (((bytesOf (← sextet? a) (← sextet? b) 0 0).take 1).reverse ++ seen).reverse
  | [a, b, c, 0x3D] => do
    some (((bytesOf (← sextet? a) (← sextet? b) (← sextet? c) 0).take 2).reverse ++ seen).reverse
  | a :: b :: c :: d :: r => do
    groups ((bytesOf (← sextet? a) (← sextet? b) (← sextet? c) (← sextet? d)).reverse ++ seen) r
  | _ => none

/-- The bytes a text stands for; line ends in it mean nothing. -/
def decode? (t : Text) : Option Text := groups [] (t.filter fun b => b != 0x0A && b != 0x0D)

end Preassembler.Text.Base64
