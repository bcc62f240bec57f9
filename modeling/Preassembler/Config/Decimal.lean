import Preassembler.Config.Integer

/-! Written decimal fractions, and the floating point numbers nearest to them.

A decimal is read exactly, as digits and a power of ten. A setting sees it as the binary number of 64
bits nearest to it, of two equally near ones the one with the even last digit. -/
namespace Preassembler.Config
open Text (byte isDigit)

/-! ### Decimals -/

/-- A decimal: its digits without zeros in front, to be multiplied by a power of ten. -/
structure Decimal where
  negative : Bool
  digits : Text
  power : Int
  deriving DecidableEq, Repr

namespace Decimal

/-- The exponents read; further digits of an exponent only matter for numbers too large or too
small anyway. -/
def exponentBound : Nat := 10000

/-- The size of an exponent. -/
def exponentOf (digits : Text) : Nat :=
  digits.foldl (fun e b => if e < exponentBound then e * 10 + (b - byte '0').toNat else e) 0

/-- What stands behind the mark of an exponent. -/
def exponent? (t : Text) : Option Int :=
  let (negative, size) := signed t
  if size.isEmpty || !size.all isDigit then none
  else if negative then some (-(exponentOf size : Int))
  else some (exponentOf size)

/-- A decimal with an optional sign, an optional point and an optional exponent. -/
def parse? (t : Text) : Option Decimal := do
  let (negative, size) := signed t
  let whole := size.takeWhile isDigit
  let (fraction, rest) := match size.drop whole.length with
    | 0x2E :: r => (r.takeWhile isDigit, r.dropWhile isDigit)
    | r => ([], r)
  let exponent ← match rest with
    | [] => some 0
    | e :: r => if e == byte 'e' || e == byte 'E' then exponent? r else none
  if whole.isEmpty && fraction.isEmpty then none
  else some ⟨negative, (whole ++ fraction).dropWhile (· == byte '0'), exponent - fraction.length⟩

end Decimal

/-! ### Binary numbers of 64 bits -/

/-- A size `mantissa * 2 ^ exponent` with a sign. -/
structure Binary64 where
  negative : Bool
  mantissa : Nat
  exponent : Int
  deriving DecidableEq, Repr

namespace Binary64

/-- The exponent of the smallest size. -/
def minExponent : Int := -1074

/-- The number of bits of a mantissa. -/
def precision : Nat := 53

/-- The whole part and the rest of `num / den` in units of a power of two, as a quotient, a rest and
the divisor. -/
def scale (num den : Nat) (exponent : Int) : Nat × Nat × Nat :=
  let num := num * Nat.pow 2 (-exponent).toNat
  let den := den * Nat.pow 2 exponent.toNat
  (num / den, num % den, den)

/-- The mantissa nearest to `num / den` in units of a power of two; a half goes to the even one. -/
def roundAt (num den : Nat) (exponent : Int) : Nat :=
  let (q, r, den) := scale num den exponent
  if den < 2 * r || (2 * r = den && q % 2 = 1) then q + 1 else q

/-- The exponent that gives a positive `num / den` as many bits as a mantissa has, as far as there
are such small units. -/
def exponentFor (num den : Nat) : Int :=
  let e := (num.log2 : Int) - den.log2 - precision
  let e := if Nat.pow 2 precision ≤ (scale num den e).1 then e + 1 else e
  max e minExponent

/-- Whether a size is below `2 ^ 1024`. -/
def isFinite (x : Binary64) : Bool := (x.mantissa.log2 : Int) + x.exponent < 1024

/-- The number nearest to a decimal; none is nearest to a decimal that is too large. -/
def nearest? (d : Decimal) : Option Binary64 :=
  let point := d.digits.length + d.power
  if d.digits.isEmpty || point < -330 then some ⟨d.negative, 0, 0⟩
  else if 310 < point then none
  else do
    let n ← number? 10 d.digits
    let num := n * Nat.pow 10 d.power.toNat
    let den := Nat.pow 10 (-d.power).toNat
    let e := exponentFor num den
    let x : Binary64 := ⟨d.negative, roundAt num den e, e⟩
    if x.isFinite then some x else none

/-- The size without its fraction. -/
def whole (x : Binary64) : Nat :=
  x.mantissa * Nat.pow 2 x.exponent.toNat / Nat.pow 2 (-x.exponent).toNat

/-- The integer of 64 bits a number counts as: its whole part. The bound itself, which is no such
integer, and whatever lies below the least one count as the least one. -/
def toWord? (x : Binary64) : Option Int :=
  let size := x.whole
  if x.negative then some (if size ≤ wordBound then -(size : Int) else -(wordBound : Int))
  else if size < wordBound then some size
  else if size = wordBound then some (-(wordBound : Int))
  else none

end Binary64

end Preassembler.Config
