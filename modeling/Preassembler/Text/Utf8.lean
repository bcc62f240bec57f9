import Preassembler.Text.Basic

/-! Texts read as UTF-8.

A text is cut into symbols: well-formed code points, shortest form and no surrogates, and stray
bytes that belong to none. Main statement: `symbols` loses nothing (`bytes_symbols`). -/
namespace Preassembler.Text

/-- One step of reading a text as UTF-8. -/
inductive Symbol where
  /-- A code point and the bytes that encode it. -/
  | point (code : Nat) (bytes : Text)
  /-- A byte that begins no well-formed code point. -/
  | stray (byte : UInt8)
  deriving DecidableEq, Repr

namespace Symbol

def bytes : Symbol → Text
  | point _ bs => bs
  | stray b => [b]

/-- The code point of a symbol; a stray byte has none. -/
def code? : Symbol → Option Nat
  | point c _ => some c
  | stray _ => none

end Symbol

namespace Utf8

/-- A byte that continues a code point. -/
def isTail (b : UInt8) : Bool := 0x80 ≤ b && b ≤ 0xBF

/-- The six bits a continuation byte carries. -/
def payload (b : UInt8) : Nat := b.toNat % 0x40

/-- Whether `a`, `b` begin a code point of two bytes. -/
def opensTwo (a b : UInt8) : Bool := 0xC2 ≤ a && a ≤ 0xDF && isTail b

/-- Whether `a`, `b` begin a code point of three bytes: neither overlong nor a surrogate. -/
def opensThree (a b : UInt8) : Bool :=
  0xE0 ≤ a && a ≤ 0xEF && isTail b && (a != 0xE0 || 0xA0 ≤ b) && (a != 0xED || b ≤ 0x9F)

/-- Whether `a`, `b` begin a code point of four bytes: neither overlong nor above U+10FFFF. -/
def opensFour (a b : UInt8) : Bool :=
  0xF0 ≤ a && a ≤ 0xF4 && isTail b && (a != 0xF0 || 0x90 ≤ b) && (a != 0xF4 || b ≤ 0x8F)

/-- The first symbol of the text `a :: r`, and the text after it. -/
def next (a : UInt8) (r : Text) : Symbol × Text :=
  if a < 0x80 then (.point a.toNat [a], r)
  else match r with
    | b :: r₁ =>
      if opensTwo a b then
        (.point (a.toNat % 0x20 * 0x40 + payload b) [a, b], r₁)
      else match r₁ with
        | c :: r₂ =>
          if opensThree a b && isTail c then
            (.point ((a.toNat % 0x10 * 0x40 + payload b) * 0x40 + payload c) [a, b, c], r₂)
          else match r₂ with
            | d :: r₃ =>
              if opensFour a b && isTail c && isTail d then
                (.point (((a.toNat % 0x08 * 0x40 + payload b) * 0x40 + payload c) * 0x40 + payload d)
                  [a, b, c, d], r₃)
              else (.stray a, r)
            | [] => (.stray a, r)
        | [] => (.stray a, r)
    | [] => (.stray a, r)

/-- A symbol and the text after it make up the text. -/
theorem next_bytes (a : UInt8) (r : Text) : (next a r).1.bytes ++ (next a r).2 = a :: r := by
  unfold next
  repeat' split
  all_goals simp [Symbol.bytes]

theorem next_length (a : UInt8) (r : Text) : (next a r).2.length ≤ r.length := by
  unfold next
  repeat' split
  all_goals simp <;> omega

/-- The symbols of a text behind those already `seen`, newest first. -/
def symbolsFrom (seen : List Symbol) : Text → List Symbol
  | [] => seen.reverse
  | a :: r => symbolsFrom ((next a r).1 :: seen) (next a r).2
termination_by t => t.length
decreasing_by exact Nat.lt_succ_of_le (next_length a r)

end Utf8

/-- The symbols of a text, in order. -/
def symbols (t : Text) : List Symbol := Utf8.symbolsFrom [] t

/-- Symbols that were seen earlier stand in front. -/
theorem Utf8.symbolsFrom_append (seen before : List Symbol) (t : Text) :
    symbolsFrom (seen ++ before) t = before.reverse ++ symbolsFrom seen t := by
  fun_induction symbolsFrom seen t with
  | case1 seen => simp [symbolsFrom]
  | case2 seen a r ih =>
    rw [symbolsFrom]
    exact ih

theorem Utf8.bytes_symbolsFrom (seen : List Symbol) (t : Text) :
    (symbolsFrom seen t).flatMap Symbol.bytes = seen.reverse.flatMap Symbol.bytes ++ t := by
  fun_induction symbolsFrom seen t with
  | case1 => simp
  | case2 seen a r ih => simp [ih, next_bytes]

/-- The bytes of the symbols are the text. -/
theorem bytes_symbols (t : Text) : (symbols t).flatMap Symbol.bytes = t := by
  simp [symbols, Utf8.bytes_symbolsFrom]

/-- The length of a text in code points; a stray byte counts one. -/
def width (t : Text) : Nat := (symbols t).length

/-- The UTF-8 encoding of a code point. -/
def encode (c : Nat) : Text :=
  if c < 0x80 then [UInt8.ofNat c]
  else if c < 0x800 then [UInt8.ofNat (0xC0 + c / 0x40), UInt8.ofNat (0x80 + c % 0x40)]
  else if c < 0x10000 then
    [UInt8.ofNat (0xE0 + c / 0x1000), UInt8.ofNat (0x80 + c / 0x40 % 0x40),
      UInt8.ofNat (0x80 + c % 0x40)]
  else
    [UInt8.ofNat (0xF0 + c / 0x40000), UInt8.ofNat (0x80 + c / 0x1000 % 0x40),
      UInt8.ofNat (0x80 + c / 0x40 % 0x40), UInt8.ofNat (0x80 + c % 0x40)]

/-- Lower case as far as the result is an ASCII letter: besides the ASCII capitals these are the
dotted capital I and the Kelvin sign. Every other symbol is kept. -/
def lower (t : Text) : Text :=
  (symbols t).flatMap fun
    | .point c bs =>
      if 0x41 ≤ c && c ≤ 0x5A then [UInt8.ofNat (c + 0x20)]
      else if c = 0x130 then [byte 'i']
      else if c = 0x212A then [byte 'k']
      else bs
    | .stray b => [b]

end Preassembler.Text
