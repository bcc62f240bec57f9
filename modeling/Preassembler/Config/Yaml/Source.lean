import Preassembler.Text.Utf8

/-! The characters of a YAML document.

A document is encoded in UTF-8, or in UTF-16 when it begins with a byte order mark. It is decoded
block by block as reading goes on, so a byte that is no character does no harm as long as nobody
reads up to its block. -/
namespace Preassembler.Config.Yaml

/-- The encodings of documents. -/
inductive Encoding where
  | utf8
  | utf16 (bigEndian : Bool)
  deriving DecidableEq, Repr

namespace Encoding

/-- The encoding of a document by its byte order mark, and the length of the mark. -/
def detect (t : Text) : Encoding × Nat :=
  match t with
  | 0xFF :: 0xFE :: _ => (utf16 false, 2)
  | 0xFE :: 0xFF :: _ => (utf16 true, 2)
  | 0xEF :: 0xBB :: 0xBF :: _ => (utf8, 3)
  | _ => (utf8, 0)

/-- The start of a block of bytes. -/
inductive Front where
  | char (code : Nat) (rest : Text)
  | noChar
  /-- The block ends inside a character. -/
  | cut
  deriving DecidableEq, Repr

/-- The number of bytes of a character in UTF-8 by its first byte. -/
def utf8Length? (b : UInt8) : Option Nat :=
  if b < 0x80 then some 1
  else if 0xC0 ≤ b && b < 0xE0 then some 2
  else if 0xE0 ≤ b && b < 0xF0 then some 3
  else if 0xF0 ≤ b && b < 0xF8 then some 4
  else none

/-- The number two bytes make up. -/
def unit (bigEndian : Bool) (a b : UInt8) : Nat :=
  if bigEndian then a.toNat * 0x100 + b.toNat else b.toNat * 0x100 + a.toNat

/-- The first character of a block `a :: r`. -/
def front (e : Encoding) (a : UInt8) (r : Text) : Front :=
  match e with
  | utf8 =>
    match utf8Length? a with
    | none => .noChar
    | some n =>
      if (r.take (n - 1)).length < n - 1 then .cut
      else match Text.Utf8.next a r with
        | (.point c _, rest) => .char c rest
        | (.stray _, _) => .noChar
  | utf16 bigEndian =>
    match r with
    | [] => .cut
    | b :: r =>
      let u := unit bigEndian a b
      if u / 0x400 = 0x37 then .noChar
      else if u / 0x400 = 0x36 then
        match r with
        | c :: d :: r =>
          let v := unit bigEndian c d
          if v / 0x400 = 0x37 then .char (0x10000 + u % 0x400 * 0x400 + v % 0x400) r else .noChar
        | _ => .cut
      else .char u r

end Encoding

/-- Whether a document may hold a code point. -/
def isAllowed (c : Nat) : Bool :=
  c == 0x09 || c == 0x0A || c == 0x0D || (0x20 ≤ c && c ≤ 0x7E) || c == 0x85 ||
    (0xA0 ≤ c && c ≤ 0xD7FF) || (0xE000 ≤ c && c ≤ 0xFFFD) || 0x10000 ≤ c

/-- The characters of a document as far as they can be read. -/
structure Source where
  /-- The characters of each block. -/
  blocks : List (List Char)
  /-- Whether something that is no character follows. -/
  isBroken : Bool
  deriving DecidableEq, Repr

namespace Source

/-- The number of bytes decoded at a time. -/
def blockSize : Nat := 512

/-- The characters of a block behind those already `seen`, and the bytes of a character that is cut
off at its end. -/
def decodeBlock? (e : Encoding) (seen : List Char) : Nat → Text → Option (List Char × Text)
  | 0, t => some (seen.reverse, t)
  | _, [] => some (seen.reverse, [])
  | fuel + 1, a :: r =>
    match e.front a r with
    | .char c rest => if isAllowed c then decodeBlock? e (Char.ofNat c :: seen) fuel rest else none
    | .noChar => none
    | .cut => some (seen.reverse, a :: r)

/-- Decodes a text, with so many bytes in its first block. -/
def decode (e : Encoding) (size : Nat) (seen : List (List Char)) : Nat → Text → Source
  | 0, _ => ⟨seen.reverse, true⟩
  | fuel + 1, t =>
    match decodeBlock? e [] blockSize (t.take size) with
    | none => ⟨seen.reverse, true⟩
    | some (chars, left) =>
      match t.drop size with
      | [] => ⟨(chars :: seen).reverse, !left.isEmpty⟩
      | rest => decode e blockSize (chars :: seen) fuel (left ++ rest)

/-- The characters of a document. -/
def ofText (t : Text) : Source :=
  let t := if t.isEmpty then [0x0A] else t
  let (e, mark) := Encoding.detect t
  decode e (blockSize - mark) [] t.length (t.drop mark)

/-- All characters that can be read. -/
def chars (s : Source) : List Char := s.blocks.flatten

/-- The number of characters up to the end of each block. -/
def ends (s : Source) : List Nat :=
  (s.blocks.foldl (fun (n, ends) b => (n + b.length, (n + b.length) :: ends)) (0, [])).2.reverse

end Source

end Preassembler.Config.Yaml
