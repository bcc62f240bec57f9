import Preassembler.Config.Yaml.Source

/-! A place in the characters of a YAML document.

A cursor moves forward over the characters and counts lines and columns. Behind the end of the
document it sees the character zero, which no document holds. -/
namespace Preassembler.Config.Yaml

/-! ### Classes of characters -/

/-- The character behind the end of a document. -/
def finis : Char := '\x00'

/-- The mark of the byte order. -/
def orderMark : Char := Char.ofNat 0xFEFF

def isBlank (c : Char) : Bool := c == ' ' || c == '\t'

/-- Whether a character ends a line. -/
def isBreak (c : Char) : Bool :=
  c == '\n' || c == '\r' || c.toNat == 0x85 || c.toNat == 0x2028 || c.toNat == 0x2029

/-- Whether a character ends a line or the document. -/
def isLineEnd (c : Char) : Bool := isBreak c || c == finis

/-- Whether nothing is written at a character. -/
def isVoid (c : Char) : Bool := isBlank c || isLineEnd c

/-- Characters of names. -/
def isName (c : Char) : Bool := c.isAlphanum || c == '_' || c == '-'

/-! ### Cursors -/

/-- A place in a document. -/
structure Cursor where
  /-- The characters from here on. -/
  rest : List Char
  /-- The number of characters before this place. -/
  index : Nat := 0
  line : Nat := 0
  column : Nat := 0
  /-- The line ends since the last character that is not blank. -/
  breaks : Nat := 0
  /-- The number of characters decoded so far. -/
  decoded : Nat := 0
  /-- Where the blocks not yet decoded end. -/
  ends : List Nat
  isBroken : Bool
  /-- The first character of the window: the one that stood here when characters were decoded last. -/
  window : Char := finis
  /-- No fewer than the steps any loop over the document takes. -/
  bound : Nat
  deriving DecidableEq, Repr

namespace Cursor

/-- The cursor at the start of a document. -/
def ofSource (s : Source) : Cursor :=
  { rest := s.chars, ends := s.ends, isBroken := s.isBroken, bound := s.chars.length + 8 }

/-- Decodes blocks up to a number of characters. At the end of the document, one more end is added. -/
def decodeUpTo? (isBroken : Bool) (goal decoded : Nat) : List Nat → Option (Nat × List Nat)
  | [] => if isBroken then none else some (decoded + 1, [])
  | e :: ends => if goal ≤ e then some (e, ends) else decodeUpTo? isBroken goal e ends

/-- The character so many places further on. -/
def peek (c : Cursor) (n : Nat) : Char := (c.rest.drop n).head?.getD finis

/-- Makes sure that so many characters from here on are decoded. -/
def need? (c : Cursor) (n : Nat) : Option Cursor :=
  if c.index + n ≤ c.decoded then some c
  else do
    let (decoded, ends) ← decodeUpTo? c.isBroken (c.index + n) c.decoded c.ends
    some { c with decoded, ends, window := c.peek 0 }

/-- The next place on the same line. -/
def skip (c : Cursor) : Cursor :=
  { c with
    rest := c.rest.tail
    index := c.index + 1
    column := c.column + 1
    breaks := if isBlank (c.peek 0) then c.breaks else 0 }

/-- The characters that make up a line end here: two, one or none. -/
def breakLength (c : Cursor) : Nat :=
  if c.peek 0 == '\r' && c.peek 1 == '\n' then 2 else if isBreak (c.peek 0) then 1 else 0

/-- The start of the next line. -/
def skipBreak (c : Cursor) : Cursor :=
  let n := c.breakLength
  if n = 0 then c
  else
    { c with
      rest := c.rest.drop n
      index := c.index + n
      line := c.line + 1
      column := 0
      breaks := c.breaks + 1 }

/-- What a line end here stands for: a newline, but line and paragraph separators for themselves. -/
def breakText (c : Cursor) : List Char :=
  let b := c.peek 0
  if !isBreak b then [] else if b.toNat == 0x2028 || b.toNat == 0x2029 then [b] else ['\n']

/-- Whether a line begins here with three times the same mark that stands alone. -/
def isMarker (c : Cursor) (mark : Char) : Bool :=
  c.column == 0 && c.peek 0 == mark && c.peek 1 == mark && c.peek 2 == mark && isVoid (c.peek 3)

/-- Whether a line begins here that begins or ends a document. -/
def isDocumentMarker (c : Cursor) : Bool := c.isMarker '-' || c.isMarker '.'

end Cursor

/-! ### Reading with a cursor -/

/-- A computation that moves a cursor and can fail. -/
abbrev Reader := StateT Cursor Option

namespace Reader

/-- Gives up: the document is malformed. -/
def fail {α : Type} : Reader α := fun _ => none

def need (n : Nat) : Reader Unit := fun c => (c.need? n).map ((), ·)

def peek (n : Nat) : Reader Char := fun c => some (c.peek n, c)

def skip : Reader Unit := fun c => some ((), c.skip)

/-- Moves so many characters on. -/
def skips : Nat → Reader Unit
  | 0 => return
  | n + 1 => do
    skip
    skips n

def skipBreak : Reader Unit := fun c => some ((), c.skipBreak)

/-- Takes the character here. -/
def take : Reader Char := fun c => some (c.peek 0, c.skip)

/-- Takes the line end here. -/
def takeBreak : Reader (List Char) := fun c => some (c.breakText, c.skipBreak)

/-- Skips characters that satisfy a condition. -/
def skipWhileFor (p : Char → Bool) : Nat → Reader Unit
  | 0 => fail
  | fuel + 1 => do
    if p (← peek 0) then
      skip
      need 1
      skipWhileFor p fuel

def skipWhile (p : Char → Bool) : Reader Unit := do skipWhileFor p (← get).bound

/-- Takes characters that satisfy a condition, behind those already `seen`, newest first. -/
def takeWhileFor (p : Char → Bool) (seen : List Char) : Nat → Reader (List Char)
  | 0 => fail
  | fuel + 1 => do
    if p (← peek 0) then
      let c ← take
      need 1
      takeWhileFor p (c :: seen) fuel
    else return seen.reverse

def takeWhile (p : Char → Bool) : Reader (List Char) := do takeWhileFor p [] (← get).bound

/-- Skips to the end of the line. -/
def skipLine : Reader Unit := skipWhile fun c => !isLineEnd c

/-! ### Comments -/

/-- How far comments are looked for. -/
def commentReach : Nat := 512

/-- Skips a comment on the line of what was just read. -/
def skipLineComment : Reader Unit := do
  let c ← get
  if c.breaks = 0 then
    let blanks := ((c.rest.take commentReach).takeWhile isBlank).length
    need (min (blanks + 1) commentReach)
    if blanks < commentReach && (← peek blanks) == '#' then
      skips blanks
      skipLine

/-- Skips lines up to a place; only blanks and line ends stand before it. -/
def skipTo (index : Nat) : Nat → Reader Unit
  | 0 => fail
  | fuel + 1 => do
    if (← get).index < index then
      need 1
      if isBreak (← peek 0) then
        need 2
        skipBreak
      else skip
      skipTo index fuel

/-- The distance to the next mark of a comment, when only blanks and line ends stand before it, and
how many characters have to be looked at to tell. -/
def commentAhead (rest : List Char) : Option Nat × Nat :=
  let lineEnds := rest.head?.any fun b => b == '\n' || b == '\r'
  if !lineEnds then (none, 2)
  else
    let space := (rest.take commentReach).takeWhile fun c => isBlank c || c == '\n' || c == '\r'
    let n := space.length
    if n = commentReach then (none, commentReach)
    else match (rest.drop n).head? with
      | some '#' => (some n, n + 1)
      | some c => (none, if isBreak c then min (n + 2) commentReach else n + 1)
      | none => (none, n + 1)

/-- Skips a comment that begins here and those on the lines behind it. -/
def skipComments : Nat → Reader Unit
  | 0 => fail
  | fuel + 1 => do
    need 1
    skipLine
    let c ← get
    let (distance, looked) := commentAhead c.rest
    need looked
    match distance with
    | none => return
    | some n =>
      skipTo (c.index + n) c.bound
      skipComments fuel

end Reader

end Preassembler.Config.Yaml
