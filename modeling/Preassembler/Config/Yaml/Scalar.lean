import Preassembler.Config.Integer
import Preassembler.Config.Yaml.Cursor

/-! Scalars of YAML.

A scalar is written plain, in quotes or as a block of lines. Line ends inside a scalar are folded: one
stands for a blank, and of several the first is dropped. -/
namespace Preassembler.Config.Yaml
open Reader

/-- The bytes of some characters. -/
def textOf (cs : List Char) : Text := cs.flatMap fun c => Text.encode c.toNat

/-! ### Gaps -/

/-- White space between the words of a scalar. -/
structure Gap where
  /-- Blanks before any line end, newest first. -/
  blanks : List Char := []
  isBroken : Bool := false
  /-- The first line end. -/
  first : List Char := []
  /-- The line ends behind it, newest first. -/
  more : List Char := []
  deriving DecidableEq, Repr

/-- What a gap stands for. -/
def Gap.fold (g : Gap) : List Char :=
  if !g.isBroken then g.blanks.reverse
  else if g.first.head? == some '\n' then if g.more.isEmpty then [' '] else g.more.reverse
  else g.first ++ g.more.reverse

/-- Reads on in a gap. After a line end no tab may stand left of the margin. -/
def readGap (margin : Nat) (g : Gap) : Nat → Reader Gap
  | 0 => fail
  | fuel + 1 => do
    let c ← peek 0
    if isBlank c then
      if g.isBroken && (← get).column < margin && c == '\t' then fail
      skip
      need 1
      readGap margin (if g.isBroken then g else { g with blanks := c :: g.blanks }) fuel
    else if isBreak c then
      need 2
      let b ← takeBreak
      need 1
      readGap margin
        (if g.isBroken then { g with more := b.reverse ++ g.more }
          else { g with blanks := [], isBroken := true, first := b }) fuel
    else return g

/-! ### Plain scalars -/

/-- Marks of the flow style that end a plain scalar. -/
def isFlowMark (c : Char) : Bool :=
  c == ',' || c == '?' || c == '[' || c == ']' || c == '\x7b' || c == '\x7d'

/-- Reads words of a plain scalar up to white space, behind the characters already `seen`, newest
first, and a gap. -/
def plainWord (inFlow : Bool) (seen : List Char) (g : Gap) : Nat → Reader (List Char × Gap)
  | 0 => fail
  | fuel + 1 => do
    let c ← peek 0
    if isVoid c || (c == ':' && isVoid (← peek 1)) || (inFlow && isFlowMark c) then return (seen, g)
    else
      skip
      need 2
      plainWord inFlow (c :: g.fold.reverse ++ seen) {} fuel

/-- Reads a plain scalar: its characters, and whether it ends behind a line end. -/
def plainFrom (inFlow : Bool) (margin : Nat) (seen : List Char) (g : Gap) :
    Nat → Reader (List Char × Bool)
  | 0 => fail
  | fuel + 1 => do
    need 4
    if (← get).isDocumentMarker || (← peek 0) == '#' then return (seen.reverse, g.isBroken)
    let (seen, g) ← plainWord inFlow seen g (← get).bound
    let c ← peek 0
    if !(isBlank c || isBreak c) then return (seen.reverse, g.isBroken)
    need 1
    let g ← readGap margin g (← get).bound
    if !inFlow && (← get).column < margin then return (seen.reverse, g.isBroken)
    plainFrom inFlow margin seen g fuel

/-- Reads a plain scalar with continuation lines indented up to a margin. -/
def plain (inFlow : Bool) (margin : Nat) : Reader (Text × Bool) := do
  let (cs, ended) ← plainFrom inFlow margin [] {} (← get).bound
  return (textOf cs, ended)

/-! ### Quoted scalars -/

/-- The character a letter stands for after a backslash. -/
def escape? (e : Char) : Option Char :=
  match e with
  | '0' => some '\x00'
  | 'a' => some '\x07'
  | 'b' => some '\x08'
  | 't' => some '\t'
  | '\t' => some '\t'
  | 'n' => some '\n'
  | 'v' => some '\x0b'
  | 'f' => some '\x0c'
  | 'r' => some '\r'
  | 'e' => some '\x1b'
  | ' ' => some ' '
  | '\x22' => some '\x22'
  | '\x27' => some '\x27'
  | '\x5c' => some '\x5c'
  | 'N' => some (Char.ofNat 0x85)
  | '_' => some (Char.ofNat 0xA0)
  | 'L' => some (Char.ofNat 0x2028)
  | 'P' => some (Char.ofNat 0x2029)
  | _ => none

/-- The number of hexadecimal digits behind a letter after a backslash. -/
def escapeLength? (e : Char) : Option Nat :=
  match e with
  | 'x' => some 2
  | 'u' => some 4
  | 'U' => some 8
  | _ => none

/-- The value of a hexadecimal digit. -/
def hexDigit? (c : Char) : Option Nat := if c.toNat < 0x80 then digit? (UInt8.ofNat c.toNat) else none

/-- The code point some hexadecimal digits stand for. -/
def codePoint? (digits : List Char) : Option Char := do
  let n ← digits.foldlM (fun n d => (hexDigit? d).map (n * 16 + ·)) 0
  if n < 0xD800 || (0xE000 ≤ n && n < 0x110000) then some (Char.ofNat n) else none

/-- Reads an escape: the character it stands for. -/
def escape : Reader Char := do
  let e ← peek 1
  match escape? e, escapeLength? e with
  | some c, _ =>
    skips 2
    return c
  | none, some n =>
    skips 2
    need n
    match codePoint? ((← get).rest.take n) with
    | some c =>
      skips n
      return c
    | none => fail
  | none, none => fail

/-- Reads words of a quoted scalar up to white space or the closing quote; tells whether a backslash
at the end of a line ended them. -/
def quotedWord (quote : Char) (seen : List Char) : Nat → Reader (List Char × Bool)
  | 0 => fail
  | fuel + 1 => do
    let c ← peek 0
    if isVoid c then return (seen, false)
    else if c == quote then
      if quote == '\x27' && (← peek 1) == '\x27' then
        skips 2
        need 2
        quotedWord quote (c :: seen) fuel
      else return (seen, false)
    else if c == '\x5c' && quote == '\x22' then
      if isBreak (← peek 1) then
        need 3
        skip
        skipBreak
        return (seen, true)
      else
        let c ← escape
        need 2
        quotedWord quote (c :: seen) fuel
    else
      skip
      need 2
      quotedWord quote (c :: seen) fuel

/-- Reads the inside of a quoted scalar. -/
def quotedFrom (quote : Char) (seen : List Char) : Nat → Reader (List Char)
  | 0 => fail
  | fuel + 1 => do
    need 4
    if (← get).isDocumentMarker || (← peek 0) == finis then fail
    let (seen, isBroken) ← quotedWord quote seen (← get).bound
    need 1
    if (← peek 0) == quote then return seen.reverse
    let g ← readGap 0 { isBroken } (← get).bound
    quotedFrom quote (g.fold.reverse ++ seen) fuel

/-- Reads a scalar in quotes. -/
def quoted : Reader Text := do
  let quote ← take
  let cs ← quotedFrom quote [] (← get).bound
  skip
  return textOf cs

/-! ### Block scalars -/

/-- What becomes of the line ends behind a block scalar. -/
inductive Chomping where
  | strip
  | clip
  | keep
  deriving DecidableEq, Repr

/-- The head of a block scalar: what becomes of its last line ends, and its indentation, or zero when
its first line tells it. -/
structure BlockHead where
  chomping : Chomping := .clip
  indent : Nat := 0
  deriving DecidableEq, Repr

/-- Reads a mark about the last line ends. -/
def chomping? : Reader (Option Chomping) := do
  let c ← peek 0
  if c == '+' || c == '-' then
    skip
    return some (if c == '+' then .keep else .strip)
  else return none

/-- Reads a digit of indentation. -/
def indentDigit? : Reader (Option Nat) := do
  let c ← peek 0
  if !c.isDigit then return none
  else if c == '0' then fail
  else
    skip
    return some (c.toNat - '0'.toNat)

/-- Reads the head of a block scalar behind its mark; the two parts come in any order. -/
def blockHead : Reader BlockHead := do
  need 1
  match ← chomping? with
  | some chomping =>
    need 1
    return { chomping, indent := (← indentDigit?).getD 0 }
  | none =>
    match ← indentDigit? with
    | some indent =>
      need 1
      return { chomping := (← chomping?).getD .clip, indent }
    | none => return {}

/-- Reads the rest of a line that may only hold a comment. -/
def finishLine : Reader Unit := do
  need 1
  skipWhile isBlank
  if (← peek 0) == '#' then skipLine
  if !isLineEnd (← peek 0) then fail
  if isBreak (← peek 0) then
    need 2
    skipBreak

/-- Skips the indentation of a line up to a column; without one, all of it. -/
def skipIndent (indent : Nat) : Nat → Reader Unit
  | 0 => fail
  | fuel + 1 => do
    if (indent = 0 || (← get).column < indent) && (← peek 0) == ' ' then
      skip
      need 1
      skipIndent indent fuel

/-- Reads empty lines and the indentation of the next one: the widest indentation seen and the line
ends, newest first. -/
def blockBreaks (indent widest : Nat) (seen : List Char) : Nat → Reader (Nat × List Char)
  | 0 => fail
  | fuel + 1 => do
    need 1
    skipIndent indent (← get).bound
    let column := (← get).column
    let c ← peek 0
    if (indent = 0 || column < indent) && c == '\t' then fail
    if isBreak c then
      need 2
      let b ← takeBreak
      blockBreaks indent (max widest column) (b.reverse ++ seen) fuel
    else return (max widest column, seen)

/-- Reads the lines of a block scalar with a known indentation. `gap` is the line end of the last
line and those of the empty lines behind it; `wasBlank` tells whether the last line began with a
blank. -/
def blockLines (isFolded : Bool) (indent : Nat) (seen : List Char) (gap : List Char × List Char)
    (wasBlank : Bool) : Nat → Reader (List Char × List Char × List Char)
  | 0 => fail
  | fuel + 1 => do
    let c ← peek 0
    if (← get).column != indent || c == finis then return (seen, gap)
    else
      let (first, more) := gap
      let joins := isFolded && !wasBlank && !isBlank c && first.head? == some '\n'
      let between := if joins then if more.isEmpty then [' '] else [] else first
      let line ← takeWhile fun c => !isLineEnd c
      need 2
      let b ← takeBreak
      let (_, ends) ← blockBreaks indent 0 [] (← get).bound
      blockLines isFolded indent (line.reverse ++ more ++ between.reverse ++ seen) (b, ends)
        (isBlank c) fuel

/-- Reads a block scalar inside a block with its lines indented at least up to a margin. -/
def block (isFolded : Bool) (margin : Nat) : Reader Text := do
  skip
  let head ← blockHead
  finishLine
  let given := if head.indent = 0 then 0 else margin - 1 + head.indent
  let (widest, ends) ← blockBreaks given 0 [] (← get).bound
  let indent := if given = 0 then max widest (max margin 1) else given
  need 1
  let (seen, first, more) ← blockLines isFolded indent [] ([], ends) false (← get).bound
  let tail := match head.chomping with
    | .strip => []
    | .clip => first
    | .keep => first ++ more.reverse
  return textOf (seen.reverse ++ tail)

end Preassembler.Config.Yaml
