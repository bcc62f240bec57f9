import Preassembler.Config.Toml.Number
import Preassembler.Config.Toml.Quoted

/-! Reading TOML.

A document is a list of tables with keys and values. Reading gives the tree of its tables, or nothing
when it is malformed: what exactly is wrong with it is not told. -/
namespace Preassembler.Config.Toml
open Text (ascii byte isLetter)

/-! ### Space -/

/-- Whether a document holds only code points and no control characters but tabs and line ends. A
carriage return only stands before a newline. -/
def isClean : List Text.Symbol → Bool
  | [] => true
  | .stray _ :: _ => false
  | .point c _ :: r =>
    (if c = 0x0D then r.head?.any (·.code? == some 0x0A) else c = 0x09 || c = 0x0A || (0x20 ≤ c && c != 0x7F))
      && isClean r

def skipBlanks (t : Text) : Text := t.dropWhile isBlank

def skipComment (t : Text) : Text :=
  match t with
  | 0x23 :: r => r.dropWhile fun b => !isNewline b
  | t => t

/-- Skips blanks, newlines and comments. -/
def skipSpace (inComment : Bool) : Text → Text
  | [] => []
  | b :: r =>
    if isNewline b then skipSpace false r
    else if inComment || isBlank b then skipSpace inComment r
    else if b == byte '#' then skipSpace true r
    else b :: r

/-- The text from the end of the line on, when nothing but a comment stands before it. -/
def lineEnd? (t : Text) : Option Text :=
  match skipComment (skipBlanks t) with
  | [] => some []
  | b :: r => if isNewline b then some r else none

/-! ### Keys -/

def isBareKey (b : UInt8) : Bool := Text.isWord b || b == byte '-'

/-- One part of a key. -/
def keyPart? (t : Text) : Option (Text × Text) :=
  match t with
  | 0x22 :: _ => lineString? t
  | 0x27 :: _ => lineString? t
  | t =>
    let name := t.takeWhile isBareKey
    if name.isEmpty then none else some (name, t.dropWhile isBareKey)

/-- A key with dots between its parts, behind the parts already seen: the parts before the last one,
the last one, and what follows. -/
def key? (seen : List Text) : Nat → Text → Option (List Text × Text × Text)
  | 0, _ => none
  | fuel + 1, t => do
    let (part, r) ← keyPart? (skipBlanks t)
    match skipBlanks r with
    | 0x2E :: r => key? (part :: seen) fuel r
    | r => some (seen.reverse, part, r)

/-! ### Values -/

/-- A value that is neither an array nor an inline table, and what follows it. -/
def simple? (t : Text) : Option (Value × Text) :=
  match t with
  | 0x22 :: _ => (string? t).map fun (s, r) => (.text s, r)
  | 0x27 :: _ => (string? t).map fun (s, r) => (.text s, r)
  | t =>
    let word := t.takeWhile isLetter
    if word = ascii "true" then some (.bool true, t.drop word.length)
    else if word = ascii "false" then some (.bool false, t.drop word.length)
    else numeral? t

/-- What is being read around a value. -/
inductive Frame where
  | array
  /-- An inline table for the key `key` of a table, with its members so far and the parts of the key
  whose value is being read but the last. -/
  | inline (context : List Text) (key : Text) (members : Table) (parts : List Text)
  deriving Repr

/-- Where reading stands. -/
inductive Place where
  | value
  /-- Before an element of an array. -/
  | element
  /-- Before a key of an inline table. -/
  | member
  | finished (v : Value)
  deriving Repr

/-- A value being read: the document, the key of a table the value is for, and what is open. -/
structure Reading where
  document : Document
  context : List Text
  key : Text
  frames : List Frame
  deriving Repr

namespace Reading

/-- Reads one step further. The keys of inline tables are entered into the document at once. -/
def step (bound : Nat) (s : Reading) (t : Text) : Place → Option (Reading × Text × Place)
  | .value =>
    match skipBlanks t with
    | 0x5B :: r =>
      some ({ s with document := s.document.record s.context s.key true, frames := .array :: s.frames },
        r, .element)
    | 0x7B :: r => do
      let here := s.context ++ [s.key]
      let isItem := match s.frames with
        | .array :: _ => true
        | _ => false
      let document ← (s.document.imply here).enter? here isItem
      some (⟨document, here, [], .inline s.context s.key [] [] :: s.frames⟩, r, .member)
    | t => do
      let (v, r) ← simple? t
      some (s, r, .finished v)
  | .element =>
    match skipSpace false t with
    | 0x5D :: r => some ({ s with frames := s.frames.tail }, r, .finished .array)
    | t => some (s, t, .value)
  | .member =>
    match s.frames, skipBlanks t with
    | .inline context key members _ :: frames, 0x7D :: r =>
      some (⟨s.document, context, key, frames⟩, r, .finished (.table members))
    | .inline context key members _ :: frames, t => do
      let (parts, last, r) ← key? [] bound t
      let (document, inner) ← s.document.enterDotted? s.context parts
      let r ← Text.after? (ascii "=") r
      some (⟨document, inner, last, .inline context key members parts :: frames⟩, r, .value)
    | _, _ => none
  | .finished v =>
    match s.frames with
    | [] => none
    | .array :: frames =>
      match skipSpace false t with
      | 0x2C :: r => some (s, r, .element)
      | 0x5D :: r => some ({ s with frames }, r, .finished .array)
      | _ => none
    | .inline context key members parts :: frames => do
      let isArray := match v with
        | .array => true
        | _ => false
      let document := (← s.document.set? s.context s.key v).record s.context s.key isArray
      let members ← members.putDotted? s.key v parts
      match skipBlanks t with
      | 0x2C :: r =>
        if (skipBlanks r).head? == some 0x7D then none
        else some (⟨document, context ++ [key], [], .inline context key members [] :: frames⟩, r, .member)
      | 0x7D :: r => some (⟨document, context, key, frames⟩, r, .finished (.table members))
      | _ => none

/-- Reads on until the value is finished. -/
def run (bound : Nat) : Nat → Reading → Text → Place → Option (Document × Value × Text)
  | 0, _, _, _ => none
  | fuel + 1, s, t, place =>
    match s.frames, place with
    | [], .finished v => some (s.document, v, t)
    | _, _ => do
      let (s, t, place) ← s.step bound t place
      run bound fuel s t place

end Reading

/-- Reads the value for a key of a table and sets it. -/
def assign? (bound : Nat) (d : Document) (context : List Text) (key : Text) (t : Text) :
    Option (Document × Text) := do
  let (d, v, r) ← Reading.run bound bound ⟨d, context, key, []⟩ t .value
  let isArray := match v with
    | .array => true
    | _ => false
  some ((← d.set? context key v).record context key isArray, r)

/-! ### Documents -/

/-- Reads lines into a document, with keys going to the table of the last header. -/
def lines (bound : Nat) (d : Document) (context : List Text) : Nat → Text → Option Document
  | 0, _ => none
  | fuel + 1, t =>
    match skipSpace false t with
    | [] => some d
    | 0x5B :: 0x5B :: r => do
      let (parts, last, r) ← key? [] bound r
      let path := parts ++ [last]
      let r ← Text.after? (ascii "]]") r
      lines bound ((← d.enter? path true).record path [] false) path fuel (← lineEnd? r)
    | 0x5B :: r => do
      let (parts, last, r) ← key? [] bound r
      let path := parts ++ [last]
      let r ← Text.after? (ascii "]") r
      lines bound ((← d.enter? path false).record path [] false) path fuel (← lineEnd? r)
    | t => do
      let (parts, last, r) ← key? [] bound t
      let (d, inner) ← d.enterDotted? context parts
      let r ← Text.after? (ascii "=") r
      let (d, r) ← assign? bound d inner last r
      lines bound d context fuel (← lineEnd? r)

/-- The text without a mark of its byte order. -/
def dropMark (t : Text) : Text :=
  ((Text.after? [0xEF, 0xBB, 0xBF] t).orElse fun _ =>
    (Text.after? [0xFF, 0xFE] t).orElse fun _ => Text.after? [0xFE, 0xFF] t).getD t

/-- Reads a document: its top table. -/
def parse? (t : Text) : Option Table :=
  let t := dropMark t
  let bound := 4 * t.length + 4
  if isClean t.symbols then (lines bound .empty [] bound t).map (·.root) else none

end Preassembler.Config.Toml
