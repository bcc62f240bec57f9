import Preassembler.Text.Basic

/-! Paths.

A path is a text with slashes between its parts. The working directory has a fixed name, under which
relative paths are made absolute. -/
namespace Preassembler.Pathname
open Text (byte)

/-- The parts of a path. -/
def parts (path : Text) : List Text := path.splitOn (byte '/')

def isAbsolute (path : Text) : Bool := path.head? == some (byte '/')

/-- A directory as the list of names that leads to it from the root. -/
abbrev Location := List Text

/-- Goes down one part, as far as the names tell: a dot stays, two dots go up. -/
def walk (place : Location) (name : Text) : Location :=
  if name.isEmpty || name = [byte '.'] then place
  else if name = [byte '.', byte '.'] then place.dropLast
  else place ++ [name]

/-- The written form of a location. -/
def absolute (place : Location) : Text :=
  if place.isEmpty then [byte '/'] else place.flatMap fun name => byte '/' :: name

/-- The location a path names as far as the names tell, from the working directory `home`. -/
def clean (home : Location) (path : Text) : Location :=
  (parts path).foldl walk (if isAbsolute path then [] else home)

/-- The name for standard input and output. -/
def stdio : Text := [byte '-']

/-- A path made absolute and the directory around it. Standard input has no directory. -/
def info (home : Location) (path : Text) : Text × Text :=
  if path = stdio then (stdio, [])
  else
    let full := clean home path
    (absolute full, absolute full.dropLast)

/-- The directory of a path with its last slash, and the name behind it. -/
def split (path : Text) : Text × Text :=
  match Text.cutLast? (byte '/') path with
  | some (dir, name) => (dir ++ [byte '/'], name)
  | none => ([], path)

/-- A name inside a directory. -/
def join (dir name : Text) : Text :=
  if dir.getLast? == some (byte '/') then dir ++ name else dir ++ byte '/' :: name

/-! ### Variables in paths -/

/-- One-character variable names. -/
def isSpecial (b : UInt8) : Bool :=
  Text.isDigit b || (Text.ascii "*#$@!?-").contains b

/-- A part of a path before its variables are replaced. -/
inductive Piece where
  | byte (b : UInt8)
  | named (name : Text)
  deriving DecidableEq, Repr

/-- What a dollar sign before a text stands for: its piece, if it has one, and the number of bytes
after the sign that belong to it. A sign that begins no variable stands for itself; braces without a
name vanish, and so does an opening brace that is never closed. -/
def dollar : Text → Option Piece × Nat
  | [] => (some (.byte (byte '$')), 0)
  | 0x7B :: r =>
    match Text.cut? 0x7D r with
    | some ([], _) => (none, 2)
    | some (name, _) => (some (.named name), name.length + 2)
    | none => (none, 1)
  | b :: r =>
    if isSpecial b then (some (.named [b]), 1)
    else
      let name := (b :: r).takeWhile Text.isWord
      if name.isEmpty then (some (.byte (byte '$')), 0) else (some (.named name), name.length)

/-- The pieces of a path behind those already `seen`, newest first. -/
def piecesFrom (seen : List Piece) : Nat → Text → List Piece
  | _, [] => seen.reverse
  | 0, _ => seen.reverse
  | fuel + 1, b :: r =>
    if b == byte '$' then
      let (piece, size) := dollar r
      piecesFrom (piece.toList ++ seen) fuel (r.drop size)
    else piecesFrom (.byte b :: seen) fuel r

/-- The pieces of a path, in order. -/
def pieces (path : Text) : List Piece := piecesFrom [] path.length path

end Preassembler.Pathname
