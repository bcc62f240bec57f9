import Preassembler.Files.Pathname

/-! File trees.

A tree holds files and directories by their locations. Operations take paths, which are followed
part by part: every part but the last must be a directory that exists. They fail with the causes
POSIX gives. -/
namespace Preassembler.Files
open Text (ascii byte)
open Pathname (Location)

/-- Why a file operation failed. -/
inductive Problem where
  | notFound
  | notDirectory
  | isDirectory
  | alreadyExists
  | nameTooLong
  /-- The path holds a zero byte. -/
  | malformed
  | noSpace
  /-- The device failed. -/
  | inputOutput
  deriving DecidableEq, Repr

def Problem.message : Problem → Text
  | notFound => ascii "no such file or directory"
  | notDirectory => ascii "not a directory"
  | isDirectory => ascii "is a directory"
  | alreadyExists => ascii "file exists"
  | nameTooLong => ascii "file name too long"
  | malformed => ascii "invalid argument"
  | noSpace => ascii "no space left on device"
  | inputOutput => ascii "input/output error"

/-- What stands at a location. -/
inductive Entry where
  | directory
  | file (content : Text)
  deriving DecidableEq, Repr

/-- Files and directories by location. The root is a directory that needs no entry. -/
structure Tree where
  entries : List (Location × Entry)
  deriving DecidableEq, Repr

namespace Tree

def empty : Tree := ⟨[]⟩

/-- What stands at a location of a list of entries. -/
def seek (place : Location) : List (Location × Entry) → Option Entry
  | [] => none
  | (l, e) :: r => if place = l then some e else seek place r

/-- What stands at a location. -/
def find? (t : Tree) (place : Location) : Option Entry :=
  if place.isEmpty then some .directory else seek place t.entries

/-- Takes away what stands at a location. -/
def erase (t : Tree) (place : Location) : Tree := ⟨t.entries.filter fun (l, _) => l ≠ place⟩

/-- Puts an entry at a location. -/
def put (t : Tree) (place : Location) (e : Entry) : Tree := ⟨(place, e) :: (t.erase place).entries⟩

/-! ### Following paths -/

/-- The longest name a directory takes. -/
def maxName : Nat := 255

/-- The longest path that can be followed. -/
def maxPath : Nat := 4095

/-- Goes down one part of a path. -/
def descend (t : Tree) (place : Location) (name : Text) : Except Problem Location :=
  match t.find? place with
  | none => .error .notFound
  | some (.file _) => .error .notDirectory
  | some .directory =>
    if maxName < name.length then .error .nameTooLong else .ok (Pathname.walk place name)

/-- The location a path leads to. Nothing need stand there. -/
def locate (t : Tree) (home : Location) (path : Text) : Except Problem Location :=
  if path.contains 0x00 then .error .malformed
  else if path.isEmpty then .error .notFound
  else if maxPath < path.length then .error .nameTooLong
  else (Pathname.parts path).foldlM t.descend (if Pathname.isAbsolute path then [] else home)

/-- What a path leads to, and where. -/
def follow (t : Tree) (home : Location) (path : Text) : Except Problem (Location × Entry) :=
  match t.locate home path with
  | .error c => .error c
  | .ok place =>
    match t.find? place with
    | none => .error .notFound
    | some e => .ok (place, e)

/-! ### Operations -/

/-- Makes a new, empty file. -/
def create (t : Tree) (home : Location) (path : Text) : Except Problem Tree :=
  match t.locate home path with
  | .error c => .error c
  | .ok place => if (t.find? place).isSome then .error .alreadyExists else .ok (t.put place (.file []))

/-- Adds to a file that is open for writing. When its name was taken away meanwhile, what is written
is lost. -/
def append (t : Tree) (home : Location) (path text : Text) : Tree :=
  match t.follow home path with
  | .ok (place, .file content) => t.put place (.file (content ++ text))
  | _ => t

/-- Takes a file away. -/
def remove (t : Tree) (home : Location) (path : Text) : Except Problem Tree :=
  (t.follow home path).map fun (place, _) => t.erase place

/-- Moves a file over another one or to a free name. A directory is not replaced; of two causes, the
one about the old name counts. -/
def rename (t : Tree) (home : Location) (old new : Text) : Except Problem Tree :=
  match t.follow home old with
  | .error c => .error c
  | .ok (source, e) =>
    match t.locate home new with
    | .error c => .error c
    | .ok target =>
      if t.find? target = some .directory then .error .alreadyExists
      else .ok ((t.erase source).put target e)

/-! ### Building trees -/

/-- Makes the directories that lead from one down some names. -/
def makeBelow (t : Tree) (above : Location) : List Text → Tree
  | [] => t
  | name :: r =>
    let here := above ++ [name]
    makeBelow (if (t.find? here).isSome then t else t.put here .directory) here r

/-- Makes a directory and those above it. -/
def makeDirectory (t : Tree) (place : Location) : Tree := t.makeBelow [] place

/-- Puts a file at a location and makes the directories above it. -/
def makeFile (t : Tree) (place : Location) (content : Text) : Tree :=
  (t.makeDirectory place.dropLast).put place (.file content)

/-- Takes away a location and all below it. -/
def removeAll (t : Tree) (place : Location) : Tree :=
  ⟨t.entries.filter fun (l, _) => !place.isPrefixOf l⟩

/-- Takes away the files of a directory whose names satisfy a condition. -/
def removeNamed (t : Tree) (dir : Location) (p : Text → Bool) : Tree :=
  ⟨t.entries.filter fun (l, e) =>
    !(l.dropLast == dir && e != .directory && !l.isEmpty && p (l.getLast?.getD []))⟩

end Tree

end Preassembler.Files
