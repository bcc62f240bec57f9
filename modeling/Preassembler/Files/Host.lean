import Preassembler.Dictionary
import Preassembler.Files.Tree

/-! What a command needs of its surroundings.

A host is a record of operations in any monad: files, variables, standard streams. A command is
written against a host. `World` is the host as a value: running a command on it tells what the
command does to a file tree and to the streams. -/
namespace Preassembler.Files
open Text (byte)
open Pathname (Location)

/-- What opening a file for reading gives: its content, or the content read before reading failed. -/
structure Opened where
  content : Text
  error : Option Problem
  deriving DecidableEq, Repr

/-- The operations of the surroundings. -/
structure Host (m : Type → Type) where
  /-- The value of an environment variable; the empty text when it is unset. -/
  setting : Text → m Text
  /-- A path made absolute, and the directory around it. -/
  pathInfo : Text → m (Text × Text)
  /-- Opens a file and reads it to its end. -/
  read : Text → m (Except Problem Opened)
  /-- All of standard input. -/
  input : m Text
  /-- Makes a new, empty file whose name begins and ends as given; the path of the file, also when
  it could not be made. -/
  createTemporary : (front back : Text) → m (Text × Option Problem)
  /-- Adds to a file that is open for writing. When there is a problem, only the front of the text may
  have been added. -/
  append : (path text : Text) → m (Option Problem)
  /-- Closes a file that is open for writing. -/
  close : Text → m (Option Problem)
  rename : (old new : Text) → m (Option Problem)
  remove : Text → m (Option Problem)
  /-- Writes to standard output. -/
  output : Text → m Unit
  /-- Writes to standard error. -/
  report : Text → m Unit
  /-- A name for this run. -/
  runId : m Text
  /-- Serves a command line that is for the completion of command lines in a shell; the message when
  that fails. -/
  complete : List Text → m (Option Text)

/-- The surroundings as a value. -/
structure World where
  tree : Tree := .empty
  /-- The working directory. -/
  home : Location := []
  environment : Dictionary Text := .empty
  stdin : Text := []
  stdout : Text := []
  stderr : Text := []
  /-- The first number to try in the next temporary name. It has ten digits, as nearly every number
  of 32 bits has. -/
  serial : Nat := 1000000000
  /-- The number of bytes that files still take; no number when there is no limit. -/
  room : Option Nat := none
  /-- What is wrong when a file that was written is closed. -/
  closing : Option Problem := none
  /-- The name of the run. -/
  runName : Text := []
  /-- What completion writes for a command line, and its message when it fails. -/
  completion : List Text → Text × Option Text := fun _ => ([], none)

namespace World

/-- Follows a path and reads the file there. A directory can be opened but not read. -/
def readFile (w : World) (path : Text) : Except Problem Opened :=
  (w.tree.follow w.home path).map fun
    | (_, .file content) => ⟨content, none⟩
    | (_, .directory) => ⟨[], some .isDirectory⟩

/-- Whether something stands at the end of a path. -/
def isTaken (w : World) (path : Text) : Bool := (w.tree.follow w.home path).toOption.isSome

/-- The first of so many numbers from `n` on that makes an unused name between `front` and `back`. -/
def unusedFrom (w : World) (front back : Text) (n : Nat) : Nat → Nat
  | 0 => n
  | count + 1 =>
    if w.isTaken (front ++ .ofNat n ++ back) then w.unusedFrom front back (n + 1) count else n

/-- Applies an operation to the tree, unless it fails. -/
def edit (f : Tree → Except Problem Tree) : StateM World (Option Problem) := fun w =>
  match f w.tree with
  | .ok tree => (none, { w with tree })
  | .error c => (some c, w)

/-- What of a text there is room for. -/
def fitting (room : Option Nat) (t : Text) : Text :=
  match room with
  | none => t
  | some n => t.take n

/-- Why a text is not taken as a whole. -/
def shortage (room : Option Nat) (t : Text) : Option Problem :=
  match room with
  | none => none
  | some n => if t.length ≤ n then none else some .noSpace

/-- Adds to a file as much of a text as there is room for. -/
def add (w : World) (path text : Text) : World :=
  { w with
    tree := w.tree.append w.home path (fitting w.room text)
    room := w.room.map (· - text.length) }

/-- The world as a host. -/
def host : Host (StateM World) where
  setting name := fun w => ((w.environment.find? name).getD [], w)
  pathInfo path := fun w => (Pathname.info w.home path, w)
  read path := fun w => (w.readFile path, w)
  input := fun w => (w.stdin, w)
  createTemporary front back := fun w =>
    let serial := w.unusedFrom front back w.serial w.tree.entries.length
    let path := front ++ .ofNat serial ++ back
    let (cause, w) := edit (·.create w.home path) { w with serial := serial + 1 }
    ((path, cause), w)
  append path text := fun w => (shortage w.room text, w.add path text)
  close _ := fun w => (w.closing, w)
  rename old new := fun w => edit (·.rename w.home old new) w
  remove path := fun w => edit (·.remove w.home path) w
  output t := fun w => ((), { w with stdout := w.stdout ++ t })
  report t := fun w => ((), { w with stderr := w.stderr ++ t })
  runId := fun w => (w.runName, w)
  complete args := fun w =>
    let (t, failure) := w.completion args
    (failure, { w with stdout := w.stdout ++ t })

end World

end Preassembler.Files
