import Preassembler.Files.Host
import Preassembler.Text.Quoted

/-! Destinations of output.

Output for a file goes to a temporary file beside it, which takes the file's place when the output
is committed and is removed when it is aborted, or when it cannot be closed or moved. Either happens
once; afterwards the destination is closed. Standard output is written directly. -/
namespace Preassembler.Files
open Text (ascii byte)

/-- Where output goes. -/
inductive Destination where
  | standard
  /-- Output for `target` collected in the file `temporary`. -/
  | file (target temporary : Text) (closed : Bool)
  deriving DecidableEq, Repr

/-- Why a destination could not be used. -/
inductive DestinationError where
  | create (target path : Text) (cause : Problem)
  | write (path : Text) (cause : Problem)
  | close (path : Text) (cause : Problem)
  | rename (target path : Text) (cause : Problem)
  | remove (path : Text) (cause : Problem)
  | closed (path : Text)
  deriving DecidableEq, Repr

def DestinationError.message : DestinationError → Text
  | create target path c =>
    ascii "failed to create destination " ++ target.quote ++ ascii ": open " ++ path ++
      ascii ": " ++ c.message
  | write path c => ascii "write " ++ path ++ ascii ": " ++ c.message
  | close path c => ascii "close " ++ path ++ ascii ": " ++ c.message
  | rename target path c =>
    ascii "failed to write destination " ++ target.quote ++ ascii ": rename " ++ path ++
      byte ' ' :: target ++ ascii ": " ++ c.message
  | remove path c => ascii "remove " ++ path ++ ascii ": " ++ c.message
  | closed path => ascii "write " ++ path ++ ascii ": file already closed"

namespace Destination
variable {m : Type → Type} [Monad m]

/-- The start of the names of temporary files for a path, up to the part that tells them apart. -/
def temporaryFront (path : Text) : Text :=
  let (dir, name) := Pathname.split path
  Pathname.join (if dir.isEmpty then [byte '.'] else dir) (byte '.' :: name ++ [byte '.'])

/-- Prepares a destination. -/
def create (h : Host m) (path : Text) : m (Except DestinationError Destination) := do
  if path = Pathname.stdio then return .ok .standard
  else
    let (temporary, cause) ← h.createTemporary (temporaryFront path) (ascii ".tmp")
    match cause with
    | none => return .ok (.file path temporary false)
    | some c => return .error (.create path temporary c)

/-- Writes to a destination. -/
def write (h : Host m) (d : Destination) (t : Text) : m (Option DestinationError) := do
  match d with
  | .standard =>
    h.output t
    return none
  | .file _ temporary false => return (← h.append temporary t).map (.write temporary)
  | .file _ temporary true => return some (.closed temporary)

/-- Writes texts one after the other, up to the first that is not taken as a whole: the number of
bytes in front of that text, and the error. -/
def writeAll (h : Host m) (d : Destination) : List Text → m (Option (Nat × DestinationError))
  | [] => return none
  | t :: rest => do
    match ← d.write h t with
    | none => return (← d.writeAll h rest).map fun (length, e) => (t.length + length, e)
    | some e => return some (0, e)

/-- Puts the output in its place. -/
def commit (h : Host m) (d : Destination) : m (Destination × Option DestinationError) := do
  match d with
  | .file target temporary false =>
    match ← h.close temporary with
    | some c =>
      let _ ← h.remove temporary
      return (.file target temporary true, some (.close temporary c))
    | none =>
      match ← h.rename temporary target with
      | none => return (.file target temporary true, none)
      | some c =>
        let _ ← h.remove temporary
        return (.file target temporary true, some (.rename target temporary c))
  | d => return (d, none)

/-- Discards the output. -/
def abort (h : Host m) (d : Destination) : m (Destination × Option DestinationError) := do
  match d with
  | .file target temporary false =>
    let _ ← h.close temporary
    let cause ← h.remove temporary
    return (.file target temporary true, cause.map (.remove temporary))
  | d => return (d, none)

end Destination

/-! ### Sources -/

/-- A source that could not be opened. -/
structure SourceMissing where
  path : Text
  cause : Problem
  deriving DecidableEq, Repr

def SourceMissing.message (e : SourceMissing) : Text :=
  ascii "failed to open source " ++ e.path.quote ++ ascii ": open " ++ e.path ++ ascii ": " ++
    e.cause.message

/-- The description of a failure to read on in an open file. -/
def readMessage (path : Text) (c : Problem) : Text := ascii "read " ++ path ++ ascii ": " ++ c.message

/-- The description of a failure to open a file. -/
def openMessage (path : Text) (c : Problem) : Text := ascii "open " ++ path ++ ascii ": " ++ c.message

/-- Opens a source: a file or standard input. -/
def openSource {m : Type → Type} [Monad m] (h : Host m) (path : Text) :
    m (Except SourceMissing Opened) := do
  if path = Pathname.stdio then return .ok ⟨← h.input, none⟩
  else
    match ← h.read path with
    | .ok o => return .ok o
    | .error c => return .error ⟨path, c⟩

end Preassembler.Files
