import Preassembler.CommandLine

/-! The command line program: the command on the operating system as its host. -/
namespace Preassembler.Main
open Files
open Text (ascii byte)

/-! ### Texts and strings -/

def ofString (s : String) : Text := s.toUTF8.toList

def bytesOf (t : Text) : ByteArray := ByteArray.mk t.toArray

def stringOf (t : Text) : String := (String.fromUTF8? (bytesOf t)).getD ""

/-! ### Files -/

/-- The problem an error of the operating system stands for. -/
def problemOf : IO.Error → Problem
  | .inappropriateType _ code _ => if code = 20 then .notDirectory else .isDirectory
  | .alreadyExists .. => .alreadyExists
  | .invalidArgument .. => .nameTooLong
  | .resourceExhausted .. => .noSpace
  | .hardwareFault .. => .inputOutput
  | _ => .notFound

/-- Does something, or tells the problem. -/
def attempt (act : IO Unit) : IO (Option Problem) := do
  match ← act.toBaseIO with
  | .ok () => return none
  | .error e => return some (problemOf e)

def isDirectory (path : Text) : IO Bool := do
  match ← (IO.FS.realPath (stringOf path)).toBaseIO with
  | .ok place => place.isDir
  | .error _ => return false

def read (path : Text) : IO (Except Problem Opened) := do
  if path.contains 0x00 then return .error .malformed
  if ← isDirectory path then return .ok ⟨[], some .isDirectory⟩
  match ← (IO.FS.readBinFile (stringOf path)).toBaseIO with
  | .ok bytes => return .ok ⟨bytes.toList, none⟩
  | .error e => return .error (problemOf e)

/-- The rest of a stream. -/
partial def drain (s : IO.FS.Stream) (seen : List ByteArray) : IO Text := do
  let bytes ← s.read 65536
  if bytes.isEmpty then return (seen.reverse.map ByteArray.toList).flatten
  drain s (bytes :: seen)

/-- Makes a file under a name of its own, with so many more tries when a name is taken. -/
def createTemporary (front back : Text) (tries : Nat) : IO (Text × Option Problem) := do
  let path := front ++ .ofNat (← IO.rand 0 4294967295) ++ back
  if path.contains 0x00 then return (path, some .malformed)
  let problem ← attempt do
    let _ ← IO.FS.Handle.mk (stringOf path) .writeNew
  match problem, tries with
  | some .alreadyExists, tries + 1 => createTemporary front back tries
  | _, _ => return (path, problem)

def append (path text : Text) : IO (Option Problem) := attempt do
  let h ← IO.FS.Handle.mk (stringOf path) .append
  h.write (bytesOf text)
  h.flush

def rename (old new : Text) : IO (Option Problem) := do
  if ← isDirectory new then return some .alreadyExists
  attempt (IO.FS.rename (stringOf old) (stringOf new))

/-- The working directory. -/
def home : IO Pathname.Location := do
  return Pathname.clean [] (ofString (toString (← IO.currentDir)))

/-! ### The program -/

/-- A name for a run that is unlikely to come up again. -/
def runId : IO Text := do
  let groups ← [8, 4, 4, 4, 12].mapM fun size => do
    return Text.hex size (← IO.rand 0 (Nat.pow 16 size - 1))
  return [byte '-'].intercalate groups

/-- The operating system as a host. -/
def host : Host IO where
  setting name := return (← IO.getEnv (stringOf name)).map ofString |>.getD []
  pathInfo path := return Pathname.info (← home) path
  read := read
  input := do drain (← IO.getStdin) []
  createTemporary front back := createTemporary front back 10000
  append := append
  close _ := return none  -- a file is open only while something is added to it
  rename := rename
  remove path := attempt (IO.FS.removeFile (stringOf path))
  output t := do (← IO.getStdout).write (bytesOf t)
  report t := do (← IO.getStderr).write (bytesOf t)
  runId := runId
  complete _ := return some (ascii "completion is not available")

end Preassembler.Main

/-- Runs the command line; the exit code tells whether it succeeded. -/
def main (args : List String) : IO UInt32 := do
  let ok ← Preassembler.CommandLine.run Preassembler.Main.host (.ascii "unknown")
    (args.map Preassembler.Main.ofString)
  return if ok then 0 else 1
