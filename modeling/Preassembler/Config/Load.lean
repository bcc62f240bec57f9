import Preassembler.Config.Reading
import Preassembler.Files.Destination

/-! Loading configuration files. -/
namespace Preassembler.Config
open Files
open Text (ascii)

/-- Why a configuration file gives no configuration. -/
inductive LoadError where
  | missing (path : Text)
  /-- The file could not be opened. -/
  | unopened (path : Text) (cause : Problem)
  /-- The file was opened but could not be read. -/
  | unread (path : Text) (cause : Problem)
  | content (path : Text) (error : ReadError)
  deriving DecidableEq, Repr

def LoadError.message : LoadError → Text
  | missing path => ascii "config file not found: " ++ path
  | unopened path c => ascii "failed to read config: " ++ openMessage path c
  | unread path c => ascii "failed to read config: " ++ readMessage path c
  | content _ (.unhashable type) => ReadError.message (.unhashable type)
  | content path e => path ++ ascii ": " ++ e.message

variable {m : Type → Type} [Monad m]

/-- A path with the values of environment variables in their places. -/
def expandPath (h : Host m) (path : Text) : m Text := do
  let values ← (Pathname.pieces path).mapM fun
    | .byte b => pure [b]
    | .named name => h.setting name
  return values.flatten

/-- Loads the configuration file at a path; the format follows from the name of the file. -/
def load (h : Host m) (path : Text) : m (Except LoadError Config) := do
  let path ← expandPath h path
  match ← h.read path with
  | .error .notFound => return .error (.missing path)
  | .error c => return .error (.unopened path c)
  | .ok ⟨_, some c⟩ => return .error (.unread path c)
  | .ok ⟨content, none⟩ =>
    match read (Format.ofPath path) content with
    | .ok c => return .ok c
    | .error e => return .error (.content path e)

/-- The variable that names the configuration file. -/
def environmentName : Text := ascii "LC2KPP_CONFIG"

/-- Loads the configuration file the environment names, or takes the defaults. -/
def loadFromEnvironment (h : Host m) : m (Except LoadError Config) := do
  let path ← h.setting environmentName
  if path.isEmpty then return .ok default else load h path

end Preassembler.Config
