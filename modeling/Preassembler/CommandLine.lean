import Preassembler.CommandLine.Help
import Preassembler.Config.Load
import Preassembler.Pipeline

/-! The command.

A run loads the configuration, opens source and destination, and writes the listing of the source to
the destination. Whatever fails, the destination is left as it was. -/
namespace Preassembler.CommandLine
open Files
open Text (ascii byte)

/-- Why a command failed. -/
inductive Failure where
  | arguments (error : ArgumentError)
  | config (error : Config.LoadError)
  /-- A macro to define that has no name. -/
  | unnamed (definition : Text)
  | setup (error : SetupError)
  | source (error : SourceMissing)
  | destination (error : DestinationError)
  | run (source : Text) (fault : Fault)
  /-- Completion failed and says why. -/
  | completion (reason : Text)
  deriving DecidableEq, Repr

def Failure.message : Failure → Text
  | arguments e => e.message
  | config e => e.message
  | unnamed d => ascii "invalid --define " ++ d.quote ++ ascii ": missing name"
  | setup e => e.message
  | source e => e.message
  | destination e => e.message
  | run s f => s ++ ascii ": " ++ f.message
  | completion r => r

/-! ### Settings -/

/-- Adds the macros of the command line, written as names with or without a value. -/
def addDefines (c : Config) : List Text → Except Failure Config
  | [] => .ok c
  | d :: r =>
    let (name, value) := (Text.cut? (byte '=') d).getD (d, [])
    if name.isEmpty then .error (.unnamed d) else addDefines (c.define name value) r

/-- The configuration with what the command line adds to it. -/
def override (c : Config) (g : Given) : Except Failure Config :=
  let c := if g.verbose then { c with logLevel := ascii "debug" } else c
  let c := if g.strict then { c with strictComments := true } else c
  addDefines c g.defines

variable {m : Type → Type} [Monad m]

/-- The configuration of a run. -/
def configure (h : Host m) (g : Given) : m (Except Failure Config) := do
  let loaded ← if g.config.isEmpty then Config.loadFromEnvironment h else Config.load h g.config
  match loaded with
  | .ok c => return override c g
  | .error e => return .error (.config e)

/-! ### Running -/

/-- Writes the lines of the log. -/
def reportLines (h : Host m) : List Text → m Unit
  | [] => pure ()
  | l :: r => do
    h.report (l ++ [0x0A])
    reportLines h r

/-- The logger of a run and the level from which it shows records. -/
structure Journal where
  logger : Log.Logger
  threshold : Int
  deriving DecidableEq, Repr

def Journal.write (h : Host m) (j : Journal) (level : Log.Level) (message : String)
    (attributes : List Log.Attribute) : m Unit :=
  reportLines h (j.logger.write j.threshold ⟨level, ascii message, attributes⟩)

def Journal.writeEvents (h : Host m) (j : Journal) (events : List Event) : m Unit :=
  reportLines h (j.logger.writeEvents j.threshold events)

/-- The source of an open file. -/
def sourceOf (path : Text) (o : Opened) : Source :=
  .read o.content (o.error.map fun c => .unreadable (readMessage path c))

/-- Closes a destination after a run that failed. -/
def discard (h : Host m) (j : Journal) (dest : Text) (d : Destination) : m Unit := do
  let (_, error) ← d.abort h
  match error with
  | none => pure ()
  | some e =>
    j.write h .error "failed to discard partial output"
      [⟨ascii "error", .text e.message⟩, ⟨ascii "dest", .text dest⟩]

/-- Everything a run is made of. -/
structure Job where
  pipeline : Pipeline
  journal : Journal
  /-- The source and the destination as they were named. -/
  source : Text
  dest : Text
  opened : Opened
  destination : Destination

/-- Writes the listing of the source to a sink. -/
def Job.writeTo (job : Job) (sink : Sink) : Pipeline.Written :=
  job.pipeline.write (sourceOf job.source job.opened) sink

/-- Writes the listing of the source to the destination, as its sink takes it. When the destination
does not take a piece of it, the source is read no further than with a sink that is full there. -/
def Job.write (h : Host m) (job : Job) : m Pipeline.Written := do
  let w := job.writeTo (.new none)
  match ← job.destination.writeAll h w.sink.pieces with
  | none => return w
  | some (length, e) =>
    return { job.writeTo (.new (some length)) with fault := some (.output e.message) }

/-- Writes the listing of the source and puts it in its place. -/
def Job.run (h : Host m) (job : Job) : m (Except Failure Unit) := do
  let (full, _) ← h.pathInfo job.source
  let places : List Log.Attribute :=
    [⟨ascii "source", .text full⟩, ⟨ascii "dest", .text job.dest⟩]
  job.journal.write h .debug "preprocessing" places
  let w ← job.write h
  job.journal.writeEvents h w.events
  match w.fault with
  | some f =>
    discard h job.journal job.dest job.destination
    return .error (.run job.source f)
  | none =>
    let (_, error) ← job.destination.commit h
    match error with
    | some e => return .error (.destination e)
    | none =>
      job.journal.write h .info "preprocessed" (places ++ [⟨ascii "lines", .int w.count⟩])
      return .ok ()

/-- Opens source and destination, and runs. -/
def runWith (h : Host m) (c : Config) (p : Pipeline) (source dest : Text) :
    m (Except Failure Unit) := do
  let logger := (Log.Logger.new c.logSettings).forRun (← h.runId)
  match ← openSource h source with
  | .error e => return .error (.source e)
  | .ok opened =>
    match ← Destination.create h dest with
    | .error e => return .error (.destination e)
    | .ok destination =>
      Job.run h ⟨p, ⟨logger, c.logSettings.threshold⟩, source, dest, opened, destination⟩

/-- Writes the listing of a source to a destination. -/
def preprocess (h : Host m) (g : Given) (source dest : Text) : m (Except Failure Unit) := do
  match ← configure h g with
  | .error f => return .error f
  | .ok c =>
    match Pipeline.new c.options with
    | .error e => return .error (.setup e)
    | .ok p => runWith h c p source dest

/-- Does what a command line asks for. -/
def obey (h : Host m) (toolchain : Text) (args : List Text) : m (Except Failure Unit) := do
  match Request.read args with
  | .error e => return .error (.arguments e)
  | .ok (.showHelp topic) =>
    h.output topic.helpText
    return .ok ()
  | .ok .showVersion =>
    h.output (versionText toolchain)
    return .ok ()
  | .ok (.preprocess g source dest) => preprocess h g source dest
  | .ok (.complete args) =>
    match ← h.complete args with
    | none => return .ok ()
    | some reason => return .error (.completion reason)

/-- Runs a command line and reports a failure; the answer tells whether it succeeded. -/
def run (h : Host m) (toolchain : Text) (args : List Text) : m Bool := do
  match ← obey h toolchain args with
  | .ok () => return true
  | .error f =>
    h.report (ascii "error: " ++ f.message ++ [0x0A])
    return false

end Preassembler.CommandLine
