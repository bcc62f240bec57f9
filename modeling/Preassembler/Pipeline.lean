import Preassembler.Pipeline.Flow
import Preassembler.Pipeline.Options
import Preassembler.Pipeline.Sink

/-! Runs of a pipeline.

`run` feeds a source to the stages of a pipeline for a client of any kind. From it come `process`,
which collects all lines, `runFor`, whose client takes a number of lines, and `write`, whose client
is a buffered writer. `applyStages` is the other way to run the stages: each on the whole output of
the one before. -/
namespace Preassembler

/-- What a run came to, in order. -/
structure Outcome (κ : Type) where
  client : κ
  trace : List Signal
  events : List Event

namespace Outcome
variable {κ : Type}

/-- The lines the client got. -/
def lines (o : Outcome κ) : List Line :=
  o.trace.filterMap fun
    | .out l => some l
    | _ => none

/-- The error the client got. -/
def fault? (o : Outcome κ) : Option Fault :=
  o.trace.findSome? fun
    | .fault e => some e
    | _ => none

/-- All lines of a run without error, or its error. -/
def result (o : Outcome κ) : Except Fault (List Line) :=
  match o.fault? with
  | some e => .error e
  | none => .ok o.lines

end Outcome

namespace Pipeline

/-- Runs a source through the stages for a client. -/
def run {κ : Type} (p : Pipeline) (accept : Client κ) (client : κ) (s : Source) : Outcome κ :=
  let f := Flow.feed accept s.error 0 (.ofList p.stages) (.new client) s.lines
  ⟨f.client, f.trace.reverse, f.events.reverse⟩

/-! ### Clients -/

/-- A client that takes every line. -/
def everyLine : Client Unit := fun _ _ => ((), true)

/-- A client that counts down the lines it still wants and refuses more with the last one. -/
def countdown : Client Nat := fun n _ => (n - 1, n != 1)

/-- Runs a source to its end. -/
def runAll (p : Pipeline) (s : Source) : Outcome Unit := p.run everyLine () s

/-- Runs a source for a client that wants `n` lines. -/
def runFor (p : Pipeline) (n : Nat) (s : Source) : Outcome Nat := p.run countdown n s

/-- The listing of source lines, or what went wrong. -/
def process (p : Pipeline) (lines : List Text) : Except Fault (List Line) :=
  (p.runAll ⟨lines, none⟩).result

/-! ### Writing the listing -/

/-- A client that writes lines and counts those that went into the buffer completely. -/
def writing : Client (Writer × Nat) := fun (w, n) l =>
  let w := w.putLine l.text
  if w.broken then ((w, n), false) else ((w, n + 1), true)

/-- What a run that writes its listing came to. -/
structure Written where
  /-- The number of lines written. -/
  count : Nat
  sink : Sink
  fault : Option Fault
  events : List Event

/-- Writes the listing of a source to a sink. Only after a run without error is the buffer emptied. -/
def write (p : Pipeline) (s : Source) (sink : Sink) : Written :=
  let o := p.run writing (.new sink, 0) s
  let (w, count) := o.client
  if w.broken then ⟨count, w.sink, some (.output Sink.fullMessage), o.events⟩
  else match o.fault? with
    | some e => ⟨count, w.sink, some e, o.events⟩
    | none =>
      let w := w.flush
      ⟨count, w.sink, if w.broken then some (.output Sink.fullMessage) else none, o.events⟩

/-- The listing of a source text, or what went wrong. -/
def listing (p : Pipeline) (t : Text) : Except Fault Text :=
  let w := p.write (.read t none) (.new none)
  match w.fault with
  | some e => .error e
  | none => .ok w.sink.contents

/-! ### Stage by stage -/

/-- Lines numbered from one. -/
def numbered (lines : List Text) : List Line :=
  lines.mapIdx fun i t => ⟨i + 1, t⟩

/-- Runs each stage on the whole output of the one before, up to the first that fails. -/
def applyStages : List Stage → List Line → List (Stage × Stage.Applied)
  | [], _ => []
  | s :: r, lines =>
    let a := s.apply lines
    (s, a) :: match a.error with
      | some _ => []
      | none => applyStages r a.lines

end Pipeline

end Preassembler
