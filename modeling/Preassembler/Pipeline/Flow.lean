import Preassembler.Pipeline.Source
import Preassembler.Stage

/-! Lines flowing through a chain of stages.

A line goes through all stages before the next line of the same stage does: what a stage emits is
pushed on at once. The last stage delivers to a client, which says after each line whether it wants
more. Once a stage refused a line, or the client wants no more, nothing moves. At the end of the
input the stages are flushed in order, and what one gives out still goes through those behind it.

A flow also records in order what was asked of the source and what the client got. -/
namespace Preassembler

/-- Stages in a row. -/
def Chain : Nat → Type
  | 0 => Unit
  | n + 1 => Stage × Chain n

namespace Chain

/-- The chain of a list of stages. -/
def ofList : (l : List Stage) → Chain l.length
  | [] => ()
  | s :: r => (s, ofList r)

end Chain

/-- What went wrong in a run. -/
inductive Fault where
  | line (error : LineError)
  | source (error : SourceError)
  /-- The output was not taken. -/
  | output (reason : Text)
  deriving DecidableEq, Repr

def Fault.message : Fault → Text
  | line e => e.message
  | source e => e.message
  | output r => r

/-- One thing that happened between source, pipeline and client. -/
inductive Signal where
  /-- The source was asked for its line of this number. -/
  | pull (no : Nat)
  /-- The client got a line. -/
  | out (line : Line)
  /-- The client got an error; nothing follows for it. -/
  | fault (error : Fault)
  /-- The source was told to stop when it offered a line. -/
  | stop
  /-- The source has no more lines. -/
  | finish
  deriving DecidableEq, Repr

/-- Whether lines still move. -/
inductive Status where
  | moving
  /-- The client wants no more. -/
  | stopped
  | failed (error : LineError)
  deriving DecidableEq, Repr

/-- Somebody who takes lines: the state after a line, and whether more are wanted. -/
abbrev Client (κ : Type) := κ → Line → κ × Bool

/-- The state of a run outside the stages. -/
structure Flow (κ : Type) where
  client : κ
  status : Status
  /-- What happened, newest first. -/
  trace : List Signal
  /-- The events of the stages, newest first. -/
  events : List Event

namespace Flow
variable {κ : Type}

/-- The state before anything happened. -/
def new (client : κ) : Flow κ := ⟨client, .moving, [], []⟩

def signal (f : Flow κ) (s : Signal) : Flow κ := { f with trace := s :: f.trace }

def note (f : Flow κ) (events : List Event) : Flow κ :=
  { f with events := events.reverse ++ f.events }

/-- Gives a line to the client, if lines still move. -/
def deliver (accept : Client κ) (f : Flow κ) (l : Line) : Flow κ :=
  match f.status with
  | .moving =>
    let (client, more) := accept f.client l
    { f with
      client
      status := if more then .moving else .stopped
      trace := .out l :: f.trace }
  | _ => f

/-- Pushes a line through a chain. -/
def push (accept : Client κ) : (n : Nat) → Chain n × Flow κ → Line → Chain n × Flow κ
  | 0, (c, f), l => (c, f.deliver accept l)
  | n + 1, ((s, c), f), l =>
    match f.status with
    | .moving =>
      match s.step l with
      | .error e => ((s, c), { f with status := .failed e })
      | .ok r =>
        let (c', f') := r.lines.foldl (push accept n) (c, f.note r.events)
        ((r.stage, c'), f')
    | _ => ((s, c), f)

/-- Flushes the stages of a chain in order, as long as lines move. -/
def drain (accept : Client κ) : (n : Nat) → Chain n × Flow κ → Flow κ
  | 0, (_, f) => f
  | n + 1, ((s, c), f) =>
    match s.flush with
    | .error e => { f with status := .failed e }
    | .ok r =>
      let (c', f') := r.lines.foldl (push accept n) (c, f.note r.events)
      match f'.status with
      | .moving => drain accept n (c', f')
      | _ => f'

/-- The end of a run: flushes the stages, and reports what then goes wrong. -/
def finish (accept : Client κ) {n : Nat} (count : Nat) (c : Chain n) (f : Flow κ) : Flow κ :=
  let f := drain accept n (c, f.signal .finish)
  match f.status with
  | .moving => f.note [.drained count]
  | .stopped => f
  | .failed e => f.signal (.fault (.line e))

/-- Feeds source lines to a chain, of which `count` went before, and ends the run. -/
def feed (accept : Client κ) {n : Nat} (error : Option SourceError) (count : Nat) (c : Chain n)
    (f : Flow κ) : List Text → Flow κ
  | [] =>
    match error with
    | none => finish accept count c f
    | some e => (f.signal (.pull (count + 1))).signal (.fault (.source e))
  | t :: rest =>
    let (c', f') := push accept n (c, f.signal (.pull (count + 1))) ⟨count + 1, t⟩
    match f'.status with
    | .moving => feed accept error (count + 1) c' f' rest
    | .stopped => f'.signal .stop
    | .failed e => (f'.signal (.fault (.line e))).signal .stop

end Flow

end Preassembler
