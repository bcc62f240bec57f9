import Preassembler.Macro.Engine
import Preassembler.Stage.Comment
import Preassembler.Stage.Continuation
import Preassembler.Stage.Label
import Preassembler.Stage.Statement

/-! The stages of preprocessing.

A stage takes one line at a time and emits any number of lines; at the end of the input it emits
what it still holds. A stage is a value: taking a line gives the stage after it. When a line is
refused the stage stays as it was. -/
namespace Preassembler

/-- Something worth a log record. -/
inductive Event where
  | defined (no : Int) (directive : Text)
  | labelResolved (label : Text) (no : Int)
  | labelDangling (label : Text) (no : Int)
  /-- All source lines went through. -/
  | drained (lines : Nat)
  deriving DecidableEq, Repr

/-- One step of preprocessing, with the state it carries from line to line. -/
inductive Stage where
  /-- Removes white space around lines, and empty lines. -/
  | trim
  /-- Joins continuation lines. -/
  | continuations (held : Option Continuation.Held)
  /-- Removes comments; `opened` is the line that left a block comment open. -/
  | comments (strict : Bool) (opened : Option Line)
  /-- Moves label declarations onto lines of their own. -/
  | labels
  /-- Obeys directives and expands macros. -/
  | macros (engine : Macro.Engine)
  /-- Moves statements onto lines of their own. -/
  | statements
  /-- Turns bare integers into data. -/
  | fill
  /-- Writes registers as numbers. -/
  | registers
  /-- Attaches labels to instructions. -/
  | resolve (width : Nat) (pending : Option Label.Pending)
  deriving DecidableEq, Repr

namespace Stage

/-- What a stage answers: the stage after it, and the events and lines it gave out, events first. -/
structure Reply where
  stage : Stage
  events : List Event
  lines : List Line
  deriving DecidableEq, Repr

/-- The display name of a stage. -/
def name : Stage → Text
  | trim => .ascii "trim"
  | continuations _ => .ascii "continuations"
  | comments .. => .ascii "comments"
  | labels => .ascii "labels"
  | macros _ => .ascii "macros"
  | statements => .ascii "statements"
  | fill => .ascii "fill"
  | registers => .ascii "registers"
  | resolve .. => .ascii "resolve"

/-- Takes one line. -/
def step (s : Stage) (l : Line) : Except LineError Reply :=
  match s with
  | trim =>
    let text := l.text.trim
    .ok ⟨trim, [], if text.isEmpty then [] else [{ l with text }]⟩
  | continuations held =>
    let (held', lines) := Continuation.step held l
    .ok ⟨continuations held', [], lines⟩
  | comments strict opened =>
    let (opened', line) := Comment.step opened l
    .ok ⟨comments strict opened', [], [line]⟩
  | labels => .ok ⟨labels, [], Label.split l⟩
  | macros engine =>
    match engine.process l.text with
    | .error e => .error ⟨l, .expansion e⟩
    | .ok (.defined engine') => .ok ⟨macros engine', [.defined l.no l.text], []⟩
    | .ok (.code text) => .ok ⟨macros engine, [], [{ l with text }]⟩
  | statements => .ok ⟨statements, [], Statement.split l⟩
  | fill => .ok ⟨fill, [], [{ l with text := Statement.fill l.text }]⟩
  | registers => .ok ⟨registers, [], [{ l with text := Statement.numberRegisters l.text }]⟩
  | resolve width pending =>
    match Label.resolve width pending l with
    | .error e => .error e
    | .ok (.declared p) => .ok ⟨resolve width (some p), [], []⟩
    | .ok (.listed line none) => .ok ⟨resolve width none, [], [line]⟩
    | .ok (.listed line (some label)) =>
      .ok ⟨resolve width none, [.labelResolved label l.no], [line]⟩

/-- Ends the input: gives out what the stage still holds. -/
def flush (s : Stage) : Except LineError Reply :=
  match s with
  | continuations held => .ok ⟨continuations none, [], Continuation.flush held⟩
  | comments strict opened => (Comment.flush strict opened).map fun _ => ⟨s, [], []⟩
  | resolve width (some p) =>
    .ok ⟨resolve width none, [.labelDangling p.label p.no], [Label.dangling width p]⟩
  | s => .ok ⟨s, [], []⟩

/-! ### A whole input through one stage -/

/-- What a stage made of a list of lines: the lines and events it gave out before it ended or
refused a line. -/
structure Applied where
  lines : List Line
  events : List Event
  error : Option LineError
  deriving DecidableEq, Repr

/-- Feeds lines to a stage and then ends its input; what it gave out so far is kept newest first. -/
def applyFrom (s : Stage) (lines : List Line) (events : List Event) : List Line → Applied
  | [] =>
    match s.flush with
    | .ok r => ⟨(r.lines.reverse ++ lines).reverse, (r.events.reverse ++ events).reverse, none⟩
    | .error e => ⟨lines.reverse, events.reverse, some e⟩
  | l :: rest =>
    match s.step l with
    | .ok r => applyFrom r.stage (r.lines.reverse ++ lines) (r.events.reverse ++ events) rest
    | .error e => ⟨lines.reverse, events.reverse, some e⟩

/-- Feeds lines to a stage and then ends its input. -/
def apply (s : Stage) (lines : List Line) : Applied := applyFrom s [] [] lines

end Stage

end Preassembler
