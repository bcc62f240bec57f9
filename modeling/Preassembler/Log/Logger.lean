import Preassembler.Log.Record
import Preassembler.Stage

/-! Loggers.

A logger adds its own attributes to every record and shows records from its level on. A logger can
be derived from another one; both then share the level, so setting it through one sets it for the
other. Loggers therefore live in a logbook, which holds the levels apart from the loggers. -/
namespace Preassembler.Log
open Text (ascii)

/-- What is asked of a logger. -/
structure Settings where
  level : Text := []
  format : Text := []
  name : Text := []
  deriving DecidableEq, Repr

/-- The attribute every record of a named logger carries. -/
def nameAttributes (name : Text) : List Attribute :=
  if name.isEmpty then [] else [⟨ascii "logger", .text name⟩]

/-- A source of records. -/
structure Logger where
  format : Format
  name : Text
  /-- Added in front of the attributes of every record. -/
  attributes : List Attribute
  /-- Whether records go nowhere. -/
  silent : Bool
  deriving DecidableEq, Repr

namespace Logger

/-- The logger with the given settings. -/
def new (s : Settings) : Logger := ⟨.ofName s.format, s.name, nameAttributes s.name, false⟩

/-- The logger whose records go nowhere. -/
def nop : Logger := { new {} with silent := true }

/-- A logger with more attributes. -/
def extend (l : Logger) (attributes : List Attribute) : Logger :=
  { l with attributes := l.attributes ++ attributes }

/-- A logger whose records name the run they belong to. -/
def forRun (l : Logger) (id : Text) : Logger := l.extend [⟨ascii "run_id", .text id⟩]

/-- The lines a record comes to when records from `threshold` on are shown. -/
def write (l : Logger) (threshold : Int) (r : Record) : List Text :=
  if l.silent || r.level.number < threshold then []
  else [{ r with attributes := l.attributes ++ r.attributes }.render l.format]

end Logger

/-- The level of settings: an unknown level counts as the fallback. -/
def Settings.threshold (s : Settings) : Int := ((Level.parse? s.level).getD .fallback).number

/-! ### Records of a run -/

/-- The record of an event. -/
def eventRecord : Event → Record
  | .defined no directive =>
    ⟨.debug, ascii "macro defined",
      [⟨ascii "line", .int no⟩, ⟨ascii "directive", .text directive⟩]⟩
  | .labelResolved label no =>
    ⟨.debug, ascii "label resolved", [⟨ascii "label", .text label⟩, ⟨ascii "line", .int no⟩]⟩
  | .labelDangling label no =>
    ⟨.debug, ascii "label without instruction at end of input",
      [⟨ascii "label", .text label⟩, ⟨ascii "line", .int no⟩]⟩
  | .drained lines => ⟨.debug, ascii "pipeline drained", [⟨ascii "input_lines", .int lines⟩]⟩

/-- The lines events come to. -/
def Logger.writeEvents (l : Logger) (threshold : Int) (events : List Event) : List Text :=
  events.flatMap fun e => l.write threshold (eventRecord e)

/-! ### Logbooks -/

/-- Loggers, each with the index of its level, and the levels. -/
structure Logbook where
  loggers : Array (Logger × Nat)
  levels : Array Int
  deriving DecidableEq, Repr

namespace Logbook

/-- Adds a logger with a level of its own. -/
def add (b : Logbook) (l : Logger) (threshold : Int) : Logbook :=
  ⟨b.loggers.push (l, b.levels.size), b.levels.push threshold⟩

/-- A logbook with one logger. -/
def new (s : Settings) : Logbook := add ⟨#[], #[]⟩ (.new s) s.threshold

/-- Adds the logger whose records go nowhere. -/
def addNop (b : Logbook) : Logbook := b.add .nop Level.error.number

/-- Adds a logger made from logger `i`, with which it shares the level. -/
def derive (b : Logbook) (i : Nat) (f : Logger → Logger) : Logbook :=
  match b.loggers[i]? with
  | some (l, level) => { b with loggers := b.loggers.push (f l, level) }
  | none => b

/-- The level of logger `i`. -/
def level? (b : Logbook) (i : Nat) : Option Int := do
  let (_, level) ← b.loggers[i]?
  b.levels[level]?

/-- Sets the level of logger `i` and of those that share it. -/
def setLevel (b : Logbook) (i : Nat) (threshold : Int) : Logbook :=
  match b.loggers[i]? with
  | some (_, level) => { b with levels := b.levels.setIfInBounds level threshold }
  | none => b

/-- The name of logger `i`. -/
def name? (b : Logbook) (i : Nat) : Option Text := (b.loggers[i]?).map fun (l, _) => l.name

/-- The lines a record of logger `i` comes to. -/
def write (b : Logbook) (i : Nat) (r : Record) : List Text :=
  match b.loggers[i]?, b.level? i with
  | some (l, _), some threshold => l.write threshold r
  | _, _ => []

end Logbook

end Preassembler.Log
