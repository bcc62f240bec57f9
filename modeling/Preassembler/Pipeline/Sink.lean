import Preassembler.Text.Basic

/-! Buffered writing.

Lines are collected in a buffer of fixed size. When a text does not fit, the buffer is filled up and
written out as a whole; what is left in it is written at the end. A sink may have limited room: a
write beyond it takes what fits and fails. -/
namespace Preassembler

/-- Where output goes. -/
structure Sink where
  /-- The number of bytes it still takes; no number when there is no limit. -/
  room : Option Nat
  /-- What it took, newest first. -/
  taken : List Text
  deriving DecidableEq, Repr

namespace Sink

/-- A sink that holds nothing yet. -/
def new (room : Option Nat) : Sink := ⟨room, []⟩

/-- The texts that the sink took, in order. -/
def pieces (s : Sink) : List Text := s.taken.reverse

/-- What the sink holds. -/
def contents (s : Sink) : Text := s.taken.reverse.flatten

/-- Writes a text, and tells whether all of it was taken. -/
def write (s : Sink) (t : Text) : Sink × Bool :=
  match s.room with
  | none => (⟨none, t :: s.taken⟩, true)
  | some n =>
    if t.length ≤ n then (⟨some (n - t.length), t :: s.taken⟩, true)
    else (⟨some 0, t.take n :: s.taken⟩, false)

/-- The description of a write that was not taken. -/
def fullMessage : Text := .ascii "sink full"

end Sink

/-- A buffer in front of a sink. -/
structure Writer where
  /-- The bytes in the buffer, newest first. -/
  held : Text
  /-- The room left in the buffer. -/
  free : Nat
  sink : Sink
  /-- Whether a write to the sink failed. -/
  broken : Bool
  deriving DecidableEq, Repr

namespace Writer

/-- The size of the buffer. -/
def capacity : Nat := 4096

/-- An empty buffer. -/
def new (sink : Sink) : Writer := ⟨[], capacity, sink, false⟩

/-- Writes the buffer out, if there is anything in it. -/
def flush (w : Writer) : Writer :=
  if w.broken || w.held.isEmpty then w
  else
    let (sink, ok) := w.sink.write w.held.reverse
    ⟨[], capacity, sink, !ok⟩

/-- Fills the buffer up and writes it out. -/
def spill (w : Writer) (t : Text) : Writer :=
  let (sink, ok) := w.sink.write ((t.take w.free).reverse ++ w.held).reverse
  ⟨[], capacity, sink, !ok⟩

/-- Adds a text. Once a write failed nothing more is added. -/
def put (w : Writer) (t : Text) : Writer :=
  if w.broken then w
  else match _h : t.drop w.free with
    | [] => { w with held := t.reverse ++ w.held, free := w.free - t.length }
    | b :: r => (w.spill t).put (b :: r)
termination_by 2 * t.length + (if w.free = 0 then 1 else 0)
decreasing_by
  have := congrArg List.length _h
  rw [List.length_drop] at this
  simp only [List.length_cons, spill, capacity] at this ⊢
  by_cases hf : w.free = 0 <;> simp [hf] <;> omega

/-- Adds a line and its newline. -/
def putLine (w : Writer) (t : Text) : Writer := (w.put t).put [Text.byte '\n']

end Writer

end Preassembler
