import Preassembler.Line

/-! Labels.

A label is declared by a colon behind it, on a line of its own or in front of an instruction.
`split` moves a declaration onto a line of its own; `resolve` attaches it to the next instruction
and lays out the fixed-width label field of the listing. -/
namespace Preassembler.Label
open Text (ascii byte)

/-! ### Declarations in front of an instruction -/

/-- Cuts a line behind its first colon. A colon in the first column declares nothing. -/
def split (l : Line) : List Line :=
  match Text.cut? (byte ':') l.text with
  | none => [l]
  | some ([], _) => [l]
  | some (label, rest) => [{ l with text := label ++ [byte ':'] }, { l with text := rest }]

/-! ### The label field -/

/-- The width of the label field when none is asked for. -/
def defaultWidth : Nat := 6

/-- The width in force: a width that is not positive asks for the default. -/
def effectiveWidth (n : Int) : Nat := if n ≤ 0 then defaultWidth else n.toNat

/-- The widest field that can be laid out. -/
def maxWidth : Nat := 1000000

/-- A label with blanks behind it up to `width` code points. In a field that is too wide to be laid
out the label stands unpadded behind a marker. -/
def field (width : Nat) (label : Text) : Text :=
  if maxWidth < width then ascii "%!(BADWIDTH)" ++ label
  else label ++ List.replicate (width - label.width) (byte ' ')

/-- A line of the listing: the label field, a blank and the instruction. -/
def render (width : Nat) (label instruction : Text) : Text :=
  field width label ++ byte ' ' :: instruction

/-! ### Attaching labels -/

/-- A declared label that waits for its instruction. -/
structure Pending where
  label : Text
  /-- The number of the line that declares it. -/
  no : Int
  deriving DecidableEq, Repr

/-- The label a line declares: all of its text before a colon at its end. -/
def declared? (t : Text) : Option Text := Text.dropLast? (byte ':') t

/-- What a line comes to: a declaration that now waits, or a line of the listing together with the
label it carries, if any. -/
inductive Resolution where
  | declared (pending : Pending)
  | listed (line : Line) (label : Option Text)
  deriving DecidableEq, Repr

/-- Takes a line, given the label that waits. -/
def resolve (width : Nat) (pending : Option Pending) (l : Line) : Except LineError Resolution :=
  match declared? l.text, pending with
  | some _, some p => .error ⟨l, .labelTwice l.text p.label⟩
  | some label, none =>
    if width < label.length then .error ⟨l, .labelTooLong label width⟩
    else .ok (.declared ⟨label, l.no⟩)
  | none, none => .ok (.listed { l with text := render width [] l.text } none)
  | none, some p => .ok (.listed { l with text := render width p.label l.text } (some p.label))

/-- The line of a label that no instruction follows. -/
def dangling (width : Nat) (p : Pending) : Line := ⟨p.no, render width p.label []⟩

end Preassembler.Label
