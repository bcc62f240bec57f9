import Preassembler.Files.Destination
import Preassembler.Pipeline

/-! What every stage makes of a source.

The dump shows the source lines and then, stage by stage, the lines that come out of each stage run
on the whole output of the one before. It ends at the first stage that fails. -/
namespace Preassembler.Dump
open Files
open Text (ascii)

/-- The source that is shown when no file is named. -/
def sample : Text :=
  ascii "#define ADD(a b) add a b\nloop: ADD(r1 r2) r3 /* sum */ ; \\\n      beq 0 0 loop\n5\n"

/-- The lines of a text, without one newline at its end. -/
def sourceLines (t : Text) : List Text := ((Text.dropLast? 0x0A t).getD t).splitOn 0x0A

/-- A line with its number. -/
def row (l : Line) : Text :=
  ascii "  " ++ (Text.ofInt l.no).padLeft 4 ++ ascii " | " ++ l.text.quote ++ [0x0A]

/-- A heading, the lines under it and an empty line. -/
def chapter (title : Text) (lines : List Line) : Text :=
  title ++ ascii " (" ++ .ofNat lines.length ++ ascii " lines)\n" ++ lines.flatMap row ++ [0x0A]

/-- The chapters of the stages from number `i` on, and the stage that failed with its error. -/
def chapters (i : Nat) : List (Stage × Stage.Applied) → Text × Option (Stage × LineError)
  | [] => ([], none)
  | (s, a) :: r =>
    match a.error with
    | some e => ([], some (s, e))
    | none =>
      let (rest, failed) := chapters (i + 1) r
      (chapter ((Text.ofNat i).padLeft 2 ++ ascii " " ++ s.name) a.lines ++ rest, failed)

/-- The stages of a pipeline with all settings at their defaults. -/
def defaultStages : List Stage := (⟨{}, .new Macro.defaultLimit⟩ : Pipeline).stages

/-- Shows a source text; the answer tells whether every stage succeeded. -/
def present {m : Type → Type} [Monad m] (h : Host m) (t : Text) : m Bool := do
  let lines := Pipeline.numbered (sourceLines t)
  let (rest, failed) := chapters 1 (Pipeline.applyStages defaultStages lines)
  h.output (chapter (ascii "Source") lines ++ rest)
  match failed with
  | none => return true
  | some (s, e) =>
    h.report (s.name ++ ascii " error: " ++ e.message ++ [0x0A])
    return false

/-- Shows the file at a path, or the sample. -/
def run {m : Type → Type} [Monad m] (h : Host m) (path : Option Text) : m Bool := do
  match path with
  | none => present h sample
  | some path =>
    match ← h.read path with
    | .ok ⟨content, none⟩ => present h content
    | .ok ⟨_, some c⟩ =>
      h.report (ascii "read error: " ++ readMessage path c ++ [0x0A])
      return false
    | .error c =>
      h.report (ascii "read error: " ++ openMessage path c ++ [0x0A])
      return false

end Preassembler.Dump
