import Preassembler.Stage

/-! Stages by name. -/
namespace Preassembler.Stage
open Text (ascii)

/-- The settings a stage may depend on. -/
structure Settings where
  strict : Bool := false
  expansionLimit : Int := 0
  width : Int := 0
  deriving DecidableEq, Repr

/-- A stage and the name it is shown under. -/
structure Named where
  display : Text
  stage : Stage
  deriving DecidableEq, Repr

/-- A stage under its own name. -/
def named (s : Stage) : Named := ⟨s.name, s⟩

/-- The name shown where no stage stands. -/
def absentName : Text := ascii "<nil>"

/-- The stage of a name. The two stages without state can also be held by reference, which only
shows in the name they are shown under. -/
def find? (s : Settings) (name : Text) : Option Named :=
  if name = ascii "trim" then some (named .trim)
  else if name = ascii "continuations" then some (named (.continuations none))
  else if name = ascii "comments" then some (named (.comments s.strict none))
  else if name = ascii "labels" then some (named .labels)
  else if name = ascii "macros" then some (named (.macros (.new s.expansionLimit)))
  else if name = ascii "statements" then some (named .statements)
  else if name = ascii "fill" then some (named .fill)
  else if name = ascii "registers" then some (named .registers)
  else if name = ascii "resolve" then some (named (.resolve (Label.effectiveWidth s.width) none))
  else if name = ascii "*trim" then some ⟨ascii "*preproc.Trimmer", .trim⟩
  else if name = ascii "*labels" then some ⟨ascii "*preproc.LabelSplitter", .labels⟩
  else none

/-- The description of a name that `find?` does not know. -/
def unknownMessage (name : Text) : Text := ascii "unknown stage " ++ name.quote

end Preassembler.Stage
