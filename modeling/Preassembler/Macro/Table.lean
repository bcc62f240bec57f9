import Preassembler.Dictionary
import Preassembler.Macro.Template

/-! The table of macros in force. -/
namespace Preassembler.Macro

/-- The macros in force, by name. -/
abbrev Table := Dictionary Definition

end Preassembler.Macro
