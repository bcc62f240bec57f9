import Preassembler.Macro.Error
import Preassembler.Macro.Table

/-! One step of macro expansion.

Expansion scans a text from left to right. At each name it either passes on or replaces an
invocation by its text, and goes on at the first byte of the replacement. Replaced text that is not
yet behind the scan is a region. The open regions lie inside each other, and the number of regions
around an invocation is the depth at which its replacement nests.

A region is described by the number of bytes that follow it. Edits happen inside the open regions,
so this number never changes while a region is open. -/
namespace Preassembler.Macro

/-- Replaced text that is not yet behind the scan. -/
structure Region where
  /-- The number of bytes of the text that follow the region. -/
  after : Nat
  /-- The nesting depth of the replacement, outermost one. -/
  depth : Nat
  deriving DecidableEq, Repr

/-- A position in a text under expansion. -/
structure Scan where
  /-- The bytes before the position, last one first. -/
  passed : Text
  /-- The bytes from the position on. -/
  rest : Text
  /-- The number of bytes from the position on. -/
  left : Nat
  /-- The open regions, innermost first. -/
  opened : List Region
  deriving DecidableEq, Repr

namespace Scan

/-- The start of a text. -/
def start (t : Text) : Scan := ⟨[], t, t.length, []⟩

/-- The whole text under expansion. -/
def text (s : Scan) : Text := s.passed.reverse ++ s.rest

end Scan

/-- What a name and the text after it stand for. -/
inductive Reading where
  /-- Plain text: the name is unbound, or a function without an argument list. -/
  | plain
  /-- A call with the wrong number of arguments. -/
  | mismatch (expected given : Nat)
  /-- An invocation that takes `size` bytes after the name, stands for `text` and is followed by
  `rest`. -/
  | invocation (size : Nat) (text rest : Text)
  deriving DecidableEq, Repr

/-- Reads a name followed by `tail`. -/
def Table.read (table : Table) (name tail : Text) : Reading :=
  match table.find? name with
  | none => .plain
  | some (.value text) => .invocation 0 text tail
  | some (.function f) =>
    match callAt? tail with
    | none => .plain
    | some call =>
      if h : call.args.length = f.params.length then
        .invocation call.size (f.render call.args h) call.rest
      else .mismatch f.params.length call.args.length

/-- An invocation and what follows it make up the text after the name. -/
theorem Table.size_add_length_of_read {table : Table} {name tail text rest : Text} {size : Nat}
    (h : table.read name tail = .invocation size text rest) :
    size + rest.length = tail.length := by
  unfold Table.read at h
  split at h
  · cases h
  · cases h; simp
  · split at h
    · cases h
    · rename_i hc
      split at h
      · cases h
        exact size_add_length_of_callAt? hc
      · cases h

/-- The depth of a replacement made inside the given regions. -/
def depthIn : List Region → Nat
  | [] => 1
  | r :: _ => r.depth + 1

/-- What one step comes to: an answer, or the state to go on from. -/
inductive Progress (σ : Type) where
  | finished (text : Text)
  | failed (cause : Error)
  | next (state : σ)
  deriving DecidableEq, Repr

namespace Scan

/-- The bytes before the next name. -/
def gap (s : Scan) : Text := s.rest.takeWhile (!isNameByte ·)

/-- The text from the next name on. -/
def fromName (s : Scan) : Text := s.rest.dropWhile (!isNameByte ·)

/-- The next name; empty when there is none. -/
def name (s : Scan) : Text := s.fromName.takeWhile isNameByte

/-- The text after the next name. -/
def tail (s : Scan) : Text := s.fromName.dropWhile isNameByte

/-- The number of bytes from the next name on. -/
def ahead (s : Scan) : Nat := s.left - s.gap.length

/-- The regions that reach beyond the start of the next name. -/
def around (s : Scan) : List Region := s.opened.dropWhile fun r => s.ahead ≤ r.after

/-- The scan behind the next name. -/
def pass (s : Scan) : Scan where
  passed := s.name.reverse ++ (s.gap.reverse ++ s.passed)
  rest := s.tail
  left := s.ahead - s.name.length
  opened := s.around

/-- The scan after the next name and `size` more bytes are replaced by `text`, with `rest` behind
them. Regions the invocation runs out of are closed. -/
def replace (s : Scan) (limit size : Nat) (text rest : Text) : Progress Scan :=
  let after := s.ahead - s.name.length - size
  let outer := s.around.dropWhile fun r => after < r.after
  let depth := depthIn outer
  if limit < depth then .failed (.tooDeep s.name limit)
  else .next
    { passed := s.gap.reverse ++ s.passed
      rest := text ++ rest
      left := text.length + after
      opened := ⟨after, depth⟩ :: outer }

/-- One step: to the end of the text, past the next name, or to the replacement for it. -/
def step (table : Table) (limit : Nat) (s : Scan) : Progress Scan :=
  if s.name.isEmpty then .finished s.text
  else match table.read s.name s.tail with
    | .plain => .next s.pass
    | .mismatch expected given => .failed (.arity s.name expected given)
    | .invocation size text rest => s.replace limit size text rest

end Scan

end Preassembler.Macro
