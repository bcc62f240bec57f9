import Preassembler.Config.Yaml.Event

/-! The nodes of a YAML document.

A document is a tree of scalars, sequences and mappings. A node with an anchor can be named elsewhere,
also inside itself, by an alias. Reading gives the first document only. -/
namespace Preassembler.Config.Yaml
open Text (ascii)

/-- A part of a document. -/
inductive Node where
  /-- A scalar with its tag, or none. -/
  | scalar (tag : Text) (isPlain : Bool) (text : Text)
  | sequence (items : List Node)
  | mapping (entries : List (Node × Node))
  /-- A name for an anchored node, given by its number. Every alias has a number of its own. -/
  | alias (number : Nat) (name : Text) (target : Nat)
  deriving Repr, Inhabited

/-- A document. -/
structure Document where
  root : Node
  /-- The nodes with anchors, by number. -/
  anchored : Array Node
  deriving Repr

/-- The start of the tags of the language itself. -/
def tagBase : Text := ascii "tag:yaml.org,2002:"

/-- The short form of a tag. The tag that says nothing counts as none. -/
def shortTag (tag : Text) : Text :=
  if tag = ascii "!" then []
  else match Text.after? tagBase tag with
    | some r => ascii "!!" ++ r
    | none => tag

/-- A collection whose end has not been read: the number of its anchor, and its parts, newest first. -/
inductive Frame where
  | sequence (anchor : Option Nat) (items : List Node)
  | mapping (anchor : Option Nat) (entries : List (Node × Node)) (key : Option Node)
  deriving Repr

/-- A document being put together. -/
structure Assembly where
  frames : List Frame := []
  anchored : Array Node := #[]
  /-- The numbers of anchors by name, newest first. -/
  names : List (Text × Nat) := []
  aliases : Nat := 0
  deriving Repr

namespace Assembly

/-- Gives an anchor a number. -/
def declare (a : Assembly) : Option Text → Assembly × Option Nat
  | none => (a, none)
  | some name =>
    let n := a.anchored.size
    ({ a with anchored := a.anchored.push (.sequence []), names := (name, n) :: a.names }, some n)

/-- Adds a finished node: it may be the whole document. -/
def add (a : Assembly) (anchor : Option Nat) (n : Node) : Assembly ⊕ Document :=
  let a := match anchor with
    | some i => { a with anchored := a.anchored.setIfInBounds i n }
    | none => a
  match a.frames with
  | [] => .inr ⟨n, a.anchored⟩
  | .sequence i items :: frames => .inl { a with frames := .sequence i (n :: items) :: frames }
  | .mapping i entries none :: frames => .inl { a with frames := .mapping i entries (some n) :: frames }
  | .mapping i entries (some k) :: frames =>
    .inl { a with frames := .mapping i ((k, n) :: entries) none :: frames }

/-- Takes an event over. -/
def step (a : Assembly) : Event → Option (Assembly ⊕ Document)
  | .scalar anchor tag isPlain text =>
    let (a, i) := a.declare anchor
    some (a.add i (.scalar (shortTag tag) isPlain text))
  | .alias name => do
    let target ← a.names.lookup name
    some (({ a with aliases := a.aliases + 1 }).add none (.alias a.aliases name target))
  | .openSequence anchor =>
    let (a, i) := a.declare anchor
    some (.inl { a with frames := .sequence i [] :: a.frames })
  | .openMapping anchor =>
    let (a, i) := a.declare anchor
    some (.inl { a with frames := .mapping i [] none :: a.frames })
  | .close =>
    match a.frames with
    | .sequence i items :: frames => some (({ a with frames }).add i (.sequence items.reverse))
    | .mapping i entries _ :: frames => some (({ a with frames }).add i (.mapping entries.reverse))
    | [] => none

end Assembly

/-- Puts a document together. -/
def assemble (a : Assembly) : Nat → Parse Document
  | 0 => Parse.fail
  | fuel + 1 => do
    match a.step (← Parse.event) with
    | some (.inl a) => assemble a fuel
    | some (.inr d) =>
      let _ ← Parse.next
      return d
    | none => Parse.fail

/-- Reads the first document of a text; there may be none. -/
def document? (t : Text) : Option (Option Document) :=
  let lexer := Lexer.ofText t
  let read : Parse (Option Document) := do
    if ← Parse.start then return some (← assemble {} (16 * lexer.cursor.bound))
    else return none
  (read { lexer }).map (·.1)

end Preassembler.Config.Yaml
