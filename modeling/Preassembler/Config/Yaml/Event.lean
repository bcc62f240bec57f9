import Preassembler.Config.Yaml.Lexer

/-! From the tokens of a YAML document to the beginnings and ends of its nodes.

The grammar is a stack of states: a state reads tokens up to the next event and tells where to go on;
a node pushes the state behind it and returns to it at its end. -/
namespace Preassembler.Config.Yaml
open Text (ascii byte)

/-- The beginning or the end of a node. -/
inductive Event where
  | scalar (anchor : Option Text) (tag : Text) (isPlain : Bool) (text : Text)
  | alias (name : Text)
  | openSequence (anchor : Option Text)
  | openMapping (anchor : Option Text)
  | close
  deriving DecidableEq, Repr

/-- Where in the grammar reading stands. -/
inductive State where
  /-- Before the node of a document that began with a marker. -/
  | content
  /-- Before the node of a document that began without one. -/
  | root
  /-- Behind the node of the document. -/
  | documentEnd
  | blockEntry (isFirst : Bool)
  /-- Before an element of a sequence as far in as the mapping around it. -/
  | sameEntry
  | blockKey (isFirst : Bool)
  | blockValue
  | flowEntry (isFirst : Bool)
  /-- Inside a mapping of one entry written as an element of a sequence. -/
  | pairKey
  | pairValue
  | pairEnd
  | flowKey (isFirst : Bool)
  | flowValue
  /-- Behind a key without a colon. -/
  | flowNoValue
  deriving DecidableEq, Repr

/-- A place in the grammar. -/
structure Grammar where
  lexer : Lexer
  state : State := .root
  /-- The states to return to. -/
  states : List State := []
  /-- The meanings of the handles of tags. -/
  handles : List (Text × Text) := []
  deriving Repr

/-- A computation that moves through the grammar and can fail. -/
abbrev Parse := StateT Grammar Option

namespace Parse

/-- Gives up: the document is malformed. -/
def fail {α : Type} : Parse α := fun _ => none

/-- The next token. -/
def next : Parse Token := fun g => (Lex.next g.lexer).map fun (t, l) => (t, { g with lexer := l })

/-- Takes the next token. -/
def pop : Parse Unit := fun g => (Lex.pop g.lexer).map fun (_, l) => ((), { g with lexer := l })

def goTo (s : State) : Parse Unit := modify ({ · with state := s })

/-- Goes to a state that comes behind a node. -/
def remember (s : State) : Parse Unit := modify fun g => { g with states := s :: g.states }

/-- Goes on behind the node that ends here. -/
def goBack : Parse Unit := modify fun g =>
  { g with state := g.states.head?.getD .documentEnd, states := g.states.tail }

/-- A node where nothing is written. -/
def absent : Event := .scalar none [] true []

/-! ### Nodes -/

/-- Reads an anchor, if there is one. -/
def anchor? : Parse (Option Text) := do
  match ← next with
  | .anchor name =>
    pop
    return some name
  | _ => return none

/-- The tag a handle and a suffix stand for. -/
def tagOf (handle suffix : Text) : Parse Text := do
  if handle.isEmpty then return suffix
  match (← get).handles.lookup handle with
  | some meaning => return meaning ++ suffix
  | none => fail

/-- Reads a tag, if there is one: its handle and its suffix. -/
def tag? : Parse (Option (Text × Text)) := do
  match ← next with
  | .tag handle suffix =>
    pop
    return some (handle, suffix)
  | _ => return none

/-- Reads an anchor and a tag in any order. -/
def properties : Parse (Option Text × Option (Text × Text)) := do
  match ← anchor? with
  | some a => return (some a, ← tag?)
  | none =>
    match ← tag? with
    | some t => return (← anchor?, some t)
    | none => return (none, none)

/-- Reads the beginning of a node: in a block, or between brackets. A sequence may be no further in
than the mapping around it when `sameIndent`. -/
def node (inBlock sameIndent : Bool) : Parse Event := do
  match ← next with
  | .alias name =>
    goBack
    pop
    return .alias name
  | _ =>
    let (anchor, written) ← properties
    let tag ← match written with
      | some (handle, suffix) => tagOf handle suffix
      | none => pure []
    match ← next with
    | .entry =>
      if sameIndent then
        goTo .sameEntry
        return .openSequence anchor
      else nothing anchor tag
    | .scalar isPlain text =>
      goBack
      pop
      return .scalar anchor tag isPlain text
    | .openSequence =>
      goTo (.flowEntry true)
      return .openSequence anchor
    | .openMapping =>
      goTo (.flowKey true)
      return .openMapping anchor
    | .blockSequence =>
      if inBlock then
        goTo (.blockEntry true)
        return .openSequence anchor
      else nothing anchor tag
    | .blockMapping =>
      if inBlock then
        goTo (.blockKey true)
        return .openMapping anchor
      else nothing anchor tag
    | _ => nothing anchor tag
where
  /-- A node that has an anchor or a tag and nothing else. -/
  nothing (anchor : Option Text) (tag : Text) : Parse Event := do
    if anchor.isNone && tag.isEmpty then fail
    goBack
    return .scalar anchor tag true []

/-- Reads a node and goes on in a state behind it. -/
def nodeThen (s : State) (inBlock sameIndent : Bool) : Parse Event := do
  remember s
  node inBlock sameIndent

/-- Leaves a node out and goes on in a state. -/
def absentThen (s : State) : Parse Event := do
  goTo s
  return absent

/-- Ends a collection. -/
def close : Parse Event := do
  goBack
  return .close

/-! ### Blocks -/

/-- Whether a token ends a key or a value of a block mapping that was left out. -/
def endsEntry : Token → Bool
  | .key => true
  | .value => true
  | .blockEnd => true
  | _ => false

/-- Reads an element of a block sequence, or its end. -/
def blockEntry : Parse Event := do
  match ← next with
  | .entry =>
    pop
    let t ← next
    if t = .entry || t = .blockEnd then absentThen (.blockEntry false)
    else nodeThen (.blockEntry false) true false
  | .blockEnd =>
    pop
    close
  | _ => fail

/-- Reads an element of a sequence as far in as the mapping around it, or its end. -/
def sameEntry : Parse Event := do
  match ← next with
  | .entry =>
    pop
    let t ← next
    if t = .entry || endsEntry t then absentThen .sameEntry
    else nodeThen .sameEntry true false
  | _ => close

/-- Reads a key of a block mapping, or its end. -/
def blockKey : Parse Event := do
  match ← next with
  | .key =>
    pop
    if endsEntry (← next) then absentThen .blockValue else nodeThen .blockValue true true
  | .blockEnd =>
    pop
    close
  | _ => fail

/-- Reads the value of a block mapping. -/
def blockValue : Parse Event := do
  match ← next with
  | .value =>
    pop
    if endsEntry (← next) then absentThen (.blockKey false) else nodeThen (.blockKey false) true true
  | _ => absentThen (.blockKey false)

/-! ### Brackets -/

/-- Reads the comma before anything but the first item. -/
def separator (isFirst : Bool) : Parse Unit := do
  if !isFirst then
    match ← next with
    | .separator => pop
    | _ => fail

/-- Reads an element of a flow sequence, or its end. -/
def flowEntry (isFirst : Bool) : Parse Event := do
  if (← next) != .closeSequence then separator isFirst
  match ← next with
  | .closeSequence =>
    pop
    close
  | .key =>
    pop
    goTo .pairKey
    return .openMapping none
  | _ => nodeThen (.flowEntry false) false false

/-- Reads the key of a single entry. When it is left out, the token there is passed over. -/
def pairKey : Parse Event := do
  let t ← next
  if t = .value || t = .separator || t = .closeSequence then
    pop
    absentThen .pairValue
  else nodeThen .pairValue false false

/-- Reads the value of a single entry. -/
def pairValue : Parse Event := do
  match ← next with
  | .value =>
    pop
    let t ← next
    if t = .separator || t = .closeSequence then absentThen .pairEnd
    else nodeThen .pairEnd false false
  | _ => absentThen .pairEnd

/-- Ends a single entry. -/
def pairEnd : Parse Event := do
  let _ ← next
  goTo (.flowEntry false)
  return .close

/-- Reads a key of a flow mapping, or its end. -/
def flowKey (isFirst : Bool) : Parse Event := do
  if (← next) != .closeMapping then separator isFirst
  match ← next with
  | .closeMapping =>
    pop
    close
  | .key =>
    pop
    let t ← next
    if t = .value || t = .separator || t = .closeMapping then absentThen .flowValue
    else nodeThen .flowValue false false
  | _ => nodeThen .flowNoValue false false

/-- Reads the value of a flow mapping. -/
def flowValue : Parse Event := do
  match ← next with
  | .value =>
    pop
    let t ← next
    if t = .separator || t = .closeMapping then absentThen (.flowKey false)
    else nodeThen (.flowKey false) false false
  | _ => absentThen (.flowKey false)

/-! ### Documents -/

/-- Whether a token stands outside of documents. -/
def isOutside : Token → Bool
  | .version .. => true
  | .tagHandle .. => true
  | .documentStart => true
  | .documentEnd => true
  | .streamEnd => true
  | _ => false

/-- The handles every document has. -/
def defaultHandles : List (Text × Text) :=
  [(ascii "!", ascii "!"), (ascii "!!", ascii "tag:yaml.org,2002:")]

/-- Reads directives: there may be one for the version, which must be 1.1, and one for each handle. -/
def directives (hasVersion : Bool) : Nat → Parse Unit
  | 0 => fail
  | fuel + 1 => do
    match ← next with
    | .version major minor =>
      if hasVersion || major != 1 || minor != 1 then fail
      pop
      directives true fuel
    | .tagHandle handle meaning =>
      if ((← get).handles.lookup handle).isSome then fail
      modify fun g => { g with handles := g.handles ++ [(handle, meaning)] }
      pop
      directives hasVersion fuel
    | _ => modify fun g => { g with handles := g.handles ++ defaultHandles }

/-- Begins the first document; tells whether there is one. -/
def start : Parse Bool := do
  let _ ← next
  pop
  let t ← next
  if t = .streamEnd then return false
  else if isOutside t && t != .documentEnd then
    directives false (← get).lexer.cursor.bound
    if (← next) != .documentStart then fail
    pop
    goTo .content
    return true
  else
    modify fun g => { g with handles := defaultHandles }
    goTo .root
    return true

/-- Reads the next event. -/
def event : Parse Event := do
  match (← get).state with
  | .content =>
    if isOutside (← next) then
      goBack
      return absent
    else node true false
  | .root => node true false
  | .documentEnd => fail
  | .blockEntry isFirst =>
    if isFirst then skipOpening
    blockEntry
  | .sameEntry => sameEntry
  | .blockKey isFirst =>
    if isFirst then skipOpening
    blockKey
  | .blockValue => blockValue
  | .flowEntry isFirst =>
    if isFirst then skipOpening
    flowEntry isFirst
  | .pairKey => pairKey
  | .pairValue => pairValue
  | .pairEnd => pairEnd
  | .flowKey isFirst =>
    if isFirst then skipOpening
    flowKey isFirst
  | .flowValue => flowValue
  | .flowNoValue =>
    let _ ← next
    absentThen (.flowKey false)
where
  /-- Takes the token that opened a collection. -/
  skipOpening : Parse Unit := do
    let _ ← next
    pop

end Parse

end Preassembler.Config.Yaml
