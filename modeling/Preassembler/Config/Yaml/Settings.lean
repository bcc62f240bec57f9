import Preassembler.Config
import Preassembler.Config.Yaml.Value

/-! Configurations from YAML.

The document is a mapping; settings are found in it by name, and a name that is no setting is passed
over. A key `<<` merges other mappings in: their entries count where the mapping has none of its own.
A value of the wrong type makes the document unreadable as a configuration. -/
namespace Preassembler.Config.Yaml
open Text (ascii)

/-! ### Effort -/

/-- Why a document gives no configuration. -/
inductive Failure where
  | malformed
  /-- A merge compares keys, which cannot be done for collections of this type. -/
  | unhashable (type : Text)
  deriving DecidableEq, Repr

/-- How much has been looked at. -/
structure Effort where
  /-- The nodes looked at. -/
  visited : Nat := 0
  /-- Those of them that were reached through an alias. -/
  aliased : Nat := 0
  /-- The numbers of the aliases that are being followed. -/
  following : List Nat := []
  /-- Whether some value had the wrong type. -/
  isMistaken : Bool := false
  deriving DecidableEq, Repr

namespace Effort

/-- Whether too large a share of the nodes was reached through aliases: more than 99 of a hundred in
a small document, more than 10 of a hundred in a large one, and a share between them in between. -/
def isExcessive (e : Effort) : Bool :=
  let small := 400000
  let large := 4000000
  100 < e.aliased && 1000 < e.visited &&
    if e.visited ≤ small then 99 * e.visited < 100 * e.aliased
    else if large ≤ e.visited then e.visited < 10 * e.aliased
    else e.visited * (99 * (large - small) - 89 * (e.visited - small)) < 100 * (large - small) * e.aliased

end Effort

/-- A computation that looks at nodes and can fail. -/
abbrev Look := StateT Effort (Except Failure)

namespace Look

def fail {α : Type} : Look α := throw .malformed

/-- Notes a value of the wrong type and goes on. -/
def mistake : Look Unit := modify ({ · with isMistaken := true })

/-- Counts a node. -/
def visit : Look Unit := do
  modify fun e =>
    { e with
      visited := e.visited + 1
      aliased := if e.following.isEmpty then e.aliased else e.aliased + 1 }
  if (← get).isExcessive then fail

/-- Looks at a node, or at the node an alias names. An alias cannot be followed inside itself. -/
def node {α : Type} (d : Document) (n : Node) (f : Node → Look α) : Look α := do
  visit
  match n with
  | .alias number _ target =>
    if (← get).following.contains number then fail
    modify fun e => { e with following := number :: e.following }
    visit
    let a ← f (d.anchored[target]?.getD (.sequence []))
    modify fun e => { e with following := e.following.tail }
    return a
  | n => f n

/-- What a scalar stands for, or nothing. -/
def scalar? (tag : Text) (isPlain : Bool) (text : Text) : Look (Option Value) :=
  match Value.ofScalar? tag isPlain text with
  | none => fail
  | some .null => return none
  | some v => return some v

/-- Reads a scalar as a setting; one that stands for nothing sets nothing. -/
def setting? {α : Type} (d : Document) (read : Value → Text → Option α) (n : Node) : Look (Option α) :=
  node d n fun
    | .scalar tag isPlain text => do
      match ← scalar? tag isPlain text with
      | none => return none
      | some v =>
        if (read v text).isNone then mistake
        return read v text
    | _ => do
      mistake
      return none

def int? (d : Document) (n : Node) : Look (Option Int) := setting? d (fun v _ => v.toInt?) n

def bool? (d : Document) (n : Node) : Look (Option Bool) := setting? d (fun v _ => v.toBool?) n

/-- A scalar as a text: the way it is written, whatever it stands for. -/
def text? (d : Document) (n : Node) : Look (Option Text) :=
  setting? d (fun v written => match v with
    | .text t => some t
    | _ => some written) n

end Look

/-! ### Mappings -/

namespace Node

/-- What makes two keys the same: their kind, and what is written. -/
def identity : Node → Nat × Text
  | .scalar _ _ t => (0, t)
  | .alias _ name _ => (1, name)
  | .sequence _ => (2, [])
  | .mapping _ => (3, [])

/-- Whether a key merges other mappings in. -/
def isMerge : Node → Bool
  | .scalar tag isPlain t =>
    t = ascii "<<" && (if tag.isEmpty then isPlain else tag = ascii "!!merge")
  | _ => false

/-- Whether a node is a mapping or names one. -/
def isMapping (d : Document) : Node → Bool
  | .mapping _ => true
  | .alias _ _ target => match d.anchored[target]? with
    | some (.mapping _) => true
    | _ => false
  | _ => false

/-- Whether a node is a scalar that stands for a text, or a merge key, or names one. -/
def isText (d : Document) : Node → Bool
  | .scalar tag isPlain t => isTextual tag isPlain t
  | .alias _ _ target => match d.anchored[target]? with
    | some (.scalar tag isPlain t) => isTextual tag isPlain t
    | _ => false
  | _ => false
where
  isTextual (tag : Text) (isPlain : Bool) (t : Text) : Bool :=
    if tag.isEmpty then !isPlain || (Value.resolve true t).tag = ascii "!!str"
    else tag = ascii "!!str" || tag = ascii "!!merge"

end Node

/-- Whether no two keys of a mapping are the same. -/
def hasUniqueKeys (entries : List (Node × Node)) : Bool :=
  let keys := entries.map fun (k, _) => k.identity
  let sorted := keys.mergeSort fun a b => a.1 < b.1 || (a.1 == b.1 && decide (a.2 ≤ b.2))
  (sorted.zip (sorted.drop 1)).all fun (a, b) => a != b

/-- The texts among the keys of a mapping. -/
def keyTexts (d : Document) (entries : List (Node × Node)) : Look (List Text) :=
  entries.foldlM (fun seen (k, _) => Look.node d k fun
    | .scalar tag isPlain text => do
      match ← Look.scalar? tag isPlain text with
      | some (.text t) => return t :: seen
      | _ => return seen
    | .mapping inner => do
      if !hasUniqueKeys inner then
        Look.mistake
        return seen
      else if inner.all fun (k, _) => k.isText d then
        throw (.unhashable (ascii "map[string]interface \x7b\x7d"))
      else throw (.unhashable (ascii "map[interface \x7b\x7d]interface \x7b\x7d"))
    | _ => throw (.unhashable (ascii "[]interface \x7b\x7d"))) []

/-- What is made of the entries of a mapping. -/
structure Target (σ : Type) where
  /-- Takes an entry. -/
  take : σ → Text → Node → Look σ
  /-- Goes on with the entries of a mapping that is merged in. -/
  merging : σ → σ

/-- Takes the entries of a mapping, and then those of the mappings it merges in. Inside a merge,
`taken` are the keys that count no more. -/
def takeEntries {σ : Type} (d : Document) (target : Target σ) :
    Nat → σ → Option (List Text) → List (Node × Node) → Look (σ × Option (List Text))
  | 0, _, _, _ => Look.fail
  | fuel + 1, s, taken, entries => do
    if !hasUniqueKeys entries then
      Look.mistake
      return (s, taken)
    let (s, taken) ← entries.foldlM (fun (s, taken) (k, v) => do
      if k.isMerge then return (s, taken)
      match ← Look.text? d k with
      | none => return (s, taken)
      | some name =>
        if taken.any (·.contains name) then return (s, taken)
        else return (← target.take s name v, taken.map (name :: ·))) (s, taken)
    match entries.find? (·.1.isMerge) with
    | none => return (s, taken)
    | some (_, merged) =>
      let names ← match taken with
        | some names => pure names
        | none => keyTexts d entries
      let sources := match merged with
        | .sequence items => items
        | n => [n]
      let (s, names) ← sources.foldlM (fun (s, names) source => do
        if !source.isMapping d then Look.fail
        let (s, names') ← Look.node d source fun
          | .mapping entries => takeEntries d target fuel (target.merging s) (some names) entries
          | _ => Look.fail
        return (s, names'.getD names)) (s, names)
      return (s, taken.map fun _ => names)

/-! ### Settings -/

/-- The predefined macros of a mapping, and whether no mapping was merged in yet. A key without a
value has the empty text, unless a merge finds it set. -/
def definesTarget (d : Document) : Target (Dictionary Text × Bool) where
  take := fun (defines, isNew) name v => do
    match ← Look.text? d v with
    | some t => return (defines.insert name t, isNew)
    | none =>
      if isNew || (defines.find? name).isNone then return (defines.insert name [], isNew)
      else return (defines, isNew)
  merging := fun (defines, _) => (defines, false)

/-- Reads the predefined macros. -/
def defines? (d : Document) (bound : Nat) (n : Node) : Look (Option (Dictionary Text)) :=
  Look.node d n fun
    | .mapping entries => do
      let ((defines, _), _) ← takeEntries d (definesTarget d) bound (.empty, true) none entries
      return some defines
    | .scalar tag isPlain text => do
      if (← Look.scalar? tag isPlain text).isSome then Look.mistake
      return none
    | _ => do
      Look.mistake
      return none

/-- The names of settings. -/
def names : List Text :=
  [ascii "label_width", ascii "max_expansion_depth", ascii "strict_comments",
    ascii "normalize_registers", ascii "defines", ascii "log_level", ascii "log_format"]

/-- Takes one setting over into a configuration. -/
def takeSetting (d : Document) (bound : Nat) (c : Config) (name : Text) (v : Node) : Look Config := do
  if name = ascii "label_width" then
    return { c with labelWidth := (← Look.int? d v).getD c.labelWidth }
  else if name = ascii "max_expansion_depth" then
    return { c with expansionLimit := (← Look.int? d v).getD c.expansionLimit }
  else if name = ascii "strict_comments" then
    return { c with strictComments := (← Look.bool? d v).getD c.strictComments }
  else if name = ascii "normalize_registers" then
    return { c with numberRegisters := ← Look.bool? d v }
  else if name = ascii "defines" then return { c with defines := ← defines? d bound v }
  else if name = ascii "log_level" then
    return { c with logLevel := (← Look.text? d v).getD c.logLevel }
  else if name = ascii "log_format" then
    return { c with logFormat := (← Look.text? d v).getD c.logFormat }
  else return c

/-- The configuration of a mapping, and the settings it made itself: each can be made once. -/
def configTarget (d : Document) (bound : Nat) : Target (Config × List Text) where
  take := fun (c, made) name v => do
    if !names.contains name then return (c, made)
    else if made.contains name then
      Look.mistake
      return (c, made)
    else return (← takeSetting d bound c name v, name :: made)
  merging := fun (c, _) => (c, [])

/-- The settings of a document. -/
def ofDocument (d : Document) (bound : Nat) : Look Config := do
  Look.visit
  Look.node d d.root fun
    | .mapping entries => do
      let ((c, _), _) ← takeEntries d (configTarget d bound) bound ({}, []) none entries
      return c
    | .scalar tag isPlain text => do
      if (← Look.scalar? tag isPlain text).isSome then Look.mistake
      return {}
    | _ => do
      Look.mistake
      return {}

/-- The settings of a text. Nothing in it sets nothing. -/
def settings (t : Text) : Except Failure Config :=
  match document? t with
  | none => .error .malformed
  | some none => .ok {}
  | some (some d) =>
    match (ofDocument d ((t.length + 2) * (t.length + 2))).run {} with
    | .error e => .error e
    | .ok (c, e) => if e.isMistaken then .error .malformed else .ok c

end Preassembler.Config.Yaml
