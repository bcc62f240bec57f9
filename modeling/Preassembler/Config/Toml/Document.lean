import Preassembler.Text.Basic

/-! TOML documents while they are read.

A document is a tree of tables. Beside it stands what decides whether a key may be set again: the
tables that were only mentioned on the way to others, and the keys that hold arrays. -/
namespace Preassembler.Config.Toml

/-- What stands under a key. -/
inductive Value where
  | text (t : Text)
  | int (n : Int)
  | bool (b : Bool)
  /-- A float, a date or a time, which no setting takes. -/
  | other
  /-- An array, whose elements no setting takes. -/
  | array
  | table (entries : List (Text × Value))
  /-- An array of tables, the newest one first; keys below it lead to that one. -/
  | tables (items : List (List (Text × Value)))
  deriving Repr

/-- Values under keys. -/
abbrev Table := List (Text × Value)

namespace Table

/-- Puts a value under a key; the value it had is replaced. -/
def put (t : Table) (key : Text) (v : Value) : Table :=
  (key, v) :: if (t.lookup key).isSome then t.filter fun (k, _) => k != key else t

/-- The table some keys lead to. -/
def follow? : List Text → Table → Option Table
  | [], t => some t
  | k :: r, t =>
    match t.lookup k with
    | some (.table u) => follow? r u
    | some (.tables (u :: _)) => follow? r u
    | _ => none

/-- Changes the table some keys lead to. -/
def change? (f : Table → Option Table) : List Text → Table → Option Table
  | [], t => f t
  | k :: r, t =>
    match t.lookup k with
    | some (.table u) => do some (t.put k (.table (← change? f r u)))
    | some (.tables (u :: older)) => do some (t.put k (.tables ((← change? f r u) :: older)))
    | _ => none

/-- Puts a value at the end of a dotted key and makes the tables on the way. -/
def putDotted? (key : Text) (v : Value) : List Text → Table → Option Table
  | [], t => some (t.put key v)
  | k :: r, t =>
    match t.lookup k with
    | none => do some (t.put k (.table (← putDotted? key v r [])))
    | some (.table u) => do some (t.put k (.table (← putDotted? key v r u)))
    | some _ => none

/-- Adds an empty table to an array of tables, which may be a new one. -/
def addItem? (key : Text) (t : Table) : Option Table :=
  match t.lookup key with
  | none => some (t.put key (.tables [[]]))
  | some (.tables items) => some (t.put key (.tables ([] :: items)))
  | some _ => none

end Table

/-- A tree of tables with the keys that may be set again. -/
structure Document where
  root : Table
  /-- Tables that were only mentioned. -/
  implied : List (List Text)
  /-- Keys that hold arrays. -/
  arrays : List (List Text)
  deriving Repr

namespace Document

def empty : Document := ⟨[], [], []⟩

/-- Notes that a table was only mentioned. -/
def imply (d : Document) (path : List Text) : Document := { d with implied := path :: d.implied }

/-- Notes that a table was set on its own. -/
def settle (d : Document) (path : List Text) : Document :=
  { d with implied := d.implied.filter (· != path) }

/-- Notes whether a key of a table holds an array. The empty key stands for the table itself. -/
def record (d : Document) (context : List Text) (key : Text) (isArray : Bool) : Document :=
  let path :=
    if !key.isEmpty then context ++ [key] else if context.isEmpty then [[]] else context
  let others := d.arrays.filter (· != path)
  { d with arrays := if isArray then path :: others else others }

/-- Sets a key of a table. It can be set again when it holds an array, which is replaced, or a table
that was only mentioned, which is kept. -/
def set? (d : Document) (context : List Text) (key : Text) (v : Value) : Option Document := do
  let path := context ++ [key]
  let table ← d.root.follow? context
  let store (d : Document) : Option Document := do
    some { d with root := ← d.root.change? (fun t => some (t.put key v)) context }
  if (table.lookup key).isNone then store d
  else if d.arrays.contains path then store (d.settle path)
  else if d.implied.contains path then some (d.settle path)
  else none

/-- Makes the tables on the way down some keys, below those already passed. -/
def makeParents? (implied : List (List Text)) (passed : List Text) :
    List Text → Table → Option (List (List Text) × Table)
  | [], t => some (implied, t)
  | k :: r, t =>
    let here := passed ++ [k]
    match t.lookup k with
    | none => do
      let (implied, u) ← makeParents? (here :: implied) here r []
      some (implied, t.put k (.table u))
    | some (.table u) => do
      let (implied, u) ← makeParents? implied here r u
      some (implied, t.put k (.table u))
    | some (.tables (u :: older)) => do
      let (implied, u) ← makeParents? implied here r u
      some (implied, t.put k (.tables (u :: older)))
    | some _ => none

/-- Opens the table at a path: one more of an array of tables when `isItem`. -/
def enter? (d : Document) (path : List Text) (isItem : Bool) : Option Document := do
  let above := path.dropLast
  let key := path.getLast?.getD []
  let (implied, root) ← makeParents? d.implied [] above d.root
  let d := { d with implied, root }
  if isItem then some { d with root := ← d.root.change? (Table.addItem? key) above }
  else d.set? above key (.table [])

/-- Opens the tables of a dotted key below a table, one below the other; the path of the last. -/
def enterDotted? (d : Document) (context : List Text) : List Text → Option (Document × List Text)
  | [] => some (d, context)
  | k :: r => do
    let here := context ++ [k]
    enterDotted? (← (d.imply here).enter? here false) here r

end Document

end Preassembler.Config.Toml
