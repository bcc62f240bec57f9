import Preassembler.Text.Quoted

/-! Arguments of the command line.

Flags and other arguments mix until two dashes end the flags. A long flag stands behind two dashes,
letters behind one; a value follows an equals sign, a letter directly, or is the next argument.
Arguments are read from left to right, and the first error counts. -/
namespace Preassembler.CommandLine
open Text (ascii byte)

/-- The flags of all commands. -/
inductive Flag where
  | config
  | define
  | help
  | strict
  | verbose
  deriving DecidableEq, Repr

namespace Flag

def name : Flag → Text
  | config => ascii "config"
  | define => ascii "define"
  | help => ascii "help"
  | strict => ascii "strict"
  | verbose => ascii "verbose"

/-- The letter of a flag. -/
def letter? : Flag → Option UInt8
  | config => none
  | define => some (byte 'D')
  | help => some (byte 'h')
  | strict => none
  | verbose => some (byte 'v')

/-- Whether a flag needs a value; without one the others are switched on. -/
def needsValue : Flag → Bool
  | config => true
  | define => true
  | _ => false

/-- A flag as messages name it. -/
def display (f : Flag) : Text :=
  match f.letter? with
  | some l => byte '-' :: l :: ascii ", --" ++ f.name
  | none => ascii "--" ++ f.name

end Flag

/-- The commands. -/
inductive Command where
  | preprocess
  | version
  | help
  deriving DecidableEq, Repr

namespace Command

/-- The flags a command takes besides the one for help. -/
def ownFlags : Command → List Flag
  | preprocess => [.config, .define, .strict, .verbose]
  | _ => []

def flags (c : Command) : List Flag := .help :: c.ownFlags

end Command

/-- What is wrong with the arguments. -/
inductive ArgumentError where
  | badSyntax (argument : Text)
  | unknownFlag (name : Text)
  | unknownLetter (letter : UInt8) (group : Text)
  | missingValue (argument : Text)
  | missingLetterValue (letter : UInt8) (group : Text)
  | badValue (flag : Flag) (value : Text)
  | wrongCount (received : Nat)
  | unexpected (argument : Text)
  deriving DecidableEq, Repr

/-- A letter between single quotes. -/
def quoteLetter (b : UInt8) : Text :=
  let inner :=
    if b == 0x27 then [0x5C, 0x27]
    else if b == 0x22 then [0x22]
    else Text.quotePoint b.toNat (Text.encode b.toNat)
  0x27 :: (inner ++ [0x27])

def ArgumentError.message : ArgumentError → Text
  | badSyntax a => ascii "bad flag syntax: " ++ a
  | unknownFlag n => ascii "unknown flag: --" ++ n
  | unknownLetter l g => ascii "unknown shorthand flag: " ++ quoteLetter l ++ ascii " in -" ++ g
  | missingValue a => ascii "flag needs an argument: " ++ a
  | missingLetterValue l g =>
    ascii "flag needs an argument: " ++ quoteLetter l ++ ascii " in -" ++ g
  | badValue f v =>
    ascii "invalid argument " ++ v.quote ++ ascii " for " ++ f.display.quote ++
      ascii " flag: strconv.ParseBool: parsing " ++ v.quote ++ ascii ": invalid syntax"
  | wrongCount n => ascii "accepts 2 arg(s), received " ++ .ofNat n
  | unexpected a =>
    ascii "unknown command " ++ a.quote ++ ascii " for \"lc2kpp version\""

/-! ### Reading arguments -/

/-- What the arguments say. -/
structure Given where
  config : Text := []
  /-- The macros to define, in order. -/
  defines : List Text := []
  help : Bool := false
  strict : Bool := false
  verbose : Bool := false
  /-- The arguments that are no flags, in order. -/
  positional : List Text := []
  deriving DecidableEq, Repr

/-- Reads a truth value. -/
def boolean? (t : Text) : Option Bool :=
  if [ascii "1", ascii "t", ascii "T", ascii "TRUE", ascii "true", ascii "True"].contains t then
    some true
  else if [ascii "0", ascii "f", ascii "F", ascii "FALSE", ascii "false", ascii "False"].contains t then
    some false
  else none

namespace Given

/-- Gives a flag a value. -/
def set (g : Given) (f : Flag) (value : Text) : Except ArgumentError Given :=
  match f, boolean? value with
  | .config, _ => .ok { g with config := value }
  | .define, _ => .ok { g with defines := g.defines ++ [value] }
  | .help, some b => .ok { g with help := b }
  | .strict, some b => .ok { g with strict := b }
  | .verbose, some b => .ok { g with verbose := b }
  | f, none => .error (.badValue f value)

/-- Switches a flag on. -/
def switchOn (g : Given) (f : Flag) : Except ArgumentError Given := g.set f (ascii "true")

end Given

/-- A flag whose value is the next argument, and the error when there is none. -/
structure Wanting where
  flag : Flag
  error : ArgumentError
  deriving DecidableEq, Repr

/-- Reads a long flag without its dashes; `argument` has them. -/
def readLong (flags : List Flag) (g : Given) (argument name : Text) :
    Except ArgumentError (Given × Option Wanting) :=
  match name with
  | [] => .error (.badSyntax argument)
  | b :: _ =>
    if b == byte '-' || b == byte '=' then .error (.badSyntax argument)
    else
      let (name, value) := match Text.cut? (byte '=') name with
        | some (n, v) => (n, some v)
        | none => (name, none)
      match flags.find? (·.name == name), value with
      | none, _ => .error (.unknownFlag name)
      | some f, some v => (g.set f v).map fun g => (g, none)
      | some f, none =>
        if f.needsValue then .ok (g, some ⟨f, .missingValue argument⟩)
        else (g.switchOn f).map fun g => (g, none)

/-- A group of letters that is passed over. -/
def isIgnored (group : Text) : Bool := (Text.after? (ascii "test.") group).isSome

/-- Reads a group of letters. -/
def readLetters (flags : List Flag) (g : Given) :
    Text → Except ArgumentError (Given × Option Wanting)
  | [] => .ok (g, none)
  | l :: r =>
    if isIgnored (l :: r) then .ok (g, none)
    else match flags.find? (·.letter? == some l) with
      | none => .error (.unknownLetter l (l :: r))
      | some f =>
        match r with
        | 0x3D :: v :: vs => (g.set f (v :: vs)).map fun g => (g, none)
        | r =>
          if f.needsValue then
            if r.isEmpty then .ok (g, some ⟨f, .missingLetterValue l [l]⟩)
            else (g.set f r).map fun g => (g, none)
          else
            match g.switchOn f with
            | .error e => .error e
            | .ok g => readLetters flags g r

/-- Whether an argument is a flag: a single dash is not. -/
def isFlag (a : Text) : Bool :=
  match a with
  | b :: _ :: _ => b == byte '-'
  | _ => false

/-- Reads arguments, of which the first may be the value of a flag. -/
def readArguments (flags : List Flag) (g : Given) :
    Option Wanting → List Text → Except ArgumentError Given
  | none, [] => .ok g
  | some w, [] => .error w.error
  | some w, v :: r =>
    match g.set w.flag v with
    | .error e => .error e
    | .ok g => readArguments flags g none r
  | none, a :: r =>
    if !isFlag a then
      readArguments flags { g with positional := g.positional ++ [a] } none r
    else if a = ascii "--" then .ok { g with positional := g.positional ++ r }
    else
      let read := match Text.after? (ascii "--") a with
        | some name => readLong flags g a name
        | none => readLetters flags g (a.drop 1)
      match read with
      | .error e => .error e
      | .ok (g, w) => readArguments flags g w r

/-! ### The command among the arguments -/

/-- Whether the argument after a flag is its value. A flag that is not known counts as one that
needs a value. -/
def hidesNext (flags : List Flag) (a : Text) : Bool :=
  !a.contains (byte '=') &&
    match Text.after? (ascii "--") a with
    | some name => !flags.any fun f => f.name == name && !f.needsValue
    | none =>
      match a with
      | [d, l] => d == byte '-' && !flags.any fun f => f.letter? == some l && !f.needsValue
      | _ => false

/-- The first argument that is neither a flag nor the value of one. -/
def firstWord? (flags : List Flag) : List Text → Option Text
  | [] => none
  | a :: r =>
    if a = ascii "--" then none
    else if hidesNext flags a then
      match r with
      | [] => none
      | [_] => none
      | _ :: r => firstWord? flags r
    else if a.isEmpty || a.head? == some (byte '-') then firstWord? flags r
    else some a

/-- The arguments without the first one that is `word` and neither a flag nor the value of one. -/
def withoutWord (flags : List Flag) (word : Text) : List Text → List Text
  | [] => []
  | a :: r =>
    if a = ascii "--" then a :: r
    else if hidesNext flags a then
      match r with
      | [] => [a]
      | v :: r => a :: v :: withoutWord flags word r
    else if a = word && a.head? != some (byte '-') then r
    else a :: withoutWord flags word r

/-- The command the arguments name, and the arguments for it. -/
def findCommand (args : List Text) : Command × List Text :=
  let flags := Command.preprocess.ownFlags
  match firstWord? flags args with
  | none => (.preprocess, args)
  | some word =>
    if word = ascii "version" then (.version, withoutWord flags word args)
    else if word = ascii "help" then (.help, withoutWord flags word args)
    else (.preprocess, args)

/-- The words that name the commands for the completion of command lines in a shell: one that writes
scripts for shells, and two by which these scripts ask what can come next. -/
def completionWords : List Text :=
  [ascii "completion", ascii "__complete", ascii "__completeNoDesc"]

/-- Whether the first of the arguments that is neither a flag nor the value of one is among some
words. -/
def namesOneOf (words args : List Text) : Bool :=
  ((firstWord? Command.preprocess.ownFlags args).map words.contains).getD false

/-- What is asked for. -/
inductive Request where
  | showHelp (topic : Command)
  | showVersion
  /-- A command line for completion, which is read elsewhere. -/
  | complete (args : List Text)
  | preprocess (given : Given) (source dest : Text)
  deriving DecidableEq, Repr

/-- The request a command line makes. -/
def Request.read (args : List Text) : Except ArgumentError Request :=
  if namesOneOf completionWords args then .ok (.complete args)
  else
    let (command, rest) := findCommand args
    match readArguments command.flags {} none rest with
    | .error e => .error e
    | .ok g =>
      if g.help then .ok (.showHelp command)
      else match command, g.positional with
        | .preprocess, [source, dest] => .ok (.preprocess g source dest)
        | .preprocess, l => .error (.wrongCount l.length)
        | .version, [] => .ok .showVersion
        | .version, a :: _ => .error (.unexpected a)
        | .help, l =>
          if namesOneOf [ascii "completion"] l then .ok (.complete args)
          else .ok (.showHelp (findCommand l).1)

end Preassembler.CommandLine
