import Preassembler.Config.Yaml.Token

/-! From the characters of a YAML document to its tokens.

Blocks are told by indentation: where a line is indented further than the block around it, a token for
the start of a block is put in, and where it is indented less, tokens for the ends of blocks. A key
without a mark is only known as one when its colon is reached; the tokens for the key and for the
block it may begin are then put in at the place where it began. So tokens wait in a queue as long as
the first one may turn out to begin a key. -/
namespace Preassembler.Config.Yaml

/-- A place where a key without a mark may begin. -/
structure Candidate where
  isPossible : Bool := false
  /-- In a block mapping nothing but a key can stand here. -/
  isRequired : Bool := false
  /-- The number of the token that begins here. -/
  token : Nat := 0
  index : Nat := 0
  line : Nat := 0
  column : Nat := 0
  deriving DecidableEq, Repr, Inhabited

/-- The state between two tokens. -/
structure Lexer where
  cursor : Cursor
  isStarted : Bool := false
  /-- The tokens read and not yet taken. -/
  queue : List Token := []
  /-- The number of tokens taken. -/
  taken : Nat := 0
  /-- Whether the first token of the queue is known to be the next one. -/
  isReady : Bool := false
  /-- The column of the block around, or minus one. -/
  indent : Int := -1
  /-- The columns of the blocks around that one. -/
  indents : List Int := []
  /-- The number of brackets that are open. -/
  flow : Nat := 0
  /-- The candidates for keys, for each open bracket and for the blocks around them. -/
  candidates : Array Candidate := #[]
  /-- For the numbers of tokens that may begin keys, the places of their candidates. -/
  heads : List (Nat × Nat) := []
  /-- Whether a key without a mark may begin here. -/
  allowsKey : Bool := false
  deriving Repr

/-- A computation on the state between two tokens that can fail. -/
abbrev Lex := StateT Lexer Option

namespace Lex

/-- Gives up: the document is malformed. -/
def fail {α : Type} : Lex α := fun _ => none

/-- Reads with the cursor. -/
def read {α : Type} (m : Reader α) : Lex α := fun s => (m s.cursor).map fun (a, c) => (a, { s with cursor := c })

def peek (n : Nat) : Lex Char := read (Reader.peek n)

def isInFlow : Lex Bool := return (← get).flow != 0

def setAllowsKey (b : Bool) : Lex Unit := modify ({ · with allowsKey := b })

/-- Adds a token at the end of the queue. -/
def push (t : Token) : Lex Unit := modify fun s => { s with queue := s.queue ++ [t] }

/-- Puts a token before the one with a number; when that one is taken already, at the end. -/
def insertBefore (number : Nat) (t : Token) : Lex Unit := modify fun s =>
  if number < s.taken then { s with queue := s.queue ++ [t] }
  else { s with queue := s.queue.insertIdx (number - s.taken) t }

/-! ### Indentation -/

/-- How deeply blocks or brackets can be nested. -/
def maxDepth : Nat := 10000

/-- Begins a block at a column that lies further in; `put` puts in the token for it. -/
def roll (column : Nat) (put : Lex Unit) : Lex Unit := do
  let s ← get
  if s.flow = 0 && s.indent < column then
    set { s with indent := (column : Int), indents := s.indent :: s.indents }
    if maxDepth ≤ s.indents.length then fail
    put

/-- The blocks that end before a column, as the columns around them. -/
def unrolled (column indent : Int) : List Int → Nat × Int × List Int
  | [] => (0, indent, [])
  | i :: is =>
    if column < indent then
      let (n, indent, is) := unrolled column i is
      (n + 1, indent, is)
    else (0, indent, i :: is)

/-- Ends the blocks that lie further in than a column. -/
def unroll (column : Int) : Lex Unit := modify fun s =>
  if s.flow = 0 then
    let (n, indent, indents) := unrolled column s.indent s.indents
    { s with indent, indents, queue := s.queue ++ List.replicate n .blockEnd }
  else s

/-! ### Candidates for keys -/

/-- How many characters a key without a mark and its colon may span. -/
def keyReach : Nat := 1024

/-- Whether a candidate can still become a key: it must be on the line of its colon and near it. -/
def isAlive (place : Nat) : Lex Bool := do
  let s ← get
  let k := s.candidates[place]?.getD {}
  if !k.isPossible then return false
  else if k.line < s.cursor.line || k.index + keyReach < s.cursor.index then
    if k.isRequired then fail
    set { s with candidates := s.candidates.setIfInBounds place { k with isPossible := false } }
    return false
  else return true

/-- The place of the candidate for what is being read. -/
def lastPlace : Lex Nat := return (← get).candidates.size - 1

def forget (token : Nat) : Lex Unit := modify fun s =>
  { s with heads := s.heads.eraseP fun (t, _) => t == token }

/-- Drops the candidate for what is being read. -/
def dropCandidate : Lex Unit := do
  let place ← lastPlace
  let k := (← get).candidates[place]?.getD {}
  if k.isPossible then
    if k.isRequired then fail
    modify fun s => { s with candidates := s.candidates.setIfInBounds place { k with isPossible := false } }
    forget k.token

/-- The number of the token that is read next. -/
def nextNumber : Lex Nat := do
  let s ← get
  return s.taken + s.queue.length

/-- Notes that a key may begin here. -/
def markCandidate : Lex Unit := do
  let s ← get
  if s.allowsKey then
    let c := s.cursor
    let k : Candidate :=
      { isPossible := true
        isRequired := s.flow = 0 && s.indent = c.column
        token := ← nextNumber
        index := c.index
        line := c.line
        column := c.column }
    dropCandidate
    let place ← lastPlace
    modify fun s =>
      { s with candidates := s.candidates.setIfInBounds place k, heads := (k.token, place) :: s.heads }

/-! ### Tokens of marks -/

/-- Reads a mark of one character. -/
def mark (t : Token) : Lex Unit := do
  read Reader.skip
  push t

/-- Reads an opening bracket. -/
def openBracket (t : Token) : Lex Unit := do
  markCandidate
  let number ← nextNumber
  modify fun s => { s with candidates := s.candidates.push { token := number }, flow := s.flow + 1 }
  if maxDepth < (← get).flow then fail
  setAllowsKey true
  mark t

/-- Reads a closing bracket. -/
def closeBracket (t : Token) : Lex Unit := do
  dropCandidate
  if ← isInFlow then
    let place ← lastPlace
    forget ((← get).candidates[place]?.getD {}).token
    modify fun s => { s with candidates := s.candidates.pop, flow := s.flow - 1 }
  setAllowsKey false
  mark t

/-- Reads a comma. -/
def comma : Lex Unit := do
  dropCandidate
  setAllowsKey true
  mark .separator

/-- Reads a dash before an element of a block sequence. -/
def dash : Lex Unit := do
  if !(← isInFlow) then
    if !(← get).allowsKey then fail
    roll (← get).cursor.column (push .blockSequence)
  dropCandidate
  setAllowsKey true
  mark .entry

/-- Reads the mark of a key. -/
def question : Lex Unit := do
  if !(← isInFlow) then
    if !(← get).allowsKey then fail
    roll (← get).cursor.column (push .blockMapping)
  dropCandidate
  setAllowsKey !(← isInFlow)
  mark .key

/-- Reads a colon. If a key without a mark stands before it, the tokens for it are put in there. -/
def colon : Lex Unit := do
  let place ← lastPlace
  if ← isAlive place then
    let k := (← get).candidates[place]?.getD {}
    insertBefore k.token .key
    roll k.column (insertBefore k.token .blockMapping)
    modify fun s => { s with candidates := s.candidates.setIfInBounds place { k with isPossible := false } }
    forget k.token
    setAllowsKey false
  else
    if !(← isInFlow) then
      if !(← get).allowsKey then fail
      roll (← get).cursor.column (push .blockMapping)
    setAllowsKey !(← isInFlow)
  mark .value

/-! ### Other tokens -/

/-- Reads a token that may begin a key; none may begin right behind it. -/
def content (m : Reader Token) : Lex Unit := do
  markCandidate
  setAllowsKey false
  push (← read m)

/-- The column from which on lines belong to the block around. -/
def margin : Lex Nat := return ((← get).indent + 1).toNat

/-- Reads a plain scalar. When it ends behind a line end, a key may follow. -/
def plainScalar : Lex Unit := do
  markCandidate
  setAllowsKey false
  let (text, isBroken) ← read (plain (← isInFlow) (← margin))
  push (.scalar true text)
  if isBroken then setAllowsKey true

/-- Reads a block scalar. -/
def blockScalar (isFolded : Bool) : Lex Unit := do
  dropCandidate
  setAllowsKey true
  push (.scalar false (← read (block isFolded (← margin))))

/-- Ends all blocks, and any key. -/
def closeAll : Lex Unit := do
  unroll (-1)
  dropCandidate
  setAllowsKey false

/-- Reads the start or the end of a document. -/
def documentMarker (t : Token) : Lex Unit := do
  closeAll
  read (Reader.skips 3)
  push t

/-- Ends the stream. -/
def streamEnd : Lex Unit := do
  modify fun s =>
    let c := s.cursor
    if c.column = 0 then s else { s with cursor := { c with line := c.line + 1, column := 0 } }
  closeAll
  push .streamEnd

/-- Whether a plain scalar can begin with two characters. -/
def beginsPlain (inFlow : Bool) (c d : Char) : Bool :=
  if c == '-' then !isBlank d
  else if c == '?' || c == ':' then !inFlow && !isVoid d
  else !(isVoid c || ",[]#&*!|>%@".toList.contains c || c == '\x7b' || c == '\x7d' || c == '\x27' ||
    c == '\x22' || c == '\x60')

/-- Reads the token that begins here, inside a document. -/
def token : Lex Unit := do
  let inFlow ← isInFlow
  let c ← peek 0
  let d ← peek 1
  if c == '[' then openBracket .openSequence
  else if c == '\x7b' then openBracket .openMapping
  else if c == ']' then closeBracket .closeSequence
  else if c == '\x7d' then closeBracket .closeMapping
  else if c == ',' then comma
  else if c == '-' && isVoid d then dash
  else if c == '?' && (inFlow || isVoid d) then question
  else if c == ':' && (inFlow || isVoid d) then colon
  else if c == '*' then content (Token.alias <$> name)
  else if c == '&' then content (Token.anchor <$> name)
  else if c == '!' then content tag
  else if c == '|' && !inFlow then blockScalar false
  else if c == '>' && !inFlow then blockScalar true
  else if c == '\x27' || c == '\x22' then content (Token.scalar false <$> quoted)
  else if beginsPlain inFlow c d then plainScalar
  else fail

/-! ### From token to token -/

/-- Skips white space and comments. Where a key may begin, a tab is no white space. A byte order mark
at the start of the window makes every line lose its first character. -/
def skipSpace : Nat → Lex Unit
  | 0 => fail
  | fuel + 1 => do
    read (Reader.need 1)
    let c := (← get).cursor
    if c.column = 0 && c.window == orderMark then read Reader.skip
    read (Reader.need 1)
    let tabs := (← isInFlow) || !(← get).allowsKey
    read (Reader.skipWhile fun c => c == ' ' || (tabs && c == '\t'))
    if (← peek 0) == '#' then read (Reader.skipComments c.bound)
    if isBreak (← peek 0) then
      read (Reader.need 2)
      read Reader.skipBreak
      if !(← isInFlow) then setAllowsKey true
      skipSpace fuel

/-- Reads the next token into the queue, with those that come before it. -/
def fetch : Lex Unit := do
  read (Reader.need 1)
  if !(← get).isStarted then
    modify fun s => { s with isStarted := true, allowsKey := true, candidates := #[{}] }
    push .streamStart
  else
    skipSpace (← get).cursor.bound
    unroll (← get).cursor.column
    read (Reader.need 4)
    let c := (← get).cursor
    if c.peek 0 == finis then streamEnd
    else if c.column = 0 && c.peek 0 == '%' then
      closeAll
      push (← read directive)
    else if c.isMarker '-' then documentMarker .documentStart
    else if c.isMarker '.' then documentMarker .documentEnd
    else
      token
      if !(c.peek 0 == '-' && isVoid (c.peek 1)) then read Reader.skipLineComment

/-- How many tokens are read ahead. -/
def lookahead : Nat := 2

/-- Whether the first token of the queue may still turn out to begin a key. -/
def isOpenHead : Lex Bool := do
  let s ← get
  match s.heads.lookup s.taken with
  | some place => isAlive place
  | none => return false

/-- Reads tokens until the first of the queue is known to be the next one. -/
def fill : Nat → Lex Unit
  | 0 => fail
  | fuel + 1 => do
    if lookahead < (← get).queue.length && !(← isOpenHead) then
      modify ({ · with isReady := true })
    else
      fetch
      fill fuel

/-- The next token, which stays in the queue. -/
def next : Lex Token := do
  let s ← get
  if !s.isReady then fill (s.cursor.bound + 8)
  match (← get).queue with
  | t :: _ => return t
  | [] => fail

/-- Takes the next token from the queue. -/
def pop : Lex Unit := modify fun s =>
  { s with queue := s.queue.tail, taken := s.taken + 1, isReady := false }

end Lex

/-- The state before the first token of a document. -/
def Lexer.ofText (t : Text) : Lexer := { cursor := .ofSource (.ofText t) }

end Preassembler.Config.Yaml
