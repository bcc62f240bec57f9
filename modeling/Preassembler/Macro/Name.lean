import Preassembler.Text.Basic

/-! Names, and the argument lists that follow them.

A name is a maximal run of name bytes. `lexemes` cuts a text into names and the gaps between them
without losing a byte (`text_lexemes`); `tokens` gives the names with their places. `callAt?`
recognises an argument list: blanks, an opening parenthesis, at least one byte, and everything up to
the first closing parenthesis. -/
namespace Preassembler.Macro
open Text (byte isLetter isDigit)

/-- The bytes names are made of: ASCII letters, digits, `_`, `$` and `.`. -/
def isNameByte (b : UInt8) : Bool :=
  isLetter b || isDigit b || b == byte '_' || b == byte '$' || b == byte '.'

/-- The bytes that separate arguments: the six ASCII white-space characters. -/
def isGapByte (b : UInt8) : Bool := b == 0x20 || (0x09 ≤ b && b ≤ 0x0D)

/-- A name is not empty and holds name bytes only. -/
def isName (t : Text) : Bool := !t.isEmpty && t.all isNameByte

theorem length_dropWhile_le (p : UInt8 → Bool) (t : Text) : (t.dropWhile p).length ≤ t.length :=
  (List.dropWhile_sublist p).length_le

/-! ### Names in a text -/

/-- A piece of text that is either one name or holds none. -/
inductive Lexeme where
  | name (text : Text)
  | gap (text : Text)
  deriving DecidableEq, Repr

def Lexeme.text : Lexeme → Text
  | name t => t
  | gap t => t

/-- The lexemes of a text behind those already `seen`, newest first. -/
def lexemesFrom (seen : List Lexeme) : Text → List Lexeme
  | [] => seen.reverse
  | b :: r =>
    if isNameByte b then
      lexemesFrom (.name (b :: r.takeWhile isNameByte) :: seen) (r.dropWhile isNameByte)
    else
      lexemesFrom (.gap (b :: r.takeWhile (!isNameByte ·)) :: seen) (r.dropWhile (!isNameByte ·))
termination_by t => t.length
decreasing_by all_goals exact Nat.lt_succ_of_le (length_dropWhile_le _ r)

/-- The names of a text and the gaps around them, in order. -/
def lexemes (t : Text) : List Lexeme := lexemesFrom [] t

theorem text_lexemesFrom (seen : List Lexeme) (t : Text) :
    (lexemesFrom seen t).flatMap Lexeme.text = seen.reverse.flatMap Lexeme.text ++ t := by
  fun_induction lexemesFrom seen t with
  | case1 => simp
  | case2 seen b r h ih => simp [ih, Lexeme.text]
  | case3 seen b r h ih => simp [ih, Lexeme.text]

/-- The texts of the lexemes are the text. -/
theorem text_lexemes (t : Text) : (lexemes t).flatMap Lexeme.text = t := by
  simp [lexemes, text_lexemesFrom]

/-- A name and the number of bytes before it. -/
structure Token where
  start : Nat
  name : Text
  deriving DecidableEq, Repr

/-- The number of bytes up to the end of a token. -/
def Token.stop (k : Token) : Nat := k.start + k.name.length

/-- Adds a lexeme that begins at the given place to the tokens found so far, newest first. -/
def Token.note : Nat × List Token → Lexeme → Nat × List Token
  | (place, found), .name t => (place + t.length, ⟨place, t⟩ :: found)
  | (place, found), .gap t => (place + t.length, found)

/-- The names of a text with their places, in order. -/
def tokens (t : Text) : List Token := ((lexemes t).foldl Token.note (0, [])).2.reverse

/-! ### Argument lists -/

/-- An argument list at the front of a text. -/
structure Call where
  /-- The arguments, in order. -/
  args : List Text
  /-- The number of bytes up to and with the closing parenthesis. -/
  size : Nat
  /-- The text after the closing parenthesis. -/
  rest : Text
  deriving DecidableEq, Repr

/-- The arguments written in a text: its maximal runs of bytes other than blanks. -/
def arguments (t : Text) : List Text := Text.wordsBy isGapByte t

/-- The argument list a text begins with, after any blanks. -/
def callAt? (t : Text) : Option Call :=
  match t.dropWhile isGapByte with
  | [] => none
  | b :: r =>
    if b == byte '(' then
      let inner := r.takeWhile (· != byte ')')
      match r.dropWhile (· != byte ')') with
      | [] => none
      | _ :: rest =>
        if inner.isEmpty then none
        else some
          { args := arguments inner
            size := (t.takeWhile isGapByte).length + inner.length + 2
            rest }
    else none

/-- A call and what follows it make up the text. -/
theorem size_add_length_of_callAt? {t : Text} {c : Call} (h : callAt? t = some c) :
    c.size + c.rest.length = t.length := by
  have ht := congrArg List.length (List.takeWhile_append_dropWhile (p := isGapByte) (l := t))
  unfold callAt? at h
  split at h
  · cases h
  · rename_i b r hr
    have hi := congrArg List.length
      (List.takeWhile_append_dropWhile (p := (· != byte ')')) (l := r))
    split at h
    · dsimp only at h
      split at h
      · cases h
      · rename_i hd
        split at h
        · cases h
        · cases h
          simp only [hr, hd, List.length_append, List.length_cons] at ht hi ⊢
          omega
    · cases h

end Preassembler.Macro
