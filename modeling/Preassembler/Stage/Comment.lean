import Preassembler.Line

/-! Comments.

A line comment runs from `//` to the end of its line, a block comment from `/*` to the next `*/`,
over as many lines as it takes. Text around a removed comment is not searched again, so it cannot
join to a new comment. -/
namespace Preassembler.Comment
open Text (byte)

/-- The first place where a comment opens. -/
inductive Opening where
  /-- No comment opens: the text is kept whole. -/
  | none (text : Text)
  /-- A line comment opens behind `kept`. -/
  | line (kept : Text)
  /-- A block comment opens behind `kept`, last byte first, and goes on with `rest`. -/
  | block (kept rest : Text)
  deriving DecidableEq, Repr

/-- Looks for a comment behind the bytes already `kept`, last one first. -/
def findOpening (kept : Text) : Text → Opening
  | a :: b :: r =>
    if a == byte '/' && b == byte '/' then .line kept.reverse
    else if a == byte '/' && b == byte '*' then .block kept r
    else findOpening (a :: kept) (b :: r)
  | [a] => .none (a :: kept).reverse
  | [] => .none kept.reverse

/-- The text behind the first `*/`. -/
def afterClosing? : Text → Option Text
  | a :: b :: r => if a == byte '*' && b == byte '/' then some r else afterClosing? (b :: r)
  | _ => none

theorem length_of_findOpening {kept t kept' rest : Text} (h : findOpening kept t = .block kept' rest) :
    rest.length + 2 ≤ t.length := by
  fun_induction findOpening kept t with
  | case1 => cases h
  | case2 kept a b r => cases h; simp
  | case3 kept a b r _ _ ih => have := ih h; simp only [List.length_cons] at this ⊢; omega
  | case4 => cases h
  | case5 => cases h

theorem length_of_afterClosing? {t rest : Text} (h : afterClosing? t = some rest) :
    rest.length + 2 ≤ t.length := by
  fun_induction afterClosing? t with
  | case1 a b r => cases h; simp
  | case2 a b r _ ih => have := ih h; simp only [List.length_cons] at this ⊢; omega
  | case3 => cases h

/-- Removes the comments of a text behind the bytes already `kept`, last one first, and tells
whether a block comment is left open. -/
def stripFrom (kept t : Text) : Text × Bool :=
  match _h : findOpening kept t with
  | .none text => (text, false)
  | .line text => (text, false)
  | .block kept' rest =>
    match _h' : afterClosing? rest with
    | none => (kept'.reverse, true)
    | some rest' => stripFrom kept' rest'
termination_by t.length
decreasing_by
  have := length_of_findOpening _h
  have := length_of_afterClosing? _h'
  omega

/-- Removes the comments of a line that begins inside a block comment or outside of one. -/
def strip (inside : Bool) (t : Text) : Text × Bool :=
  if inside then
    match afterClosing? t with
    | none => ([], true)
    | some r => stripFrom [] r
  else stripFrom [] t

/-- Takes a line, given the line that left a block comment open: the line that now does, and the
line without its comments. -/
def step (opened : Option Line) (l : Line) : Option Line × Line :=
  let (text, inside) := strip opened.isSome l.text
  (if inside then some (opened.getD l) else none, { l with text })

/-- At the end of the input an open block comment is an error when the rules are strict. -/
def flush (strict : Bool) : Option Line → Except LineError Unit
  | some l => if strict then .error ⟨l, .openComment⟩ else .ok ()
  | none => .ok ()

end Preassembler.Comment
