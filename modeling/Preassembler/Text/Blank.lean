import Preassembler.Text.Basic

/-! White space at the ends of a text.

The white-space characters are those with the Unicode property White_Space, given by their UTF-8
encodings. Trimming works on bytes: no encoding begins or ends another one, so the character at
either end is found by comparing bytes. -/
namespace Preassembler.Text

/-- The encodings of the white-space characters. -/
def blanks : List Text :=
  [[0x20], [0x09], [0x0A], [0x0B], [0x0C], [0x0D], [0xC2, 0x85], [0xC2, 0xA0], [0xE1, 0x9A, 0x80],
    [0xE2, 0x80, 0x80], [0xE2, 0x80, 0x81], [0xE2, 0x80, 0x82], [0xE2, 0x80, 0x83],
    [0xE2, 0x80, 0x84], [0xE2, 0x80, 0x85], [0xE2, 0x80, 0x86], [0xE2, 0x80, 0x87],
    [0xE2, 0x80, 0x88], [0xE2, 0x80, 0x89], [0xE2, 0x80, 0x8A], [0xE2, 0x80, 0xA8],
    [0xE2, 0x80, 0xA9], [0xE2, 0x80, 0xAF], [0xE2, 0x81, 0x9F], [0xE3, 0x80, 0x80]]

/-- The code points with the property White_Space. -/
def isBlankPoint (c : Nat) : Bool :=
  (0x09 ≤ c && c ≤ 0x0D) || c == 0x20 || c == 0x85 || c == 0xA0 || c == 0x1680 ||
    (0x2000 ≤ c && c ≤ 0x200A) || c == 0x2028 || c == 0x2029 || c == 0x202F || c == 0x205F ||
    c == 0x3000

/-- The text after the first of `marks` that it begins with. -/
def afterMark? (marks : List Text) (t : Text) : Option Text :=
  marks.findSome? fun m => if m.isEmpty then none else after? m t

theorem length_lt_of_afterMark? {marks : List Text} {t r : Text} (h : afterMark? marks t = some r) :
    r.length < t.length := by
  obtain ⟨m, -, hm⟩ := List.exists_of_findSome?_eq_some h
  split at hm
  · cases hm
  · rename_i hne
    obtain rfl := after?_eq_some_iff.1 hm
    cases m with
    | nil => simp at hne
    | cons a m =>
      simp only [List.cons_append, List.length_cons, List.length_append]
      omega

/-- The text without the marks at its front. -/
def dropMarks (marks : List Text) (t : Text) : Text :=
  match _h : afterMark? marks t with
  | some r => dropMarks marks r
  | none => t
termination_by t.length
decreasing_by exact length_lt_of_afterMark? _h

/-- The text without white space at its front. -/
def trimLeft (t : Text) : Text := dropMarks blanks t

/-- The text without white space at its end. -/
def trimRight (t : Text) : Text := (dropMarks (blanks.map List.reverse) t.reverse).reverse

/-- The text without white space at either end. -/
def trim (t : Text) : Text := trimRight (trimLeft t)

end Preassembler.Text
