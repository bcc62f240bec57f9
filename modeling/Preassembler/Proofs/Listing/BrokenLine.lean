import Mathlib
import Preassembler.Proofs.Listing.Instruction
import Preassembler.Proofs.Listing.LogicalLine
import Preassembler.Proofs.Pipeline.Renumbering

/-! Lines broken in two.

A source line can be broken in two with a backslash behind its first part. Trimming sees two lines
then: it takes the white space in front of the first part and behind the second one, as it does for
the line in one piece, unless a white-space character was cut in two (`Text.trim_append`). Joining
puts the parts together again, whether or not a line is already held, and whether or not the second
part goes on itself (`Continuation.resume_broken`). What is left of the break is that the lines
below it have other numbers.

Main statement: breaking a line changes no text of the listing and no error, and moves numbers below
the break by one (`Pipeline.process_broken_line`). -/
namespace Preassembler
open Text (byte)

/-! ### Cuts between code points -/

namespace Text

/-- Whether a cut between `a` and `b` falls inside an encoded code point. -/
def CutsPoint (a b : Text) : Prop :=
  ∃ x y c, x ≠ [] ∧ y ≠ [] ∧ x <:+ a ∧ y <+: b ∧ symbols (x ++ y) = [.point c (x ++ y)]

theorem symbols_of_next {a : UInt8} {r : Text} {s : Symbol} (h : Utf8.next a r = (s, [])) :
    symbols (a :: r) = [s] := by
  rw [symbols, Utf8.symbolsFrom, h, Utf8.symbolsFrom]
  rfl

/-- White space is made of whole code points. -/
theorem symbols_of_blank {m : Text} (hm : m ∈ blanks) : ∃ c, symbols m = [.point c m] := by
  have hall : ∀ m ∈ blanks, ∃ a ∈ m.head?, ((Utf8.next a m.tail).1.code?).isSome ∧
      (Utf8.next a m.tail).2 = [] := by decide
  obtain ⟨a, ha, hcode, hrest⟩ := hall m hm
  obtain ⟨r, rfl⟩ := List.head?_eq_some_iff.1 ha
  have hbytes := Utf8.next_bytes a r
  cases hs : (Utf8.next a r).1 with
  | stray b =>
    rw [List.tail_cons, hs] at hcode
    cases hcode
  | point c bytes =>
    rw [hs, show (Utf8.next a r).2 = [] from hrest, List.append_nil] at hbytes
    have hbytes : bytes = a :: r := hbytes
    refine ⟨c, symbols_of_next (Prod.ext ?_ hrest)⟩
    rw [hs, hbytes]

theorem next_of_symbols {a : UInt8} {r : Text} {s : Symbol} (h : symbols (a :: r) = [s]) :
    (Utf8.next a r).1 = s := by
  have hfront := Utf8.symbolsFrom_append [] [(Utf8.next a r).1] (Utf8.next a r).2
  rw [symbols, Utf8.symbolsFrom] at h
  exact (List.cons.inj (hfront.symm.trans h)).1

/-- Behind its first byte a code point has nothing but bytes that continue it. -/
theorem isTail_of_point {a : UInt8} {r bytes : Text} {c : Nat}
    (h : (Utf8.next a r).1 = .point c (a :: bytes)) : ∀ b ∈ bytes, Utf8.isTail b = true := by
  unfold Utf8.next at h
  repeat' split at h
  all_goals grind [Utf8.opensTwo, Utf8.opensThree, Utf8.opensFour]

/-- A cut in front of a byte that continues no code point falls inside none. -/
theorem not_cutsPoint_of_head {a b : Text} (h : ∀ c ∈ b.head?, Utf8.isTail c = false) :
    ¬ CutsPoint a b := by
  rintro ⟨x, y, c, hx, hy, -, hfront, hsymbols⟩
  obtain ⟨d, x, rfl⟩ := List.exists_cons_of_ne_nil hx
  obtain ⟨e, y, rfl⟩ := List.exists_cons_of_ne_nil hy
  obtain ⟨r, rfl⟩ := hfront
  have htail : Utf8.isTail e = true := isTail_of_point (next_of_symbols hsymbols) e (by simp)
  rw [h e rfl] at htail
  cases htail

theorem uncut_of_not_cutsPoint {a b : Text} (h : ¬ CutsPoint a b) : Uncut blanks a b := by
  intro x y hmem hx hy hback hfront
  obtain ⟨c, hc⟩ := symbols_of_blank hmem
  exact h ⟨x, y, c, hx, hy, hback, hfront, hc⟩

end Text

/-! ### Joining the parts -/

namespace Continuation

theorem dropLast?_append (b : UInt8) (x : Text) {y : Text} (hy : y ≠ []) :
    Text.dropLast? b (x ++ y) = (Text.dropLast? b y).map (x ++ ·) := by
  obtain ⟨u, c, rfl⟩ := (List.eq_nil_or_concat y).resolve_left hy
  simp only [Text.dropLast?, List.concat_eq_append, List.reverse_append, List.reverse_cons,
    List.reverse_nil, List.nil_append, List.cons_append]
  split <;> simp

theorem goesOn_append (x : Text) {y : Text} (hy : y ≠ []) : goesOn (x ++ y) = goesOn y := by
  rw [goesOn, dropLast?_append _ x hy, Option.isSome_map, goesOn]

theorem piece_append (x : Text) {y : Text} (hy : y ≠ []) : piece (x ++ y) = x ++ piece y := by
  rw [piece, dropLast?_append _ x hy, piece]
  cases Text.dropLast? (byte '\\') y <;> rfl

theorem goesOn_backslash (x : Text) : goesOn (x ++ [byte '\\']) = true :=
  Option.isSome_iff_exists.2 ⟨x, Text.dropLast?_eq_some_iff.2 rfl⟩

theorem piece_backslash (x : Text) : piece (x ++ [byte '\\']) = x := by
  rw [piece, Text.dropLast?_eq_some_iff.2 rfl, Option.getD_some]

/-- What becomes of an unfinished line depends on its number and its text only. -/
theorem resume_congr {h h' : Held} (hno : h.no = h'.no) (htext : h.text = h'.text)
    (r : List Group) : resume (some h) r = resume (some h') r := by
  cases r with
  | nil => exact release_congr hno htext
  | cons g r =>
    refine congrArg (· ++ r.flatMap Group.joined) (release_congr hno ?_)
    rw [text_add, text_add, htext]

/-- **A line in two parts is joined like the line in one piece.** -/
theorem resume_broken (held : Option Held) (front back : List Line) (no no' : Int) (x : Text)
    {y : Text} (hy : y ≠ []) :
    resume held (groups (front ++ ⟨no, x ++ [byte '\\']⟩ :: ⟨no', y⟩ :: back)) =
      resume held (groups (front ++ ⟨no, x ++ y⟩ :: back)) := by
  induction front generalizing held with
  | cons l front ih =>
    rw [List.cons_append, List.cons_append, resume_cons, resume_cons, ih]
  | nil =>
    rw [List.nil_append, List.nil_append, resume_cons, step_of_goesOn held (goesOn_backslash x),
      piece_backslash, List.nil_append, resume_cons, resume_cons held]
    cases hgo : goesOn y with
    | true =>
      have hgo' : goesOn (x ++ y) = true := (goesOn_append x hy).trans hgo
      rw [step_of_goesOn _ hgo, step_of_goesOn held hgo', piece_append x hy]
      dsimp only [Option.getD_some, List.nil_append]
      apply resume_congr
      · rfl
      · simp only [text_add, List.append_assoc]
    | false =>
      have hgo' : goesOn (x ++ y) = false := (goesOn_append x hy).trans hgo
      rw [step_of_ends _ hgo, step_of_ends held hgo', piece_append x hy]
      refine congrArg (· ++ resume none (groups back)) ?_
      cases held with
      | some h =>
        dsimp only [Option.getD_some]
        apply release_congr
        · rfl
        · simp only [text_add, List.append_assoc, piece_of_ends hgo]
      | none =>
        have htext : (((Held.mk no []).add x).add y).text = x ++ y := by
          simp [Held.add, Held.text]
        dsimp only [Option.getD_none]
        rw [piece_of_ends hgo, Held.release, htext, if_neg (by simp [hy])]
        rfl

end Continuation

/-! ### Trimming the parts -/

theorem Text.trim_backslash (a : Text) : (a ++ [byte '\\']).trim = a.trimLeft ++ [byte '\\'] := by
  have hapart : ∀ m ∈ Text.blanks, byte '\\' ∉ m := by decide
  have htrimmed : Trimmed [byte '\\'] := trimmed_of_ends hapart hapart (r := []) (u := []) rfl rfl
  have hcut : Uncut blanks a [byte '\\'] := by
    intro x y hmem _ hy _ hfront
    obtain ⟨r, rfl, -⟩ := (List.prefix_cons_iff.1 hfront).resolve_left hy
    exact hapart _ hmem (List.mem_append_right x List.mem_cons_self)
  rw [trim_append hcut fun m hm => (htrimmed m hm).1, trim_eq_self htrimmed]
  rw [trim_eq_self htrimmed]
  exact List.cons_ne_nil _ _

/-! ### Numbers below a break -/

/-- The number of a line when a line is broken in two that stands behind `before` others. -/
def numberAfterBreak (before : Nat) (no : Int) : Int := if before + 1 < no then no + 1 else no

namespace Flow

theorem renumber_above {before count : Nat} (texts : List Text)
    (h : count + texts.length ≤ before + 1) :
    (numberedFrom count texts).map (.renumber (numberAfterBreak before)) =
      numberedFrom count texts := by
  induction texts generalizing count with
  | nil => rfl
  | cons t rest ih =>
    rw [List.length_cons] at h
    have hno : numberAfterBreak before ((count : Int) + 1) = count + 1 := if_neg (by omega)
    rw [numberedFrom, List.map_cons, ih (by omega), Line.renumber, hno]

theorem renumber_below {before count : Nat} {texts : List Text} (h : before + 1 ≤ count) :
    (numberedFrom count texts).map (.renumber (numberAfterBreak before)) =
      numberedFrom (count + 1) texts := by
  induction texts generalizing count with
  | nil => rfl
  | cons t rest ih =>
    have hno : numberAfterBreak before ((count : Int) + 1) = (count + 1 : Nat) + 1 :=
      if_pos (by omega)
    rw [numberedFrom, List.map_cons, ih (by omega), Line.renumber, hno, numberedFrom]

end Flow

namespace Pipeline
open Preassembler.Flow (numberedFrom numberedFrom_append numberedFrom_zero)

theorem renumber_numbered (pre : List Text) (t : Text) (post : List Text) :
    (numbered (pre ++ t :: post)).map (.renumber (numberAfterBreak pre.length)) =
      numbered pre ++ ⟨pre.length + 1, t⟩ :: numberedFrom (pre.length + 2) post := by
  have hlength : 0 + (pre ++ [t]).length ≤ pre.length + 1 := by simp
  rw [← numberedFrom_zero, ← numberedFrom_zero, List.append_cons, numberedFrom_append,
    List.map_append, Flow.renumber_above (pre ++ [t]) hlength, Flow.renumber_below (by simp),
    numberedFrom_append, List.append_assoc]
  simp [numberedFrom]

theorem numbered_broken (pre : List Text) (t u : Text) (post : List Text) :
    numbered (pre ++ t :: u :: post) =
      numbered pre ++ ⟨pre.length + 1, t⟩ :: ⟨pre.length + 2, u⟩ ::
        numberedFrom (pre.length + 2) post := by
  rw [← numberedFrom_zero, ← numberedFrom_zero, numberedFrom_append]
  simp [numberedFrom, add_assoc]

theorem emission_broken_line (p : Pipeline) (pre post : List Text) {a b : Text}
    (hcut : ¬ a.CutsPoint b) (hblank : b.trim ≠ []) (hfront : ∀ m ∈ Text.blanks, ¬ m <+: b) :
    p.emission (pre ++ [a ++ [byte '\\'], b] ++ post) =
      (p.emission (pre ++ [a ++ b] ++ post)).renumber (numberAfterBreak pre.length) id := by
  have hbroken := Stage.present_of_ne_nil (pre.length + 1) (Text.trim_backslash a) (by simp)
  have hrest := Stage.present_of_ne_nil (pre.length + 2) (t := b) rfl hblank
  have hwhole := Stage.present_of_ne_nil (pre.length + 1)
    (Text.trim_append (Text.uncut_of_not_cutsPoint hcut) hfront hblank) (by simp [hblank])
  have hlines : (pre ++ [a ++ [byte '\\'], b] ++ post : List Text) =
      pre ++ (a ++ [byte '\\']) :: b :: post := by simp
  have hlines' : (pre ++ [a ++ b] ++ post : List Text) = pre ++ (a ++ b) :: post := by simp
  rw [emission, emission, ← Chain.whole_renumber, renumber_stages, hlines, hlines',
    renumber_numbered, numbered_broken, whole_stages, whole_stages]
  simp only [List.flatMap_append, List.flatMap_cons, hbroken, hrest, hwhole, List.singleton_append]
  exact congrArg _ (Continuation.resume_broken none _ _ _ _ _ hblank)

/-- **A line broken in two is the line in one piece.** Wherever the line stands and whatever it
holds, the lines of the listing have the same texts, and an error has the same cause and quotes the
same line; numbers below the break move by one. -/
theorem process_broken_line (p : Pipeline) (pre post : List Text) {a b : Text}
    (hcut : ¬ a.CutsPoint b) (hblank : b.trim ≠ []) (hfront : ∀ m ∈ Text.blanks, ¬ m <+: b) :
    p.process (pre ++ [a ++ [byte '\\'], b] ++ post) =
      renumberAnswer (numberAfterBreak pre.length) (p.process (pre ++ [a ++ b] ++ post)) := by
  rw [process_eq_answer, process_eq_answer, emission_broken_line p pre post hcut hblank hfront,
    Emission.answer_renumber]

open Text (ascii) in
/-- A directive broken inside the name that it defines. -/
theorem process_broken_line_directive :
    process ⟨{}, .new 64⟩ [ascii "#define on\\", ascii "e 1", ascii "lw r1 0 one"] =
      .ok [⟨3, ascii "       lw 1 0 1"⟩] := by
  have hwhole : process ⟨{}, .new 64⟩ [ascii "#define one 1", ascii "lw r1 0 one"] =
      .ok [⟨2, ascii "       lw 1 0 1"⟩] := by
    cbv
  have hhead : ∀ c ∈ (ascii "e 1").head?, Text.Utf8.isTail c = false := by
    intro c hc
    cases hc
    decide
  have hbroken := process_broken_line ⟨{}, .new 64⟩ [] [ascii "lw r1 0 one"]
    (a := ascii "#define on") (b := ascii "e 1") (Text.not_cutsPoint_of_head hhead)
    (by cbv; exact List.cons_ne_nil _ _) (by decide)
  rw [show ([] ++ [ascii "#define on" ++ ascii "e 1"] ++ [ascii "lw r1 0 one"] : List Text) =
    [ascii "#define one 1", ascii "lw r1 0 one"] by decide, hwhole] at hbroken
  exact hbroken

end Pipeline

end Preassembler
