import Preassembler.Proofs.Listing.LineEndings
import Preassembler.Proofs.Pipeline.Invariants

/-! White space around and between source lines.

A source can be spread out: blank lines go between its lines, and white space around each of them.
The first stage takes all of it away again, before a line is joined with another one. So blank lines
neither end a continuation nor go on with it, and what the stages behind get are the same lines
under other numbers (`Pipeline.present_spread`). Stages do not look at numbers.

Main statement: spreading a source out changes no text of the listing and no error, and numbers
become those of the same lines where they stand now (`Pipeline.process_spread`). -/
namespace Preassembler

/-! ### Sources that are spread out -/

/-- A source line, the lines put above it and the texts put in front of it and behind it. -/
structure SpreadLine where
  above : List Text
  before : Text
  line : Text
  behind : Text

namespace SpreadLine

/-- Only white space is put around the line. -/
structure Blank (l : SpreadLine) : Prop where
  above : ∀ t ∈ l.above, t.IsBlank
  before : l.before.IsBlank
  behind : l.behind.IsBlank

def texts (l : SpreadLine) : List Text := l.above ++ [l.before ++ (l.line ++ l.behind)]

/-- The lines of a source that is spread out, with more lines below the last one. -/
def spread (lines : List SpreadLine) (below : List Text) : List Text :=
  lines.flatMap texts ++ below

/-- The lines that are spread out. -/
def source (lines : List SpreadLine) : List Text := lines.map line

/-- The number of lines put above any of these. -/
def added (lines : List SpreadLine) : Nat := (lines.map fun l => l.above.length).sum

/-- The number of a source line where it stands when the source is spread out. -/
def newNumber (lines : List SpreadLine) (no : Int) : Int := no + added (lines.take no.toNat)

theorem Blank.trim {l : SpreadLine} (h : l.Blank) :
    (l.before ++ (l.line ++ l.behind)).trim = l.line.trim := by
  rw [Text.trim_of_isBlank_append h.before, Text.trim_append_of_isBlank h.behind]

theorem added_cons (l : SpreadLine) (rest : List SpreadLine) :
    added (l :: rest) = l.above.length + added rest := rfl

end SpreadLine

namespace Pipeline
open Preassembler.Flow (numberedFrom numberedFrom_append numberedFrom_zero)
open SpreadLine (spread source newNumber added)

/-- Of blank lines nothing is left. -/
theorem present_of_isBlank {texts : List Text} (h : ∀ t ∈ texts, t.IsBlank) (n : Nat) :
    (numberedFrom n texts).flatMap Stage.present = [] := by
  rw [List.flatMap_eq_nil_iff]
  intro l hl
  have hblank : l.text.trim = [] := h l.text (Flow.text_of_mem_numberedFrom hl)
  rw [Stage.present, hblank]
  rfl

theorem present_spread {lines : List SpreadLine} {below : List Text} (hlines : ∀ l ∈ lines, l.Blank)
    (hbelow : ∀ t ∈ below, t.IsBlank) {f : Int → Int} {n m : Nat}
    (hf : ∀ k < lines.length, f (n + k + 1) = m + k + 1 + added (lines.take (k + 1))) :
    (numberedFrom m (spread lines below)).flatMap Stage.present =
      ((numberedFrom n (source lines)).map (.renumber f)).flatMap Stage.present := by
  induction lines generalizing n m with
  | nil => exact present_of_isBlank hbelow m
  | cons l rest ih =>
    obtain ⟨hl, hrest⟩ := List.forall_mem_cons.1 hlines
    have hfirst : f (n + 1) = (m + l.above.length : Nat) + 1 := by
      have hno := hf 0 (Nat.zero_lt_succ _)
      rw [List.take_succ_cons, List.take_zero, SpreadLine.added_cons] at hno
      simpa [SpreadLine.added, add_right_comm] using hno
    have hlater : ∀ k < rest.length, f ((n + 1 : Nat) + k + 1) =
        (m + l.above.length + 1 : Nat) + k + 1 + added (rest.take (k + 1)) := by
      intro k hk
      have hno := hf (k + 1) (Nat.succ_lt_succ hk)
      rw [List.take_succ_cons, SpreadLine.added_cons] at hno
      push_cast at hno ⊢
      rw [show (n : Int) + 1 + k + 1 = n + (k + 1) + 1 by omega, hno]
      omega
    have hline : Stage.present ⟨(m + l.above.length : Nat) + 1, l.before ++ (l.line ++ l.behind)⟩ =
        Stage.present (Line.renumber f ⟨n + 1, l.line⟩) := by
      rw [Stage.present, Stage.present, Line.renumber, hl.trim, hfirst]
    have hspread : spread (l :: rest) below =
        l.above ++ ((l.before ++ (l.line ++ l.behind)) :: spread rest below) := by
      simp [spread, SpreadLine.texts]
    have hsource : source (l :: rest) = l.line :: source rest := rfl
    rw [hspread, hsource, numberedFrom_append, List.flatMap_append, present_of_isBlank hl.above,
      List.nil_append, numberedFrom, List.flatMap_cons, hline, ih hrest hlater, numberedFrom,
      List.map_cons, List.flatMap_cons]

theorem emission_spread (p : Pipeline) {lines : List SpreadLine} {below : List Text}
    (hlines : ∀ l ∈ lines, l.Blank) (hbelow : ∀ t ∈ below, t.IsBlank) :
    p.emission (spread lines below) =
      (p.emission (source lines)).renumber (newNumber lines) id := by
  have hnumber : ∀ k < lines.length, newNumber lines ((0 : Nat) + k + 1) =
      (0 : Nat) + k + 1 + added (lines.take (k + 1)) := by
    intro k _
    rw [newNumber, show ((0 : Nat) + (k : Int) + 1).toNat = k + 1 by omega]
  have hpresent := present_spread hlines hbelow hnumber
  rw [numberedFrom_zero, numberedFrom_zero] at hpresent
  rw [emission, emission, ← Chain.whole_renumber, renumber_stages, whole_stages, whole_stages,
    hpresent]

/-- **White space does not matter.** Blank lines between the lines of a source, wherever they go,
and white space around the lines change no text of the listing; an error has the same cause and
quotes the same line. Numbers become those of the same lines where they stand now. -/
theorem process_spread (p : Pipeline) {lines : List SpreadLine} {below : List Text}
    (hlines : ∀ l ∈ lines, l.Blank) (hbelow : ∀ t ∈ below, t.IsBlank) :
    p.process (spread lines below) =
      renumberAnswer (newNumber lines) (p.process (source lines)) := by
  rw [process_eq_answer, process_eq_answer, emission_spread p hlines hbelow,
    Emission.answer_renumber]

open Text (ascii) in
/-- White space between a label and its instruction, inside a continuation and inside a comment; one
of the characters takes two bytes. -/
theorem process_spread_everywhere :
    let lines : List SpreadLine :=
      [⟨[], ascii "\t", ascii "go:", []⟩, ⟨[[], [0xC2, 0xA0]], [], ascii "lw 0 \\", ascii " "⟩,
        ⟨[ascii " \r"], [0xC2, 0xA0], ascii "1 one /* x", []⟩, ⟨[[]], [], ascii "y */", ascii "\n"⟩]
    (∀ l ∈ lines, l.Blank) ∧
      process ⟨{}, .new 64⟩ (source lines) = .ok [⟨2, ascii "go     lw 0 1 one"⟩] ∧
      process ⟨{}, .new 64⟩ (spread lines [ascii "\t"]) = .ok [⟨4, ascii "go     lw 0 1 one"⟩] := by
  intro lines
  have hlines : ∀ l ∈ lines, l.Blank := by
    have hall : ∀ l ∈ lines, (∀ t ∈ l.above, t.IsBlank) ∧ l.before.IsBlank ∧ l.behind.IsBlank := by
      decide +kernel
    exact fun l hl => ⟨(hall l hl).1, (hall l hl).2.1, (hall l hl).2.2⟩
  have hsource : process ⟨{}, .new 64⟩ (source lines) =
      .ok [⟨2, ascii "go     lw 0 1 one"⟩] := by
    cbv
  have hbelow : ∀ t ∈ [ascii "\t"], t.IsBlank := by decide +kernel
  have hspread := process_spread ⟨{}, .new 64⟩ hlines hbelow
  rw [hsource] at hspread
  exact ⟨hlines, hsource, hspread⟩

end Pipeline

end Preassembler
