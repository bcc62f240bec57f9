import Preassembler.Proofs.Pipeline.Cascade

/-! Logical lines.

The first two stages of a pipeline take away white space and blank lines and join what continuations
hold together. `Continuation.groups` says which source lines make up a logical line: lines that go
on with the next one, and the line they go on to. What the stages behind get is one line for each
group, with the text of all its parts and the number of its first one.

Main statement: a pipeline makes of source lines what its later stages make of the logical lines
(`whole_stages`). -/
namespace Preassembler
open Text (byte)

/-! ### Groups of lines -/

namespace Continuation

/-- Whether a line goes on with the next one. -/
def goesOn (t : Text) : Bool := (Text.dropLast? (byte '\\') t).isSome

/-- What a line adds to a logical line: its text without the backslash that makes it go on. -/
def piece (t : Text) : Text := (Text.dropLast? (byte '\\') t).getD t

/-- The lines that make up one logical line. -/
structure Group where
  first : Line
  rest : List Line

namespace Group

def lines (g : Group) : List Line := g.first :: g.rest

/-- The pieces of all lines, in order. -/
def text (g : Group) : Text := g.lines.flatMap fun l => piece l.text

/-- The logical line, with the number of its first part. -/
def line (g : Group) : Line := ⟨g.first.no, g.text⟩

/-- What is given out for a group. Lines that go on and leave no text give nothing. -/
def joined (g : Group) : List Line := if goesOn g.first.text && g.text.isEmpty then [] else [g.line]

end Group

/-- Puts a line that goes on in front of the group that follows it. -/
def attach (l : Line) : List Group → List Group
  | [] => [⟨l, []⟩]
  | g :: r => ⟨l, g.lines⟩ :: r

/-- Cuts lines into groups: each ends with the first line that does not go on. -/
def groups : List Line → List Group
  | [] => []
  | l :: rest => if goesOn l.text then attach l (groups rest) else ⟨l, []⟩ :: groups rest

theorem goesOn_eq_false_iff {t : Text} :
    goesOn t = false ↔ Text.dropLast? (byte '\\') t = none := by
  rw [goesOn, Option.isSome_eq_false_iff, Option.isNone_iff_eq_none]

theorem piece_of_ends {t : Text} (h : goesOn t = false) : piece t = t := by
  rw [piece, goesOn_eq_false_iff.1 h, Option.getD_none]

/-- A line that goes on is added to the unfinished line, or begins one. -/
theorem step_of_goesOn (held : Option Held) {l : Line} (h : goesOn l.text = true) :
    step held l = (some ((held.getD ⟨l.no, []⟩).add (piece l.text)), []) := by
  obtain ⟨part, hpart⟩ := Option.isSome_iff_exists.1 h
  cases held with
  | none => simp only [step, piece, hpart, Option.getD_some, Option.getD_none, Held.add]
  | some held => simp only [step, piece, hpart, Option.getD_some]

/-- Any other line is given out, behind the unfinished line if there is one. -/
theorem step_of_ends (held : Option Held) {l : Line} (h : goesOn l.text = false) :
    step held l = (none, match held with
      | none => [l]
      | some h => (h.add (piece l.text)).release) := by
  rw [piece_of_ends h]
  cases held <;> simp only [step, goesOn_eq_false_iff.1 h]

theorem groups_of_goesOn {l : Line} (h : goesOn l.text = true) (rest : List Line) :
    groups (l :: rest) = attach l (groups rest) := if_pos h

theorem groups_of_ends {l : Line} (h : goesOn l.text = false) (rest : List Line) :
    groups (l :: rest) = ⟨l, []⟩ :: groups rest := if_neg (by simp [h])

theorem groups_ne_nil (l : Line) (rest : List Line) : groups (l :: rest) ≠ [] := by
  unfold groups
  split
  · cases groups rest <;> exact List.cons_ne_nil _ _
  · exact List.cons_ne_nil _ _

/-- Groups are cut out of the lines one behind the other. -/
theorem flatMap_groups (lines : List Line) : (groups lines).flatMap Group.lines = lines := by
  induction lines with
  | nil => rfl
  | cons l rest ih =>
    cases hl : goesOn l.text with
    | false => rw [groups_of_ends hl, List.flatMap_cons, ih]; rfl
    | true =>
      rw [groups_of_goesOn hl]
      cases hr : groups rest with
      | nil => simpa [attach, hr, Group.lines] using ih
      | cons g r => simpa [attach, hr, Group.lines] using ih

/-- Behind a line that ends the groups begin anew. -/
theorem groups_append {front : List Line} (h : ∀ l ∈ front.getLast?, goesOn l.text = false)
    (back : List Line) : groups (front ++ back) = groups front ++ groups back := by
  induction front with
  | nil => rfl
  | cons l front ih =>
    cases hl : goesOn l.text with
    | false =>
      have hrest : groups (front ++ back) = groups front ++ groups back := by
        cases front with
        | nil => rfl
        | cons l' front => exact ih (by simpa using h)
      rw [List.cons_append, groups_of_ends hl, groups_of_ends hl, hrest]
      rfl
    | true =>
      -- A line that goes on is not the last one, so there is a group it belongs to.
      obtain ⟨l', rest, rfl⟩ : ∃ l' rest, front = l' :: rest := by
        cases front with
        | nil => simp [hl] at h
        | cons l' rest => exact ⟨l', rest, rfl⟩
      rw [List.cons_append, groups_of_goesOn hl, groups_of_goesOn hl, ih (by simpa using h)]
      cases hgroups : groups (l' :: rest) with
      | nil => exact absurd hgroups (groups_ne_nil l' rest)
      | cons g r => rfl

theorem text_attach (l : Line) (g : Group) :
    (⟨l, g.lines⟩ : Group).text = piece l.text ++ g.text := List.flatMap_cons

theorem text_alone (l : Line) : (⟨l, []⟩ : Group).text = piece l.text := List.append_nil _

theorem text_add (h : Held) (part : Text) : (h.add part).text = h.text ++ part := by
  simp [Held.add, Held.text]

/-- What groups come to behind the unfinished line, if there is one. -/
def resume : Option Held → List Group → List Line
  | none, r => r.flatMap Group.joined
  | some h, [] => h.release
  | some h, g :: r => (h.add g.text).release ++ r.flatMap Group.joined

/-- A group that begins with a line that goes on is released like an unfinished line. -/
theorem joined_eq_release {g : Group} (hg : goesOn g.first.text = true) {h : Held}
    (hno : h.no = g.first.no) (htext : h.text = g.text) : g.joined = h.release := by
  rw [Group.joined, hg, Bool.true_and, Held.release, hno, htext, Group.line]

theorem release_congr {h h' : Held} (hno : h.no = h'.no) (htext : h.text = h'.text) :
    h.release = h'.release := by
  rw [Held.release, Held.release, hno, htext]

/-- A line that goes on belongs to the unfinished line. -/
theorem resume_attach (held : Option Held) {l : Line} (hl : goesOn l.text = true) (r : List Group) :
    resume held (attach l r) = resume (some ((held.getD ⟨l.no, []⟩).add (piece l.text))) r := by
  have hempty : (Held.mk l.no []).text = [] := rfl
  cases held with
  | none =>
    cases r with
    | nil =>
      refine (List.append_nil _).trans (joined_eq_release hl rfl ?_)
      simp only [Option.getD_none, text_add, hempty, text_alone, List.nil_append]
    | cons g r =>
      refine congrArg (· ++ r.flatMap Group.joined) (joined_eq_release hl rfl ?_)
      simp only [Option.getD_none, text_add, hempty, text_attach, List.nil_append]
  | some held =>
    cases r with
    | nil =>
      refine (List.append_nil _).trans (release_congr rfl ?_)
      simp only [Option.getD_some, text_add, text_alone]
    | cons g r =>
      refine congrArg (· ++ r.flatMap Group.joined) (release_congr rfl ?_)
      simp only [Option.getD_some, text_add, text_attach, List.append_assoc]

/-- A line that ends and stands by itself is given out as it is. -/
theorem joined_of_ends {l : Line} (h : goesOn l.text = false) : (⟨l, []⟩ : Group).joined = [l] := by
  simp only [Group.joined, h, Bool.false_and, Group.line, text_alone, piece_of_ends h]
  rfl

/-- Any other line ends the unfinished line. -/
theorem resume_ends (held : Option Held) {l : Line} (h : goesOn l.text = false) (r : List Group) :
    resume held (⟨l, []⟩ :: r) = (step held l).2 ++ resume none r := by
  rw [step_of_ends held h]
  cases held with
  | none => simp only [resume, List.flatMap_cons, joined_of_ends h]
  | some held => simp only [resume, text_alone]

/-- Taking a line does not change what the lines come to. -/
theorem resume_cons (held : Option Held) (l : Line) (rest : List Line) :
    resume held (groups (l :: rest)) =
      (step held l).2 ++ resume (step held l).1 (groups rest) := by
  cases hl : goesOn l.text with
  | true =>
    rw [groups_of_goesOn hl, resume_attach held hl, step_of_goesOn held hl]
    rfl
  | false => rw [groups_of_ends hl, resume_ends held hl, step_of_ends held hl]

end Continuation

/-! ### The stages that make logical lines -/

namespace Stage
open Continuation (Group Held goesOn groups resume)

/-- A line without the white space around it; of a blank line nothing is left. -/
def present (l : Line) : List Line :=
  if l.text.trim.isEmpty then [] else [{ l with text := l.text.trim }]

theorem present_of_ne_nil (no : Int) {t u : Text} (h : t.trim = u) (hu : u ≠ []) :
    present ⟨no, t⟩ = [⟨no, u⟩] := by
  subst h
  exact if_neg (by simpa using hu)

theorem complete_trim (lines : List Line) : trim.complete lines = .ok (lines.flatMap present) :=
  complete_flatMap (fun _ _ => rfl) rfl

/-- **Joining gives one line for each group.** -/
theorem complete_continuations (held : Option Held) (lines : List Line) :
    (continuations held).complete lines = .ok (resume held (groups lines)) := by
  induction lines generalizing held with
  | nil =>
    have hflush : (continuations held).complete [] = .ok (Continuation.flush held) :=
      complete_nil (r := ⟨continuations none, [], Continuation.flush held⟩) rfl
    rw [hflush]
    cases held <;> rfl
  | cons l rest ih =>
    rw [Continuation.resume_cons]
    exact complete_cons (s := continuations held) (l := l)
      (r := ⟨_, [], (Continuation.step held l).2⟩) rfl (ih (Continuation.step held l).1)

end Stage

/-! ### The later stages of a pipeline -/

namespace Pipeline
open Continuation (Group groups)

/-- The groups of source lines that make up the logical lines. -/
def logicalLines (texts : List Text) : List Group :=
  groups ((numbered texts).flatMap Stage.present)

/-- The stages behind those that make logical lines. -/
def laterStages (p : Pipeline) : List Stage :=
  [.comments p.options.strictComments none, .labels, .trim, .macros p.engine, .statements, .trim,
    .fill] ++ (if p.options.numberRegisters then [.registers] else []) ++
  [.resolve (Label.effectiveWidth p.options.labelWidth) none]

/-- **The later stages work on logical lines.** -/
theorem whole_stages (p : Pipeline) (lines : List Line) :
    (Chain.ofList p.stages).whole lines =
      (Chain.ofList p.laterStages).whole
        ((groups (lines.flatMap Stage.present)).flatMap Group.joined) := by
  have hstages : (Chain.ofList p.stages).whole lines =
      ((Chain.single .trim).append
        ((Chain.single (.continuations none)).append (Chain.ofList p.laterStages))).whole lines :=
    rfl
  rw [hstages, Chain.whole_append_of_ok (Chain.whole_single (Stage.complete_trim _)),
    Chain.whole_append_of_ok (Chain.whole_single (Stage.complete_continuations none _))]
  rfl

theorem emission_eq (p : Pipeline) (texts : List Text) :
    p.emission texts =
      (Chain.ofList p.laterStages).whole ((logicalLines texts).flatMap Group.joined) :=
  p.whole_stages (numbered texts)

end Pipeline

end Preassembler
