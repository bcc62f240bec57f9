import Preassembler.Proofs.Listing.LogicalLine

/-! Continuations, group by group.

A list of lines can be cut into groups in one way only: each line that goes on belongs to the group
of the line behind it, and any other line ends its group (`Cut.eq`). The stage that joins lines never
sees the groups, it only holds what it has of the one it is in; yet it gives out one line for each of
them, and leaves out no text (`flatMap_text_joined`).

Main statement: the stage gives out one line for each group, unless the group begins with a line that
goes on and there is no text in it (`Stage.apply_continuations`). -/
namespace Preassembler
open Text (ascii byte)

namespace Continuation

/-! ### The one way to cut lines -/

/-- Lines cut into groups, one behind the other. All lines of a group but the last one go on, and
only the last group may end with a line that goes on. -/
structure Cut (lines : List Line) (r : List Group) : Prop where
  lines_eq : r.flatMap Group.lines = lines
  inner : ∀ g ∈ r, ∀ l ∈ g.lines.dropLast, goesOn l.text = true
  last : ∀ g ∈ r.dropLast, ∀ l ∈ g.lines.getLast?, goesOn l.text = false

theorem Cut.alone {l : Line} {rest : List Line} {r : List Group} (h : Cut rest r)
    (hl : goesOn l.text = false) : Cut (l :: rest) (⟨l, []⟩ :: r) where
  lines_eq := by
    rw [List.flatMap_cons, h.lines_eq]
    rfl
  inner := List.forall_mem_cons.2 ⟨nofun, h.inner⟩
  last := by
    cases r with
    | nil => exact nofun
    | cons g r =>
      refine List.forall_mem_cons.2 ⟨?_, h.last⟩
      rintro l' ⟨⟩
      exact hl

theorem Cut.attach {l : Line} {rest : List Line} {r : List Group} (h : Cut rest r)
    (hl : goesOn l.text = true) : Cut (l :: rest) (attach l r) := by
  cases r with
  | nil =>
    obtain rfl : [] = rest := h.lines_eq
    exact ⟨rfl, List.forall_mem_singleton.2 nofun, nofun⟩
  | cons g r =>
    refine ⟨congrArg (l :: ·) h.lines_eq, ?_, ?_⟩
    · refine List.forall_mem_cons.2 ⟨?_, (List.forall_mem_cons.1 h.inner).2⟩
      exact List.forall_mem_cons.2 ⟨hl, (List.forall_mem_cons.1 h.inner).1⟩
    · cases r with
      | nil => exact nofun
      | cons g' r =>
        exact List.forall_mem_cons.2
          ⟨(List.forall_mem_cons.1 h.last).1, (List.forall_mem_cons.1 h.last).2⟩

theorem cut_groups (lines : List Line) : Cut lines (groups lines) := by
  induction lines with
  | nil => exact ⟨rfl, nofun, nofun⟩
  | cons l rest ih =>
    cases hl : goesOn l.text with
    | true => exact groups_of_goesOn hl rest ▸ ih.attach hl
    | false => exact groups_of_ends hl rest ▸ ih.alone hl

/-- Lines that all go on to the last one are one group. -/
theorem groups_lines {g : Group} (h : ∀ l ∈ g.lines.dropLast, goesOn l.text = true) :
    groups g.lines = [g] := by
  obtain ⟨first, rest⟩ := g
  induction rest generalizing first with
  | nil =>
    cases hfirst : goesOn first.text with
    | true => exact groups_of_goesOn hfirst []
    | false => exact groups_of_ends hfirst []
  | cons l rest ih =>
    obtain ⟨hfirst, hrest⟩ := List.forall_mem_cons.1 h
    have hgroup : groups (⟨first, l :: rest⟩ : Group).lines =
        Continuation.attach first (groups (⟨l, rest⟩ : Group).lines) := groups_of_goesOn hfirst _
    rw [hgroup, ih l hrest]
    rfl

/-- **Lines can be cut into groups in one way only.** -/
theorem Cut.eq {lines : List Line} {r : List Group} (h : Cut lines r) : r = groups lines := by
  induction r generalizing lines with
  | nil =>
    obtain rfl : [] = lines := h.lines_eq
    rfl
  | cons g r ih =>
    obtain rfl := h.lines_eq
    have hg : groups g.lines = [g] := groups_lines (h.inner g List.mem_cons_self)
    cases r with
    | nil => rw [List.flatMap_singleton, hg]
    | cons g' r =>
      have hends := h.last g List.mem_cons_self
      have hrest : Cut ((g' :: r).flatMap Group.lines) (g' :: r) :=
        ⟨rfl, (List.forall_mem_cons.1 h.inner).2, (List.forall_mem_cons.1 h.last).2⟩
      rw [List.flatMap_cons, groups_append hends, hg, ← ih hrest]
      rfl

/-! ### What is given out -/

/-- A group that begins with a line that goes on, and in which there is no text. -/
def Group.Vanishes (g : Group) : Prop := goesOn g.first.text = true ∧ g.text = []

instance (g : Group) : Decidable g.Vanishes := inferInstanceAs (Decidable (_ ∧ _))

theorem flatMap_joined (r : List Group) :
    r.flatMap Group.joined = (r.filter fun g => ¬ g.Vanishes).map Group.line := by
  induction r with
  | nil => rfl
  | cons g r ih =>
    rw [List.flatMap_cons, ih, Group.joined]
    by_cases h : g.Vanishes
    · have hempty : (goesOn g.first.text && g.text.isEmpty) = true := by
        rw [h.1, h.2]
        rfl
      rw [if_pos hempty, List.filter_cons_of_neg (by simpa using h), List.nil_append]
    · have htext : ¬ (goesOn g.first.text && g.text.isEmpty) = true := by
        simpa [Group.Vanishes] using h
      rw [if_neg htext, List.filter_cons_of_pos (by simpa using h), List.map_cons,
        List.singleton_append]

/-- What is left out has no text. -/
theorem flatMap_text_joined (r : List Group) :
    (r.flatMap Group.joined).flatMap Line.text =
      (r.flatMap Group.lines).flatMap fun l => piece l.text := by
  have hone (g : Group) : g.joined.flatMap Line.text = g.lines.flatMap fun l => piece l.text := by
    unfold Group.joined
    split
    · rename_i hempty
      rw [Bool.and_eq_true, List.isEmpty_iff] at hempty
      exact hempty.2.symm
    · exact List.flatMap_singleton ..
  rw [List.flatMap_assoc, List.flatMap_assoc]
  exact List.flatMap_congr fun g _ => hone g

end Continuation

namespace Stage
open Continuation (Cut Group Held groups piece resume)

theorem applyFrom_continuations (held : Option Held) (before : List Line) (events : List Event)
    (lines : List Line) :
    (continuations held).applyFrom before events lines =
      ⟨before.reverse ++ resume held (groups lines), events.reverse, none⟩ := by
  induction lines generalizing held before with
  | nil =>
    have hflush : Continuation.flush held = resume held [] := by cases held <;> rfl
    simp [applyFrom, flush, hflush, groups]
  | cons l rest ih =>
    have hstep : (continuations held).applyFrom before events (l :: rest) =
        (continuations (Continuation.step held l).1).applyFrom
          ((Continuation.step held l).2.reverse ++ before) events rest := rfl
    rw [hstep, ih, Continuation.resume_cons]
    simp

/-- **Joining gives one line for each group, and no text is lost.** Lines can be cut into groups in
one way only. The stage, which does not fail, gives out one line for each group, in order: all texts
of the group without the backslashes that make lines go on, under the number of the first line. It
leaves out the groups that begin with a line that goes on and have no text, and only those. -/
theorem apply_continuations (lines : List Line) : ∃ r,
    Cut lines r ∧ (∀ r', Cut lines r' → r' = r) ∧
      (continuations none).apply lines =
        ⟨(r.filter fun g => ¬ g.Vanishes).map Group.line, [], none⟩ ∧
      ((continuations none).apply lines).lines.flatMap Line.text =
        lines.flatMap fun l => piece l.text := by
  have happly : (continuations none).apply lines =
      ⟨(groups lines).flatMap Group.joined, [], none⟩ := applyFrom_continuations none [] [] lines
  refine ⟨groups lines, Continuation.cut_groups lines, fun r' h => h.eq, ?_, ?_⟩
  · rw [happly, Continuation.flatMap_joined]
  · rw [happly, Continuation.flatMap_text_joined, Continuation.flatMap_groups]

/-- Of two backslashes one is left, an empty line is given out unless a line goes on to it, and so is
what the last line leaves unfinished. -/
example : ((continuations none).apply [⟨1, []⟩, ⟨2, ascii "a\\\\"⟩, ⟨3, ascii "\\"⟩, ⟨4, ascii "b"⟩,
    ⟨5, ascii "\\"⟩, ⟨6, []⟩, ⟨7, ascii "c\\"⟩]).lines =
    [⟨1, []⟩, ⟨2, ascii "a\\b"⟩, ⟨7, ascii "c"⟩] := by decide

end Stage

end Preassembler
