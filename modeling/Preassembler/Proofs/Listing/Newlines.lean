import Preassembler.Proofs.Comments.Automaton
import Preassembler.Proofs.Expansion.Bytes
import Preassembler.Proofs.Listing.Instruction
import Preassembler.Proofs.Listing.LogicalLine
import Preassembler.Proofs.Pipeline.Invariants
import Preassembler.Proofs.Pipeline.Reading

/-! Newlines.

Source lines hold no newline, and no stage puts one in. Most stages give out parts of the line they
take; the others add blanks, colons, digits and the word for data. Stages that hold something back
hold parts of lines, and what macros put in was written in a line or predefined.

Main statement: if no predefined macro holds a newline, no line of a run does
(`Options.newline_not_mem_runAll`). -/
namespace Preassembler
open Text (byte)

/-! ### Newlines in lines -/

namespace Comment

theorem Mode.read_sublist (here : Line) (m : Mode) (t : Text) : (m.read here t).1.Sublist t := by
  fun_induction Mode.read here m t with
  | case1 => exact List.nil_sublist _
  | case2 a b r _ _ ih => exact (ih.cons b).cons a
  | case3 a b r _ _ ih => exact ih.cons_cons a
  | case4 l a b r _ ih => exact (ih.cons b).cons a
  | case5 l a b r _ ih => exact ih.cons a
  | case6 a => exact List.Sublist.refl _
  | case7 => exact List.nil_sublist _
  | case8 => exact List.Sublist.refl _

/-- Taking comments out of a line leaves a part of it. -/
theorem step_sublist (opened : Option Line) (l : Line) : (step opened l).2.text.Sublist l.text := by
  cases opened with
  | none =>
    rw [step_eq (m := .code) rfl]
    exact Mode.read_sublist l .code l.text
  | some first =>
    rw [step_eq (m := .block first) rfl]
    exact Mode.read_sublist l (.block first) l.text

end Comment

namespace Continuation

theorem newline_not_mem_release {h : Held} (hh : byte '\n' ∉ h.text) :
    ∀ l ∈ h.release, byte '\n' ∉ l.text := by
  intro l hl
  unfold Held.release at hl
  split at hl
  · cases hl
  · rw [List.mem_singleton.1 hl]
    exact hh

theorem newline_not_mem_step {held : Option Held} {l : Line} (hheld : ∀ h ∈ held, byte '\n' ∉ h.text)
    (hl : byte '\n' ∉ l.text) :
    (∀ h ∈ (step held l).1, byte '\n' ∉ h.text) ∧ ∀ l' ∈ (step held l).2, byte '\n' ∉ l'.text := by
  have hpiece : byte '\n' ∉ piece l.text :=
    fun hmem => hl ((Text.sublist_of_dropLast? _ l.text).subset hmem)
  have hadd : ∀ h : Held, byte '\n' ∉ h.text → byte '\n' ∉ (h.add (piece l.text)).text := by
    intro h hh
    rw [text_add]
    exact List.not_mem_append hh hpiece
  cases hgo : goesOn l.text with
  | true =>
    rw [step_of_goesOn held hgo]
    refine ⟨fun h hh => ?_, nofun⟩
    obtain rfl := Option.some.inj hh
    cases held with
    | none => exact hadd ⟨l.no, []⟩ List.not_mem_nil
    | some h => exact hadd h (hheld h rfl)
  | false =>
    rw [step_of_ends held hgo]
    refine ⟨nofun, ?_⟩
    cases held with
    | none => exact List.forall_mem_singleton.2 hl
    | some h => exact newline_not_mem_release (hadd h (hheld h rfl))

end Continuation

namespace Label

theorem newline_not_mem_render {width : Nat} {label instruction : Text} (hlabel : byte '\n' ∉ label)
    (hinstruction : byte '\n' ∉ instruction) : byte '\n' ∉ render width label instruction := by
  have hfield : byte '\n' ∉ field width label := by
    unfold field
    split
    · exact List.not_mem_append (by decide) hlabel
    · exact List.not_mem_append hlabel fun hmem => absurd (List.eq_of_mem_replicate hmem) (by decide)
  exact List.not_mem_append hfield (List.not_mem_cons_of_ne_of_not_mem (by decide) hinstruction)

theorem newline_not_mem_split {l : Line} (hl : byte '\n' ∉ l.text) :
    ∀ l' ∈ split l, byte '\n' ∉ l'.text := by
  unfold split
  split
  · exact List.forall_mem_singleton.2 hl
  · exact List.forall_mem_singleton.2 hl
  · rename_i label rest _ hcut
    obtain ⟨htext, -⟩ := Text.cut?_eq_some_iff.1 hcut
    rw [htext] at hl
    simp only [List.mem_append, List.mem_cons, not_or] at hl
    obtain ⟨hlabel, -, hrest⟩ := hl
    exact List.forall_mem_cons.2 ⟨List.not_mem_append hlabel (by simp),
      List.forall_mem_singleton.2 hrest⟩

end Label

theorem Statement.newline_not_mem_fill {t : Text} (h : byte '\n' ∉ t) : byte '\n' ∉ fill t := by
  unfold fill
  split
  · rename_i n hread
    have hinteger := Numeral.isInteger_canonical (Numeral.isInteger_of_parse? hread).2
    refine List.not_mem_append (by decide) fun hmem => ?_
    exact absurd (hinteger.mem hmem) (by decide)
  · exact h

namespace Stage

/-- Whether what a stage holds is free of newlines. -/
def OneLine : Stage → Prop
  | continuations held => ∀ h ∈ held, byte '\n' ∉ h.text
  | macros e => e.Lacks (byte '\n')
  | resolve _ pending => ∀ p ∈ pending, byte '\n' ∉ p.label
  | _ => True

theorem OneLine.resolve_none (width : Nat) : (resolve width none).OneLine :=
  fun p hp => absurd hp (Option.not_mem_none p)

theorem OneLine.step_resolve {width : Nat} {pending : Option Label.Pending} {l : Line} {r : Reply}
    (h : (resolve width pending).OneLine) (hl : byte '\n' ∉ l.text)
    (hs : (resolve width pending).step l = .ok r) :
    r.stage.OneLine ∧ ∀ l' ∈ r.lines, byte '\n' ∉ l'.text := by
  cases hdeclared : Label.declared? l.text with
  | some label =>
    have hlabel : byte '\n' ∉ label := by
      rw [Text.dropLast?_eq_some_iff.1 hdeclared] at hl
      exact fun hmem => hl (List.mem_append_left _ hmem)
    cases pending with
    | some p => simp [step, Label.resolve, hdeclared] at hs
    | none =>
      by_cases hwidth : width < label.length
      · simp [step, Label.resolve, hdeclared, hwidth] at hs
      · simp only [step, Label.resolve, hdeclared, hwidth, if_false, Except.ok.injEq] at hs
        subst hs
        exact ⟨fun p hp => Option.some.inj hp ▸ hlabel, List.forall_mem_nil _⟩
  | none =>
    cases pending with
    | some p =>
      simp only [step, Label.resolve, hdeclared, Except.ok.injEq] at hs
      subst hs
      exact ⟨resolve_none width,
        List.forall_mem_singleton.2 (Label.newline_not_mem_render (h p rfl) hl)⟩
    | none =>
      simp only [step, Label.resolve, hdeclared, Except.ok.injEq] at hs
      subst hs
      exact ⟨resolve_none width,
        List.forall_mem_singleton.2 (Label.newline_not_mem_render List.not_mem_nil hl)⟩

theorem OneLine.step {s : Stage} {l : Line} {r : Reply} (h : s.OneLine) (hl : byte '\n' ∉ l.text)
    (hs : s.step l = .ok r) : r.stage.OneLine ∧ ∀ l' ∈ r.lines, byte '\n' ∉ l'.text := by
  cases s with
  | trim =>
    cases hs
    refine ⟨trivial, fun l' hl' => ?_⟩
    split at hl'
    · cases hl'
    · rw [List.mem_singleton.1 hl']
      exact fun hmem => hl ((Text.trim_sublist l.text).subset hmem)
  | continuations held =>
    cases hs
    exact Continuation.newline_not_mem_step h hl
  | comments strict opened =>
    cases hs
    refine ⟨trivial, List.forall_mem_singleton.2 fun hmem => ?_⟩
    exact hl ((Comment.step_sublist opened l).subset hmem)
  | labels =>
    cases hs
    exact ⟨trivial, Label.newline_not_mem_split hl⟩
  | macros engine =>
    simp only [Stage.step] at hs
    split at hs <;> cases hs
    · rename_i ho
      exact ⟨Macro.Engine.Lacks.process h hl ho, List.forall_mem_nil _⟩
    · rename_i ho
      exact ⟨h, List.forall_mem_singleton.2 (Macro.Engine.Lacks.process h hl ho)⟩
  | statements =>
    cases hs
    refine ⟨trivial, fun l' hl' => ?_⟩
    obtain ⟨t, ht, rfl⟩ := List.mem_map.1 hl'
    exact fun hmem => hl (Text.subset_of_mem_splitOnP ht hmem)
  | fill =>
    cases hs
    exact ⟨trivial, List.forall_mem_singleton.2 (Statement.newline_not_mem_fill hl)⟩
  | registers =>
    cases hs
    refine ⟨trivial, List.forall_mem_singleton.2 fun hmem => ?_⟩
    exact hl ((Statement.numberRegisters_sublist l.text).subset hmem)
  | resolve => exact h.step_resolve hl hs

theorem OneLine.flush {s : Stage} {r : Reply} (h : s.OneLine) (hs : s.flush = .ok r) :
    ∀ l ∈ r.lines, byte '\n' ∉ l.text := by
  cases s with
  | continuations held =>
    cases hs
    cases held with
    | none => exact List.forall_mem_nil _
    | some held => exact Continuation.newline_not_mem_release (h held rfl)
  | comments strict opened =>
    simp only [Stage.flush] at hs
    cases hflush : Comment.flush strict opened <;> rw [hflush] at hs <;> cases hs
    exact List.forall_mem_nil _
  | resolve width pending =>
    cases pending with
    | none =>
      cases hs
      exact List.forall_mem_nil _
    | some p =>
      cases hs
      exact List.forall_mem_singleton.2
        (Label.newline_not_mem_render (h p rfl) List.not_mem_nil)
  | _ => cases hs; exact List.forall_mem_nil _

/-- **No stage puts a newline into a line.** -/
theorem invariant_newline : Invariant OneLine (fun l => byte '\n' ∉ l.text) fun _ => True where
  step := OneLine.step
  step_error _ _ _ := trivial
  flush := OneLine.flush
  flush_error _ _ := trivial

end Stage

/-! ### Newlines in runs -/

/-- A line of a source holds no newline. -/
theorem Source.newline_not_mem_read {t line : Text} {error : Option SourceError}
    (h : line ∈ (read t error).lines) : byte '\n' ∉ line := by
  obtain ⟨piece, hpiece, rfl⟩ := mem_lines_read h
  exact fun hmem => Text.not_mem_of_mem_splitOn hpiece ((dropReturn_sublist piece).subset hmem)

namespace Options

/-- **No line of a run holds a newline** if no predefined macro does. The run may fail. -/
theorem newline_not_mem_runAll {o : Options} {p : Pipeline} (hp : Pipeline.new o = .ok p)
    (hdefines : ∀ d ∈ o.defines.entries, byte '\n' ∉ d.2) (t : Text) (error : Option SourceError) :
    ∀ l ∈ (p.runAll (.read t error)).lines, byte '\n' ∉ l.text := by
  have hengine : p.engine.Lacks (byte '\n') :=
    lacks_predefine (Macro.Engine.lacks_new _ _) hdefines (Pipeline.new_eq_ok_iff.1 hp).2
  have hstages : ∀ s ∈ p.stages, s.OneLine := by
    intro s hs
    simp only [Pipeline.stages, List.mem_append, List.mem_cons, List.mem_ite_nil_right,
      List.not_mem_nil, or_false] at hs
    rcases hs with ((rfl | rfl | rfl | rfl | rfl | rfl | rfl | rfl | rfl) | ⟨-, rfl⟩) | rfl
    all_goals first
      | exact hengine
      | exact trivial
      | exact Stage.OneLine.resolve_none _
      | exact fun h hh => absurd hh (Option.not_mem_none h)
  exact Pipeline.forall_lines_runAll Stage.invariant_newline hstages
    fun line hline no => Source.newline_not_mem_read hline

end Options

end Preassembler
