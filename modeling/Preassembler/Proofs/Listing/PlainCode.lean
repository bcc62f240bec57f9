import Preassembler.Proofs.Comments.Idempotence
import Preassembler.Proofs.Expansion.Definitions
import Preassembler.Proofs.Expansion.Leftover
import Preassembler.Proofs.Expansion.Requests
import Preassembler.Proofs.Listing.Layout

/-! Plain code.

A line is plain if there is nothing in it for any stage to do (`Plain`). For each kind of stage it is
shown that it gives out such lines as it takes them (`Stage.complete_of_passes` and what follows).
The one stage that carries a table is no exception: a table of predefined macros binds only names
that were defined (`Options.unbound_of_predefine`), and a text without bound names is its own
expansion. So plain lines come to the last stage unchanged, and it lays them out behind an empty
label.

Main statement: plain code is listed as it stands, behind blanks (`Options.process_plain`). -/
namespace Preassembler
open Text (byte)

/-! ### Tables of predefined macros -/

namespace Options
open Macro (Engine names tokens)

/-- A name that is not defined is not bound. -/
theorem unbound_of_predefine {e e' : Engine} {defs : List (Text × Text)}
    (h : predefine e defs = .ok e') {n : Text} (hdefs : ∀ u, (n, u) ∉ defs)
    (hn : e.table.find? n = none) : e'.table.find? n = none := by
  induction defs generalizing e with
  | nil =>
    obtain rfl := Except.ok.inj h
    exact hn
  | cons d defs ih =>
    obtain ⟨m, text⟩ := d
    have hne : n ≠ m := fun heq => hdefs text (heq ▸ List.mem_cons_self)
    rw [predefine] at h
    cases hvalue : e.defineValue m text with
    | error c =>
      rw [hvalue] at h
      cases h
    | ok e₁ =>
      rw [hvalue] at h
      obtain ⟨-, u, -, rfl⟩ := Engine.defineValue_eq_ok_iff.1 hvalue
      refine ih h (fun u hu => hdefs u (List.mem_cons_of_mem _ hu)) ?_
      rw [Engine.bind, Dictionary.find?_insert, if_neg hne]
      exact hn

/-- A line in which there is nothing to do. -/
structure Plain (o : Options) (t : Text) : Prop where
  filled : t ≠ []
  trimmed : t.trim = t
  ends : ∀ u, t ≠ u ++ [byte '\\']
  code : t.head? ≠ some (byte '#')
  clear : Comment.Clear t
  unlabelled : byte ':' ∉ t
  single : byte ';' ∉ t
  unbound : ∀ k ∈ tokens t, o.defines.find? k.name = none
  not_integer : ¬ Statement.IsInteger t
  no_register : ¬ Statement.RegisterOperand t

end Options

/-! ### Stages with nothing to do -/

namespace Continuation

theorem flatMap_joined_of_ends {lines : List Line} (h : ∀ l ∈ lines, goesOn l.text = false) :
    (groups lines).flatMap Group.joined = lines := by
  induction lines with
  | nil => rfl
  | cons l rest ih =>
    rw [List.forall_mem_cons] at h
    rw [groups_of_ends h.1, List.flatMap_cons, joined_of_ends h.1, ih h.2]
    rfl

end Continuation

namespace Stage
variable {s : Stage} {lines : List Line}

theorem complete_of_passes (hstep : ∀ l ∈ lines, s.step l = .ok ⟨s, [], [l]⟩)
    (hflush : s.flush = .ok ⟨s, [], []⟩) : s.complete lines = .ok lines := by
  rw [complete_flatMap hstep hflush, List.flatMap_singleton']

theorem complete_continuations_of_ends (h : ∀ l ∈ lines, Continuation.goesOn l.text = false) :
    (continuations none).complete lines = .ok lines := by
  rw [complete_continuations]
  exact congrArg Except.ok (Continuation.flatMap_joined_of_ends h)

theorem complete_comments_of_clear (strict : Bool) (h : ∀ l ∈ lines, Comment.Clear l.text) :
    (comments strict none).complete lines = .ok lines := by
  rw [complete, apply_comments_of_clear strict h]

/-- A line that declares no label, behind none that does, is laid out behind an empty field. -/
theorem complete_resolve_of_unlabelled {width : Nat} (h : ∀ l ∈ lines, byte ':' ∉ l.text) :
    (resolve width none).complete lines =
      .ok (lines.map fun l => ⟨l.no, Label.render width [] l.text⟩) := by
  rw [← List.flatMap_pure_eq_map]
  refine complete_flatMap (fun l hl => ?_) rfl
  have hdeclared : Label.declared? l.text = none :=
    Text.dropLast?_eq_none_iff.2 fun label htext => h l hl (by simp [htext])
  simp only [step, Label.resolve, hdeclared]
  rfl

end Stage

namespace Options
open Macro (Engine)
variable {o : Options} {p : Pipeline}

theorem Plain.goesOn {t : Text} (h : Plain o t) : Continuation.goesOn t = false :=
  Continuation.goesOn_eq_false_iff.2 (Text.dropLast?_eq_none_iff.2 h.ends)

theorem Plain.present {l : Line} (h : Plain o l.text) : Stage.present l = [l] :=
  Stage.present_of_ne_nil l.no h.trimmed h.filled

/-- The engine of a pipeline takes plain code for code, and leaves it as it is. -/
theorem Plain.process (hp : Pipeline.new o = .ok p) {t : Text} (h : Plain o t) :
    p.engine.process t = .ok (.code t) := by
  have hunbound : ∀ n ∈ Macro.names t, p.engine.table.find? n = none := by
    intro n hn
    have hdefines := (Macro.forall_tokens_iff (p := (o.defines.find? · = none))).1 h.unbound n hn
    refine unbound_of_predefine (Pipeline.new_eq_ok_iff.1 hp).2 (fun u hu => ?_) rfl
    rw [Dictionary.find?_eq_some_iff.2 hu] at hdefines
    cases hdefines
  rw [Engine.process_of_code h.code, Engine.expand, Macro.Table.expand_of_unbound _ hunbound]
  rfl

/-- No stage but the last one changes anything. -/
theorem Plain.complete (hp : Pipeline.new o = .ok p) {lines : List Line}
    (h : ∀ l ∈ lines, Plain o l.text) {s : Stage} (hs : s ∈ p.stages.dropLast) :
    s.complete lines = .ok lines := by
  rw [Pipeline.stages, List.dropLast_concat] at hs
  simp only [List.mem_append, List.mem_cons, List.mem_ite_nil_right, List.not_mem_nil,
    or_false] at hs
  have htrim : Stage.trim.complete lines = .ok lines := by
    refine Stage.complete_of_passes (fun l hl => ?_) rfl
    have hstep : Stage.trim.step l = .ok ⟨.trim, [], Stage.present l⟩ := rfl
    rw [hstep, (h l hl).present]
  rcases hs with (rfl | rfl | rfl | rfl | rfl | rfl | rfl | rfl | rfl) | ⟨-, rfl⟩
  · exact htrim
  · exact Stage.complete_continuations_of_ends fun l hl => (h l hl).goesOn
  · exact Stage.complete_comments_of_clear _ fun l hl => (h l hl).clear
  · refine Stage.complete_of_passes (fun l hl => ?_) rfl
    rw [Stage.step, Label.split, Text.cut?_eq_none_iff.2 (h l hl).unlabelled]
  · exact htrim
  · refine Stage.complete_of_passes (fun l hl => ?_) rfl
    rw [Stage.step, (h l hl).process hp]
  · refine Stage.complete_of_passes (fun l hl => ?_) rfl
    rw [Stage.step, Statement.split, List.splitOn_eq_singleton (h l hl).single]
    rfl
  · exact htrim
  · refine Stage.complete_of_passes (fun l hl => ?_) rfl
    rw [Stage.step, Statement.fill_eq_self (h l hl).trimmed (h l hl).not_integer]
  · refine Stage.complete_of_passes (fun l hl => ?_) rfl
    rw [Stage.step, Statement.numberRegisters_eq_self (h l hl).no_register]

end Options

/-- Numbers do not depend on what the lines hold. -/
theorem Flow.numberedFrom_map (count : Nat) (f : Text → Text) (texts : List Text) :
    numberedFrom count (texts.map f) =
      (numberedFrom count texts).map fun l => ⟨l.no, f l.text⟩ := by
  induction texts generalizing count with
  | nil => rfl
  | cons t rest ih => exact congrArg (⟨count + 1, f t⟩ :: ·) (ih (count + 1))

namespace Pipeline

theorem through_of_passes {stages : List Stage} {lines : List Line}
    (h : ∀ s ∈ stages, s.complete lines = .ok lines) (rest : List Stage) :
    through (stages ++ rest) lines = through rest lines := by
  induction stages with
  | nil => rfl
  | cons s stages ih =>
    rw [List.forall_mem_cons] at h
    rw [List.cons_append, through, h.1]
    exact ih h.2

end Pipeline

namespace Options
variable {o : Options} {p : Pipeline}

theorem render_unlabelled {width : Nat} (hwidth : width ≤ Label.maxWidth) (t : Text) :
    Label.render width [] t = List.replicate (width + 1) (byte ' ') ++ t := by
  have hempty : Text.width [] = 0 := Nat.le_zero.1 (Text.width_le_length [])
  rw [Label.render, Label.field, if_neg (by omega), hempty, Nat.sub_zero, List.nil_append,
    List.replicate_succ', List.append_assoc]
  rfl

/-- **Plain code is listed as it stands.** If the label field can be laid out, lines in which there
is nothing to do are listed in order, with their numbers, behind an empty label field and a
blank. -/
theorem process_plain (hp : Pipeline.new o = .ok p)
    (hwidth : Label.effectiveWidth o.labelWidth ≤ Label.maxWidth) {texts : List Text}
    (h : ∀ t ∈ texts, Plain o t) :
    p.process texts = .ok (Pipeline.numbered (texts.map fun t =>
      List.replicate (Label.effectiveWidth o.labelWidth + 1) (byte ' ') ++ t)) := by
  have hplain : ∀ l ∈ Pipeline.numbered texts, Plain o l.text := by
    intro l hl
    obtain ⟨i, hi, rfl⟩ := List.mem_mapIdx.1 hl
    exact h _ (List.getElem_mem hi)
  have hunlabelled : ∀ l ∈ Pipeline.numbered texts, byte ':' ∉ l.text :=
    fun l hl => (hplain l hl).unlabelled
  rw [Pipeline.process_eq_ok_iff, Pipeline.stages_eq,
    Pipeline.through_of_passes fun s hs => Plain.complete hp hplain hs, Pipeline.through,
    Stage.complete_resolve_of_unlabelled hunlabelled, (Pipeline.new_eq_ok_iff.1 hp).1]
  simp only [render_unlabelled hwidth]
  rw [← Flow.numberedFrom_zero, ← Flow.numberedFrom_zero, Flow.numberedFrom_map]
  rfl

open Text (ascii) in
/-- A line with a longer name than the one that is defined, and with more than a register. -/
theorem process_plain_names :
    let o : Options := { labelWidth := 2, defines := Dictionary.empty.insert (ascii "N") (ascii "3") }
    let p : Pipeline := ⟨o, (Macro.Engine.new 64).bind (ascii "N") (.value (ascii "3"))⟩
    Pipeline.new o = .ok p ∧ Plain o (ascii "lw 0 r1x NN") ∧
      p.process [ascii "lw 0 r1x NN"] = .ok [⟨1, ascii "   lw 0 r1x NN"⟩] := by
  intro o p
  have hp : Pipeline.new o = .ok p := by cbv
  have hplain : Plain o (ascii "lw 0 r1x NN") := {
    filled := List.cons_ne_nil _ _
    trimmed := by cbv
    ends := Text.dropLast?_eq_none_iff.1 (by cbv)
    code := by decide +kernel
    clear := by decide +kernel
    unlabelled := by decide +kernel
    single := by decide +kernel
    unbound := by decide +kernel
    not_integer := by
      intro hinteger
      have hnone : (Statement.Numeral.parse? (ascii "lw 0 r1x NN")).isSome = false := by cbv
      rw [Statement.Numeral.isSome_parse? hinteger] at hnone
      cases hnone
    no_register := by
      have hsame : Statement.numberRegisters (ascii "lw 0 r1x NN") = ascii "lw 0 r1x NN" := by cbv
      rw [← hsame]
      exact Statement.not_registerOperand_numberRegisters _ }
  have hprocess := process_plain hp (by decide) (List.forall_mem_singleton.2 hplain)
  refine ⟨hp, hplain, hprocess.trans ?_⟩
  cbv

end Options

end Preassembler
