import Preassembler.Proofs.Comments.Idempotence
import Preassembler.Proofs.Comments.Opener
import Preassembler.Proofs.Expansion.Requests
import Preassembler.Proofs.Labels.Pairing
import Preassembler.Proofs.Listing.Layout
import Preassembler.Proofs.Listing.Provenance

/-! Directives.

A source line that stands by itself comes to the stage that obeys directives as what trimming and
cutting off a label leave of it, with its number, whatever the lines around it hold
(`Pipeline.engineLines_alone`). Cutting off labels does not know directives: a directive is cut
behind its first colon like any other line. The engine gets a definition up to that colon, and the
rest of the line is code. Only a directive without a colon before its last byte is handed to the
engine as it stands. The engine lists nothing for it, and no later stage lists anything under the
number of a line it did not get (`no_of_through`).

Main statement: what the engine gets of a directive, and when nothing is listed for it
(`Pipeline.process_obeys_directive`). -/
namespace Preassembler
open Text (ascii byte)

/-! ### Numbers that stages keep -/

namespace Stage
variable {s : Stage} {lines out : List Line}

/-- What a stage gives out has numbers of the lines it is given. -/
def Numbered (s : Stage) : Prop :=
  ∀ lines out, s.complete lines = .ok out → ∀ l ∈ out, ∃ l' ∈ lines, l.no = l'.no

theorem Carries.numbered (h : s.Carries fun _ => True) : s.Numbered := by
  intro lines out hout
  obtain ⟨s', given, r, ht, hr, rfl⟩ := complete_eq_ok_iff.1 hout
  clear hout
  induction ht with
  | nil =>
    rw [h.flush hr]
    exact nofun
  | @cons s l r' rest s' out hs _ ih =>
    obtain ⟨hnext, hno⟩ := h.step trivial hs
    intro l' hl'
    rw [List.append_assoc, List.mem_append] at hl'
    rcases hl' with hl' | hl'
    · exact ⟨l, List.mem_cons_self, hno l' hl'⟩
    · obtain ⟨l'', hl'', heq⟩ := ih hnext hr l' hl'
      exact ⟨l'', List.mem_cons_of_mem l hl'', heq⟩

theorem numbered_resolve (width : Nat) : (resolve width none).Numbered := by
  intro lines out hout l hl
  obtain ⟨-, rfl⟩ := fits_of_complete_resolve hout
  obtain ⟨e, he, rfl⟩ := List.mem_map.1 hl
  rcases List.mem_append.1 he with he | he
  · obtain ⟨p, hp, hlisted⟩ := List.mem_filterMap.1 he
    refine ⟨p.2, (List.of_mem_zip hp).2, ?_⟩
    unfold Label.listed? at hlisted
    split at hlisted
    · cases hlisted
    · cases hlisted
      rfl
  · obtain ⟨p, hp, rfl⟩ := List.mem_map.1 he
    obtain ⟨d, hd, -, hno⟩ := Label.waiting_eq_some_iff.1 (Option.mem_toList.1 hp)
    exact ⟨d, List.mem_of_getLast? hd, hno.symm⟩

/-- A directive is handed to the engine, and nothing is given out for it. -/
theorem step_directive (e : Macro.Engine) (no : Int) (d : Text) :
    (macros e).step ⟨no, Macro.Engine.directive ++ d⟩ =
      match e.define d with
      | .error c => .error ⟨⟨no, Macro.Engine.directive ++ d⟩, .expansion c⟩
      | .ok (_, e') => .ok ⟨macros e', [.defined no (Macro.Engine.directive ++ d)], []⟩ := by
  rw [step, Macro.Engine.process_directive]
  cases e.define d <;> rfl

theorem step_macros {e : Macro.Engine} {l : Line} {r : Reply} (h : (macros e).step l = .ok r) :
    ∃ e', r.stage = macros e' ∧
      ∀ l' ∈ r.lines, l'.no = l.no ∧ ¬ Macro.Engine.directive <+: l.text := by
  have hnone : ∀ l' ∈ ([] : List Line), l'.no = l.no ∧ ¬ Macro.Engine.directive <+: l.text :=
    fun l' hl' => absurd hl' List.not_mem_nil
  obtain ⟨no, text⟩ := l
  by_cases hdirective : Macro.Engine.directive <+: text
  · obtain ⟨d, rfl⟩ := hdirective
    rw [step_directive] at h
    cases hdefine : e.define d with
    | error c =>
      rw [hdefine] at h
      cases h
    | ok defined =>
      rw [hdefine] at h
      cases h
      exact ⟨_, rfl, hnone⟩
  · rw [step] at h
    split at h <;> cases h
    · exact ⟨_, rfl, hnone⟩
    · refine ⟨_, rfl, fun l' hl' => ?_⟩
      rw [List.mem_singleton.1 hl']
      exact ⟨rfl, hdirective⟩

/-- What the engine gives out has numbers of lines that are no directives. -/
theorem not_directive_of_complete {e : Macro.Engine} (h : (macros e).complete lines = .ok out) :
    ∀ l ∈ out, ∃ l' ∈ lines, l.no = l'.no ∧ ¬ Macro.Engine.directive <+: l'.text := by
  obtain ⟨s', given, r, ht, hr, rfl⟩ := complete_eq_ok_iff.1 h
  clear h
  generalize hs : macros e = s at ht
  induction ht generalizing e with
  | nil =>
    subst hs
    cases hr
    exact nofun
  | @cons s l r' rest s' out hstep _ ih =>
    subst hs
    obtain ⟨e', hstage, hlines⟩ := step_macros hstep
    intro l' hl'
    rw [List.append_assoc, List.mem_append] at hl'
    rcases hl' with hl' | hl'
    · exact ⟨l, List.mem_cons_self, hlines l' hl'⟩
    · obtain ⟨l'', hl'', hno⟩ := ih hr hstage.symm l' hl'
      exact ⟨l'', List.mem_cons_of_mem l hl'', hno⟩

end Stage

/-- What stages give out has numbers of the lines they are given. -/
theorem Pipeline.no_of_through {stages : List Stage} (hstages : ∀ s ∈ stages, s.Numbered)
    {lines out : List Line} (h : through stages lines = .ok out) {l : Line} (hl : l ∈ out) :
    ∃ l' ∈ lines, l.no = l'.no := by
  induction stages generalizing lines with
  | nil =>
    obtain rfl : lines = out := Except.ok.inj h
    exact ⟨l, hl, rfl⟩
  | cons s rest ih =>
    rw [List.forall_mem_cons] at hstages
    obtain ⟨mid, hmid, hrest⟩ := through_cons_eq_ok_iff.1 h
    obtain ⟨l₁, hl₁, hno₁⟩ := ih hstages.2 hrest
    obtain ⟨l₂, hl₂, hno₂⟩ := hstages.1 lines mid hmid l₁ hl₁
    exact ⟨l₂, hl₂, hno₁.trans hno₂⟩

/-! ### Lines that come to the engine -/

theorem Chain.giveAll_flatMap {n : Nat} {c : Chain n} {f : Line → List Line}
    (h : ∀ l, c.give n l = ⟨f l, .ok c⟩) (lines : List Line) :
    c.giveAll lines = ⟨lines.flatMap f, .ok c⟩ := by
  induction lines with
  | nil => rfl
  | cons l rest ih =>
    rw [giveAll_cons, h, Emission.bind_of_ok rfl, ih]
    rfl

namespace Pipeline
open Continuation (Group goesOn groups groups_append groups_of_ends)
open Comment (Clear stripped remembered)

/-- The stages before the one that obeys directives. -/
def frontStages (p : Pipeline) : List Stage :=
  [.trim, .continuations none, .comments p.options.strictComments none, .labels, .trim]

/-- The stages behind the one that obeys directives. -/
def backStages (p : Pipeline) : List Stage :=
  [.statements, .trim, .fill] ++ (if p.options.numberRegisters then [.registers] else []) ++
    [.resolve (Label.effectiveWidth p.options.labelWidth) none]

theorem stages_eq_front_append (p : Pipeline) :
    p.stages = p.frontStages ++ .macros p.engine :: p.backStages := rfl

/-- The lines that come to the engine, also if a comment is left open at the end. -/
def engineLines (p : Pipeline) (texts : List Text) : List Line :=
  ((Chain.ofList p.frontStages).whole (numbered texts)).lines

/-- What cutting off a label and trimming make of a line. -/
def cleaned (l : Line) : List Line := (Label.split l).flatMap Stage.present

theorem no_of_mem_cleaned {l l' : Line} (h : l' ∈ cleaned l) : l'.no = l.no := by
  obtain ⟨part, hpart, hl'⟩ := List.mem_flatMap.1 h
  rw [← Stage.no_of_mem_split hpart]
  unfold Stage.present at hl'
  split at hl'
  · cases hl'
  · rw [List.mem_singleton.1 hl']

theorem giveAll_cleaning (lines : List Line) :
    (Chain.ofList [.labels, .trim]).giveAll lines =
      ⟨lines.flatMap cleaned, .ok (Chain.ofList [.labels, .trim])⟩ := by
  have htrim : ∀ lines, (Chain.single .trim).giveAll lines =
      ⟨lines.flatMap Stage.present, .ok (Chain.single .trim)⟩ :=
    Chain.giveAll_flatMap fun l => Chain.give_single (r := ⟨.trim, [], Stage.present l⟩) rfl
  refine Chain.giveAll_flatMap (fun l => ?_) lines
  have hgive := Chain.give_of_step (s := .labels) (c := Chain.single .trim) (l := l)
    (r := ⟨.labels, [], Label.split l⟩) rfl
  rw [htrim] at hgive
  exact hgive

theorem engineLines_eq (p : Pipeline) (texts : List Text) :
    p.engineLines texts = (stripped none (joinedLines texts)).flatMap cleaned := by
  have hstages : (Chain.ofList p.frontStages).whole (numbered texts) =
      ((Chain.single .trim).append ((Chain.single (.continuations none)).append
        ((Chain.single (.comments p.options.strictComments none)).append
          (Chain.ofList [.labels, .trim])))).whole (numbered texts) := rfl
  obtain ⟨result, hcomments⟩ : ∃ result,
      (Chain.single (.comments p.options.strictComments none)).whole (joinedLines texts) =
        ⟨stripped none (joinedLines texts), result⟩ := ⟨_, Chain.whole_comments _ _⟩
  have hpipe : (⟨stripped none (joinedLines texts), result⟩ : Emission Unit).pipe
      (Chain.ofList [.labels, .trim]) = ⟨(stripped none (joinedLines texts)).flatMap cleaned,
        result.map fun a => (a, Chain.ofList [.labels, .trim])⟩ := by
    rw [Emission.pipe, giveAll_cleaning]
    exact (Emission.bind_of_ok rfl _).trans (congrArg (Emission.mk · _) (List.append_nil _))
  rw [engineLines, hstages, Chain.whole_append_of_ok (Chain.whole_single (Stage.complete_trim _)),
    Chain.whole_append_of_ok (Chain.whole_single (Stage.complete_continuations none _)),
    Chain.whole_append]
  refine (congrArg (fun x => ((Emission.pipe x _).bind _).lines) hcomments).trans ?_
  rw [hpipe]
  cases result with
  | error e => rw [Emission.bind_of_error rfl]
  | ok _ =>
    rw [Emission.bind_of_ok rfl]
    exact List.append_nil _

/-- A listed line has the number of a line that came to the engine and is no directive. -/
theorem exists_engineLine {p : Pipeline} {texts : List Text} {out : List Line}
    (h : p.process texts = .ok out) {l : Line} (hl : l ∈ out) :
    ∃ l' ∈ p.engineLines texts, l.no = l'.no ∧ ¬ Macro.Engine.directive <+: l'.text := by
  rw [process_eq_ok_iff, stages_eq_front_append] at h
  obtain ⟨front, hfront, h⟩ := through_append _ h
  obtain ⟨mid, hmid, hback⟩ := through_cons_eq_ok_iff.1 h
  obtain rfl : p.engineLines texts = front := by
    rw [engineLines, Chain.whole_of_through hfront]
  have hnumbered : ∀ s ∈ p.backStages, s.Numbered := by
    intro s hs
    simp only [backStages, List.cons_append, List.nil_append, List.mem_append, List.mem_cons,
      List.mem_ite_nil_right, List.not_mem_nil, or_false] at hs
    rcases hs with rfl | rfl | rfl | ⟨-, rfl⟩ | rfl
    · exact Stage.Carries.numbered trivial
    · exact Stage.Carries.numbered trivial
    · exact Stage.Carries.numbered trivial
    · exact Stage.Carries.numbered trivial
    · exact Stage.numbered_resolve _
  obtain ⟨l₁, hl₁, hno₁⟩ := no_of_through hnumbered hback hl
  obtain ⟨l₂, hl₂, hno₂, hdirective⟩ := Stage.not_directive_of_complete hmid l₁ hl₁
  exact ⟨l₂, hl₂, hno₁.trans hno₂, hdirective⟩

/-! ### A line that stands by itself -/

/-- The lines leave no line to be continued and no comment open. -/
structure Settled (before : List Text) : Prop where
  ended : ∀ l ∈ ((numbered before).flatMap Stage.present).getLast?, goesOn l.text = false
  code : remembered none (joinedLines before) = none

/-- The logical lines that lines come to. -/
def joinedOf (lines : List Line) : List Line :=
  (groups (lines.flatMap Stage.present)).flatMap Group.joined

theorem no_of_mem_joinedOf {lines : List Line} {l : Line} (h : l ∈ joinedOf lines) :
    ∃ l' ∈ lines, l.no = l'.no := by
  obtain ⟨g, hg, hl⟩ := List.mem_flatMap.1 h
  have hfirst : g.first ∈ lines.flatMap Stage.present := by
    rw [← Continuation.flatMap_groups (lines.flatMap Stage.present)]
    exact List.mem_flatMap.2 ⟨g, hg, List.mem_cons_self⟩
  have hno := (Stage.numbers_present lines).subset (List.mem_map_of_mem hfirst)
  obtain ⟨l', hl', heq⟩ := List.mem_map.1 hno
  exact ⟨l', hl', (Chain.no_of_mem_joined hl).trans heq.symm⟩

theorem no_of_mem_stripped {opened : Option Line} {lines : List Line} {l : Line}
    (h : l ∈ (stripped opened (joinedOf lines)).flatMap cleaned) : ∃ l' ∈ lines, l.no = l'.no := by
  obtain ⟨l₁, hl₁, hl⟩ := List.mem_flatMap.1 h
  have hno : l₁.no ∈ (joinedOf lines).map Line.no := by
    rw [← Comment.map_no_stripped opened]
    exact List.mem_map_of_mem hl₁
  obtain ⟨l₂, hl₂, heq⟩ := List.mem_map.1 hno
  obtain ⟨l', hl', heq'⟩ := no_of_mem_joinedOf hl₂
  exact ⟨l', hl', (no_of_mem_cleaned hl).trans (heq.symm.trans heq')⟩

/-- A line in front of which all is settled, and which neither goes on nor holds a comment, comes to
the engine for itself, between lines with smaller and with larger numbers. -/
theorem engineLines_alone (p : Pipeline) {before : List Text} (h : Settled before) {t u : Text}
    (ht : t.trim = u) (hne : u ≠ []) (hclear : Clear u) (hends : goesOn u = false)
    (after : List Text) :
    ∃ later, p.engineLines (before ++ t :: after) =
        p.engineLines before ++ cleaned ⟨before.length + 1, u⟩ ++ later ∧
      (∀ l ∈ p.engineLines before, l.no < before.length + 1) ∧
      ∀ l ∈ later, before.length + 1 < l.no := by
  have hnumbered : numbered (before ++ t :: after) = numbered before ++
      ⟨before.length + 1, t⟩ :: Flow.numberedFrom (before.length + 1) after := by
    rw [← Flow.numberedFrom_zero, ← Flow.numberedFrom_zero, Flow.numberedFrom_append]
    simp [Flow.numberedFrom]
  have hjoined : joinedLines (before ++ t :: after) = joinedLines before ++
      ⟨before.length + 1, u⟩ :: joinedOf (Flow.numberedFrom (before.length + 1) after) := by
    rw [joinedLines, logicalLines, hnumbered, List.flatMap_append, List.flatMap_cons,
      Stage.present_of_ne_nil _ ht hne, groups_append h.ended, List.singleton_append,
      groups_of_ends hends, List.flatMap_append, List.flatMap_cons,
      Continuation.joined_of_ends hends]
    rfl
  have hstripped : stripped none (joinedLines (before ++ t :: after)) =
      stripped none (joinedLines before) ++ ⟨before.length + 1, u⟩ ::
        stripped none (joinedOf (Flow.numberedFrom (before.length + 1) after)) := by
    rw [hjoined, Comment.stripped_append, h.code, stripped, Comment.step_of_clear hclear]
  refine ⟨(stripped none (joinedOf (Flow.numberedFrom (before.length + 1) after))).flatMap cleaned,
    ?_, fun l hl => ?_, fun l hl => ?_⟩
  · rw [engineLines_eq, engineLines_eq, hstripped, List.flatMap_append, List.flatMap_cons,
      List.append_assoc]
  · rw [engineLines_eq] at hl
    obtain ⟨l', hl', hno⟩ : ∃ l' ∈ numbered before, l.no = l'.no := no_of_mem_stripped hl
    rw [← Flow.numberedFrom_zero] at hl'
    have hbounds := Flow.bounds_of_mem_numberedFrom hl'
    omega
  · obtain ⟨l', hl', hno⟩ := no_of_mem_stripped hl
    have hbounds := Flow.bounds_of_mem_numberedFrom hl'
    push_cast at hbounds
    omega

/-- Under the number of such a line nothing else comes to the engine. -/
theorem filter_engineLines_alone (p : Pipeline) {before : List Text} (h : Settled before)
    {t u : Text} (ht : t.trim = u) (hne : u ≠ []) (hclear : Clear u) (hends : goesOn u = false)
    (after : List Text) :
    let k : Int := before.length + 1
    (p.engineLines (before ++ t :: after)).filter (·.no = k) = cleaned ⟨k, u⟩ := by
  intro k
  obtain ⟨later, hlines, hfront, hlater⟩ := p.engineLines_alone h ht hne hclear hends after
  have hbelow : (p.engineLines before).filter (·.no = k) = [] :=
    List.filter_eq_nil_iff.2 fun l hl => by simpa using (hfront l hl).ne
  have habove : later.filter (·.no = k) = [] :=
    List.filter_eq_nil_iff.2 fun l hl => by simpa using (hlater l hl).ne'
  have hline : (cleaned ⟨k, u⟩).filter (·.no = k) = cleaned ⟨k, u⟩ :=
    List.filter_eq_self.2 fun l hl => by simpa using no_of_mem_cleaned hl
  rw [hlines, List.filter_append, List.filter_append, hbelow, hline, habove, List.nil_append,
    List.append_nil]

end Pipeline

/-! ### Directives that are cut -/

theorem Stage.present_nil (no : Int) : present ⟨no, []⟩ = [] := by
  have htrim : Text.trim [] = [] := List.sublist_nil.1 (Text.trim_sublist [])
  rw [present, htrim]
  rfl

namespace Pipeline
open Continuation (goesOn)
open Comment (Clear)
open Macro.Engine (directive)

/-- What of a definition comes to the engine, up to its first colon, and what is left over. -/
def handed (d : Text) : Text × Text :=
  match Text.cut? (byte ':') d with
  | none => (d, [])
  | some (front, rest) => (front ++ [byte ':'], rest)

/-- A definition comes to the engine as it stands if no colon is in front of its last byte. -/
theorem handed_eq_self_iff {d : Text} : handed d = (d, []) ↔ byte ':' ∉ d.dropLast := by
  unfold handed
  cases hcut : Text.cut? (byte ':') d with
  | none =>
    exact iff_of_true rfl fun hmem => Text.cut?_eq_none_iff.1 hcut (d.dropLast_subset hmem)
  | some parts =>
    obtain ⟨front, rest⟩ := parts
    obtain ⟨rfl, hfront⟩ := Text.cut?_eq_some_iff.1 hcut
    cases rest with
    | nil => simpa using hfront
    | cons c rest => simp

theorem handed_append (d : Text) : (handed d).1 ++ (handed d).2 = d := by
  unfold handed
  cases hcut : Text.cut? (byte ':') d with
  | none => exact List.append_nil d
  | some parts =>
    obtain ⟨rfl, -⟩ := Text.cut?_eq_some_iff.1 hcut
    exact List.append_assoc ..

theorem fst_handed_eq_iff {d : Text} : (handed d).1 = d ↔ handed d = (d, []) := by
  constructor
  · intro h
    have hrest := handed_append d
    rw [h] at hrest
    exact Prod.ext h (List.append_right_eq_self.1 hrest)
  · intro h
    rw [h]

theorem cleaned_directive (no : Int) {d : Text} (h : Text.Trimmed (directive ++ d)) :
    cleaned ⟨no, directive ++ d⟩ =
      ⟨no, directive ++ (handed d).1⟩ :: Stage.present ⟨no, (handed d).2⟩ := by
  have hdirective : byte ':' ∉ directive := by decide
  have hcut := Text.cut?_append_of_not_mem hdirective d
  unfold handed
  cases hd : Text.cut? (byte ':') d with
  | none =>
    have hsplit : Label.split ⟨no, directive ++ d⟩ = [⟨no, directive ++ d⟩] := by
      rw [Label.split, hcut, hd]
      rfl
    rw [cleaned, hsplit, List.flatMap_singleton,
      Stage.present_of_ne_nil no (Text.trim_eq_self h) (List.cons_ne_nil _ _), Stage.present_nil]
  | some parts =>
    obtain ⟨front, rest⟩ := parts
    have hsplit : Label.split ⟨no, directive ++ d⟩ =
        [⟨no, directive ++ front ++ [byte ':']⟩, ⟨no, rest⟩] := by
      rw [Label.split, hcut, hd]
      rfl
    have htrim : Text.trim (directive ++ front ++ [byte ':']) = directive ++ front ++ [byte ':'] :=
      Text.trim_eq_self (Text.trimmed_of_ends (a := byte '#') (by decide) (by decide) rfl rfl)
    rw [cleaned, hsplit, List.flatMap_cons, List.flatMap_singleton,
      Stage.present_of_ne_nil no htrim (List.cons_ne_nil _ _), List.append_assoc]
    rfl

/-- **A directive is handed to the engine up to its first colon.** Take a directive that holds no
comment and does not go on, behind lines that leave nothing open. Under its number the engine gets
the directive up to this colon, which it takes as one definition and gives out nothing for, and then
what is left of the line. It gets the directive as it stands exactly if no colon is in front of the
last byte, and then no line that is listed has its number. -/
theorem process_obeys_directive (p : Pipeline) {before : List Text} (hbefore : Settled before)
    {t d : Text} (ht : t.trim = directive ++ d) (hclear : Clear t.trim)
    (hends : goesOn t.trim = false) (after : List Text) :
    let k : Int := before.length + 1
    let texts := before ++ t :: after
    (p.engineLines texts).filter (·.no = k) =
        ⟨k, directive ++ (handed d).1⟩ :: Stage.present ⟨k, (handed d).2⟩ ∧
      (∀ e : Macro.Engine, (Stage.macros e).step ⟨k, directive ++ (handed d).1⟩ =
        match e.define (handed d).1 with
        | .error c => .error ⟨⟨k, directive ++ (handed d).1⟩, .expansion c⟩
        | .ok (_, e') => .ok ⟨.macros e', [.defined k (directive ++ (handed d).1)], []⟩) ∧
      ((p.engineLines texts).filter (·.no = k) = [⟨k, directive ++ d⟩] ↔
        byte ':' ∉ d.dropLast) ∧
      (byte ':' ∉ d.dropLast → ∀ out, p.process texts = .ok out → ∀ l ∈ out, l.no ≠ k) := by
  intro k texts
  have hne : t.trim ≠ [] := by
    rw [ht]
    exact List.cons_ne_nil _ _
  have htrimmed : Text.Trimmed (directive ++ d) := ht ▸ Text.trimmed_trim t
  have hfilter : (p.engineLines texts).filter (·.no = k) =
      ⟨k, directive ++ (handed d).1⟩ :: Stage.present ⟨k, (handed d).2⟩ := by
    rw [← cleaned_directive k htrimmed, ← ht]
    exact p.filter_engineLines_alone hbefore rfl hne hclear hends after
  have hwhole : (p.engineLines texts).filter (·.no = k) = [⟨k, directive ++ d⟩] ↔
      byte ':' ∉ d.dropLast := by
    rw [hfilter, ← handed_eq_self_iff]
    constructor
    · intro h
      have hhead := congrArg Line.text (List.cons.inj h).1
      exact fst_handed_eq_iff.1 (List.append_cancel_left hhead)
    · intro h
      rw [h, Stage.present_nil]
  refine ⟨hfilter, fun e => Stage.step_directive e k _, hwhole, fun hcolon out hout l hl hno => ?_⟩
  obtain ⟨l', hl', hno', hdirective⟩ := exists_engineLine hout hl
  have hmem : l' ∈ (p.engineLines texts).filter (·.no = k) :=
    List.mem_filter.2 ⟨hl', by simpa using hno'.symm.trans hno⟩
  rw [hwhole.2 hcolon, List.mem_singleton] at hmem
  exact hdirective (hmem ▸ List.prefix_append directive d)

/-- A directive whose only colon is its last byte, behind a line of code. -/
theorem process_obeys_directive_colon :
    process ⟨{}, .new 64⟩ [ascii "noop", ascii " #define AT(x) x:", ascii "halt"] =
        .ok [⟨1, ascii "       noop"⟩, ⟨3, ascii "       halt"⟩] ∧
      (engineLines ⟨{}, .new 64⟩ [ascii "noop", ascii " #define AT(x) x:", ascii "halt"]).filter
        (·.no = 2) = [⟨2, directive ++ ascii " AT(x) x:"⟩] ∧
      ∀ out, process ⟨{}, .new 64⟩ [ascii "noop", ascii " #define AT(x) x:", ascii "halt"] =
        .ok out → ∀ l ∈ out, l.no ≠ 2 := by
  have hsettled : Settled [ascii "noop"] := by
    have hlast : ((numbered [ascii "noop"]).flatMap Stage.present).getLast? =
        some ⟨1, ascii "noop"⟩ := by cbv
    refine ⟨?_, by cbv⟩
    rw [hlast]
    rintro l ⟨⟩
    cbv
  have htrim : (ascii " #define AT(x) x:").trim = directive ++ ascii " AT(x) x:" := by cbv
  have hclear : Clear (ascii " #define AT(x) x:").trim := by
    rw [htrim]
    decide +kernel
  obtain ⟨-, -, hwhole, hnone⟩ :=
    process_obeys_directive ⟨{}, .new 64⟩ hsettled htrim hclear (by cbv) [ascii "halt"]
  have hcolon : byte ':' ∉ (ascii " AT(x) x:").dropLast := by decide +kernel
  exact ⟨by cbv, hwhole.2 hcolon, hnone hcolon⟩

/-- A directive that is cut at a colon: the rest of its text is listed under its number. -/
theorem process_directive_with_colon :
    Settled [] ∧ (ascii "#define SEP a:b").trim = directive ++ ascii " SEP a:b" ∧
      Clear (ascii "#define SEP a:b").trim ∧ goesOn (ascii "#define SEP a:b").trim = false ∧
      engineLines ⟨{}, .new 64⟩ [ascii "#define SEP a:b"] =
        [⟨1, directive ++ ascii " SEP a:"⟩, ⟨1, ascii "b"⟩] ∧
      process ⟨{}, .new 64⟩ [ascii "#define SEP a:b"] = .ok [⟨1, ascii "       b"⟩] := by
  have htrim : (ascii "#define SEP a:b").trim = directive ++ ascii " SEP a:b" := by cbv
  have hclear : Clear (ascii "#define SEP a:b").trim := by
    rw [htrim]
    decide +kernel
  have hsettled : Settled [] := ⟨fun l hl => absurd hl (Option.not_mem_none l), rfl⟩
  exact ⟨hsettled, htrim, hclear, by cbv, by cbv, by cbv⟩

end Pipeline

end Preassembler
