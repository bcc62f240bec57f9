import Preassembler.Proofs.Comments.Opener
import Preassembler.Proofs.Listing.Layout
import Preassembler.Proofs.Listing.Provenance

/-! Strict rules about open comments.

A run looks at the rules once: when the stage that removes comments is flushed. By then the last
logical line has gone through all stages, also one that was continued up to the end of the input.
The stages behind hold nothing back but a label, in the last of them (`Chain.Lists`), so from then
on no stage can fail. Strict rules come too late to change what any line comes to, and early enough
that the line of a label left over is not listed any more.

Main statement: strict rules make an error of a comment that is left open, and change nothing else
(`Options.runAll_strict`). -/
namespace Preassembler
open Comment (Mode)

namespace Chain

/-! ### Stages that hold nothing back -/

/-- Stages that hold nothing back, and behind them the one that lists. -/
inductive Lists (width : Nat) : {n : Nat} → Chain n → Prop
  | last (pending : Option Label.Pending) : Lists width (single (.resolve width pending))
  | behind {n : Nat} {s : Stage} {c : Chain n} (hheedless : s.Heedless)
    (hcarries : s.Carries fun _ => True) (hc : Lists width c) : Lists width (n := n + 1) (s, c)

variable {width n : Nat} {c : Chain n}

theorem lists_ofList {front : List Stage}
    (h : ∀ s ∈ front, s.Heedless ∧ s.Carries fun _ => True) :
    (ofList (front ++ [.resolve width none])).Lists width := by
  induction front with
  | nil => exact .last none
  | cons s front ih =>
    rw [List.forall_mem_cons] at h
    exact .behind h.1.1 h.1.2 (ih h.2)

/-- Whatever line such a chain takes, it stays one. -/
theorem Lists.give (h : c.Lists width) (l : Line) :
    (c.give n l).Obeys (fun _ => True) (fun _ => True) (Lists width) := by
  induction n generalizing l with
  | zero => cases h
  | succ n ih =>
    cases h with
    | last pending =>
      cases hs : (Stage.resolve width pending).step l with
      | error e =>
        have hgive : (single (.resolve width pending)).give 1 l = ⟨[], .error e⟩ :=
          give_of_refused hs
        rw [hgive]
        exact Emission.obeys_refused trivial
      | ok r =>
        rw [give_single hs]
        refine ⟨fun _ _ => trivial, nofun, fun c' hc' => ?_⟩
        obtain rfl := Except.ok.inj hc'
        rcases Stage.step_resolve hs with ⟨p, -, hstage, -⟩ | ⟨-, hstage, -⟩
        · exact hstage ▸ .last (some p)
        · exact hstage ▸ .last none
    | @behind _ s c hheedless hcarries hc =>
      cases hs : s.step l with
      | error e =>
        have hgive : Chain.give (n + 1) (s, c) l = ⟨[], .error e⟩ := give_of_refused hs
        rw [hgive]
        exact Emission.obeys_refused trivial
      | ok r =>
        have hgive : Chain.give (n + 1) (s, c) l =
            (c.giveAll r.lines).map fun c' => (r.stage, c') := give_of_step hs
        have hrest : (c.giveAll r.lines).Obeys (fun _ => True) (fun _ => True) (Lists width) :=
          Emission.obeys_each (fun c' l' hc' _ => ih hc' l') hc fun _ _ => trivial
        rw [hgive]
        exact hrest.map fun c' hc' => .behind (hheedless.step hs) (hcarries.step trivial hs).1 hc'

theorem Lists.giveAll (h : c.Lists width) {lines : List Line} {c' : Chain n}
    (hc' : (c.giveAll lines).result = .ok c') : c'.Lists width := by
  have hgiven : (c.giveAll lines).Obeys (fun _ => True) (fun _ => True) (Lists width) :=
    Emission.obeys_each (fun _ l hc _ => hc.give l) h fun _ _ => trivial
  exact hgiven.ok c' hc'

/-- Flushing such a chain cannot fail, and lists at most the label that is left over. -/
theorem Lists.empty (h : c.Lists width) : ∃ left : Option Label.Pending,
    c.empty n = ⟨left.toList.map (Label.dangling width), .ok ()⟩ := by
  induction h with
  | last pending =>
    refine ⟨pending, ?_⟩
    cases pending with
    | none => exact empty_single (r := ⟨_, [], []⟩) rfl
    | some p => exact empty_single (r := ⟨_, [_], [Label.dangling width p]⟩) rfl
  | @behind n s c hheedless hcarries hc ih =>
    obtain ⟨r, hr⟩ := hheedless.flush
    have hempty : Chain.empty (n + 1) (s, c) = (c.giveAll r.lines).bind (Chain.empty n) :=
      empty_of_flush hr
    have hnil : c.giveAll [] = ⟨[], .ok c⟩ := rfl
    rw [hempty, hcarries.flush hr, hnil, Emission.bind_of_ok rfl]
    exact ih

end Chain

namespace Pipeline

theorem lists_codeStages (p : Pipeline) :
    (Chain.ofList p.codeStages).Lists (Label.effectiveWidth p.options.labelWidth) := by
  have hfront : ∀ s ∈
      ([.labels, .trim, .macros p.engine, .statements, .trim, .fill] : List Stage) ++
        (if p.options.numberRegisters then [Stage.registers] else []),
      s.Heedless ∧ s.Carries fun _ => True := by
    intro s hs
    simp only [List.mem_append, List.mem_cons, List.mem_ite_nil_right, List.not_mem_nil,
      or_false] at hs
    obtain (rfl | rfl | rfl | rfl | rfl | rfl) | ⟨-, rfl⟩ := hs <;> exact ⟨trivial, trivial⟩
  exact Chain.lists_ofList hfront

end Pipeline

/-! ### Both rules -/

/-- All that strict rules can change: `lax` and `strict` are what comes of the same lines under
permissive and under strict rules, and `blamed` is the line a comment is left open from. -/
inductive Emission.Tightened (width : Nat) (blamed : Option Line) (lax strict : Emission Unit) : Prop
  | failed {e : LineError} (hlax : lax.result = .error e) (hsame : strict = lax)
  | closed (hlax : lax.result = .ok ()) (hblamed : blamed = none) (hsame : strict = lax)
  | opened {l : Line} {left : Option Label.Pending} (hlax : lax.result = .ok ())
    (hblamed : blamed = some l) (hstrict : strict.result = .error ⟨l, .openComment⟩)
    (hlines : lax.lines = strict.lines ++ left.toList.map (Label.dangling width))

namespace Pipeline

/-- The same pipeline under strict or permissive rules. -/
def withStrict (p : Pipeline) (strict : Bool) : Pipeline :=
  { p with options := { p.options with strictComments := strict } }

theorem emission_withStrict (p : Pipeline) (texts : List Text) :
    Emission.Tightened (Label.effectiveWidth p.options.labelWidth)
      (Comment.remembered none (joinedLines texts))
      ((p.withStrict false).emission texts) ((p.withStrict true).emission texts) := by
  -- Neither the stages behind nor what comes to them depend on the rules.
  have hlax : (p.withStrict false).emission texts =
      (Chain.ofList p.codeStages).whole (Comment.stripped none (joinedLines texts)) := by
    rw [emission_eq_code, Stage.apply_comments]
    rfl
  have hstrict := (p.withStrict true).emission_eq_code texts
  rw [Stage.apply_comments] at hstrict
  cases hblamed : Comment.remembered none (joinedLines texts) with
  | none =>
    rw [hblamed] at hstrict
    have hsame : (p.withStrict true).emission texts = (p.withStrict false).emission texts :=
      hstrict.trans hlax.symm
    cases hresult : ((p.withStrict false).emission texts).result with
    | error e => exact .failed hresult hsame
    | ok _ => exact .closed hresult rfl hsame
  | some l =>
    rw [hblamed] at hstrict
    replace hstrict : (p.withStrict true).emission texts = ((Chain.ofList p.codeStages).giveAll
        (Comment.stripped none (joinedLines texts))).bind
          fun _ => ⟨[], .error ⟨l, .openComment⟩⟩ := hstrict
    rw [hlax, hstrict, Chain.whole]
    cases hcode : ((Chain.ofList p.codeStages).giveAll
        (Comment.stripped none (joinedLines texts))).result with
    | error e =>
      rw [Emission.bind_of_error hcode, Emission.bind_of_error hcode]
      exact .failed rfl rfl
    | ok c =>
      obtain ⟨left, hempty⟩ := (p.lists_codeStages.giveAll hcode).empty
      rw [Emission.bind_of_ok hcode, Emission.bind_of_ok hcode, hempty, List.append_nil]
      exact .opened rfl rfl rfl rfl

end Pipeline

/-! ### Runs -/

/-- What strict rules change about a run: `lax` is the run under permissive rules, `strict` the one
under strict rules, and `mode` tells whether the last logical line ends in a comment. -/
structure Stricter (width : Nat) (mode : Mode) (lax strict : Outcome Unit) : Prop where
  /-- A run that fails under permissive rules fails alike under strict ones. -/
  failed : ∀ e, lax.fault? = some e → strict.fault? = some e ∧ strict.lines = lax.lines
  /-- A run that ends outside of comments stays as it is. -/
  closed : lax.fault? = none → mode.inside = false →
    strict.fault? = none ∧ strict.lines = lax.lines
  /-- A run that ends in a comment fails; all it does not list is a label that is left over. -/
  opened : lax.fault? = none → mode.inside = true →
    (∃ l, strict.fault? = some (.line ⟨l, .openComment⟩)) ∧
      ∃ left : Option Label.Pending,
        lax.lines = strict.lines ++ left.toList.map (Label.dangling width)

/-- Runs differ as what comes of their lines does. -/
theorem Emission.Tightened.stricter {width : Nat} {blamed : Option Line} {x y : Emission Unit}
    (h : x.Tightened width blamed y) {mode : Mode} (hmode : blamed.isSome = mode.inside)
    {lax strict : Outcome Unit}
    (hlax : lax.lines = x.lines ∧ lax.fault? = match x.result with
      | .ok () => none
      | .error e => some (.line e))
    (hstrict : strict.lines = y.lines ∧ strict.fault? = match y.result with
      | .ok () => none
      | .error e => some (.line e)) : Stricter width mode lax strict := by
  obtain ⟨hlines, hfault⟩ := hlax
  obtain ⟨hlines', hfault'⟩ := hstrict
  cases h with
  | failed hresult hsame =>
    rw [hsame, ← hlines] at hlines'
    rw [hsame, ← hfault] at hfault'
    have hfails : lax.fault? ≠ none := by simp [hfault, hresult]
    refine ⟨fun e he => ⟨hfault'.trans he, hlines'⟩, fun hnone => ?_, fun hnone => ?_⟩
    · exact absurd hnone hfails
    · exact absurd hnone hfails
  | closed hresult hblamed hsame =>
    rw [hsame, ← hlines] at hlines'
    rw [hsame, ← hfault] at hfault'
    refine ⟨fun e he => ⟨hfault'.trans he, hlines'⟩, fun hnone _ => ⟨hfault'.trans hnone, hlines'⟩,
      fun _ hinside => ?_⟩
    rw [← hmode, hblamed] at hinside
    cases hinside
  | @opened l left hresult hblamed herror hleft =>
    rw [hresult] at hfault
    rw [herror] at hfault'
    refine ⟨fun e he => ?_, fun _ hcode => ?_, fun _ _ => ⟨⟨l, hfault'⟩, left, ?_⟩⟩
    · rw [hfault] at he
      cases he
    · rw [← hmode, hblamed] at hcode
      cases hcode
    · rw [hlines, hlines', hleft]

namespace Options

/-- **Strict rules only turn an open comment into an error.** Take settings that differ in nothing
but these rules, and any source lines. If the permissive run fails, the strict one fails with the
same error after the same lines. Otherwise it depends on the last logical line, joined by
continuations up to the end of the input: if it ends in code, the strict run lists the same, and if
it ends in a comment, the strict run fails with the open comment. -/
theorem runAll_strict {o : Options} {lax strict : Pipeline}
    (hlax : Pipeline.new { o with strictComments := false } = .ok lax)
    (hstrict : Pipeline.new { o with strictComments := true } = .ok strict) (texts : List Text) :
    Stricter (Label.effectiveWidth o.labelWidth)
      (Mode.code.readLines (Pipeline.joinedLines texts)).2
      (lax.runAll ⟨texts, none⟩) (strict.runAll ⟨texts, none⟩) := by
  obtain ⟨options, engine⟩ := lax
  obtain ⟨options', engine'⟩ := strict
  obtain ⟨rfl, hengine⟩ := Pipeline.new_eq_ok_iff.1 hlax
  obtain ⟨rfl, hengine'⟩ := Pipeline.new_eq_ok_iff.1 hstrict
  obtain rfl : engine = engine' := Except.ok.inj (hengine.symm.trans hengine')
  have hmode : (Comment.remembered none (Pipeline.joinedLines texts)).isSome = _ :=
    Comment.isSome_remembered (m := .code) rfl (Pipeline.joinedLines texts)
  have htightened := Pipeline.emission_withStrict ⟨o, engine⟩ texts
  exact htightened.stricter hmode (Pipeline.result_runAll _ texts) (Pipeline.result_runAll _ texts)

open Text (ascii) in
/-- A comment that is left open behind a label, in a line that is continued at the end of the input. -/
theorem runAll_strict_label :
    let texts := [ascii "noop", ascii "end: /* x\\"]
    let lax : Pipeline := ⟨{}, .new 64⟩
    let strict : Pipeline := ⟨{ strictComments := true }, .new 64⟩
    (Mode.code.readLines (Pipeline.joinedLines texts)).2.inside = true ∧
      (lax.runAll ⟨texts, none⟩).fault? = none ∧
      (lax.runAll ⟨texts, none⟩).lines = [⟨1, ascii "       noop"⟩, ⟨2, ascii "end    "⟩] ∧
      (strict.runAll ⟨texts, none⟩).lines = [⟨1, ascii "       noop"⟩] ∧
      ∃ l, (strict.runAll ⟨texts, none⟩).fault? = some (.line ⟨l, .openComment⟩) := by
  intro texts lax strict
  have hmode : (Mode.code.readLines (Pipeline.joinedLines texts)).2.inside = true := by cbv
  have hfault : (lax.runAll ⟨texts, none⟩).fault? = none := by cbv
  have hlax : Pipeline.new { ({} : Options) with strictComments := false } = .ok lax := rfl
  have hstrict : Pipeline.new { ({} : Options) with strictComments := true } = .ok strict := rfl
  have hstricter := runAll_strict hlax hstrict texts
  exact ⟨hmode, hfault, by cbv, by cbv, (hstricter.opened hfault hmode).1⟩

end Options

end Preassembler
