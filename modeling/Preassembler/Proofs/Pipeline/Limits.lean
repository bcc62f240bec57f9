import Mathlib
import Preassembler.Proofs.Expansion.Raising
import Preassembler.Proofs.Pipeline.Laziness

/-! Pipelines with a raised expansion limit.

The limit is used when predefined macros are stored, when directives are obeyed and when code is
expanded. Two runs that differ in their limits keep step with each other, line by line and stage by
stage, with the same macros in both (`Stage.Raised`, `Chain.Raised`), until the run with the lower
limit exceeds it. So their scripts are equal or the lower run's script ends with that error
(`Chain.Raised.script`), and with the scripts so are the answers.

Main statement: a raised limit changes no answer but an excess (`process_raised_limit`). -/
namespace Preassembler
open Macro (Outlasts)

/-! ### Stages -/

/-- An error that a higher limit might have avoided. -/
def LineError.IsExcess (e : LineError) : Prop := e.cause.kind = .expansionTooDeep

namespace Stage

/-- The same stage, up to a limit that is not lower. -/
inductive Raised : Stage → Stage → Prop where
  | same {s} : Raised s s
  | macros {e e'} : e.Raised e' → Raised (.macros e) (.macros e')

/-- The same answer, up to the limit of the stage behind it. -/
structure Reply.Raised (r r' : Reply) : Prop where
  stage : r.stage.Raised r'.stage
  events : r'.events = r.events
  lines : r'.lines = r.lines

theorem Raised.step {s s' : Stage} (h : s.Raised s') (l : Line) :
    Outlasts LineError.IsExcess Reply.Raised (s.step l) (s'.step l) := by
  cases h with
  | same =>
    cases s.step l with
    | error e => exact .failed
    | ok r => exact .done ⟨.same, rfl, rfl⟩
  | @macros e e' he =>
    have hprocess := he.process l.text
    simp only [Stage.step]
    generalize e.process l.text = x at hprocess
    generalize e'.process l.text = y at hprocess
    cases hprocess with
    | exceeded hx => exact .exceeded hx
    | failed => exact .failed
    | done hanswers =>
      cases hanswers with
      | defined hd => exact .done ⟨.macros hd, rfl, rfl⟩
      | code => exact .done ⟨.macros he, rfl, rfl⟩

theorem Raised.flush {s s' : Stage} (h : s.Raised s') :
    Outlasts LineError.IsExcess Reply.Raised s.flush s'.flush := by
  cases h with
  | same =>
    cases s.flush with
    | error e => exact .failed
    | ok r => exact .done ⟨.same, rfl, rfl⟩
  | macros he => exact .done ⟨.macros he, rfl, rfl⟩

end Stage

/-! ### Emissions -/

namespace Emission
variable {α β γ δ : Type} {R : α → β → Prop} {S : γ → δ → Prop}

/-- The first emission ends with an excess, or both give out the same lines and end alike. -/
inductive Keeps (R : α → β → Prop) (x : Emission α) (y : Emission β) : Prop where
  | exceeded {e} : x.result = .error e → e.IsExcess → Keeps R x y
  | alike : y.lines = x.lines → Outlasts LineError.IsExcess R x.result y.result → Keeps R x y

theorem Keeps.bind {x : Emission α} {y : Emission β} (h : Keeps R x y) {f : α → Emission γ}
    {g : β → Emission δ} (hfg : ∀ a b, R a b → Keeps S (f a) (g b)) :
    Keeps S (x.bind f) (y.bind g) := by
  cases h with
  | exceeded hx he => exact .exceeded (by rw [bind_of_error hx]) he
  | alike hlines hresult =>
    generalize hx : x.result = rx at hresult
    generalize hy : y.result = ry at hresult
    cases hresult with
    | exceeded he => exact .exceeded (by rw [bind_of_error hx]) he
    | failed =>
      rw [bind_of_error hx, bind_of_error hy]
      exact .alike hlines .failed
    | @done a b hab =>
      rw [bind_of_ok hx, bind_of_ok hy]
      cases hfg a b hab with
      | exceeded hf he => exact .exceeded hf he
      | alike hmore hend => exact .alike (by rw [hlines, hmore]) hend

theorem Keeps.map {x : Emission α} {y : Emission β} (h : Keeps R x y) {f : α → γ} {g : β → δ}
    (hfg : ∀ a b, R a b → S (f a) (g b)) : Keeps S (x.map f) (y.map g) := by
  cases h with
  | exceeded hx he => exact .exceeded (by simp only [Emission.map, hx]; rfl) he
  | alike hlines hresult => exact .alike hlines (hresult.map hfg)

theorem keeps_each {f : α → Line → Emission α} {g : β → Line → Emission β}
    (hfg : ∀ a b l, R a b → Keeps R (f a l) (g b l)) {a : α} {b : β} (h : R a b)
    (lines : List Line) : Keeps R (each f a lines) (each g b lines) := by
  induction lines generalizing a b with
  | nil => exact .alike rfl (.done h)
  | cons l rest ih => exact (hfg a b l h).bind fun a' b' h' => ih h'

end Emission

/-! ### Chains -/

namespace Chain
open Emission (Keeps)

/-- The same chain, up to limits that are not lower. -/
def Raised : {n : Nat} → Chain n → Chain n → Prop
  | 0, _, _ => True
  | _ + 1, (s, c), (s', c') => s.Raised s' ∧ Raised c c'

theorem Raised.give {n : Nat} {c c' : Chain n} (h : c.Raised c') (l : Line) :
    Keeps Raised (give n c l) (give n c' l) := by
  induction n generalizing l with
  | zero => exact .alike rfl (.done h)
  | succ n ih =>
    obtain ⟨s, c⟩ := c
    obtain ⟨s', c'⟩ := c'
    obtain ⟨hs, hc⟩ := h
    have hstep := hs.step l
    generalize hx : s.step l = x at hstep
    generalize hy : s'.step l = y at hstep
    cases hstep with
    | exceeded he => exact .exceeded (by rw [give_of_refused hx]) he
    | failed =>
      rw [give_of_refused hx, give_of_refused hy]
      exact .alike rfl .failed
    | done hr =>
      rw [give_of_step hx, give_of_step hy, hr.lines]
      refine (Emission.keeps_each (fun _ _ l h => ih h l) hc _).map fun _ _ hc' => ?_
      exact ⟨hr.stage, hc'⟩

theorem Raised.giveAll {n : Nat} {c c' : Chain n} (h : c.Raised c') (lines : List Line) :
    Keeps Raised (c.giveAll lines) (c'.giveAll lines) :=
  Emission.keeps_each (fun _ _ l h => h.give l) h lines

theorem Raised.empty {n : Nat} {c c' : Chain n} (h : c.Raised c') :
    Keeps Eq (empty n c) (empty n c') := by
  induction n with
  | zero => exact .alike rfl (.done rfl)
  | succ n ih =>
    obtain ⟨s, c⟩ := c
    obtain ⟨s', c'⟩ := c'
    obtain ⟨hs, hc⟩ := h
    have hflush := hs.flush
    generalize hx : s.flush = x at hflush
    generalize hy : s'.flush = y at hflush
    cases hflush with
    | exceeded he => exact .exceeded (by rw [empty_of_refused hx]) he
    | failed =>
      rw [empty_of_refused hx, empty_of_refused hy]
      exact .alike rfl .failed
    | done hr =>
      rw [empty_of_flush hx, empty_of_flush hy, hr.lines]
      exact (hc.giveAll _).bind fun _ _ hc' => ih hc'

/-- Chains that are alike have the same script, unless the first exceeds its limit. -/
theorem Raised.script {n : Nat} {c c' : Chain n} (h : c.Raised c') (error : Option SourceError)
    (count : Nat) (texts : List Text) :
    (∃ e : LineError, e.IsExcess ∧ .fault (.line e) ∈ c.script error count texts) ∨
      c'.script error count texts = c.script error count texts := by
  induction texts generalizing count c c' with
  | nil =>
    cases error with
    | some e => exact .inr rfl
    | none =>
      rw [Chain.script, Chain.script]
      cases h.empty with
      | exceeded hx he => exact .inl ⟨_, he, by simp [hx, ending]⟩
      | alike hlines hresult =>
        generalize hx : (c.empty n).result = x at hresult
        generalize hy : (c'.empty n).result = y at hresult
        cases hresult with
        | @exceeded e _ he => exact .inl ⟨e, he, by simp [ending]⟩
        | failed => exact .inr (by rw [hlines])
        | done => exact .inr (by rw [hlines])
  | cons t rest ih =>
    rw [Chain.script, Chain.script]
    cases h.give ⟨count + 1, t⟩ with
    | exceeded hx he => exact .inl ⟨_, he, by simp [hx]⟩
    | alike hlines hresult =>
      generalize hx : (c.give n ⟨count + 1, t⟩).result = x at hresult
      generalize hy : (c'.give n ⟨count + 1, t⟩).result = y at hresult
      cases hresult with
      | @exceeded e _ he => exact .inl ⟨e, he, by simp⟩
      | failed => exact .inr (by rw [hlines])
      | done hnext =>
        rcases ih hnext (count + 1) with ⟨e, he, hmem⟩ | hsame
        · exact .inl ⟨e, he, by simp [hmem]⟩
        · exact .inr (by rw [hlines]; simp only [hsame])

theorem Raised.refl {n : Nat} (c : Chain n) : c.Raised c := by
  induction n with
  | zero => trivial
  | succ n ih => exact ⟨.same, ih c.2⟩

end Chain

/-! ### Setting up -/

def SetupError.IsExcess (e : SetupError) : Prop := e.error.IsExcess

theorem Options.predefine_raised {e e' : Macro.Engine} (h : e.Raised e')
    (defines : List (Text × Text)) :
    Outlasts SetupError.IsExcess Macro.Engine.Raised (predefine e defines)
      (predefine e' defines) := by
  induction defines generalizing e e' with
  | nil => exact .done h
  | cons d rest ih =>
    obtain ⟨name, text⟩ := d
    have hdefine := h.defineValue name text
    simp only [predefine]
    generalize e.defineValue name text = x at hdefine
    generalize e'.defineValue name text = y at hdefine
    cases hdefine with
    | exceeded he => exact .exceeded he
    | failed => exact .failed
    | done hd => exact ih hd

namespace Pipeline

/-- An error in the script of a run is its answer. -/
theorem process_eq_error {p : Pipeline} {texts : List Text} {e : Fault}
    (h : .fault e ∈ p.script ⟨texts, none⟩) : p.process texts = .error e := by
  have hfault : (p.runAll ⟨texts, none⟩).fault? = some e := by
    obtain ⟨before, after, hscript⟩ := List.append_of_mem h
    rw [Outcome.fault?, trace_runAll, List.findSome?_eq_some_iff]
    refine ⟨before, .fault e, after, hscript, rfl, fun signal hmem => ?_⟩
    cases signal with
    | fault e' =>
      -- No error comes before it: nothing is heard after an error.
      obtain ⟨before', between, rfl⟩ := List.append_of_mem hmem
      rw [List.append_assoc] at hscript
      have hheard : true = false := Chain.quiet_after_fault hscript (.fault e) (by simp)
      cases hheard
    | _ => rfl
  simp only [process, Outcome.result, hfault]

/-- The answer of a pipeline can be read off its script. -/
theorem process_congr {p p' : Pipeline} {texts : List Text}
    (h : p'.script ⟨texts, none⟩ = p.script ⟨texts, none⟩) :
    p'.process texts = p.process texts := by
  simp only [process, Outcome.result, Outcome.fault?, Outcome.lines, trace_runAll, h]

theorem raised_stages (o : Options) (d d' : Int) {e e' : Macro.Engine} (h : e.Raised e') :
    (Chain.ofList (stages ⟨{ o with expansionLimit := d }, e⟩)).Raised
      (Chain.ofList (stages ⟨{ o with expansionLimit := d' }, e'⟩)) :=
  ⟨.same, .same, .same, .same, .same, .macros h, .refl _⟩

end Pipeline

/-! ### Answers -/

/-- Why there is no listing. -/
inductive Refusal where
  | setup (error : SetupError)
  | run (error : Fault)
  deriving DecidableEq, Repr

/-- Whether an expansion limit was exceeded. -/
inductive Refusal.IsExcess : Refusal → Prop where
  | setup {e : SetupError} : e.error.kind = .expansionTooDeep → IsExcess (.setup e)
  | run {e : LineError} : e.cause.kind = .expansionTooDeep → IsExcess (.run (.line e))

/-- The listing of source lines under settings, from setting up the pipeline on. -/
def Options.process (o : Options) (texts : List Text) : Except Refusal (List Line) :=
  match Pipeline.new o with
  | .error e => .error (.setup e)
  | .ok p => (p.process texts).mapError .run

/-- **A raised expansion limit changes no answer.** Settings that differ in their limits only come
to the same listing or the same error, unless the lower limit is exceeded: when macros are
predefined, in a definition, or in a line of code. -/
theorem Options.process_raised_limit (o : Options) (texts : List Text) {d d' : Int} (hpos : 0 < d)
    (hle : d ≤ d') :
    (∃ e, { o with expansionLimit := d }.process texts = .error e ∧ e.IsExcess) ∨
      { o with expansionLimit := d' }.process texts =
        { o with expansionLimit := d }.process texts := by
  have hengine : Outlasts SetupError.IsExcess Macro.Engine.Raised
      { o with expansionLimit := d }.engine { o with expansionLimit := d' }.engine :=
    predefine_raised (.new hpos hle) o.defines.entries
  simp only [process, Pipeline.new]
  generalize { o with expansionLimit := d }.engine = x at hengine
  generalize { o with expansionLimit := d' }.engine = y at hengine
  cases hengine with
  | exceeded he => exact .inl ⟨_, rfl, .setup he⟩
  | failed => exact .inr rfl
  | done hraised =>
    rcases (Pipeline.raised_stages o d d' hraised).script none 0 texts with ⟨e, he, hmem⟩ | hsame
    · have hprocess := congrArg (Except.mapError Refusal.run) (Pipeline.process_eq_error hmem)
      exact .inl ⟨_, hprocess, .run he⟩
    · exact .inr (congrArg (Except.mapError Refusal.run) (Pipeline.process_congr hsame))

open Text (ascii) in
/-- One level of replacement is enough for this program, so a limit of two changes nothing. -/
theorem Options.process_raised_limit_once :
    { expansionLimit := 2 : Options }.process [ascii "#define one 1", ascii "lw r1 0 one"] =
      .ok [⟨2, ascii "       lw 1 0 1"⟩] := by
  have hlisting : { expansionLimit := 1 : Options }.process
      [ascii "#define one 1", ascii "lw r1 0 one"] = .ok [⟨2, ascii "       lw 1 0 1"⟩] := by
    cbv
  rcases process_raised_limit {} [ascii "#define one 1", ascii "lw r1 0 one"]
    (show (0 : Int) < 1 by decide) (show (1 : Int) ≤ 2 by decide) with ⟨e, he, -⟩ | hsame
  · cases hlisting.symm.trans he
  · exact hsame.trans hlisting

end Preassembler
