import Preassembler.Proofs.Labels.Pairing
import Preassembler.Proofs.Listing.LogicalLine

/-! Ending the input renews a stage.

Two stages hold something back from line to line: the one that joins lines and the one that attaches
labels. The end of the input is no more than another thing they can be asked for, in any order with
lines, some of which they refuse (`Stage.respond`). A stage is a value in which nothing is told that
is not held, so what is left of it after the end of the input is the stage it began as.

Kept in fields that are set one by one, neither stage is what it began as: the number of the line
begun last and the line of the last declaration stay behind. But they are not read again before they
are set again. `Continuation.Fields.Holds` and `Label.Fields.Holds` say which fields count in which
state, and no line and no end of the input breaks them (`Agrees`).

Main statement: what is held back is given out once, and whatever comes after it is answered as by a
new stage, also by the fields (`Stage.ending_renews`). -/
namespace Preassembler

namespace Stage

/-! ### Stages that are asked again and again -/

/-- What a stage is asked for. -/
inductive Input where
  | line (l : Line)
  | ending
  deriving DecidableEq, Repr

/-- What is seen of a stage when it is asked. -/
structure Answer where
  events : List Event
  lines : List Line
  error : Option LineError
  deriving DecidableEq, Repr

def Answer.nothing : Answer := ⟨[], [], none⟩

/-- The stage that is left, and what is seen of it. A stage that fails stays as it was. -/
def answered (s : Stage) : Except LineError Reply → Stage × Answer
  | .ok r => (r.stage, ⟨r.events, r.lines, none⟩)
  | .error e => (s, ⟨[], [], some e⟩)

def respond (s : Stage) : Input → Stage × Answer
  | .line l => s.answered (s.step l)
  | .ending => s.answered s.flush

section Machine
variable {σ τ : Type} (respond : σ → Input → σ × Answer) (respond' : τ → Input → τ × Answer)

/-- All that is seen, whether or not anything was refused. -/
def answers (s : σ) : List Input → List Answer
  | [] => []
  | i :: rest => (respond s i).2 :: answers (respond s i).1 rest

/-- What is left at the end of the input, after a history in which the input may have ended before. -/
def ended (s : σ) : List Input → σ
  | [] => (respond s .ending).1
  | i :: rest => ended (respond s i).1 rest

/-- Whatever came before it, the end of the input leaves nothing that could be given out at another
end, and nothing that could be told from a new start. -/
structure Renews (fresh : σ) : Prop where
  nothing : ∀ history, (respond (ended respond fresh history) .ending).2 = .nothing
  like_new : ∀ history inputs,
    answers respond (ended respond fresh history) inputs = answers respond fresh inputs

/-- States that `R` relates give the same answer and are related again behind it. -/
def Agrees (R : σ → τ → Prop) : Prop :=
  ∀ s t, R s t → ∀ i, (respond s i).2 = (respond' t i).2 ∧ R (respond s i).1 (respond' t i).1

variable {respond respond'} {R : σ → τ → Prop} {s : σ} {t : τ}

theorem agrees_eq : Agrees respond respond Eq := by
  rintro s _ rfl i
  exact ⟨rfl, rfl⟩

theorem Agrees.answers_eq (h : Agrees respond respond' R) (hst : R s t) (inputs : List Input) :
    answers respond s inputs = answers respond' t inputs := by
  induction inputs generalizing s t with
  | nil => rfl
  | cons i rest ih =>
    obtain ⟨hanswer, hnext⟩ := h s t hst i
    rw [answers, answers, hanswer, ih hnext]

theorem Agrees.ended (h : Agrees respond respond' R) (hst : R s t) (history : List Input) :
    R (ended respond s history) (ended respond' t history) := by
  induction history generalizing s t with
  | nil => exact (h s t hst .ending).2
  | cons i rest ih => exact ih (h s t hst i).2

/-- The end of the input gives back the start if it does so from all states in between. -/
theorem ended_eq {P : σ → Prop} {fresh : σ} (hnext : ∀ {s}, P s → ∀ i, P (respond s i).1)
    (hend : ∀ {s}, P s → (respond s .ending).1 = fresh) (hs : P s) (history : List Input) :
    ended respond s history = fresh := by
  induction history generalizing s with
  | nil => exact hend hs
  | cons i rest ih => exact ih (hnext hs i)

/-- What answers as something that the end of the input brings back to its start is renewed by it. -/
theorem Agrees.renews (h : Agrees respond respond' R) (hst : R s t)
    (hended : ∀ history, Stage.ended respond' t history = t)
    (hnothing : (respond' t .ending).2 = .nothing) : Renews respond s := by
  have hback (history : List Input) : R (Stage.ended respond s history) t :=
    hended history ▸ h.ended hst history
  constructor
  · intro history
    rw [(h _ t (hback history) .ending).1, hnothing]
  · intro history inputs
    rw [h.answers_eq (hback history), h.answers_eq hst]

/-- Fields in which a stage is kept: they answer as the stage does, and the end of the input renews
the stage as well as the fields. -/
structure Kept (respond : σ → Input → σ × Answer) (fresh : σ) (s : Stage) : Prop where
  answers_eq : ∀ inputs, answers respond fresh inputs = answers Stage.respond s inputs
  stage : Renews Stage.respond s
  fields : Renews respond fresh

theorem Agrees.kept {R : σ → Stage → Prop} {fresh : σ} {s : Stage}
    (h : Agrees respond Stage.respond R) (hfresh : R fresh s)
    (hended : ∀ history, Stage.ended Stage.respond s history = s)
    (hnothing : (s.respond .ending).2 = .nothing) : Kept respond fresh s where
  answers_eq := h.answers_eq hfresh
  stage := agrees_eq.renews rfl hended hnothing
  fields := h.renews hfresh hended hnothing

end Machine

/-! ### The two stages as values -/

theorem ended_continuations (history : List Input) :
    ended respond (continuations none) history = continuations none := by
  refine ended_eq (P := fun s => ∃ held, s = continuations held) ?_ ?_ ⟨none, rfl⟩ history
  · rintro _ ⟨held, rfl⟩ (l | _)
    · exact ⟨(Continuation.step held l).1, rfl⟩
    · exact ⟨none, rfl⟩
  · rintro _ ⟨held, rfl⟩
    rfl

theorem respond_resolve (width : Nat) (pending : Option Label.Pending) (i : Input) :
    ∃ pending', ((resolve width pending).respond i).1 = resolve width pending' := by
  cases i with
  | ending => cases pending <;> exact ⟨none, rfl⟩
  | line l =>
    simp only [respond, step]
    cases Label.resolve width pending l with
    | error e => exact ⟨pending, rfl⟩
    | ok r =>
      rcases r with p | ⟨line, _ | label⟩
      · exact ⟨some p, rfl⟩
      · exact ⟨none, rfl⟩
      · exact ⟨none, rfl⟩

theorem ended_resolve (width : Nat) (history : List Input) :
    ended respond (resolve width none) history = resolve width none := by
  refine ended_eq (P := fun s => ∃ pending, s = resolve width pending) ?_ ?_ ⟨none, rfl⟩ history
  · rintro _ ⟨pending, rfl⟩ i
    exact respond_resolve width pending i
  · rintro _ ⟨_ | p, rfl⟩ <;> rfl

end Stage

/-! ### Joining in fields -/

namespace Continuation
open Stage (Input Answer Agrees continuations)
open Text (byte)

/-- What the stage that joins lines remembers, in fields that are set one by one. -/
structure Fields where
  /-- The parts so far, joined. -/
  buffer : Text
  /-- The number of the first part of the line that was begun last. -/
  first : Int
  waits : Bool
  deriving DecidableEq, Repr

namespace Fields

def new : Fields := ⟨[], 0, false⟩

/-- Gives out the joined line, unless it is empty. -/
def release (f : Fields) : Fields × List Line :=
  ({ f with buffer := [], waits := false },
    if f.buffer.isEmpty then [] else [⟨f.first, f.buffer⟩])

/-- Begins a line if none is unfinished. -/
def start (f : Fields) (no : Int) : Fields :=
  if f.waits then f else { f with first := no, waits := true }

def add (f : Fields) (part : Text) : Fields := { f with buffer := f.buffer ++ part }

def step (f : Fields) (l : Line) : Fields × List Line :=
  match Text.dropLast? (byte '\\') l.text with
  | some part => ((f.start l.no).add part, [])
  | none => if f.waits then (f.add l.text).release else (f, [l])

def flush (f : Fields) : Fields × List Line := if f.waits then f.release else (f, [])

def respond (f : Fields) : Input → Fields × Answer
  | .line l => ((f.step l).1, ⟨[], (f.step l).2, none⟩)
  | .ending => (f.flush.1, ⟨[], f.flush.2, none⟩)

/-- The fields that count for the stage. While no line is unfinished it does not matter which number
has stayed behind. -/
inductive Holds : Fields → Stage → Prop
  | idle (no : Int) : Holds ⟨[], no, false⟩ (continuations none)
  | waits {buffer : Text} (h : Held) (hbuffer : buffer = h.text) :
    Holds ⟨buffer, h.no, true⟩ (continuations (some h))

theorem Holds.eq_of_none {f : Fields} (h : Holds f (continuations none)) :
    ∃ no, f = { new with first := no } := by
  cases h with
  | idle no => exact ⟨no, rfl⟩

theorem agrees : Agrees respond Stage.respond Holds := by
  rintro _ _ (no | ⟨h, rfl⟩) (l | _)
  · cases hl : Text.dropLast? (byte '\\') l.text with
    | some part =>
      simp only [respond, step, start, add, hl, Stage.respond, Stage.step, Continuation.step]
      exact ⟨rfl, .waits ⟨l.no, [part]⟩ (List.append_nil part).symm⟩
    | none =>
      simp only [respond, step, hl, Stage.respond, Stage.step, Continuation.step]
      exact ⟨rfl, .idle no⟩
  · exact ⟨rfl, .idle no⟩
  · cases hl : Text.dropLast? (byte '\\') l.text with
    | some part =>
      simp only [respond, step, start, add, hl, Stage.respond, Stage.step, Continuation.step]
      exact ⟨rfl, .waits (h.add part) (text_add h part).symm⟩
    | none =>
      simp only [respond, step, add, release, hl, Stage.respond, Stage.step, Continuation.step,
        Held.release, text_add]
      exact ⟨rfl, .idle h.no⟩
  · exact ⟨rfl, .idle h.no⟩

/-- Of the fields no more than the number of a first part stays behind. -/
theorem ended_new (history : List Input) :
    ∃ no, Stage.ended respond new history = { new with first := no } := by
  have hended := agrees.ended (.idle 0) history
  rw [Stage.ended_continuations] at hended
  exact hended.eq_of_none

/-- It stays until another line is begun. -/
theorem ended_begun (no : Int) {l : Line} (hl : goesOn l.text = true) :
    Stage.ended respond { new with first := no } [.line l] = { new with first := l.no } := by
  obtain ⟨part, hpart⟩ := Option.isSome_iff_exists.1 hl
  simp only [Stage.ended, respond, step, hpart]
  rfl

end Fields

end Continuation

/-! ### Attaching labels in fields -/

namespace Label.Fields
open Stage (Input Answer Agrees)
open Text (byte)

def reply (f : Fields) : Input → Reply
  | .line l => f.step l
  | .ending => f.flush

/-- What is worth a log record. -/
def logged (f : Fields) : Input → List Event
  | .line l => if (declared? l.text).isNone && f.waits then [.labelResolved f.label l.no] else []
  | .ending => if f.waits then [.labelDangling f.label f.declaration.no] else []

def respond (f : Fields) (i : Input) : Fields × Answer :=
  ((f.reply i).fields, ⟨f.logged i, (f.reply i).lines, (f.reply i).error⟩)

/-- The fields that count for the stage. While no label waits it does not matter which declaration
has stayed behind. -/
inductive Holds (n : Int) : Fields → Stage → Prop
  | idle (d : Line) : Holds n ⟨n, [], false, d⟩ (Stage.resolve (effectiveWidth n) none)
  | waits (label : Text) (d : Line) :
    Holds n ⟨n, label, true, d⟩ (Stage.resolve (effectiveWidth n) (some ⟨label, d.no⟩))

theorem agrees (n : Int) : Agrees respond Stage.respond (Holds n) := by
  rintro _ _ (d | ⟨label, d⟩) (l | _)
  · cases hl : declared? l.text with
    | none =>
      simp only [respond, reply, logged, step, hl, Stage.respond, Stage.step, Label.resolve]
      exact ⟨rfl, .idle d⟩
    | some label =>
      by_cases hlong : effectiveWidth n < label.length
      · simp only [respond, reply, logged, step, hl, hlong, Stage.respond, Stage.step, Label.resolve]
        exact ⟨rfl, .idle d⟩
      · simp only [respond, reply, logged, step, hl, hlong, Stage.respond, Stage.step, Label.resolve]
        exact ⟨rfl, .waits label l⟩
  · exact ⟨rfl, .idle d⟩
  · cases hl : declared? l.text with
    | none =>
      simp only [respond, reply, logged, step, hl, Stage.respond, Stage.step, Label.resolve]
      exact ⟨rfl, .idle d⟩
    | some label' =>
      simp only [respond, reply, logged, step, hl, Stage.respond, Stage.step, Label.resolve]
      exact ⟨rfl, .waits label d⟩
  · exact ⟨rfl, .idle d⟩

theorem Holds.eq_of_none {n : Int} {f : Fields}
    (h : Holds n f (Stage.resolve (effectiveWidth n) none)) :
    ∃ d, f = { new n with declaration := d } := by
  cases h with
  | idle d => exact ⟨d, rfl⟩

/-- Of the fields no more than the line of a declaration stays behind. -/
theorem ended_new (n : Int) (history : List Input) :
    ∃ d, Stage.ended respond (new n) history = { new n with declaration := d } := by
  have hended := (agrees n).ended (.idle ⟨0, []⟩) history
  rw [Stage.ended_resolve] at hended
  exact hended.eq_of_none

/-- It stays until another label is declared. -/
theorem ended_declared (n : Int) (before : Line) {d : Line} {label : Text}
    (hd : d.text = label ++ [byte ':']) (hshort : label.length ≤ effectiveWidth n) :
    Stage.ended respond { new n with declaration := before } [.line d] =
      { new n with declaration := d } := by
  have hdeclared := declared?_eq_some_iff.2 hd
  have hfits : ¬ effectiveWidth (new n).width < label.length := Nat.not_lt.2 hshort
  simp only [Stage.ended, respond, reply, step, hdeclared, hfits]
  rfl

end Label.Fields

/-! ### Both stages -/

namespace Stage
open Text (ascii byte)

/-- **What is held back is given out once.** Take the stage that joins lines and the one that attaches
labels, as values or in fields, and let them be given lines and the end of the input in any order,
with lines among them that are refused. The end of the input leaves nothing to give out at another
end, and everything after it is answered as by a new stage. It is so although one of the fields stays
behind, and keeps what it was set to until it is set again. -/
theorem ending_renews (n : Int) :
    (Kept Continuation.Fields.respond .new (continuations none) ∧
      (∀ history, ∃ no, ended Continuation.Fields.respond .new history =
        { Continuation.Fields.new with first := no }) ∧
      ∀ (no : Int) (l : Line), Continuation.goesOn l.text = true →
        ended Continuation.Fields.respond { Continuation.Fields.new with first := no } [.line l] =
          { Continuation.Fields.new with first := l.no }) ∧
    Kept Label.Fields.respond (.new n) (resolve (Label.effectiveWidth n) none) ∧
      (∀ history, ∃ d, ended Label.Fields.respond (.new n) history =
        { Label.Fields.new n with declaration := d }) ∧
      ∀ (before d : Line) (label : Text), d.text = label ++ [byte ':'] →
        label.length ≤ Label.effectiveWidth n →
        ended Label.Fields.respond { Label.Fields.new n with declaration := before } [.line d] =
          { Label.Fields.new n with declaration := d } := by
  have hjoiner : Kept Continuation.Fields.respond .new (continuations none) :=
    Continuation.Fields.agrees.kept (.idle 0) ended_continuations rfl
  have hresolver : Kept Label.Fields.respond (.new n) (resolve (Label.effectiveWidth n) none) :=
    (Label.Fields.agrees n).kept (.idle ⟨0, []⟩) (ended_resolve _) rfl
  refine ⟨⟨hjoiner, Continuation.Fields.ended_new, ?_⟩, hresolver, Label.Fields.ended_new n, ?_⟩
  · intro no l hl
    exact Continuation.Fields.ended_begun no hl
  · intro before d label hd hshort
    exact Label.Fields.ended_declared n before hd hshort

/-- A declaration that is refused does not take the place of the one that waits. -/
example : answers respond (resolve 6 none) [.line ⟨1, ascii "a:"⟩, .line ⟨2, ascii "b:"⟩, .ending,
    .ending, .line ⟨3, ascii "halt"⟩] = [.nothing,
      ⟨[], [], some ⟨⟨2, ascii "b:"⟩, .labelTwice (ascii "b:") (ascii "a")⟩⟩,
      ⟨[.labelDangling (ascii "a") 1], [⟨1, ascii "a      "⟩], none⟩, .nothing,
      ⟨[], [⟨3, ascii "       halt"⟩], none⟩] := by cbv

end Stage

end Preassembler
