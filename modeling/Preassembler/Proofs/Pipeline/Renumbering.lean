import Preassembler.Proofs.Pipeline.Cascade

/-! Renumbered lines.

Stages carry the numbers of lines, remember some of them and report them with errors, but never look
at them. So a stage that takes renumbered lines gives out renumbered lines (`Stage.step_renumber`,
`Stage.flush_renumber`), and so does a chain of stages for a whole input.

Main statement: renumbering source lines renumbers the lines and the error that come of them
(`Chain.whole_renumber`). -/
namespace Preassembler

/-! ### Lines and what holds them -/

/-- A line with another number. -/
def Line.renumber (f : Int → Int) (l : Line) : Line := { l with no := f l.no }

def LineError.renumber (f : Int → Int) (e : LineError) : LineError :=
  { e with line := e.line.renumber f }

def Continuation.Held.renumber (f : Int → Int) (h : Held) : Held := { h with no := f h.no }

def Label.Pending.renumber (f : Int → Int) (p : Pending) : Pending := { p with no := f p.no }

def Event.renumber (f : Int → Int) : Event → Event
  | .defined no directive => .defined (f no) directive
  | .labelResolved label no => .labelResolved label (f no)
  | .labelDangling label no => .labelDangling label (f no)
  | .drained lines => .drained lines

namespace Stage

/-- A stage that remembers lines under other numbers. -/
def renumber (f : Int → Int) : Stage → Stage
  | continuations held => continuations (held.map (.renumber f))
  | comments strict opened => comments strict (opened.map (.renumber f))
  | resolve width pending => resolve width (pending.map (.renumber f))
  | s => s

def Reply.renumber (f : Int → Int) (r : Reply) : Reply :=
  ⟨r.stage.renumber f, r.events.map (.renumber f), r.lines.map (.renumber f)⟩

end Stage

/-- A result whose value and whose error are renumbered. -/
def renumberResult {α β : Type} (f : Int → Int) (g : α → β) (x : Except LineError α) :
    Except LineError β := (x.map g).mapError (LineError.renumber f)

/-! ### Stages -/

theorem Continuation.release_renumber (f : Int → Int) (h : Held) :
    (h.renumber f).release = h.release.map (.renumber f) := by
  show (if h.text.isEmpty then [] else [(⟨f h.no, h.text⟩ : Line)]) = _
  unfold Held.release
  split <;> rfl

theorem Continuation.step_renumber (f : Int → Int) (held : Option Held) (l : Line) :
    step (held.map (.renumber f)) (l.renumber f) =
      ((step held l).1.map (.renumber f), (step held l).2.map (.renumber f)) := by
  have htext : (l.renumber f).text = l.text := rfl
  unfold step
  rw [htext]
  cases Text.dropLast? (Text.byte '\\') l.text with
  | some part => cases held <;> rfl
  | none =>
    cases held with
    | none => rfl
    | some h => exact congrArg (Prod.mk none) (release_renumber f (h.add l.text))

theorem Comment.step_renumber (f : Int → Int) (opened : Option Line) (l : Line) :
    step (opened.map (.renumber f)) (l.renumber f) =
      ((step opened l).1.map (.renumber f), (step opened l).2.renumber f) := by
  have htext : (l.renumber f).text = l.text := rfl
  simp only [step, Option.isSome_map, htext]
  cases (strip opened.isSome l.text).2 with
  | false => rfl
  | true => cases opened <;> rfl

theorem Label.split_renumber (f : Int → Int) (l : Line) :
    split (l.renumber f) = (split l).map (.renumber f) := by
  have htext : (l.renumber f).text = l.text := rfl
  unfold split
  rw [htext]
  split <;> rfl

theorem Statement.split_renumber (f : Int → Int) (l : Line) :
    split (l.renumber f) = (split l).map (.renumber f) := by
  rw [split, split, List.map_map]
  rfl

namespace Stage

/-- Taking a renumbered line is taking the line and renumbering all that comes of it. -/
theorem step_renumber (f : Int → Int) (s : Stage) (l : Line) :
    (s.renumber f).step (l.renumber f) = renumberResult f (Reply.renumber f) (s.step l) := by
  have htext : (l.renumber f).text = l.text := rfl
  cases s with
  | trim =>
    simp only [renumber, step, htext]
    split <;> rfl
  | continuations held =>
    simp only [renumber, step, Continuation.step_renumber]
    rfl
  | comments strict opened =>
    simp only [renumber, step, Comment.step_renumber]
    rfl
  | labels =>
    simp only [renumber, step, Label.split_renumber]
    rfl
  | macros engine =>
    simp only [renumber, step, htext]
    split <;> rfl
  | statements =>
    simp only [renumber, step, Statement.split_renumber]
    rfl
  | fill => rfl
  | registers => rfl
  | resolve width pending =>
    simp only [renumber, step, Label.resolve, htext]
    cases Label.declared? l.text with
    | none => cases pending <;> rfl
    | some label =>
      cases pending with
      | some p => rfl
      | none =>
        simp only [Option.map_none]
        by_cases hwidth : width < label.length
        · simp only [hwidth, if_true]
          rfl
        · simp only [hwidth, if_false]
          rfl

theorem flush_renumber (f : Int → Int) (s : Stage) :
    (s.renumber f).flush = renumberResult f (Reply.renumber f) s.flush := by
  cases s with
  | continuations held =>
    cases held with
    | none => rfl
    | some h =>
      show Except.ok (Reply.mk _ _ (h.renumber f).release) = _
      rw [Continuation.release_renumber]
      rfl
  | comments strict opened => cases opened <;> cases strict <;> rfl
  | resolve width pending => cases pending <;> rfl
  | _ => rfl

end Stage

/-! ### Emissions -/

namespace Emission
variable {α β γ δ : Type} {f : Int → Int}

/-- An emission with renumbered lines and a renumbered result. -/
def renumber (f : Int → Int) (g : α → β) (x : Emission α) : Emission β :=
  ⟨x.lines.map (.renumber f), renumberResult f g x.result⟩

theorem bind_renumber {x : Emission α} {g : α → β} {h : γ → δ} {k : α → Emission γ}
    {k' : β → Emission δ} (hk : ∀ a, k' (g a) = (k a).renumber f h) :
    (x.renumber f g).bind k' = (x.bind k).renumber f h := by
  cases hx : x.result with
  | error e => simp [bind, renumber, renumberResult, hx, Except.map, Except.mapError]
  | ok a => simp [bind, renumber, renumberResult, hx, Except.map, Except.mapError, hk]

theorem map_renumber {x : Emission α} {g : α → β} {h : γ → δ} {k : α → γ} {k' : β → δ}
    (hk : ∀ a, k' (g a) = h (k a)) : (x.renumber f g).map k' = (x.map k).renumber f h := by
  cases hx : x.result <;> simp [map, renumber, renumberResult, hx, Except.map, Except.mapError, hk]

theorem each_renumber {g : α → β} {k : α → Line → Emission α} {k' : β → Line → Emission β}
    (hk : ∀ a l, k' (g a) (l.renumber f) = (k a l).renumber f g) (a : α) (lines : List Line) :
    each k' (g a) (lines.map (.renumber f)) = (each k a lines).renumber f g := by
  induction lines generalizing a with
  | nil => rfl
  | cons l rest ih =>
    rw [List.map_cons, each, each, hk]
    exact bind_renumber fun a' => ih a'

end Emission

/-! ### Chains -/

namespace Chain
variable {n : Nat}

/-- A chain whose stages remember lines under other numbers. -/
def renumber (f : Int → Int) : {n : Nat} → Chain n → Chain n
  | 0, c => c
  | _ + 1, (s, c) => (s.renumber f, renumber f c)

theorem give_renumber (f : Int → Int) (c : Chain n) (l : Line) :
    give n (c.renumber f) (l.renumber f) = (give n c l).renumber f (renumber f) := by
  induction n generalizing l with
  | zero => rfl
  | succ n ih =>
    obtain ⟨s, c⟩ := c
    have hstep := Stage.step_renumber f s l
    cases hs : s.step l with
    | error e =>
      rw [hs] at hstep
      exact (give_of_refused (c := c.renumber f) hstep).trans
        (congrArg (Emission.renumber f _) (give_of_refused (c := c) hs)).symm
    | ok r =>
      rw [hs] at hstep
      refine (give_of_step (c := c.renumber f) hstep).trans
        (Eq.trans ?_ (congrArg (Emission.renumber f _) (give_of_step (c := c) hs)).symm)
      have hall : (c.renumber f).giveAll (r.lines.map (.renumber f)) =
          (c.giveAll r.lines).renumber f (renumber f) :=
        Emission.each_renumber (fun c l => ih c l) c r.lines
      exact (congrArg (Emission.map _) hall).trans (Emission.map_renumber fun _ => rfl)

theorem giveAll_renumber (f : Int → Int) (c : Chain n) (lines : List Line) :
    (c.renumber f).giveAll (lines.map (.renumber f)) = (c.giveAll lines).renumber f (renumber f) :=
  Emission.each_renumber (give_renumber f) c lines

theorem empty_renumber (f : Int → Int) (c : Chain n) :
    empty n (c.renumber f) = (empty n c).renumber f id := by
  induction n with
  | zero => rfl
  | succ n ih =>
    obtain ⟨s, c⟩ := c
    have hflush := Stage.flush_renumber f s
    cases hs : s.flush with
    | error e =>
      rw [hs] at hflush
      exact (empty_of_refused (c := c.renumber f) hflush).trans
        (congrArg (Emission.renumber f id) (empty_of_refused (c := c) hs)).symm
    | ok r =>
      rw [hs] at hflush
      refine (empty_of_flush (c := c.renumber f) hflush).trans
        (Eq.trans ?_ (congrArg (Emission.renumber f id) (empty_of_flush (c := c) hs)).symm)
      have hall := giveAll_renumber f c r.lines
      exact (congrArg (Emission.bind · (empty n)) hall).trans (Emission.bind_renumber ih)

/-- **Stages do not look at numbers.** Renumbered lines come to renumbered lines, and to the same
error on a renumbered line. -/
theorem whole_renumber (f : Int → Int) (c : Chain n) (lines : List Line) :
    (c.renumber f).whole (lines.map (.renumber f)) = (c.whole lines).renumber f id := by
  rw [whole, giveAll_renumber]
  exact Emission.bind_renumber (empty_renumber f)

/-- Stages that remember no lines are the same under all numbers. -/
theorem renumber_ofList (f : Int → Int) {stages : List Stage}
    (h : ∀ s ∈ stages, s.renumber f = s) : (ofList stages).renumber f = ofList stages := by
  induction stages with
  | nil => rfl
  | cons s rest ih =>
    have hs := h s List.mem_cons_self
    have hrest := ih fun s' hs' => h s' (List.mem_cons_of_mem s hs')
    exact congr (congrArg Prod.mk hs) hrest

end Chain

/-! ### Answers -/

def Fault.renumber (f : Int → Int) : Fault → Fault
  | .line e => .line (e.renumber f)
  | e => e

/-- The answer to renumbered lines. -/
def renumberAnswer (f : Int → Int) : Except Fault (List Line) → Except Fault (List Line)
  | .ok lines => .ok (lines.map (.renumber f))
  | .error e => .error (e.renumber f)

theorem Emission.answer_renumber (f : Int → Int) (x : Emission Unit) :
    (x.renumber f id).answer = renumberAnswer f x.answer := by
  cases hx : x.result <;> simp [answer, renumber, renumberResult, renumberAnswer, Except.map,
    Except.mapError, Fault.renumber, hx]

theorem Pipeline.renumber_stages (f : Int → Int) (p : Pipeline) :
    (Chain.ofList p.stages).renumber f = Chain.ofList p.stages := by
  refine Chain.renumber_ofList f fun s hs => ?_
  simp only [stages, List.mem_append, List.mem_cons, List.mem_ite_nil_right, List.not_mem_nil,
    or_false] at hs
  obtain ((rfl | rfl | rfl | rfl | rfl | rfl | rfl | rfl | rfl) | ⟨-, rfl⟩) | rfl := hs <;> rfl

end Preassembler
