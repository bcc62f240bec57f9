import Preassembler.Pipeline

/-! Stage by stage.

`Takes` follows a stage over the lines it is given, and `complete` is all it makes of a whole input:
what it gives out line by line, and what it still holds at the end. `through` gives each stage the
whole output of the one before.

Main statements: when a stage makes something of an input (`complete_eq_ok_iff`), and that `through`
succeeds with what the last of all stages gives out (`through_eq_ok_iff_applyStages`). -/
namespace Preassembler

/-! ### Places in a list -/

/-- A member of a list in two parts stands in the first part or behind all of it. -/
theorem split_two {α : Type} {front rest before after : List α} {a : α}
    (h : front ++ rest = before ++ a :: after) :
    (∃ behind, front = before ++ a :: behind) ∨
      ∃ between, before = front ++ between ∧ rest = between ++ a :: after := by
  rcases List.append_eq_append_iff.1 h with ⟨between, hbefore, hrest⟩ | ⟨between, hfront, hrest⟩
  · exact .inr ⟨between, hbefore, hrest⟩
  · cases between with
    | nil => exact .inr ⟨[], by simpa using hfront.symm, by simpa using hrest.symm⟩
    | cons x between =>
      obtain ⟨rfl, -⟩ := List.cons.inj hrest
      exact .inl ⟨between, hfront⟩

theorem split_behind {α : Type} {front rest before after : List α} {a : α} (ha : a ∉ front)
    (h : front ++ rest = before ++ a :: after) :
    ∃ between, before = front ++ between ∧ rest = between ++ a :: after := by
  rcases split_two h with ⟨behind, rfl⟩ | hbehind
  · exact absurd (by simp) ha
  · exact hbehind

/-! ### A whole input through one stage -/

namespace Stage

/-- A stage takes lines, becomes another stage and gives out lines on the way. -/
inductive Takes : Stage → List Line → Stage → List Line → Prop where
  | nil {s} : Takes s [] s []
  | cons {s l r rest s' out} : s.step l = .ok r → Takes r.stage rest s' out →
      Takes s (l :: rest) s' (r.lines ++ out)

theorem applyFrom_of_takes {s s' : Stage} {lines given : List Line} {r : Reply}
    (h : Takes s lines s' given) (hr : s'.flush = .ok r) (before : List Line)
    (events : List Event) :
    (s.applyFrom before events lines).error = none ∧
      (s.applyFrom before events lines).lines = before.reverse ++ (given ++ r.lines) := by
  induction h generalizing before events with
  | nil => simp [applyFrom, hr]
  | cons hs _ ih =>
    simp only [applyFrom, hs]
    obtain ⟨herror, hlines⟩ := ih hr (_ ++ before) (_ ++ events)
    exact ⟨herror, by rw [hlines]; simp⟩

theorem takes_of_applyFrom {s : Stage} {lines before : List Line} {events : List Event}
    (h : (s.applyFrom before events lines).error = none) :
    ∃ s' given r, Takes s lines s' given ∧ s'.flush = .ok r := by
  induction lines generalizing s before events with
  | nil =>
    rw [applyFrom] at h
    cases hf : s.flush with
    | error e => simp [hf] at h
    | ok r => exact ⟨s, [], r, .nil, hf⟩
  | cons l rest ih =>
    rw [applyFrom] at h
    cases hs : s.step l with
    | error e => simp [hs] at h
    | ok r =>
      simp only [hs] at h
      obtain ⟨s', given, r', ht, hr⟩ := ih h
      exact ⟨s', r.lines ++ given, r', .cons hs ht, hr⟩

/-- What a stage makes of a whole input, or the error it stops with. -/
def complete (s : Stage) (lines : List Line) : Except LineError (List Line) :=
  match (s.apply lines).error with
  | some e => .error e
  | none => .ok (s.apply lines).lines

/-- A stage makes something of an input exactly if it takes every line and can then be flushed. -/
theorem complete_eq_ok_iff {s : Stage} {lines out : List Line} :
    s.complete lines = .ok out ↔
      ∃ s' given r, Takes s lines s' given ∧ s'.flush = .ok r ∧ out = given ++ r.lines := by
  unfold complete apply
  constructor
  · intro h
    split at h
    · cases h
    · rename_i herror
      obtain ⟨s', given, r, ht, hr⟩ := takes_of_applyFrom herror
      have hlines := (applyFrom_of_takes ht hr [] []).2
      refine ⟨s', given, r, ht, hr, ?_⟩
      rw [← Except.ok.inj h, hlines]
      rfl
  · rintro ⟨s', given, r, ht, hr, rfl⟩
    obtain ⟨herror, hlines⟩ := applyFrom_of_takes ht hr [] []
    rw [herror, hlines]
    rfl

theorem complete_nil {s : Stage} {r : Reply} (h : s.flush = .ok r) : s.complete [] = .ok r.lines :=
  complete_eq_ok_iff.2 ⟨s, [], r, .nil, h, rfl⟩

theorem complete_cons {s : Stage} {l : Line} {r : Reply} {rest out : List Line}
    (h : s.step l = .ok r) (hrest : r.stage.complete rest = .ok out) :
    s.complete (l :: rest) = .ok (r.lines ++ out) := by
  obtain ⟨s', given, r', ht, hr, rfl⟩ := complete_eq_ok_iff.1 hrest
  exact complete_eq_ok_iff.2 ⟨s', r.lines ++ given, r', .cons h ht, hr, by simp⟩

/-- A stage that remembers nothing of lines makes of them what it makes of each. -/
theorem complete_flatMap {s : Stage} {f : Line → List Line} {lines : List Line}
    (hstep : ∀ l ∈ lines, s.step l = .ok ⟨s, [], f l⟩) (hflush : s.flush = .ok ⟨s, [], []⟩) :
    s.complete lines = .ok (lines.flatMap f) := by
  induction lines with
  | nil => exact complete_nil hflush
  | cons l rest ih =>
    rw [List.forall_mem_cons] at hstep
    exact complete_cons hstep.1 (ih hstep.2)

end Stage

/-! ### Stage by stage -/

namespace Pipeline

/-- Lines through stages, each of which gets the whole output of the one before. -/
def through : List Stage → List Line → Except LineError (List Line)
  | [], lines => .ok lines
  | s :: rest, lines =>
    match s.complete lines with
    | .error e => .error e
    | .ok out => through rest out

theorem through_cons_eq_ok_iff {s : Stage} {rest : List Stage} {lines out : List Line} :
    through (s :: rest) lines = .ok out ↔
      ∃ mid, s.complete lines = .ok mid ∧ through rest mid = .ok out := by
  rw [through]
  cases s.complete lines <;> simp

theorem through_append (front : List Stage) {back : List Stage} {lines out : List Line}
    (h : through (front ++ back) lines = .ok out) :
    ∃ mid, through front lines = .ok mid ∧ through back mid = .ok out := by
  induction front generalizing lines with
  | nil => exact ⟨lines, rfl, h⟩
  | cons s front ih =>
    obtain ⟨first, hfirst, hrest⟩ := through_cons_eq_ok_iff.1 h
    obtain ⟨mid, hfront, hback⟩ := ih hrest
    exact ⟨mid, through_cons_eq_ok_iff.2 ⟨first, hfirst, hfront⟩, hback⟩

/-- All stages are applied, none fails, and the last one gives out `out`. -/
theorem through_eq_ok_iff_applyStages {stages : List Stage} {lines out : List Line} :
    through stages lines = .ok out ↔
      (applyStages stages lines).map Prod.fst = stages ∧
      (∀ a ∈ applyStages stages lines, a.2.error = none) ∧
      ((applyStages stages lines).getLast?.map fun a => a.2.lines).getD lines = out := by
  induction stages generalizing lines with
  | nil => simp [through, applyStages]
  | cons s rest ih =>
    rw [through_cons_eq_ok_iff, applyStages]
    cases herror : (s.apply lines).error with
    | some e => simp [Stage.complete, herror]
    | none =>
      have hlast : ∀ l : List (Stage × Stage.Applied),
          (((s, s.apply lines) :: l).getLast?.map fun a => a.2.lines).getD lines =
            (l.getLast?.map fun a => a.2.lines).getD (s.apply lines).lines := by
        intro l
        rw [List.getLast?_cons]
        cases l.getLast? <;> rfl
      simp only [Stage.complete, herror, Except.ok.injEq, exists_eq_left', ih, hlast, List.map_cons,
        List.cons.injEq, true_and, List.forall_mem_cons]

end Pipeline

end Preassembler
