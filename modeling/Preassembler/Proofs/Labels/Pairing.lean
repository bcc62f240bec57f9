import Mathlib.Data.List.Chain
import Preassembler.Proofs.Pipeline.Through

/-! Which label goes with which instruction.

A line that ends in a colon declares a label for the line behind it. So all there is to say about a
line follows from that line and the one immediately before it: whether it can stand there (`Fits`),
which label it gets (`waiting`), and what it adds to the listing (`listed?`). The stage that attaches
labels remembers of all lines before no more than the last of them tells (`step_of_fits`).

Such a stage can also be kept in fields that are set one by one and never taken back. Then the label
has to be cleared with every instruction, because it is laid out whether or not one is waiting, and
the line of the last declaration stays behind (`Fields`). Main statement: labels are paired with
instructions exactly, also in such fields, and a refused line leaves them as they are
(`Stage.apply_resolve_pairs`). -/
namespace Preassembler
open Text (ascii byte)

namespace Label

/-! ### A line and the line before it -/

theorem declared?_eq_some_iff {t label : Text} :
    declared? t = some label ↔ t = label ++ [byte ':'] := Text.dropLast?_eq_some_iff

theorem declared?_eq_none_iff {t : Text} :
    declared? t = none ↔ ∀ label, t ≠ label ++ [byte ':'] := Text.dropLast?_eq_none_iff

/-- The label that waits behind a line: the one it declares, if any. -/
def waiting (front : Option Line) : Option Pending :=
  front.bind fun d => (declared? d.text).map fun label => ⟨label, d.no⟩

theorem waiting_eq_some_iff {front : Option Line} {p : Pending} : waiting front = some p ↔
    ∃ d, front = some d ∧ d.text = p.label ++ [byte ':'] ∧ d.no = p.no := by
  obtain ⟨label, no⟩ := p
  simp only [waiting, Option.bind_eq_some_iff, Option.map_eq_some_iff, declared?_eq_some_iff,
    Pending.mk.injEq]
  constructor
  · rintro ⟨d, rfl, label, htext, rfl, hno⟩
    exact ⟨d, rfl, htext, hno⟩
  · rintro ⟨d, rfl, htext, hno⟩
    exact ⟨d, rfl, label, htext, rfl, hno⟩

theorem waiting_eq_none_iff {front : Option Line} : waiting front = none ↔
    ∀ d ∈ front, ∀ label, d.text ≠ label ++ [byte ':'] := by
  rw [Option.eq_none_iff_forall_ne_some]
  constructor
  · rintro h d hd label htext
    exact h ⟨label, d.no⟩ (waiting_eq_some_iff.2 ⟨d, hd, htext, rfl⟩)
  · rintro h p hp
    obtain ⟨d, hd, htext, -⟩ := waiting_eq_some_iff.1 hp
    exact h d hd p.label htext

theorem waiting_of_declared {l : Line} {label : Text} (h : declared? l.text = some label) :
    waiting (some l) = some ⟨label, l.no⟩ :=
  waiting_eq_some_iff.2 ⟨l, rfl, declared?_eq_some_iff.1 h, rfl⟩

theorem waiting_of_none {l : Line} (h : declared? l.text = none) : waiting (some l) = none := by
  rw [waiting_eq_none_iff]
  rintro d ⟨⟩
  exact declared?_eq_none_iff.1 h

/-- A line of the listing before it is laid out. -/
structure Entry where
  no : Int
  label : Text
  instruction : Text
  deriving DecidableEq, Repr

def Entry.line (width : Nat) (e : Entry) : Line := ⟨e.no, render width e.label e.instruction⟩

/-- What a line adds to the listing: nothing if it declares a label, else itself with the label that
waits behind the line before it, or with the empty label. -/
def listed? (front : Option Line) (l : Line) : Option Entry :=
  match declared? l.text with
  | some _ => none
  | none => some ⟨l.no, ((waiting front).map Pending.label).getD [], l.text⟩

/-- Each line with the one immediately before it; before all of them stands `front`. -/
def neighbours (front : Option Line) (lines : List Line) : List (Option Line × Line) :=
  (front :: lines.map some).zip lines

/-- What lines add to the listing. -/
def entries (front : Option Line) (lines : List Line) : List Entry :=
  (neighbours front lines).filterMap fun p => listed? p.1 p.2

/-- What a declaration behind which nothing follows adds to the listing. -/
def leftOver (last : Option Line) : List Entry :=
  (waiting last).toList.map fun p => ⟨p.no, p.label, []⟩

theorem neighbours_cons (front : Option Line) (l : Line) (rest : List Line) :
    neighbours front (l :: rest) = (front, l) :: neighbours (some l) rest := rfl

theorem entries_cons (front : Option Line) (l : Line) (rest : List Line) :
    entries front (l :: rest) = (listed? front l).toList ++ entries (some l) rest := by
  rw [entries, neighbours_cons, List.filterMap_cons]
  cases listed? front l <;> rfl

/-! ### Lines that can stand together -/

/-- Two lines that do not both declare a label. -/
def Apart (d l : Line) : Prop :=
  ∀ label label', d.text = label ++ [byte ':'] → l.text ≠ label' ++ [byte ':']

/-- A line that declares no label of more than `width` bytes. -/
def Short (width : Nat) (l : Line) : Prop :=
  ∀ label, l.text = label ++ [byte ':'] → label.length ≤ width

/-- A line that can stand behind `front`. -/
structure Fits (width : Nat) (front : Option Line) (l : Line) : Prop where
  apart : ∀ d ∈ front, Apart d l
  short : Short width l

/-- Why a line cannot stand behind `front`: that line has declared a label already, or else the
label of this one is too long. -/
inductive Unfit (width : Nat) (front : Option Line) (l : Line) : Cause → Prop
  | twice {d : Line} {label label' : Text} (hfront : front = some d)
    (hd : d.text = label ++ [byte ':']) (hl : l.text = label' ++ [byte ':']) :
    Unfit width front l (.labelTwice l.text label)
  | long {label : Text} (hfront : ∀ d ∈ front, ∀ label, d.text ≠ label ++ [byte ':'])
    (hl : l.text = label ++ [byte ':']) (hlong : width < label.length) :
    Unfit width front l (.labelTooLong label width)

theorem Unfit.kind {width : Nat} {front : Option Line} {l : Line} {c : Cause}
    (h : Unfit width front l c) :
    c.kind = if (waiting front).isSome then .duplicateLabel else .labelTooLong := by
  cases h with
  | @twice d label _ hfront hd _ =>
    have hwaiting : waiting front = some ⟨label, d.no⟩ :=
      waiting_eq_some_iff.2 ⟨d, hfront, hd, rfl⟩
    rw [hwaiting]
    rfl
  | long hfront _ _ =>
    rw [waiting_eq_none_iff.2 hfront]
    rfl

/-- All lines fit behind the ones before them exactly if no declaration stands right behind another
one and no label is too long. -/
theorem fits_neighbours_iff {width : Nat} {front : Option Line} {lines : List Line} :
    (∀ p ∈ neighbours front lines, Fits width p.1 p.2) ↔
      (∀ d ∈ front, ∀ l ∈ lines.head?, Apart d l) ∧ lines.IsChain Apart ∧
        ∀ l ∈ lines, Short width l := by
  induction lines generalizing front with
  | nil => simp [neighbours]
  | cons l rest ih =>
    rw [neighbours_cons, List.forall_mem_cons, ih, List.isChain_cons, List.forall_mem_cons]
    constructor
    · rintro ⟨⟨hfront, hl⟩, hnext, hrest, hshort⟩
      exact ⟨by simpa using hfront, ⟨hnext l rfl, hrest⟩, hl, hshort⟩
    · rintro ⟨hfront, ⟨hnext, hrest⟩, hl, hshort⟩
      exact ⟨⟨by simpa using hfront, hl⟩, by simpa using hnext, hrest, hshort⟩

theorem fits_neighbours_none_iff {width : Nat} {lines : List Line} :
    (∀ p ∈ neighbours none lines, Fits width p.1 p.2) ↔
      lines.IsChain Apart ∧ ∀ l ∈ lines, Short width l := by
  have hfront : ∀ d ∈ (none : Option Line), ∀ l ∈ lines.head?, Apart d l := nofun
  rw [fits_neighbours_iff, and_iff_right hfront]

/-- The last of some lines, or the one before them if there are none. -/
def lastOf (front : Option Line) (lines : List Line) : Option Line := lines.getLast?.or front

theorem lastOf_cons (front : Option Line) (l : Line) (rest : List Line) :
    lastOf front (l :: rest) = lastOf (some l) rest := by
  simp [lastOf, List.getLast?_cons]

theorem mem_neighbours (front : Option Line) (before : List Line) (l : Line) (after : List Line) :
    (lastOf front before, l) ∈ neighbours front (before ++ l :: after) := by
  induction before generalizing front with
  | nil => exact List.mem_cons_self
  | cons l' before ih =>
    rw [lastOf_cons]
    exact List.mem_cons_of_mem _ (ih (some l'))

theorem lastOf_none (lines : List Line) : lastOf none lines = lines.getLast? := Option.or_none

/-- Either all lines fit, or there is a first one that does not. -/
theorem exists_first_unfit (width : Nat) (front : Option Line) (lines : List Line) :
    (∀ p ∈ neighbours front lines, Fits width p.1 p.2) ∨
      ∃ before l after, lines = before ++ l :: after ∧
        (∀ p ∈ neighbours front before, Fits width p.1 p.2) ∧
        ¬ Fits width (lastOf front before) l := by
  induction lines generalizing front with
  | nil => exact .inl nofun
  | cons l rest ih =>
    by_cases hl : Fits width front l
    · rcases ih (some l) with hrest | ⟨before, l', after, rfl, hbefore, hl'⟩
      · exact .inl (List.forall_mem_cons.2 ⟨hl, hrest⟩)
      · refine .inr ⟨l :: before, l', after, rfl, List.forall_mem_cons.2 ⟨hl, hbefore⟩, ?_⟩
        rwa [lastOf_cons]
    · exact .inr ⟨[], l, rest, rfl, nofun, hl⟩

end Label

/-! ### The stage -/

namespace Stage
open Label (Entry Fits Unfit Apart Short declared?_eq_some_iff waiting waiting_eq_some_iff
  waiting_eq_none_iff waiting_of_declared waiting_of_none listed? entries neighbours lastOf leftOver)
variable {width : Nat} {front : Option Line} {l : Line}

/-- A line that fits is all that is remembered of the lines so far. -/
theorem step_of_fits (h : Fits width front l) : ∃ events,
    (resolve width (waiting front)).step l = .ok ⟨resolve width (waiting (some l)), events,
      (listed? front l).toList.map (Entry.line width)⟩ := by
  cases hl : Label.declared? l.text with
  | some label =>
    have hwaiting : waiting front = none := by
      rw [waiting_eq_none_iff]
      intro d hd label' hlabel'
      exact h.apart d hd label' label hlabel' (declared?_eq_some_iff.1 hl)
    have hshort : ¬ width < label.length := Nat.not_lt.2 (h.short label (declared?_eq_some_iff.1 hl))
    refine ⟨[], ?_⟩
    rw [hwaiting, waiting_of_declared hl]
    simp only [step, Label.resolve, hl, hshort, if_false, listed?]
    rfl
  | none =>
    rw [waiting_of_none hl]
    cases hwaiting : waiting front with
    | none =>
      refine ⟨[], ?_⟩
      simp only [step, Label.resolve, hl, listed?, hwaiting]
      rfl
    | some p =>
      refine ⟨[.labelResolved p.label l.no], ?_⟩
      simp only [step, Label.resolve, hl, listed?, hwaiting]
      rfl

/-- Any other line is refused. -/
theorem step_of_not_fits (h : ¬ Fits width front l) : ∃ c, Unfit width front l c ∧
    (resolve width (waiting front)).step l = .error ⟨l, c⟩ := by
  cases hl : Label.declared? l.text with
  | none =>
    have hplain := Label.declared?_eq_none_iff.1 hl
    exact absurd ⟨fun d _ _ label _ => hplain label, fun label hlabel => absurd hlabel (hplain label)⟩ h
  | some label =>
    have htext := declared?_eq_some_iff.1 hl
    cases hwaiting : waiting front with
    | some p =>
      obtain ⟨d, hd, hlabel, -⟩ := waiting_eq_some_iff.1 hwaiting
      refine ⟨_, .twice hd hlabel htext, ?_⟩
      simp only [step, Label.resolve, hl]
    | none =>
      have hnone := waiting_eq_none_iff.1 hwaiting
      have hlong : width < label.length := by
        by_contra hshort
        refine h ⟨fun d hd label' _ hlabel' _ => hnone d hd label' hlabel', fun label' hlabel' => ?_⟩
        have hsame := List.append_cancel_right (htext.symm.trans hlabel')
        exact hsame ▸ Nat.not_lt.1 hshort
      refine ⟨_, .long hnone htext hlong, ?_⟩
      simp only [step, Label.resolve, hl, hlong, if_true]

/-- Lines that fit are taken, and what they add to the listing is given out. -/
theorem takes_of_fits {lines : List Line} (h : ∀ p ∈ neighbours front lines, Fits width p.1 p.2) :
    Takes (resolve width (waiting front)) lines (resolve width (waiting (lastOf front lines)))
      ((entries front lines).map (Entry.line width)) := by
  induction lines generalizing front with
  | nil =>
    have hlast : lastOf front [] = front := rfl
    rw [hlast]
    exact .nil
  | cons l rest ih =>
    rw [Label.neighbours_cons, List.forall_mem_cons] at h
    obtain ⟨events, hstep⟩ := step_of_fits h.1
    rw [Label.lastOf_cons, Label.entries_cons, List.map_append]
    exact .cons hstep (ih h.2)

theorem flush_resolve (width : Nat) (last : Option Line) : ∃ r,
    (resolve width (waiting last)).flush = .ok r ∧
      r.lines = (leftOver last).map (Entry.line width) := by
  unfold leftOver
  cases waiting last with
  | none => exact ⟨⟨resolve width none, [], []⟩, rfl, rfl⟩
  | some p => exact ⟨_, rfl, rfl⟩

/-- A stage that refuses a line has given out what it made of the lines before it. -/
theorem applyFrom_of_refused {s s' : Stage} {before given : List Line} {l : Line} {e : LineError}
    (h : Takes s before s' given) (hl : s'.step l = .error e) (out : List Line)
    (events : List Event) (after : List Line) :
    (s.applyFrom out events (before ++ l :: after)).error = some e ∧
      (s.applyFrom out events (before ++ l :: after)).lines = out.reverse ++ given := by
  induction h generalizing out events with
  | nil => simp [applyFrom, hl]
  | cons hs _ ih =>
    obtain ⟨herror, hlines⟩ := ih hl (_ ++ out) (_ ++ events)
    simp only [List.cons_append, applyFrom, hs]
    exact ⟨herror, by rw [hlines]; simp⟩

/-- What the stage makes of lines that all fit. -/
theorem apply_resolve_of_fits {lines : List Line}
    (h : ∀ p ∈ neighbours none lines, Fits width p.1 p.2) :
    ((resolve width none).apply lines).error = none ∧
      ((resolve width none).apply lines).lines =
        (entries none lines ++ leftOver lines.getLast?).map (Entry.line width) := by
  obtain ⟨r, hflush, hr⟩ := flush_resolve width (lastOf none lines)
  obtain ⟨herror, hlines⟩ := applyFrom_of_takes (takes_of_fits h) hflush [] []
  rw [List.reverse_nil, List.nil_append, hr, Label.lastOf_none, ← List.map_append] at hlines
  exact ⟨herror, hlines⟩

/-- What the stage makes of lines of which a first one does not fit. -/
theorem apply_resolve_of_not_fits {before : List Line}
    (h : ∀ p ∈ neighbours none before, Fits width p.1 p.2)
    (hl : ¬ Fits width (lastOf none before) l) (after : List Line) :
    ∃ c, Unfit width (lastOf none before) l c ∧
      ((resolve width none).apply (before ++ l :: after)).error = some ⟨l, c⟩ ∧
      ((resolve width none).apply (before ++ l :: after)).lines =
        (entries none before).map (Entry.line width) := by
  obtain ⟨c, hunfit, hstep⟩ := step_of_not_fits hl
  obtain ⟨herror, hlines⟩ := applyFrom_of_refused (takes_of_fits h) hstep [] [] after
  rw [List.reverse_nil, List.nil_append] at hlines
  exact ⟨c, hunfit, herror, hlines⟩

/-- The stage makes something of lines only if they all fit, and then it lists their entries. -/
theorem fits_of_complete_resolve {lines out : List Line}
    (h : (resolve width none).complete lines = .ok out) :
    (∀ p ∈ neighbours none lines, Fits width p.1 p.2) ∧
      out = (entries none lines ++ leftOver lines.getLast?).map (Entry.line width) := by
  rw [complete] at h
  rcases Label.exists_first_unfit width none lines with hfits | ⟨before, l, after, rfl, hfits, hl⟩
  · obtain ⟨herror, hlines⟩ := apply_resolve_of_fits hfits
    rw [herror] at h
    exact ⟨hfits, (Except.ok.inj h).symm.trans hlines⟩
  · obtain ⟨c, -, herror, -⟩ := apply_resolve_of_not_fits hfits hl after
    rw [herror] at h
    cases h

end Stage

/-! ### Labels kept in fields -/

namespace Label

/-- What is remembered between lines, in fields that are set one by one. -/
structure Fields where
  /-- The width of the label field, as it was asked for. -/
  width : Int
  label : Text
  waits : Bool
  /-- The line that made the last declaration. -/
  declaration : Line
  deriving DecidableEq, Repr

namespace Fields

def new (width : Int) : Fields := ⟨width, [], false, ⟨0, []⟩⟩

/-- What is left behind by an operation: the fields, the lines given out, and its error. -/
structure Reply where
  fields : Fields
  lines : List Line
  error : Option LineError
  deriving DecidableEq, Repr

/-- Takes a line. The label is laid out in front of an instruction whether or not it waits. -/
def step (f : Fields) (l : Line) : Reply :=
  match declared? l.text with
  | some label =>
    if f.waits then ⟨f, [], some ⟨l, .labelTwice l.text f.label⟩⟩
    else if effectiveWidth f.width < label.length then
      ⟨f, [], some ⟨l, .labelTooLong label (effectiveWidth f.width)⟩⟩
    else ⟨{ f with label, waits := true, declaration := l }, [], none⟩
  | none =>
    ⟨{ f with label := [], waits := false },
      [⟨l.no, render (effectiveWidth f.width) f.label l.text⟩], none⟩

/-- Ends the input. -/
def flush (f : Fields) : Reply :=
  if f.waits then
    ⟨{ f with label := [], waits := false },
      [⟨f.declaration.no, render (effectiveWidth f.width) f.label []⟩], none⟩
  else ⟨f, [], none⟩

/-- Takes lines up to the first that is refused; if there is none, ends the input. -/
def apply (f : Fields) : List Line → Reply
  | [] => f.flush
  | l :: rest =>
    match (f.step l).error with
    | some _ => f.step l
    | none =>
      let r := (f.step l).fields.apply rest
      { r with lines := (f.step l).lines ++ r.lines }

/-- The fields after lines, whether or not they were refused. -/
def after (f : Fields) (lines : List Line) : Fields := lines.foldl (fun f l => (f.step l).fields) f

/-- What the fields hold behind a line. Whatever was declared before it is no longer told by any
field that is used. -/
structure Behind (width : Int) (front : Option Line) (f : Fields) : Prop where
  width_eq : f.width = width
  waits : f.waits = (waiting front).isSome
  label : f.label = ((waiting front).map Pending.label).getD []
  no : ∀ p ∈ waiting front, f.declaration.no = p.no

variable {width : Int} {front : Option Line} {f : Fields} {l : Line}

theorem behind_new (width : Int) : (new width).Behind width none := ⟨rfl, rfl, rfl, nofun⟩

theorem Behind.step_of_fits (h : f.Behind width front) (hl : Fits (effectiveWidth width) front l) :
    (f.step l).error = none ∧ (f.step l).fields.Behind width (some l) ∧
      (f.step l).lines = (listed? front l).toList.map (Entry.line (effectiveWidth width)) := by
  cases hdeclared : declared? l.text with
  | some label =>
    have htext := declared?_eq_some_iff.1 hdeclared
    have hnone : waiting front = none := by
      rw [waiting_eq_none_iff]
      intro d hd label' hlabel'
      exact hl.apart d hd label' label hlabel' htext
    have hwaits : f.waits = false := by rw [h.waits, hnone]; rfl
    have hshort : ¬ effectiveWidth width < label.length := Nat.not_lt.2 (hl.short label htext)
    simp only [step, hdeclared, hwaits, h.width_eq, hshort, if_false, Bool.false_eq_true, listed?]
    refine ⟨trivial, ⟨rfl, ?_, ?_, ?_⟩, rfl⟩
    all_goals rw [waiting_of_declared hdeclared]
    · rfl
    · rfl
    · rintro p ⟨⟩
      rfl
  | none =>
    simp only [step, hdeclared, h.width_eq, h.label, listed?]
    refine ⟨trivial, ⟨rfl, ?_, ?_, ?_⟩, rfl⟩
    all_goals rw [waiting_of_none hdeclared]
    · rfl
    · rfl
    · exact nofun

/-- A line that is refused leaves every field as it was. -/
theorem Behind.step_of_unfit (h : f.Behind width front) {c : Cause}
    (hl : Unfit (effectiveWidth width) front l c) : f.step l = ⟨f, [], some ⟨l, c⟩⟩ := by
  cases hl with
  | @twice d label label' hfront hd hl =>
    have hwaiting : waiting front = some ⟨label, d.no⟩ :=
      waiting_eq_some_iff.2 ⟨d, hfront, hd, rfl⟩
    have hwaits : f.waits = true := by rw [h.waits, hwaiting]; rfl
    have hlabel : f.label = label := by rw [h.label, hwaiting]; rfl
    simp only [step, declared?_eq_some_iff.2 hl, hwaits, hlabel, if_true]
  | long hfront hl hlong =>
    have hwaits : f.waits = false := by rw [h.waits, waiting_eq_none_iff.2 hfront]; rfl
    simp only [step, declared?_eq_some_iff.2 hl, hwaits, h.width_eq, hlong, if_true, if_false,
      Bool.false_eq_true]

theorem Behind.flush (h : f.Behind width front) : f.flush.error = none ∧
    f.flush.lines = (leftOver front).map (Entry.line (effectiveWidth width)) := by
  cases hwaiting : waiting front with
  | none =>
    have hwaits : f.waits = false := by rw [h.waits, hwaiting]; rfl
    simp only [Fields.flush, hwaits, leftOver, hwaiting]
    exact ⟨rfl, rfl⟩
  | some p =>
    have hwaits : f.waits = true := by rw [h.waits, hwaiting]; rfl
    have hlabel : f.label = p.label := by rw [h.label, hwaiting]; rfl
    simp only [Fields.flush, hwaits, if_true, leftOver, hwaiting, hlabel, h.no p hwaiting,
      h.width_eq]
    exact ⟨trivial, rfl⟩

/-- Behind lines that fit the rest is taken as behind the last of them. -/
theorem Behind.apply_append (h : f.Behind width front) {before : List Line}
    (hbefore : ∀ p ∈ neighbours front before, Fits (effectiveWidth width) p.1 p.2)
    (rest : List Line) :
    (f.after before).Behind width (lastOf front before) ∧
      f.apply (before ++ rest) =
        { (f.after before).apply rest with
          lines := (entries front before).map (Entry.line (effectiveWidth width)) ++
            ((f.after before).apply rest).lines } := by
  induction before generalizing f front with
  | nil => exact ⟨h, rfl⟩
  | cons l before ih =>
    rw [neighbours_cons, List.forall_mem_cons] at hbefore
    obtain ⟨herror, hbehind, hlines⟩ := h.step_of_fits hbefore.1
    obtain ⟨hlast, hrest⟩ := ih hbehind hbefore.2
    refine ⟨lastOf_cons front l before ▸ hlast, ?_⟩
    rw [List.cons_append, apply, herror]
    simp only [hrest, hlines, entries_cons, List.map_append, List.append_assoc]
    rfl

/-- What is made of lines that all fit. -/
theorem apply_of_fits {lines : List Line}
    (h : ∀ p ∈ neighbours none lines, Fits (effectiveWidth width) p.1 p.2) :
    ((new width).apply lines).error = none ∧ ((new width).apply lines).lines =
      (entries none lines ++ leftOver lines.getLast?).map (Entry.line (effectiveWidth width)) := by
  obtain ⟨hbehind, happly⟩ := (behind_new width).apply_append h []
  rw [List.append_nil] at happly
  obtain ⟨herror, hlines⟩ := hbehind.flush
  rw [happly, List.map_append, ← lastOf_none]
  exact ⟨herror, congrArg _ hlines⟩

/-- What is made of lines up to a first one that does not fit. -/
theorem apply_of_unfit {before : List Line}
    (h : ∀ p ∈ neighbours none before, Fits (effectiveWidth width) p.1 p.2) {c : Cause}
    (hl : Unfit (effectiveWidth width) (lastOf none before) l c) (rest : List Line) :
    ((new width).after before).step l = ⟨(new width).after before, [], some ⟨l, c⟩⟩ ∧
      (new width).apply (before ++ l :: rest) = ⟨(new width).after before,
        (entries none before).map (Entry.line (effectiveWidth width)), some ⟨l, c⟩⟩ := by
  obtain ⟨hbehind, happly⟩ := (behind_new width).apply_append h (l :: rest)
  have hrefused := hbehind.step_of_unfit hl
  have hstop : ((new width).after before).apply (l :: rest) =
      ⟨(new width).after before, [], some ⟨l, c⟩⟩ := by
    simp only [apply, hrefused]
  rw [hstop, List.append_nil] at happly
  exact ⟨hrefused, happly⟩

end Fields

end Label

/-! ### Labels and instructions -/

namespace Stage
open Label (Apart Entry Fields Fits Short Unfit entries leftOver neighbours waiting)

/-- **Labels and instructions are paired exactly.** Lines go through the stage that attaches labels
exactly if no declaration stands right behind another one and every label fits. Then each line that
declares nothing is listed, with its number and with the label of the line immediately before it;
and a label that the last line declares is listed last, with the number of that line. Otherwise the
error is about the first line that cannot stand where it does, and what was listed are the lines
before it. A resolver kept in fields answers the same, and a line it refuses changes none of them. -/
theorem apply_resolve_pairs (n : Int) (lines : List Line) :
    let width := Label.effectiveWidth n
    let a := (resolve width none).apply lines
    let kept := (Fields.new n).apply lines
    (kept.lines = a.lines ∧ kept.error = a.error) ∧
    (a.error = none ↔ lines.IsChain Apart ∧ ∀ l ∈ lines, Short width l) ∧
    (a.error = none →
      a.lines = (entries none lines ++ leftOver lines.getLast?).map (Entry.line width)) ∧
    ∀ e, a.error = some e → ∃ before after, lines = before ++ e.line :: after ∧
      (before.IsChain Apart ∧ ∀ l ∈ before, Short width l) ∧
      Unfit width before.getLast? e.line e.cause ∧
      e.cause.kind =
        (if (waiting before.getLast?).isSome then .duplicateLabel else .labelTooLong) ∧
      a.lines = (entries none before).map (Entry.line width) ∧
      kept.fields = (Fields.new n).after before ∧
      ((Fields.new n).after before).step e.line = ⟨(Fields.new n).after before, [], some e⟩ := by
  intro width a kept
  rcases Label.exists_first_unfit width none lines with hfits | ⟨before, l, after, rfl, hfits, hl⟩
  · obtain ⟨herror, hlines⟩ : a.error = none ∧ a.lines = _ := apply_resolve_of_fits hfits
    obtain ⟨hkeptError, hkeptLines⟩ : kept.error = none ∧ kept.lines = _ :=
      Fields.apply_of_fits hfits
    refine ⟨⟨hkeptLines.trans hlines.symm, hkeptError.trans herror.symm⟩,
      iff_of_true herror (Label.fits_neighbours_none_iff.1 hfits), fun _ => hlines, ?_⟩
    rw [herror]
    exact nofun
  · obtain ⟨c, hunfit, herror, hlines⟩ :
      ∃ c, Unfit width (Label.lastOf none before) l c ∧ a.error = some ⟨l, c⟩ ∧ a.lines = _ :=
        apply_resolve_of_not_fits hfits hl after
    obtain ⟨hrefused, hkept⟩ := Fields.apply_of_unfit hfits hunfit after
    have hnot : ¬ ((before ++ l :: after).IsChain Apart ∧
        ∀ l' ∈ before ++ l :: after, Short width l') := fun h =>
      hl (Label.fits_neighbours_none_iff.2 h _ (Label.mem_neighbours none before l after))
    rw [Label.lastOf_none] at hunfit
    rw [herror, hlines, show kept = _ from hkept]
    refine ⟨⟨rfl, rfl⟩, iff_of_false nofun hnot, nofun, ?_⟩
    rintro e ⟨⟩
    exact ⟨before, after, rfl, Label.fits_neighbours_none_iff.1 hfits, hunfit, hunfit.kind, rfl,
      rfl, hrefused⟩

open Text (ascii) in
/-- An empty label is a label: a declaration may not follow it. -/
example : ((resolve 6 none).apply [⟨1, ascii "go:"⟩, ⟨2, ascii "halt"⟩, ⟨3, ascii ":"⟩,
    ⟨4, ascii "b:"⟩]).lines = [⟨2, ascii "go     halt"⟩] := by cbv

end Stage

end Preassembler
