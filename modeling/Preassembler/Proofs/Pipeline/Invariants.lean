import Preassembler.Proofs.Pipeline.Cascade

/-! Invariants of stages.

What the stages give out in a run is given out in a step or in a flush, and goes through the stages
behind. So properties of stages and lines that no step and no flush breaks hold all along a chain
(`Chain.All.giveAll`, `Chain.All.empty`), and so does a property of the errors of these stages.

Main statement: the lines of a run have such a property if the source lines have it, also when the
run fails (`Pipeline.forall_lines_runAll`). -/
namespace Preassembler

/-- Properties of stages and lines that no step breaks, and one of the errors of these steps. -/
structure Stage.StepInvariant (S : Stage → Prop) (P : Line → Prop) (E : LineError → Prop) :
    Prop where
  step : ∀ {s l r}, S s → P l → s.step l = .ok r → S r.stage ∧ ∀ l' ∈ r.lines, P l'
  step_error : ∀ {s l e}, S s → P l → s.step l = .error e → E e

/-- The same, if it is so with flushes, too. -/
structure Stage.Invariant (S : Stage → Prop) (P : Line → Prop) (E : LineError → Prop) : Prop
    extends Stage.StepInvariant S P E where
  flush : ∀ {s r}, S s → s.flush = .ok r → ∀ l ∈ r.lines, P l
  flush_error : ∀ {s e}, S s → s.flush = .error e → E e

/-! ### Emissions -/

/-- All that is given out satisfies `P`, an error satisfies `E`, and a result satisfies `Q`. -/
structure Emission.Obeys {α : Type} (P : Line → Prop) (E : LineError → Prop) (Q : α → Prop)
    (x : Emission α) : Prop where
  lines : ∀ l ∈ x.lines, P l
  error : ∀ e, x.result = .error e → E e
  ok : ∀ a, x.result = .ok a → Q a

namespace Emission
variable {α β : Type} {P : Line → Prop} {E : LineError → Prop} {Q : α → Prop} {R : β → Prop}

theorem obeys_refused {e : LineError} (he : E e) :
    (⟨[], .error e⟩ : Emission α).Obeys P E Q where
  lines := List.forall_mem_nil P
  error _ he' := Except.error.inj he' ▸ he
  ok := nofun

theorem Obeys.bind {x : Emission α} {f : α → Emission β} (hx : x.Obeys P E Q)
    (hf : ∀ a, Q a → (f a).Obeys P E R) : (x.bind f).Obeys P E R := by
  cases hresult : x.result with
  | error e =>
    rw [bind_of_error hresult]
    exact ⟨hx.lines, fun e' he' => Except.error.inj he' ▸ hx.error e hresult, nofun⟩
  | ok a =>
    rw [bind_of_ok hresult]
    have ha := hf a (hx.ok a hresult)
    exact ⟨List.forall_mem_append.2 ⟨hx.lines, ha.lines⟩, ha.error, ha.ok⟩

theorem Obeys.map {x : Emission α} {f : α → β} (hx : x.Obeys P E Q) (hf : ∀ a, Q a → R (f a)) :
    (x.map f).Obeys P E R := by
  obtain ⟨lines, _ | a⟩ := x
  · exact ⟨hx.lines, fun e he => hx.error e (congrArg _ (Except.error.inj he)), nofun⟩
  · exact ⟨hx.lines, nofun, fun b hb => Except.ok.inj hb ▸ hf a (hx.ok a rfl)⟩

theorem obeys_each {f : α → Line → Emission α} (hf : ∀ a l, Q a → P l → (f a l).Obeys P E Q)
    {a : α} (ha : Q a) {lines : List Line} (hlines : ∀ l ∈ lines, P l) :
    (each f a lines).Obeys P E Q := by
  induction lines generalizing a with
  | nil => exact ⟨nofun, nofun, fun a' ha' => Except.ok.inj ha' ▸ ha⟩
  | cons l rest ih =>
    rw [List.forall_mem_cons] at hlines
    exact (hf a l ha hlines.1).bind fun a' ha' => ih ha' hlines.2

end Emission

/-! ### Chains -/

namespace Chain
variable {S : Stage → Prop} {P : Line → Prop} {E : LineError → Prop}

/-- A chain all of whose stages satisfy `S`. -/
def All (S : Stage → Prop) : {n : Nat} → Chain n → Prop
  | 0, _ => True
  | _ + 1, (s, c) => S s ∧ All S c

theorem all_ofList {stages : List Stage} (h : ∀ s ∈ stages, S s) : (ofList stages).All S := by
  induction stages with
  | nil => trivial
  | cons s rest ih =>
    rw [List.forall_mem_cons] at h
    exact ⟨h.1, ih h.2⟩

theorem All.give (hinv : Stage.StepInvariant S P E) {n : Nat} {c : Chain n} (h : c.All S) {l : Line}
    (hl : P l) : (c.give n l).Obeys P E (All S) := by
  induction n generalizing l with
  | zero => exact ⟨fun l' hl' => List.mem_singleton.1 hl' ▸ hl, nofun, fun _ _ => trivial⟩
  | succ n ih =>
    obtain ⟨s, c⟩ := c
    cases hs : s.step l with
    | error e =>
      have hgive : Chain.give (n + 1) (s, c) l = ⟨[], .error e⟩ := give_of_refused hs
      rw [hgive]
      exact Emission.obeys_refused (hinv.step_error h.1 hl hs)
    | ok r =>
      have hgive : Chain.give (n + 1) (s, c) l =
          (c.giveAll r.lines).map fun c' => (r.stage, c') := give_of_step hs
      obtain ⟨hstage, hlines⟩ := hinv.step h.1 hl hs
      have hrest : (c.giveAll r.lines).Obeys P E (All S) :=
        Emission.obeys_each (fun c' l' hc' hl' => ih hc' hl') h.2 hlines
      rw [hgive]
      exact hrest.map fun c' hc' => ⟨hstage, hc'⟩

theorem All.giveAll (hinv : Stage.StepInvariant S P E) {n : Nat} {c : Chain n} (h : c.All S)
    {lines : List Line} (hlines : ∀ l ∈ lines, P l) : (c.giveAll lines).Obeys P E (All S) :=
  Emission.obeys_each (fun _ _ hc hl => hc.give hinv hl) h hlines

theorem All.empty (hinv : Stage.Invariant S P E) {n : Nat} {c : Chain n} (h : c.All S) :
    (c.empty n).Obeys P E fun _ => True := by
  induction n with
  | zero => exact ⟨nofun, nofun, fun _ _ => trivial⟩
  | succ n ih =>
    obtain ⟨s, c⟩ := c
    cases hs : s.flush with
    | error e =>
      have hempty : Chain.empty (n + 1) (s, c) = ⟨[], .error e⟩ := empty_of_refused hs
      rw [hempty]
      exact Emission.obeys_refused (hinv.flush_error h.1 hs)
    | ok r =>
      have hempty : Chain.empty (n + 1) (s, c) = (c.giveAll r.lines).bind (Chain.empty n) :=
        empty_of_flush hs
      rw [hempty]
      exact (h.2.giveAll hinv.toStepInvariant (hinv.flush h.1 hs)).bind fun c' hc' => ih hc'

end Chain

/-! ### Runs -/

/-- Numbering lines does not change their texts. -/
theorem Flow.text_of_mem_numberedFrom {count : Nat} {texts : List Text} {l : Line}
    (h : l ∈ numberedFrom count texts) : l.text ∈ texts := by
  induction texts generalizing count with
  | nil => cases h
  | cons t rest ih =>
    rcases List.mem_cons.1 h with rfl | h
    · exact List.mem_cons_self
    · exact List.mem_cons_of_mem t (ih h)

namespace Pipeline

/-- **An invariant holds of all lines of a run.** The source may end early, and the run may fail. -/
theorem forall_lines_runAll {S : Stage → Prop} {P : Line → Prop} {E : LineError → Prop}
    (hinv : Stage.Invariant S P E) {p : Pipeline} (hstages : ∀ s ∈ p.stages, S s) {s : Source}
    (hlines : ∀ t ∈ s.lines, ∀ no, P ⟨no, t⟩) : ∀ l ∈ (p.runAll s).lines, P l := by
  have hnumbered : ∀ l ∈ Flow.numberedFrom 0 s.lines, P l :=
    fun l hl => hlines l.text (Flow.text_of_mem_numberedFrom hl) l.no
  have hgiven := (Chain.all_ofList hstages).giveAll hinv.toStepInvariant hnumbered
  rw [lines_eq_outs, trace_runAll, script, Chain.script_eq, outs_append, Chain.outs_steps]
  refine List.forall_mem_append.2 ⟨hgiven.lines, ?_⟩
  cases hresult : ((Chain.ofList p.stages).giveAll (Flow.numberedFrom 0 s.lines)).result with
  | error e => exact List.forall_mem_nil _
  | ok c =>
    cases s.error with
    | some e => exact List.forall_mem_nil _
    | none =>
      have hending : ∀ r : Except LineError Unit, outs (Chain.ending r) = [] := by
        rintro (e | _) <;> rfl
      rw [Chain.close, outs_finish, outs_append, outs_map_out, hending, List.append_nil]
      exact ((hgiven.ok c hresult).empty hinv).lines

end Pipeline

end Preassembler
