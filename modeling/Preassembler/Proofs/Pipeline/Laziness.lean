import Mathlib.Data.ENat.Lattice
import Mathlib.Order.Bounds.Basic
import Preassembler.Proofs.Pipeline.Script

/-! What a run asks of its source, and when.

A run is lazy: it asks for a source line only when everything before it has been delivered, it stops
with the line after which the client wants no more, and it flushes its stages only at the end of a
source that ended well. `Lazy` says this of a trace, through what stands before and after a signal.

Where a signal stands in a script follows from the recursion of the script over the source lines
(`outs_before_pull`, `outs_before_finish`, `quiet_after_fault`). A client cuts a script at one line
(`Client.cut_cases`), so what holds at every place of the script holds at every place of the trace.
Main statement: every run of a pipeline is lazy (`run_lazy`). -/
namespace Preassembler

/-! ### Lines in a trace -/

/-- The lines among signals. -/
def outs (trace : List Signal) : List Line :=
  trace.filterMap fun
    | .out l => some l
    | _ => none

@[simp]
theorem outs_nil : outs [] = [] := rfl

@[simp]
theorem outs_append (a b : List Signal) : outs (a ++ b) = outs a ++ outs b := List.filterMap_append

@[simp]
theorem outs_out (l : Line) (rest : List Signal) : outs (.out l :: rest) = l :: outs rest := rfl

@[simp]
theorem outs_pull (no : Nat) (rest : List Signal) : outs (.pull no :: rest) = outs rest := rfl

@[simp]
theorem outs_fault (e : Fault) (rest : List Signal) : outs (.fault e :: rest) = outs rest := rfl

@[simp]
theorem outs_stop (rest : List Signal) : outs (.stop :: rest) = outs rest := rfl

@[simp]
theorem outs_finish (rest : List Signal) : outs (.finish :: rest) = outs rest := rfl

@[simp]
theorem outs_map_out (lines : List Line) : outs (lines.map .out) = lines := by
  induction lines with
  | nil => rfl
  | cons l rest ih => rw [List.map_cons, outs_out, ih]

/-! ### The parts of a script -/

namespace Chain
open Preassembler.Flow (numberedFrom)
variable {n : Nat} {error : Option SourceError}

theorem giveAll_cons (c : Chain n) (l : Line) (rest : List Line) :
    c.giveAll (l :: rest) = (c.give n l).bind fun c' => c'.giveAll rest := rfl

theorem lines_giveAll_singleton (c : Chain n) (l : Line) :
    (c.giveAll [l]).lines = (c.give n l).lines := by
  rw [giveAll_cons]
  cases hresult : (c.give n l).result with
  | error e => rw [Emission.bind_of_error hresult]
  | ok c' =>
    rw [Emission.bind_of_ok hresult]
    exact List.append_nil _

/-- The part of a script in which source lines are stepped. -/
def steps (count : Nat) (c : Chain n) : List Text → List Signal
  | [] => []
  | t :: rest =>
    .pull (count + 1) :: ((give n c ⟨count + 1, t⟩).lines.map .out ++
      match (give n c ⟨count + 1, t⟩).result with
      | .ok c' => steps (count + 1) c' rest
      | .error _ => [])

/-- The part of a script behind its steps: the end of the source, or an error. -/
def close (error : Option SourceError) (count : Nat) : Except LineError (Chain n) → List Signal
  | .error e => [.fault (.line e), .stop]
  | .ok c =>
    match error with
    | none => .finish :: ((empty n c).lines.map .out ++ ending (empty n c).result)
    | some e => [.pull (count + 1), .fault (.source e)]

theorem script_eq (error : Option SourceError) (count : Nat) (c : Chain n) (texts : List Text) :
    c.script error count texts = c.steps count texts ++
      close error (count + texts.length) (c.giveAll (numberedFrom count texts)).result := by
  induction texts generalizing count c with
  | nil => cases error <;> rfl
  | cons t rest ih =>
    rw [script, steps, numberedFrom, giveAll_cons]
    cases hresult : (c.give n ⟨count + 1, t⟩).result with
    | error e => simp [Emission.bind_of_error hresult, close]
    | ok c' =>
      have hcount : count + 1 + rest.length = count + (t :: rest).length := by
        rw [List.length_cons]
        omega
      simp [Emission.bind_of_ok hresult, ih, hcount]

/-- Stepping gives out what the chain gives out for the lines. -/
theorem outs_steps (count : Nat) (c : Chain n) (texts : List Text) :
    outs (c.steps count texts) = (c.giveAll (numberedFrom count texts)).lines := by
  induction texts generalizing count c with
  | nil => rfl
  | cons t rest ih =>
    rw [steps, numberedFrom, giveAll_cons]
    cases hresult : (c.give n ⟨count + 1, t⟩).result with
    | error e => simp [Emission.bind_of_error hresult]
    | ok c' => simp [Emission.bind_of_ok hresult, ih]

theorem mem_steps {count : Nat} {c : Chain n} {texts : List Text} {s : Signal}
    (h : s ∈ c.steps count texts) : (∃ no, s = .pull no) ∨ ∃ l, s = .out l := by
  induction texts generalizing count c with
  | nil => cases h
  | cons t rest ih =>
    rw [steps] at h
    rcases List.mem_cons.1 h with rfl | h
    · exact .inl ⟨_, rfl⟩
    · rcases List.mem_append.1 h with h | h
      · obtain ⟨l, -, rfl⟩ := List.mem_map.1 h
        exact .inr ⟨l, rfl⟩
      · cases hresult : (c.give n ⟨count + 1, t⟩).result with
        | error e => simp [hresult] at h
        | ok c' =>
          rw [hresult] at h
          exact ih h

/-- Among the steps a line is asked for when the lines before it were stepped. -/
theorem steps_before_pull {c : Chain n} {count no : Nat} {texts : List Text}
    {before after : List Signal} (h : c.steps count texts = before ++ .pull no :: after) :
    ∃ i, no = count + i + 1 ∧
      outs before = (c.giveAll (numberedFrom count (texts.take i))).lines := by
  induction texts generalizing c count before with
  | nil => simp [steps] at h
  | cons t rest ih =>
    rw [steps] at h
    cases before with
    | nil => exact ⟨0, (Signal.pull.inj (List.cons.inj h).1).symm, rfl⟩
    | cons x before =>
      obtain ⟨hx, htail⟩ := List.cons.inj h
      subst hx
      obtain ⟨between, rfl, hbehind⟩ := split_behind (by simp) htail
      cases hresult : (c.give n ⟨count + 1, t⟩).result with
      | error e => simp [hresult] at hbehind
      | ok c' =>
        rw [hresult] at hbehind
        obtain ⟨i, rfl, hbetween⟩ := ih hbehind
        refine ⟨i + 1, by omega, ?_⟩
        rw [List.take_succ_cons, numberedFrom, giveAll_cons, Emission.bind_of_ok hresult]
        simp [hbetween]

/-! ### Places in a script -/

/-- A signal that is neither asking nor a line stands behind the steps. -/
theorem split_behind_steps {c : Chain n} {count : Nat} {texts : List Text} {s : Signal}
    {before after : List Signal} (hpull : ∀ no, s ≠ .pull no) (hout : ∀ l, s ≠ .out l)
    (h : c.script error count texts = before ++ s :: after) :
    ∃ between, before = c.steps count texts ++ between ∧
      close error (count + texts.length) (c.giveAll (numberedFrom count texts)).result =
        between ++ s :: after := by
  rw [script_eq] at h
  refine split_behind (fun hmem => ?_) h
  rcases mem_steps hmem with ⟨no, hno⟩ | ⟨l, hl⟩
  · exact hpull no hno
  · exact hout l hl

/-- A line is asked for when the lines before it were stepped and all of their output is out. -/
theorem outs_before_pull {c : Chain n} {count no : Nat} {texts : List Text}
    {before after : List Signal} (h : c.script error count texts = before ++ .pull no :: after) :
    ∃ i, no = count + i + 1 ∧
      outs before = (c.giveAll (numberedFrom count (texts.take i))).lines := by
  rw [script_eq] at h
  rcases split_two h with ⟨behind, hsteps⟩ | ⟨between, rfl, hclose⟩
  · exact steps_before_pull hsteps
  · -- Behind the steps only the line in whose place the source failed is asked for.
    have hmem : .pull no ∈ close error (count + texts.length)
        (c.giveAll (numberedFrom count texts)).result := by simp [hclose]
    cases hresult : (c.giveAll (numberedFrom count texts)).result with
    | error e => simp [close, hresult] at hmem
    | ok c' =>
      cases error with
      | none => cases hempty : (c'.empty n).result <;> simp [close, ending, hresult, hempty] at hmem
      | some e =>
        rw [hresult, close] at hclose
        cases between with
        | nil =>
          refine ⟨texts.length, (Signal.pull.inj (List.cons.inj hclose).1).symm, ?_⟩
          rw [List.append_nil, outs_steps, List.take_length]
        | cons x between => cases between <;> simp at hclose

/-- The source ends when all of its lines were stepped, and then the stages are flushed. -/
theorem outs_before_finish {c : Chain n} {count : Nat} {texts : List Text}
    {before after : List Signal} (h : c.script error count texts = before ++ .finish :: after) :
    error = none ∧ ∃ c', (c.giveAll (numberedFrom count texts)).result = .ok c' ∧
      outs before = (c.giveAll (numberedFrom count texts)).lines ∧
      outs after = (c'.empty n).lines := by
  obtain ⟨between, rfl, hclose⟩ :=
    split_behind_steps (s := .finish) (fun _ => nofun) (fun _ => nofun) h
  have hmem : .finish ∈ close error (count + texts.length)
      (c.giveAll (numberedFrom count texts)).result := by simp [hclose]
  cases hresult : (c.giveAll (numberedFrom count texts)).result with
  | error e => simp [close, hresult] at hmem
  | ok c' =>
    cases error with
    | some e => simp [close, hresult] at hmem
    | none =>
      rw [hresult, close] at hclose
      cases between with
      | nil =>
        refine ⟨rfl, c', rfl, by simp [outs_steps], ?_⟩
        rw [← (List.cons.inj hclose).2]
        cases (c'.empty n).result <;> simp [ending]
      | cons x between =>
        have hmem : .finish ∈ (c'.empty n).lines.map .out ++ ending (c'.empty n).result := by
          rw [(List.cons.inj hclose).2]
          simp
        cases hempty : (c'.empty n).result <;> simp [ending, hempty] at hmem

/-- Before the end of the source only the output of the steps is given out. -/
theorem outs_prefix_of_not_finished {c : Chain n} {count : Nat} {texts : List Text}
    {before after : List Signal} (h : c.script error count texts = before ++ after)
    (hfinish : .finish ∉ before) :
    outs before <+: (c.giveAll (numberedFrom count texts)).lines := by
  rw [script_eq] at h
  rw [← outs_steps]
  rcases List.append_eq_append_iff.1 h with ⟨between, rfl, hclose⟩ | ⟨between, hsteps, -⟩
  · have hnone : outs (close error (count + texts.length)
        (c.giveAll (numberedFrom count texts)).result) = [] → outs between = [] := by
      intro hnil
      rw [hclose, outs_append] at hnil
      exact (List.append_eq_nil_iff.1 hnil).1
    have hquiet : outs between = [] := by
      cases hresult : (c.giveAll (numberedFrom count texts)).result with
      | error e => exact hnone (by rw [hresult]; rfl)
      | ok c' =>
        cases error with
        | some e => exact hnone (by rw [hresult]; rfl)
        | none =>
          cases between with
          | nil => rfl
          | cons x between =>
            rw [hresult, close] at hclose
            simp [← (List.cons.inj hclose).1] at hfinish
    simp [hquiet]
  · simp [hsteps]

/-- Nothing is heard after an error. -/
theorem quiet_after_fault {c : Chain n} {count : Nat} {texts : List Text} {e : Fault}
    {before after : List Signal} (h : c.script error count texts = before ++ .fault e :: after) :
    ∀ s ∈ after, s.heard = false := by
  obtain ⟨between, -, hclose⟩ :=
    split_behind_steps (s := .fault e) (fun _ => nofun) (fun _ => nofun) h
  cases hresult : (c.giveAll (numberedFrom count texts)).result with
  | error e' =>
    rw [hresult, close] at hclose
    obtain ⟨rfl, rfl⟩ : between = [] ∧ after = [.stop] := by
      rcases between with _ | ⟨x, _ | ⟨y, between⟩⟩ <;> simp_all
    simp [Signal.heard]
  | ok c' =>
    obtain rfl : after = [] := by
      rw [hresult] at hclose
      cases error with
      | some e' =>
        rw [close] at hclose
        rcases between with _ | ⟨x, _ | ⟨y, between⟩⟩ <;> simp_all
      | none =>
        rw [close] at hclose
        rw [← List.cons_append] at hclose
        obtain ⟨ending', -, hending⟩ := split_behind (by simp) hclose
        cases hempty : (c'.empty n).result with
        | ok _ => simp [hempty, ending] at hending
        | error e' => cases ending' <;> simp_all [ending]
    simp

end Chain

/-! ### Where a client cuts -/

namespace Client
open Preassembler.Flow (numberedFrom)
variable {κ : Type} {accept : Client κ} {client : κ}

/-- A client that accepts all lines hears the whole script. Another one hears it up to the line
after which it wants no more; a source that has not ended is then told to stop. -/
theorem cut_cases (accept : Client κ) (client : κ) (ended : Bool) (script : List Signal) :
    (accepts accept client (outs script) = true ∧ cut accept client ended script = script) ∨
      ∃ before l after, script = before ++ .out l :: after ∧
        accepts accept client (outs before) = true ∧
        accepts accept client (outs before ++ [l]) = false ∧
        cut accept client ended script =
          before ++ .out l :: if ended = true ∨ .finish ∈ before then [] else [.stop] := by
  induction script generalizing client ended with
  | nil => exact .inl ⟨rfl, rfl⟩
  | cons s rest ih =>
    cases s with
    | out l =>
      rw [cut]
      cases hmore : (accept client l).2 with
      | false =>
        refine .inr ⟨[], l, rest, rfl, rfl, by simp [accepts, hmore], by simp⟩
      | true =>
        rw [if_pos rfl]
        rcases ih (accept client l).1 ended with
          ⟨hall, hcut⟩ | ⟨before, m, after, rfl, hyes, hno, hcut⟩
        · exact .inl ⟨by simp [accepts, hmore, hall], by rw [hcut]⟩
        · refine .inr ⟨.out l :: before, m, after, rfl, ?_, ?_, ?_⟩
          · simp [accepts, hmore, hyes]
          · simpa [accepts, hmore] using hno
          · rw [hcut]
            simp
    | finish =>
      rw [cut]
      rcases ih client true with ⟨hall, hcut⟩ | ⟨before, m, after, rfl, hyes, hno, hcut⟩
      · exact .inl ⟨hall, by rw [hcut]⟩
      · exact .inr ⟨.finish :: before, m, after, rfl, hyes, hno, by simp [hcut]⟩
    | pull _ | fault _ | stop =>
      rcases ih client ended with ⟨hall, hcut⟩ | ⟨before, m, after, rfl, hyes, hno, hcut⟩
      · exact .inl ⟨hall, by simp only [cut, hcut]⟩
      · exact .inr ⟨_ :: before, m, after, rfl, hyes, hno, by simp [cut, hcut]⟩

/-- What the source sees of a run whose client wants no more while the source is stepped: it is
asked for the lines up to the first whose steps give the client what it wants, and told to stop. -/
theorem asked_of_refused {n : Nat} (error : Option SourceError) {count m : Nat} {c : Chain n}
    {texts : List Text}
    (hno : accepts accept client (c.giveAll (numberedFrom count (texts.take m))).lines = false)
    (hyes : ∀ j, j < m →
      accepts accept client (c.giveAll (numberedFrom count (texts.take j))).lines = true) :
    (cut accept client false (c.script error count texts)).filter (!·.heard) =
      (List.range m).map (fun i => .pull (count + i + 1)) ++ [.stop] := by
  induction texts generalizing count m c client with
  | nil => simp [numberedFrom, Chain.giveAll, Emission.each, accepts] at hno
  | cons t rest ih =>
    obtain ⟨m, rfl⟩ : ∃ k, m = k + 1 := by
      cases m with
      | zero => simp [numberedFrom, Chain.giveAll, Emission.each, accepts] at hno
      | succ k => exact ⟨k, rfl⟩
    have hquiet : ∀ lines : List Line, (lines.map Signal.out).filter (!·.heard) = [] := by
      intro lines
      simp [Signal.heard]
    rw [Chain.script, cut_pull, cut_outs]
    cases haccepts : accepts accept client (c.give n ⟨count + 1, t⟩).lines with
    | false =>
      obtain rfl : m = 0 := by
        false_or_by_contra
        have hone := hyes 1 (by omega)
        rw [List.take_succ_cons, List.take_zero, numberedFrom, numberedFrom,
          Chain.lines_giveAll_singleton, haccepts] at hone
        cases hone
      simp [Signal.heard]
    | true =>
      rw [List.take_succ_cons, numberedFrom, Chain.giveAll_cons] at hno
      cases hresult : (c.give n ⟨count + 1, t⟩).result with
      | error e =>
        rw [Emission.bind_of_error hresult] at hno
        cases haccepts.symm.trans hno
      | ok c' =>
        rw [Emission.bind_of_ok hresult, accepts_append, haccepts, Bool.true_and] at hno
        have hrest := ih hno fun j hj => by
          have hj' := hyes (j + 1) (by omega)
          rw [List.take_succ_cons, numberedFrom, Chain.giveAll_cons, Emission.bind_of_ok hresult,
            accepts_append, haccepts, Bool.true_and] at hj'
          exact hj'
        simp only [if_true]
        rw [List.filter_cons_of_pos rfl, List.filter_append, hquiet, List.nil_append, hrest,
          List.range_succ_eq_map]
        simp [Function.comp_def, Nat.add_comm 1, Nat.add_assoc]

/-- A client that wants no more after its `k`-th line. With `k = ⊤` it takes every line. -/
def StopsAfter (accept : Client κ) (client : κ) (k : ℕ∞) : Prop :=
  ∀ lines : List Line, accepts accept client lines = true ↔ (lines.length : ℕ∞) < k

theorem stopsAfter_everyLine : StopsAfter Pipeline.everyLine () ⊤ := by
  intro lines
  induction lines with
  | nil => simp [accepts]
  | cons l rest ih => simpa [accepts, Pipeline.everyLine] using ih

theorem stopsAfter_countdown {n : Nat} (hn : 0 < n) : StopsAfter Pipeline.countdown n n := by
  intro lines
  rw [Nat.cast_lt]
  induction lines generalizing n with
  | nil => simpa [accepts] using hn
  | cons l rest ih =>
    rw [accepts, Bool.and_eq_true, List.length_cons]
    by_cases hone : n = 1
    · subst hone
      simp [Pipeline.countdown]
    · have hrest := ih (n := n - 1) (by omega)
      simp only [Pipeline.countdown, bne_iff_ne, ne_eq, hone, not_false_eq_true, true_and, hrest]
      omega

end Client

/-! ### Labels found dangling -/

/-- No event tells of a dangling label. -/
def Undangling (events : List Event) : Prop := ∀ label no, .labelDangling label no ∉ events

/-- Only a flush finds a label dangling. -/
theorem Stage.undangling_step {s : Stage} {l : Line} {r : Reply} (h : s.step l = .ok r) :
    Undangling r.events := by
  intro label no
  cases s with
  | macros engine =>
    simp only [step] at h
    split at h <;> cases h <;> simp
  | resolve width pending =>
    simp only [step] at h
    split at h <;> cases h <;> simp
  | _ =>
    cases h
    simp

namespace Flow
variable {κ : Type} {accept : Client κ}

theorem undangling_push (accept : Client κ) {n : Nat} {x : Chain n × Flow κ}
    (h : Undangling x.2.events) (l : Line) : Undangling (push accept n x l).2.events := by
  induction n generalizing l with
  | zero =>
    obtain ⟨c, f⟩ := x
    by_cases hf : f.status = .moving
    · rw [push, deliver_of_moving accept hf]
      exact h
    · rw [push, deliver_of_not_moving hf]
      exact h
  | succ n ih =>
    by_cases hx : x.2.status = .moving
    · obtain ⟨⟨s, c⟩, f⟩ := x
      cases hs : s.step l with
      | error e =>
        rw [push_of_refused hx hs]
        exact h
      | ok r =>
        rw [push_of_step hx hs]
        refine List.foldlRecOn (b := (c, f.note r.events)) r.lines (push accept n)
          (motive := fun y => Undangling y.2.events) ?_ (fun y hy l _ => ih hy l)
        intro label no hmem
        rcases List.mem_append.1 hmem with hmem | hmem
        · exact Stage.undangling_step hs label no (List.mem_reverse.1 hmem)
        · exact h label no hmem
    · rw [push_of_not_moving hx]
      exact h

/-- A run that does not come to the end of its source finds no label dangling. -/
theorem undangling_feed {n : Nat} {error : Option SourceError} {count : Nat} {c : Chain n}
    {f : Flow κ} {texts : List Text} (hf : f.status = .moving) (h : Undangling f.events)
    (hfinish : .finish ∉ (feed accept error count c f texts).trace) :
    Undangling (feed accept error count c f texts).events := by
  induction texts generalizing count c f with
  | nil =>
    cases error with
    | some e => exact h
    | none =>
      rw [trace_feed none count c hf] at hfinish
      simp [Chain.script, Client.cut] at hfinish
  | cons t rest ih =>
    have hpush := undangling_push accept (x := (c, f.signal (.pull (count + 1)))) h
      ⟨count + 1, t⟩
    rw [feed] at hfinish ⊢
    dsimp only at hfinish ⊢
    generalize push accept n _ _ = x at hpush hfinish ⊢
    cases hx : x.2.status with
    | moving =>
      rw [hx] at hfinish
      exact ih hx hpush hfinish
    | stopped => exact hpush
    | failed e => exact hpush

end Flow

namespace Pipeline

/-- What the stages give out when source lines are stepped and nothing is flushed. -/
def stepped (p : Pipeline) (texts : List Text) : Emission (Chain p.stages.length) :=
  (Chain.ofList p.stages).giveAll (numbered texts)

/-- What a run comes to when its client wants no more after `k` lines. -/
structure Lazy {κ : Type} (p : Pipeline) (s : Source) (k : ℕ∞) (o : Outcome κ) : Prop where
  /-- The client gets the first lines of the run that nobody stops. -/
  first_lines : o.lines <+: (p.runAll s).lines ∧
    (o.lines.length : ℕ∞) = min k (p.runAll s).lines.length
  /-- A line is asked for when all output of the lines before it has been delivered. -/
  asked_late : ∀ before i after, o.trace = before ++ .pull (i + 1) :: after →
    outs before = (p.stepped (s.lines.take i)).lines
  /-- Exactly the lines are asked for whose steps give the client what it wants, and then the source
  is told to stop. -/
  asked_enough : ∀ m, IsLeast { m | k ≤ (p.stepped (s.lines.take m)).lines.length } m →
    o.trace.filter (!·.heard) = (List.range m).map (fun i => .pull (i + 1)) ++ [.stop]
  /-- The stages are flushed behind the end of the source only: it ended without error, its lines
  were all stepped without error, and the client still wants more. -/
  flushed_last : ∀ before after, o.trace = before ++ .finish :: after →
    s.error = none ∧ outs before = (p.stepped s.lines).lines ∧
      ((outs before).length : ℕ∞) < k ∧
      ∃ c, (p.stepped s.lines).result = .ok c ∧ outs after <+: (c.empty _).lines
  /-- In any other run the client gets what comes from stepping lines, and no label is found
  dangling. -/
  not_flushed : .finish ∉ o.trace → o.lines <+: (p.stepped s.lines).lines ∧
    Undangling o.events
  /-- Nothing is heard after an error. -/
  error_last : ∀ before e after, o.trace = before ++ .fault e :: after →
    ∀ signal ∈ after, signal.heard = false
  /-- Nothing is heard after the line with which the client wants no more. -/
  refused_last : ∀ before l after, o.trace = before ++ .out l :: after →
    (outs before).length + 1 = k → ∀ signal ∈ after, signal.heard = false

variable {κ : Type} {p : Pipeline} {accept : Client κ} {client : κ} {s : Source} {k : ℕ∞}

theorem trace_runAll (p : Pipeline) (s : Source) : (p.runAll s).trace = p.script s := by
  rw [runAll, trace_run]
  rcases Client.cut_cases everyLine () false (p.script s) with ⟨-, hcut⟩ | ⟨b, l, -, -, -, hno, -⟩
  · exact hcut
  · have hyes := (Client.stopsAfter_everyLine (outs b ++ [l])).2 (ENat.natCast_lt_top _)
    cases hyes.symm.trans hno

theorem stepped_eq (p : Pipeline) (texts : List Text) :
    p.stepped texts = (Chain.ofList p.stages).giveAll (Flow.numberedFrom 0 texts) := by
  rw [stepped, Flow.numberedFrom_zero]

/-- The trace of a run is its script, or the script up to the line with which the client wants no
more, with perhaps a last word to the source. -/
theorem trace_cases (h : Client.StopsAfter accept client k) :
    (((outs (p.script s)).length : ℕ∞) < k ∧ (p.run accept client s).trace = p.script s) ∨
      ∃ before l after last, p.script s = before ++ .out l :: after ∧
        ((outs before).length : ℕ∞) + 1 = k ∧
        (p.run accept client s).trace = before ++ .out l :: last ∧ ∀ x ∈ last, x = .stop := by
  rw [trace_run]
  rcases Client.cut_cases accept client false (p.script s) with
    ⟨hall, hcut⟩ | ⟨before, l, after, hscript, hyes, hno, hcut⟩
  · exact .inl ⟨(h _).1 hall, hcut⟩
  · refine .inr ⟨before, l, after, _, hscript, ?_, hcut, ?_⟩
    · have hlt := (h _).1 hyes
      have hle := not_lt.1 fun hlt => Bool.false_ne_true (hno.symm.trans ((h _).2 hlt))
      rw [List.length_append, List.length_singleton, Nat.cast_add, Nat.cast_one] at hle
      exact le_antisymm (Order.add_one_le_of_lt hlt) hle
    · split <;> simp

/-- A signal of the trace that is neither a line nor the last word to the source comes before the
client wants no more. It stands in the script behind the same signals, and what follows it is the
start of what follows there. -/
theorem place_in_script (h : Client.StopsAfter accept client k) {x : Signal}
    {before after : List Signal} (htrace : (p.run accept client s).trace = before ++ x :: after)
    (hout : ∀ l, x ≠ .out l) (hstop : x ≠ .stop) :
    ((outs before).length : ℕ∞) < k ∧
      ∃ front rest last, p.script s = before ++ x :: (front ++ rest) ∧ after = front ++ last ∧
        ∀ y ∈ last, y = .stop := by
  rcases trace_cases (p := p) (s := s) h with
    ⟨hlt, hall⟩ | ⟨b, l, a, last, hscript, hk, hcut, hlast⟩
  · rw [hall] at htrace
    rw [htrace, outs_append, List.length_append, Nat.cast_add] at hlt
    exact ⟨lt_of_le_of_lt le_self_add hlt, after, [], [], by simp [htrace], by simp, by simp⟩
  · rw [hcut] at htrace
    rcases split_two htrace with ⟨behind, rfl⟩ | ⟨between, rfl, hbetween⟩
    · refine ⟨?_, behind ++ [.out l], a, last, by simp [hscript], ?_, hlast⟩
      · have hlt : (outs before).length < (outs (before ++ x :: behind)).length + 1 := by
          rw [outs_append, List.length_append]
          omega
        rw [← hk]
        exact_mod_cast hlt
      · simpa using htrace.symm
    · cases between with
      | nil => exact absurd (List.cons.inj hbetween).1.symm (hout l)
      | cons y between => exact absurd (hlast x (by simp [(List.cons.inj hbetween).2])) hstop

theorem outs_of_forall_stop {last : List Signal} (h : ∀ x ∈ last, x = .stop) : outs last = [] := by
  induction last with
  | nil => rfl
  | cons x last ih =>
    rw [h x List.mem_cons_self, outs_stop]
    exact ih fun y hy => h y (List.mem_cons_of_mem x hy)

theorem lines_eq_outs (o : Outcome κ) : o.lines = outs o.trace := rfl

theorem first_lines_of_run (h : Client.StopsAfter accept client k) :
    (p.run accept client s).lines <+: (p.runAll s).lines ∧
      ((p.run accept client s).lines.length : ℕ∞) = min k (p.runAll s).lines.length := by
  rw [lines_eq_outs, lines_eq_outs]
  rw [trace_runAll]
  rcases trace_cases (p := p) (s := s) h with
    ⟨hlt, hall⟩ | ⟨b, l, a, last, hscript, hk, hcut, hlast⟩
  · rw [hall]
    exact ⟨List.prefix_rfl, (min_eq_right hlt.le).symm⟩
  · rw [hcut, hscript]
    simp only [outs_append, outs_out, outs_of_forall_stop hlast]
    have hle : ((outs b).length : ℕ∞) + 1 ≤ ((outs b ++ l :: outs a).length : ℕ) := by
      exact_mod_cast (by simp : (outs b).length + 1 ≤ (outs b ++ l :: outs a).length)
    refine ⟨by simp, ?_⟩
    rw [← hk, min_eq_left hle]
    simp

theorem asked_enough_of_run (h : Client.StopsAfter accept client k) {m : Nat}
    (hm : IsLeast { m | k ≤ (p.stepped (s.lines.take m)).lines.length } m) :
    (p.run accept client s).trace.filter (!·.heard) =
      (List.range m).map (fun i => .pull (i + 1)) ++ [.stop] := by
  have hno : Client.accepts accept client (p.stepped (s.lines.take m)).lines = false := by
    rw [← Bool.not_eq_true, h]
    exact not_lt.2 hm.1
  have hyes : ∀ j, j < m →
      Client.accepts accept client (p.stepped (s.lines.take j)).lines = true := by
    intro j hj
    rw [h]
    exact not_le.1 fun hle => absurd (hm.2 hle) (by omega)
  simp only [stepped_eq] at hno hyes
  have hasked := Client.asked_of_refused s.error hno hyes
  rw [trace_run, script, hasked]
  simp

theorem flushed_last_of_run (h : Client.StopsAfter accept client k) {before after : List Signal}
    (htrace : (p.run accept client s).trace = before ++ .finish :: after) :
    s.error = none ∧ outs before = (p.stepped s.lines).lines ∧
      ((outs before).length : ℕ∞) < k ∧
      ∃ c, (p.stepped s.lines).result = .ok c ∧ outs after <+: (c.empty _).lines := by
  obtain ⟨hlt, front, rest, last, hscript, rfl, hlast⟩ :=
    place_in_script h htrace (fun _ => nofun) nofun
  obtain ⟨hnone, c, hc, hbefore, hafter⟩ := Chain.outs_before_finish hscript
  rw [← stepped_eq] at hc hbefore
  refine ⟨hnone, hbefore, hlt, c, hc, ?_⟩
  rw [← hafter, outs_append, outs_append, outs_of_forall_stop hlast, List.append_nil]
  exact List.prefix_append _ _

theorem not_flushed_of_run (h : Client.StopsAfter accept client k)
    (hfinish : .finish ∉ (p.run accept client s).trace) :
    (p.run accept client s).lines <+: (p.stepped s.lines).lines := by
  rw [stepped_eq, lines_eq_outs]
  rcases trace_cases (p := p) (s := s) h with ⟨-, hall⟩ | ⟨b, l, a, last, hscript, -, hcut, hlast⟩
  · rw [hall] at hfinish ⊢
    exact Chain.outs_prefix_of_not_finished (List.append_nil _).symm hfinish
  · rw [hcut] at hfinish ⊢
    rw [script, List.append_cons] at hscript
    have hprefix := Chain.outs_prefix_of_not_finished hscript (by simp_all)
    simpa [outs_of_forall_stop hlast] using hprefix

theorem not_dangling_of_run (hfinish : .finish ∉ (p.run accept client s).trace) :
    Undangling (p.run accept client s).events := by
  intro label no hmem
  have hfeed : .finish ∉
      (Flow.feed accept s.error 0 (.ofList p.stages) (.new client) s.lines).trace :=
    fun hmem => hfinish (List.mem_reverse.2 hmem)
  exact Flow.undangling_feed rfl (by simp [Undangling, Flow.new]) hfeed label no
    (List.mem_reverse.1 hmem)

theorem refused_last_of_run (h : Client.StopsAfter accept client k) {before after : List Signal}
    {l : Line} (htrace : (p.run accept client s).trace = before ++ .out l :: after)
    (hk : ((outs before).length : ℕ∞) + 1 = k) : ∀ x ∈ after, x = .stop := by
  rcases trace_cases (p := p) (s := s) h with ⟨hlt, hall⟩ | ⟨b, m, a, last, -, hb, hcut, hlast⟩
  · rw [hall] at htrace
    rw [← hk, htrace] at hlt
    have hlt' : (outs (before ++ .out l :: after)).length < (outs before).length + 1 := by
      exact_mod_cast hlt
    simp at hlt'
  · have hlength : (outs b).length = (outs before).length := by
      have hcast : ((outs b).length : ℕ∞) + 1 = (outs before).length + 1 := hb.trans hk.symm
      have hsucc : (outs b).length + 1 = (outs before).length + 1 := by exact_mod_cast hcast
      omega
    rw [hcut] at htrace
    rcases split_two htrace with ⟨behind, rfl⟩ | ⟨between, rfl, hbetween⟩
    · simp at hlength
    · cases between with
      | nil => exact (List.cons.inj hbetween).2 ▸ hlast
      | cons y between =>
        obtain ⟨rfl, -⟩ := List.cons.inj hbetween
        simp at hlength

/-- **Runs are lazy.** Whoever the client is and however the source ends: the client gets the first
lines of the run that nobody stops, no source line is asked for before it is needed, nothing is
flushed but at the end of a source that ended well, and nothing is heard after an error or after the
line with which the client wants no more. -/
theorem run_lazy {κ : Type} (p : Pipeline) (accept : Client κ) (client : κ) (s : Source) (k : ℕ∞)
    (h : Client.StopsAfter accept client k) : p.Lazy s k (p.run accept client s) where
  first_lines := first_lines_of_run h
  asked_late := by
    intro before i after htrace
    obtain ⟨-, front, rest, last, hscript, -, -⟩ :=
      place_in_script h htrace (fun _ => nofun) nofun
    obtain ⟨j, hj, hbefore⟩ := Chain.outs_before_pull hscript
    obtain rfl : i = j := by omega
    rw [hbefore, stepped_eq]
  asked_enough := fun m hm => asked_enough_of_run h hm
  flushed_last := fun before after htrace => flushed_last_of_run h htrace
  not_flushed := fun hfinish => ⟨not_flushed_of_run h hfinish, not_dangling_of_run hfinish⟩
  error_last := by
    intro before e after htrace signal hmem
    obtain ⟨-, front, rest, last, hscript, rfl, hlast⟩ :=
      place_in_script h htrace (fun _ => nofun) nofun
    rcases List.mem_append.1 hmem with hmem | hmem
    · exact Chain.quiet_after_fault hscript signal (List.mem_append_left rest hmem)
    · rw [hlast signal hmem]
      rfl
  refused_last := by
    intro before l after htrace hk signal hmem
    rw [refused_last_of_run h htrace hk signal hmem]
    rfl

open Text (ascii) in
/-- A client that wants two lines gets them from a line that holds three statements; the rest of it
is lost, and the next line is not asked for. -/
theorem run_lazy_within_a_line :
    Lazy ⟨{}, .new 64⟩ ⟨[ascii "add;nor;lw", ascii "halt"], none⟩ (2 : Nat)
        (runFor ⟨{}, .new 64⟩ 2 ⟨[ascii "add;nor;lw", ascii "halt"], none⟩) ∧
      (runFor ⟨{}, .new 64⟩ 2 ⟨[ascii "add;nor;lw", ascii "halt"], none⟩).trace =
        [.pull 1, .out ⟨1, ascii "       add"⟩, .out ⟨1, ascii "       nor"⟩, .stop] :=
  ⟨run_lazy _ countdown 2 _ (2 : Nat) (Client.stopsAfter_countdown (by decide)), by decide +kernel⟩

end Pipeline

end Preassembler
