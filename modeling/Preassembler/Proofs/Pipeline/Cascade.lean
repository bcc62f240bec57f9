import Preassembler.Proofs.Pipeline.Laziness

/-! One chain of stages behind another.

What the first chain gives out, line by line and when it is flushed, goes through the second one as
it comes (`Emission.pipe`). So a whole input makes of both chains what the second one makes of all
that the first gives out (`whole_append_of_ok`), and an error of the first one is reported only if
the second one took everything before it. This holds although the two take turns, and also when
they fail.

Main statement: what a run lists, and the error it ends with, is what the chain of its stages makes
of the numbered lines (`result_runAll`, `process_eq_answer`). -/
namespace Preassembler

/-! ### Emissions one after the other -/

namespace Emission
variable {α β γ : Type}

theorem bind_assoc (x : Emission α) (f : α → Emission β) (g : β → Emission γ) :
    (x.bind f).bind g = x.bind fun a => (f a).bind g := by
  cases hx : x.result with
  | error e =>
    rw [bind_of_error hx, bind_of_error hx]
    exact bind_of_error rfl g
  | ok a =>
    rw [bind_of_ok hx, bind_of_ok hx]
    cases hf : (f a).result with
    | error e =>
      rw [bind_of_error hf]
      exact bind_of_error rfl g
    | ok b =>
      rw [bind_of_ok hf, ← List.append_assoc]
      exact bind_of_ok rfl g

theorem bind_map (x : Emission α) (f : α → β) (g : β → Emission γ) :
    (x.map f).bind g = x.bind fun a => g (f a) := by
  cases hx : x.result <;> simp [bind, map, hx, Except.map]

theorem map_bind (x : Emission α) (f : α → Emission β) (g : β → γ) :
    (x.bind f).map g = x.bind fun a => (f a).map g := by
  cases hx : x.result <;> simp [bind, map, hx, Except.map]

theorem map_map (x : Emission α) (f : α → β) (g : β → γ) :
    (x.map f).map g = x.map fun a => g (f a) := by
  cases hx : x.result <;> simp [map, hx, Except.map]

theorem map_id (x : Emission α) : x.map (fun a => a) = x := by
  obtain ⟨lines, result⟩ := x
  cases result <;> rfl

theorem each_append (f : α → Line → Emission α) (a : α) (front back : List Line) :
    each f a (front ++ back) = (each f a front).bind fun a' => each f a' back := by
  induction front generalizing a with
  | nil => exact (bind_of_ok (x := ⟨[], .ok a⟩) rfl fun a' => each f a' back).symm
  | cons l front ih =>
    simp only [List.cons_append, each, ih, bind_assoc]

end Emission

namespace Chain
variable {n m : Nat}

theorem giveAll_append (c : Chain n) (front back : List Line) :
    c.giveAll (front ++ back) = (c.giveAll front).bind fun c' => c'.giveAll back :=
  Emission.each_append (give n) c front back

theorem giveAll_singleton (c : Chain n) (l : Line) : c.giveAll [l] = c.give n l := by
  rw [giveAll_cons]
  cases hgive : (c.give n l).result with
  | error e => rw [Emission.bind_of_error hgive, ← hgive]
  | ok c' =>
    rw [Emission.bind_of_ok hgive]
    show (⟨(c.give n l).lines ++ [], .ok c'⟩ : Emission (Chain n)) = _
    rw [List.append_nil, ← hgive]

end Chain

/-- An emission whose lines go through a chain. Its own result counts if the chain took them all. -/
def Emission.pipe {α : Type} {m : Nat} (x : Emission α) (d : Chain m) : Emission (α × Chain m) :=
  (d.giveAll x.lines).bind fun d' => ⟨[], x.result.map fun a => (a, d')⟩

namespace Emission
variable {α β : Type} {m : Nat}

theorem pipe_of_ok {x : Emission α} {a : α} (h : x.result = .ok a) (d : Chain m) :
    x.pipe d = (d.giveAll x.lines).map fun d' => (a, d') := by
  rw [pipe, h]
  cases hd : (d.giveAll x.lines).result with
  | error e =>
    rw [bind_of_error hd, map, hd]
    rfl
  | ok d' =>
    rw [bind_of_ok hd, map, hd, List.append_nil]
    rfl

theorem pipe_of_error {x : Emission α} {e : LineError} (h : x.result = .error e) (d : Chain m) :
    x.pipe d = (d.giveAll x.lines).bind fun _ => ⟨[], .error e⟩ := by
  rw [pipe, h]
  rfl

theorem pipe_bind (x : Emission α) (f : α → Emission β) (d : Chain m) :
    (x.bind f).pipe d = (x.pipe d).bind fun y => (f y.1).pipe y.2 := by
  cases hx : x.result with
  | error e =>
    rw [bind_of_error hx, pipe_of_error rfl, pipe_of_error hx, bind_assoc]
    congr 1
  | ok a =>
    rw [bind_of_ok hx, pipe_of_ok hx, bind_map]
    simp only [pipe, Chain.giveAll_append, bind_assoc]

theorem pipe_map (x : Emission α) (f : α → β) (d : Chain m) :
    (x.map f).pipe d = (x.pipe d).map fun y => (f y.1, y.2) := by
  rw [pipe, pipe, map_bind]
  refine congrArg _ (funext fun d' => ?_)
  cases hx : x.result <;> simp [map, hx, Except.map]

end Emission

/-! ### Chains one behind the other -/

namespace Chain
open Emission (pipe bind_assoc bind_map map_bind)
variable {n m : Nat}

/-- The stages of one chain, and behind them those of another. -/
def append : {n : Nat} → Chain n → Chain m → Chain (m + n)
  | 0, _, d => d
  | _ + 1, (s, c), d => (s, append c d)

theorem each_pipe
    (hgive : ∀ (c : Chain n) (d : Chain m) (l : Line),
      give (m + n) (c.append d) l = ((give n c l).pipe d).map fun y => y.1.append y.2)
    (c : Chain n) (d : Chain m) (lines : List Line) :
    (c.append d).giveAll lines = ((c.giveAll lines).pipe d).map fun y => y.1.append y.2 := by
  induction lines generalizing c d with
  | nil => rfl
  | cons l rest ih =>
    rw [giveAll_cons, giveAll_cons, hgive, bind_map, Emission.pipe_bind, map_bind]
    simp only [ih]

/-- A line through both chains: what the first gives out goes through the second. -/
theorem give_append (c : Chain n) (d : Chain m) (l : Line) :
    give (m + n) (c.append d) l = ((give n c l).pipe d).map fun y => y.1.append y.2 := by
  induction n generalizing d l with
  | zero =>
    rw [Emission.pipe_of_ok (x := give 0 c l) (a := c) rfl, Emission.map_map]
    exact ((Emission.map_id _).trans (giveAll_singleton d l)).symm
  | succ n ih =>
    obtain ⟨s, c⟩ := c
    cases hs : s.step l with
    | error e =>
      have hboth : give (m + n + 1) (s, c.append d) l = ⟨[], .error e⟩ := give_of_refused hs
      have hfirst : give (n + 1) (s, c) l = ⟨[], .error e⟩ := give_of_refused hs
      exact hboth.trans (congrArg (fun x => (pipe x d).map fun y => y.1.append y.2) hfirst).symm
    | ok r =>
      have hboth : give (m + n + 1) (s, c.append d) l =
          ((c.append d).giveAll r.lines).map fun c' => (r.stage, c') := give_of_step hs
      have hfirst : give (n + 1) (s, c) l = (c.giveAll r.lines).map fun c' => (r.stage, c') :=
        give_of_step hs
      rw [each_pipe ih, Emission.map_map] at hboth
      have hpipe : (give (n + 1) (s, c) l).pipe d =
          ((c.giveAll r.lines).pipe d).map fun y => ((r.stage, y.1), y.2) :=
        (congrArg (pipe · d) hfirst).trans (Emission.pipe_map _ _ d)
      have hmap := congrArg (Emission.map fun y : Chain (n + 1) × Chain m => y.1.append y.2) hpipe
      exact hboth.trans (hmap.trans (Emission.map_map _ _ _)).symm

theorem giveAll_append_chain (c : Chain n) (d : Chain m) (lines : List Line) :
    (c.append d).giveAll lines = ((c.giveAll lines).pipe d).map fun y => y.1.append y.2 :=
  each_pipe give_append c d lines

/-- The flush of both chains: what the first still gives out goes through the second, which is then
flushed itself. -/
theorem empty_append (c : Chain n) (d : Chain m) :
    empty (m + n) (c.append d) = ((empty n c).pipe d).bind fun y => empty m y.2 := by
  induction n generalizing d with
  | zero =>
    rw [Emission.pipe_of_ok (x := empty 0 c) (a := ()) rfl, bind_map]
    exact (Emission.bind_of_ok (x := d.giveAll []) rfl (empty m)).symm
  | succ n ih =>
    obtain ⟨s, c⟩ := c
    cases hs : s.flush with
    | error e =>
      have hboth : empty (m + n + 1) (s, c.append d) = ⟨[], .error e⟩ := empty_of_refused hs
      have hfirst : empty (n + 1) (s, c) = ⟨[], .error e⟩ := empty_of_refused hs
      exact hboth.trans (congrArg (fun x => (pipe x d).bind fun y => empty m y.2) hfirst).symm
    | ok r =>
      have hboth : empty (m + n + 1) (s, c.append d) =
          ((c.append d).giveAll r.lines).bind (empty (m + n)) := empty_of_flush hs
      have hfirst : empty (n + 1) (s, c) = (c.giveAll r.lines).bind (empty n) := empty_of_flush hs
      refine hboth.trans
        (Eq.trans ?_ (congrArg (fun x => (pipe x d).bind fun y => empty m y.2) hfirst).symm)
      rw [giveAll_append_chain, bind_map, Emission.pipe_bind, bind_assoc]
      simp only [ih]

/-! ### Whole inputs -/

/-- All that a chain gives out for a whole input: for its lines, and when it is flushed. -/
def whole (c : Chain n) (lines : List Line) : Emission Unit := (c.giveAll lines).bind (empty n)

theorem whole_append (c : Chain n) (d : Chain m) (lines : List Line) :
    (c.append d).whole lines = ((c.whole lines).pipe d).bind fun y => empty m y.2 := by
  rw [whole, giveAll_append_chain, bind_map, whole, Emission.pipe_bind, bind_assoc]
  simp only [empty_append]

/-- Behind a chain that does not fail the other one gets all that it gives out. -/
theorem whole_append_of_ok {c : Chain n} {lines out : List Line} (h : c.whole lines = ⟨out, .ok ()⟩)
    (d : Chain m) : (c.append d).whole lines = d.whole out := by
  rw [whole_append, h, Emission.pipe_of_ok (a := ()) rfl, bind_map, whole]

end Chain

/-! ### One stage -/

namespace Chain

/-- Behind the last stage lines come out as they are. -/
theorem giveAll_zero (c : Chain 0) (lines : List Line) : c.giveAll lines = ⟨lines, .ok c⟩ := by
  induction lines with
  | nil => rfl
  | cons l rest ih =>
    have hgive : c.give 0 l = ⟨[l], .ok c⟩ := rfl
    rw [giveAll_cons, hgive, Emission.bind_of_ok rfl, ih]
    rfl

/-- A chain of one stage. -/
def single (s : Stage) : Chain 1 := (s, ())

theorem give_single {s : Stage} {l : Line} {r : Stage.Reply} (h : s.step l = .ok r) :
    (single s).give 1 l = ⟨r.lines, .ok (single r.stage)⟩ :=
  (give_of_step h).trans (congrArg (Emission.map _) (giveAll_zero () r.lines))

theorem empty_single {s : Stage} {r : Stage.Reply} (h : s.flush = .ok r) :
    (single s).empty 1 = ⟨r.lines, .ok ()⟩ := by
  refine (empty_of_flush h).trans ?_
  refine (congrArg (Emission.bind · (empty 0)) (giveAll_zero () _)).trans ?_
  exact congrArg (Emission.mk · _) (List.append_nil r.lines)

theorem giveAll_single {s s' : Stage} {lines given : List Line} (h : s.Takes lines s' given) :
    (single s).giveAll lines = ⟨given, .ok (single s')⟩ := by
  induction h with
  | nil => rfl
  | cons hs _ ih => rw [giveAll_cons, give_single hs, Emission.bind_of_ok rfl, ih]

/-- One stage makes the same of an input in a chain and by itself. -/
theorem whole_single {s : Stage} {lines out : List Line} (h : s.complete lines = .ok out) :
    (single s).whole lines = ⟨out, .ok ()⟩ := by
  obtain ⟨s', given, r, ht, hr, rfl⟩ := Stage.complete_eq_ok_iff.1 h
  rw [whole, giveAll_single ht, Emission.bind_of_ok rfl, empty_single hr]

/-- Stages that an input goes through one after the other make the same of it in a chain. -/
theorem whole_of_through {stages : List Stage} {lines out : List Line}
    (h : Pipeline.through stages lines = .ok out) : (ofList stages).whole lines = ⟨out, .ok ()⟩ := by
  induction stages generalizing lines with
  | nil =>
    obtain rfl : lines = out := Except.ok.inj h
    rw [whole, giveAll_zero, Emission.bind_of_ok rfl]
    exact congrArg (Emission.mk · _) (List.append_nil lines)
  | cons s rest ih =>
    obtain ⟨mid, hmid, hrest⟩ := Pipeline.through_cons_eq_ok_iff.1 h
    exact (whole_append_of_ok (whole_single hmid) (ofList rest)).trans (ih hrest)

end Chain

/-! ### Runs -/

/-- The answer an emission that ends a run comes to: all of its lines, or its error. -/
def Emission.answer (x : Emission Unit) : Except Fault (List Line) :=
  match x.result with
  | .ok () => .ok x.lines
  | .error e => .error (.line e)

namespace Pipeline

/-- All that the stages of a pipeline give out for source lines. -/
def emission (p : Pipeline) (texts : List Text) : Emission Unit :=
  (Chain.ofList p.stages).whole (numbered texts)

theorem fault?_eq {κ : Type} {o : Outcome κ} {front back : List Signal}
    (h : o.trace = front ++ back) (hfront : ∀ e, .fault e ∉ front) :
    o.fault? = Outcome.fault? ⟨o.client, back, []⟩ := by
  rw [Outcome.fault?, Outcome.fault?, h, List.findSome?_append, List.findSome?_eq_none_iff.2,
    Option.none_or]
  intro signal hmem
  cases signal with
  | fault e => exact absurd hmem (hfront e)
  | _ => rfl

/-- **A run lists what the chain of its stages gives out, and ends with its error.** -/
theorem result_runAll (p : Pipeline) (texts : List Text) :
    (p.runAll ⟨texts, none⟩).lines = (p.emission texts).lines ∧
      (p.runAll ⟨texts, none⟩).fault? =
        match (p.emission texts).result with
        | .ok () => none
        | .error e => some (.line e) := by
  have htrace := trace_runAll p ⟨texts, none⟩
  rw [script, Chain.script_eq] at htrace
  dsimp only at htrace
  have hsteps : ∀ e, .fault e ∉ (Chain.ofList p.stages).steps 0 texts := by
    intro e hmem
    rcases Chain.mem_steps hmem with ⟨_, h⟩ | ⟨_, h⟩ <;> cases h
  rw [lines_eq_outs, fault?_eq htrace hsteps, htrace, outs_append, Chain.outs_steps,
    Flow.numberedFrom_zero, emission, Chain.whole]
  cases hresult : ((Chain.ofList p.stages).giveAll (numbered texts)).result with
  | error e =>
    rw [Emission.bind_of_error hresult]
    exact ⟨List.append_nil _, rfl⟩
  | ok c =>
    have houts : ∀ e, .fault e ∉ .finish :: ((c.empty _).lines.map Signal.out) := by simp
    rw [Emission.bind_of_ok hresult, Chain.close, fault?_eq (List.cons_append ..).symm houts]
    cases hempty : (c.empty _).result with
    | error e => exact ⟨by simp [Chain.ending], rfl⟩
    | ok _ => exact ⟨by simp [Chain.ending], rfl⟩

theorem process_eq_answer (p : Pipeline) (texts : List Text) :
    p.process texts = (p.emission texts).answer := by
  obtain ⟨hlines, hfault⟩ := p.result_runAll texts
  rw [process, Outcome.result, hlines, hfault, Emission.answer]
  cases (p.emission texts).result <;> rfl

end Pipeline

end Preassembler
