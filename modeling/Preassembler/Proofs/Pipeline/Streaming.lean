import Preassembler.Proofs.Pipeline.Through
import Preassembler.Proofs.Pipeline.Twins

/-! Lines as they flow, and stage by stage.

A run pushes each source line through all stages before it asks for the next one, and flushes the
stages in order at the end, so that what one gives out still goes through those behind it. The other
way is to give each stage the whole output of the one before. Both take the same steps of the same
stages, in different orders.

The induction is on the stages: what the first one gives out, line by line and with its flush, moves
through the others as if it came in one piece (`drain_of_takes`). So a chain that took lines and was
drained still moves exactly if the lines went through stage by stage (`drain_of_through`,
`through_of_drain`), and from this follows what a run lists (`process_eq_ok_iff`). -/
namespace Preassembler

namespace Flow
variable {κ : Type} {accept : Client κ}
open Pipeline (through through_cons_eq_ok_iff)

/-! ### The first stage of a chain -/

/-- What a stage gives out for lines goes through the stages behind it, as if it came in one piece. -/
theorem pushAll_of_takes {n : Nat} {s s' : Stage} {lines given : List Line}
    (h : s.Takes lines s' given) {c : Chain n} {f : Flow κ}
    (hm : (pushAll accept (c, f) given).2.status = .moving) :
    Twins (pushAll (n := n + 1) accept ((s, c), f) lines)
      ((s', (pushAll accept (c, f) given).1), (pushAll accept (c, f) given).2) := by
  induction h generalizing c f with
  | nil => exact .refl _
  | @cons s l r rest s' out hs ht ih =>
    rw [pushAll_append] at hm ⊢
    have hmid := moving_of_pushAll hm
    have hf : f.status = .moving := moving_of_pushAll hmid
    have hout := ((twins_note (c, f) r.events).pushAll accept r.lines).pushAll accept out
    show Twins (pushAll accept (push accept (n + 1) ((s, c), f) l) rest) _
    rw [push_of_step hf hs]
    have hrest := ih (c := (pushAll accept (c, f.note r.events) r.lines).1)
      (f := (pushAll accept (c, f.note r.events) r.lines).2) (hout.flow.status ▸ hm)
    exact ⟨hrest.chain.trans (by rw [hout.chain]), hrest.flow.trans hout.flow⟩

/-- Lines that move through a chain are all taken by its first stage. -/
theorem takes_of_pushAll {n : Nat} {s : Stage} {c : Chain n} {f : Flow κ} {lines : List Line}
    (hm : (pushAll (n := n + 1) accept ((s, c), f) lines).2.status = .moving) :
    ∃ s' given, s.Takes lines s' given ∧ (pushAll accept (c, f) given).2.status = .moving := by
  induction lines generalizing s c f with
  | nil => exact ⟨s, [], .nil, hm⟩
  | cons l rest ih =>
    have hf : f.status = .moving := moving_of_pushAll hm
    change (pushAll accept (push accept (n + 1) ((s, c), f) l) rest).2.status = .moving at hm
    cases hs : s.step l with
    | error e =>
      rw [push_of_refused hf hs] at hm
      cases moving_of_pushAll hm
    | ok r =>
      rw [push_of_step hf hs] at hm
      obtain ⟨s', given, ht, hgiven⟩ := ih hm
      have hnote := ((twins_note (c, f) r.events).pushAll accept r.lines).pushAll accept given
      refine ⟨s', r.lines ++ given, .cons hs ht, ?_⟩
      rw [pushAll_append]
      exact hnote.flow.status ▸ hgiven

/-- What the first stage gives out, line by line and with its flush, is left to the others. -/
theorem drain_of_takes {n : Nat} {s s' : Stage} {lines given : List Line} {r : Stage.Reply}
    (ht : s.Takes lines s' given) (hr : s'.flush = .ok r) {c : Chain n} {f : Flow κ}
    (hm : (drain accept n (pushAll accept (c, f) (given ++ r.lines))).status = .moving) :
    (drain accept (n + 1) (pushAll (n := n + 1) accept ((s, c), f) lines)).Alike
      (drain accept n (pushAll accept (c, f) (given ++ r.lines))) := by
  have hz := moving_of_drain hm
  rw [pushAll_append] at hz ⊢
  have hx := pushAll_of_takes ht (moving_of_pushAll hz)
  exact (hx.drain accept).trans (drain_cons hr hz)

/-- A chain that still moves when drained has a first stage that took the lines and was flushed. -/
theorem takes_of_drain {n : Nat} {s : Stage} {c : Chain n} {f : Flow κ} {lines : List Line}
    (hm : (drain accept (n + 1) (pushAll (n := n + 1) accept ((s, c), f) lines)).status = .moving) :
    ∃ s' given r, s.Takes lines s' given ∧ s'.flush = .ok r ∧
      (drain accept n (pushAll accept (c, f) (given ++ r.lines))).status = .moving := by
  obtain ⟨s', given, ht, hgiven⟩ := takes_of_pushAll (moving_of_drain hm)
  have hx := pushAll_of_takes ht hgiven
  have hy := (hx.drain accept).status ▸ hm
  obtain ⟨r, hr, hdrain⟩ := flush_of_drain hy
  rw [← pushAll_append] at hdrain
  exact ⟨s', given, r, ht, hr, hdrain⟩

/-! ### Both ways through the stages -/

/-- Lines that go through stage by stage also move through the chain of the stages, and the client
hears the same. -/
theorem drain_of_through (hmore : Unstopped accept) {stages : List Stage} {lines out : List Line}
    (h : through stages lines = .ok out) {f : Flow κ} (hf : f.status = .moving) :
    (drain accept _ (pushAll accept (Chain.ofList stages, f) lines)).status = .moving ∧
      (drain accept _ (pushAll accept (Chain.ofList stages, f) lines)).heard =
        (out.map Signal.out).reverse ++ f.heard := by
  induction stages generalizing lines f with
  | nil =>
    obtain rfl : lines = out := Except.ok.inj h
    exact pushAll_zero hmore (x := (Chain.ofList [], f)) hf lines
  | cons s rest ih =>
    obtain ⟨mid, hmid, hrest⟩ := through_cons_eq_ok_iff.1 h
    obtain ⟨s', given, r, ht, hr, rfl⟩ := Stage.complete_eq_ok_iff.1 hmid
    obtain ⟨hm, hh⟩ := ih hrest hf
    have halike := drain_of_takes ht hr hm
    exact ⟨halike.status.trans hm, halike.heard.trans hh⟩

/-- Lines that move through a chain of stages go through stage by stage. -/
theorem through_of_drain {stages : List Stage} {lines : List Line} {f : Flow κ}
    (hm : (drain accept _ (pushAll accept (Chain.ofList stages, f) lines)).status = .moving) :
    ∃ out, through stages lines = .ok out := by
  induction stages generalizing lines f with
  | nil => exact ⟨lines, rfl⟩
  | cons s rest ih =>
    obtain ⟨s', given, r, ht, hr, hdrain⟩ := takes_of_drain hm
    obtain ⟨out, hout⟩ := ih hdrain
    exact ⟨out, through_cons_eq_ok_iff.2
      ⟨given ++ r.lines, Stage.complete_eq_ok_iff.2 ⟨s', given, r, ht, hr, rfl⟩, hout⟩⟩

/-! ### From the source to the client -/

/-- Lines numbered on from a count. -/
def numberedFrom (count : Nat) : List Text → List Line
  | [] => []
  | t :: rest => ⟨count + 1, t⟩ :: numberedFrom (count + 1) rest

theorem numberedFrom_eq (count : Nat) (texts : List Text) :
    numberedFrom count texts = texts.mapIdx fun i t => ⟨((count + i : Nat) : Int) + 1, t⟩ := by
  induction texts generalizing count with
  | nil => rfl
  | cons t rest ih =>
    rw [numberedFrom, ih, List.mapIdx_cons]
    simp only [Nat.add_zero, Nat.add_assoc, Nat.add_comm 1]

theorem numberedFrom_append (count : Nat) (front back : List Text) :
    numberedFrom count (front ++ back) =
      numberedFrom count front ++ numberedFrom (count + front.length) back := by
  induction front generalizing count with
  | nil => rfl
  | cons t front ih =>
    rw [List.cons_append, numberedFrom, numberedFrom, ih, List.length_cons]
    simp only [List.cons_append, Nat.add_assoc, Nat.add_comm 1]

theorem numberedFrom_zero (texts : List Text) : numberedFrom 0 texts = Pipeline.numbered texts := by
  rw [numberedFrom_eq]
  simp only [Nat.zero_add]
  rfl

/-- A source whose lines all move is fed to its end. -/
theorem feed_of_moving {n : Nat} {c : Chain n} {f : Flow κ} {count : Nat} {texts : List Text}
    (h : (pushAll accept (c, f) (numberedFrom count texts)).2.status = .moving) :
    ∃ y, Twins y (pushAll accept (c, f) (numberedFrom count texts)) ∧
      feed accept none count c f texts = finish accept (count + texts.length) y.1 y.2 := by
  induction texts generalizing count c f with
  | nil => exact ⟨(c, f), .refl _, rfl⟩
  | cons t rest ih =>
    have hpull := twins_signal (c, f) (s := .pull (count + 1)) rfl
    have hrest := hpull.pushAll accept (⟨count + 1, t⟩ :: numberedFrom (count + 1) rest)
    have hmoving := hrest.flow.status.trans h
    obtain ⟨y, hy, hfeed⟩ := ih hmoving
    have hstatus := moving_of_pushAll
      (x := push accept n (c, f.signal (.pull (count + 1))) ⟨count + 1, t⟩) hmoving
    refine ⟨y, hy.trans hrest, ?_⟩
    rw [feed]
    simp only [hstatus, hfeed, List.length_cons]
    congr 1
    omega

theorem finish_of_moving {n : Nat} {x : Chain n × Flow κ} (h : (drain accept n x).status = .moving)
    (count : Nat) : (finish accept count x.1 x.2).Alike (drain accept n x) := by
  have halike := (twins_signal x (s := .finish) rfl).drain accept
  rw [← halike.status] at h
  simp only [finish, h]
  exact (alike_note _ _).trans halike

/-- A run whose stages cannot be drained ends with an error. -/
theorem fault_of_finish (hmore : Unstopped accept) {n : Nat} {x : Chain n × Flow κ}
    (hx : x.2.status ≠ .stopped) (h : (drain accept n x).status ≠ .moving) (count : Nat) :
    ∃ e, .fault e ∈ (finish accept count x.1 x.2).heard := by
  have hstop := drain_ne_stopped hmore hx
  rw [← ((twins_signal x (s := .finish) rfl).drain accept).status] at h hstop
  cases hg : (drain accept n (x.1, x.2.signal .finish)).status with
  | moving => exact absurd hg h
  | stopped => exact absurd hg hstop
  | failed e =>
    refine ⟨.line e, ?_⟩
    simp only [finish, hg]
    exact List.mem_cons_self

/-- A run in which a line is refused ends with an error. -/
theorem fault_of_feed (hmore : Unstopped accept) {n : Nat} {c : Chain n} {f : Flow κ} {count : Nat}
    {texts : List Text} (hf : f.status = .moving)
    (h : (pushAll accept (c, f) (numberedFrom count texts)).2.status ≠ .moving) :
    ∃ e, .fault e ∈ (feed accept none count c f texts).heard := by
  induction texts generalizing count c f with
  | nil => exact absurd hf h
  | cons t rest ih =>
    have hpull := twins_signal (c, f) (s := .pull (count + 1)) rfl
    have hrest := hpull.pushAll accept (⟨count + 1, t⟩ :: numberedFrom (count + 1) rest)
    have hstop := push_ne_stopped hmore (x := (c, f.signal (.pull (count + 1))))
      (by rw [hpull.flow.status, hf]; exact nofun) ⟨count + 1, t⟩
    rw [feed]
    cases hx : (push accept n (c, f.signal (.pull (count + 1))) ⟨count + 1, t⟩).2.status with
    | moving =>
      simp only [hx]
      exact ih hx (hrest.flow.status ▸ h)
    | stopped => exact absurd hx hstop
    | failed e =>
      refine ⟨.line e, ?_⟩
      simp only [hx]
      exact List.mem_cons_self

/-- **A source fed to a chain of stages reaches the client as if it went through stage by stage.** -/
theorem heard_feed_iff (hmore : Unstopped accept) {stages : List Stage} {f : Flow κ}
    (hf : f.status = .moving) (hquiet : f.heard = []) (texts : List Text) (out : List Line) :
    (feed accept none 0 (Chain.ofList stages) f texts).heard = (out.map Signal.out).reverse ↔
      through stages (Pipeline.numbered texts) = .ok out := by
  rw [← numberedFrom_zero]
  have hright : ∀ {out : List Line}, through stages (numberedFrom 0 texts) = .ok out →
      (feed accept none 0 (Chain.ofList stages) f texts).heard = (out.map Signal.out).reverse := by
    intro out h
    obtain ⟨hm, hheard⟩ := drain_of_through hmore h hf
    obtain ⟨y, hy, hfeed⟩ := feed_of_moving (moving_of_drain hm)
    have hdrain := hy.drain accept
    rw [hfeed, (finish_of_moving (hdrain.status ▸ hm) _).heard, hdrain.heard, hheard, hquiet,
      List.append_nil]
  refine ⟨fun h => ?_, hright⟩
  have hgood : ∀ e, .fault e ∉ (feed accept none 0 (Chain.ofList stages) f texts).heard := by
    intro e
    simp [h]
  by_cases hm : (pushAll accept (Chain.ofList stages, f) (numberedFrom 0 texts)).2.status = .moving
  · obtain ⟨y, hy, hfeed⟩ := feed_of_moving hm
    by_cases hdrain : (drain accept _ y).status = .moving
    · obtain ⟨out', hout⟩ := through_of_drain ((hy.drain accept).status ▸ hdrain)
      have hsame := (hright hout).symm.trans h
      rw [hout, (List.map_inj_right fun a b hab => Signal.out.inj hab).1 (List.reverse_inj.1 hsame)]
    · have hy' : y.2.status ≠ .stopped := by
        rw [hy.flow.status, hm]
        exact nofun
      obtain ⟨e, he⟩ := fault_of_finish hmore hy' hdrain (0 + texts.length)
      exact absurd (hfeed ▸ he) (hgood e)
  · obtain ⟨e, he⟩ := fault_of_feed hmore hf hm
    exact absurd he (hgood e)

end Flow

namespace Outcome
variable {κ : Type}

theorem result_eq_ok_iff_fault? {o : Outcome κ} {out : List Line} :
    o.result = .ok out ↔ o.fault? = none ∧ o.lines = out := by
  unfold result
  cases o.fault? <;> simp

/-- A run lists `out` exactly if these lines are all the client heard. -/
theorem result_eq_ok_iff {o : Outcome κ} {out : List Line} :
    o.result = .ok out ↔ o.trace.filter Signal.heard = out.map Signal.out := by
  obtain ⟨client, trace, events⟩ := o
  rw [result_eq_ok_iff_fault?, fault?, lines]
  induction trace generalizing out with
  | nil => simp
  | cons s rest ih =>
    cases s with
    | out l =>
      cases out with
      | nil => simp [Signal.heard]
      | cons m out =>
        rw [List.filter_cons_of_pos rfl, List.map_cons, List.cons.injEq, Signal.out.injEq, ← ih]
        simp [and_left_comm]
    | fault e => cases out <;> simp [Signal.heard, List.filter_cons]
    | pull n => simpa [Signal.heard] using ih
    | stop => simpa [Signal.heard] using ih
    | finish => simpa [Signal.heard] using ih

end Outcome

namespace Pipeline

theorem unstopped_everyLine : Flow.Unstopped everyLine := fun _ _ => rfl

/-- A run lists exactly what goes through stage by stage. -/
theorem process_eq_ok_iff {p : Pipeline} {texts : List Text} {out : List Line} :
    p.process texts = .ok out ↔ through p.stages (numbered texts) = .ok out := by
  rw [← Flow.heard_feed_iff unstopped_everyLine (f := .new ()) rfl rfl, process,
    Outcome.result_eq_ok_iff]
  show List.filter _ (List.reverse _) = _ ↔ _
  rw [List.filter_reverse, List.reverse_eq_iff]
  rfl

theorem stages_ne_nil (p : Pipeline) : p.stages ≠ [] := by simp [stages]

/-- **Streaming and batch execution agree.** A run of a pipeline succeeds exactly if its stages,
applied in order to the whole numbered input, are all applied and none fails; and then the last of
them gives out the lines the run lists. -/
theorem process_agrees_with_applyStages (p : Pipeline) (texts : List Text) :
    ((∃ out, p.process texts = .ok out) ↔
      (applyStages p.stages (numbered texts)).map Prod.fst = p.stages ∧
        ∀ a ∈ applyStages p.stages (numbered texts), a.2.error = none) ∧
    ∀ out, p.process texts = .ok out →
      (applyStages p.stages (numbered texts)).getLast?.map (fun a => a.2.lines) = some out := by
  simp only [process_eq_ok_iff, through_eq_ok_iff_applyStages]
  constructor
  · exact ⟨fun ⟨_, hall, hnone, _⟩ => ⟨hall, hnone⟩, fun ⟨hall, hnone⟩ => ⟨_, hall, hnone, rfl⟩⟩
  · rintro out ⟨hall, -, hlast⟩
    have hne : applyStages p.stages (numbered texts) ≠ [] := by
      intro hnil
      rw [hnil] at hall
      exact p.stages_ne_nil hall.symm
    rw [List.getLast?_eq_some_getLast hne] at hlast ⊢
    exact congrArg some hlast

end Pipeline

end Preassembler
