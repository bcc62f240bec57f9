import Preassembler.Pipeline

/-! Flows that a client cannot tell apart.

The client of a run gets lines and at most one error. It sees neither the events of the stages nor
what was asked of the source, and these come in an order that depends on how the steps interleave.
`Alike` flows agree on all the client sees; `Twins` have the same stages as well.

Main statements: pushing and draining take twins to twins (`Twins.pushAll`, `Twins.drain`). -/
namespace Preassembler

/-! ### What the client can tell apart -/

/-- Whether a signal reaches the client. -/
def Signal.heard : Signal → Bool
  | .out _ => true
  | .fault _ => true
  | _ => false

namespace Flow
variable {κ : Type} {accept : Client κ}

/-- What the client heard, newest first. -/
def heard (f : Flow κ) : List Signal := f.trace.filter Signal.heard

/-- Flows that the client cannot tell apart: they differ in events and in what the source saw. -/
structure Alike (f g : Flow κ) : Prop where
  client : f.client = g.client
  status : f.status = g.status
  heard : f.heard = g.heard

theorem Alike.refl (f : Flow κ) : f.Alike f := ⟨rfl, rfl, rfl⟩

theorem Alike.trans {f g k : Flow κ} (h : f.Alike g) (h' : g.Alike k) : f.Alike k :=
  ⟨h.client.trans h'.client, h.status.trans h'.status, h.heard.trans h'.heard⟩

theorem alike_note (f : Flow κ) (events : List Event) : (f.note events).Alike f := ⟨rfl, rfl, rfl⟩

theorem Alike.note {f g : Flow κ} (h : f.Alike g) (events : List Event) :
    (f.note events).Alike (g.note events) := ⟨h.client, h.status, h.heard⟩

theorem alike_signal (f : Flow κ) {s : Signal} (hs : s.heard = false) : (f.signal s).Alike f :=
  ⟨rfl, rfl, List.filter_cons_of_neg (by simp [hs])⟩

theorem deliver_of_moving (accept : Client κ) {f : Flow κ} (h : f.status = .moving) (l : Line) :
    f.deliver accept l =
      { f with
        client := (accept f.client l).1
        status := if (accept f.client l).2 then .moving else .stopped
        trace := .out l :: f.trace } := by
  simp [deliver, h]

theorem deliver_of_not_moving {f : Flow κ} (h : f.status ≠ .moving) (l : Line) :
    f.deliver accept l = f := by
  unfold deliver
  split
  · contradiction
  · rfl

theorem Alike.deliver {f g : Flow κ} (h : f.Alike g) (l : Line) :
    (f.deliver accept l).Alike (g.deliver accept l) := by
  by_cases hf : f.status = .moving
  · rw [deliver_of_moving accept hf, deliver_of_moving accept (h.status ▸ hf)]
    refine ⟨by rw [h.client], by rw [h.client], ?_⟩
    exact congrArg (Signal.out l :: ·) h.heard
  · rw [deliver_of_not_moving hf, deliver_of_not_moving (h.status ▸ hf)]
    exact h

/-! ### Pushing lines -/

/-- Pushes lines through a chain, one after the other. -/
def pushAll (accept : Client κ) {n : Nat} (x : Chain n × Flow κ) (lines : List Line) :
    Chain n × Flow κ :=
  lines.foldl (push accept n) x

theorem pushAll_append {n : Nat} (x : Chain n × Flow κ) (a b : List Line) :
    pushAll accept x (a ++ b) = pushAll accept (pushAll accept x a) b := List.foldl_append

theorem push_of_not_moving {n : Nat} {x : Chain n × Flow κ} (h : x.2.status ≠ .moving) (l : Line) :
    push accept n x l = x := by
  cases n with
  | zero => exact congrArg (Prod.mk x.1) (deliver_of_not_moving h l)
  | succ n =>
    obtain ⟨⟨s, c⟩, f⟩ := x
    rw [push]
    split
    · contradiction
    · rfl

theorem pushAll_of_not_moving {n : Nat} {x : Chain n × Flow κ} (h : x.2.status ≠ .moving)
    (lines : List Line) : pushAll accept x lines = x := by
  induction lines with
  | nil => rfl
  | cons l rest ih => rw [pushAll, List.foldl_cons, push_of_not_moving h]; exact ih

/-- Lines that moved to the end moved from the start. -/
theorem moving_of_pushAll {n : Nat} {x : Chain n × Flow κ} {lines : List Line}
    (h : (pushAll accept x lines).2.status = .moving) : x.2.status = .moving := by
  false_or_by_contra
  rename_i hx
  rw [pushAll_of_not_moving hx] at h
  exact hx h

theorem push_of_step {n : Nat} {s : Stage} {c : Chain n} {f : Flow κ} {l : Line} {r : Stage.Reply}
    (h : f.status = .moving) (hs : s.step l = .ok r) :
    push accept (n + 1) ((s, c), f) l =
      ((r.stage, (pushAll accept (c, f.note r.events) r.lines).1),
        (pushAll accept (c, f.note r.events) r.lines).2) := by
  simp only [push, h, hs]
  rfl

theorem push_of_refused {n : Nat} {s : Stage} {c : Chain n} {f : Flow κ} {l : Line} {e : LineError}
    (h : f.status = .moving) (hs : s.step l = .error e) :
    push accept (n + 1) ((s, c), f) l = ((s, c), { f with status := .failed e }) := by
  simp only [push, h, hs]
  rfl

/-- The same stages, and flows the client cannot tell apart. -/
structure Twins {n : Nat} (x y : Chain n × Flow κ) : Prop where
  chain : x.1 = y.1
  flow : x.2.Alike y.2

theorem Twins.refl {n : Nat} (x : Chain n × Flow κ) : Twins x x := ⟨rfl, .refl _⟩

theorem Twins.trans {n : Nat} {x y z : Chain n × Flow κ} (h : Twins x y) (h' : Twins y z) :
    Twins x z := ⟨h.chain.trans h'.chain, h.flow.trans h'.flow⟩

theorem twins_note {n : Nat} (x : Chain n × Flow κ) (events : List Event) :
    Twins (x.1, x.2.note events) x := ⟨rfl, alike_note x.2 events⟩

theorem twins_signal {n : Nat} (x : Chain n × Flow κ) {s : Signal} (hs : s.heard = false) :
    Twins (x.1, x.2.signal s) x := ⟨rfl, alike_signal x.2 hs⟩

theorem Twins.foldl {n : Nat} {x y : Chain n × Flow κ} (h : Twins x y)
    (hpush : ∀ {x y : Chain n × Flow κ} (l : Line), Twins x y →
      Twins (push accept n x l) (push accept n y l)) (lines : List Line) :
    Twins (pushAll accept x lines) (pushAll accept y lines) := by
  induction lines generalizing x y with
  | nil => exact h
  | cons l rest ih => exact ih (hpush l h)

/-- Pushing does not look at what the client cannot tell apart. -/
theorem Twins.push {n : Nat} {x y : Chain n × Flow κ} (h : Twins x y) (l : Line) :
    Twins (push accept n x l) (push accept n y l) := by
  induction n generalizing l with
  | zero => exact ⟨h.chain, h.flow.deliver l⟩
  | succ n ih =>
    by_cases hx : x.2.status = .moving
    · obtain ⟨⟨s, c⟩, f⟩ := x
      obtain ⟨⟨s', c'⟩, g⟩ := y
      obtain ⟨hchain, hfg⟩ := h
      obtain ⟨rfl, rfl⟩ := Prod.mk.inj hchain
      have hg : g.status = .moving := hfg.status ▸ hx
      cases hs : s.step l with
      | error e =>
        rw [push_of_refused hx hs, push_of_refused hg hs]
        exact ⟨rfl, hfg.client, rfl, hfg.heard⟩
      | ok r =>
        have hnote : Twins (c, f.note r.events) (c, g.note r.events) := ⟨rfl, hfg.note r.events⟩
        have hall := hnote.foldl (fun l hxy => ih hxy l) r.lines
        rw [push_of_step hx hs, push_of_step hg hs]
        exact ⟨congrArg (Prod.mk r.stage) hall.chain, hall.flow⟩
    · rw [push_of_not_moving hx, push_of_not_moving (h.flow.status ▸ hx)]
      exact h

theorem Twins.pushAll {n : Nat} {x y : Chain n × Flow κ} (h : Twins x y) (accept : Client κ)
    (lines : List Line) : Twins (pushAll accept x lines) (pushAll accept y lines) :=
  h.foldl (fun l hxy => hxy.push l) lines

/-! ### Draining -/

theorem drain_of_flush {n : Nat} {s : Stage} {c : Chain n} {f : Flow κ} {r : Stage.Reply}
    (hr : s.flush = .ok r) :
    drain accept (n + 1) ((s, c), f) =
      if (pushAll accept (c, f.note r.events) r.lines).2.status = .moving then
        drain accept n (pushAll accept (c, f.note r.events) r.lines)
      else (pushAll accept (c, f.note r.events) r.lines).2 := by
  simp only [drain, hr]
  split
  · rename_i h
    exact (if_pos h).symm
  · rename_i h
    exact (if_neg h).symm

/-- Draining does not look at what the client cannot tell apart. -/
theorem Twins.drain {n : Nat} {x y : Chain n × Flow κ} (h : Twins x y) (accept : Client κ) :
    (drain accept n x).Alike (drain accept n y) := by
  induction n with
  | zero => exact h.flow
  | succ n ih =>
    obtain ⟨⟨s, c⟩, f⟩ := x
    obtain ⟨⟨s', c'⟩, g⟩ := y
    obtain ⟨hchain, hfg⟩ := h
    obtain ⟨rfl, rfl⟩ := Prod.mk.inj hchain
    cases hr : s.flush with
    | error e =>
      simp only [Flow.drain, hr]
      exact ⟨hfg.client, rfl, hfg.heard⟩
    | ok r =>
      have hnote : Twins (c, f.note r.events) (c, g.note r.events) := ⟨rfl, hfg.note r.events⟩
      have hall := hnote.pushAll accept r.lines
      rw [drain_of_flush hr, drain_of_flush hr, hall.flow.status]
      split
      · exact ih hall
      · exact hall.flow

/-- What the flush of the first stage gives out is pushed on, and then the rest is drained. -/
theorem drain_cons {n : Nat} {s : Stage} {x : Chain n × Flow κ} {r : Stage.Reply}
    (hr : s.flush = .ok r) (hm : (pushAll accept x r.lines).2.status = .moving) :
    (drain accept (n + 1) ((s, x.1), x.2)).Alike (drain accept n (pushAll accept x r.lines)) := by
  have hnote := (twins_note x r.events).pushAll accept r.lines
  rw [drain_of_flush hr, if_pos (hnote.flow.status.trans hm)]
  exact hnote.drain accept

/-- A drained chain that still moves flushed its first stage and drained the rest. -/
theorem flush_of_drain {n : Nat} {s : Stage} {x : Chain n × Flow κ}
    (hm : (drain accept (n + 1) ((s, x.1), x.2)).status = .moving) :
    ∃ r, s.flush = .ok r ∧ (drain accept n (pushAll accept x r.lines)).status = .moving := by
  cases hr : s.flush with
  | error e => simp [drain, hr] at hm
  | ok r =>
    refine ⟨r, rfl, ?_⟩
    have hnote := (twins_note x r.events).pushAll accept r.lines
    rw [drain_of_flush hr] at hm
    split at hm
    · exact (hnote.drain accept).status ▸ hm
    · contradiction

/-- Lines that move after draining moved before. -/
theorem moving_of_drain {n : Nat} {x : Chain n × Flow κ}
    (hm : (drain accept n x).status = .moving) : x.2.status = .moving := by
  induction n with
  | zero => exact hm
  | succ n ih =>
    obtain ⟨⟨s, c⟩, f⟩ := x
    obtain ⟨r, -, hr⟩ := flush_of_drain (x := (c, f)) hm
    exact moving_of_pushAll (x := (c, f)) (ih hr)

/-! ### Clients that take every line -/

/-- A client that never stops. -/
def Unstopped (accept : Client κ) : Prop := ∀ k l, (accept k l).2 = true

theorem pushAll_zero (hmore : Unstopped accept) {x : Chain 0 × Flow κ}
    (hx : x.2.status = .moving) (lines : List Line) :
    (pushAll accept x lines).2.status = .moving ∧
      (pushAll accept x lines).2.heard = (lines.map Signal.out).reverse ++ x.2.heard := by
  induction lines generalizing x with
  | nil => exact ⟨hx, rfl⟩
  | cons l rest ih =>
    have hpush : push accept 0 x l = (x.1, x.2.deliver accept l) := rfl
    have hdeliver := deliver_of_moving accept hx l
    have hmoving : (push accept 0 x l).2.status = .moving := by
      rw [hpush, hdeliver]
      exact if_pos (hmore _ _)
    have hheard : (push accept 0 x l).2.heard = .out l :: x.2.heard := by
      rw [hpush, hdeliver]
      rfl
    obtain ⟨hm, hh⟩ := ih hmoving
    refine ⟨hm, ?_⟩
    rw [hheard] at hh
    show (pushAll accept (push accept 0 x l) rest).2.heard = _
    rw [hh]
    simp

theorem push_ne_stopped (hmore : Unstopped accept) {n : Nat} {x : Chain n × Flow κ}
    (hx : x.2.status ≠ .stopped) (l : Line) : (push accept n x l).2.status ≠ .stopped := by
  induction n generalizing l with
  | zero =>
    by_cases hm : x.2.status = .moving
    · have hpush : (push accept 0 x l).2.status = .moving :=
        (pushAll_zero hmore hm [l]).1
      rw [hpush]
      exact nofun
    · rw [push_of_not_moving hm]
      exact hx
  | succ n ih =>
    by_cases hm : x.2.status = .moving
    · obtain ⟨⟨s, c⟩, f⟩ := x
      cases hs : s.step l with
      | error e =>
        rw [push_of_refused hm hs]
        exact nofun
      | ok r =>
        rw [push_of_step hm hs]
        exact List.foldlRecOn (b := (c, f.note r.events)) r.lines (push accept n)
          (motive := fun y => y.2.status ≠ .stopped) hx (fun y hy l _ => ih hy l)
    · rw [push_of_not_moving hm]
      exact hx

theorem pushAll_ne_stopped (hmore : Unstopped accept) {n : Nat} {x : Chain n × Flow κ}
    (hx : x.2.status ≠ .stopped) (lines : List Line) :
    (pushAll accept x lines).2.status ≠ .stopped :=
  List.foldlRecOn lines (push accept n) (motive := fun y => y.2.status ≠ .stopped) hx
    fun _ hy l _ => push_ne_stopped hmore hy l

theorem drain_ne_stopped (hmore : Unstopped accept) {n : Nat} {x : Chain n × Flow κ}
    (hx : x.2.status ≠ .stopped) : (drain accept n x).status ≠ .stopped := by
  induction n with
  | zero => exact hx
  | succ n ih =>
    obtain ⟨⟨s, c⟩, f⟩ := x
    cases hr : s.flush with
    | error e =>
      simp only [drain, hr]
      exact nofun
    | ok r =>
      have hall : (pushAll accept (c, f.note r.events) r.lines).2.status ≠ .stopped :=
        pushAll_ne_stopped hmore (x := (c, f.note r.events)) hx r.lines
      rw [drain_of_flush hr]
      split
      · exact ih hall
      · exact hall

end Flow

end Preassembler
