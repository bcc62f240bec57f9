import Preassembler.Proofs.Pipeline.Streaming

/-! What the stages do of themselves, and what of it a client gets to see.

`Chain.give` is what a chain gives out for a line when there is no client: the lines that come out
at its end, and the chain after them or the error that stopped them. `Chain.script` puts a whole run
together from it, in the order in which things happen when nobody stops the run.

A client cuts the script short: nothing follows the line it refuses to go on after, except that a
source that has not ended is told to stop (`Client.cut`). Main statement: the trace of every run is
its script, cut by its client (`trace_run`). -/
namespace Preassembler

/-! ### Emissions -/

/-- Lines given out, and what came after them. -/
structure Emission (α : Type) where
  lines : List Line
  result : Except LineError α

namespace Emission
variable {α β : Type}

/-- Goes on with the result; after an error nothing more is given out. -/
def bind (x : Emission α) (f : α → Emission β) : Emission β :=
  match x.result with
  | .ok a => ⟨x.lines ++ (f a).lines, (f a).result⟩
  | .error e => ⟨x.lines, .error e⟩

theorem bind_of_ok {x : Emission α} {a : α} (h : x.result = .ok a) (f : α → Emission β) :
    x.bind f = ⟨x.lines ++ (f a).lines, (f a).result⟩ := by
  simp [bind, h]

theorem bind_of_error {x : Emission α} {e : LineError} (h : x.result = .error e)
    (f : α → Emission β) : x.bind f = ⟨x.lines, .error e⟩ := by
  simp [bind, h]

def map (f : α → β) (x : Emission α) : Emission β := ⟨x.lines, x.result.map f⟩

/-- Takes lines one after the other. -/
def each (f : α → Line → Emission α) (a : α) : List Line → Emission α
  | [] => ⟨[], .ok a⟩
  | l :: rest => (f a l).bind fun a' => each f a' rest

end Emission

namespace Chain

/-- What a chain gives out for a line, and the chain after it. -/
def give : (n : Nat) → Chain n → Line → Emission (Chain n)
  | 0, c, l => ⟨[l], .ok c⟩
  | n + 1, (s, c), l =>
    match s.step l with
    | .error e => ⟨[], .error e⟩
    | .ok r => (Emission.each (give n) c r.lines).map fun c' => (r.stage, c')

/-- What a chain gives out for lines, one after the other. -/
def giveAll {n : Nat} (c : Chain n) (lines : List Line) : Emission (Chain n) :=
  Emission.each (give n) c lines

/-- What a chain gives out when its stages are flushed in order. -/
def empty : (n : Nat) → Chain n → Emission Unit
  | 0, _ => ⟨[], .ok ()⟩
  | n + 1, (s, c) =>
    match s.flush with
    | .error e => ⟨[], .error e⟩
    | .ok r => (c.giveAll r.lines).bind (empty n)

theorem give_of_refused {n : Nat} {s : Stage} {c : Chain n} {l : Line} {e : LineError}
    (h : s.step l = .error e) : give (n + 1) (s, c) l = ⟨[], .error e⟩ := by
  simp only [give, h]

theorem give_of_step {n : Nat} {s : Stage} {c : Chain n} {l : Line} {r : Stage.Reply}
    (h : s.step l = .ok r) :
    give (n + 1) (s, c) l = (c.giveAll r.lines).map fun c' => (r.stage, c') := by
  simp only [give, h]
  rfl

theorem empty_of_refused {n : Nat} {s : Stage} {c : Chain n} {e : LineError}
    (h : s.flush = .error e) : empty (n + 1) (s, c) = ⟨[], .error e⟩ := by
  simp only [empty, h]

theorem empty_of_flush {n : Nat} {s : Stage} {c : Chain n} {r : Stage.Reply}
    (h : s.flush = .ok r) : empty (n + 1) (s, c) = (c.giveAll r.lines).bind (empty n) := by
  simp only [empty, h]

/-- What the client would hear after an emission that ends a run. -/
def ending {α : Type} : Except LineError α → List Signal
  | .ok _ => []
  | .error e => [.fault (.line e)]

/-- All that happens in a run when nobody stops it; `count` lines went before. -/
def script {n : Nat} (error : Option SourceError) (count : Nat) (c : Chain n) :
    List Text → List Signal
  | [] =>
    match error with
    | none => .finish :: ((empty n c).lines.map .out ++ ending (empty n c).result)
    | some e => [.pull (count + 1), .fault (.source e)]
  | t :: rest =>
    .pull (count + 1) :: ((give n c ⟨count + 1, t⟩).lines.map .out ++
      match (give n c ⟨count + 1, t⟩).result with
      | .ok c' => script error (count + 1) c' rest
      | .error e => [.fault (.line e), .stop])

end Chain

/-! ### Clients and lines -/

namespace Client
variable {κ : Type}

/-- Whether a client wants more after each of some lines. -/
def accepts (accept : Client κ) (client : κ) : List Line → Bool
  | [] => true
  | l :: rest => (accept client l).2 && accepts accept (accept client l).1 rest

/-- A client after some lines. -/
def after (accept : Client κ) (client : κ) (lines : List Line) : κ :=
  lines.foldl (fun k l => (accept k l).1) client

/-- The lines a client takes: all up to and with the one after which it wants no more. -/
def taken (accept : Client κ) (client : κ) : List Line → List Line
  | [] => []
  | l :: rest => l :: if (accept client l).2 then taken accept (accept client l).1 rest else []

theorem accepts_append (accept : Client κ) (client : κ) (a b : List Line) :
    accepts accept client (a ++ b) =
      (accepts accept client a && accepts accept (after accept client a) b) := by
  induction a generalizing client with
  | nil => rfl
  | cons l rest ih => simp only [List.cons_append, accepts, ih, Bool.and_assoc]; rfl

/-- A script, cut short by a client; `ended` says whether the source has already ended. -/
def cut (accept : Client κ) (client : κ) (ended : Bool) : List Signal → List Signal
  | [] => []
  | .out l :: rest =>
    .out l ::
      if (accept client l).2 then cut accept (accept client l).1 ended rest
      else if ended then [] else [.stop]
  | .finish :: rest => .finish :: cut accept client true rest
  | s :: rest => s :: cut accept client ended rest

theorem cut_pull (accept : Client κ) (client : κ) (ended : Bool) (no : Nat) (rest : List Signal) :
    cut accept client ended (.pull no :: rest) = .pull no :: cut accept client ended rest := rfl

/-- A client that accepts lines waits for what comes after them; another one ends the script among
them. -/
theorem cut_outs (accept : Client κ) (client : κ) (ended : Bool) (lines : List Line)
    (rest : List Signal) :
    cut accept client ended (lines.map .out ++ rest) =
      if accepts accept client lines then
        lines.map .out ++ cut accept (after accept client lines) ended rest
      else (taken accept client lines).map .out ++ if ended then [] else [.stop] := by
  induction lines generalizing client with
  | nil => rfl
  | cons l lines ih =>
    simp only [List.map_cons, List.cons_append, cut, accepts, taken]
    cases h : (accept client l).2 with
    | false => simp
    | true =>
      simp only [if_true, ih, Bool.true_and]
      split <;> rfl

end Client

/-! ### A chain and a client -/

namespace Flow
variable {κ : Type} {accept : Client κ}

/-- Gives lines to the client, one after the other. -/
def deliverAll (accept : Client κ) (f : Flow κ) (lines : List Line) : Flow κ :=
  lines.foldl (deliver accept) f

/-- Takes note of an error, if lines still move. -/
def settle {α : Type} (f : Flow κ) : Except LineError α → Flow κ
  | .ok _ => f
  | .error e =>
    match f.status with
    | .moving => { f with status := .failed e }
    | _ => f

/-- A flow without the events of the stages. -/
def bare (f : Flow κ) : Flow κ := { f with events := [] }

theorem bare_deliver (f : Flow κ) (l : Line) :
    (f.deliver accept l).bare = f.bare.deliver accept l := by
  obtain ⟨client, status, trace, events⟩ := f
  cases status <;> rfl

theorem settle_of_not_moving {α : Type} {f : Flow κ} (h : f.status ≠ .moving)
    (r : Except LineError α) : f.settle r = f := by
  cases r with
  | ok a => rfl
  | error e => cases hs : f.status <;> simp_all [settle]

theorem deliverAll_of_not_moving {f : Flow κ} (h : f.status ≠ .moving) (lines : List Line) :
    f.deliverAll accept lines = f := by
  induction lines with
  | nil => rfl
  | cons l rest ih => rw [deliverAll, List.foldl_cons, deliver_of_not_moving h]; exact ih

theorem deliverAll_append (f : Flow κ) (a b : List Line) :
    f.deliverAll accept (a ++ b) = (f.deliverAll accept a).deliverAll accept b := List.foldl_append

/-- A client takes lines up to the one after which it wants no more. -/
theorem deliverAll_of_moving (accept : Client κ) {f : Flow κ} (h : f.status = .moving)
    (lines : List Line) :
    (f.deliverAll accept lines).status =
        (if Client.accepts accept f.client lines then .moving else .stopped) ∧
      (f.deliverAll accept lines).trace =
        ((Client.taken accept f.client lines).map .out).reverse ++ f.trace ∧
      (Client.accepts accept f.client lines = true →
        (f.deliverAll accept lines).client = Client.after accept f.client lines ∧
          Client.taken accept f.client lines = lines) := by
  induction lines generalizing f with
  | nil => exact ⟨h, rfl, fun _ => ⟨rfl, rfl⟩⟩
  | cons l rest ih =>
    have hdeliver := deliver_of_moving accept h l
    show (deliverAll accept (f.deliver accept l) rest).status = _ ∧
      (deliverAll accept (f.deliver accept l) rest).trace = _ ∧ _
    rw [Client.accepts, Client.taken]
    cases hmore : (accept f.client l).2 with
    | false =>
      rw [hmore] at hdeliver
      have hstopped : (f.deliver accept l).status ≠ .moving := by
        rw [hdeliver]
        exact nofun
      rw [deliverAll_of_not_moving hstopped, hdeliver]
      exact ⟨rfl, rfl, nofun⟩
    | true =>
      rw [hmore] at hdeliver
      obtain ⟨hstatus, htrace, hall⟩ := ih (f := f.deliver accept l) (by rw [hdeliver]; rfl)
      have hclient : (f.deliver accept l).client = (accept f.client l).1 := by rw [hdeliver]
      have hbefore : (f.deliver accept l).trace = .out l :: f.trace := by rw [hdeliver]
      rw [hclient] at hstatus htrace hall
      rw [hbefore] at htrace
      refine ⟨hstatus, ?_, fun haccepts => ?_⟩
      · rw [htrace]
        simp
      · obtain ⟨hafter, htaken⟩ := hall haccepts
        exact ⟨hafter, by rw [if_pos rfl, htaken]⟩

/-- Gives an emission to the client: its lines, and then its error if it has one. -/
def hand {α : Type} (accept : Client κ) (f : Flow κ) (y : Emission α) : Flow κ :=
  (f.deliverAll accept y.lines).settle y.result

theorem hand_of_not_moving {α : Type} {f : Flow κ} (h : f.status ≠ .moving) (y : Emission α) :
    f.hand accept y = f := by
  rw [hand, deliverAll_of_not_moving h, settle_of_not_moving h]

theorem hand_bind_of_ok {α β : Type} (f : Flow κ) {y : Emission α} {a : α} (h : y.result = .ok a)
    (g : α → Emission β) : f.hand accept (y.bind g) = (f.hand accept y).hand accept (g a) := by
  rw [Emission.bind_of_ok h]
  simp only [hand, h, deliverAll_append, settle]

theorem hand_bind_of_error {α β : Type} (f : Flow κ) {y : Emission α} {e : LineError}
    (h : y.result = .error e) (g : α → Emission β) :
    f.hand accept (y.bind g) = f.hand accept y := by
  rw [Emission.bind_of_error h]
  simp only [hand, h, settle]

theorem hand_map {α β : Type} (f : Flow κ) (y : Emission α) (g : α → β) :
    f.hand accept (y.map g) = f.hand accept y := by
  cases hy : y.result <;> simp only [hand, Emission.map, hy, Except.map, settle]

/-- An emission that leaves nothing moving hides the one after it. -/
theorem hand_bind_of_not_moving {α β : Type} {f : Flow κ} {y : Emission α}
    (h : (f.hand accept y).status ≠ .moving) (g : α → Emission β) :
    f.hand accept (y.bind g) = f.hand accept y := by
  cases hy : y.result with
  | ok a => rw [hand_bind_of_ok f hy, hand_of_not_moving h]
  | error e => rw [hand_bind_of_error f hy]

/-- A chain and a flow that an emission led to, from the flow `f`. -/
structure Follows (accept : Client κ) {n : Nat} (f : Flow κ) (y : Emission (Chain n))
    (x : Chain n × Flow κ) : Prop where
  flow : x.2.bare = f.bare.hand accept y
  chain : x.2.status = .moving → y.result = .ok x.1

/-- One emission after the other: the second one counts only if lines still move. -/
theorem Follows.bind {n : Nat} {f : Flow κ} {x x' : Chain n × Flow κ} {y : Emission (Chain n)}
    (h : Follows accept f y x) {g : Chain n → Emission (Chain n)}
    (hmoving : x.2.status = .moving → Follows accept x.2 (g x.1) x')
    (hstill : x.2.status ≠ .moving → x' = x) : Follows accept f (y.bind g) x' := by
  by_cases hx : x.2.status = .moving
  · have hnext := hmoving hx
    refine ⟨?_, fun hmove => ?_⟩
    · rw [hand_bind_of_ok _ (h.chain hx), ← h.flow, hnext.flow]
    · rw [Emission.bind_of_ok (h.chain hx)]
      exact hnext.chain hmove
  · obtain rfl := hstill hx
    have hstopped : (f.bare.hand accept y).status ≠ .moving := h.flow ▸ hx
    refine ⟨?_, fun hmove => absurd hmove hx⟩
    rw [hand_bind_of_not_moving hstopped, h.flow]

theorem follows_each {n : Nat}
    (hpush : ∀ (c : Chain n) (f : Flow κ) (l : Line), f.status = .moving →
      Follows accept f (Chain.give n c l) (push accept n (c, f) l))
    (c : Chain n) {f : Flow κ} (hf : f.status = .moving) (lines : List Line) :
    Follows accept f (c.giveAll lines) (pushAll accept (c, f) lines) := by
  induction lines generalizing c f with
  | nil => exact ⟨rfl, fun _ => rfl⟩
  | cons l rest ih =>
    refine (hpush c f l hf).bind (fun hmoving => ih _ hmoving) fun hstill => ?_
    exact pushAll_of_not_moving hstill rest

/-- Pushing a line gives the client what the chain gives out. -/
theorem follows_push (accept : Client κ) {n : Nat} (c : Chain n) {f : Flow κ}
    (hf : f.status = .moving) (l : Line) :
    Follows accept f (c.give n l) (push accept n (c, f) l) := by
  induction n generalizing f l with
  | zero => exact ⟨bare_deliver f l, fun _ => rfl⟩
  | succ n ih =>
    obtain ⟨s, c⟩ := c
    cases hs : s.step l with
    | error e =>
      rw [push_of_refused hf hs, Chain.give_of_refused hs]
      refine ⟨?_, nofun⟩
      show _ = settle f.bare _
      simp only [settle, bare, hf]
    | ok r =>
      rw [push_of_step hf hs, Chain.give_of_step hs]
      have hall := follows_each (fun c f l hf => ih c hf l) c (f := f.note r.events) hf r.lines
      -- Noting events does not show in a bare flow.
      have hflow : _ = hand accept f.bare (c.giveAll r.lines) := hall.flow
      refine ⟨hflow.trans (hand_map _ _ _).symm, fun hmoving => ?_⟩
      exact congrArg (Except.map fun c' => (r.stage, c')) (hall.chain hmoving)

theorem follows_pushAll (accept : Client κ) {n : Nat} (c : Chain n) {f : Flow κ}
    (hf : f.status = .moving) (lines : List Line) :
    Follows accept f (c.giveAll lines) (pushAll accept (c, f) lines) :=
  follows_each (fun c _ l hf => follows_push accept c hf l) c hf lines

/-- Draining gives the client what the chain gives out when it is flushed. -/
theorem bare_drain (accept : Client κ) {n : Nat} (c : Chain n) {f : Flow κ}
    (hf : f.status = .moving) :
    (drain accept n (c, f)).bare = f.bare.hand accept (c.empty n) := by
  induction n generalizing f with
  | zero => rfl
  | succ n ih =>
    obtain ⟨s, c⟩ := c
    cases hr : s.flush with
    | error e =>
      rw [Chain.empty_of_refused hr]
      show _ = settle f.bare _
      simp only [drain, hr, settle, bare, hf]
    | ok r =>
      rw [drain_of_flush hr, Chain.empty_of_flush hr]
      have hall := follows_pushAll accept c (f := f.note r.events) hf r.lines
      have hflow : _ = hand accept f.bare (c.giveAll r.lines) := hall.flow
      split
      · rename_i hmoving
        rw [hand_bind_of_ok _ (hall.chain hmoving), ← hflow]
        exact ih _ hmoving
      · rename_i hstill
        have hstopped : (f.bare.hand accept (c.giveAll r.lines)).status ≠ .moving := hflow ▸ hstill
        rw [hand_bind_of_not_moving hstopped, ← hflow]

/-- All that handing an emission to a client can come to, after the trace `before`. -/
inductive Handed {α : Type} (accept : Client κ) (client : κ) (before : List Signal)
    (y : Emission α) (g : Flow κ) : Prop where
  /-- The client accepts all lines, and there is no error. -/
  | moving {a : α} : Client.accepts accept client y.lines = true → y.result = .ok a →
      g.status = .moving → g.client = Client.after accept client y.lines →
      g.trace = (y.lines.map .out).reverse ++ before → Handed accept client before y g
  /-- The client accepts all lines, and an error follows. -/
  | failed {e : LineError} : Client.accepts accept client y.lines = true → y.result = .error e →
      g.status = .failed e → g.trace = (y.lines.map .out).reverse ++ before →
      Handed accept client before y g
  /-- The client wants no more after one of the lines, and what comes behind it is lost. -/
  | stopped : Client.accepts accept client y.lines = false → g.status = .stopped →
      g.trace = ((Client.taken accept client y.lines).map .out).reverse ++ before →
      Handed accept client before y g

theorem handed_of_bare {α : Type} {f g : Flow κ} (hf : f.status = .moving) {y : Emission α}
    (h : g.bare = f.bare.hand accept y) : Handed accept f.client f.trace y g := by
  obtain ⟨hstatus, htrace, hall⟩ := deliverAll_of_moving accept (f := f.bare) hf y.lines
  have hg : g.bare.status = (f.bare.hand accept y).status ∧
      g.bare.trace = (f.bare.hand accept y).trace ∧
      g.bare.client = (f.bare.hand accept y).client := by
    rw [h]
    exact ⟨rfl, rfl, rfl⟩
  cases haccepts : Client.accepts accept f.client y.lines with
  | true =>
    obtain ⟨hafter, htaken⟩ := hall haccepts
    rw [htaken] at htrace
    replace hstatus : _ = Status.moving := hstatus.trans (if_pos haccepts)
    cases hy : y.result with
    | ok a =>
      simp only [hand, hy, settle] at hg
      exact .moving haccepts hy (hg.1.trans hstatus) (hg.2.2.trans hafter) (hg.2.1.trans htrace)
    | error e =>
      simp only [hand, hy, settle, hstatus] at hg
      exact .failed haccepts hy hg.1 (hg.2.1.trans htrace)
  | false =>
    replace hstatus : _ = Status.stopped := hstatus.trans (if_neg (by simp [bare, haccepts]))
    have hstill : (f.bare.deliverAll accept y.lines).status ≠ .moving := by
      rw [hstatus]
      exact nofun
    rw [hand, settle_of_not_moving hstill] at hg
    exact .stopped haccepts (hg.1.trans hstatus) (hg.2.1.trans htrace)

/-! ### The trace of a run -/

/-- At the end of a source the client hears what the stages still hold, as far as it wants to. -/
theorem trace_finish {n : Nat} (c : Chain n) {f : Flow κ} (hf : f.status = .moving) (count : Nat) :
    (finish accept count c f).trace =
      (Client.cut accept f.client false (c.script none count [])).reverse ++ f.trace := by
  have hbare := bare_drain accept c (f := f.signal .finish) hf
  have hhanded : Handed accept f.client (.finish :: f.trace) _ _ :=
    handed_of_bare (f := f.signal .finish) hf hbare
  rw [Chain.script, Client.cut, Client.cut_outs]
  simp only [finish]
  cases hhanded with
  | moving haccepts hresult hstatus _ htrace =>
    rw [if_pos haccepts, hresult, hstatus]
    show (drain accept n _).trace = _
    rw [htrace]
    simp [Chain.ending, Client.cut]
  | failed haccepts hresult hstatus htrace =>
    rw [if_pos haccepts, hresult, hstatus]
    show _ :: (drain accept n _).trace = _
    rw [htrace]
    simp [Chain.ending, Client.cut]
  | stopped haccepts hstatus htrace =>
    rw [if_neg (by rw [haccepts]; exact Bool.false_ne_true), hstatus]
    show (drain accept n _).trace = _
    rw [htrace]
    simp

/-- The trace of a run from any point on is the rest of its script, cut by its client. -/
theorem trace_feed {n : Nat} (error : Option SourceError) (count : Nat) (c : Chain n) {f : Flow κ}
    (hf : f.status = .moving) (texts : List Text) :
    (feed accept error count c f texts).trace =
      (Client.cut accept f.client false (c.script error count texts)).reverse ++ f.trace := by
  induction texts generalizing count c f with
  | nil =>
    cases error with
    | none => exact trace_finish c hf count
    | some e => rfl
  | cons t rest ih =>
    have hpush := follows_push accept c (f := f.signal (.pull (count + 1))) hf
      ⟨count + 1, t⟩
    have hhanded : Handed accept f.client (.pull (count + 1) :: f.trace) _ _ :=
      handed_of_bare (f := f.signal (.pull (count + 1))) hf hpush.flow
    rw [Chain.script, Client.cut_pull, Client.cut_outs, feed]
    dsimp only
    generalize push accept n _ _ = x at hpush hhanded ⊢
    cases hhanded with
    | moving haccepts hresult hstatus hclient htrace =>
      rw [if_pos haccepts, hpush.chain hstatus, hstatus]
      dsimp only
      rw [ih _ _ hstatus, hclient, htrace]
      simp
    | failed haccepts hresult hstatus htrace =>
      rw [if_pos haccepts, hresult, hstatus]
      show .stop :: .fault (.line _) :: x.2.trace = _
      rw [htrace]
      simp [Client.cut]
    | stopped haccepts hstatus htrace =>
      rw [if_neg (by rw [haccepts]; exact Bool.false_ne_true), hstatus]
      show .stop :: x.2.trace = _
      rw [htrace]
      simp

end Flow

namespace Pipeline
variable {κ : Type}

/-- All that happens in a run of a pipeline when nobody stops it. -/
def script (p : Pipeline) (s : Source) : List Signal :=
  (Chain.ofList p.stages).script s.error 0 s.lines

/-- **The trace of a run is its script, cut by its client.** -/
theorem trace_run (p : Pipeline) (accept : Client κ) (client : κ) (s : Source) :
    (p.run accept client s).trace = Client.cut accept client false (p.script s) := by
  show List.reverse _ = _
  rw [Flow.trace_feed s.error 0 _ rfl s.lines]
  simp [Flow.new, script]

end Pipeline

end Preassembler
