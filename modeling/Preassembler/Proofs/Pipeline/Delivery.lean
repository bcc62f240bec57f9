import Preassembler.Proofs.Pipeline.Laziness

/-! What reaches a sink.

A listing is written through a buffer into a sink that may have limited room. The buffer is filled
up and written out whole, but only when there is more to add, so that of `n` bytes the last block
stays in the buffer even when it is full (`Writer.spilled`). `Writer.Open` says where the bytes of a text
are while all writes succeed; after a write that failed the sink has taken all it has room for
(`Writer.Broken`). One of the two holds after every text (`Writer.Wrote.put`), and so after the
lines a run gives its client. So a run that writes ends in one of three ways (`Pipeline.Writes`).

Main statement: a sink gets a prefix of the listing, and all of it exactly on success
(`write_delivers`). -/
namespace Preassembler

/-! ### Room -/

namespace Sink

/-- How many of `n` bytes a sink takes that has the given room. -/
def capped : Option Nat → Nat → Nat
  | none, n => n
  | some k, n => min k n

theorem capped_le (room : Option Nat) (n : Nat) : capped room n ≤ n := by
  cases room with
  | none => exact Nat.le_refl n
  | some k => exact Nat.min_le_right k n

/-- A sink that is short of room takes the same of all that is longer. -/
theorem capped_of_lt {room : Option Nat} {m n : Nat} (h : capped room m < m) (hle : m ≤ n) :
    capped room n = capped room m := by
  cases room with
  | none => exact absurd h (Nat.lt_irrefl m)
  | some k =>
    simp only [capped] at h ⊢
    omega

/-- A sink that has taken a text, of the room it had at first. -/
structure Filled (room : Option Nat) (s : Sink) (t : Text) : Prop where
  contents : s.contents = t
  left : s.room = room.map (· - t.length)
  fits : capped room t.length = t.length

theorem filled_new (room : Option Nat) : Filled room (.new room) [] where
  contents := rfl
  left := by cases room <;> rfl
  fits := by cases room <;> simp [capped]

theorem contents_cons (room : Option Nat) (t : Text) (taken : List Text) :
    (Sink.mk room (t :: taken)).contents = (Sink.mk room taken).contents ++ t := by
  simp [contents]

/-- A write goes in completely, or fills the sink up and fails. -/
theorem Filled.write {room : Option Nat} {s : Sink} {t : Text} (h : Filled room s t) (u : Text) :
    (s.write u).1.contents = (t ++ u).take (capped room (t ++ u).length) ∧
      ((s.write u).2 = true → Filled room (s.write u).1 (t ++ u)) ∧
      ((s.write u).2 = false → capped room (t ++ u).length < (t ++ u).length) := by
  obtain ⟨hcontents, hleft, hfits⟩ := h
  obtain ⟨left, taken⟩ := s
  cases room with
  | none =>
    obtain rfl : left = none := hleft
    have hall : (Sink.mk none (u :: taken)).contents = t ++ u := by
      rw [contents_cons, ← hcontents]
    refine ⟨?_, fun _ => ⟨hall, rfl, rfl⟩, nofun⟩
    rw [capped, List.take_length]
    exact hall
  | some k =>
    obtain rfl : left = some (k - t.length) := hleft
    have hk : t.length ≤ k := by simpa [capped] using hfits
    by_cases hu : u.length ≤ k - t.length
    · have hall : (Sink.mk (some (k - t.length - u.length)) (u :: taken)).contents = t ++ u := by
        rw [contents_cons, ← hcontents]
        rfl
      have hcapped : capped (some k) (t ++ u).length = (t ++ u).length := by
        simp only [capped, List.length_append]
        omega
      simp only [Sink.write, hu, if_true]
      refine ⟨by rw [hall, hcapped, List.take_length], fun _ => ⟨hall, ?_, hcapped⟩, nofun⟩
      simp only [Option.map_some, List.length_append]
      congr 1
      omega
    · simp only [Sink.write, hu, if_false]
      refine ⟨?_, nofun, fun _ => ?_⟩
      · rw [contents_cons]
        have hshort : capped (some k) (t ++ u).length = t.length + (k - t.length) := by
          simp only [capped, List.length_append]
          omega
        rw [hshort, List.take_length_add_append, ← hcontents]
        rfl
      · simp only [capped, List.length_append]
        omega

end Sink

/-! ### The buffer -/

namespace Writer
open Sink (capped Filled)

/-- How many of `n` bytes have left the buffer: full blocks only, and never the last byte. -/
def spilled (n : Nat) : Nat := capacity * ((n - 1) / capacity)

theorem spilled_le (n : Nat) : spilled n ≤ n := by
  have := Nat.mul_div_le (n - 1) capacity
  unfold spilled
  omega

theorem spilled_mono {m n : Nat} (h : m ≤ n) : spilled m ≤ spilled n :=
  Nat.mul_le_mul_left capacity (Nat.div_le_div_right (by omega))

theorem spilled_eq {c n : Nat} (hblocks : capacity ∣ c) (hlt : c < n) (hle : n ≤ c + capacity) :
    spilled n = c := by
  obtain ⟨m, rfl⟩ := hblocks
  unfold spilled
  congr 1
  simp only [capacity] at *
  omega

/-- An unbroken writer that was given a text, of which the first `c` bytes are in the sink. -/
structure Open (room : Option Nat) (t : Text) (c : Nat) (w : Writer) : Prop where
  unbroken : w.broken = false
  sink : Filled room w.sink (t.take c)
  held : w.held.reverse = t.drop c
  blocks : capacity ∣ c
  within : c ≤ t.length
  free : w.free + t.length = c + capacity

/-- A writer whose sink could not take all that left the buffer. -/
structure Broken (room : Option Nat) (t : Text) (w : Writer) : Prop where
  broken : w.broken = true
  short : capped room (spilled t.length) < spilled t.length
  contents : w.sink.contents = t.take (capped room (spilled t.length))

theorem open_new (room : Option Nat) : Open room [] 0 (.new (.new room)) where
  unbroken := rfl
  sink := Sink.filled_new room
  held := rfl
  blocks := Nat.dvd_zero capacity
  within := Nat.le_refl 0
  free := rfl

/-- More text does not help a broken writer. -/
theorem Broken.append {room : Option Nat} {t : Text} {w : Writer} (h : Broken room t w) (u : Text) :
    Broken room (t ++ u) w := by
  have hle : spilled t.length ≤ spilled (t ++ u).length := spilled_mono (by simp)
  have hcapped := Sink.capped_of_lt h.short hle
  refine ⟨h.broken, hcapped ▸ Nat.lt_of_lt_of_le h.short hle, ?_⟩
  rw [h.contents, hcapped, List.take_append_of_le_length]
  exact Nat.le_trans (Nat.le_of_lt h.short) (spilled_le t.length)

/-- A text that fits into the buffer stays there. -/
theorem Open.keep {room : Option Nat} {t : Text} {c : Nat} {w : Writer} (h : Open room t c w)
    {u : Text} (hu : u.length ≤ w.free) :
    Open room (t ++ u) c { w with held := u.reverse ++ w.held, free := w.free - u.length } where
  unbroken := h.unbroken
  sink := by rw [List.take_append_of_le_length h.within]; exact h.sink
  held := by simp [List.drop_append_of_le_length h.within, h.held]
  blocks := h.blocks
  within := by rw [List.length_append]; exact Nat.le_add_right_of_le h.within
  free := by
    have := h.free
    simp only [List.length_append]
    omega

/-- When the buffer is filled up, its block goes to the sink, or the sink is full. -/
theorem Open.spill {room : Option Nat} {t : Text} {c : Nat} {w : Writer} (h : Open room t c w)
    {u : Text} (hu : w.free < u.length) :
    Open room (t ++ u.take w.free) (c + capacity) (w.spill u) ∨
      Broken room (t ++ u) (w.spill u) := by
  have hfree := h.free
  have hlength : (t ++ u.take w.free).length = c + capacity := by
    rw [List.length_append, List.length_take]
    omega
  have hblock : t.take c ++ (w.held.reverse ++ u.take w.free) = t ++ u.take w.free := by
    rw [h.held, ← List.append_assoc, List.take_append_drop]
  have hspill : w.spill u =
      ⟨[], capacity, (w.sink.write (w.held.reverse ++ u.take w.free)).1,
        !(w.sink.write (w.held.reverse ++ u.take w.free)).2⟩ := by
    simp [Writer.spill]
  obtain ⟨hcontents, hyes, hno⟩ := h.sink.write (w.held.reverse ++ u.take w.free)
  rw [hblock, hlength] at hcontents hno
  rw [hblock] at hyes
  rw [hspill]
  have hblocks : capacity ∣ c + capacity := Nat.dvd_add_self_right.2 h.blocks
  cases hok : (w.sink.write (w.held.reverse ++ u.take w.free)).2 with
  | true =>
    left
    refine ⟨rfl, ?_, ?_, hblocks, Nat.le_of_eq hlength.symm, ?_⟩
    · rw [← hlength, List.take_length]
      exact hyes hok
    · rw [← hlength, List.drop_length]
      rfl
    · rw [hlength]
      exact Nat.add_comm _ _
  | false =>
    right
    -- More than this block has left the buffer when all of `u` is written.
    have hmore : c + capacity ≤ spilled (t ++ u).length := by
      have hself : spilled (c + capacity + 1) = c + capacity :=
        spilled_eq hblocks (Nat.lt_succ_self _) (Nat.add_le_add_left (by decide) _)
      rw [← hself]
      refine spilled_mono ?_
      rw [List.length_append]
      omega
    have hcapped := Sink.capped_of_lt (hno hok) hmore
    refine ⟨rfl, hcapped ▸ Nat.lt_of_lt_of_le (hno hok) hmore, ?_⟩
    have hprefix : t ++ u.take w.free <+: t ++ u := by simpa using List.take_prefix w.free u
    obtain ⟨rest, hrest⟩ := hprefix
    rw [hcapped, ← hrest, List.take_append_of_le_length (hlength ▸ Sink.capped_le room _)]
    exact hcontents

/-- A writer after a text: the last block is still in the buffer, or the sink was full before. -/
inductive Wrote (room : Option Nat) (t : Text) (w : Writer) : Prop where
  | holding : Open room t (spilled t.length) w → Wrote room t w
  | broken : Broken room t w → Wrote room t w

theorem Open.put {room : Option Nat} {t : Text} {c : Nat} {w : Writer} (h : Open room t c w)
    {u : Text} (hu : u ≠ []) : Wrote room (t ++ u) (w.put u) := by
  fun_induction Writer.put w u generalizing t c with
  | case1 w u hbroken =>
    rw [h.unbroken] at hbroken
    cases hbroken
  | case2 w u _ hdrop =>
    have hfits : u.length ≤ w.free := List.drop_eq_nil_iff.1 hdrop
    have hkeep := h.keep hfits
    have hpos := List.length_pos_iff.2 hu
    have hfree := h.free
    have hwithin := h.within
    have hc : spilled (t ++ u).length = c :=
      spilled_eq h.blocks (by rw [List.length_append]; omega) (by rw [List.length_append]; omega)
    exact .holding (hc ▸ hkeep)
  | case3 w u _ b r hdrop ih =>
    have hmore : w.free < u.length := by
      have := congrArg List.length hdrop
      rw [List.length_drop, List.length_cons] at this
      omega
    have hparts : (t ++ u.take w.free) ++ b :: r = t ++ u := by
      rw [List.append_assoc, ← hdrop, List.take_append_drop]
    rcases h.spill hmore with hopen | hbroken
    · rw [← hparts]
      exact ih hopen (List.cons_ne_nil b r)
    · have hstill : (w.spill u).put (b :: r) = w.spill u := by
        rw [Writer.put, if_pos hbroken.broken]
      rw [hstill]
      exact .broken hbroken

/-- **Writing keeps account.** -/
theorem Wrote.put {room : Option Nat} {t : Text} {w : Writer} (h : Wrote room t w) (u : Text) :
    Wrote room (t ++ u) (w.put u) := by
  cases h with
  | broken hbroken =>
    rw [Writer.put, if_pos hbroken.broken]
    exact .broken (hbroken.append u)
  | holding hopen =>
    cases u with
    | nil =>
      have hsame : w.put [] = w := by
        rw [Writer.put, if_neg (by simp [hopen.unbroken])]
        split
        · rfl
        · rename_i hdrop
          simp at hdrop
      rw [hsame, List.append_nil]
      exact .holding hopen
    | cons b r => exact hopen.put (List.cons_ne_nil b r)

/-- Emptying the buffer brings everything to the sink that it has room for. -/
theorem Open.flush {room : Option Nat} {t : Text} {w : Writer}
    (h : Open room t (spilled t.length) w) :
    w.flush.sink.contents = t.take (capped room t.length) ∧
      w.flush.broken = decide (capped room t.length < t.length) := by
  have hall : t.take (spilled t.length) ++ w.held.reverse = t := by
    rw [h.held, List.take_append_drop]
  have hfits := h.sink.fits
  rw [List.length_take, Nat.min_eq_left (spilled_le t.length)] at hfits
  cases hheld : w.held with
  | nil =>
    have hflush : w.flush = w := by simp [Writer.flush, hheld]
    have htake : t.take (spilled t.length) = t := by simpa [hheld] using hall
    have hlength : spilled t.length = t.length := by
      have := congrArg List.length htake
      rw [List.length_take] at this
      have := spilled_le t.length
      omega
    rw [hlength] at hfits
    rw [hflush, h.sink.contents, htake, h.unbroken, hfits]
    simp
  | cons b r =>
    obtain ⟨hcontents, hyes, hno⟩ := h.sink.write w.held.reverse
    rw [hall] at hcontents hyes hno
    have hflush : w.flush =
        ⟨[], capacity, (w.sink.write w.held.reverse).1, !(w.sink.write w.held.reverse).2⟩ := by
      simp [Writer.flush, h.unbroken, hheld]
    rw [hflush]
    refine ⟨hcontents, ?_⟩
    cases hok : (w.sink.write w.held.reverse).2 with
    | true => simp [(hyes hok).fits]
    | false => simp [hno hok]

end Writer

/-! ### The client of a run -/

namespace Flow
variable {κ : Type} {accept : Client κ} {client : κ}

/-- A flow whose client is what the lines it got made of it. -/
def Fed (accept : Client κ) (client : κ) (f : Flow κ) : Prop :=
  f.client = Client.after accept client (outs f.trace.reverse)

theorem Fed.signal {f : Flow κ} (h : Fed accept client f) {s : Signal} (hs : ∀ l, s ≠ .out l) :
    Fed accept client (f.signal s) := by
  have houts : outs (f.signal s).trace.reverse = outs f.trace.reverse := by
    cases s with
    | out l => exact absurd rfl (hs l)
    | _ => simp [Flow.signal]
  rw [Fed, houts]
  exact h

theorem Fed.deliver {f : Flow κ} (h : Fed accept client f) (l : Line) :
    Fed accept client (f.deliver accept l) := by
  by_cases hf : f.status = .moving
  · rw [deliver_of_moving accept hf, Fed]
    simp only [List.reverse_cons, outs_append, outs_out, outs_nil, Client.after, List.foldl_append,
      List.foldl_cons, List.foldl_nil]
    rw [h, Client.after]
  · rw [deliver_of_not_moving hf]
    exact h

theorem Fed.push {n : Nat} {x : Chain n × Flow κ} (h : Fed accept client x.2) (l : Line) :
    Fed accept client (push accept n x l).2 := by
  induction n generalizing l with
  | zero => exact h.deliver l
  | succ n ih =>
    by_cases hx : x.2.status = .moving
    · obtain ⟨⟨s, c⟩, f⟩ := x
      cases hs : s.step l with
      | error e =>
        rw [push_of_refused hx hs]
        exact h
      | ok r =>
        rw [push_of_step hx hs]
        exact List.foldlRecOn (b := (c, f.note r.events)) r.lines (Flow.push accept n)
          (motive := fun y => Fed accept client y.2) h (fun y hy l _ => ih hy l)
    · rw [push_of_not_moving hx]
      exact h

theorem Fed.pushAll {n : Nat} {x : Chain n × Flow κ} (h : Fed accept client x.2)
    (lines : List Line) : Fed accept client (pushAll accept x lines).2 :=
  List.foldlRecOn lines (Flow.push accept n) (motive := fun y => Fed accept client y.2) h
    fun _ hy l _ => hy.push l

theorem Fed.drain {n : Nat} {x : Chain n × Flow κ} (h : Fed accept client x.2) :
    Fed accept client (drain accept n x) := by
  induction n with
  | zero => exact h
  | succ n ih =>
    obtain ⟨⟨s, c⟩, f⟩ := x
    cases hr : s.flush with
    | error e =>
      simp only [Flow.drain, hr]
      exact h
    | ok r =>
      have hall : Fed accept client (Flow.pushAll accept (c, f.note r.events) r.lines).2 :=
        Fed.pushAll (x := (c, f.note r.events)) h r.lines
      rw [drain_of_flush hr]
      split
      · exact ih hall
      · exact hall

theorem Fed.feed {n : Nat} (error : Option SourceError) (count : Nat) (c : Chain n) {f : Flow κ}
    (h : Fed accept client f) (texts : List Text) :
    Fed accept client (feed accept error count c f texts) := by
  induction texts generalizing count c f with
  | nil =>
    cases error with
    | some e =>
      have hpull := h.signal (s := .pull (count + 1)) (by simp)
      exact hpull.signal (by simp)
    | none =>
      have hdrain := Fed.drain (x := (c, f.signal .finish)) (h.signal (by simp))
      simp only [Flow.feed, finish]
      split
      · exact hdrain
      · exact hdrain
      · exact hdrain.signal (by simp)
  | cons t rest ih =>
    have hpush := Fed.push (x := (c, f.signal (.pull (count + 1)))) (h.signal (by simp))
      ⟨count + 1, t⟩
    simp only [Flow.feed]
    split
    · exact ih _ _ hpush
    · exact hpush.signal (by simp)
    · rename_i e _
      have hfault := hpush.signal (s := .fault (.line e)) (by simp)
      exact hfault.signal (by simp)

end Flow

namespace Pipeline

/-- The client of a run is what the lines of the run made of it. -/
theorem client_run {κ : Type} (p : Pipeline) (accept : Client κ) (client : κ) (s : Source) :
    (p.run accept client s).client = Client.after accept client (p.run accept client s).lines :=
  Flow.Fed.feed s.error 0 (.ofList p.stages) (f := .new client) rfl s.lines

/-! ### Listings as text -/

/-- The text of a listing: every line with a newline behind it. -/
def listingText (lines : List Line) : Text := lines.flatMap fun l => l.text ++ [Text.byte '\n']

theorem listingText_append (a b : List Line) :
    listingText (a ++ b) = listingText a ++ listingText b := List.flatMap_append

theorem listingText_singleton (l : Line) : listingText [l] = l.text ++ [Text.byte '\n'] :=
  List.append_nil _

open Writer (Wrote Open Broken spilled)
open Sink (capped)

theorem wrote_putLine {room : Option Nat} {t : Text} {w : Writer} (h : Wrote room t w) (l : Line) :
    Wrote room (t ++ listingText [l]) (w.putLine l.text) := by
  rw [listingText_singleton, ← List.append_assoc]
  exact (h.put l.text).put [Text.byte '\n']

/-- A writing client that has accepted lines holds their text, and has counted them. -/
theorem after_of_accepts {room : Option Nat} {t : Text} {w : Writer}
    (h : Open room t (spilled t.length) w) (n : Nat) {lines : List Line}
    (haccepts : Client.accepts writing (w, n) lines = true) :
    ∃ w', Client.after writing (w, n) lines = (w', n + lines.length) ∧
      Open room (t ++ listingText lines) (spilled (t ++ listingText lines).length) w' := by
  induction lines generalizing t w n with
  | nil => exact ⟨w, rfl, by simpa [listingText] using h⟩
  | cons l rest ih =>
    rw [Client.accepts, Bool.and_eq_true] at haccepts
    obtain ⟨hfirst, hrest⟩ := haccepts
    have hunbroken : (w.putLine l.text).broken = false := by
      cases hb : (w.putLine l.text).broken <;> simp [writing, hb] at hfirst ⊢
    have hnext : (writing (w, n) l).1 = (w.putLine l.text, n + 1) := by simp [writing, hunbroken]
    cases wrote_putLine (.holding h) l with
    | broken hbroken => cases hunbroken.symm.trans hbroken.broken
    | holding hopen =>
      rw [hnext] at hrest
      obtain ⟨w', hafter, hw'⟩ := ih hopen (n + 1) hrest
      refine ⟨w', ?_, ?_⟩
      · show Client.after writing (writing (w, n) l).1 rest = _
        rw [hnext, hafter, List.length_cons]
        congr 1
        omega
      · rw [List.append_assoc, ← listingText_append] at hw'
        exact hw'

/-- A writing client wants no more when its sink is full. -/
theorem after_of_refused {room : Option Nat} {t : Text} {w : Writer}
    (h : Open room t (spilled t.length) w) (n : Nat) {lines : List Line} {l : Line}
    (haccepts : Client.accepts writing (w, n) lines = true)
    (hrefused : Client.accepts writing (w, n) (lines ++ [l]) = false) :
    Broken room (t ++ listingText (lines ++ [l]))
      (Client.after writing (w, n) (lines ++ [l])).1 := by
  obtain ⟨w', hafter, hopen⟩ := after_of_accepts h n haccepts
  rw [Client.accepts_append, haccepts, Bool.true_and, hafter] at hrefused
  have hfull : (w'.putLine l.text).broken = true := by
    cases hb : (w'.putLine l.text).broken <;> simp [Client.accepts, writing, hb] at hrefused ⊢
  have hlast : (Client.after writing (w, n) (lines ++ [l])).1 = w'.putLine l.text := by
    rw [Client.after, List.foldl_append]
    show (writing (Client.after writing (w, n) lines) l).1.1 = _
    rw [hafter]
    simp [writing, hfull]
  rw [hlast, listingText_append, ← List.append_assoc]
  cases wrote_putLine (.holding hopen) l with
  | broken hbroken => exact hbroken
  | holding hopen => cases hfull.symm.trans hopen.unbroken

/-! ### Runs that write -/

/-- What a run that writes its listing comes to: `lines` are the lines of the run that nobody stops,
`error` is the error it ends with, and the sink has room for so many bytes. -/
structure Delivers (lines : List Line) (error : Option Fault) (room : Option Nat) (w : Written) :
    Prop where
  /-- The sink holds the start of the listing. -/
  start : w.sink.contents <+: listingText lines
  /-- A listing without error for which there is room is delivered completely. -/
  complete : error = none → (∀ k ∈ room, (listingText lines).length ≤ k) →
    w.fault = none ∧ w.sink.contents = listingText lines ∧ w.count = lines.length
  /-- A listing without error for which there is no room fills the sink. -/
  full : error = none → ∀ k ∈ room, k < (listingText lines).length →
    w.fault = some (.output Sink.fullMessage) ∧ w.sink.contents = (listingText lines).take k
  /-- A listing that ends with an error loses its last block, which is still in the buffer. The
  error is returned if there is room for the blocks before. -/
  failed : ∀ e, error = some e →
    w.sink.contents =
      (listingText lines).take (capped room (spilled (listingText lines).length)) ∧
    w.fault =
      if capped room (spilled (listingText lines).length) < spilled (listingText lines).length then
        some (.output Sink.fullMessage)
      else some e

/-- A run whose sink is full in the middle of it. -/
theorem delivers_of_broken {lines front : List Line} (hfront : front <+: lines)
    (error : Option Fault) {room : Option Nat} {w : Writer} (h : Broken room (listingText front) w)
    (count : Nat) (events : List Event) :
    Delivers lines error room ⟨count, w.sink, some (.output Sink.fullMessage), events⟩ := by
  obtain ⟨rest, rfl⟩ := hfront
  have hall := h.append (listingText rest)
  rw [← listingText_append] at hall
  have hle := Writer.spilled_le (listingText (front ++ rest)).length
  cases room with
  | none => exact absurd hall.short (Nat.lt_irrefl _)
  | some k =>
    have hk : capped (some k) (spilled (listingText (front ++ rest)).length) = k := by
      have := hall.short
      simp only [capped] at this ⊢
      omega
    have hshort := hall.short
    have hcontents := hall.contents
    rw [hk] at hshort hcontents
    refine ⟨?_, fun _ hfits => ?_, fun _ j hj _ => ?_, fun e _ => ?_⟩
    · exact hcontents ▸ List.take_prefix k _
    · exact absurd (hfits k rfl) (by omega)
    · obtain rfl := Option.some.inj hj
      exact ⟨rfl, hcontents⟩
    · rw [hk, if_pos hshort]
      exact ⟨hcontents, rfl⟩

/-- A run that ends with an error before its sink is full. -/
theorem delivers_of_error {lines : List Line} {e : Fault} {room : Option Nat} {w : Writer}
    (h : Open room (listingText lines) (spilled (listingText lines).length) w) (count : Nat)
    (events : List Event) :
    Delivers lines (some e) room ⟨count, w.sink, some e, events⟩ := by
  have hcontents := h.sink.contents
  have hfits := h.sink.fits
  rw [List.length_take, Nat.min_eq_left (Writer.spilled_le _)] at hfits
  refine ⟨hcontents ▸ List.take_prefix _ _, nofun, nofun, ?_⟩
  intro e' he
  rw [hfits, if_neg (Nat.lt_irrefl _)]
  exact ⟨hcontents, he⟩

/-- A run without error whose sink is not full before the buffer is emptied. -/
theorem delivers_of_flush {lines : List Line} {room : Option Nat} {w : Writer}
    (h : Open room (listingText lines) (spilled (listingText lines).length) w)
    (events : List Event) :
    Delivers lines none room
      ⟨lines.length, w.flush.sink,
        if w.flush.broken then some (.output Sink.fullMessage) else none, events⟩ := by
  obtain ⟨hcontents, hbroken⟩ := h.flush
  rw [hbroken]
  refine ⟨hcontents ▸ List.take_prefix _ _, fun _ hfits => ?_, fun _ k hk hlt => ?_, nofun⟩
  · have hall : capped room (listingText lines).length = (listingText lines).length := by
      cases room with
      | none => rfl
      | some k => exact Nat.min_eq_right (hfits k rfl)
    rw [hall, List.take_length] at hcontents
    exact ⟨by simp [hall], hcontents, rfl⟩
  · obtain rfl := hk
    have hcapped : capped (some k) (listingText lines).length = k := Nat.min_eq_left hlt.le
    rw [hcapped] at hcontents
    exact ⟨by simp [hcapped, hlt], hcontents⟩

/-- What a writing run comes to, by the writer and the count it leaves. -/
theorem write_eq {p : Pipeline} {s : Source} {sink : Sink} {w : Writer} {n : Nat}
    (h : (p.run writing (.new sink, 0) s).client = (w, n)) :
    p.write s sink =
      if w.broken then
        ⟨n, w.sink, some (.output Sink.fullMessage), (p.run writing (.new sink, 0) s).events⟩
      else match (p.run writing (.new sink, 0) s).fault? with
        | some e => ⟨n, w.sink, some e, (p.run writing (.new sink, 0) s).events⟩
        | none =>
          ⟨n, w.flush.sink, if w.flush.broken then some (.output Sink.fullMessage) else none,
            (p.run writing (.new sink, 0) s).events⟩ := by
  unfold write
  generalize p.run writing (.new sink, 0) s = o at h ⊢
  obtain ⟨client, trace, events⟩ := o
  cases h
  rfl

/-- All that can become of a run that writes: `lines` and `error` are those of the run that nobody
stops, and the sink has room for so many bytes. -/
inductive Writes (lines : List Line) (error : Option Fault) (room : Option Nat) : Written → Prop
  /-- The sink was full before all lines were written. -/
  | stopped {front : List Line} {w : Writer} (hfront : front <+: lines)
    (hbroken : Broken room (listingText front) w) (count : Nat) (events : List Event) :
    Writes lines error room ⟨count, w.sink, some (.output Sink.fullMessage), events⟩
  /-- All lines were written, and then the run failed. -/
  | failed {e : Fault} {w : Writer} (herror : error = some e)
    (hopen : Open room (listingText lines) (spilled (listingText lines).length) w) (count : Nat)
    (events : List Event) : Writes lines error room ⟨count, w.sink, some e, events⟩
  /-- All lines were written, and then the buffer was emptied. -/
  | ended {w : Writer} (herror : error = none)
    (hopen : Open room (listingText lines) (spilled (listingText lines).length) w)
    (events : List Event) :
    Writes lines error room ⟨lines.length, w.flush.sink,
      if w.flush.broken then some (.output Sink.fullMessage) else none, events⟩

theorem writes_write (p : Pipeline) (s : Source) (room : Option Nat) :
    Writes (p.runAll s).lines (p.runAll s).fault? room (p.write s (.new room)) := by
  have hstart := Writer.open_new room
  have hclient := p.client_run writing (.new (.new room), 0) s
  have hlines : (p.runAll s).lines = outs (p.script s) := by rw [lines_eq_outs, trace_runAll]
  rw [lines_eq_outs] at hclient
  rcases Client.cut_cases writing (Writer.new (.new room), 0) false (p.script s) with
    ⟨hall, hcut⟩ | ⟨before, l, after, hscript, hyes, hno, hcut⟩
  · -- The client takes every line, so the run is the one that nobody stops.
    rw [← trace_run] at hcut
    have hfault : (p.run writing (.new (.new room), 0) s).fault? = (p.runAll s).fault? := by
      rw [Outcome.fault?, Outcome.fault?, hcut, trace_runAll]
    obtain ⟨w, hafter, hopen⟩ := after_of_accepts hstart 0 hall
    rw [hcut, hafter, ← hlines, Nat.zero_add] at hclient
    rw [List.nil_append, ← hlines] at hopen
    rw [write_eq hclient, if_neg (by simp [hopen.unbroken]), hfault]
    cases (p.runAll s).fault? with
    | none => exact .ended rfl hopen _
    | some e => exact .failed rfl hopen _ _
  · -- The sink is full after the line `l`.
    rw [← trace_run] at hcut
    have houts : outs (p.run writing (.new (.new room), 0) s).trace = outs before ++ [l] := by
      rw [hcut]
      split <;> simp
    have hbroken := after_of_refused hstart 0 hyes hno
    rw [houts] at hclient
    generalize Client.after writing (Writer.new (.new room), 0) (outs before ++ [l]) = x
      at hclient hbroken
    obtain ⟨w, n⟩ := x
    rw [write_eq hclient, if_pos hbroken.broken, hlines, hscript]
    exact .stopped (by simp) hbroken _ _

/-- A run that writes without fault has written all lines of a run without error. -/
theorem Writes.of_success {lines : List Line} {error : Option Fault} {room : Option Nat}
    {w : Written} (h : Writes lines error room w) (hfault : w.fault = none) :
    error = none ∧ w.sink.contents = listingText lines ∧ w.count = lines.length := by
  cases h with
  | stopped => cases hfault
  | failed => cases hfault
  | ended herror hopen =>
    obtain ⟨hcontents, hbroken⟩ := hopen.flush
    have hroom : ¬ capped room (listingText lines).length < (listingText lines).length := by
      intro hlt
      simp [hbroken, hlt] at hfault
    have hall := Nat.le_antisymm (Sink.capped_le room _) (Nat.le_of_not_lt hroom)
    rw [hall, List.take_length] at hcontents
    exact ⟨herror, hcontents, rfl⟩

/-- With room for everything only the run can fail. -/
theorem Writes.fault_eq {lines : List Line} {error : Option Fault} {w : Written}
    (h : Writes lines error none w) : w.fault = error := by
  cases h with
  | stopped _ hbroken => exact absurd hbroken.short (Nat.lt_irrefl _)
  | failed herror => exact herror.symm
  | ended herror hopen =>
    have hbroken : _ = decide (capped none (listingText lines).length < _) := hopen.flush.2
    simp [herror, hbroken, capped]

/-- The listing of a text has the lines of a run that nobody stops. -/
theorem listing_eq (p : Pipeline) (t : Text) :
    p.listing t = (p.runAll (.read t none)).result.map listingText := by
  have hwrites := p.writes_write (.read t none) none
  have hfault := hwrites.fault_eq
  rw [listing, Outcome.result]
  cases herror : (p.runAll (.read t none)).fault? with
  | some e =>
    rw [herror] at hfault
    simp only [hfault]
    rfl
  | none =>
    rw [herror] at hfault
    simp only [hfault, (hwrites.of_success (hfault.trans rfl)).2.1]
    rfl

/-- **A sink gets a prefix of the listing, and all of it exactly on success.** The listing is what
the run of the source gives a client that never stops; a source may end with an error, and a sink
may have room for any number of bytes or for all. -/
theorem write_delivers (p : Pipeline) (s : Source) (room : Option Nat) :
    Delivers (p.runAll s).lines (p.runAll s).fault? room (p.write s (.new room)) := by
  have hwrites := p.writes_write s room
  generalize p.write s (.new room) = written at hwrites ⊢
  cases hwrites with
  | stopped hfront hbroken count events => exact delivers_of_broken hfront _ hbroken count events
  | failed herror hopen count events =>
    rw [herror]
    exact delivers_of_error hopen count events
  | ended herror hopen events =>
    rw [herror]
    exact delivers_of_flush hopen events

end Pipeline

end Preassembler
