import Preassembler.Proofs.Expansion.Functions
import Preassembler.Proofs.Expansion.Sweep

/-! Requests to an engine.

An engine is asked to process lines, to define macros and to expand texts, in any order, and goes on
after a refusal. What it does is said twice. `serve` takes the answer from the functions of the
engine, which have no way to fail a check. `serve?` goes through the request step by step, by
offsets: it carries the engine along, also into refusals, and has no answer where a cut or an
argument is out of range.

Main statement: after any requests the table is sound, a request that is refused or answered with a
text leaves the engine as it was, a definition that is accepted changes the entry of its name and no
other, and no check fails (`Engine.serves`). -/
namespace Preassembler.Macro
open Text (byte)

/-! ### Sound tables -/

def Definition.Sound : Definition → Prop
  | value _ => True
  | function f => f.Sound

/-- Every bound name is a name, and every function one that a definition makes. -/
def Table.Sound (table : Table) : Prop :=
  ∀ n d, table.find? n = some d → isName n = true ∧ d.Sound

theorem Table.sound_empty : Table.Sound .empty := nofun

theorem Table.Sound.insert {table : Table} (h : table.Sound) {n : Text} {d : Definition}
    (hn : isName n = true) (hd : d.Sound) : Table.Sound (Dictionary.insert table n d) := by
  intro m d' hm
  rw [Dictionary.find?_insert] at hm
  split at hm
  · rename_i heq
    cases hm
    exact ⟨heq ▸ hn, hd⟩
  · exact h m d' hm

/-! ### Requests -/

/-- What an engine is asked. -/
inductive Request where
  | process (line : Text)
  | define (text : Text)
  | defineValue (name text : Text)
  | expand (text : Text)
  deriving DecidableEq, Repr

/-- What a request that is not refused is answered with. -/
inductive Answer where
  /-- A line or a text, expanded. -/
  | text (text : Text)
  /-- The name that a definition binds. -/
  | bound (name : Text)
  /-- Nothing: a directive, or a predefined value. -/
  | done
  deriving DecidableEq, Repr

/-- The name that a request binds if it is accepted. -/
def Request.target? : Request → Option Text
  | process line => (Text.after? Engine.directive line).map definedName
  | define text => some (definedName text)
  | defineValue name _ => some name
  | expand _ => none

namespace Engine
variable {e e' : Engine} {n : Text}

/-- The answer to a request, with the engine after it. -/
def act (e : Engine) : Request → Except Error (Answer × Engine)
  | .process line => (e.process line).map fun
    | .defined e' => (.done, e')
    | .code t => (.text t, e)
  | .define text => (e.define text).map fun (n, e') => (.bound n, e')
  | .defineValue name text => (e.defineValue name text).map (.done, ·)
  | .expand text => (e.expand text).map (.text ·, e)

/-- A refusal leaves the engine as it is. -/
def settle {α : Type} (e : Engine) : Except Error (α × Engine) → Except Error α × Engine
  | .error c => (.error c, e)
  | .ok (a, e') => (.ok a, e')

/-- What a request is answered with, and the engine after it. -/
def serve (e : Engine) (r : Request) : Except Error Answer × Engine := e.settle (e.act r)

/-- The engine after requests, whatever they were answered with. -/
def serveAll (e : Engine) (history : List Request) : Engine :=
  history.foldl (fun e r => (e.serve r).2) e

/-! ### What a request does -/

/-- The entry of one name is set, and nothing else changes. -/
structure Sets (e : Engine) (n : Text) (e' : Engine) : Prop where
  limit : e'.limit = e.limit
  entry : (e'.lookup n).isSome = true
  others : ∀ m, m ≠ n → e'.lookup m = e.lookup m

/-- What a request may do to the engine, by its answer: only an accepted definition changes
anything, and only the entry of its name. -/
def Changes (e : Engine) (r : Request) : Except Error Answer × Engine → Prop
  | (.error _, e') => e' = e
  | (.ok (.text _), e') => e' = e
  | (.ok (.bound n), e') => r.target? = some n ∧ e.Sets n e'
  | (.ok .done, e') => ∃ n, r.target? = some n ∧ e.Sets n e'

/-- An accepted definition puts something sound under a name. -/
def Enters (e : Engine) (n : Text) (e' : Engine) : Prop :=
  isName n = true ∧ ∃ d, d.Sound ∧ e' = e.bind n d

theorem Enters.sets (h : e.Enters n e') : e.Sets n e' := by
  obtain ⟨-, d, -, rfl⟩ := h
  refine ⟨rfl, ?_, fun m hm => ?_⟩
  · rw [lookup, bind, Dictionary.find?_insert, if_pos rfl]
    rfl
  · rw [lookup, bind, Dictionary.find?_insert, if_neg hm]
    rfl

theorem Enters.sound (h : e.Enters n e') (hs : e.table.Sound) : e'.table.Sound := by
  obtain ⟨hn, d, hd, rfl⟩ := h
  exact hs.insert hn hd

theorem enters_of_defineValue {text : Text} (h : e.defineValue n text = .ok e') :
    e.Enters n e' := by
  obtain ⟨hn, u, -, rfl⟩ := defineValue_eq_ok_iff.1 h
  exact ⟨hn, .value u, trivial, rfl⟩

theorem exists_of_map_eq_ok {α β : Type} {f : α → β} {o : Except Error α} {b : β}
    (h : o.map f = .ok b) : ∃ a, o = .ok a ∧ f a = b := by
  cases o with
  | error c => cases h
  | ok a => exact ⟨a, rfl, Except.ok.inj h⟩

theorem enters_of_define {t : Text} (h : e.define t = .ok (n, e')) :
    n = definedName t ∧ e.Enters n e' := by
  unfold define at h
  split at h
  · cases h
  · rename_i params body hparse
    obtain ⟨hname, hsound⟩ := Written.name_and_sound_of_parse hparse
    cases h
    exact ⟨hname, Written.isName_of_parse hparse, .function (.ofBody params body), hsound, rfl⟩
  · rename_i hparse
    obtain ⟨e₁, hvalue, h⟩ := exists_of_map_eq_ok h
    cases h
    exact ⟨(Written.name_and_sound_of_parse hparse).1, enters_of_defineValue hvalue⟩

/-- All that a request which is not refused can come to. -/
inductive Served (e : Engine) (r : Request) : Answer → Engine → Prop where
  | text (t : Text) : Served e r (.text t) e
  | bound {n : Text} {e' : Engine} : r.target? = some n → e.Enters n e' → Served e r (.bound n) e'
  | done {n : Text} {e' : Engine} : r.target? = some n → e.Enters n e' → Served e r .done e'

theorem served_of_act {r : Request} {a : Answer} (h : e.act r = .ok (a, e')) :
    e.Served r a e' := by
  cases r with
  | process line =>
    obtain ⟨o, hline, h⟩ := exists_of_map_eq_ok h
    cases o with
    | code t =>
      cases h
      exact .text t
    | defined e₁ =>
      cases h
      obtain ⟨t, n, rfl, hdefine⟩ := process_eq_defined_iff.1 hline
      obtain ⟨rfl, henters⟩ := enters_of_define hdefine
      refine .done ?_ henters
      rw [Request.target?, Text.after?_eq_some_iff.2 rfl]
      rfl
  | define text =>
    obtain ⟨⟨n, e₁⟩, hdefine, h⟩ := exists_of_map_eq_ok h
    cases h
    obtain ⟨rfl, henters⟩ := enters_of_define hdefine
    exact .bound rfl henters
  | defineValue name text =>
    obtain ⟨e₁, hvalue, h⟩ := exists_of_map_eq_ok h
    cases h
    exact .done rfl (enters_of_defineValue hvalue)
  | expand text =>
    obtain ⟨t, -, h⟩ := exists_of_map_eq_ok h
    cases h
    exact .text t

theorem changes_serve (e : Engine) (r : Request) : e.Changes r (e.serve r) := by
  unfold serve
  cases hact : e.act r with
  | error c => rfl
  | ok p =>
    obtain ⟨a, e'⟩ := p
    cases served_of_act hact with
    | text t => rfl
    | bound htarget henters => exact ⟨htarget, henters.sets⟩
    | done htarget henters => exact ⟨_, htarget, henters.sets⟩

/-- Whatever a request is answered with, the table stays sound. -/
theorem sound_serve (h : e.table.Sound) (r : Request) : (e.serve r).2.table.Sound := by
  unfold serve
  cases hact : e.act r with
  | error c => exact h
  | ok p =>
    obtain ⟨a, e'⟩ := p
    cases served_of_act hact with
    | text t => exact h
    | bound _ henters => exact henters.sound h
    | done _ henters => exact henters.sound h

theorem sound_serveAll (h : e.table.Sound) (history : List Request) :
    (e.serveAll history).table.Sound := by
  induction history generalizing e with
  | nil => exact h
  | cons r history ih => exact ih (sound_serve h r)

/-! ### Requests by offsets -/

/-- Binds a name to a text, expanded by offsets. -/
def defineValue? (fuel : Nat) (e : Engine) (name text : Text) :
    Option (Except Error Unit × Engine) :=
  if isName name then
    (e.table.expand? e.limit fuel text).map fun
      | .error c => (.error c, e)
      | .ok t => (.ok (), e.bind name (.value t))
  else some (.error (.badName name), e)

/-- Binds the macro that the text after `#define` describes, read by offsets. -/
def define? (fuel : Nat) (e : Engine) (text : Text) : Option (Except Error Text × Engine) :=
  (Written.parse? text).bind fun
    | .error c => some (.error c, e)
    | .ok (.function name params body) =>
      (Function.ofBody? params body).map fun f => (.ok name, e.bind name (.function f))
    | .ok (.value name text) =>
      (e.defineValue? fuel name text).map fun (o, e') => (o.map fun _ => name, e')

/-- Handles one line, by offsets. -/
def process? (fuel : Nat) (e : Engine) (line : Text) : Option (Except Error Answer × Engine) :=
  if line.head? = some (byte '#') then
    if directive.isPrefixOf line then
      (line.slice? directive.length line.length).bind fun text =>
        (e.define? fuel text).map fun (o, e') => (o.map fun _ => .done, e')
    else (line.slice? 1 line.length).map fun text => (.error (.unknownDirective text), e)
  else (e.table.expand? e.limit fuel line).map fun o => (o.map .text, e)

/-- Serves a request by offsets, in so many steps of an expansion at most. -/
def serve? (fuel : Nat) (e : Engine) : Request → Option (Except Error Answer × Engine)
  | .process line => e.process? fuel line
  | .define text => (e.define? fuel text).map fun (o, e') => (o.map .bound, e')
  | .defineValue name text =>
    (e.defineValue? fuel name text).map fun (o, e') => (o.map fun _ => .done, e')
  | .expand text => (e.table.expand? e.limit fuel text).map fun o => (o.map .text, e)

theorem defineValue?_eq {fuel : Nat} {text : Text}
    (h : e.table.expand? e.limit fuel text = some (e.expand text)) (name : Text) :
    e.defineValue? fuel name text = some (e.settle ((e.defineValue name text).map ((), ·))) := by
  unfold defineValue? defineValue
  split
  · rw [h]
    cases e.expand text <;> rfl
  · rfl

theorem exists_define?_eq (e : Engine) (text : Text) :
    ∃ fuel, e.define? fuel text = some (e.settle (e.define text)) := by
  cases hparse : Written.parse text with
  | error c =>
    refine ⟨0, ?_⟩
    rw [define?, Written.parse?_eq, define, hparse]
    rfl
  | ok w =>
    cases w with
    | function name params body =>
      refine ⟨0, ?_⟩
      rw [define?, Written.parse?_eq, define, hparse, Option.bind_some]
      dsimp only
      rw [Function.ofBody?_eq]
      rfl
    | value name value =>
      obtain ⟨fuel, hfuel⟩ := e.table.exists_expand?_eq e.limit value
      refine ⟨fuel, ?_⟩
      rw [define?, Written.parse?_eq, define, hparse, Option.bind_some]
      dsimp only
      rw [defineValue?_eq hfuel]
      cases e.defineValue name value <;> rfl

theorem process_of_code {line : Text} (h : line.head? ≠ some (byte '#')) :
    e.process line = (e.expand line).map .code := by
  cases line with
  | nil => rfl
  | cons b r =>
    have hb : ¬ (b == byte '#') = true := fun hb => h (congrArg some (eq_of_beq hb))
    rw [process, if_neg hb]

theorem process_directive (e : Engine) (t : Text) :
    e.process (directive ++ t) = (e.define t).map fun p => .defined p.2 := by
  have hafter : Text.after? directive (directive ++ t) = some t := Text.after?_eq_some_iff.2 rfl
  have hsign : directive ++ t = byte '#' :: (Text.ascii "define" ++ t) := rfl
  rw [hsign] at hafter ⊢
  rw [process, if_pos (beq_self_eq_true _), hafter]

theorem process_of_unknown {r : Text} (h : ¬ directive <+: byte '#' :: r) :
    e.process (byte '#' :: r) = .error (.unknownDirective r) := by
  have hafter : Text.after? directive (byte '#' :: r) = none := by
    rw [Option.eq_none_iff_forall_ne_some]
    intro t ht
    exact h ⟨t, (Text.after?_eq_some_iff.1 ht).symm⟩
  rw [process, if_pos (beq_self_eq_true _), hafter]

theorem exists_process?_eq (e : Engine) (line : Text) :
    ∃ fuel, e.process? fuel line = some (e.serve (.process line)) := by
  by_cases hsign : line.head? = some (byte '#')
  · by_cases hdirective : directive <+: line
    · obtain ⟨t, rfl⟩ := hdirective
      obtain ⟨fuel, hfuel⟩ := exists_define?_eq e t
      refine ⟨fuel, ?_⟩
      have hslice : (directive ++ t).slice? directive.length (directive ++ t).length = some t :=
        Text.slice?_rest rfl rfl
      rw [process?, if_pos hsign, if_pos (List.isPrefixOf_iff_prefix.2 ⟨t, rfl⟩), hslice,
        Option.bind_some, hfuel, serve, act, process_directive]
      cases e.define t <;> rfl
    · refine ⟨0, ?_⟩
      obtain ⟨r, rfl⟩ := List.head?_eq_some_iff.1 hsign
      have hslice : Text.slice? (byte '#' :: r) 1 (byte '#' :: r).length = some r :=
        Text.slice?_rest (x := [byte '#']) rfl rfl
      rw [process?, if_pos hsign, if_neg (mt List.isPrefixOf_iff_prefix.1 hdirective), hslice,
        serve, act, process_of_unknown hdirective]
      rfl
  · obtain ⟨fuel, hfuel⟩ := e.table.exists_expand?_eq e.limit line
    refine ⟨fuel, ?_⟩
    rw [process?, if_neg hsign, hfuel, serve, act, process_of_code hsign, expand]
    cases e.table.expand e.limit line <;> rfl

theorem exists_serve?_eq (e : Engine) (r : Request) :
    ∃ fuel, e.serve? fuel r = some (e.serve r) := by
  cases r with
  | process line => exact exists_process?_eq e line
  | define text =>
    obtain ⟨fuel, hfuel⟩ := exists_define?_eq e text
    refine ⟨fuel, ?_⟩
    rw [serve?, hfuel, serve, act]
    cases e.define text <;> rfl
  | defineValue name text =>
    obtain ⟨fuel, hfuel⟩ := e.table.exists_expand?_eq e.limit text
    refine ⟨fuel, ?_⟩
    rw [serve?, defineValue?_eq hfuel, serve, act]
    cases e.defineValue name text <;> rfl
  | expand text =>
    obtain ⟨fuel, hfuel⟩ := e.table.exists_expand?_eq e.limit text
    refine ⟨fuel, ?_⟩
    rw [serve?, hfuel, serve, act, expand]
    cases e.table.expand e.limit text <;> rfl

/-- **An engine stays sound and fails no check.** After any requests to a new engine, refused or
not, every bound name is a name and every function has parameters that can be written and a neat
template. The next request changes at most the entry of the name it defines, and that only if it is
accepted; and it is served by offsets, with every cut and every argument within range. -/
theorem serves (limit : Int) (history : List Request) (r : Request) :
    let e := (new limit).serveAll history
    e.table.Sound ∧ e.Changes r (e.serve r) ∧ ∃ fuel, e.serve? fuel r = some (e.serve r) := by
  intro e
  exact ⟨sound_serveAll Table.sound_empty history, changes_serve e r, exists_serve?_eq e r⟩

end Engine

end Preassembler.Macro
