import Preassembler.Line
import Preassembler.Macro.Engine
import Preassembler.Proofs.Expansion.Returns

/-! Engines with a raised limit.

Two engines that hold the same macros and differ in their limits answer alike, as long as the lower
limit is not exceeded. `Outlasts` says this of two computations: the first exceeds its limit, or
both fail with the same error, or both succeed with results in a relation. Expansion under a raised
limit takes the same steps (`Scan.step_raised`), and definitions keep the tables equal
(`Engine.Raised.process`), so the two engines stay alike from line to line. -/
namespace Preassembler.Macro

/-! ### Computations alike up to the limit -/

/-- The first computation ends with an `excess`, or both fail alike, or both succeed with results in
a relation. -/
inductive Outlasts {ε α β : Type} (excess : ε → Prop) (R : α → β → Prop) :
    Except ε α → Except ε β → Prop where
  | exceeded {e y} : excess e → Outlasts excess R (.error e) y
  | failed {e} : Outlasts excess R (.error e) (.error e)
  | done {a b} : R a b → Outlasts excess R (.ok a) (.ok b)

namespace Outlasts
variable {ε α β γ δ : Type} {excess : ε → Prop} {R : α → β → Prop} {S : γ → δ → Prop}
  {x : Except ε α} {y : Except ε β}

theorem of_eq {x y : Except ε α} (h : x = y) : Outlasts excess Eq x y := by
  subst h
  cases x with
  | error e => exact .failed
  | ok a => exact .done rfl

theorem map (h : Outlasts excess R x y) {f : α → γ} {g : β → δ}
    (hfg : ∀ a b, R a b → S (f a) (g b)) : Outlasts excess S (x.map f) (y.map g) := by
  cases h with
  | exceeded he => exact .exceeded he
  | failed => exact .failed
  | done hab => exact .done (hfg _ _ hab)

end Outlasts

/-- An error that a higher limit might have avoided. -/
def Error.IsExcess (e : Error) : Prop := e.kind = .expansionTooDeep

/-! ### Expansion -/

theorem Matches.refl {σ : Type} {R : σ → σ → Prop} (h : ∀ s, R s s) (p : Progress σ) :
    Matches R p p := by
  cases p with
  | finished t => exact .finished
  | failed e => exact .failed
  | next s => exact .next (h s)

/-- A step that the lower limit does not stop is the step under the higher one. -/
theorem Scan.step_raised {table : Table} {limit limit' : Nat} (hle : limit ≤ limit') {s : Scan}
    (h : ∀ name, s.step table limit ≠ .failed (.tooDeep name limit)) :
    s.step table limit' = s.step table limit := by
  generalize hp : s.step table limit = p at h
  cases step_of_eq hp with
  | finish hn => rw [step, if_pos hn]
  | pass hn hr => simp only [step, hn, hr, Bool.false_eq_true, if_false]
  | mismatch hn hr => simp only [step, hn, hr, Bool.false_eq_true, if_false]
  | tooDeep => exact absurd rfl (h s.name)
  | @put size text rest hn hr hd =>
    simp only [step, hn, hr, Bool.false_eq_true, if_false]
    show (if limit' < depthIn (s.outer size) then _ else _) = _
    rw [if_neg (by omega)]
    rfl

theorem Table.expand_raised (table : Table) {limit limit' : Nat} (hle : limit ≤ limit') (t : Text) :
    Outlasts Error.IsExcess Eq (table.expand limit t) (table.expand limit' t) := by
  obtain ⟨n, hn⟩ := table.exists_returns_expand limit t
  obtain ⟨m, hm⟩ := table.exists_returns_expand limit' t
  by_cases hdeep : ∃ name, table.expand limit t = .error (.tooDeep name limit)
  · obtain ⟨name, hname⟩ := hdeep
    rw [hname]
    exact .exceeded rfl
  · refine .of_eq ?_
    have hsame : Returns (Scan.step table limit') n (.start t) (table.expand limit t) := by
      refine hn.transfer (R := fun _ => Eq) ?_ rfl
      rintro n s _ rfl hs
      rw [Scan.step_raised hle fun name hstep => hdeep ⟨name, (hs.unique (.failed hstep)).2⟩]
      exact .refl (fun _ => rfl) _
    exact (hsame.unique hm).2

/-! ### Engines -/

namespace Engine

/-- The same macros under a limit that is not lower. -/
structure Raised (e e' : Engine) : Prop where
  table : e'.table = e.table
  limit : e.limit ≤ e'.limit

namespace Raised
variable {e e' : Engine}

theorem new {d d' : Int} (hpos : 0 < d) (hle : d ≤ d') : Raised (.new d) (.new d') where
  table := rfl
  limit := by
    simp only [Engine.new, effectiveLimit]
    rw [if_neg (by omega), if_neg (by omega)]
    omega

theorem bind (h : Raised e e') (name : Text) (d : Definition) :
    Raised (e.bind name d) (e'.bind name d) where
  table := by simp only [Engine.bind, h.table]
  limit := h.limit

theorem expand (h : Raised e e') (t : Text) :
    Outlasts Error.IsExcess Eq (e.expand t) (e'.expand t) := by
  rw [Engine.expand, Engine.expand, h.table]
  exact e.table.expand_raised h.limit t

theorem defineValue (h : Raised e e') (name text : Text) :
    Outlasts Error.IsExcess Raised (e.defineValue name text) (e'.defineValue name text) := by
  unfold Engine.defineValue
  split
  · refine (h.expand text).map ?_
    rintro t _ rfl
    exact h.bind name (.value t)
  · exact .failed

theorem define (h : Raised e e') (t : Text) :
    Outlasts Error.IsExcess (fun x y => Raised x.2 y.2) (e.define t) (e'.define t) := by
  unfold Engine.define
  split
  · exact .failed
  · exact .done (h.bind _ _)
  · exact (h.defineValue _ _).map fun _ _ hd => hd

/-- The same code, or engines that are alike again. -/
inductive Answers : Engine.Outcome → Engine.Outcome → Prop where
  | defined {d d' : Engine} : Raised d d' → Answers (.defined d) (.defined d')
  | code {t : Text} : Answers (.code t) (.code t)

/-- Engines that are alike treat a line alike, up to the lower limit. -/
theorem process (h : Raised e e') (line : Text) :
    Outlasts Error.IsExcess Answers (e.process line) (e'.process line) := by
  have hcode : Outlasts Error.IsExcess Answers ((e.expand line).map .code)
      ((e'.expand line).map .code) := by
    refine (h.expand line).map ?_
    rintro t _ rfl
    exact .code
  unfold Engine.process
  split
  · exact hcode
  · split
    · split
      · exact (h.define _).map fun _ _ hd => Answers.defined hd
      · exact .failed
    · exact hcode

end Raised

end Engine

end Preassembler.Macro
