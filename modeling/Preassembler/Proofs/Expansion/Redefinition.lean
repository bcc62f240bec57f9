import Preassembler.Proofs.Expansion.Definitions
import Preassembler.Proofs.Expansion.Leftover

/-! Redefinitions reach no text that is already stored.

The text of a value is expanded when the value is defined. Under a table of values no bound name is
left in it, so it names at most the value itself and names that are still free. Later definitions of
names that were bound then do not touch either, whether they bind a value or a function: the tables
before and after them agree about everything the value leads to (`Engine.Later.agree`).

Main statement: what a value comes to survives such redefinitions (`Engine.expand_of_redefined`). -/
namespace Preassembler.Macro.Engine
variable {e e' e₁ e₂ : Engine} {among : Text → Prop}

/-- Successful definitions, one after the other, of names of a set. -/
inductive Later (among : Text → Prop) : Engine → Engine → Prop where
  | refl {e : Engine} : Later among e e
  | step {e e' e'' : Engine} {n} :
      among n → e.Defines n e' → Later among e' e'' → Later among e e''

/-- Definitions keep the limit and the bindings of all other names. -/
theorem Later.lookup_eq (h : Later among e e') {n : Text} (hn : ¬ among n) :
    e'.lookup n = e.lookup n := by
  induction h with
  | refl => rfl
  | @step e e' e'' m hm hdefines _ ih =>
    obtain ⟨-, d, rfl⟩ := hdefines.eq_bind
    have hne : n ≠ m := by
      intro heq
      exact hn (heq ▸ hm)
    rw [ih, lookup, bind, Dictionary.find?_insert, if_neg hne]
    rfl

theorem Later.limit_eq (h : Later among e e') : e'.limit = e.limit := by
  induction h with
  | refl => rfl
  | step _ hdefines _ ih =>
    obtain ⟨-, d, rfl⟩ := hdefines.eq_bind
    exact ih

/-- The line that defines a value stores the expansion of its text. -/
theorem exists_expand_of_process {t y body : Text} (hparse : Written.parse t = .ok (.value y body))
    (h : e.process (directive ++ t) = .ok (.defined e₁)) :
    isName y = true ∧ ∃ u, e.expand body = .ok u ∧ e₁ = e.bind y (.value u) := by
  obtain ⟨t', n, hline, hdefine⟩ := process_eq_defined_iff.1 h
  obtain rfl := List.append_cancel_left hline
  rw [define, hparse] at hdefine
  replace hdefine : (e.defineValue y body).map (fun e' => (y, e')) = .ok (n, e₁) := hdefine
  cases hvalue : e.defineValue y body with
  | error c =>
    rw [hvalue] at hdefine
    cases hdefine
  | ok e' =>
    rw [hvalue] at hdefine
    cases hdefine
    exact defineValue_eq_ok_iff.1 hvalue

/-- After a value is defined, definitions of names that were bound before leave alone what the value
leads to: itself, and names that were free. -/
theorem Later.agree {y u : Text}
    (h : Later (fun n => n ≠ y ∧ e.lookup n ≠ none) (e.bind y (.value u)) e₂)
    (hu : ∀ n ∈ names u, e.lookup n = none) :
    Agree e₂.table (e.bind y (.value u)).table fun n => n = y ∨ e.lookup n = none := by
  intro n hn
  have hkept : e₂.lookup n = (e.bind y (.value u)).lookup n := by
    apply h.lookup_eq
    intro hagain
    rcases hn with hsame | hfree
    · exact hagain.1 hsame
    · exact hagain.2 hfree
  have hbind : (e.bind y (.value u)).lookup n = if n = y then some (.value u) else e.lookup n :=
    Dictionary.find?_insert _ _ _ _
  by_cases hsame : n = y
  · rw [if_pos hsame] at hbind
    exact .inr ⟨u, hkept.trans hbind, hbind, fun m hm => .inr (hu m hm)⟩
  · rw [if_neg hsame] at hbind
    have hfree : e.lookup n = none := hn.resolve_left hsame
    exact .inl ⟨hkept.trans (hbind.trans hfree), hbind.trans hfree⟩

/-- **A redefinition is not retroactive.** Under a table of values, a line that defines `y` as a
value fixes what `y` comes to: after any further definitions, of values or functions, of names other
than `y` that were bound when the line was read, `y` comes to the same as right after the line. -/
theorem expand_of_redefined {t y body : Text} (hvalues : e.table.HoldsValues)
    (hparse : Written.parse t = .ok (.value y body))
    (hline : e.process (directive ++ t) = .ok (.defined e₁))
    (hlater : Later (fun n => n ≠ y ∧ e.lookup n ≠ none) e₁ e₂) : e₂.expand y = e₁.expand y := by
  obtain ⟨hname, u, hexpand, rfl⟩ := exists_expand_of_process hparse hline
  have hfree : ∀ n ∈ names u, e.lookup n = none := fun n hn =>
    hvalues.unbound (Table.noValue_of_expand hexpand n hn)
  rw [expand, expand, hlater.limit_eq]
  apply (hlater.agree hfree).expand
  intro n hn
  rw [names_of_isName hname] at hn
  exact .inl (List.mem_singleton.1 hn)

open Text (ascii) in
/-- A value stored when another one stood for a text; later that one becomes a function which leads
back. -/
theorem expand_of_redefined_function :
    let e := (Engine.new 0).bind (ascii "A") (.value (ascii "x"))
    let e₁ := e.bind (ascii "Y") (.value (ascii "x+C"))
    let e₂ := e₁.bind (ascii "A") (.function (.ofBody [ascii "p"] (ascii "p Y")))
    e.process (ascii "#define Y A+C") = .ok (.defined e₁) ∧
      e₁.define (ascii " A(p) p Y") = .ok (ascii "A", e₂) ∧
      e₂.expand (ascii "Y") = e₁.expand (ascii "Y") := by
  intro e e₁ e₂
  have hvalues : e.table.HoldsValues := by decide
  have hparse : Written.parse (ascii " Y A+C") = .ok (.value (ascii "Y") (ascii "A+C")) := by cbv
  have hline : e.process (directive ++ ascii " Y A+C") = .ok (.defined e₁) := by cbv
  have hfunction : e₁.define (ascii " A(p) p Y") = .ok (ascii "A", e₂) := by
    have hagain : Written.parse (ascii " A(p) p Y") =
        .ok (.function (ascii "A") [ascii "p"] (ascii "p Y")) := by cbv
    rw [define, hagain]
  have hbound : e.lookup (ascii "A") ≠ none := by decide
  have hlater : Later (fun n => n ≠ ascii "Y" ∧ e.lookup n ≠ none) e₁ e₂ :=
    .step ⟨by decide, hbound⟩ (.written hfunction) .refl
  exact ⟨hline, hfunction, expand_of_redefined hvalues hparse hline hlater⟩

end Preassembler.Macro.Engine
