import Preassembler.Macro.Engine

/-! Engines that definitions lead to.

Every definition, predefined or in a directive, binds one name and keeps the limit
(`Engine.Defines.eq_bind`). So what holds of the empty table and survives the binding of a name holds
of every engine that definitions lead to: all bound names are names (`Engine.Reachable.isName`). -/
namespace Preassembler.Macro.Engine

/-! ### Written definitions -/

/-- The name that a written definition binds. -/
def Written.name : Written → Text
  | function name _ _ => name
  | value name _ => name

theorem Written.isName_of_parse {t : Text} {w : Written} (h : Written.parse t = .ok w) :
    isName w.name = true := by
  have hall : (t.trim.takeWhile isNameByte).all isNameByte = true := List.all_takeWhile
  unfold Written.parse at h
  dsimp only at h
  split at h
  · cases h
  · rename_i hne
    have hname : isName (t.trim.takeWhile isNameByte) = true := by
      simpa [isName, hall] using hne
    split at h
    · cases h
      exact hname
    · split at h
      · split at h
        · cases h
        · split at h
          · cases h
          · cases h
            exact hname
      · cases h
        exact hname

/-! ### One definition -/

variable {e e' : Engine} {n : Text}

/-- A definition that binds a name takes one engine to another. -/
inductive Defines : Engine → Text → Engine → Prop where
  /-- A value, as macros are predefined. -/
  | value {e e' : Engine} {n text} : e.defineValue n text = .ok e' → Defines e n e'
  /-- The text after `#define`. -/
  | written {e e' : Engine} {n t} : e.define t = .ok (n, e') → Defines e n e'

theorem defineValue_eq_ok_iff {text : Text} : e.defineValue n text = .ok e' ↔
    isName n = true ∧ ∃ u, e.expand text = .ok u ∧ e' = e.bind n (.value u) := by
  unfold defineValue
  cases hname : isName n with
  | false => simp
  | true =>
    cases e.expand text with
    | error c => simp [Except.map]
    | ok u => simp [Except.map, eq_comm]

/-- A definition binds a name and changes nothing else. -/
theorem Defines.eq_bind (h : e.Defines n e') : isName n = true ∧ ∃ d, e' = e.bind n d := by
  cases h with
  | value h =>
    obtain ⟨hname, u, -, he⟩ := defineValue_eq_ok_iff.1 h
    exact ⟨hname, _, he⟩
  | written h =>
    unfold define at h
    split at h
    · cases h
    · rename_i hparse
      cases h
      exact ⟨Written.isName_of_parse hparse, _, rfl⟩
    · rename_i n text hparse
      cases hvalue : e.defineValue n text with
      | error c =>
        rw [hvalue] at h
        cases h
      | ok e₁ =>
        rw [hvalue] at h
        cases h
        obtain ⟨hname, u, -, he⟩ := defineValue_eq_ok_iff.1 hvalue
        exact ⟨hname, _, he⟩

/-- A line is a definition exactly if it begins with the word for it and the rest is accepted. -/
theorem process_eq_defined_iff {line : Text} : e.process line = .ok (.defined e') ↔
    ∃ t n, line = directive ++ t ∧ e.define t = .ok (n, e') := by
  constructor
  · intro h
    unfold process at h
    split at h
    · cases hexpand : e.expand [] <;> rw [hexpand] at h <;> cases h
    · rename_i b r
      split at h
      · split at h
        · rename_i t hafter
          cases hdefine : e.define t with
          | error c =>
            rw [hdefine] at h
            cases h
          | ok p =>
            rw [hdefine] at h
            cases h
            exact ⟨t, p.1, Text.after?_eq_some_iff.1 hafter, hdefine⟩
        · cases h
      · cases hexpand : e.expand (b :: r) <;> rw [hexpand] at h <;> cases h
  · intro h
    obtain ⟨t, n, rfl, hdefine⟩ := h
    have hafter : Text.after? directive (directive ++ t) = some t := Text.after?_eq_some_iff.2 rfl
    have hsign : directive ++ t = Text.byte '#' :: (Text.ascii "define" ++ t) := rfl
    rw [hsign] at hafter ⊢
    simp only [process, beq_self_eq_true, if_true, hafter, hdefine]
    rfl

/-! ### Definitions one after the other -/

/-- What definitions lead to from an engine without macros. -/
inductive Reachable : Engine → Prop where
  | new (limit : Int) : Reachable (.new limit)
  | define {e e' : Engine} {n} : Reachable e → e.Defines n e' → Reachable e'

/-- Every bound name is a name. -/
theorem Reachable.isName (h : e.Reachable) {d : Definition} (hd : e.lookup n = some d) :
    isName n = true := by
  induction h with
  | new => cases hd
  | @define e e' m _ hdefines ih =>
    obtain ⟨hm, d', rfl⟩ := hdefines.eq_bind
    rw [lookup, bind, Dictionary.find?_insert] at hd
    by_cases hn : n = m
    · rw [hn]
      exact hm
    · rw [if_neg hn] at hd
      exact ih hd

end Preassembler.Macro.Engine
