import Preassembler.Line
import Preassembler.Proofs.Expansion.Functions
import Preassembler.Proofs.Expansion.Returns
import Preassembler.Proofs.Text.WhiteSpace

/-! The grammar of definitions.

What stands after `#define`, without the white space around it, describes a macro (`Describes`) or
is refused for one of three reasons (`Refused`). Both relations are about the parts of the text, and
every text falls under one of them (`refused_or_describes`); what is read is what they say
(`parse_of_refused`, `parse_of_describes`).

Main statement: a definition is refused exactly if the grammar refuses it, else it binds what it
describes, and a function that is printed is read back (`Engine.define_grammar`). -/
namespace Preassembler.Macro
open Text (byte Trimmed)

/-! ### Words between parentheses -/

namespace Spaced
variable {args : List Text} {b : UInt8} {t : Text}

/-- Blanks in front of the first argument can be left out. -/
theorem of_cons (h : Spaced args (b :: t)) (hb : isGapByte b = true) : Spaced args t := by
  generalize hinner : b :: t = inner at h
  cases h with
  | @last before a behind hbefore ha hbehind =>
    cases before with
    | nil =>
      obtain ⟨c, a, rfl⟩ := List.exists_cons_of_ne_nil ha.ne_nil
      obtain ⟨rfl, -⟩ := List.cons.inj hinner
      simp [ha.dense b List.mem_cons_self] at hb
    | cons c before =>
      obtain ⟨rfl, rfl⟩ := List.cons.inj hinner
      exact .last (fun d hd => hbefore d (List.mem_cons_of_mem b hd)) ha hbehind
  | @more before a between args rest hbefore ha hbetween hne hrest =>
    cases before with
    | nil =>
      obtain ⟨c, a, rfl⟩ := List.exists_cons_of_ne_nil ha.ne_nil
      obtain ⟨rfl, -⟩ := List.cons.inj hinner
      simp [ha.dense b List.mem_cons_self] at hb
    | cons c before =>
      obtain ⟨rfl, rfl⟩ := List.cons.inj hinner
      exact .more (fun d hd => hbefore d (List.mem_cons_of_mem b hd)) ha hbetween hne hrest

end Spaced

/-- What stands between parentheses is blank or holds arguments. -/
theorem blanks_or_spaced {inner : Text} (hclose : byte ')' ∉ inner) :
    Blanks inner ∨ ∃ args, Spaced args inner := by
  induction inner using words_induction isGapByte with
  | gap gap hgap => exact .inl hgap
  | word gap word behind hgap hne hword hbehind ih =>
    simp only [List.mem_append, not_or] at hclose
    have harg : IsArgument word := ⟨hne, hword, hclose.2.1⟩
    refine .inr ?_
    rcases ih hclose.2.2 with hblank | ⟨args, hargs⟩
    · exact ⟨[word], .last hgap harg hblank⟩
    · obtain ⟨b, behind, rfl⟩ := List.exists_cons_of_ne_nil hargs.ne_nil
      have hb : isGapByte b = true := hbehind b rfl
      have hbetween : Blanks [b] := List.forall_mem_singleton.2 hb
      exact ⟨word :: args, .more hgap harg hbetween (List.cons_ne_nil b []) (hargs.of_cons hb)⟩

namespace Engine.Written

/-! ### Definitions -/

/-- The texts that define nothing, and why. -/
inductive Refused : Text → Error → Prop where
  /-- No name stands at the front. -/
  | nameless {d} : Apart d → Refused d (.missingName d)
  /-- Parameters are begun and not ended. -/
  | unclosed {name gap tail} : isName name = true → Blanks gap → byte ')' ∉ tail →
      Refused (name ++ (gap ++ byte '(' :: tail)) (.openParameters name)
  /-- Nothing stands between the parentheses. -/
  | empty {name gap inner tail} : isName name = true → Blanks gap → Blanks inner →
      Refused (name ++ (gap ++ byte '(' :: (inner ++ byte ')' :: tail))) (.noParameters name)

/-- The texts that define a macro, and what they describe. -/
inductive Describes : Text → Written → Prop where
  /-- Parameters between parentheses, and the body behind them. -/
  | function {name gap params inner after body} : isName name = true → Blanks gap →
      Spaced params inner → Blanks after → (∀ b ∈ body.head?, isGapByte b = false) →
      Describes (name ++ (gap ++ byte '(' :: (inner ++ byte ')' :: (after ++ body))))
        (.function name params body)
  /-- A text that does not begin with a parenthesis. -/
  | value {name gap text} : isName name = true → Apart (gap ++ text) → Blanks gap →
      (∀ b ∈ text.head?, isGapByte b = false ∧ b ≠ byte '(') →
      Describes (name ++ (gap ++ text)) (.value name text)

theorem Refused.kind {d : Text} {c : Error} (h : Refused d c) : c.kind = .invalidDefinition := by
  cases h <;> rfl

/-- Every text is refused or describes a macro. -/
theorem refused_or_describes (d : Text) : (∃ c, Refused d c) ∨ ∃ w, Describes d w := by
  obtain ⟨name, rest, rfl, hname, hrest⟩ := exists_run isNameByte d
  by_cases hne : name = []
  · subst hne
    exact .inl ⟨_, .nameless hrest⟩
  · have hisName : isName name = true := by simpa [isName, hne] using hname
    obtain ⟨gap, text, rfl, hgap, htext⟩ := exists_run isGapByte rest
    by_cases hopen : text.head? = some (byte '(')
    · obtain ⟨tail, rfl⟩ := List.head?_eq_some_iff.1 hopen
      by_cases hclose : byte ')' ∈ tail
      · obtain ⟨inner, behind, rfl, hinner⟩ := List.eq_append_cons_of_mem hclose
        rcases blanks_or_spaced hinner with hblank | ⟨params, hparams⟩
        · exact .inl ⟨_, .empty hisName hgap hblank⟩
        · obtain ⟨after, body, rfl, hafter, hbody⟩ := exists_run isGapByte behind
          exact .inr ⟨_, .function hisName hgap hparams hafter hbody⟩
      · exact .inl ⟨_, .unclosed hisName hgap hclose⟩
    · refine .inr ⟨_, .value hisName hrest hgap fun b hb => ⟨htext b hb, ?_⟩⟩
      rintro rfl
      exact hopen hb

/-! ### Reading -/

variable {t name gap : Text}

theorem parse_of_name {rest : Text} (ht : t.trim = name ++ rest) (hname : isName name = true)
    (hrest : Apart rest) : parse t = ofName name rest := by
  have hbytes : ∀ b ∈ name, isNameByte b = true := fun b hb => byte_of_isName hname hb
  rw [parse_eq, definedName, ht, takeWhile_front hbytes hrest, dropWhile_front hbytes hrest,
    if_neg (by simpa using ne_nil_of_isName hname)]

theorem parse_of_open {tail : Text} (ht : t.trim = name ++ (gap ++ byte '(' :: tail))
    (hname : isName name = true) (hgap : Blanks gap) :
    parse t = match Text.cut? (byte ')') tail with
      | none => .error (.openParameters name)
      | some (inner, after) =>
        if (arguments inner).isEmpty then .error (.noParameters name)
        else .ok (.function name (arguments inner) (after.dropWhile isGapByte)) := by
  have hopen : ∀ b ∈ (byte '(' :: tail).head?, isGapByte b = false := by
    intro b hb
    obtain rfl := Option.some.inj hb
    decide
  have hapart : Apart (gap ++ byte '(' :: tail) := by
    refine apart_append (fun b hb => ?_) (apart_cons (by decide) tail)
    exact not_name_of_gap (hgap b (List.mem_of_mem_head? hb))
  rw [parse_of_name ht hname hapart, ofName, dropWhile_front hgap hopen]
  refine (if_pos (beq_self_eq_true _)).trans ?_
  cases Text.cut? (byte ')') tail <;> rfl

theorem parse_of_list {inner behind : Text}
    (ht : t.trim = name ++ (gap ++ byte '(' :: (inner ++ byte ')' :: behind)))
    (hname : isName name = true) (hgap : Blanks gap) (hclose : byte ')' ∉ inner) :
    parse t = if (arguments inner).isEmpty then .error (.noParameters name)
      else .ok (.function name (arguments inner) (behind.dropWhile isGapByte)) := by
  have hcut : Text.cut? (byte ')') (inner ++ byte ')' :: behind) = some (inner, behind) :=
    Text.cut?_eq_some_iff.2 ⟨rfl, hclose⟩
  rw [parse_of_open ht hname hgap, hcut]

theorem parse_of_refused {c : Error} (h : Refused t.trim c) : parse t = .error c := by
  generalize hd : t.trim = d at h
  cases h with
  | nameless hapart =>
    have hname : definedName t = [] := by
      rw [definedName, hd]
      exact takeWhile_front (List.forall_mem_nil _) hapart
    rw [parse_eq, hname, hd]
    rfl
  | unclosed hname hgap hclose =>
    rw [parse_of_open hd hname hgap, Text.cut?_eq_none_iff.2 hclose]
  | empty hname hgap hinner =>
    rw [parse_of_list hd hname hgap (close_not_mem_blanks hinner), arguments_blanks hinner]
    rfl

theorem parse_of_describes {w : Written} (h : Describes t.trim w) : parse t = .ok w := by
  generalize hd : t.trim = d at h
  cases h with
  | function hname hgap hparams hafter hbody =>
    rw [parse_of_list hd hname hgap hparams.close_not_mem, hparams.arguments_eq,
      dropWhile_front hafter hbody, if_neg]
    cases hparams <;> exact nofun
  | @value name gap text hname hapart hgap htext =>
    rw [parse_of_name hd hname hapart, ofName,
      dropWhile_front hgap fun b hb => (htext b hb).1]
    cases text with
    | nil => rfl
    | cons b text =>
      dsimp only
      rw [if_neg (by simpa using (htext b rfl).2)]

/-! ### Printing -/

/-- A definition with its parameters between parentheses, a blank between two of them, and a blank
in front of the body. -/
def printed (name : Text) (params : List Text) (body : Text) : Text :=
  name ++ byte '(' :: ([byte ' '].intercalate params ++ byte ')' :: byte ' ' :: body)

theorem spaced_intercalate {params : List Text} (hne : params ≠ [])
    (hparams : ∀ p ∈ params, IsArgument p) : Spaced params ([byte ' '].intercalate params) := by
  induction params with
  | nil => exact absurd rfl hne
  | cons p rest ih =>
    obtain ⟨hp, hrest⟩ := List.forall_mem_cons.1 hparams
    cases rest with
    | nil =>
      have hlast : Spaced [p] ([] ++ (p ++ [])) := .last (by decide) hp (by decide)
      simpa using hlast
    | cons q rest =>
      have hmore : Spaced (p :: q :: rest)
          ([] ++ (p ++ ([byte ' '] ++ [byte ' '].intercalate (q :: rest)))) :=
        .more (by decide) hp (by decide) (by decide) (ih (List.cons_ne_nil q rest) hrest)
      simpa [List.intercalate] using hmore

theorem not_name_of_blank {m : Text} (hm : m ∈ Text.blanks) {b : UInt8} (hb : b ∈ m) :
    isNameByte b = false := by
  have hall : (Text.blanks.all fun m => m.all fun b => !isNameByte b) = true := by decide
  simpa using List.all_eq_true.1 (List.all_eq_true.1 hall m hm) b hb

theorem blank_of_gap {b : UInt8} (h : isGapByte b = true) : [b] ∈ Text.blanks := by
  have hall : ∀ n : Fin 256, isGapByte (.ofNat n) = true → [UInt8.ofNat n] ∈ Text.blanks := by
    decide +kernel
  have hb := hall ⟨b.toNat, b.toNat_lt⟩
  rw [UInt8.ofNat_toNat] at hb
  exact hb h

/-- Behind a name and parameters a body keeps its end; of no body nothing is left. -/
theorem trim_printed {name inner body : Text} (hname : isName name = true) (hbody : Trimmed body) :
    (name ++ byte '(' :: (inner ++ byte ')' :: byte ' ' :: body)).trim =
      name ++ byte '(' :: (inner ++ byte ')' :: (if body = [] then [] else byte ' ' :: body)) := by
  obtain ⟨a, r, rfl⟩ := List.exists_cons_of_ne_nil (ne_nil_of_isName hname)
  have hfirst : ∀ m ∈ Text.blanks, a ∉ m := by
    intro m hm ha
    have hout := not_name_of_blank hm ha
    rw [byte_of_isName hname List.mem_cons_self] at hout
    cases hout
  have hlast : ∀ m ∈ Text.blanks, byte ')' ∉ m := by decide
  have hfront : Trimmed (a :: (r ++ byte '(' :: (inner ++ [byte ')']))) :=
    Text.trimmed_of_ends hfirst hlast rfl (u := a :: (r ++ byte '(' :: inner)) (by simp)
  have hparts : ∀ x : Text, a :: r ++ byte '(' :: (inner ++ byte ')' :: x) =
      a :: (r ++ byte '(' :: (inner ++ [byte ')'])) ++ x := by simp
  rw [hparts, hparts]
  by_cases hnil : body = []
  · rw [if_pos hnil, hnil, Text.trim_append_blank (by decide), List.append_nil,
      Text.trim_eq_self hfront]
  · rw [if_neg hnil, Text.trim_eq_self]
    exact Text.trimmed_append_space hfront hbody (List.cons_ne_nil _ _) hnil

theorem describes_printed {name body : Text} {params : List Text} (hname : isName name = true)
    (hne : params ≠ []) (hparams : ∀ p ∈ params, IsArgument p) (hbody : Trimmed body) :
    Describes (printed name params body).trim (.function name params body) := by
  have hspaced := spaced_intercalate hne hparams
  rw [printed, trim_printed hname hbody]
  have hafter : Blanks (if body = [] then [] else [byte ' ']) := by split <;> decide
  have hhead : ∀ b ∈ body.head?, isGapByte b = false := by
    intro b hb
    obtain ⟨r, rfl⟩ := List.head?_eq_some_iff.1 hb
    cases hgap : isGapByte b with
    | false => rfl
    | true => exact absurd (List.prefix_append [b] r) (hbody [b] (blank_of_gap hgap)).1
  have hgap : Blanks [] := by decide
  have hdescribes := Describes.function hname hgap hspaced hafter hhead
  split at hdescribes <;> simpa [*] using hdescribes

end Engine.Written

namespace Engine

/-- An expansion that fails is no invalid definition. -/
theorem kind_ne_of_expand {e : Engine} {t : Text} {c : Error} (h : e.expand t = .error c) :
    c.kind ≠ .invalidDefinition := by
  obtain ⟨n, hn⟩ := Table.exists_returns_expand e.table e.limit t
  rw [show e.table.expand e.limit t = .error c from h] at hn
  rcases Scan.error_of_returns hn with ⟨name, expected, given, rfl⟩ | ⟨name, rfl⟩ <;> exact nofun

section Define
variable {e : Engine} {t : Text}

theorem define_of_refused {c : Error} (h : Written.Refused t.trim c) : e.define t = .error c := by
  rw [define, Written.parse_of_refused h]

theorem define_of_function {name body : Text} {params : List Text}
    (h : Written.Describes t.trim (.function name params body)) :
    e.define t = .ok (name, e.bind name (.function (.ofBody params body))) := by
  rw [define, Written.parse_of_describes h]

theorem define_of_value {name text : Text} (h : Written.Describes t.trim (.value name text)) :
    e.define t = (e.expand text).map fun u => (name, e.bind name (.value u)) := by
  have hparse := Written.parse_of_describes h
  have hname : isName name = true := Written.isName_of_parse hparse
  rw [define, hparse]
  dsimp only
  rw [defineValue, if_pos hname]
  cases e.expand text <;> rfl

theorem refused_of_define {c : Error} (h : e.define t = .error c)
    (hkind : c.kind = .invalidDefinition) : Written.Refused t.trim c := by
  rcases Written.refused_or_describes t.trim with ⟨c', hc⟩ | ⟨w, hw⟩
  · rw [define_of_refused hc] at h
    cases h
    exact hc
  · cases w with
    | function name params body =>
      rw [define_of_function hw] at h
      cases h
    | value name text =>
      rw [define_of_value hw] at h
      cases hexpand : e.expand text with
      | error c' =>
        rw [hexpand] at h
        cases h
        exact absurd hkind (kind_ne_of_expand hexpand)
      | ok u =>
        rw [hexpand] at h
        cases h

end Define

/-- **Definitions are read by their grammar.** A definition is refused as invalid exactly if the
grammar refuses it, and with the reason it gives. Any other describes a macro and binds its name: to
the function with the parameters and the body that are written, or to the expansion of the text, if
that does not fail. So a function that is printed is read back. -/
theorem define_grammar (e : Engine) (t : Text) :
    (∀ c, (e.define t = .error c ∧ c.kind = .invalidDefinition) ↔ Written.Refused t.trim c) ∧
      ((∃ c, Written.Refused t.trim c) ∨ ∃ w, Written.Describes t.trim w) ∧
      (∀ name params body, Written.Describes t.trim (.function name params body) →
        e.define t = .ok (name, e.bind name (.function (.ofBody params body)))) ∧
      (∀ name text, Written.Describes t.trim (.value name text) →
        e.define t = (e.expand text).map fun u => (name, e.bind name (.value u))) ∧
      ∀ name params body, isName name = true → params ≠ [] → (∀ p ∈ params, IsArgument p) →
        Trimmed body → e.define (Written.printed name params body) =
          .ok (name, e.bind name (.function (.ofBody params body))) := by
  refine ⟨fun c => ⟨fun ⟨hdefine, hkind⟩ => refused_of_define hdefine hkind, fun h => ?_⟩,
    Written.refused_or_describes t.trim, fun _ _ _ => define_of_function,
    fun _ _ => define_of_value, fun name params body hname hne hparams hbody => ?_⟩
  · exact ⟨define_of_refused h, h.kind⟩
  · exact define_of_function (Written.describes_printed hname hne hparams hbody)

open Text (ascii) in
/-- A parameter with a parenthesis, and a body that begins with one. -/
theorem define_grammar_parenthesis :
    Written.printed (ascii "F") [ascii "a", ascii "(b"] (ascii ")a") = ascii "F(a (b) )a" ∧
      (Engine.new 0).define (ascii "F(a (b) )a") = .ok (ascii "F", (Engine.new 0).bind (ascii "F")
        (.function (.ofBody [ascii "a", ascii "(b"] (ascii ")a")))) := by
  have hprinted : Written.printed (ascii "F") [ascii "a", ascii "(b"] (ascii ")a") =
      ascii "F(a (b) )a" := by decide
  have hbody : Trimmed (ascii ")a") :=
    show ∀ m ∈ Text.blanks, ¬ m <+: ascii ")a" ∧ ¬ m <:+ ascii ")a" by decide
  obtain ⟨-, -, -, -, hread⟩ := define_grammar (.new 0) []
  have hdefine := hread (ascii "F") [ascii "a", ascii "(b"] (ascii ")a") (by decide) (by decide)
    (by decide) hbody
  rw [hprinted] at hdefine
  exact ⟨hprinted, hdefine⟩

end Engine

end Preassembler.Macro
