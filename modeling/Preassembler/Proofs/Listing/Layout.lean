import Mathlib
import Preassembler.Proofs.Listing.Instruction
import Preassembler.Proofs.Pipeline.Streaming

/-! Well-formed listings.

A listed line is a label field of fixed width, a blank and an instruction. The field is measured in
code points, and the blanks that fill it up count one each, whatever comes before them
(`width_append_blanks`). What holds of the instruction is followed through the stages that shape it
(`Stage.Ensures`). The last stage lays the lines out and is the only one that lists an empty
instruction, for a label that is left over at the end.

Main statement: every listing is well formed (`process_well_formed`). -/
namespace Preassembler
open Text (byte)

/-! ### Widths -/

namespace Text
open Utf8

/-- A byte that continues no code point is not drawn into the symbol before it. -/
theorem Utf8.next_append {b : UInt8} (hb : isTail b = false) (a : UInt8) (r rest : Text) :
    next a (r ++ b :: rest) = ((next a r).1, (next a r).2 ++ b :: rest) := by
  -- A symbol has at most three bytes behind its first one.
  rcases r with _ | ⟨b₁, _ | ⟨b₂, _ | ⟨b₃, r⟩⟩⟩ <;>
    rcases rest with _ | ⟨c₁, _ | ⟨c₂, rest⟩⟩ <;> grind [next, opensTwo, opensThree, opensFour]

theorem symbols_ascii {b : UInt8} (hb : b < 0x80) (rest : Text) :
    symbols (b :: rest) = .point b.toNat [b] :: symbols rest := by
  have hnext : next b rest = (.point b.toNat [b], rest) := by
    unfold next
    exact if_pos hb
  rw [symbols, symbolsFrom, hnext]
  exact Utf8.symbolsFrom_append [] _ rest

/-- In front of a byte that continues no code point a text can be cut. -/
theorem symbols_append {b : UInt8} (hb : Utf8.isTail b = false) (t rest : Text) :
    symbols (t ++ b :: rest) = symbols t ++ symbols (b :: rest) := by
  have h : ∀ seen, symbolsFrom seen (t ++ b :: rest) = symbolsFrom seen t ++ symbols (b :: rest) := by
    intro seen
    fun_induction symbolsFrom seen t with
    | case1 seen => exact Utf8.symbolsFrom_append [] seen _
    | case2 seen a r ih => rw [List.cons_append, symbolsFrom, Utf8.next_append hb, ih]
  exact h []

theorem Utf8.length_symbolsFrom_le (seen : List Symbol) (t : Text) :
    (symbolsFrom seen t).length ≤ seen.length + t.length := by
  fun_induction symbolsFrom seen t with
  | case1 seen => simp
  | case2 seen a r ih =>
    have hnext := next_length a r
    simp only [List.length_cons] at ih ⊢
    omega

theorem width_le_length (t : Text) : t.width ≤ t.length := by
  simpa [width, symbols] using length_symbolsFrom_le [] t

theorem width_append_blanks (t : Text) (k : Nat) :
    width (t ++ List.replicate k (byte ' ')) = t.width + k := by
  induction k with
  | zero => simp
  | succ k ih =>
    rw [List.replicate_succ', ← List.append_assoc, width, symbols_append (by decide),
      symbols_ascii (by decide), List.length_append]
    simp only [symbols, symbolsFrom]
    exact congrArg (· + 1) ih

end Text

/-! ### Lines of a listing -/

/-- A listed line taken apart: a label that fits, blanks that fill its field up to `width` code
points, one more blank and an instruction. -/
structure Layout (width : Nat) (t label instruction : Text) : Prop where
  fits : label.length ≤ width
  field : ∃ k, t = (label ++ List.replicate k (byte ' ')) ++ byte ' ' :: instruction ∧
    (label ++ List.replicate k (byte ' ')).width = width

theorem layout_render {width : Nat} (hwidth : width ≤ Label.maxWidth) {label : Text}
    (hlabel : label.length ≤ width) (instruction : Text) :
    Layout width (Label.render width label instruction) label instruction := by
  have hle := label.width_le_length
  refine ⟨hlabel, width - label.width, ?_, ?_⟩
  · rw [Label.render, Label.field, if_neg (by omega)]
  · rw [Text.width_append_blanks]
    omega

/-! ### Stages that shape instructions -/

namespace Stage
variable {P Q : Text → Prop}

/-- From lines with one property a stage makes lines with another one. -/
def Ensures (s : Stage) (P Q : Text → Prop) : Prop :=
  ∀ lines out, s.complete lines = .ok out → (∀ l ∈ lines, P l.text) → ∀ l ∈ out, Q l.text

/-- A stage without state ensures what each of its steps does. -/
theorem ensures_of_step {s : Stage} (f : Line → List Line)
    (hstep : ∀ l, s.step l = .ok ⟨s, [], f l⟩) (hflush : s.flush = .ok ⟨s, [], []⟩)
    (h : ∀ l, P l.text → ∀ l' ∈ f l, Q l'.text) : s.Ensures P Q := by
  intro lines out hout hlines l hl
  obtain rfl := Except.ok.inj (hout.symm.trans (complete_flatMap (fun l _ => hstep l) hflush))
  obtain ⟨source, hsource, hl⟩ := List.mem_flatMap.1 hl
  exact h source (hlines source hsource) l hl

/-- Splitting at semicolons leaves none. -/
theorem ensures_statements : Ensures statements (fun _ => True) (fun t => byte ';' ∉ t) := by
  refine ensures_of_step Statement.split (fun _ => rfl) rfl fun l _ l' hl' => ?_
  obtain ⟨piece, hpiece, rfl⟩ := List.mem_map.1 hl'
  exact Text.not_mem_of_mem_splitOn hpiece

theorem ensures_trim : Ensures trim (fun t => byte ';' ∉ t) Statement.Lone := by
  refine ensures_of_step
    (fun l => if l.text.trim.isEmpty then [] else [{ l with text := l.text.trim }])
    (fun _ => rfl) rfl fun l hl l' hl' => ?_
  split at hl'
  · cases hl'
  · rename_i hne
    obtain rfl := List.mem_singleton.1 hl'
    refine ⟨fun hmem => hl ((Text.trim_sublist l.text).subset hmem), Text.trimmed_trim l.text, ?_⟩
    simpa using hne

theorem ensures_fill :
    Ensures fill Statement.Lone (fun t => Statement.Lone t ∧ ¬ Statement.IsInteger t) := by
  refine ensures_of_step (fun l => [{ l with text := Statement.fill l.text }])
    (fun _ => rfl) rfl fun l hl l' hl' => ?_
  obtain rfl := List.mem_singleton.1 hl'
  exact hl.fill

theorem ensures_registers :
    Ensures registers (fun t => Statement.Lone t ∧ ¬ Statement.IsInteger t)
      (fun t => (Statement.Lone t ∧ ¬ Statement.IsInteger t) ∧ ¬ Statement.RegisterOperand t) := by
  refine ensures_of_step (fun l => [{ l with text := Statement.numberRegisters l.text }])
    (fun _ => rfl) rfl fun l hl l' hl' => ?_
  obtain rfl := List.mem_singleton.1 hl'
  exact ⟨⟨hl.1.numberRegisters, Statement.not_isInteger_numberRegisters hl.2⟩,
    Statement.not_registerOperand_numberRegisters l.text⟩

/-! ### The stage that lays out lines -/

/-- All that a line can come to: it declares a label, or it is listed. -/
theorem step_resolve {width : Nat} {pending : Option Label.Pending} {l : Line} {r : Reply}
    (h : (resolve width pending).step l = .ok r) :
    (∃ p, p.label.length ≤ width ∧ r.stage = resolve width (some p) ∧ r.lines = []) ∨
      (∀ label, l.text ≠ label ++ [byte ':']) ∧ r.stage = resolve width none ∧
        ∃ label, (label = [] ∨ ∃ p ∈ pending, label = p.label) ∧
          r.lines = [{ l with text := Label.render width label l.text }] := by
  have hlisted : Label.declared? l.text = none → ∀ label, l.text ≠ label ++ [byte ':'] :=
    Text.dropLast?_eq_none_iff.1
  cases hdeclared : Label.declared? l.text with
  | some label =>
    cases pending with
    | some p => simp [step, Label.resolve, hdeclared] at h
    | none =>
      by_cases hwidth : width < label.length
      · simp [step, Label.resolve, hdeclared, hwidth] at h
      · simp only [step, Label.resolve, hdeclared, hwidth, if_false, Except.ok.injEq] at h
        subst h
        exact .inl ⟨⟨label, l.no⟩, Nat.le_of_not_lt hwidth, rfl, rfl⟩
  | none =>
    cases pending with
    | some p =>
      simp only [step, Label.resolve, hdeclared, Except.ok.injEq] at h
      subst h
      exact .inr ⟨hlisted hdeclared, rfl, p.label, .inr ⟨p, rfl, rfl⟩, rfl⟩
    | none =>
      simp only [step, Label.resolve, hdeclared, Except.ok.injEq] at h
      subst h
      exact .inr ⟨hlisted hdeclared, rfl, [], .inl rfl, rfl⟩

/-- A line that is laid out with an instruction from the given lines. -/
def LaidOut (width : Nat) (lines : List Line) (l : Line) : Prop :=
  ∃ label, label.length ≤ width ∧ ∃ source ∈ lines,
    (∀ declared, source.text ≠ declared ++ [byte ':']) ∧
    l.text = Label.render width label source.text

theorem laidOut_of_takes {width : Nat} {pending : Option Label.Pending} {s' : Stage}
    {lines given : List Line} (h : Takes (resolve width pending) lines s' given)
    (hpending : ∀ p ∈ pending, p.label.length ≤ width) :
    (∃ pending', s' = resolve width pending' ∧ ∀ p ∈ pending', p.label.length ≤ width) ∧
      ∀ l ∈ given, LaidOut width lines l := by
  generalize hs : resolve width pending = s at h
  induction h generalizing pending with
  | nil => exact ⟨⟨pending, hs.symm, hpending⟩, nofun⟩
  | @cons s l r rest s' out hstep ht ih =>
    subst hs
    have hlater : ∀ {l'}, LaidOut width rest l' → LaidOut width (l :: rest) l' := by
      rintro l' ⟨label, hlabel, source, hsource, hlaid⟩
      exact ⟨label, hlabel, source, List.mem_cons_of_mem l hsource, hlaid⟩
    rcases step_resolve hstep with
      ⟨p, hp, hstage, hlines⟩ | ⟨hlisted, hstage, label, hlabel, hlines⟩
    · obtain ⟨hlast, hout⟩ := ih (by simpa using hp) hstage.symm
      rw [hlines, List.nil_append]
      exact ⟨hlast, fun l' hl' => hlater (hout l' hl')⟩
    · have hnone : ∀ p ∈ (none : Option Label.Pending), p.label.length ≤ width := nofun
      obtain ⟨hlast, hout⟩ := ih hnone hstage.symm
      rw [hlines]
      refine ⟨hlast, fun l' hl' => ?_⟩
      rcases List.mem_cons.1 hl' with rfl | hl'
      · refine ⟨label, ?_, l, List.mem_cons_self, hlisted, rfl⟩
        rcases hlabel with rfl | ⟨p, hp, rfl⟩
        · exact Nat.zero_le width
        · exact hpending p hp
      · exact hlater (hout l' hl')

/-- Lines that are laid out, and perhaps one more for a label that is left over. -/
theorem complete_resolve {width : Nat} {lines out : List Line}
    (h : (resolve width none).complete lines = .ok out) :
    ∃ given last, out = given ++ last ∧ (∀ l ∈ given, LaidOut width lines l) ∧
      (last = [] ∨ ∃ l label, last = [l] ∧ label.length ≤ width ∧
        l.text = Label.render width label []) := by
  obtain ⟨s', given, r, ht, hr, rfl⟩ := complete_eq_ok_iff.1 h
  obtain ⟨⟨pending, rfl, hpending⟩, hgiven⟩ := laidOut_of_takes ht nofun
  refine ⟨given, r.lines, rfl, hgiven, ?_⟩
  cases pending with
  | none =>
    obtain rfl := Except.ok.inj hr
    exact .inl rfl
  | some p =>
    obtain rfl := Except.ok.inj hr
    exact .inr ⟨_, p.label, rfl, hpending p rfl, rfl⟩

end Stage

/-! ### Listings -/

namespace Pipeline
open Statement (Tidy tidy_nil)

/-- The instructions that come to the last stage. -/
theorem instructions_of_through {numberRegisters : Bool} {width : Nat} {lines out : List Line}
    (h : through (([.statements, .trim, .fill] : List Stage) ++
      ((if numberRegisters then [.registers] else []) ++ [.resolve width none])) lines = .ok out) :
    ∃ instructions, (Stage.resolve width none).complete instructions = .ok out ∧
      ∀ l ∈ instructions, (Statement.Lone l.text ∧ ¬ Statement.IsInteger l.text) ∧
        (numberRegisters = true → ¬ Statement.RegisterOperand l.text) := by
  obtain ⟨split, hsplit, h⟩ := through_cons_eq_ok_iff.1 h
  obtain ⟨trimmed, htrimmed, h⟩ := through_cons_eq_ok_iff.1 h
  obtain ⟨filled, hfilled, h⟩ := through_cons_eq_ok_iff.1 h
  have hlone := Stage.ensures_trim _ _ htrimmed
    (Stage.ensures_statements _ _ hsplit fun _ _ => trivial)
  have hinteger := Stage.ensures_fill _ _ hfilled hlone
  cases numberRegisters with
  | false =>
    obtain ⟨out', hresolve, hout⟩ := through_cons_eq_ok_iff.1 h
    obtain rfl := Except.ok.inj hout
    exact ⟨filled, hresolve, fun l hl => ⟨hinteger l hl, nofun⟩⟩
  | true =>
    obtain ⟨numbered, hnumbered, h⟩ := through_cons_eq_ok_iff.1 h
    obtain ⟨out', hresolve, hout⟩ := through_cons_eq_ok_iff.1 h
    obtain rfl := Except.ok.inj hout
    have hregister := Stage.ensures_registers _ _ hnumbered hinteger
    exact ⟨numbered, hresolve, fun l hl => ⟨(hregister l hl).1, fun _ => (hregister l hl).2⟩⟩

/-- **Every listing is well formed.** A line of a listing is a label that fits, padded to the width
of the label field, a blank and a tidy instruction; the instruction is empty at most in the last
line, for a label that no instruction follows. -/
theorem process_well_formed {p : Pipeline} {texts : List Text} {out : List Line}
    (hwidth : Label.effectiveWidth p.options.labelWidth ≤ Label.maxWidth)
    (h : p.process texts = .ok out) {before after : List Line} {l : Line}
    (hl : out = before ++ l :: after) :
    ∃ label instruction,
      Layout (Label.effectiveWidth p.options.labelWidth) l.text label instruction ∧
      Tidy p.options.numberRegisters instruction ∧ (instruction = [] → after = []) := by
  obtain ⟨mid, -, hmid⟩ := through_append [.trim, .continuations none,
    .comments p.options.strictComments none, .labels, .trim, .macros p.engine]
    (process_eq_ok_iff.1 h)
  obtain ⟨instructions, hresolve, hinstructions⟩ := instructions_of_through hmid
  obtain ⟨given, last, rfl, hgiven, hlast⟩ := Stage.complete_resolve hresolve
  rcases split_two hl with ⟨behind, hbehind⟩ | ⟨between, rfl, hbetween⟩
  · obtain ⟨label, hlabel, source, hsource, hlisted, htext⟩ := hgiven l (by simp [hbehind])
    obtain ⟨⟨hlone, hinteger⟩, hregister⟩ := hinstructions source hsource
    refine ⟨label, source.text, htext ▸ layout_render hwidth hlabel source.text, ?_, ?_⟩
    · exact ⟨hlone.single, Text.trim_eq_self hlone.trimmed, hlisted, hinteger, hregister⟩
    · exact fun hnil => absurd hnil hlone.filled
  · rcases hlast with rfl | ⟨last, label, rfl, hlabel, htext⟩
    · simp at hbetween
    · obtain ⟨rfl, rfl, rfl⟩ : between = [] ∧ last = l ∧ after = [] := by
        cases between <;> simp_all
      exact ⟨label, [], htext ▸ layout_render hwidth hlabel [], tidy_nil _, fun _ => rfl⟩

open Text (ascii) in
/-- A listing with a labelled instruction, data and a label that is left over. -/
theorem process_well_formed_dangling :
    process ⟨{}, .new 64⟩ [ascii "start: lw r1 0 one; +07", ascii "end:"] =
        .ok [⟨1, ascii "start  lw 1 0 one"⟩, ⟨1, ascii "       .fill 7"⟩, ⟨2, ascii "end    "⟩] ∧
      ∃ label instruction, Layout 6 (ascii "start  lw 1 0 one") label instruction ∧
        Tidy true instruction ∧ instruction ≠ [] := by
  have hprocess : process ⟨{}, .new 64⟩ [ascii "start: lw r1 0 one; +07", ascii "end:"] =
      .ok [⟨1, ascii "start  lw 1 0 one"⟩, ⟨1, ascii "       .fill 7"⟩, ⟨2, ascii "end    "⟩] := by
    cbv
  obtain ⟨label, instruction, hlayout, htidy, hlast⟩ :=
    process_well_formed (by decide) hprocess (List.nil_append _).symm
  refine ⟨hprocess, label, instruction, hlayout, htidy, fun hnil => ?_⟩
  cases hlast hnil

end Pipeline

end Preassembler
