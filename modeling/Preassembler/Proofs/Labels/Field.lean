import Preassembler.Config
import Preassembler.Proofs.Labels.Pairing
import Preassembler.Proofs.Listing.Layout

/-! The label field of an accepted configuration.

Accepting a configuration asks of the width of the label field only that it is positive. Fields up to
`Label.maxWidth` code points are laid out: label and instruction can be told apart again by cutting a
line behind the field and the blank after it (`Layout.cutBehind`). A wider field is not laid out at
all (`not_layout_of_wide`).

Main statement: for an accepted configuration the lines of a listing have a field of the configured
width exactly up to that bound (`Config.process_field`). -/
namespace Preassembler
open Text (byte)

/-! ### Cutting a line behind its field -/

namespace Text

/-- A text cut in two behind its first `n` symbols. -/
def cutBehind (n : Nat) (t : Text) : Text × Text :=
  (((symbols t).take n).flatMap Symbol.bytes, ((symbols t).drop n).flatMap Symbol.bytes)

/-- A text cut behind a blank, with as many symbols as there are before and with it. -/
theorem cutBehind_blank (field rest : Text) :
    cutBehind (field.width + 1) (field ++ byte ' ' :: rest) = (field ++ [byte ' '], rest) := by
  have hsymbols : symbols (field ++ byte ' ' :: rest) =
      (symbols field ++ [.point 0x20 [byte ' ']]) ++ symbols rest := by
    rw [symbols_append (by decide), symbols_ascii (by decide), List.append_assoc]
    rfl
  have hlength : (symbols field ++ [Symbol.point 0x20 [byte ' ']]).length = field.width + 1 := by
    rw [List.length_append]
    rfl
  rw [cutBehind, hsymbols, List.take_left' hlength, List.drop_left' hlength, List.flatMap_append,
    bytes_symbols, bytes_symbols]
  rfl

end Text

/-- Label and instruction are read back from a line by cutting it behind its field and a blank. -/
theorem Layout.cutBehind {width : Nat} {t label instruction : Text}
    (h : Layout width t label instruction) :
    ∃ k, t.cutBehind (width + 1) = (label ++ List.replicate k (byte ' '), instruction) := by
  obtain ⟨k, rfl, hwidth⟩ := h.field
  refine ⟨k + 1, ?_⟩
  rw [← hwidth, Text.cutBehind_blank, List.replicate_succ', List.append_assoc]

theorem Layout.lt_length {width : Nat} {t label instruction : Text}
    (h : Layout width t label instruction) : width < t.length := by
  obtain ⟨k, rfl, hwidth⟩ := h.field
  have hle := (label ++ List.replicate k (byte ' ')).width_le_length
  rw [List.length_append, List.length_cons]
  omega

/-- A field that is too wide is not laid out: the marker in front of the label cannot be taken for a
part of the label, because it holds one percent sign more than there is. -/
theorem not_layout_of_wide {width : Nat} (hwide : Label.maxWidth < width)
    (label instruction : Text) :
    ¬ Layout width (Label.render width label instruction) label instruction := by
  rintro ⟨-, k, htext, -⟩
  rw [Label.render, Label.field, if_pos hwide] at htext
  have hcount := congrArg (List.count (byte '%')) htext
  have hmarker : (Text.ascii "%!(BADWIDTH)").count (byte '%') = 1 := by decide
  have hblank : (byte ' ' == byte '%') = false := by decide
  simp only [List.count_append, hmarker, List.count_replicate, hblank, Bool.false_eq_true,
    if_false] at hcount
  omega

/-! ### The labels of a listing -/

namespace Label

variable {width : Nat} {front : Option Line}

theorem length_label_of_waiting (h : ∀ d ∈ front, Short width d) :
    (((waiting front).map Pending.label).getD []).length ≤ width := by
  cases hwaiting : waiting front with
  | none => exact Nat.zero_le width
  | some p =>
    obtain ⟨d, hd, hlabel, -⟩ := waiting_eq_some_iff.1 hwaiting
    exact h d hd p.label hlabel

theorem length_label_of_mem_entries {lines : List Line} (hfront : ∀ d ∈ front, Short width d)
    (h : ∀ l ∈ lines, Short width l) {e : Entry} (he : e ∈ entries front lines) :
    e.label.length ≤ width := by
  induction lines generalizing front with
  | nil => cases he
  | cons l rest ih =>
    rw [List.forall_mem_cons] at h
    rw [entries_cons, List.mem_append] at he
    rcases he with he | he
    · unfold listed? at he
      cases hdeclared : declared? l.text with
      | some label => simp [hdeclared] at he
      | none =>
        simp only [hdeclared, Option.toList_some, List.mem_singleton] at he
        subst he
        exact length_label_of_waiting hfront
    · exact ih (by simpa using h.1) h.2 he

theorem length_label_of_mem_leftOver (h : ∀ d ∈ front, Short width d) {e : Entry}
    (he : e ∈ leftOver front) : e.label.length ≤ width := by
  obtain ⟨p, hp, rfl⟩ := List.mem_map.1 he
  obtain ⟨d, hd, hlabel, -⟩ := waiting_eq_some_iff.1 (Option.mem_toList.1 hp)
  exact h d hd p.label hlabel

/-- Where every label that is declared is short, every label that is listed is. -/
theorem length_label_le {lines : List Line} (h : ∀ l ∈ lines, Short width l) {e : Entry}
    (he : e ∈ entries none lines ++ leftOver lines.getLast?) : e.label.length ≤ width := by
  rcases List.mem_append.1 he with he | he
  · have hfront : ∀ d ∈ (none : Option Line), Short width d := nofun
    exact length_label_of_mem_entries hfront h he
  · exact length_label_of_mem_leftOver (fun d hd => h d (List.mem_of_getLast? hd)) he

/-- Short labels have fields of the width asked for exactly if it can be laid out, or if there are
none. -/
theorem forall_layout_iff {listed : List Entry} (h : ∀ e ∈ listed, e.label.length ≤ width) :
    (∀ e ∈ listed, Layout width (e.line width).text e.label e.instruction) ↔
      width ≤ maxWidth ∨ listed = [] := by
  constructor
  · intro hlayout
    by_contra hwide
    obtain ⟨hwide, hfilled⟩ := not_or.1 hwide
    obtain ⟨e, he⟩ := List.exists_mem_of_ne_nil listed hfilled
    exact not_layout_of_wide (Nat.lt_of_not_le hwide) e.label e.instruction (hlayout e he)
  · rintro (hmax | rfl) e he
    · exact layout_render hmax (h e he) e.instruction
    · cases he

end Label

/-! ### Listings of accepted configurations -/

namespace Config
open Label (Entry entries leftOver)

theorem effectiveWidth_of_validate {c : Config} (h : c.validate = .ok ()) :
    Label.effectiveWidth c.labelWidth = c.labelWidth.toNat := by
  have hpositive : ¬ c.labelWidth < 1 := by
    intro hzero
    rw [validate, if_pos hzero] at h
    cases h
  rw [Label.effectiveWidth, if_neg (by omega)]

/-- **The label field is as wide as it was configured, up to a bound that is not checked.** Take an
accepted configuration, and source lines that are listed with it. The listing is made of the lines
that come to the last stage, each with its label. The lines have a field of the configured width,
with the label and nothing but blanks behind it, exactly if this width can be laid out or nothing is
listed; and then label and instruction are read back by cutting a line behind its field and a
blank. -/
theorem process_field {c : Config} {p : Pipeline} {texts : List Text} {out : List Line}
    (hc : c.validate = .ok ()) (hp : Pipeline.new c.options = .ok p)
    (h : p.process texts = .ok out) :
    let width := c.labelWidth.toNat
    ∃ statements listed,
      Pipeline.through p.stages.dropLast (Pipeline.numbered texts) = .ok statements ∧
      listed = entries none statements ++ leftOver statements.getLast? ∧
      out = listed.map (Entry.line width) ∧
      ((∀ e ∈ listed, Layout width (e.line width).text e.label e.instruction) ↔
        width ≤ Label.maxWidth ∨ out = []) ∧
      (width ≤ Label.maxWidth → ∀ e ∈ listed, ∃ k, (e.line width).text.cutBehind (width + 1) =
        (e.label ++ List.replicate k (byte ' '), e.instruction)) := by
  intro width
  have hwidth : Label.effectiveWidth p.options.labelWidth = width := by
    rw [(Pipeline.new_eq_ok_iff.1 hp).1]
    exact effectiveWidth_of_validate hc
  rw [Pipeline.process_eq_ok_iff, Pipeline.stages_eq, hwidth] at h
  obtain ⟨statements, hstatements, hlast⟩ := Pipeline.through_append _ h
  obtain ⟨out', hresolve, hout⟩ := Pipeline.through_cons_eq_ok_iff.1 hlast
  obtain rfl : out' = out := Except.ok.inj hout
  obtain ⟨hfits, rfl⟩ := Stage.fits_of_complete_resolve hresolve
  have hlabels : ∀ e ∈ entries none statements ++ leftOver statements.getLast?,
      e.label.length ≤ width :=
    fun e he => Label.length_label_le (Label.fits_neighbours_none_iff.1 hfits).2 he
  refine ⟨statements, _, hstatements, rfl, rfl, ?_, fun hmax e he => ?_⟩
  · rw [List.map_eq_nil_iff]
    exact Label.forall_layout_iff hlabels
  · exact (layout_render hmax (hlabels e he) e.instruction).cutBehind

open Text (ascii) in
/-- A field of three code points with a label of one, which takes two bytes. -/
theorem process_field_accented :
    let c : Config := { Config.default with labelWidth := 3 }
    let p : Pipeline := ⟨c.options, .new 64⟩
    let out : List Line := [⟨1, [0xC3, 0xA9] ++ ascii "   noop"⟩]
    c.validate = .ok () ∧ Pipeline.new c.options = .ok p ∧
      p.process [[0xC3, 0xA9] ++ ascii ": noop"] = .ok out ∧
      ∃ listed : List Entry, out = listed.map (Entry.line 3) ∧
        ∀ e ∈ listed, Layout 3 (e.line 3).text e.label e.instruction := by
  intro c p out
  have hc : c.validate = .ok () := by cbv
  have hp : Pipeline.new c.options = .ok p := rfl
  have hprocess : p.process [[0xC3, 0xA9] ++ ascii ": noop"] = .ok out := by cbv
  obtain ⟨statements, listed, -, -, hout, hlayout, -⟩ := process_field hc hp hprocess
  exact ⟨hc, hp, hprocess, listed, hout, hlayout.2 (.inl (by decide))⟩

open Text (ascii) in
/-- A field that is accepted and is not laid out: no label and no instruction make up the line. -/
theorem process_field_too_wide :
    let c : Config := { Config.default with labelWidth := 1000001 }
    let p : Pipeline := ⟨c.options, .new 64⟩
    c.validate = .ok () ∧ Pipeline.new c.options = .ok p ∧
      p.process [ascii "noop"] = .ok [⟨1, ascii "%!(BADWIDTH) noop"⟩] ∧
      ¬ ∃ label instruction, Layout 1000001 (ascii "%!(BADWIDTH) noop") label instruction := by
  intro c p
  have hc : c.validate = .ok () := by cbv
  have hprocess : p.process [ascii "noop"] = .ok [⟨1, ascii "%!(BADWIDTH) noop"⟩] := by cbv
  refine ⟨hc, rfl, hprocess, ?_⟩
  rintro ⟨label, instruction, hlayout⟩
  have hlength : (ascii "%!(BADWIDTH) noop").length = 17 := by decide
  have hlt := hlayout.lt_length
  omega

end Config

end Preassembler
