import Preassembler.Proofs.Listing.Layout
import Preassembler.Proofs.Listing.Newlines
import Preassembler.Proofs.Pipeline.Delivery

/-! One record for each line.

A listing is a text: its lines with newlines behind them. It can be taken apart again because no
line holds a newline of its own, and because none ends with a carriage return, which would be read
as part of the line's end. A carriage return is white space, so no instruction ends with it, and the
line of a label that no instruction follows ends with a blank (`Pipeline.not_return_of_through`).

Main statement: if no predefined macro holds a newline, a listing has one newline for each line of
the run and is read back as these lines (`Options.write_records`). -/
namespace Preassembler
open Text (byte)

/-! ### Carriage returns -/

theorem Source.dropReturn_eq_self {t : Text} (h : ¬ [byte '\r'] <:+ t) : dropReturn t = t := by
  rcases dropReturn_eq_or t with heq | heq
  · exact heq
  · exact absurd ⟨dropReturn t, heq.symm⟩ h

/-- A line that is laid out ends as its instruction does, or with the blank in front of it. -/
theorem Label.not_return_of_render {instruction : Text} (h : ¬ [byte '\r'] <:+ instruction)
    (width : Nat) (label : Text) : ¬ [byte '\r'] <:+ render width label instruction := by
  intro hreturn
  have hback : byte ' ' :: instruction <:+ render width label instruction :=
    List.suffix_append _ _
  have hlast : [byte '\r'] <:+ byte ' ' :: instruction :=
    List.suffix_of_suffix_length_le hreturn hback (by simp)
  rcases List.suffix_cons_iff.1 hlast with heq | hsuffix
  · exact absurd (List.cons.inj heq).1 (by decide)
  · exact h hsuffix

namespace Pipeline

/-- No listed line ends with a carriage return. -/
theorem not_return_of_through {p : Pipeline} {lines out : List Line}
    (h : through p.stages lines = .ok out) : ∀ l ∈ out, ¬ [byte '\r'] <:+ l.text := by
  obtain ⟨mid, -, hmid⟩ := through_append [.trim, .continuations none,
    .comments p.options.strictComments none, .labels, .trim, .macros p.engine] h
  obtain ⟨instructions, hresolve, hinstructions⟩ := instructions_of_through hmid
  obtain ⟨given, last, rfl, hgiven, hlast⟩ := Stage.complete_resolve hresolve
  refine List.forall_mem_append.2 ⟨fun l hl => ?_, fun l hl => ?_⟩
  · obtain ⟨label, -, source, hsource, -, htext⟩ := hgiven l hl
    have htrimmed := (hinstructions source hsource).1.1.trimmed
    rw [htext]
    exact Label.not_return_of_render (htrimmed [byte '\r'] (by decide)).2 _ label
  · rcases hlast with rfl | ⟨l', label, rfl, -, htext⟩
    · cases hl
    · rw [List.mem_singleton.1 hl, htext]
      exact Label.not_return_of_render (by simp) _ label

/-- A run of a source that ended early ends with an error. -/
theorem error_eq_none_of_fault {p : Pipeline} {s : Source} (h : (p.runAll s).fault? = none) :
    s.error = none := by
  rw [Outcome.fault?, trace_runAll, script, Chain.script_eq, List.findSome?_append,
    Option.or_eq_none_iff] at h
  cases herror : s.error with
  | none => rfl
  | some e =>
    rw [herror] at h
    cases hresult : ((Chain.ofList p.stages).giveAll (Flow.numberedFrom 0 s.lines)).result with
    | error e' => simp [hresult, Chain.close] at h
    | ok c => simp [hresult, Chain.close] at h

theorem not_return_of_runAll {p : Pipeline} {s : Source} (h : (p.runAll s).fault? = none) :
    ∀ l ∈ (p.runAll s).lines, ¬ [byte '\r'] <:+ l.text := by
  obtain ⟨texts, error⟩ := s
  obtain rfl : error = none := error_eq_none_of_fault h
  have hprocess : p.process texts = .ok (p.runAll ⟨texts, none⟩).lines := by
    rw [process, Outcome.result, h]
  exact not_return_of_through (process_eq_ok_iff.1 hprocess)

end Pipeline

/-! ### Listings as text -/

namespace Pipeline

theorem listingText_cons (l : Line) (rest : List Line) :
    listingText (l :: rest) = l.text ++ byte '\n' :: listingText rest := by
  simp [listingText]

variable {lines : List Line}

/-- A listing has a newline for each line. -/
theorem count_listingText (h : ∀ l ∈ lines, byte '\n' ∉ l.text) :
    (listingText lines).count (byte '\n') = lines.length := by
  induction lines with
  | nil => rfl
  | cons l rest ih =>
    rw [List.forall_mem_cons] at h
    rw [listingText_cons, List.count_append, List.count_cons_self, ih h.2,
      List.count_eq_zero_of_not_mem h.1, Nat.zero_add, List.length_cons]

theorem linesOf_listingText (h : ∀ l ∈ lines, byte '\n' ∉ l.text) :
    Source.linesOf (listingText lines) = lines.map fun l => Source.dropReturn l.text := by
  induction lines with
  | nil => rfl
  | cons l rest ih =>
    rw [List.forall_mem_cons] at h
    rw [listingText_cons, Source.linesOf_append h.1, ih h.2, List.map_cons]

theorem short_listingText (h : ∀ l ∈ lines, byte '\n' ∉ l.text)
    (hshort : ∀ l ∈ lines, l.text.length < Source.lineLimit) :
    Source.Short (listingText lines) := by
  induction lines with
  | nil => decide
  | cons l rest ih =>
    rw [List.forall_mem_cons] at h hshort
    rw [Source.Short, listingText_cons, List.splitOn_append_cons_self_of_not_mem h.1]
    exact List.forall_mem_cons.2 ⟨hshort.1, ih h.2 hshort.2⟩

end Pipeline

/-! ### Runs that write -/

/-- A written listing as records: `lines` are the lines of the run. -/
structure Records (lines : List Line) (w : Pipeline.Written) : Prop where
  /-- There is a newline for each line that was counted. -/
  count : w.sink.contents.count (byte '\n') = w.count
  /-- The lines are read back from what was written, if each fits with its newline. -/
  read : (∀ l ∈ lines, l.text.length + 1 ≤ Source.lineLimit) →
    Source.read w.sink.contents none = ⟨lines.map Line.text, none⟩

namespace Options

/-- **A listing has one record for each line.** If no predefined macro holds a newline, then no line
of a run does. So a listing that was written without fault has one newline for each line that was
counted, and it is read back as the lines of the run, if they fit into the reader's limit. -/
theorem write_records {o : Options} {p : Pipeline} (hp : Pipeline.new o = .ok p)
    (hdefines : ∀ d ∈ o.defines.entries, byte '\n' ∉ d.2) (t : Text) :
    (∀ l ∈ (p.runAll (.read t none)).lines, byte '\n' ∉ l.text) ∧
      ∀ room, (p.write (.read t none) (.new room)).fault = none →
        Records (p.runAll (.read t none)).lines (p.write (.read t none) (.new room)) := by
  have hnewline := newline_not_mem_runAll hp hdefines t none
  refine ⟨hnewline, fun room hfault => ?_⟩
  obtain ⟨herror, hcontents, hcount⟩ := (p.writes_write (.read t none) room).of_success hfault
  refine ⟨?_, fun hlimit => ?_⟩
  · rw [hcontents, hcount, Pipeline.count_listingText hnewline]
  · rw [hcontents, Source.read_of_short (Pipeline.short_listingText hnewline hlimit),
      Pipeline.linesOf_listingText hnewline]
    congr 1
    refine List.map_congr_left fun l hl => ?_
    exact Source.dropReturn_eq_self (Pipeline.not_return_of_runAll herror l hl)

open Text (ascii) in
/-- A predefined macro in a call, two statements on one line, and a label that is left over. -/
theorem write_records_call :
    let o : Options := { defines := Dictionary.empty.insert (ascii "one") (ascii "r1") }
    let p : Pipeline := ⟨o, (Macro.Engine.new 64).bind (ascii "one") (.value (ascii "r1"))⟩
    let t := ascii "#define SUM(a b) add a b\r\nx: SUM(one one) r2; 7\r\ny:"
    Pipeline.new o = .ok p ∧ (∀ d ∈ o.defines.entries, byte '\n' ∉ d.2) ∧
      (p.write (.read t none) (.new none)).fault = none ∧
      (p.write (.read t none) (.new none)).sink.contents.count (byte '\n') =
        (p.write (.read t none) (.new none)).count ∧
      Source.read (p.write (.read t none) (.new none)).sink.contents none =
        ⟨[ascii "x      add 1 1 2", ascii "       .fill 7", ascii "y      "], none⟩ := by
  intro o p t
  have hp : Pipeline.new o = .ok p := by cbv
  have hdefines : ∀ d ∈ o.defines.entries, byte '\n' ∉ d.2 := by decide
  have hread : Source.read t none =
      ⟨[ascii "#define SUM(a b) add a b", ascii "x: SUM(one one) r2; 7", ascii "y:"], none⟩ := by
    decide
  have hlines : (p.runAll (.read t none)).lines = [⟨2, ascii "x      add 1 1 2"⟩,
      ⟨2, ascii "       .fill 7"⟩, ⟨3, ascii "y      "⟩] := by
    rw [hread]
    cbv
  have hfault : (p.write (.read t none) (.new none)).fault = none := by
    rw [(p.writes_write _ none).fault_eq, hread]
    cbv
  have hrecords := (write_records hp hdefines t).2 none hfault
  rw [hlines] at hrecords
  exact ⟨hp, hdefines, hfault, hrecords.count, hrecords.read (by decide)⟩

end Options

end Preassembler
