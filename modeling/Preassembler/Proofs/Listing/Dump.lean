import Preassembler.Dump
import Preassembler.Proofs.Listing.LineEndings
import Preassembler.Proofs.Statements.Integers
import Preassembler.Proofs.Text.Quoting

/-! What a dump shows.

A dump cuts a text at its newlines in its own way: it takes one newline from the end of the text, so
that of an empty text an empty line is left, and carriage returns stay. The first stage makes no
difference between these lines and those of the reader (`emission_sourceLines`). Then the stages run
one after the other, and a dump succeeds exactly if an input goes through all of them.

The lines of a stage are shown as rows, each with a number and a quoted text. `Shows` reads rows
again, and from those of some lines it reads these lines and no others (`shows_rows_iff`).

Main statement: a dump succeeds exactly if a run with default settings does, and the rows at its end
show the lines of that run, numbers and texts (`run_shows_listing`). -/
namespace Preassembler.Dump
open Files
open Text (ascii byte)
open Pipeline (applyStages through numbered)

/-! ### Source lines -/

theorem dropEmptyLast_append_empty (pieces : List Text) :
    Source.dropEmptyLast (pieces ++ [[]]) = pieces := by
  induction pieces with
  | nil => rfl
  | cons piece rest ih =>
    rw [List.cons_append, Source.dropEmptyLast_cons piece (by simp), ih]

theorem dropEmptyLast_splitOn {t : Text} (hne : t ≠ []) (hlast : ∀ r, t ≠ r ++ [byte '\n']) :
    Source.dropEmptyLast (t.splitOn (byte '\n')) = t.splitOn (byte '\n') := by
  induction t with
  | nil => exact absurd rfl hne
  | cons b t ih =>
    rw [List.splitOn_cons_eq_if_modifyHead]
    by_cases ht : t = []
    · subst ht
      have hb : (b == byte '\n') = false := beq_false_of_ne fun hb => hlast [] (by rw [hb]; rfl)
      rw [hb]
      rfl
    · have hrest := ih ht fun r hr => hlast (b :: r) (by rw [hr]; rfl)
      split
      · rw [Source.dropEmptyLast_cons [] (List.splitOn_ne_nil _ _), hrest]
      · cases hpieces : t.splitOn (byte '\n') with
        | nil => rfl
        | cons piece rest =>
          rw [hpieces] at hrest
          rw [List.modifyHead_cons]
          cases rest with
          | nil => rfl
          | cons piece' rest =>
            rw [Source.dropEmptyLast_cons piece (List.cons_ne_nil _ _)] at hrest
            rw [Source.dropEmptyLast_cons _ (List.cons_ne_nil _ _), (List.cons.inj hrest).2]

/-- The lines that are shown are those of the reader, apart from carriage returns. -/
theorem sourceLines_eq {t : Text} (h : t ≠ []) :
    sourceLines t = Source.dropEmptyLast (t.splitOn (byte '\n')) := by
  have hlines : sourceLines t =
      ((Text.dropLast? (byte '\n') t).getD t).splitOn (byte '\n') := rfl
  rw [hlines]
  cases hlast : Text.dropLast? (byte '\n') t with
  | none =>
    rw [Text.dropLast?_eq_none_iff] at hlast
    exact (dropEmptyLast_splitOn h hlast).symm
  | some u =>
    obtain rfl := Text.dropLast?_eq_some_iff.1 hlast
    have hsplit : (u ++ [byte '\n']).splitOn (byte '\n') = u.splitOn (byte '\n') ++ [[]] :=
      List.splitOn_append_cons_self u []
    rw [hsplit, dropEmptyLast_append_empty, Option.getD_some]

/-- **The stages make the same of the lines that are shown as of those that are read.** -/
theorem emission_sourceLines (p : Pipeline) (t : Text) :
    p.emission (sourceLines t) = p.emission (Source.linesOf t) := by
  by_cases h : t = []
  · -- the empty line that is shown is blank
    subst h
    have htrim : Text.trim [] = [] := List.sublist_nil.1 (Text.trim_sublist [])
    have hblank : Pipeline.logicalLines [[]] = [] := by
      simp [Pipeline.logicalLines, numbered, Stage.present, htrim, Continuation.groups]
    rw [Pipeline.emission_eq, Pipeline.emission_eq]
    exact congrArg (fun groups : List Continuation.Group =>
      (Chain.ofList p.laterStages).whole (groups.flatMap Continuation.Group.joined)) hblank
  · refine p.emission_congr ?_
    rw [sourceLines_eq h, Source.map_trim_linesOf]

/-! ### Rows -/

/-- The line that the row at the front of a text shows, and what follows the row: up to a bar there
is a number between blanks, and behind the bar a quoted text, which ends the row. -/
def readRow? (t : Text) : Option (Line × Text) := do
  let (field, behind) ← Text.cut? (byte '|') t
  let no ← Statement.integer? field
  let literal ← Text.after? (ascii " ") behind
  let (text, behind) ← literal.unquote?
  let rest ← Text.after? (ascii "\n") behind
  return (⟨no, text⟩, rest)

/-- The lines that rows show, one after the other. Behind the rows there is an empty line. -/
inductive Shows : Text → List Line → Prop where
  | blank : Shows (ascii "\n") []
  | row {page rest : Text} {l : Line} {lines : List Line} (read : readRow? page = some (l, rest))
      (behind : Shows rest lines) : Shows page (l :: lines)

/-- The field of a number: the number between blanks. -/
def field (n : Int) : Text := ascii "  " ++ (Text.ofInt n).padLeft 4 ++ ascii " "

theorem row_append (l : Line) (rest : Text) :
    row l ++ rest =
      field l.no ++ byte '|' :: (ascii " " ++ (l.text.quote ++ (ascii "\n" ++ rest))) := by
  have hbar : ascii " | " = ascii " " ++ byte '|' :: ascii " " := rfl
  have hend : [0x0A] = ascii "\n" := rfl
  rw [row, field, hbar, hend]
  simp only [List.append_assoc, List.cons_append]

theorem bar_not_mem_field (n : Int) : byte '|' ∉ field n := by
  have hnumber : byte '|' ∉ Text.ofInt n := by
    intro hmem
    rcases (Statement.denotes_ofInt n).isInteger.mem hmem with h | h | h
    · exact absurd h (by decide)
    · exact absurd h (by decide)
    · exact absurd h (by decide)
  have hblanks : ∀ k, byte '|' ∉ List.replicate k (byte ' ') := fun k hmem =>
    absurd (List.eq_of_mem_replicate hmem) (by decide)
  have hends : byte '|' ∉ ascii "  " ∧ byte '|' ∉ ascii " " := by decide
  simp only [field, Text.padLeft, List.mem_append, not_or]
  exact ⟨⟨hends.1, hblanks _, hnumber⟩, hends.2⟩

theorem integer?_field (n : Int) : Statement.integer? (field n) = some n := by
  have htrim : (field n).trim = (Text.ofInt n).trim := by
    have hone : (ascii " ").IsBlank := Text.isBlank_replicate 1
    have htwo : (ascii "  ").IsBlank := Text.isBlank_replicate 2
    rw [field, Text.padLeft, Text.trim_append_of_isBlank hone, Text.trim_of_isBlank_append htwo,
      Text.trim_of_isBlank_append (Text.isBlank_replicate _)]
  rw [Statement.integer?, htrim]
  exact Statement.integer?_ofInt n

/-- A row is read as its line, whatever follows it. -/
theorem readRow?_row (l : Line) (rest : Text) : readRow? (row l ++ rest) = some (l, rest) := by
  have hcut := Text.cut?_eq_some_iff.2 ⟨row_append l rest, bar_not_mem_field l.no⟩
  have hfirst := Text.after?_eq_some_iff.2
    (Eq.refl (ascii " " ++ (l.text.quote ++ (ascii "\n" ++ rest))))
  have hlast := Text.after?_eq_some_iff.2 (Eq.refl (ascii "\n" ++ rest))
  simp only [readRow?, hcut, integer?_field, hfirst, Text.unquote?_quote, hlast, bind, Option.bind,
    pure]

/-- No row begins where the rows end. -/
theorem readRow?_blank : readRow? (ascii "\n") = none := by decide

theorem Shows.unique {page : Text} {lines shown : List Line} (h : Shows page lines)
    (h' : Shows page shown) : shown = lines := by
  induction h generalizing shown with
  | blank =>
    cases h' with
    | blank => rfl
    | row read behind =>
      rw [readRow?_blank] at read
      cases read
  | row read behind ih =>
    cases h' with
    | blank =>
      rw [readRow?_blank] at read
      cases read
    | row read' behind' =>
      obtain ⟨rfl, rfl⟩ := Prod.mk.inj (Option.some.inj (read'.symm.trans read))
      rw [ih behind']

theorem shows_rows (lines : List Line) : Shows (lines.flatMap row ++ ascii "\n") lines := by
  induction lines with
  | nil => exact .blank
  | cons l rest ih =>
    rw [List.flatMap_cons, List.append_assoc]
    exact .row (readRow?_row l _) ih

/-- **Rows show their lines and no others.** -/
theorem shows_rows_iff {lines shown : List Line} :
    Shows (lines.flatMap row ++ ascii "\n") shown ↔ shown = lines :=
  ⟨(shows_rows lines).unique, fun h => h ▸ shows_rows lines⟩

/-! ### Chapters -/

/-- A chapter is its heading and a page of rows. -/
theorem chapter_eq (t : Text) (lines : List Line) :
    chapter t lines = t ++ ascii " (" ++ .ofNat lines.length ++ ascii " lines)\n" ++
      (lines.flatMap row ++ ascii "\n") :=
  List.append_assoc ..

/-- The title of the chapter on the stage with number `i`. -/
def title (i : Nat) (s : Stage) : Text := (Text.ofNat i).padLeft 2 ++ ascii " " ++ s.name

/-- The chapters end without error exactly if the lines go through all stages. -/
theorem chapters_eq_none_iff (i : Nat) (stages : List Stage) (lines : List Line) :
    (chapters i (applyStages stages lines)).2 = none ↔ ∃ out, through stages lines = .ok out := by
  induction stages generalizing i lines with
  | nil => simp [applyStages, chapters, through]
  | cons s rest ih =>
    rw [applyStages, through, Stage.complete]
    cases herror : (s.apply lines).error with
    | some e => simp [chapters, herror]
    | none => simp [chapters, herror, ih]

theorem chapters_last (i : Nat) (front : List Stage) (s : Stage) {lines out : List Line}
    (h : through (front ++ [s]) lines = .ok out) :
    chapter (title (i + front.length) s) out <:+
      (chapters i (applyStages (front ++ [s]) lines)).1 := by
  induction front generalizing i lines with
  | nil =>
    obtain ⟨mid, hmid, hout⟩ := Pipeline.through_cons_eq_ok_iff.1 h
    obtain rfl : mid = out := Except.ok.inj hout
    rw [Stage.complete] at hmid
    cases herror : (s.apply lines).error with
    | some e => simp [herror] at hmid
    | none =>
      obtain rfl : (s.apply lines).lines = mid := by simpa [herror] using hmid
      simp [applyStages, chapters, herror, title]
  | cons s' front ih =>
    obtain ⟨mid, hmid, hout⟩ := Pipeline.through_cons_eq_ok_iff.1 h
    rw [Stage.complete] at hmid
    cases herror : (s'.apply lines).error with
    | some e => simp [herror] at hmid
    | none =>
      obtain rfl : (s'.apply lines).lines = mid := by simpa [herror] using hmid
      have hrest := ih (i + 1) hout
      have hnumber : i + (s' :: front).length = i + 1 + front.length := by
        rw [List.length_cons]
        omega
      rw [hnumber, List.cons_append, applyStages]
      simp only [herror, chapters]
      exact hrest.trans (List.suffix_append _ _)

/-! ### Runs -/

/-- Whether a dump of a text succeeds, and what it shows. -/
theorem present_host (t : Text) (w : World) :
    (present World.host t w).1 =
        (chapters 1 (applyStages defaultStages (numbered (sourceLines t)))).2.isNone ∧
      (present World.host t w).2.stdout =
        w.stdout ++ (chapter (ascii "Source") (numbered (sourceLines t)) ++
          (chapters 1 (applyStages defaultStages (numbered (sourceLines t)))).1) := by
  unfold present
  generalize chapters 1 _ = shown
  obtain ⟨text, _ | ⟨s, e⟩⟩ := shown <;> exact ⟨rfl, rfl⟩

/-- The stages of a dump make of the lines that are shown what a run lists, if it does not fail. -/
theorem through_defaultStages {content : Text} (hshort : Source.Short content) {p : Pipeline}
    (hp : p.stages = defaultStages) (out : List Line) :
    through defaultStages (numbered (sourceLines content)) = .ok out ↔
      (p.runAll (.read content none)).fault? = none ∧
        (p.runAll (.read content none)).lines = out := by
  have hprocess : through defaultStages (numbered (sourceLines content)) = .ok out ↔
      p.process (Source.linesOf content) = .ok out := by
    rw [Pipeline.process_eq_answer, ← emission_sourceLines, ← Pipeline.process_eq_answer,
      Pipeline.process_eq_ok_iff, hp]
  rw [hprocess, Pipeline.process, ← Source.read_of_short hshort, Outcome.result]
  cases (p.runAll (.read content none)).fault? <;> simp

/-- **A dump shows what the preprocessor does.** Take a file whose lines fit into the reader's limit.
The dump of the file succeeds exactly if a run with default settings writes the listing of the file.
Then the dump ends with the heading of the last stage and a page that has a row for each line that
the run lists: its number in a field of four, a bar, and its text in quotes. What the page shows is
these lines, with their numbers and texts, and nothing else. -/
theorem run_shows_listing {w : World} {path content : Text}
    (hfile : w.readFile path = .ok ⟨content, none⟩) (hshort : Source.Short content) {p : Pipeline}
    (hp : Pipeline.new {} = .ok p) :
    ((run World.host (some path) w).1 = true ↔
        (p.write (.read content none) (.new none)).fault = none) ∧
      ((run World.host (some path) w).1 = true → ∃ earlier page,
        (run World.host (some path) w).2.stdout = w.stdout ++ earlier ++
          (ascii "11 resolve (" ++ .ofNat (p.runAll (.read content none)).lines.length ++
            ascii " lines)\n" ++ page) ∧
        page = (p.runAll (.read content none)).lines.flatMap (fun l =>
          ascii "  " ++ (Text.ofInt l.no).padLeft 4 ++ ascii " | " ++ l.text.quote ++
            ascii "\n") ++ ascii "\n" ∧
        ∀ shown, Shows page shown ↔ shown = (p.runAll (.read content none)).lines) := by
  have hstages : p.stages = defaultStages := (Except.ok.inj hp) ▸ rfl
  have hrun : run World.host (some path) w = present World.host content w := by
    simp [run, bind, StateT.bind, World.host, hfile]
  obtain ⟨hanswer, hstdout⟩ := present_host content w
  have hsuccess : (run World.host (some path) w).1 = true ↔
      (p.runAll (.read content none)).fault? = none := by
    rw [hrun, hanswer, Option.isNone_iff_eq_none, chapters_eq_none_iff]
    simp [through_defaultStages hshort hstages]
  refine ⟨?_, fun hok => ?_⟩
  · rw [hsuccess, (p.writes_write _ none).fault_eq]
  · have hout := (through_defaultStages hshort hstages _).2 ⟨hsuccess.1 hok, rfl⟩
    have hlast : defaultStages = defaultStages.dropLast ++ [.resolve 6 none] :=
      Pipeline.stages_eq ⟨{}, .new Macro.defaultLimit⟩
    rw [hlast] at hout
    obtain ⟨earlier, hearlier⟩ := chapters_last 1 _ _ hout
    rw [← hlast] at hearlier
    have htitle : title (1 + defaultStages.dropLast.length) (.resolve 6 none) ++ ascii " (" =
        ascii "11 resolve (" := rfl
    rw [chapter_eq, htitle] at hearlier
    refine ⟨chapter (ascii "Source") (numbered (sourceLines content)) ++ earlier, _, ?_, rfl,
      fun shown => shows_rows_iff⟩
    rw [hrun, hstdout, ← hearlier, ← List.append_assoc, ← List.append_assoc,
      List.append_assoc w.stdout]
    rfl

open Text (ascii) in
/-- A file that ends without a newline, with a carriage return. -/
theorem run_shows_listing_file :
    let content := ascii "one: noop\r\n5\r"
    let w : World := { tree := ⟨[([ascii "a.as"], .file content)]⟩ }
    let p : Pipeline := ⟨{}, .new 64⟩
    w.readFile (ascii "a.as") = .ok ⟨content, none⟩ ∧ Source.Short content ∧
      Pipeline.new {} = .ok p ∧ (run World.host (some (ascii "a.as")) w).1 = true ∧
      ∃ earlier, (run World.host (some (ascii "a.as")) w).2.stdout = earlier ++
        (ascii "11 resolve (2 lines)\n" ++ ascii "     1 | \"one    noop\"\n" ++
          ascii "     2 | \"       .fill 5\"\n" ++ ascii "\n") := by
  intro content w p
  have hfile : w.readFile (ascii "a.as") = .ok ⟨content, none⟩ := by decide
  have hshort : Source.Short content := by decide
  have hp : Pipeline.new {} = .ok p := rfl
  obtain ⟨hiff, hshows⟩ := run_shows_listing hfile hshort hp
  have hread : Source.read content none = ⟨[ascii "one: noop", ascii "5"], none⟩ := by decide
  have hwritten : (p.write (.read content none) (.new none)).fault = none := by
    rw [(p.writes_write _ none).fault_eq, hread]
    cbv
  have hlines : (p.runAll (.read content none)).lines =
      [⟨1, ascii "one    noop"⟩, ⟨2, ascii "       .fill 5"⟩] := by
    rw [hread]
    cbv
  have hok := hiff.2 hwritten
  obtain ⟨earlier, page, hstdout, hpage, -⟩ := hshows hok
  rw [hlines] at hstdout hpage
  refine ⟨hfile, hshort, hp, hok, earlier, ?_⟩
  rw [hstdout, hpage]
  cbv

end Preassembler.Dump
