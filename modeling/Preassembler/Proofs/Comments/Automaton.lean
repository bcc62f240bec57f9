import Preassembler.Proofs.Pipeline.Through

/-! Comments, read byte by byte.

The stage that removes comments looks for the next opening, then for the closing behind it, and goes
on behind that. An automaton does the same in one pass over the bytes, with two modes: in code it
keeps what it reads until `//` or `/*`, in a block comment it drops what it reads until `*/`. Both
bytes of a delimiter are read at once, so none of them can belong to a second one. The automaton
also remembers which line opened the comment it is in.

No delimiter comes into being where a comment was taken out (`Mode.clear_read`): a slash is only
kept when neither a slash nor a star is read behind it, and what is read behind it is then kept too.

Main statement: the stage gives out what the automaton keeps, and a strict one fails at the end
exactly if the automaton ends in a comment (`Stage.apply_comments_eq_readLines`). -/
namespace Preassembler
open Text (ascii byte)

namespace Comment

/-! ### The automaton -/

/-- Where a byte stands: in code, or in a block comment that the given line opened. -/
inductive Mode where
  | code
  | block (opener : Line)
  deriving DecidableEq, Repr

namespace Mode

def inside : Mode → Bool
  | code => false
  | block _ => true

/-- Reads the text of the line `here`: what is kept of it, and the mode at its end. -/
def read (here : Line) : Mode → Text → Text × Mode
  | code, a :: b :: r =>
    if a = byte '/' ∧ b = byte '/' then ([], code)
    else if a = byte '/' ∧ b = byte '*' then read here (block here) r
    else (read here code (b :: r)).map (a :: ·) id
  | block l, a :: b :: r =>
    if a = byte '*' ∧ b = byte '/' then read here code r else read here (block l) (b :: r)
  | code, [a] => ([a], code)
  | block l, [_] => ([], block l)
  | m, [] => ([], m)

/-- Reads lines one after the other: a line comment ends with its line, a block comment goes on. -/
def readLines : Mode → List Line → List Line × Mode
  | m, [] => ([], m)
  | m, l :: rest =>
    ((m.read l l.text).2.readLines rest).map ({ l with text := (m.read l l.text).1 } :: ·) id

/-! ### Reading and searching -/

section Search
variable (here : Line)

/-- Looking for an opening is reading in code, up to there. -/
theorem read_of_findOpening (kept t : Text) :
    match findOpening kept t with
    | .none text => ∃ u, text = kept.reverse ++ u ∧ code.read here t = (u, code)
    | .line text => ∃ u, text = kept.reverse ++ u ∧ code.read here t = (u, code)
    | .block kept' rest => ∃ u, kept'.reverse = kept.reverse ++ u ∧
        code.read here t = ((block here).read here rest).map (u ++ ·) id := by
  fun_induction findOpening kept t with
  | case1 kept a b r h =>
    have hline : a = byte '/' ∧ b = byte '/' := by simpa using h
    exact ⟨[], (List.append_nil _).symm, by rw [read, if_pos hline]⟩
  | case2 kept a b r h h' =>
    have hline : ¬(a = byte '/' ∧ b = byte '/') := by simpa using h
    have hblock : a = byte '/' ∧ b = byte '*' := by simpa using h'
    exact ⟨[], (List.append_nil _).symm, by rw [read, if_neg hline, if_pos hblock]; rfl⟩
  | case3 kept a b r h h' ih =>
    have hline : ¬(a = byte '/' ∧ b = byte '/') := by simpa using h
    have hblock : ¬(a = byte '/' ∧ b = byte '*') := by simpa using h'
    have hread : code.read here (a :: b :: r) = (code.read here (b :: r)).map (a :: ·) id := by
      rw [read, if_neg hline, if_neg hblock]
    rw [hread]
    split at ih
    all_goals
      obtain ⟨u, hkept, hu⟩ := ih
      exact ⟨a :: u, by simp [hkept], by rw [hu]; rfl⟩
  | case4 kept a => exact ⟨[a], List.reverse_cons, rfl⟩
  | case5 kept => exact ⟨[], (List.append_nil _).symm, rfl⟩

/-- Looking for a closing is reading in a block comment, up to there. -/
theorem read_of_afterClosing? (l : Line) (t : Text) :
    (block l).read here t =
      match afterClosing? t with
      | none => ([], block l)
      | some rest => code.read here rest := by
  fun_induction afterClosing? t with
  | case1 a b r h =>
    have hclose : a = byte '*' ∧ b = byte '/' := by simpa using h
    rw [read, if_pos hclose]
  | case2 a b r h ih =>
    have hclose : ¬(a = byte '*' ∧ b = byte '/') := by simpa using h
    rw [read, if_neg hclose, ih]
  | case3 t h =>
    rcases t with _ | ⟨a, _ | ⟨b, r⟩⟩
    · rfl
    · rfl
    · exact absurd rfl (h a b r)

theorem stripFrom_eq (kept t : Text) :
    stripFrom kept t =
      (kept.reverse ++ (code.read here t).1, (code.read here t).2.inside) := by
  fun_induction stripFrom kept t with
  | case1 kept t text h =>
    have hread := read_of_findOpening here kept t
    rw [h] at hread
    obtain ⟨u, rfl, hu⟩ := hread
    rw [hu]
    rfl
  | case2 kept t text h =>
    have hread := read_of_findOpening here kept t
    rw [h] at hread
    obtain ⟨u, rfl, hu⟩ := hread
    rw [hu]
    rfl
  | case3 kept t kept' rest h h' =>
    have hread := read_of_findOpening here kept t
    have hclose := read_of_afterClosing? here here rest
    rw [h] at hread
    rw [h'] at hclose
    obtain ⟨u, hkept, hu⟩ := hread
    rw [hu, hclose, hkept]
    simp [inside]
  | case4 kept t kept' rest h rest' h' ih =>
    have hread := read_of_findOpening here kept t
    have hclose := read_of_afterClosing? here here rest
    rw [h] at hread
    rw [h'] at hclose
    obtain ⟨u, hkept, hu⟩ := hread
    rw [ih, hu, hclose, hkept]
    simp

/-- **Searching comes to the same as reading.** -/
theorem strip_eq (m : Mode) (t : Text) :
    strip m.inside t = ((m.read here t).1, (m.read here t).2.inside) := by
  cases m with
  | code => exact stripFrom_eq here [] t
  | block l =>
    rw [read_of_afterClosing?, strip, inside, if_pos rfl]
    cases afterClosing? t with
    | none => rfl
    | some rest => exact stripFrom_eq here [] rest

end Search

end Mode

/-! ### Delimiters -/

/-- No comment opens in a text. -/
def Clear (t : Text) : Prop := ¬ ascii "//" <:+: t ∧ ¬ ascii "/*" <:+: t

instance (t : Text) : Decidable (Clear t) := inferInstanceAs (Decidable (_ ∧ _))

theorem Clear.of_infix {t u : Text} (h : Clear t) (hu : u <:+: t) : Clear u :=
  ⟨fun hline => h.1 (hline.trans hu), fun hblock => h.2 (hblock.trans hu)⟩

theorem clear_nil : Clear [] := by decide

theorem clear_singleton (a : UInt8) : Clear [a] := by
  constructor <;> intro h <;> exact absurd h.length_le (by simp [ascii])

/-- A comment opens with the first byte, or later. -/
theorem clear_cons_cons_iff {a b : UInt8} {t : Text} :
    Clear (a :: b :: t) ↔
      ¬(a = byte '/' ∧ b = byte '/') ∧ ¬(a = byte '/' ∧ b = byte '*') ∧ Clear (b :: t) := by
  have hline : ascii "//" = [byte '/', byte '/'] := rfl
  have hblock : ascii "/*" = [byte '/', byte '*'] := rfl
  have hinfix (x : Text) : x <:+: a :: b :: t ↔ x <+: a :: b :: t ∨ x <:+: b :: t :=
    List.infix_cons_iff
  simp only [Clear, hline, hblock, hinfix, List.cons_prefix_cons, List.nil_prefix, and_true,
    eq_comm (b := a), eq_comm (b := b), not_or]
  constructor
  · rintro ⟨⟨h, hrest⟩, h', hrest'⟩
    exact ⟨h, h', hrest, hrest'⟩
  · rintro ⟨h, h', hrest, hrest'⟩
    exact ⟨⟨h, hrest⟩, h', hrest'⟩

namespace Mode
variable {here : Line}

/-- A byte that is no slash is kept. -/
theorem read_code_of_ne {b : UInt8} (h : b ≠ byte '/') (r : Text) :
    code.read here (b :: r) = (code.read here r).map (b :: ·) id := by
  cases r with
  | nil => rfl
  | cons c r =>
    rw [read, if_neg fun hline => h hline.1, if_neg fun hblock => h hblock.1]

/-- **Where a comment is taken out no delimiter comes into being.** -/
theorem clear_read (m : Mode) (t : Text) : Clear (m.read here t).1 := by
  fun_induction read here m t with
  | case1 a b r h => exact clear_nil
  | case2 a b r h h' ih => exact ih
  | case3 a b r h h' ih =>
    rw [Prod.map_fst]
    by_cases ha : a = byte '/'
    · -- The byte behind a slash that is kept is no slash itself, so it is kept too.
      have hb : b ≠ byte '/' := fun hb => h ⟨ha, hb⟩
      rw [read_code_of_ne hb] at ih ⊢
      exact clear_cons_cons_iff.2 ⟨h, h', ih⟩
    · cases hrest : (read here code (b :: r)).1 with
      | nil => exact clear_singleton a
      | cons c u =>
        rw [hrest] at ih
        exact clear_cons_cons_iff.2 ⟨fun h => ha h.1, fun h => ha h.1, ih⟩
  | case4 l a b r h ih => exact ih
  | case5 l a b r h ih => exact ih
  | case6 a => exact clear_singleton a
  | case7 l a => exact clear_nil
  | case8 m => exact clear_nil

/-- In a text without delimiters everything is kept. -/
theorem read_of_clear {t : Text} (h : Clear t) : code.read here t = (t, code) := by
  match t with
  | [] => rfl
  | [a] => rfl
  | a :: b :: r =>
    obtain ⟨hline, hblock, hrest⟩ := clear_cons_cons_iff.1 h
    rw [read, if_neg hline, if_neg hblock, read_of_clear hrest]
    rfl

end Mode

/-! ### The stage -/

/-- What is left of lines behind the line that left a comment open. -/
def stripped (opened : Option Line) : List Line → List Line
  | [] => []
  | l :: rest => (step opened l).2 :: stripped (step opened l).1 rest

/-- The line that is remembered as having left a comment open, after some more lines. -/
def remembered (opened : Option Line) (lines : List Line) : Option Line :=
  lines.foldl (fun o l => (step o l).1) opened

theorem remembered_append (opened : Option Line) (a b : List Line) :
    remembered opened (a ++ b) = remembered (remembered opened a) b := List.foldl_append

theorem stripped_append (opened : Option Line) (a b : List Line) :
    stripped opened (a ++ b) = stripped opened a ++ stripped (remembered opened a) b := by
  induction a generalizing opened with
  | nil => rfl
  | cons l rest ih => exact congrArg ((step opened l).2 :: ·) (ih (step opened l).1)

theorem step_eq {opened : Option Line} {m : Mode} (h : opened.isSome = m.inside) (l : Line) :
    step opened l =
      (if (m.read l l.text).2.inside then some (opened.getD l) else none,
        { l with text := (m.read l l.text).1 }) := by
  rw [step, h, Mode.strip_eq l]

/-- A line is remembered exactly as long as the automaton is in a comment. -/
theorem isSome_step {opened : Option Line} {m : Mode} (h : opened.isSome = m.inside) (l : Line) :
    (step opened l).1.isSome = (m.read l l.text).2.inside := by
  rw [step_eq h]
  cases (m.read l l.text).2.inside <;> rfl

theorem stripped_eq {opened : Option Line} {m : Mode} (h : opened.isSome = m.inside)
    (lines : List Line) : stripped opened lines = (m.readLines lines).1 := by
  induction lines generalizing opened m with
  | nil => rfl
  | cons l rest ih =>
    rw [stripped, ih (isSome_step h l), step_eq h]
    rfl

theorem isSome_remembered {opened : Option Line} {m : Mode} (h : opened.isSome = m.inside)
    (lines : List Line) : (remembered opened lines).isSome = (m.readLines lines).2.inside := by
  induction lines generalizing opened m with
  | nil => exact h
  | cons l rest ih => exact ih (isSome_step h l)

theorem map_no_stripped (opened : Option Line) (lines : List Line) :
    (stripped opened lines).map Line.no = lines.map Line.no := by
  induction lines generalizing opened with
  | nil => rfl
  | cons l rest ih => exact congrArg (l.no :: ·) (ih (step opened l).1)

theorem clear_of_mem_stripped {opened : Option Line} {lines : List Line} {l : Line}
    (h : l ∈ stripped opened lines) : Clear l.text := by
  induction lines generalizing opened with
  | nil => cases h
  | cons l' rest ih =>
    rcases List.mem_cons.1 h with rfl | h
    · cases opened with
      | none =>
        rw [step_eq (m := .code) rfl]
        exact Mode.clear_read _ _
      | some opener =>
        rw [step_eq (m := .block opener) rfl]
        exact Mode.clear_read _ _
    · exact ih h

end Comment

namespace Stage
open Comment (Mode Clear stripped remembered)

theorem applyFrom_comments (strict : Bool) (opened : Option Line) (before : List Line)
    (events : List Event) (lines : List Line) :
    (comments strict opened).applyFrom before events lines =
      ⟨before.reverse ++ stripped opened lines, events.reverse,
        if strict then (remembered opened lines).map (⟨·, .openComment⟩) else none⟩ := by
  induction lines generalizing opened before with
  | nil =>
    rw [applyFrom]
    cases opened <;> cases strict <;> simp [flush, Comment.flush, Except.map, stripped, remembered]
  | cons l rest ih =>
    have hstep : (comments strict opened).applyFrom before events (l :: rest) =
        (comments strict (Comment.step opened l).1).applyFrom
          ((Comment.step opened l).2 :: before) events rest := rfl
    rw [hstep, ih]
    simp [stripped, remembered]

/-- What the stage makes of lines: each without its comments, and an error if it is strict and a
comment is left open. -/
theorem apply_comments (strict : Bool) (lines : List Line) :
    (comments strict none).apply lines =
      ⟨stripped none lines, [],
        if strict then (remembered none lines).map (⟨·, .openComment⟩) else none⟩ :=
  applyFrom_comments strict none [] [] lines

/-- **Removing comments is one pass of an automaton.** For every list of lines the stage gives out
one line for each, under its number, with what the automaton keeps of it; it fails exactly if it is
strict and the automaton ends in a block comment. The second slash of `/*/` belongs to the inside of
the comment, and no line that is given out holds a delimiter. -/
theorem apply_comments_eq_readLines (strict : Bool) (lines : List Line) :
    ((comments strict none).apply lines).lines = (Mode.code.readLines lines).1 ∧
      ((comments strict none).apply lines).lines.map Line.no = lines.map Line.no ∧
      (((comments strict none).apply lines).error.isSome = true ↔
        strict = true ∧ (Mode.code.readLines lines).2.inside = true) ∧
      (∀ t, Comment.strip false (ascii "/*/" ++ t) = Comment.strip true (ascii "/" ++ t)) ∧
      ∀ l ∈ ((comments strict none).apply lines).lines, Clear l.text := by
  have hmode : (none : Option Line).isSome = Mode.code.inside := rfl
  rw [apply_comments]
  refine ⟨Comment.stripped_eq hmode lines, Comment.map_no_stripped none lines, ?_, fun t => ?_,
    fun l hl => Comment.clear_of_mem_stripped hl⟩
  · rw [← Comment.isSome_remembered hmode lines]
    cases strict <;> simp
  · have hopen := Mode.strip_eq ⟨0, []⟩ .code (ascii "/*/" ++ t)
    exact hopen.trans (Mode.strip_eq ⟨0, []⟩ (.block ⟨0, []⟩) (ascii "/" ++ t)).symm

/-- A comment that seems to close itself, one that hides an opening, and a lone slash. -/
example :
    ((comments true none).apply [⟨1, ascii "x /*/ y"⟩, ⟨2, ascii "*/z // /*"⟩, ⟨3, ascii "a/b"⟩]) =
      ⟨[⟨1, ascii "x "⟩, ⟨2, ascii "z "⟩, ⟨3, ascii "a/b"⟩], [], none⟩ := by cbv

end Stage

end Preassembler
