import Mathlib
import Preassembler.Proofs.Comments.Automaton
import Preassembler.Proofs.Listing.LogicalLine
import Preassembler.Proofs.Pipeline.Invariants

/-! The line that is blamed for a comment left open.

The automaton knows which line opened the block comment it is in. The stage remembers a line when it
goes from code into a comment, and it looks at whole lines only: a line that closes one comment and
opens another leaves the stage inside, so the line of the first comment stays remembered. The line
that is blamed at the end is therefore the last one that began in code (`Comment.leftOpen`). It is
the line that opened the comment if no later line closes one, and otherwise it is not.

Behind the stage nothing else blames an open comment, so a run of a pipeline that fails with one
blames the same line of its logical lines (`Pipeline.error_of_process`).

Main statement: which line is blamed, and when it is the right one
(`Stage.apply_comments_blames`). -/
namespace Preassembler
open Text (ascii byte)

namespace Comment

/-! ### Closings -/

theorem afterClosing?_eq_none_iff {t : Text} : afterClosing? t = none ↔ ¬ ascii "*/" <:+: t := by
  have hclose : ascii "*/" = [byte '*', byte '/'] := rfl
  fun_induction afterClosing? t with
  | case1 a b r h =>
    have hfront : a = byte '*' ∧ b = byte '/' := by simpa using h
    simp [hclose, hfront, List.infix_cons_iff]
  | case2 a b r h ih =>
    have hfront : ¬(byte '*' = a ∧ byte '/' = b) := by
      rintro ⟨rfl, rfl⟩
      exact h rfl
    have hlater : ascii "*/" <:+: a :: b :: r ↔ ascii "*/" <:+: b :: r := by
      rw [hclose, List.infix_cons_iff, List.cons_prefix_cons, List.cons_prefix_cons]
      simp only [List.nil_prefix, and_true, hfront, false_or]
    rw [hlater]
    exact ih
  | case3 t h =>
    rcases t with _ | ⟨a, _ | ⟨b, r⟩⟩
    · decide
    · rw [eq_self, true_iff]
      intro hinfix
      exact absurd hinfix.length_le (by simp [hclose])
    · exact absurd rfl (h a b r)

namespace Mode
variable {here l : Line}

/-- A line that begins in code is the only one that can have opened a comment at its end. -/
theorem opener_of_read_code (t : Text) :
    (code.read here t).2 = code ∨ (code.read here t).2 = block here := by
  have hread : ∀ m, (m = code ∨ m = block here) →
      (m.read here t).2 = code ∨ (m.read here t).2 = block here := by
    intro m hm
    fun_induction read here m t with
    | case1 a b r h => exact .inl rfl
    | case2 a b r h h' ih => exact ih (.inr rfl)
    | case3 a b r h h' ih => exact ih (.inl rfl)
    | case4 l a b r h ih => exact ih (.inl rfl)
    | case5 l a b r h ih => exact ih hm
    | case6 a => exact .inl rfl
    | case7 l a => exact hm
    | case8 m => exact hm
  exact hread code (.inl rfl)

/-- Without a closing a comment stays open, from the line that opened it. -/
theorem read_block_of_not_infix {t : Text} (h : ¬ ascii "*/" <:+: t) :
    (block l).read here t = ([], block l) := by
  rw [read_of_afterClosing?, afterClosing?_eq_none_iff.2 h]

/-- Behind a closing only a later opening can leave a comment open. -/
theorem opener_of_read_block {t : Text} (h : ascii "*/" <:+: t) :
    ((block l).read here t).2 = code ∨ ((block l).read here t).2 = block here := by
  rw [read_of_afterClosing?]
  cases hrest : afterClosing? t with
  | none => exact absurd h (afterClosing?_eq_none_iff.1 hrest)
  | some rest => exact opener_of_read_code rest

theorem readLines_append (m : Mode) (a b : List Line) :
    (m.readLines (a ++ b)).2 = ((m.readLines a).2.readLines b).2 := by
  induction a generalizing m with
  | nil => rfl
  | cons l rest ih => exact ih (m.read l l.text).2

theorem readLines_concat (m : Mode) (lines : List Line) (l : Line) :
    (m.readLines (lines ++ [l])).2 = ((m.readLines lines).2.read l l.text).2 :=
  readLines_append m lines [l]

end Mode

/-! ### The remembered line -/

/-- A comment is left open behind lines: `blamed` is the last of them that begins in code, and
`opener` opened the comment. -/
structure LeftOpen (opener : Line) (before : List Line) (blamed : Line) (after : List Line) :
    Prop where
  begins : (Mode.code.readLines before).2 = .code
  stays : ∀ front, front <+: after →
    (Mode.code.readLines (before ++ blamed :: front)).2.inside = true
  ends : (Mode.code.readLines (before ++ blamed :: after)).2 = .block opener
  /-- The right line is blamed if no later one closes a comment, -/
  right : (∀ l ∈ after, ¬ ascii "*/" <:+: l.text) → opener = blamed
  /-- and otherwise the comment was opened by a later line. -/
  late : (∃ l ∈ after, ascii "*/" <:+: l.text) → opener ∈ after

theorem LeftOpen.start {lines : List Line} {l : Line}
    (hcode : (Mode.code.readLines lines).2 = .code)
    (hinside : (Mode.code.readLines (lines ++ [l])).2.inside = true) :
    LeftOpen l lines l [] := by
  have hends : (Mode.code.readLines (lines ++ [l])).2 = .block l := by
    rw [Mode.readLines_concat, hcode] at hinside ⊢
    rcases @Mode.opener_of_read_code l l.text with hread | hread
    · rw [hread] at hinside
      cases hinside
    · exact hread
  refine ⟨hcode, fun front hfront => ?_, hends, fun _ => rfl, nofun⟩
  rw [List.prefix_nil.1 hfront]
  exact hinside

theorem LeftOpen.next {opener blamed l : Line} {before after : List Line}
    (h : LeftOpen opener before blamed after)
    (hinside : (Mode.code.readLines (before ++ blamed :: after ++ [l])).2.inside = true) :
    ∃ opener', LeftOpen opener' before blamed (after ++ [l]) := by
  have hlist : before ++ blamed :: (after ++ [l]) = before ++ blamed :: after ++ [l] := by simp
  have hstays : ∀ front, front <+: after ++ [l] →
      (Mode.code.readLines (before ++ blamed :: front)).2.inside = true := by
    intro front hfront
    rcases List.prefix_concat_iff.1 hfront with rfl | hfront
    · rw [hlist]
      exact hinside
    · exact h.stays front hfront
  have hread : (Mode.code.readLines (before ++ blamed :: (after ++ [l]))).2 =
      ((Mode.block opener).read l l.text).2 := by
    rw [hlist, Mode.readLines_concat, h.ends]
  by_cases hclose : ascii "*/" <:+: l.text
  · -- The line closes the comment; as it ends in one, it opened that one.
    rcases @Mode.opener_of_read_block l opener _ hclose with hcode | hblock
    · rw [← hlist, hread, hcode] at hinside
      cases hinside
    · refine ⟨l, h.begins, hstays, hread.trans hblock, fun hnone => ?_, fun _ => by simp⟩
      exact absurd hclose (hnone l (by simp))
  · rw [Mode.read_block_of_not_infix hclose] at hread
    refine ⟨opener, h.begins, hstays, hread, fun hnone => ?_, fun ⟨l', hl', hclose'⟩ => ?_⟩
    · exact h.right fun l' hl' => hnone l' (List.mem_append_left [l] hl')
    · rcases List.mem_append.1 hl' with hl' | hl'
      · exact List.mem_append_left [l] (h.late ⟨l', hl', hclose'⟩)
      · rw [List.mem_singleton.1 hl'] at hclose'
        exact absurd hclose' hclose

/-- The remembered line is the last one that began in code. -/
theorem leftOpen {lines : List Line} {blamed : Line} (h : remembered none lines = some blamed) :
    ∃ opener before after, lines = before ++ blamed :: after ∧
      LeftOpen opener before blamed after := by
  -- From the back: only the last line can change what was remembered before it.
  induction lines using List.reverseRecOn with
  | nil => cases h
  | append_singleton lines l ih =>
    have hcode : (none : Option Line).isSome = Mode.code.inside := rfl
    have hmode := isSome_remembered hcode lines
    have hinside : (Mode.code.readLines (lines ++ [l])).2.inside = true := by
      rw [← isSome_remembered hcode, h]
      rfl
    have hstep : (step (remembered none lines) l).1 = some blamed := by
      rw [remembered_append] at h
      exact h
    cases hbefore : remembered none lines with
    | none =>
      rw [hbefore] at hmode hstep
      have hcode : (Mode.code.readLines lines).2 = .code := by
        cases hlast : (Mode.code.readLines lines).2 with
        | code => rfl
        | block opener =>
          rw [hlast] at hmode
          cases hmode
      rw [step_eq (m := .code) rfl] at hstep
      obtain rfl : l = blamed := by
        split at hstep
        · exact Option.some.inj hstep
        · cases hstep
      exact ⟨l, lines, [], rfl, .start hcode hinside⟩
    | some first =>
      rw [hbefore, step_eq (m := .block first) rfl] at hstep
      obtain rfl : first = blamed := by
        split at hstep
        · exact Option.some.inj hstep
        · cases hstep
      obtain ⟨opener, before, after, rfl, hopen⟩ := ih hbefore
      obtain ⟨opener', hopen'⟩ := hopen.next hinside
      exact ⟨opener', before, after ++ [l], by simp, hopen'⟩

end Comment

/-! ### Runs of a pipeline -/

/-- A result satisfies `Q`, and an error is not about an open comment. -/
structure Emission.Spares {α : Type} (Q : α → Prop) (x : Emission α) : Prop where
  ok : ∀ a, x.result = .ok a → Q a
  error : ∀ e, x.result = .error e → e.cause ≠ .openComment

namespace Emission
variable {α β : Type} {Q : α → Prop} {R : β → Prop}

theorem spares_iff {x : Emission α} :
    x.Spares Q ↔ x.Obeys (fun _ => True) (fun e => e.cause ≠ .openComment) Q :=
  ⟨fun h => ⟨fun _ _ => trivial, h.error, h.ok⟩, fun h => ⟨h.ok, h.error⟩⟩

theorem Spares.bind {x : Emission α} {f : α → Emission β} (hx : x.Spares Q)
    (hf : ∀ a, Q a → (f a).Spares R) : (x.bind f).Spares R :=
  spares_iff.2 ((spares_iff.1 hx).bind fun a ha => spares_iff.1 (hf a ha))

end Emission

/-- A stage that does not look for comments. -/
def Stage.Heedless : Stage → Prop
  | comments .. => False
  | _ => True

namespace Stage
variable {s : Stage}

theorem Heedless.step (h : s.Heedless) {l : Line} {r : Reply} (hs : s.step l = .ok r) :
    r.stage.Heedless := by
  cases s with
  | comments => exact h.elim
  | macros engine =>
    simp only [Stage.step] at hs
    split at hs <;> cases hs <;> trivial
  | resolve width pending =>
    simp only [Stage.step] at hs
    split at hs <;> cases hs <;> trivial
  | _ => cases hs; trivial

theorem Heedless.step_error (h : s.Heedless) {l : Line} {e : LineError}
    (hs : s.step l = .error e) : e.cause ≠ .openComment := by
  cases s with
  | comments => exact h.elim
  | macros engine =>
    simp only [Stage.step] at hs
    split at hs <;> cases hs
    intro hcause
    cases hcause
  | resolve width pending =>
    simp only [Stage.step] at hs
    split at hs <;> cases hs
    rename_i hresolve
    unfold Label.resolve at hresolve
    intro hcause
    split at hresolve
    · cases hresolve
      cases hcause
    · split at hresolve <;> cases hresolve
      cases hcause
    · cases hresolve
    · cases hresolve
  | _ => cases hs

theorem Heedless.flush (h : s.Heedless) : ∃ r, s.flush = .ok r := by
  cases s with
  | comments => exact h.elim
  | resolve width pending => cases pending <;> exact ⟨_, rfl⟩
  | _ => exact ⟨_, rfl⟩

theorem invariant_heedless :
    Invariant Heedless (fun _ => True) fun e => e.cause ≠ .openComment where
  step h _ hs := ⟨h.step hs, fun _ _ => trivial⟩
  step_error h _ hs := h.step_error hs
  flush _ _ _ _ := trivial
  flush_error h hs := by
    obtain ⟨r, hr⟩ := h.flush
    rw [hr] at hs
    cases hs

end Stage

namespace Chain

def Heedless : {n : Nat} → Chain n → Prop
  | 0, _ => True
  | _ + 1, (s, c) => s.Heedless ∧ Heedless c

theorem heedless_iff {n : Nat} {c : Chain n} : c.Heedless ↔ c.All Stage.Heedless := by
  induction n with
  | zero => exact Iff.rfl
  | succ n ih =>
    obtain ⟨s, c⟩ := c
    exact and_congr_right' ih

theorem heedless_ofList {stages : List Stage} (h : ∀ s ∈ stages, s.Heedless) :
    (ofList stages).Heedless :=
  heedless_iff.2 (all_ofList h)

theorem Heedless.giveAll {n : Nat} {c : Chain n} (h : c.Heedless) (lines : List Line) :
    (c.giveAll lines).Spares Heedless := by
  have hgiven := (heedless_iff.1 h).giveAll Stage.invariant_heedless.toStepInvariant
    fun l (_ : l ∈ lines) => trivial
  exact ⟨fun c' hc' => heedless_iff.2 (hgiven.ok c' hc'), hgiven.error⟩

theorem Heedless.empty {n : Nat} {c : Chain n} (h : c.Heedless) :
    (c.empty n).Spares fun _ => True :=
  Emission.spares_iff.2 ((heedless_iff.1 h).empty Stage.invariant_heedless)

/-- A stage that removes comments, by itself. -/
theorem whole_comments (strict : Bool) (lines : List Line) :
    (single (.comments strict none)).whole lines =
      ⟨Comment.stripped none lines,
        match ((Stage.comments strict none).apply lines).error with
        | none => .ok ()
        | some e => .error e⟩ := by
  have htakes : ∀ opened lines, (Stage.comments strict opened).Takes lines
      (.comments strict (Comment.remembered opened lines)) (Comment.stripped opened lines) := by
    intro opened lines
    induction lines generalizing opened with
    | nil => exact .nil
    | cons l rest ih =>
      exact .cons (r := ⟨_, [], [(Comment.step opened l).2]⟩) rfl (ih (Comment.step opened l).1)
  rw [whole, giveAll_single (htakes none lines), Emission.bind_of_ok rfl, Stage.apply_comments]
  cases hopen : Comment.remembered none lines with
  | none =>
    rw [empty_single (r := ⟨.comments strict none, [], []⟩) rfl]
    cases strict <;> simp
  | some l =>
    cases strict with
    | false =>
      rw [empty_single (r := ⟨.comments false (some l), [], []⟩) rfl]
      simp
    | true =>
      have hrefused : (single (.comments true (some l))).empty 1 =
          ⟨[], .error ⟨l, .openComment⟩⟩ := empty_of_refused rfl
      rw [hrefused]
      simp

end Chain

namespace Pipeline
open Continuation (Group)

/-- The logical lines of a source, as they come to the stage that removes comments. -/
def joinedLines (texts : List Text) : List Line := (logicalLines texts).flatMap Group.joined

/-- The stages behind the one that removes comments. -/
def codeStages (p : Pipeline) : List Stage := p.laterStages.tail

theorem heedless_codeStages (p : Pipeline) : (Chain.ofList p.codeStages).Heedless := by
  refine Chain.heedless_ofList fun s hs => ?_
  simp only [codeStages, laterStages, List.cons_append, List.tail_cons, List.mem_append,
    List.mem_cons, List.mem_ite_nil_right, List.not_mem_nil, or_false, false_or] at hs
  obtain rfl | rfl | rfl | rfl | rfl | rfl | ⟨-, rfl⟩ | rfl := hs <;> trivial

/-- The code goes through the stages behind; if a comment is left open and the rules are strict, they
take all of it but are not flushed. -/
theorem emission_eq_code (p : Pipeline) (texts : List Text) :
    p.emission texts =
      match ((Stage.comments p.options.strictComments none).apply (joinedLines texts)).error with
      | none => (Chain.ofList p.codeStages).whole (Comment.stripped none (joinedLines texts))
      | some e => ((Chain.ofList p.codeStages).giveAll
          (Comment.stripped none (joinedLines texts))).bind fun _ => ⟨[], .error e⟩ := by
  have hwhole : p.emission texts =
      (((Chain.single (.comments p.options.strictComments none)).whole (joinedLines texts)).pipe
        (Chain.ofList p.codeStages)).bind fun y => Chain.empty _ y.2 := by
    rw [emission_eq, ← Chain.whole_append]
    rfl
  rw [hwhole, Chain.whole_comments]
  cases ((Stage.comments p.options.strictComments none).apply (joinedLines texts)).error with
  | none =>
    rw [Emission.pipe_of_ok (a := ()) rfl, Emission.bind_map]
    rfl
  | some e =>
    rw [Emission.pipe_of_error rfl, Emission.bind_assoc]
    rfl

/-- **Only the stage that removes comments blames an open comment.** -/
theorem error_of_process {p : Pipeline} {texts : List Text} {e : LineError}
    (h : p.process texts = .error (.line e)) (hcause : e.cause = .openComment) :
    ((Stage.comments p.options.strictComments none).apply (joinedLines texts)).error = some e := by
  have hheedless := p.heedless_codeStages
  have herror : (p.emission texts).result = .error e := by
    rw [process_eq_answer, Emission.answer] at h
    split at h
    · cases h
    · rename_i hresult
      rw [hresult, Fault.line.inj (Except.error.inj h)]
  rw [emission_eq_code] at herror
  cases hcomments : ((Stage.comments p.options.strictComments none).apply
      (joinedLines texts)).error with
  | none =>
    rw [hcomments] at herror
    exact absurd hcause (((hheedless.giveAll _).bind fun c hc => hc.empty).error e herror)
  | some e' =>
    rw [hcomments] at herror
    dsimp only at herror
    cases hgive : ((Chain.ofList p.codeStages).giveAll
        (Comment.stripped none (joinedLines texts))).result with
    | error e'' =>
      rw [Emission.bind_of_error hgive] at herror
      obtain rfl := Except.error.inj herror
      exact absurd hcause ((hheedless.giveAll _).error _ hgive)
    | ok c =>
      rw [Emission.bind_of_ok hgive] at herror
      rw [Except.error.inj herror]

end Pipeline

/-! ### Whom a run blames -/

namespace Stage
open Comment (Mode LeftOpen)

/-- **An open comment is blamed on the last line that began in code.** A strict stage whose lines
end in a block comment blames the last line that began outside of one; from there on every line ends
inside. That is the line that opened the comment unless a later line closes one, and then a later
line opened the comment. A run of a pipeline that fails with an open comment blames the same line of
its logical lines. -/
theorem apply_comments_blames {lines : List Line} {opener : Line}
    (h : (Mode.code.readLines lines).2 = .block opener) :
    ∃ before blamed after, lines = before ++ blamed :: after ∧
      LeftOpen opener before blamed after ∧
      ((comments true none).apply lines).error = some ⟨blamed, .openComment⟩ ∧
      ∀ (p : Pipeline) texts e, Pipeline.joinedLines texts = lines →
        p.process texts = .error (.line e) → e.cause = .openComment → e.line = blamed := by
  have hsome : (Comment.remembered none lines).isSome = true := by
    rw [Comment.isSome_remembered (m := .code) rfl, h]
    rfl
  obtain ⟨blamed, hblamed⟩ := Option.isSome_iff_exists.1 hsome
  obtain ⟨opener', before, after, rfl, hopen⟩ := Comment.leftOpen hblamed
  obtain rfl : opener' = opener := Mode.block.inj (hopen.ends.symm.trans h)
  refine ⟨before, blamed, after, rfl, hopen, ?_, fun p texts e hlines hprocess hcause => ?_⟩
  · rw [apply_comments, hblamed]
    rfl
  · have herror := Pipeline.error_of_process hprocess hcause
    rw [hlines, apply_comments, hblamed] at herror
    split at herror
    · exact congrArg LineError.line (Option.some.inj herror).symm
    · cases herror

/-- A comment that is closed and opened again in one line is blamed on the line before it. -/
theorem apply_comments_blames_reopened :
    let lines : List Line := [⟨1, ascii "a /* x"⟩, ⟨2, ascii "*/ b /* y"⟩, ⟨3, ascii "z"⟩]
    (Mode.code.readLines lines).2 = .block ⟨2, ascii "*/ b /* y"⟩ ∧
      ∃ before blamed after, lines = before ++ blamed :: after ∧
        ((comments true none).apply lines).error = some ⟨blamed, .openComment⟩ ∧
        LeftOpen ⟨2, ascii "*/ b /* y"⟩ before blamed after := by
  intro lines
  have hends : (Mode.code.readLines lines).2 = .block ⟨2, ascii "*/ b /* y"⟩ := by decide
  obtain ⟨before, blamed, after, hlines, hopen, herror, -⟩ := apply_comments_blames hends
  exact ⟨hends, before, blamed, after, hlines, herror, hopen⟩

/-- The line that opened a comment is not always the one that is blamed, neither by the stage nor in
a run of a strict pipeline. -/
theorem apply_comments_blames_other :
    let texts := [ascii "a /* x", ascii "*/ b /* y"]
    (Mode.code.readLines (Pipeline.numbered texts)).2 = .block ⟨2, ascii "*/ b /* y"⟩ ∧
      ((comments true none).apply (Pipeline.numbered texts)).error =
        some ⟨⟨1, ascii "a /* x"⟩, .openComment⟩ ∧
      Pipeline.process ⟨{ strictComments := true }, .new 64⟩ texts =
        .error (.line ⟨⟨1, ascii "a /* x"⟩, .openComment⟩) := by
  intro texts
  exact ⟨by decide, by cbv, by cbv⟩

end Stage

end Preassembler
