import Preassembler.Proofs.Comments.Automaton
import Preassembler.Proofs.Listing.Instruction
import Preassembler.Proofs.Listing.LogicalLine

/-! Comments are removed once.

What the stage gives out holds no delimiter, so a second one keeps all of it and never enters a
block comment (`Comment.stripped_of_clear`). Trimming in front and behind changes nothing about
this: it takes a part out of the middle of a text, and nothing away from a trimmed text
(`Stage.present_of_tidy`).

Main statement: removing comments is idempotent, alone and between two trimmings
(`Stage.apply_comments_idempotent`). -/
namespace Preassembler
open Text (ascii Trimmed)

namespace Comment

/-- A line without delimiters is left as it is. -/
theorem step_of_clear {l : Line} (h : Clear l.text) : step none l = (none, l) := by
  rw [step_eq (m := .code) rfl, Mode.read_of_clear h]
  rfl

/-- Lines without delimiters are left as they are, and no comment is open behind them. -/
theorem stripped_of_clear {lines : List Line} (h : ∀ l ∈ lines, Clear l.text) :
    stripped none lines = lines ∧ remembered none lines = none := by
  induction lines with
  | nil => exact ⟨rfl, rfl⟩
  | cons l rest ih =>
    obtain ⟨hrest, hnone⟩ := ih fun l' hl' => h l' (List.mem_cons_of_mem l hl')
    rw [stripped, remembered, List.foldl_cons, step_of_clear (h l List.mem_cons_self)]
    exact ⟨congrArg (l :: ·) hrest, hnone⟩

end Comment

namespace Stage
open Comment (Clear)

/-! ### Between two trimmings -/

/-- What trimming, removing comments and trimming again leaves of lines, whether or not a comment is
left open at their end. -/
def tidied (strict : Bool) (lines : List Line) : List Line :=
  (trim.apply ((comments strict none).apply (trim.apply lines).lines).lines).lines

/-- What trimming a text without comments leaves, if anything is left. -/
structure Tidy (t : Text) : Prop where
  filled : t ≠ []
  trimmed : Trimmed t
  clear : Clear t

theorem lines_apply_trim (lines : List Line) :
    (trim.apply lines).lines = lines.flatMap present := by
  have hcomplete := complete_trim lines
  unfold complete at hcomplete
  split at hcomplete
  · cases hcomplete
  · exact Except.ok.inj hcomplete

theorem tidy_of_mem_present {l l' : Line} (hl : Clear l.text) (h : l' ∈ present l) :
    Tidy l'.text := by
  unfold present at h
  split at h
  · cases h
  · rename_i hne
    obtain rfl := List.mem_singleton.1 h
    exact ⟨by simpa using hne, Text.trimmed_trim l.text, hl.of_infix l.text.trim_infix⟩

theorem present_of_tidy {l : Line} (h : Tidy l.text) : present l = [l] := by
  have htrim : l.text.trim = l.text := Text.trim_eq_self h.trimmed
  have hne : l.text.isEmpty = false := by simpa using h.filled
  simp [present, htrim, hne]

theorem flatMap_present_of_tidy {lines : List Line} (h : ∀ l ∈ lines, Tidy l.text) :
    lines.flatMap present = lines := by
  induction lines with
  | nil => rfl
  | cons l rest ih =>
    rw [List.flatMap_cons, present_of_tidy (h l List.mem_cons_self),
      ih fun l' hl' => h l' (List.mem_cons_of_mem l hl')]
    rfl

theorem tidy_of_mem_tidied {strict : Bool} {lines : List Line} {l : Line}
    (h : l ∈ tidied strict lines) : Tidy l.text := by
  rw [tidied, lines_apply_trim, apply_comments, List.mem_flatMap] at h
  obtain ⟨source, hsource, hl⟩ := h
  exact tidy_of_mem_present (Comment.clear_of_mem_stripped hsource) hl

/-! ### Twice is once -/

/-- Lines without delimiters go through the stage unchanged, and it does not fail. -/
theorem apply_comments_of_clear (strict : Bool) {lines : List Line}
    (h : ∀ l ∈ lines, Clear l.text) : (comments strict none).apply lines = ⟨lines, [], none⟩ := by
  obtain ⟨hlines, hnone⟩ := Comment.stripped_of_clear h
  rw [apply_comments, hlines, hnone]
  cases strict <;> rfl

/-- **Removing comments is idempotent.** No line that the stage gives out, strict or not, holds `//`
or `/*`; a second stage gives out the same lines again, and does not fail even if it is strict. So
it is with trimming, removing comments and trimming again: done twice it leaves the same as done
once, and the second time it does not fail. -/
theorem apply_comments_idempotent (strict strict' : Bool) (lines : List Line) :
    (∀ l ∈ ((comments strict none).apply lines).lines,
        ¬ ascii "//" <:+: l.text ∧ ¬ ascii "/*" <:+: l.text) ∧
      (comments strict' none).apply ((comments strict none).apply lines).lines =
        ⟨((comments strict none).apply lines).lines, [], none⟩ ∧
      tidied strict' (tidied strict lines) = tidied strict lines ∧
      Pipeline.through [trim, comments strict' none, trim] (tidied strict lines) =
        .ok (tidied strict lines) := by
  have hclear : ∀ l ∈ ((comments strict none).apply lines).lines, Clear l.text := by
    intro l hl
    rw [apply_comments] at hl
    exact Comment.clear_of_mem_stripped hl
  have htidy : ∀ l ∈ tidied strict lines, Tidy l.text := fun l hl => tidy_of_mem_tidied hl
  have hpresent : (tidied strict lines).flatMap present = tidied strict lines :=
    flatMap_present_of_tidy htidy
  have hkept := apply_comments_of_clear strict' fun l hl => (htidy l hl).clear
  have htrim : trim.complete (tidied strict lines) = .ok (tidied strict lines) := by
    rw [complete_trim, hpresent]
  have hcomments : (comments strict' none).complete (tidied strict lines) =
      .ok (tidied strict lines) := by
    rw [complete, hkept]
  have htwice : tidied strict' (tidied strict lines) = tidied strict lines := by
    conv_lhs => rw [tidied, lines_apply_trim, lines_apply_trim, hpresent, hkept, hpresent]
  refine ⟨hclear, apply_comments_of_clear strict' hclear, htwice, ?_⟩
  rw [Pipeline.through_cons_eq_ok_iff]
  refine ⟨_, htrim, ?_⟩
  rw [Pipeline.through_cons_eq_ok_iff]
  refine ⟨_, hcomments, ?_⟩
  rw [Pipeline.through_cons_eq_ok_iff]
  exact ⟨_, htrim, rfl⟩

end Stage

end Preassembler
