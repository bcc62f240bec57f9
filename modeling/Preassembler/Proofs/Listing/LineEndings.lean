import Preassembler.Proofs.Listing.BrokenLine
import Preassembler.Proofs.Pipeline.Delivery
import Preassembler.Proofs.Pipeline.Reading

/-! Line endings.

The reader takes one carriage return from the end of a line, and whatever else stands there is white
space for the first stage: it takes away all carriage returns at the end of a line, the last one or
not. No white-space character begins in a line and ends in the white space behind it
(`Text.uncut_blank`), so that trimming a line does not depend on how much there is
(`Text.trim_append_blank`). What a pipeline makes of lines depends on the trimmed lines only
(`Pipeline.emission_congr`).

Main statement: the listing of a text is that of its lines, whatever their endings
(`Pipeline.listing_eq_process`). -/
namespace Preassembler
open Text (byte)

/-! ### Carriage returns behind a line -/

namespace Text

theorem trim_append_return (t : Text) : (t ++ [byte '\r']).trim = t.trim :=
  trim_append_blank (by decide) t

theorem trim_dropReturn (t : Text) : (Source.dropReturn t).trim = t.trim := by
  rcases Source.dropReturn_eq_or t with h | h
  · rw [h]
  · conv_rhs => rw [h, trim_append_return]

/-! ### Carriage returns in front of newlines -/

/-- The same text with carriage returns in front of some of its newlines. -/
inductive WithReturns : Text → Text → Prop
  | nil : WithReturns [] []
  | cons (b : UInt8) {t t' : Text} (h : WithReturns t t') : WithReturns (b :: t) (b :: t')
  | newline {t t' : Text} (h : WithReturns t t') :
    WithReturns (byte '\n' :: t) (byte '\r' :: byte '\n' :: t')

end Text

namespace Source
open Text (WithReturns)

/-- Whether the reader's limit leaves room for an ending of two bytes behind each line. -/
structure Fits (t : Text) : Prop where
  ended : ∀ piece ∈ (t.splitOn (byte '\n')).dropLast, piece.length + 2 ≤ lineLimit
  last : ∀ piece ∈ (t.splitOn (byte '\n')).getLast?, piece.length < lineLimit

/-- Pieces between newlines, and the same with carriage returns at the ends of some. There is none
behind the last one, where there is no newline. -/
inductive Returned : List Text → List Text → Prop
  | last (piece : Text) : Returned [piece] [piece]
  | same (piece : Text) {rest rest' : List Text} (h : Returned rest rest') :
    Returned (piece :: rest) (piece :: rest')
  | returned (piece : Text) {rest rest' : List Text} (h : Returned rest rest') :
    Returned (piece :: rest) ((piece ++ [byte '\r']) :: rest')

namespace Returned
variable {pieces pieces' : List Text}

theorem ne_nil (h : Returned pieces pieces') : pieces ≠ [] ∧ pieces' ≠ [] := by
  cases h <;> exact ⟨List.cons_ne_nil _ _, List.cons_ne_nil _ _⟩

theorem refl (h : pieces ≠ []) : Returned pieces pieces := by
  induction pieces with
  | nil => exact absurd rfl h
  | cons piece rest ih =>
    by_cases hrest : rest = []
    · exact hrest ▸ .last piece
    · exact .same piece (ih hrest)

theorem modifyHead (h : Returned pieces pieces') (b : UInt8) :
    Returned (pieces.modifyHead (b :: ·)) (pieces'.modifyHead (b :: ·)) := by
  cases h with
  | last piece => exact .last (b :: piece)
  | same piece h => exact .same (b :: piece) h
  | returned piece h => exact .returned (b :: piece) h

theorem of_withReturns {t t' : Text} (h : WithReturns t t') :
    Returned (t.splitOn (byte '\n')) (t'.splitOn (byte '\n')) := by
  induction h with
  | nil => exact .last []
  | cons b h ih =>
    rw [List.splitOn_cons_eq_if_modifyHead, List.splitOn_cons_eq_if_modifyHead]
    split
    · exact .same [] ih
    · exact ih.modifyHead b
  | newline h ih => exact .returned [] ih

/-- Nothing of the carriage returns is left in the trimmed lines. -/
theorem trims (h : Returned pieces pieces') :
    (dropEmptyLast pieces').map Text.trim = (dropEmptyLast pieces).map Text.trim := by
  induction h with
  | last piece => rfl
  | same piece h ih =>
    rw [dropEmptyLast_cons piece h.ne_nil.1, dropEmptyLast_cons piece h.ne_nil.2, List.map_cons,
      List.map_cons, ih]
  | returned piece h ih =>
    rw [dropEmptyLast_cons piece h.ne_nil.1, dropEmptyLast_cons _ h.ne_nil.2, List.map_cons,
      List.map_cons, ih, Text.trim_append_return]

theorem short (h : Returned pieces pieces')
    (hended : ∀ piece ∈ pieces.dropLast, piece.length + 2 ≤ lineLimit)
    (hlast : ∀ piece ∈ pieces.getLast?, piece.length < lineLimit) :
    ∀ piece ∈ pieces', piece.length < lineLimit := by
  induction h with
  | last piece => simpa using hlast piece rfl
  | same piece h ih =>
    rw [List.dropLast_cons_of_ne_nil h.ne_nil.1, List.forall_mem_cons] at hended
    rw [List.getLast?_cons_of_ne_nil h.ne_nil.1] at hlast
    exact List.forall_mem_cons.2 ⟨Nat.lt_of_succ_lt hended.1, ih hended.2 hlast⟩
  | returned piece h ih =>
    rw [List.dropLast_cons_of_ne_nil h.ne_nil.1, List.forall_mem_cons] at hended
    rw [List.getLast?_cons_of_ne_nil h.ne_nil.1] at hlast
    have hroom : (piece ++ [byte '\r']).length < lineLimit := by
      rw [List.length_append]
      exact hended.1
    exact List.forall_mem_cons.2 ⟨hroom, ih hended.2 hlast⟩

end Returned

theorem map_trim_linesOf (t : Text) :
    (linesOf t).map Text.trim = (dropEmptyLast (t.splitOn (byte '\n'))).map Text.trim := by
  rw [linesOf, List.map_map]
  exact List.map_congr_left fun piece _ => Text.trim_dropReturn piece

end Source

/-! ### Listings -/

namespace Pipeline
open Preassembler.Flow (numberedFrom numberedFrom_zero)

theorem present_numberedFrom {a b : List Text} (h : a.map Text.trim = b.map Text.trim) (n : Nat) :
    (numberedFrom n a).flatMap Stage.present = (numberedFrom n b).flatMap Stage.present := by
  induction a generalizing b n with
  | nil =>
    cases b with
    | nil => rfl
    | cons u b => cases h
  | cons t a ih =>
    cases b with
    | nil => cases h
    | cons u b =>
      obtain ⟨hfirst, hrest⟩ := List.cons.inj h
      rw [numberedFrom, numberedFrom, List.flatMap_cons, List.flatMap_cons, ih hrest,
        Stage.present, Stage.present, show t.trim = u.trim from hfirst]

/-- **What a pipeline makes of lines depends on the trimmed lines only.** -/
theorem emission_congr (p : Pipeline) {a b : List Text} (h : a.map Text.trim = b.map Text.trim) :
    p.emission a = p.emission b := by
  rw [emission_eq, emission_eq, logicalLines, logicalLines, ← numberedFrom_zero,
    ← numberedFrom_zero, present_numberedFrom h]

theorem listing_of_short (p : Pipeline) {t : Text} (h : Source.Short t) :
    p.listing t = (p.process (Source.linesOf t)).map listingText := by
  rw [listing_eq, Source.read_of_short h, process]

/-- **The listing of a text is that of its lines, whatever their endings.** The lines of a text are
what stands between its newlines, without an empty last one and with one carriage return taken from
the end of each. Any newlines may become a carriage return and a newline. -/
theorem listing_eq_process (p : Pipeline) {t : Text} (hfits : Source.Fits t) :
    p.listing t = (p.process (Source.linesOf t)).map listingText ∧
      ∀ t', Text.WithReturns t t' → p.listing t' = p.listing t := by
  have hself := Source.Returned.refl (List.splitOn_ne_nil (byte '\n') t)
  have hlisting := p.listing_of_short (hself.short hfits.ended hfits.last)
  refine ⟨hlisting, fun t' ht' => ?_⟩
  have hreturned := Source.Returned.of_withReturns ht'
  have htrims : (Source.linesOf t').map Text.trim = (Source.linesOf t).map Text.trim := by
    rw [Source.map_trim_linesOf, Source.map_trim_linesOf, hreturned.trims]
  rw [p.listing_of_short (hreturned.short hfits.ended hfits.last), hlisting, process_eq_answer,
    process_eq_answer, p.emission_congr htrims]

open Text (ascii) in
/-- Two carriage returns at the end of a line, a blank line, and a last line without an ending. -/
theorem listing_eq_process_returns :
    let t := ascii "one: noop\r\n\n beq 0 0 one"
    let t' := ascii "one: noop\r\r\n\r\n beq 0 0 one"
    Source.Fits t ∧ Text.WithReturns t t' ∧
      Source.linesOf t = [ascii "one: noop", [], ascii " beq 0 0 one"] ∧
      listing ⟨{}, .new 64⟩ t' = .ok (ascii "one    noop\n       beq 0 0 one\n") := by
  intro t t'
  have hfits : Source.Fits t := ⟨by decide, by decide⟩
  have hreturns : Text.WithReturns t t' := by
    repeat first | exact .nil | apply Text.WithReturns.newline | apply Text.WithReturns.cons
  have hlines : Source.linesOf t = [ascii "one: noop", [], ascii " beq 0 0 one"] := by decide
  obtain ⟨hlisting, hsame⟩ := listing_eq_process ⟨{}, .new 64⟩ hfits
  rw [hlines] at hlisting
  refine ⟨hfits, hreturns, hlines, (hsame t' hreturns).trans (hlisting.trans ?_)⟩
  cbv

end Pipeline

end Preassembler
