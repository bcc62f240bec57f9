import Preassembler.Pipeline.Source

/-! Reading lines.

The reader cuts a text at its newlines. An empty piece behind the last newline is no line, and one
carriage return at the end of a piece belongs to the line's end. `linesOf` is what these rules make of
a text; the reader's limit is on the pieces, so that a carriage return counts.

Main statement: a text is read as its lines if all of its pieces fit (`read_of_short`). -/
namespace Preassembler
open Text (byte)

/-- A text without a certain byte at its end is a part of the text. -/
theorem Text.sublist_of_dropLast? (b : UInt8) (t : Text) :
    ((dropLast? b t).getD t).Sublist t := by
  cases h : dropLast? b t with
  | none => exact List.Sublist.refl t
  | some r =>
    rw [dropLast?_eq_some_iff.1 h]
    exact List.sublist_append_left r [b]

namespace Source

/-- Pieces without the last one if that is empty. -/
def dropEmptyLast : List Text → List Text
  | [] => []
  | [piece] => if piece.isEmpty then [] else [piece]
  | piece :: rest => piece :: dropEmptyLast rest

/-- The lines of a text. -/
def linesOf (t : Text) : List Text := (dropEmptyLast (t.splitOn (byte '\n'))).map dropReturn

/-- Whether what is between the newlines of a text fits into the reader's limit. -/
def Short (t : Text) : Prop := ∀ piece ∈ t.splitOn (byte '\n'), piece.length < lineLimit

instance (t : Text) : Decidable (Short t) :=
  inferInstanceAs (Decidable (∀ piece ∈ t.splitOn (byte '\n'), piece.length < lineLimit))

theorem dropEmptyLast_cons (piece : Text) {rest : List Text} (h : rest ≠ []) :
    dropEmptyLast (piece :: rest) = piece :: dropEmptyLast rest := by
  cases rest with
  | nil => exact absurd rfl h
  | cons piece' rest => rfl

theorem collect_of_short (seen : List Text) {pieces : List Text}
    (h : ∀ piece ∈ pieces, piece.length < lineLimit) :
    collect none seen pieces = ⟨seen.reverse ++ (dropEmptyLast pieces).map dropReturn, none⟩ := by
  induction pieces generalizing seen with
  | nil => simp [collect, dropEmptyLast]
  | cons piece rest ih =>
    rw [List.forall_mem_cons] at h
    have hfits : ¬ lineLimit ≤ piece.length := Nat.not_le_of_lt h.1
    cases rest with
    | nil =>
      cases hempty : piece.isEmpty <;> simp [collect, dropEmptyLast, hempty, hfits]
    | cons piece' rest =>
      rw [collect, if_neg hfits, ih _ h.2, dropEmptyLast_cons piece (List.cons_ne_nil _ _)]
      · simp
      · exact nofun

/-- **A text is read as its lines if all of its pieces fit.** -/
theorem read_of_short {t : Text} (h : Short t) : read t none = ⟨linesOf t, none⟩ :=
  collect_of_short [] h

/-- Behind a newline the lines begin anew. -/
theorem linesOf_append {line : Text} (h : byte '\n' ∉ line) (t : Text) :
    linesOf (line ++ byte '\n' :: t) = dropReturn line :: linesOf t := by
  rw [linesOf, List.splitOn_append_cons_self_of_not_mem h,
    dropEmptyLast_cons line (List.splitOn_ne_nil _ _), List.map_cons, linesOf]

theorem dropReturn_eq_or (t : Text) : dropReturn t = t ∨ t = dropReturn t ++ [byte '\r'] := by
  rw [dropReturn]
  cases h : Text.dropLast? (byte '\r') t with
  | none => exact .inl rfl
  | some r => exact .inr (Text.dropLast?_eq_some_iff.1 h)

theorem dropReturn_sublist (t : Text) : (dropReturn t).Sublist t :=
  Text.sublist_of_dropLast? (byte '\r') t

/-- Every line that is read is a piece without its carriage return. -/
theorem mem_lines_collect {error : Option SourceError} {seen pieces : List Text} {line : Text}
    (h : line ∈ (collect error seen pieces).lines) :
    line ∈ seen ∨ ∃ piece ∈ pieces, line = dropReturn piece := by
  fun_induction collect error seen pieces with
  | case1 => exact .inl (List.mem_reverse.1 h)
  | case2 => exact .inl (List.mem_reverse.1 h)
  | case3 => exact .inl (List.mem_reverse.1 h)
  | case4 seen piece =>
    rcases List.mem_cons.1 (List.mem_reverse.1 h) with rfl | h
    · exact .inr ⟨piece, List.mem_cons_self, rfl⟩
    · exact .inl h
  | case5 => exact .inl (List.mem_reverse.1 h)
  | case6 seen piece rest _ _ ih =>
    rcases ih h with h | ⟨piece', hpiece', rfl⟩
    · rcases List.mem_cons.1 h with rfl | h
      · exact .inr ⟨piece, List.mem_cons_self, rfl⟩
      · exact .inl h
    · exact .inr ⟨piece', List.mem_cons_of_mem piece hpiece', rfl⟩

theorem mem_lines_read {t : Text} {error : Option SourceError} {line : Text}
    (h : line ∈ (read t error).lines) : ∃ piece ∈ t.splitOn (byte '\n'), line = dropReturn piece :=
  (mem_lines_collect h).resolve_left List.not_mem_nil

end Source

end Preassembler
