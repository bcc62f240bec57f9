import Preassembler.Proofs.Expansion.Substitution

/-! Argument lists as they are written.

`Spaced args inner` says that `inner` is one way to write the arguments between the parentheses of a
call: blanks around them and at least one between two. However they are written, they are read back
(`Spaced.arguments_eq`). A list is found where a text begins with one, behind any blanks, and only
there (`Encloses.callAt?_eq`, `encloses_of_callAt?`). -/
namespace Preassembler.Macro
open Text (byte isLetter isLower isUpper isDigit)

/-! ### Words -/

section Words
variable {sep : UInt8 → Bool}

theorem wordsBy_cons_of_sep {b : UInt8} (hb : sep b = true) (t : Text) :
    Text.wordsBy sep (b :: t) = Text.wordsBy sep t := by
  rw [Text.wordsBy, List.splitOnP_cons_eq_if_modifyHead, if_pos hb]
  rfl

theorem wordsBy_append_of_sep {x : Text} (hx : ∀ b ∈ x, sep b = true) (t : Text) :
    Text.wordsBy sep (x ++ t) = Text.wordsBy sep t := by
  induction x with
  | nil => rfl
  | cons b x ih =>
    rw [List.cons_append, wordsBy_cons_of_sep (hx b List.mem_cons_self),
      ih fun c hc => hx c (List.mem_cons_of_mem b hc)]

theorem wordsBy_nil : Text.wordsBy sep [] = [] := rfl

theorem wordsBy_word {w : Text} (hne : w ≠ []) (hw : ∀ b ∈ w, sep b = false) {b : UInt8}
    (hb : sep b = true) (t : Text) :
    Text.wordsBy sep (w ++ b :: t) = w :: Text.wordsBy sep t := by
  rw [Text.wordsBy, List.splitOnP_append_cons_of_forall_mem hw b hb, List.filter_cons_of_pos]
  · rfl
  · simpa using hne

theorem wordsBy_last {w : Text} (hne : w ≠ []) (hw : ∀ b ∈ w, sep b = false) :
    Text.wordsBy sep w = [w] := by
  rw [Text.wordsBy, List.splitOnP_eq_singleton hw, List.filter_cons_of_pos]
  · rfl
  · simpa using hne

end Words

/-! ### Arguments between parentheses -/

/-- White space only. -/
def Blanks (t : Text) : Prop := ∀ b ∈ t, isGapByte b = true

instance (t : Text) : Decidable (Blanks t) :=
  decidable_of_iff (t.all isGapByte = true) List.all_eq_true

/-- What can be written as one argument: not empty, without white space and closing parenthesis. -/
structure IsArgument (a : Text) : Prop where
  ne_nil : a ≠ []
  dense : ∀ b ∈ a, isGapByte b = false
  enclosed : byte ')' ∉ a

theorem isArgument_iff {a : Text} :
    IsArgument a ↔ a ≠ [] ∧ a.all (!isGapByte ·) = true ∧ byte ')' ∉ a := by
  have hdense : a.all (!isGapByte ·) = true ↔ ∀ b ∈ a, isGapByte b = false := by simp
  rw [hdense]
  exact ⟨fun h => ⟨h.ne_nil, h.dense, h.enclosed⟩, fun ⟨hne, hgap, hclose⟩ => ⟨hne, hgap, hclose⟩⟩

instance (a : Text) : Decidable (IsArgument a) := decidable_of_iff _ isArgument_iff.symm

/-- One or more arguments with blanks around them, and at least one between two. -/
inductive Spaced : List Text → Text → Prop where
  | last {before a behind} : Blanks before → IsArgument a → Blanks behind →
      Spaced [a] (before ++ (a ++ behind))
  | more {before a between args rest} : Blanks before → IsArgument a → Blanks between →
      between ≠ [] → Spaced args rest → Spaced (a :: args) (before ++ (a ++ (between ++ rest)))

theorem not_name_of_gap {b : UInt8} (h : isGapByte b = true) : isNameByte b = false := by
  grind [isGapByte, isNameByte, isLetter, isLower, isUpper, isDigit]

theorem close_not_mem_blanks {t : Text} (h : Blanks t) : byte ')' ∉ t := by
  intro hmem
  have hblank := h _ hmem
  exact absurd hblank (by decide)

namespace Spaced
variable {args : List Text} {inner : Text}

theorem ne_nil (h : Spaced args inner) : inner ≠ [] := by
  cases h with
  | last _ ha _ => simp [ha.ne_nil]
  | more _ ha _ _ _ => simp [ha.ne_nil]

theorem close_not_mem (h : Spaced args inner) : byte ')' ∉ inner := by
  induction h with
  | last hbefore ha hbehind =>
    simp only [List.mem_append, not_or]
    exact ⟨close_not_mem_blanks hbefore, ha.enclosed, close_not_mem_blanks hbehind⟩
  | more hbefore ha hbetween _ _ ih =>
    simp only [List.mem_append, not_or]
    exact ⟨close_not_mem_blanks hbefore, ha.enclosed, close_not_mem_blanks hbetween, ih⟩

/-- Arguments are read as they were written. -/
theorem arguments_eq (h : Spaced args inner) : arguments inner = args := by
  induction h with
  | @last before a behind hbefore ha hbehind =>
    rw [arguments, wordsBy_append_of_sep hbefore]
    cases behind with
    | nil => rw [List.append_nil, wordsBy_last ha.ne_nil ha.dense]
    | cons b behind =>
      have hrest := wordsBy_append_of_sep (fun c hc => hbehind c (List.mem_cons_of_mem b hc)) []
      rw [wordsBy_word ha.ne_nil ha.dense (hbehind b List.mem_cons_self)]
      rw [List.append_nil, wordsBy_nil] at hrest
      rw [hrest]
  | @more before a between args rest hbefore ha hbetween hne _ ih =>
    obtain ⟨b, between, rfl⟩ := List.exists_cons_of_ne_nil hne
    rw [arguments, wordsBy_append_of_sep hbefore, List.cons_append,
      wordsBy_word ha.ne_nil ha.dense (hbetween b List.mem_cons_self),
      wordsBy_append_of_sep fun c hc => hbetween c (List.mem_cons_of_mem b hc)]
    exact congrArg (a :: ·) ih

end Spaced

/-! ### Argument lists -/

/-- A text that begins with an argument list: blanks, an opening parenthesis, something between the
parentheses, and the first closing one, with `rest` behind it. -/
structure Encloses (t gap inner rest : Text) : Prop where
  text_eq : t = gap ++ byte '(' :: (inner ++ byte ')' :: rest)
  blanks : Blanks gap
  ne_nil : inner ≠ []
  close_not_mem : byte ')' ∉ inner

/-- An argument list is recognised wherever there is one. -/
theorem Encloses.callAt?_eq {t gap inner rest : Text} (h : Encloses t gap inner rest) :
    callAt? t = some ⟨arguments inner, gap.length + inner.length + 2, rest⟩ := by
  have hopen : ∀ b ∈ (byte '(' :: (inner ++ byte ')' :: rest)).head?, isGapByte b = false := by
    intro b hb
    obtain rfl := Option.some.inj hb
    decide
  have hinside : ∀ b ∈ inner, (b != byte ')') = true := by
    intro b hb
    rw [bne_iff_ne]
    intro heq
    exact h.close_not_mem (heq ▸ hb)
  have hend : ∀ b ∈ (byte ')' :: rest).head?, (b != byte ')') = false := by
    intro b hb
    obtain rfl := Option.some.inj hb
    decide
  have hnonempty : inner.isEmpty = false := by simpa using h.ne_nil
  unfold callAt?
  rw [h.text_eq, dropWhile_front h.blanks hopen, takeWhile_front h.blanks hopen]
  simp only [beq_self_eq_true, if_true, takeWhile_front hinside hend, dropWhile_front hinside hend,
    hnonempty, Bool.false_eq_true, if_false]

/-- Where an argument list is recognised there is one, and what was read of it is in its place. -/
theorem encloses_of_callAt? {t : Text} {c : Call} (h : callAt? t = some c) :
    ∃ gap inner, Encloses t gap inner c.rest ∧ c.args = arguments inner ∧
      c.size = gap.length + inner.length + 2 := by
  unfold callAt? at h
  split at h
  · cases h
  · rename_i b r hr
    have ht : t.takeWhile isGapByte ++ t.dropWhile isGapByte = t := List.takeWhile_append_dropWhile
    split at h
    · rename_i hopen
      dsimp only at h
      split at h
      · cases h
      · rename_i y rest hrest
        have hinner : r.takeWhile (· != byte ')') ++ r.dropWhile (· != byte ')') = r :=
          List.takeWhile_append_dropWhile
        have hclose := List.head?_dropWhile_not (· != byte ')') r
        rw [hrest] at hclose hinner
        split at h
        · cases h
        · rename_i hne
          cases h
          refine ⟨_, _, ⟨?_, List.all_eq_true.1 List.all_takeWhile, by simpa using hne, ?_⟩,
            rfl, rfl⟩
          · have hb : b = byte '(' := eq_of_beq hopen
            have hy : y = byte ')' := by simpa using hclose
            rw [hr, hb] at ht
            rw [hy] at hinner
            rw [hinner, ht]
          · intro hmem
            have hother : (byte ')' != byte ')') = true :=
              List.all_eq_true.1 (List.all_takeWhile (p := (· != byte ')'))) _ hmem
            exact absurd hother (by decide)
    · cases h

theorem callAt?_eq_none_iff {t : Text} :
    callAt? t = none ↔ ¬ ∃ gap inner rest, Encloses t gap inner rest := by
  constructor
  · rintro hnone ⟨gap, inner, rest, hlist⟩
    cases hnone.symm.trans hlist.callAt?_eq
  · intro hno
    cases hcall : callAt? t with
    | none => rfl
    | some c =>
      obtain ⟨gap, inner, hlist, -⟩ := encloses_of_callAt? hcall
      exact absurd ⟨gap, inner, c.rest, hlist⟩ hno

/-- An argument list and what follows a name before it. -/
def callList (before inner : Text) : Text := before ++ byte '(' :: (inner ++ [byte ')'])

theorem length_callList (before inner : Text) :
    (callList before inner).length = before.length + inner.length + 2 := by
  simp only [callList, List.length_append, List.length_cons, List.length_nil]
  omega

theorem Encloses.eq_callList {t gap inner rest : Text} (h : Encloses t gap inner rest) :
    t = callList gap inner ++ rest := by
  rw [h.text_eq, callList, List.append_assoc, List.cons_append, List.append_assoc,
    List.singleton_append]

theorem apart_callList {before : Text} (h : Blanks before) (inner : Text) :
    Apart (callList before inner) := by
  cases before with
  | nil => exact apart_cons (by decide) _
  | cons b before => exact apart_cons (not_name_of_gap (h b List.mem_cons_self)) _

/-- An argument list is recognised behind blanks, and nothing is left of it. -/
theorem callAt?_callList {before inner : Text} (hbefore : Blanks before) (hne : inner ≠ [])
    (hclose : byte ')' ∉ inner) :
    callAt? (callList before inner) =
      some ⟨arguments inner, before.length + inner.length + 2, []⟩ :=
  Encloses.callAt?_eq ⟨rfl, hbefore, hne, hclose⟩

end Preassembler.Macro
