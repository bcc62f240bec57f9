import Mathlib.Data.List.SplitBy
import Preassembler.Stage
import Preassembler.Proofs.Listing.Instruction

/-! Registers, word by word.

The stage that writes registers as numbers looks at one byte after the other and remembers whether
it is inside a word. What it does can also be said without going through the bytes: cut what stands
behind the first separators into its longest runs of word bytes and of other bytes (`Runs`), and
write each run that is an `r` and one digit as the digit (`registerNumber`). The search begins with
the operands and not with the line, but that makes no difference, as no word ends in a separator.

Main statement: the stage gives out the one text that `RegistersNumbered` allows, and gives it out
again when it gets it back (`Stage.step_registers`). -/
namespace Preassembler
open Text (ascii byte isDigit isWord)

namespace Statement

/-! ### Runs of bytes -/

/-- Pieces of a text, each of word bytes only or of other bytes only, and none of them could be
longer. -/
structure Runs (pieces : List Text) : Prop where
  filled : ∀ w ∈ pieces, w ≠ []
  alike : ∀ w ∈ pieces, ∀ a ∈ w, ∀ b ∈ w, isWord a = isWord b
  maximal : pieces.IsChain fun v w => ∀ a ∈ v, ∀ b ∈ w, isWord a ≠ isWord b

/-- The digit of a word that is an `r` and one digit. Anything else stays as it is. -/
def registerNumber : Text → Text
  | [a, d] => if a = byte 'r' ∧ isDigit d = true then [d] else [a, d]
  | w => w

/-- Where bytes are cut apart only if one of them is a word byte and the other is not, all bytes of a
piece are alike. -/
theorem alike_of_mem_splitBy {t w : Text} (hw : w ∈ t.splitBy fun a b => isWord a == isWord b) :
    ∀ a ∈ w, ∀ b ∈ w, isWord a = isWord b := by
  have hsame : (w.map isWord).IsChain (· = ·) := by
    rw [List.isChain_map]
    exact (List.isChain_of_mem_splitBy hw).imp fun a b hab => eq_of_beq hab
  obtain ⟨c, r, rfl⟩ := List.exists_cons_of_ne_nil (List.ne_nil_of_mem_splitBy hw)
  have hfirst : ∀ x ∈ c :: r, isWord x = isWord c := by
    intro x hx
    have hmem := List.mem_map_of_mem (f := isWord) hx
    rw [List.isChain_eq_iff_eq_replicate.1 hsame (isWord c) rfl] at hmem
    exact List.eq_of_mem_replicate hmem
  intro a ha b hb
  exact (hfirst a ha).trans (hfirst b hb).symm

/-- Every text can be cut into its runs. -/
theorem exists_runs (t : Text) : ∃ pieces, Runs pieces ∧ pieces.flatten = t := by
  refine ⟨t.splitBy fun a b => isWord a == isWord b, ⟨fun w hw => List.ne_nil_of_mem_splitBy hw,
    fun w hw => alike_of_mem_splitBy hw, ?_⟩, List.flatten_splitBy _ t⟩
  refine List.IsChain.imp_of_mem_imp ?_ (List.isChain_getLast_head_splitBy _ t)
  rintro v w hv hw ⟨hvne, hwne, hdiffer⟩ a ha b hb hsame
  -- all of a run is like its last byte, and like its first one
  have hlast := alike_of_mem_splitBy hv a ha (v.getLast hvne) (List.getLast_mem hvne)
  have hhead := alike_of_mem_splitBy hw b hb (w.head hwne) (List.head_mem hwne)
  rw [← hlast, ← hhead, hsame, beq_self_eq_true] at hdiffer
  cases hdiffer

/-! ### Numbering in runs -/

/-- A byte of no word is kept, and behind it a word can begin. -/
theorem number_outside {a : UInt8} (ha : isWord a = false) (inWord : Bool) (t : Text) :
    number inWord (a :: t) = a :: number false t := by
  cases t with
  | nil => rfl
  | cons d r =>
    rw [number_other, ha]
    intro hregister
    simp only [Bool.and_eq_true, beq_iff_eq] at hregister
    rw [hregister.1.1.2] at ha
    exact absurd ha (by decide)

/-- Where no word goes on it does not matter whether one has just ended. -/
theorem number_of_not_begins {t : Text} (h : beginsInWord t = false) (inWord : Bool) :
    number inWord t = number false t := by
  cases t with
  | nil => rfl
  | cons a t => rw [number_outside h, number_outside h]

theorem number_gap {w : Text} (hw : ∀ b ∈ w, isWord b = false) (t : Text) :
    number false (w ++ t) = w ++ number false t := by
  induction w with
  | nil => rfl
  | cons a w ih =>
    rw [List.forall_mem_cons] at hw
    rw [List.cons_append, number_outside hw.1, ih hw.2, List.cons_append]

/-- No register begins in what is left of a word. -/
theorem number_inside_word {w : Text} (hw : ∀ b ∈ w, isWord b = true) {t : Text}
    (ht : beginsInWord t = false) : number true (w ++ t) = w ++ number false t := by
  induction w with
  | nil => exact number_of_not_begins ht true
  | cons a w ih =>
    rw [List.forall_mem_cons] at hw
    rw [List.cons_append, number_inside, hw.1, ih hw.2, List.cons_append]

/-- A word in which no register begins is kept. -/
theorem number_kept {a : UInt8} {w : Text} (hw : ∀ b ∈ a :: w, isWord b = true) {t : Text}
    (ht : beginsInWord t = false)
    (hkept : number false (a :: (w ++ t)) = a :: number (isWord a) (w ++ t)) :
    number false (a :: w ++ t) = a :: w ++ number false t := by
  rw [List.forall_mem_cons] at hw
  rw [List.cons_append, hkept, hw.1, number_inside_word hw.2 ht, List.cons_append]

/-- A word is written as a number if it is a register. -/
theorem number_word {w : Text} (hw : ∀ b ∈ w, isWord b = true) {t : Text}
    (ht : beginsInWord t = false) : number false (w ++ t) = registerNumber w ++ number false t := by
  match w with
  | [] => rfl
  | [a] =>
    refine number_kept hw ht ?_
    -- what follows the word is no digit
    cases t with
    | nil => rfl
    | cons d r =>
      have hd : isDigit d = false := by
        rw [← Bool.not_eq_true]
        exact fun hdigit => absurd ((isWord_of_isDigit hdigit).symm.trans ht) (by decide)
      exact number_other (by simp [hd])
  | [a, d] =>
    by_cases hregister : a = byte 'r' ∧ isDigit d = true
    · have hwritten : registerNumber [a, d] = [d] := if_pos hregister
      rw [hwritten, List.singleton_append, ← number_of_not_begins ht true]
      exact number_register (by simp [hregister, ht])
    · have hkept : registerNumber [a, d] = [a, d] := if_neg hregister
      rw [hkept]
      exact number_kept hw ht (number_other (by simpa [ht] using hregister))
  | a :: d :: e :: w =>
    have he : isWord e = true := hw e (by simp)
    exact number_kept hw ht (number_other (by simp [beginsInWord, he]))

theorem Runs.tail {w : Text} {rest : List Text} (h : Runs (w :: rest)) : Runs rest where
  filled := (List.forall_mem_cons.1 h.filled).2
  alike := (List.forall_mem_cons.1 h.alike).2
  maximal := h.maximal.tail

/-- Behind a word the next run does not go on with it. -/
theorem Runs.not_begins {w : Text} {rest : List Text} (h : Runs (w :: rest))
    (hw : ∀ b ∈ w, isWord b = true) : beginsInWord rest.flatten = false := by
  obtain ⟨a, w, rfl⟩ := List.exists_cons_of_ne_nil (h.filled w List.mem_cons_self)
  cases rest with
  | nil => rfl
  | cons v rest =>
    obtain ⟨b, v, rfl⟩ := List.exists_cons_of_ne_nil (h.filled v (by simp))
    have hdiffer := (List.isChain_cons_cons.1 h.maximal).1 a List.mem_cons_self b List.mem_cons_self
    rw [hw a List.mem_cons_self] at hdiffer
    exact Bool.eq_false_iff.2 hdiffer.symm

/-- A run is one of a word or holds no word byte. -/
theorem Runs.word_or_gap {w : Text} {rest : List Text} (h : Runs (w :: rest)) :
    (∀ b ∈ w, isWord b = true) ∨ ∀ b ∈ w, isWord b = false := by
  obtain ⟨a, w, rfl⟩ := List.exists_cons_of_ne_nil (h.filled w List.mem_cons_self)
  have hfirst : ∀ b ∈ a :: w, isWord b = isWord a := fun b hb =>
    h.alike _ List.mem_cons_self b hb a List.mem_cons_self
  cases ha : isWord a with
  | true => exact .inl fun b hb => (hfirst b hb).trans ha
  | false => exact .inr fun b hb => (hfirst b hb).trans ha

theorem registerNumber_gap {w : Text} (hw : ∀ b ∈ w, isWord b = false) : registerNumber w = w := by
  unfold registerNumber
  split
  · rename_i a d
    refine if_neg fun hregister => ?_
    exact absurd ((isWord_of_isDigit hregister.2).symm.trans (hw d (by simp))) (by decide)
  · rfl

/-- **In the runs of a text the registers are numbered one by one.** -/
theorem number_flatten {pieces : List Text} (h : Runs pieces) :
    number false pieces.flatten = (pieces.map registerNumber).flatten := by
  induction pieces with
  | nil => rfl
  | cons w rest ih =>
    rw [List.flatten_cons, List.map_cons, List.flatten_cons, ← ih h.tail]
    rcases h.word_or_gap with hw | hw
    · exact number_word hw (h.not_begins hw)
    · rw [registerNumber_gap hw, number_gap hw]

/-! ### Instructions -/

/-- A line, and how it looks with its registers written as numbers: the same if it holds no
separator; else the same up to the end of its first run of separators, and then its runs with the
digit for each register. -/
inductive RegistersNumbered : Text → Text → Prop
  | alone {t : Text} (ht : ∀ b ∈ t, isSeparator b = false) : RegistersNumbered t t
  | operands {operation separators : Text} {pieces : List Text}
      (hoperation : ∀ b ∈ operation, isSeparator b = false) (hne : separators ≠ [])
      (hseparators : ∀ b ∈ separators, isSeparator b = true)
      (hfirst : ∀ b ∈ pieces.flatten.head?, isSeparator b = false) (hruns : Runs pieces) :
    RegistersNumbered (operation ++ (separators ++ pieces.flatten))
      (operation ++ (separators ++ (pieces.map registerNumber).flatten))

theorem registersNumbered_numberRegisters (t : Text) : RegistersNumbered t (numberRegisters t) := by
  obtain ⟨operation, separators, operands, hparts⟩ := exists_parts t
  rw [hparts.numbered_eq, hparts.text_eq]
  by_cases hne : separators = []
  · rw [hne, hparts.separated hne, number, List.nil_append, List.append_nil]
    exact .alone hparts.not_separator
  · have hfirst := hparts.begins
    obtain ⟨pieces, hruns, rfl⟩ := exists_runs operands
    rw [number_flatten hruns]
    exact .operands hparts.not_separator hne hparts.separator hfirst hruns

theorem numberRegisters_of_alone {t : Text} (h : ∀ b ∈ t, isSeparator b = false) :
    numberRegisters t = t := by
  refine numberRegisters_eq_self ?_
  rintro ⟨before, d, after, rfl, -, ⟨b, hb, hseparator⟩, -⟩
  cases (h b (List.mem_append_left _ hb)).symm.trans hseparator

/-- The operation ends with the first separator, and the operands begin behind the run of it. -/
theorem numberRegisters_append {operation separators operands : Text}
    (hoperation : ∀ b ∈ operation, isSeparator b = false) (hne : separators ≠ [])
    (hseparators : ∀ b ∈ separators, isSeparator b = true)
    (hfirst : ∀ b ∈ operands.head?, isSeparator b = false) :
    numberRegisters (operation ++ (separators ++ operands)) =
      operation ++ (separators ++ number false operands) := by
  have hall : ∀ b ∈ operation, (!isSeparator b) = true := fun b hb => by rw [hoperation b hb]; rfl
  have hrest : (separators ++ operands).takeWhile (!isSeparator ·) = [] ∧
      (separators ++ operands).dropWhile (!isSeparator ·) = separators ++ operands := by
    obtain ⟨b, r, rfl⟩ := List.exists_cons_of_ne_nil hne
    simp [hseparators b List.mem_cons_self]
  have hbehind : operands.takeWhile isSeparator = [] ∧ operands.dropWhile isSeparator = operands := by
    cases operands with
    | nil => exact ⟨rfl, rfl⟩
    | cons b r => simp [hfirst b rfl]
  rw [numberRegisters, List.takeWhile_append_of_pos hall, List.dropWhile_append_of_pos hall, hrest.1,
    hrest.2, List.takeWhile_append_of_pos hseparators, List.dropWhile_append_of_pos hseparators,
    hbehind.1, hbehind.2, List.append_nil, List.append_nil, numberFrom_eq]
  rfl

theorem RegistersNumbered.eq {t u : Text} (h : RegistersNumbered t u) : u = numberRegisters t := by
  cases h with
  | alone ht => rw [numberRegisters_of_alone ht]
  | operands hoperation hne hseparators hfirst hruns =>
    rw [numberRegisters_append hoperation hne hseparators hfirst, number_flatten hruns]

end Statement

namespace Stage
open Statement (RegistersNumbered numberRegisters)

/-- **Registers are numbered word by word.** For each line the stage gives out one line under its
number, and the text of it is the only one that `RegistersNumbered` allows. Given that line, the
stage gives it out as it is. -/
theorem step_registers (l : Line) : ∃ text,
    registers.step l = .ok ⟨registers, [], [⟨l.no, text⟩]⟩ ∧
      (∀ t, RegistersNumbered l.text t ↔ t = text) ∧
      registers.step ⟨l.no, text⟩ = .ok ⟨registers, [], [⟨l.no, text⟩]⟩ := by
  refine ⟨numberRegisters l.text, rfl, fun t => ⟨RegistersNumbered.eq, ?_⟩, ?_⟩
  · rintro rfl
    exact Statement.registersNumbered_numberRegisters l.text
  · have htwice := Statement.numberRegisters_eq_self
      (Statement.not_registerOperand_numberRegisters l.text)
    simp only [step, htwice]

/-- The operation, operands side by side, an `r` and a digit in longer words, and a byte that is no
ASCII character. -/
example : numberRegisters (ascii "r1 r2,r3 r4x xr5 r66 r7" ++ [0xC3]) =
    ascii "r1 2,3 r4x xr5 r66 7" ++ [0xC3] := by decide

end Stage

end Preassembler
