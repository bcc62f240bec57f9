import Preassembler.Stage.Statement
import Preassembler.Proofs.Text.WhiteSpace

/-! Instructions as they stand in a listing.

`Tidy` says what can be relied on about the instruction of a listed line. Each part of it is
established by one operation on statements and has to survive the ones behind it. Splitting leaves
no semicolon and trimming no white space at the ends; integers become data; and numbering the
registers, which only takes away bytes in front of digits, brings nothing back: it keeps what a text
begins and ends with as far as no word bytes are concerned (`prefix_of_numberRegisters`,
`suffix_of_numberRegisters`), and it changes nothing in a text without operands. -/
namespace Preassembler

namespace Statement
open Text (ascii byte isDigit isWord Trimmed)

/-! ### Integers -/

/-- An optionally signed decimal integer. -/
def IsInteger (t : Text) : Prop :=
  ∃ sign digits : Text, t = sign ++ digits ∧ (sign = [] ∨ sign = ascii "+" ∨ sign = ascii "-") ∧
    digits ≠ [] ∧ ∀ b ∈ digits, isDigit b = true

namespace IsInteger
variable {t : Text}

/-- The bytes of an integer are digits, behind a sign. -/
theorem mem (h : IsInteger t) {b : UInt8} (hb : b ∈ t) :
    isDigit b = true ∨ b = byte '+' ∨ b = byte '-' := by
  obtain ⟨sign, digits, rfl, hsign, -, hdigits⟩ := h
  rcases List.mem_append.1 hb with hb | hb
  · rcases hsign with rfl | rfl | rfl
    · cases hb
    · exact .inr (.inl (List.mem_singleton.1 hb))
    · exact .inr (.inr (List.mem_singleton.1 hb))
  · exact .inl (hdigits b hb)

theorem last (h : IsInteger t) : ∃ u d, t = u ++ [d] ∧ isDigit d = true := by
  obtain ⟨sign, digits, rfl, -, hne, hdigits⟩ := h
  obtain ⟨u, d, rfl⟩ := (List.eq_nil_or_concat digits).resolve_left hne
  exact ⟨sign ++ u, d, by simp, hdigits d (by simp)⟩

end IsInteger

namespace Numeral

theorem ofDigits?_eq_some_iff {negative : Bool} {t : Text} {n : Numeral} :
    ofDigits? negative t = some n ↔
      n = ⟨negative, t⟩ ∧ t ≠ [] ∧ ∀ b ∈ t, isDigit b = true := by
  unfold ofDigits?
  split
  · rename_i hno
    simp only [Bool.or_eq_true, List.isEmpty_iff, Bool.not_eq_true', List.all_eq_false] at hno
    refine iff_of_false nofun ?_
    rintro ⟨-, hne, hdigits⟩
    rcases hno with hnil | ⟨b, hb, hdigit⟩
    · exact hne hnil
    · exact hdigit (hdigits b hb)
  · rename_i hyes
    simp only [Bool.or_eq_true, List.isEmpty_iff, Bool.not_eq_true', not_or,
      Bool.not_eq_false, List.all_eq_true] at hyes
    rw [Option.some.injEq, eq_comm (a := n)]
    exact (and_iff_left hyes).symm

section Digits
variable {digits : Text} (hne : digits ≠ []) (hdigits : ∀ b ∈ digits, isDigit b = true)
include hne hdigits

theorem parse?_digits : parse? digits = some ⟨false, digits⟩ := by
  obtain ⟨d, r, rfl⟩ := List.exists_cons_of_ne_nil hne
  have hd : isDigit d = true := hdigits d List.mem_cons_self
  have hminus : (d == byte '-') = false := by
    rw [beq_eq_false_iff_ne]
    rintro rfl
    exact absurd hd (by decide)
  have hplus : (d == byte '+') = false := by
    rw [beq_eq_false_iff_ne]
    rintro rfl
    exact absurd hd (by decide)
  simp only [parse?, hminus, hplus, Bool.false_eq_true, if_false]
  exact ofDigits?_eq_some_iff.2 ⟨rfl, hne, hdigits⟩

theorem parse?_plus : parse? (byte '+' :: digits) = some ⟨false, digits⟩ :=
  ofDigits?_eq_some_iff.2 ⟨rfl, hne, hdigits⟩

theorem parse?_minus : parse? (byte '-' :: digits) = some ⟨true, digits⟩ :=
  ofDigits?_eq_some_iff.2 ⟨rfl, hne, hdigits⟩

end Digits

/-- Every integer is read. -/
theorem isSome_parse? {t : Text} (h : IsInteger t) : (parse? t).isSome = true := by
  obtain ⟨sign, digits, rfl, hsign, hne, hdigits⟩ := h
  rcases hsign with rfl | rfl | rfl
  · rw [List.nil_append, parse?_digits hne hdigits]
    rfl
  · exact congrArg Option.isSome (parse?_plus hne hdigits)
  · exact congrArg Option.isSome (parse?_minus hne hdigits)

/-- Only integers are read, and what is read has their digits. -/
theorem isInteger_of_parse? {t : Text} {n : Numeral} (h : parse? t = some n) :
    IsInteger t ∧ ∀ b ∈ n.digits, isDigit b = true := by
  unfold parse? at h
  split at h
  · cases h
  · rename_i b r
    split at h
    · rename_i hsign
      obtain ⟨rfl, hne, hdigits⟩ := ofDigits?_eq_some_iff.1 h
      exact ⟨⟨[b], r, rfl, .inr (.inr (congrArg ([·]) (eq_of_beq hsign))), hne, hdigits⟩, hdigits⟩
    · split at h
      · rename_i hsign
        obtain ⟨rfl, hne, hdigits⟩ := ofDigits?_eq_some_iff.1 h
        exact ⟨⟨[b], r, rfl, .inr (.inl (congrArg ([·]) (eq_of_beq hsign))), hne, hdigits⟩, hdigits⟩
      · obtain ⟨rfl, hne, hdigits⟩ := ofDigits?_eq_some_iff.1 h
        exact ⟨⟨[], b :: r, rfl, .inl rfl, hne, hdigits⟩, hdigits⟩

/-- What is written for a number is an integer again. -/
theorem isInteger_canonical {n : Numeral} (h : ∀ b ∈ n.digits, isDigit b = true) :
    IsInteger n.canonical := by
  unfold canonical
  split
  · exact ⟨[], [byte '0'], rfl, .inl rfl, nofun, List.forall_mem_singleton.2 rfl⟩
  · rename_i hne
    have hdigits : ∀ b ∈ n.digits.dropWhile (· == byte '0'), isDigit b = true :=
      fun b hb => h b ((List.dropWhile_sublist _).subset hb)
    split
    · exact ⟨ascii "-", _, rfl, .inr (.inr rfl), hne, hdigits⟩
    · exact ⟨[], _, rfl, .inl rfl, hne, hdigits⟩

end Numeral

theorem fill_eq_self {t : Text} (htrim : t.trim = t) (h : ¬ IsInteger t) : fill t = t := by
  rw [fill, htrim]
  cases hread : Numeral.parse? t with
  | none => rfl
  | some n => exact absurd (Numeral.isInteger_of_parse? hread).1 h

/-! ### Registers -/

/-- Writes registers as numbers, like `numberFrom` with nothing seen. -/
def number (inWord : Bool) : Text → Text
  | [] => []
  | [a] => [a]
  | a :: d :: r =>
    if !inWord && a == byte 'r' && isDigit d && !beginsInWord r then d :: number true r
    else a :: number (isWord a) (d :: r)

theorem number_register {inWord : Bool} {a d : UInt8} {r : Text}
    (h : (!inWord && a == byte 'r' && isDigit d && !beginsInWord r) = true) :
    number inWord (a :: d :: r) = d :: number true r := by
  rw [number, if_pos h]

theorem number_other {inWord : Bool} {a d : UInt8} {r : Text}
    (h : ¬(!inWord && a == byte 'r' && isDigit d && !beginsInWord r) = true) :
    number inWord (a :: d :: r) = a :: number (isWord a) (d :: r) := by
  rw [number, if_neg h]

theorem numberFrom_eq (seen : Text) (inWord : Bool) (t : Text) :
    numberFrom seen inWord t = seen.reverse ++ number inWord t := by
  fun_induction numberFrom seen inWord t with
  | case1 => simp [number]
  | case2 => simp [number]
  | case3 seen inWord a d r h ih => simp [number_register h, ih]
  | case4 seen inWord a d r h ih => simp [number_other h, ih]

/-- No register begins inside a word. -/
theorem number_inside (a : UInt8) (t : Text) : number true (a :: t) = a :: number (isWord a) t := by
  cases t with
  | nil => simp [number]
  | cons d r => simp [number]

theorem beginsInWord_number (t : Text) : beginsInWord (number true t) = beginsInWord t := by
  cases t with
  | nil => rfl
  | cons a t => rw [number_inside, beginsInWord, beginsInWord]

theorem number_sublist (inWord : Bool) (t : Text) : (number inWord t).Sublist t := by
  fun_induction number inWord t with
  | case1 => exact .slnil
  | case2 => exact List.Sublist.refl _
  | case3 inWord a d r h ih => exact (ih.cons_cons d).cons a
  | case4 inWord a d r h ih => exact ih.cons_cons a

theorem isWord_of_isDigit {b : UInt8} (h : isDigit b = true) : isWord b = true := by
  simp [isWord, h]

/-- A register leaves a word byte behind. -/
theorem number_eq_self {inWord : Bool} {t : Text} (h : ∀ b ∈ number inWord t, isWord b = false) :
    number inWord t = t := by
  fun_induction number inWord t with
  | case1 => rfl
  | case2 => rfl
  | case3 inWord a d r hreg ih =>
    have hd : isDigit d = true := by simp_all
    exact absurd (isWord_of_isDigit hd) (by simp [h d List.mem_cons_self])
  | case4 inWord a d r hreg ih => rw [ih fun b hb => h b (List.mem_cons_of_mem a hb)]

theorem prefix_of_number {inWord : Bool} {t m : Text} (hm : ∀ b ∈ m, isWord b = false)
    (h : m <+: number inWord t) : m <+: t := by
  fun_induction number inWord t generalizing m with
  | case1 => exact h
  | case2 => exact h
  | case3 inWord a d r hreg ih =>
    have hd : isDigit d = true := by simp_all
    cases m with
    | nil => exact List.nil_prefix
    | cons c m =>
      obtain ⟨rfl, -⟩ := List.cons_prefix_cons.1 h
      exact absurd (isWord_of_isDigit hd) (by simp [hm c List.mem_cons_self])
  | case4 inWord a d r hreg ih =>
    cases m with
    | nil => exact List.nil_prefix
    | cons c m =>
      obtain ⟨rfl, hrest⟩ := List.cons_prefix_cons.1 h
      exact List.cons_prefix_cons.2 ⟨rfl, ih (fun b hb => hm b (List.mem_cons_of_mem c hb)) hrest⟩

theorem suffix_of_number {inWord : Bool} {t m : Text} (hm : ∀ b ∈ m, isWord b = false)
    (h : m <:+ number inWord t) : m <:+ t := by
  fun_induction number inWord t with
  | case1 => exact h
  | case2 => exact h
  | case3 inWord a d r hreg ih =>
    have hd : isDigit d = true := by simp_all
    rcases List.suffix_cons_iff.1 h with rfl | h
    · exact absurd (isWord_of_isDigit hd) (by simp [hm d List.mem_cons_self])
    · exact (ih h).trans (List.suffix_append [a, d] r)
  | case4 inWord a d r hreg ih =>
    rcases List.suffix_cons_iff.1 h with rfl | h
    · have hsame := number_eq_self fun b hb => hm b (List.mem_cons_of_mem a hb)
      exact ⟨[], by rw [List.nil_append, hsame]⟩
    · exact (ih h).trans (List.suffix_cons a (d :: r))

/-! ### Registers among the operands -/

/-- Whether a text ends with a word byte; an empty one does as `inWord` says. -/
def endsInWord (inWord : Bool) : Text → Bool
  | [] => inWord
  | b :: r => endsInWord (isWord b) r

/-- Behind its first separator a text holds a word that is an `r` and one digit. -/
def RegisterOperand (t : Text) : Prop :=
  ∃ before d after, t = before ++ byte 'r' :: d :: after ∧ isDigit d = true ∧
    (∃ b ∈ before, isSeparator b = true) ∧
    endsInWord false before = false ∧ beginsInWord after = false

theorem endsInWord_append (inWord : Bool) (a b : Text) :
    endsInWord inWord (a ++ b) = endsInWord (endsInWord inWord a) b := by
  induction a generalizing inWord with
  | nil => rfl
  | cons c a ih => exact ih (isWord c)

theorem endsInWord_of_not_word (inWord : Bool) {t : Text} (hne : t ≠ [])
    (h : ∀ b ∈ t, isWord b = false) : endsInWord inWord t = false := by
  obtain ⟨u, b, rfl⟩ := (List.eq_nil_or_concat t).resolve_left hne
  rw [List.concat_eq_append, endsInWord_append]
  exact h b (by simp)

/-- Among numbered registers an `r` and a digit are always part of a longer word. -/
theorem inside_word_of_number {inWord : Bool} {t before after : Text} {d : UInt8}
    (hd : isDigit d = true) (h : number inWord t = before ++ byte 'r' :: d :: after) :
    endsInWord inWord before = true ∨ beginsInWord after = true := by
  fun_induction number inWord t generalizing before with
  | case1 => simp at h
  | case2 => cases before <;> simp at h
  | case3 inWord a e r hreg ih =>
    have he : isDigit e = true := by simp_all
    cases before with
    | nil =>
      obtain ⟨rfl, -⟩ := List.cons.inj h
      exact absurd he (by decide)
    | cons c before =>
      obtain ⟨rfl, hrest⟩ := List.cons.inj h
      rw [endsInWord, isWord_of_isDigit he]
      exact ih hrest
  | case4 inWord a e r hreg ih =>
    cases before with
    | cons c before =>
      obtain ⟨rfl, hrest⟩ := List.cons.inj h
      exact ih hrest
    | nil =>
      -- The `r` was kept: it stands inside a word, or the digit behind it does not end the word.
      obtain ⟨rfl, hrest⟩ := List.cons.inj h
      rw [show isWord (byte 'r') = true by decide, number_inside] at hrest
      obtain ⟨rfl, rfl⟩ := List.cons.inj hrest
      rw [isWord_of_isDigit hd, beginsInWord_number, endsInWord]
      cases inWord <;> simp_all

/-- An instruction taken apart, and with its registers written as numbers. -/
structure Parts (t operation separators operands : Text) : Prop where
  text_eq : t = operation ++ (separators ++ operands)
  numbered_eq : numberRegisters t = operation ++ (separators ++ number false operands)
  not_separator : ∀ b ∈ operation, isSeparator b = false
  separator : ∀ b ∈ separators, isSeparator b = true
  separated : separators = [] → operands = []
  begins : ∀ b ∈ operands.head?, isSeparator b = false

theorem exists_parts (t : Text) : ∃ operation separators operands,
    Parts t operation separators operands := by
  refine ⟨t.takeWhile (!isSeparator ·), (t.dropWhile (!isSeparator ·)).takeWhile isSeparator,
    (t.dropWhile (!isSeparator ·)).dropWhile isSeparator, ?_, ?_, ?_, ?_, ?_, ?_⟩
  · simp
  · rw [numberRegisters, numberFrom_eq]
    rfl
  · intro b hb
    simpa using List.all_eq_true.1 List.all_takeWhile b hb
  · intro b hb
    exact List.all_eq_true.1 List.all_takeWhile b hb
  · intro hnone
    cases hrest : t.dropWhile (!isSeparator ·) with
    | nil => rfl
    | cons b r =>
      have hb := List.head?_dropWhile_not (!isSeparator ·) t
      simp_all
  · intro b hb
    have hfirst := List.head?_dropWhile_not isSeparator (t.dropWhile (!isSeparator ·))
    rw [Option.mem_def.1 hb] at hfirst
    exact hfirst

theorem exists_kept (t : Text) : ∃ kept operands, t = kept ++ operands ∧
    numberRegisters t = kept ++ number false operands ∧ (kept = [] → operands = []) := by
  obtain ⟨operation, separators, operands, hparts⟩ := exists_parts t
  refine ⟨operation ++ separators, operands, ?_, ?_, fun hnil => ?_⟩
  · rw [hparts.text_eq, List.append_assoc]
  · rw [hparts.numbered_eq, List.append_assoc]
  · exact hparts.separated (List.append_eq_nil_iff.1 hnil).2

theorem not_isWord_of_isSeparator {b : UInt8} (h : isSeparator b = true) : isWord b = false := by
  simp only [isSeparator, Bool.or_eq_true, beq_iff_eq] at h
  rcases h with (((rfl | rfl) | rfl) | rfl) | rfl <;> decide

/-- No register is left among the operands. -/
theorem not_registerOperand_numberRegisters (t : Text) : ¬ RegisterOperand (numberRegisters t) := by
  rintro ⟨before, d, after, ht, hd, ⟨b, hb, hsep⟩, hbefore, hafter⟩
  obtain ⟨operation, separators, operands, hparts⟩ := exists_parts t
  rw [hparts.numbered_eq] at ht
  -- The register stands behind a separator, so neither in the operation nor among the separators.
  obtain ⟨y, rfl, hy⟩ : ∃ y, before = operation ++ (separators ++ y) ∧
      number false operands = y ++ byte 'r' :: d :: after := by
    rcases List.append_eq_append_iff.1 ht with ⟨x, rfl, hx⟩ | ⟨x, rfl, -⟩
    · rcases List.append_eq_append_iff.1 hx with ⟨y, rfl, hy⟩ | ⟨y, hy, hrest⟩
      · exact ⟨y, rfl, hy⟩
      · cases y with
        | nil => exact ⟨[], by simp [hy], by simpa using hrest.symm⟩
        | cons c y =>
          obtain ⟨rfl, -⟩ := List.cons.inj hrest
          exact absurd (hparts.separator (byte 'r') (by simp [hy])) (by decide)
    · simp [hparts.not_separator b (List.mem_append_left x hb)] at hsep
  have hne : separators ≠ [] := by
    intro hnil
    rw [hparts.separated hnil, number] at hy
    simp at hy
  rw [endsInWord_append, endsInWord_append, endsInWord_of_not_word _ hne fun b hb =>
    not_isWord_of_isSeparator (hparts.separator b hb)] at hbefore
  rcases inside_word_of_number hd hy with hinside | hinside
  · simp [hbefore] at hinside
  · simp [hafter] at hinside

/-- A text in which each `r` and digit is part of a longer word has no registers to number. -/
theorem number_eq_self_of_no_register {inWord : Bool} {t : Text}
    (h : ∀ before d after, t = before ++ byte 'r' :: d :: after → isDigit d = true →
      endsInWord inWord before = false → beginsInWord after = true) : number inWord t = t := by
  fun_induction number inWord t with
  | case1 => rfl
  | case2 => rfl
  | case3 inWord a d r hreg ih =>
    simp only [Bool.and_eq_true, Bool.not_eq_true', beq_iff_eq] at hreg
    obtain ⟨⟨⟨hword, rfl⟩, hd⟩, hend⟩ := hreg
    rw [h [] d r rfl hd hword] at hend
    cases hend
  | case4 inWord a d r hreg ih =>
    rw [ih]
    intro before d' after ht hd' hbefore
    exact h (a :: before) d' after (by rw [ht]; rfl) hd' hbefore

theorem numberRegisters_eq_self {t : Text} (h : ¬ RegisterOperand t) : numberRegisters t = t := by
  obtain ⟨operation, separators, operands, hparts⟩ := exists_parts t
  have hoperands : number false operands = operands := by
    refine number_eq_self_of_no_register fun before d after hsplit hd hbefore => ?_
    rw [← Bool.not_eq_false]
    intro hafter
    have hne : separators ≠ [] := by
      intro hnil
      rw [hparts.separated hnil] at hsplit
      cases before <;> cases hsplit
    obtain ⟨b, r, hb⟩ := List.exists_cons_of_ne_nil hne
    have hmem : b ∈ separators := hb ▸ List.mem_cons_self
    refine h ⟨operation ++ (separators ++ before), d, after, ?_, hd,
      ⟨b, by simp [hmem], hparts.separator b hmem⟩, ?_, hafter⟩
    · rw [hparts.text_eq, hsplit]
      simp
    · rw [endsInWord_append, endsInWord_append, endsInWord_of_not_word _ hne fun b hb =>
        not_isWord_of_isSeparator (hparts.separator b hb)]
      exact hbefore
  rw [hparts.numbered_eq, hoperands, ← hparts.text_eq]

/-- Only the text of operands changes, and a text that has them is no integer. -/
theorem not_isInteger_numberRegisters {t : Text} (h : ¬ IsInteger t) :
    ¬ IsInteger (numberRegisters t) := by
  intro hnumbered
  obtain ⟨operation, separators, operands, hparts⟩ := exists_parts t
  have hnone : separators = [] := by
    refine List.eq_nil_iff_forall_not_mem.2 fun b hb => ?_
    have hsep := hparts.separator b hb
    rcases hnumbered.mem (b := b) (by simp [hparts.numbered_eq, hb]) with hdigit | rfl | rfl
    · cases (isWord_of_isDigit hdigit).symm.trans (not_isWord_of_isSeparator hsep)
    · exact absurd hsep (by decide)
    · exact absurd hsep (by decide)
  have hsame : numberRegisters t = t := by
    rw [hparts.numbered_eq, hparts.text_eq, hparts.separated hnone, number]
  exact h (hsame ▸ hnumbered)

/-! ### Statements -/

/-- A statement that stands alone: no semicolon, no white space at its ends, and not empty. -/
structure Lone (t : Text) : Prop where
  single : byte ';' ∉ t
  trimmed : Trimmed t
  filled : t ≠ []

theorem not_mem_blank_of_isDigit {d : UInt8} (hd : isDigit d = true) : ∀ m ∈ Text.blanks, d ∉ m := by
  intro m hm hmem
  cases (isWord_of_isDigit hd).symm.trans (Text.not_isWord_of_blank m hm d hmem)

/-- Data is written without white space at its ends, and is no integer any more. -/
theorem IsInteger.data {t : Text} (h : IsInteger t) :
    Trimmed (ascii ".fill " ++ t) ∧ ¬ IsInteger (ascii ".fill " ++ t) := by
  obtain ⟨u, d, hlast, hd⟩ := h.last
  constructor
  · exact Text.trimmed_of_ends (a := byte '.') (b := d) (u := ascii ".fill " ++ u) (by decide)
      (not_mem_blank_of_isDigit hd) rfl (by rw [hlast, List.append_assoc])
  · intro hdata
    exact absurd (hdata.mem (b := byte '.') List.mem_cons_self) (by decide)

theorem Lone.fill {t : Text} (h : Lone t) : Lone (fill t) ∧ ¬ IsInteger (fill t) := by
  unfold Statement.fill
  rw [Text.trim_eq_self h.trimmed]
  cases hread : Numeral.parse? t with
  | none =>
    refine ⟨h, fun hinteger => ?_⟩
    have hsome := Numeral.isSome_parse? hinteger
    rw [hread] at hsome
    cases hsome
  | some n =>
    show Lone (ascii ".fill " ++ n.canonical) ∧ ¬ IsInteger (ascii ".fill " ++ n.canonical)
    have hinteger := Numeral.isInteger_canonical (Numeral.isInteger_of_parse? hread).2
    refine ⟨⟨?_, hinteger.data.1, nofun⟩, hinteger.data.2⟩
    intro hmem
    rcases List.mem_append.1 hmem with hmem | hmem
    · exact absurd hmem (by decide)
    · exact absurd (hinteger.mem hmem) (by decide)

theorem numberRegisters_sublist (t : Text) : (numberRegisters t).Sublist t := by
  obtain ⟨kept, operands, htext, hnumbered, -⟩ := exists_kept t
  rw [hnumbered, htext]
  exact (number_sublist false operands).append_left kept

/-- Numbering registers brings no other bytes to the front than word bytes. -/
theorem prefix_of_numberRegisters {t m : Text} (hm : ∀ b ∈ m, isWord b = false)
    (h : m <+: numberRegisters t) : m <+: t := by
  obtain ⟨kept, operands, htext, hnumbered, -⟩ := exists_kept t
  obtain ⟨z, hz⟩ := hnumbered ▸ h
  rw [htext]
  rcases List.append_eq_append_iff.1 hz with ⟨c, rfl, -⟩ | ⟨c, rfl, hc⟩
  · simp
  · have hword : ∀ b ∈ c, isWord b = false := fun b hb => hm b (List.mem_append_right kept hb)
    exact (List.prefix_append_right_inj kept).2 (prefix_of_number hword ⟨z, hc.symm⟩)

/-- Numbering registers leaves no other bytes at the end than word bytes. -/
theorem suffix_of_numberRegisters {t m : Text} (hm : ∀ b ∈ m, isWord b = false)
    (h : m <:+ numberRegisters t) : m <:+ t := by
  obtain ⟨kept, operands, htext, hnumbered, -⟩ := exists_kept t
  obtain ⟨z, hz⟩ := hnumbered ▸ h
  rw [htext]
  rcases List.append_eq_append_iff.1 hz with ⟨c, rfl, rfl⟩ | ⟨c, rfl, hc⟩
  · have hsame := number_eq_self fun b hb => hm b (List.mem_append_right c hb)
    exact ⟨z, by rw [hsame, List.append_assoc]⟩
  · exact (suffix_of_number hm ⟨c, hc.symm⟩).trans (List.suffix_append _ _)

theorem Lone.numberRegisters {t : Text} (h : Lone t) : Lone (numberRegisters t) where
  single := fun hmem => h.single ((numberRegisters_sublist t).subset hmem)
  trimmed := by
    intro m hm
    have hword := Text.not_isWord_of_blank m hm
    obtain ⟨hfront, hback⟩ := h.trimmed m hm
    exact ⟨fun h => hfront (prefix_of_numberRegisters hword h),
      fun h => hback (suffix_of_numberRegisters hword h)⟩
  filled := by
    intro hnil
    obtain ⟨kept, operands, htext, hnumbered, hkept⟩ := exists_kept t
    rw [hnumbered, List.append_eq_nil_iff] at hnil
    exact h.filled (by rw [htext, hkept hnil.1, hnil.1]; rfl)

/-! ### Instructions -/

/-- What can be relied on about the instruction of a listed line. -/
structure Tidy (numberRegisters : Bool) (t : Text) : Prop where
  single : byte ';' ∉ t
  trimmed : t.trim = t
  not_declaration : ∀ label, t ≠ label ++ [byte ':']
  not_integer : ¬ IsInteger t
  numbered : numberRegisters = true → ¬ RegisterOperand t

theorem tidy_nil (numberRegisters : Bool) : Tidy numberRegisters [] where
  single := List.not_mem_nil
  trimmed := Text.trim_eq_self (by simpa [Trimmed] using Text.blank_ne_nil)
  not_declaration := by simp
  not_integer := by
    rintro ⟨sign, digits, htext, -, hne, -⟩
    exact hne (List.append_eq_nil_iff.1 htext.symm).2
  numbered := by
    rintro - ⟨before, d, after, htext, -⟩
    simp at htext

end Statement

end Preassembler
