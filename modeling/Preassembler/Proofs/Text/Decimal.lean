import Preassembler.Text.Basic

/-! Numbers in decimal.

A number is written by its digits, the last one last. So a digit behind a number that is not zero
makes the next number (`ofNat_append`), and zeros in front make no other number
(`magnitude_dropWhile`).

Main statements: digits that do not begin with a zero are how their number is written
(`ofNat_magnitude`), and what is written for a number stands for it (`magnitude_ofNat`). -/
namespace Preassembler.Text

/-- The number that a digit stands for. -/
def digit (d : UInt8) : Nat := d.toNat - 48

/-- The number that digits stand for, behind those that stand for `n`. -/
def magnitudeFrom (n : Nat) (digits : Text) : Nat := digits.foldl (fun n d => 10 * n + digit d) n

/-- The number that digits stand for. -/
def magnitude (digits : Text) : Nat := magnitudeFrom 0 digits

variable {d : UInt8} {t : Text}

theorem isDigit_iff : isDigit d = true ↔ 48 ≤ d.toNat ∧ d.toNat ≤ 57 := by
  rw [isDigit, Bool.and_eq_true, decide_eq_true_eq, decide_eq_true_eq, UInt8.le_iff_toNat_le,
    UInt8.le_iff_toNat_le]
  rfl

theorem digit_lt (h : isDigit d = true) : digit d < 10 := by
  rw [isDigit_iff] at h
  unfold digit
  omega

theorem digit_pos (h : isDigit d = true) (hne : d ≠ byte '0') : 0 < digit d := by
  rw [isDigit_iff] at h
  have hother : d.toNat ≠ 48 := fun heq => hne (UInt8.toNat_inj.1 heq)
  unfold digit
  omega

/-- A digit is written as itself. -/
theorem ofNat_digit (h : isDigit d = true) : ofNat (digit d) = [d] := by
  rw [ofNat, Nat.toDigits_of_lt_base (digit_lt h), List.map_singleton,
    Nat.toNat_digitChar_of_lt_ten (digit_lt h), digit, Nat.add_sub_cancel' (isDigit_iff.1 h).1,
    UInt8.ofNat_toNat]

/-- Behind a number that is not zero each digit is the next one. -/
theorem ofNat_append {n : Nat} (hn : 0 < n) (h : ∀ d ∈ t, isDigit d = true) :
    ofNat n ++ t = ofNat (magnitudeFrom n t) := by
  induction t generalizing n with
  | nil => exact List.append_nil _
  | cons d t ih =>
    rw [List.forall_mem_cons] at h
    have hnext : ofNat n ++ [d] = ofNat (10 * n + digit d) := by
      rw [← ofNat_digit h.1, ofNat, ofNat, ← List.map_append,
        Nat.toDigits_append_toDigits (by decide) hn (digit_lt h.1)]
      rfl
    rw [← List.singleton_append, ← List.append_assoc, hnext]
    exact ih (by omega) h.2

theorem magnitude_cons (d : UInt8) (t : Text) : magnitude (d :: t) = magnitudeFrom (digit d) t := by
  rw [magnitude, magnitudeFrom, List.foldl_cons, Nat.mul_zero, Nat.zero_add, magnitudeFrom]

/-- Digits that do not begin with a zero are how their number is written. -/
theorem ofNat_magnitude (hne : d ≠ byte '0') (h : ∀ b ∈ d :: t, isDigit b = true) :
    ofNat (magnitude (d :: t)) = d :: t := by
  rw [List.forall_mem_cons] at h
  rw [magnitude_cons, ← ofNat_append (digit_pos h.1 hne) h.2, ofNat_digit h.1]
  rfl

/-- Leading zeros do not count. -/
theorem magnitude_dropWhile (t : Text) : magnitude (t.dropWhile (· == byte '0')) = magnitude t := by
  induction t with
  | nil => rfl
  | cons d t ih =>
    by_cases hd : d = byte '0'
    · subst hd
      rw [List.dropWhile_cons_of_pos (by simp), ih, magnitude_cons]
      rfl
    · rw [List.dropWhile_cons_of_neg (by simpa using hd)]

theorem ofNat_ne_nil (n : Nat) : ofNat n ≠ [] := by
  rw [ofNat, Ne, List.map_eq_nil_iff]
  exact Nat.toDigits_ne_nil

theorem range_of_mem_toDigits {n : Nat} {c : Char} (h : c ∈ Nat.toDigits 10 n) :
    48 ≤ c.toNat ∧ c.toNat ≤ 57 := by
  have hdigit := Nat.isDigit_of_mem_toDigits (by decide) (by decide) h
  simpa [Char.isDigit, UInt32.le_iff_toNat_le] using hdigit

theorem toNat_of_char {c : Char} (h : c.toNat ≤ 57) : (UInt8.ofNat c.toNat).toNat = c.toNat := by
  rw [UInt8.toNat_ofNat', Nat.mod_eq_of_lt (by omega)]

theorem isDigit_ofNat (n : Nat) : ∀ d ∈ ofNat n, isDigit d = true := by
  intro d hd
  obtain ⟨c, hc, rfl⟩ := List.mem_map.1 hd
  have hrange := range_of_mem_toDigits hc
  rwa [isDigit_iff, toNat_of_char hrange.2]

/-- Bytes and characters that are digits stand for the same number. -/
theorem magnitudeFrom_map {cs : List Char} (h : ∀ c ∈ cs, c.toNat ≤ 57) (n : Nat) :
    magnitudeFrom n (cs.map fun c => UInt8.ofNat c.toNat) = Nat.ofDigitChars 10 cs n := by
  induction cs generalizing n with
  | nil => rfl
  | cons c cs ih =>
    rw [List.forall_mem_cons] at h
    rw [List.map_cons, magnitudeFrom, List.foldl_cons, digit, toNat_of_char h.1]
    exact ih h.2 _

/-- What is written for a number stands for it. -/
theorem magnitude_ofNat (n : Nat) : magnitude (ofNat n) = n := by
  rw [magnitude, ofNat, magnitudeFrom_map fun c hc => (range_of_mem_toDigits hc).2]
  exact Nat.ofDigitChars_ten_toDigits

/-- Without the zeros in front either nothing is left of digits, and they stand for zero, or what is
left is how their number is written. -/
theorem dropWhile_zeros (h : ∀ d ∈ t, isDigit d = true) :
    (t.dropWhile (· == byte '0') = [] ∧ magnitude t = 0) ∨
      ∃ d r, t.dropWhile (· == byte '0') = d :: r ∧ d ≠ byte '0' ∧ 0 < magnitude t ∧
        ofNat (magnitude t) = d :: r := by
  rw [← magnitude_dropWhile t]
  cases hrest : t.dropWhile (· == byte '0') with
  | nil => exact .inl ⟨rfl, rfl⟩
  | cons d r =>
    have hd : d ≠ byte '0' := by
      have hfirst := List.head?_dropWhile_not (· == byte '0') t
      rw [hrest] at hfirst
      exact beq_eq_false_iff_ne.1 hfirst
    have hdigits : ∀ b ∈ d :: r, isDigit b = true := fun b hb =>
      h b ((List.dropWhile_sublist _).subset (hrest ▸ hb))
    have hwritten := ofNat_magnitude hd hdigits
    refine .inr ⟨d, r, rfl, hd, Nat.pos_of_ne_zero fun hzero => ?_, hwritten⟩
    rw [hzero] at hwritten
    exact hd (List.cons.inj hwritten).1.symm

/-- A number that is not zero is written without zeros in front. -/
theorem exists_ofNat_eq {n : Nat} (hn : 0 < n) : ∃ d r, ofNat n = d :: r ∧ d ≠ byte '0' := by
  rcases dropWhile_zeros (isDigit_ofNat n) with ⟨-, hzero⟩ | ⟨d, r, -, hd, -, hwritten⟩
  · rw [magnitude_ofNat] at hzero
    exact absurd hzero (Nat.ne_of_gt hn)
  · rw [magnitude_ofNat] at hwritten
    exact ⟨d, r, hwritten, hd⟩

theorem ofInt_neg {n : Nat} (hn : 0 < n) : ofInt (-n) = byte '-' :: ofNat n := by
  obtain ⟨k, rfl⟩ := Nat.exists_eq_add_of_lt hn
  rw [Nat.zero_add]
  rfl

end Preassembler.Text
