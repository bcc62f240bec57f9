import Preassembler.Stage
import Preassembler.Proofs.Listing.Instruction
import Preassembler.Proofs.Text.Decimal

/-! Integers, and the data they become.

A line that holds nothing but an integer becomes data. The stage reads the integer as a sign and
digits and writes it down again from these digits, so it never computes a number. `Denotes` says
which number a written integer stands for, and `Canonical` what its shortest form looks like. That
is how numbers are written (`canonical_ofInt`), and it is what the stage writes
(`Numeral.canonical_eq`), as zeros in front of digits make no other number.

Main statement: the stage keeps the number of every integer it finds, leaves every other line alone,
and leaves its own lines alone too (`Stage.step_fill`). -/
namespace Preassembler
open Text (ascii byte isDigit)

/-! ### Written integers -/

namespace Statement

namespace Numeral

/-- The integer that a numeral stands for. -/
def value (n : Numeral) : Int :=
  if n.negative then -(Text.magnitude n.digits : Int) else Text.magnitude n.digits

/-- The canonical form is how the integer is written. -/
theorem canonical_eq {n : Numeral} (h : ∀ b ∈ n.digits, isDigit b = true) :
    n.canonical = .ofInt n.value := by
  unfold canonical value
  rcases Text.dropWhile_zeros h with ⟨hnone, hzero⟩ | ⟨d, r, hrest, -, hpos, hwritten⟩
  · rw [hnone, hzero]
    cases n.negative <;> rfl
  · rw [hrest]
    cases n.negative with
    | false => exact hwritten.symm
    | true => exact (congrArg (byte '-' :: ·) hwritten.symm).trans (Text.ofInt_neg hpos).symm

end Numeral

/-- The integer that a text holds, if it holds nothing but white space else. -/
def integer? (t : Text) : Option Int := (Numeral.parse? t.trim).map Numeral.value

/-- One or more digits, with a sign in front of them or none, and the integer that they stand for. -/
inductive Denotes : Text → Int → Prop
  | unsigned {digits : Text} (hne : digits ≠ []) (h : ∀ b ∈ digits, isDigit b = true) :
    Denotes digits (Text.magnitude digits)
  | plus {digits : Text} (hne : digits ≠ []) (h : ∀ b ∈ digits, isDigit b = true) :
    Denotes (byte '+' :: digits) (Text.magnitude digits)
  | minus {digits : Text} (hne : digits ≠ []) (h : ∀ b ∈ digits, isDigit b = true) :
    Denotes (byte '-' :: digits) (-Text.magnitude digits)

/-- The shortest form of an integer: no plus sign, no zeros in front, and no sign of zero. -/
inductive Canonical : Text → Prop
  | zero : Canonical [byte '0']
  | positive {d : UInt8} {r : Text} (hd : d ≠ byte '0') (h : ∀ b ∈ d :: r, isDigit b = true) :
    Canonical (d :: r)
  | negative {d : UInt8} {r : Text} (hd : d ≠ byte '0') (h : ∀ b ∈ d :: r, isDigit b = true) :
    Canonical (byte '-' :: d :: r)

theorem Denotes.isInteger {t : Text} {n : Int} (h : Denotes t n) : IsInteger t := by
  cases h with
  | unsigned hne h => exact ⟨[], t, rfl, .inl rfl, hne, h⟩
  | plus hne h => exact ⟨ascii "+", _, rfl, .inr (.inl rfl), hne, h⟩
  | minus hne h => exact ⟨ascii "-", _, rfl, .inr (.inr rfl), hne, h⟩

/-- Reading an integer gives the number that it stands for. -/
theorem value_parse?_iff {t : Text} {n : Int} :
    (Numeral.parse? t).map Numeral.value = some n ↔ Denotes t n := by
  constructor
  · intro h
    obtain ⟨m, hread, rfl⟩ := Option.map_eq_some_iff.1 h
    obtain ⟨sign, digits, rfl, hsign, hne, hdigits⟩ := (Numeral.isInteger_of_parse? hread).1
    rcases hsign with rfl | rfl | rfl
    · obtain rfl := Option.some.inj ((Numeral.parse?_digits hne hdigits).symm.trans hread)
      exact .unsigned hne hdigits
    · obtain rfl := Option.some.inj ((Numeral.parse?_plus hne hdigits).symm.trans hread)
      exact .plus hne hdigits
    · obtain rfl := Option.some.inj ((Numeral.parse?_minus hne hdigits).symm.trans hread)
      exact .minus hne hdigits
  · intro h
    cases h with
    | unsigned hne hdigits => rw [Numeral.parse?_digits hne hdigits]; rfl
    | plus hne hdigits => rw [Numeral.parse?_plus hne hdigits]; rfl
    | minus hne hdigits => rw [Numeral.parse?_minus hne hdigits]; rfl

/-- An integer has no white space at its ends. -/
theorem IsInteger.trim {t : Text} (h : IsInteger t) : t.trim = t := by
  obtain ⟨u, d, hlast, hd⟩ := h.last
  have hne : t ≠ [] := by simp [hlast]
  obtain ⟨a, r, hfirst⟩ := List.exists_cons_of_ne_nil hne
  refine Text.trim_eq_self (Text.trimmed_of_ends ?_ (not_mem_blank_of_isDigit hd) hfirst hlast)
  rcases h.mem (b := a) (by simp [hfirst]) with ha | rfl | rfl
  · exact not_mem_blank_of_isDigit ha
  · decide
  · decide

/-! ### Integers in canonical form -/

theorem denotes_ofInt (n : Int) : Denotes (.ofInt n) n := by
  cases n with
  | ofNat k =>
    have hplain := Denotes.unsigned (Text.ofNat_ne_nil k) (Text.isDigit_ofNat k)
    rwa [Text.magnitude_ofNat] at hplain
  | negSucc k =>
    have hminus := Denotes.minus (Text.ofNat_ne_nil (k + 1)) (Text.isDigit_ofNat (k + 1))
    rwa [Text.magnitude_ofNat] at hminus

theorem canonical_ofInt (n : Int) : Canonical (.ofInt n) := by
  cases n with
  | ofNat k =>
    show Canonical (Text.ofNat k)
    rcases Nat.eq_zero_or_pos k with rfl | hk
    · exact .zero
    · obtain ⟨d, r, hwritten, hd⟩ := Text.exists_ofNat_eq hk
      have hdigits := Text.isDigit_ofNat k
      rw [hwritten] at hdigits ⊢
      exact .positive hd hdigits
  | negSucc k =>
    show Canonical (byte '-' :: Text.ofNat (k + 1))
    obtain ⟨d, r, hwritten, hd⟩ := Text.exists_ofNat_eq (Nat.succ_pos k)
    have hdigits := Text.isDigit_ofNat (k + 1)
    rw [hwritten] at hdigits ⊢
    exact .negative hd hdigits

/-- What is written for an integer is read as that integer. -/
theorem integer?_ofInt (n : Int) : integer? (.ofInt n) = some n := by
  rw [integer?, (denotes_ofInt n).isInteger.trim]
  exact value_parse?_iff.2 (denotes_ofInt n)

/-! ### Data -/

theorem fill_of_denotes {t : Text} {n : Int} (h : Denotes t.trim n) :
    fill t = ascii ".fill " ++ .ofInt n := by
  obtain ⟨m, hread, rfl⟩ := Option.map_eq_some_iff.1 (value_parse?_iff.2 h)
  rw [fill, hread]
  exact congrArg (ascii ".fill " ++ ·)
    (Numeral.canonical_eq (Numeral.isInteger_of_parse? hread).2)

theorem fill_of_not_denotes {t : Text} (h : ∀ n, ¬ Denotes t.trim n) : fill t = t := by
  rw [fill]
  cases hread : Numeral.parse? t.trim with
  | none => rfl
  | some m => exact absurd (value_parse?_iff.1 (congrArg (Option.map Numeral.value) hread)) (h m.value)

theorem fill_fill (t : Text) : fill (fill t) = fill t := by
  by_cases h : ∃ n, Denotes t.trim n
  · obtain ⟨n, hn⟩ := h
    obtain ⟨htrimmed, hdata⟩ := (denotes_ofInt n).isInteger.data
    rw [fill_of_denotes hn]
    exact fill_eq_self (Text.trim_eq_self htrimmed) hdata
  · rw [fill_of_not_denotes (not_exists.1 h), fill_of_not_denotes (not_exists.1 h)]

end Statement

namespace Stage
open Statement (Canonical Denotes integer?)

/-- **Data keeps its integer.** For each line the stage gives out one line under its number. If there
is an integer between the white space of the line, of any size and with any zeros in front, then it
is the data, in its canonical form, and reading that form gives the integer again. Any other line
comes out as it is, and so does every line that the stage has given out. -/
theorem step_fill (l : Line) : ∃ text,
    fill.step l = .ok ⟨fill, [], [⟨l.no, text⟩]⟩ ∧
      (∀ n, Denotes l.text.trim n → integer? l.text = some n ∧
        text = ascii ".fill " ++ .ofInt n ∧ Canonical (.ofInt n) ∧
        integer? (.ofInt n) = some n) ∧
      ((∀ n, ¬ Denotes l.text.trim n) → integer? l.text = none ∧ text = l.text) ∧
      fill.step ⟨l.no, text⟩ = .ok ⟨fill, [], [⟨l.no, text⟩]⟩ := by
  refine ⟨Statement.fill l.text, rfl, fun n hn => ?_, fun h => ⟨?_, Statement.fill_of_not_denotes h⟩,
    ?_⟩
  · exact ⟨Statement.value_parse?_iff.2 hn, Statement.fill_of_denotes hn,
      Statement.canonical_ofInt n, Statement.integer?_ofInt n⟩
  · rw [Option.eq_none_iff_forall_ne_some]
    exact fun n hn => h n (Statement.value_parse?_iff.1 hn)
  · simp only [step, Statement.fill_fill]

/-- Zeros and a sign that say nothing are dropped, and a sign in front of a sign makes no integer. -/
example : [" +007\t", "-0", "-010", "+-1"].map (fun s => Statement.fill (ascii s)) =
    [".fill 7", ".fill 0", ".fill -10", "+-1"].map ascii := by cbv

end Stage

end Preassembler
