/-! Texts are byte strings.

Source programs, listings and messages need not be valid UTF-8, so a text is the list of its
bytes. This module holds the constants and small operations every other module uses. -/
namespace Preassembler

/-- A byte string. -/
abbrev Text := List UInt8

namespace Text

/-- The bytes of a literal that holds ASCII characters only. -/
def ascii (s : String) : Text := s.toList.map fun c => UInt8.ofNat c.toNat

/-- The byte of an ASCII character. -/
abbrev byte (c : Char) : UInt8 := UInt8.ofNat c.toNat

def isUpper (b : UInt8) : Bool := byte 'A' ≤ b && b ≤ byte 'Z'

def isLower (b : UInt8) : Bool := byte 'a' ≤ b && b ≤ byte 'z'

def isDigit (b : UInt8) : Bool := byte '0' ≤ b && b ≤ byte '9'

def isLetter (b : UInt8) : Bool := isLower b || isUpper b

/-- Word bytes: ASCII letters, digits and the underscore. -/
def isWord (b : UInt8) : Bool := isLetter b || isDigit b || b == byte '_'

/-- A natural number in decimal, without leading zeros. -/
def ofNat (n : Nat) : Text := (Nat.toDigits 10 n).map fun c => UInt8.ofNat c.toNat

/-- An integer in decimal, with a minus sign when it is negative. -/
def ofInt : Int → Text
  | .ofNat n => ofNat n
  | .negSucc n => byte '-' :: ofNat (n + 1)

/-- A number in lower-case hexadecimal, with zeros in front up to `width` digits. -/
def hex (width n : Nat) : Text :=
  let digits := (Nat.toDigits 16 n).map fun c => UInt8.ofNat c.toNat
  List.replicate (width - digits.length) (byte '0') ++ digits

/-- A text with blanks in front up to `width` bytes. -/
def padLeft (width : Nat) (t : Text) : Text := List.replicate (width - t.length) (byte ' ') ++ t

/-- What follows `front` in a text that begins with it. -/
def after? : Text → Text → Option Text
  | [], t => some t
  | _ :: _, [] => none
  | a :: front, b :: t => if a = b then after? front t else none

theorem after?_eq_some_iff {front t r : Text} : after? front t = some r ↔ t = front ++ r := by
  fun_induction after? front t with
  | case1 t => simp
  | case2 => simp
  | case3 a front t ih => simpa using ih
  | case4 a front b t h => simp [Ne.symm h]

theorem after?_eq_none_iff {front t : Text} : after? front t = none ↔ ¬ front <+: t := by
  rw [Option.eq_none_iff_forall_ne_some]
  constructor
  · rintro h ⟨r, rfl⟩
    exact h r (after?_eq_some_iff.2 rfl)
  · rintro h r hr
    exact h ⟨r, (after?_eq_some_iff.1 hr).symm⟩

/-- The text without its last byte, when that byte is `b`. -/
def dropLast? (b : UInt8) (t : Text) : Option Text :=
  match t.reverse with
  | [] => none
  | c :: r => if c == b then some r.reverse else none

theorem dropLast?_eq_some_iff {b : UInt8} {t r : Text} : dropLast? b t = some r ↔ t = r ++ [b] := by
  unfold dropLast?
  rcases List.eq_nil_or_concat t with rfl | ⟨u, c, rfl⟩
  · simp
  · by_cases h : c = b
    · simp [h]
    · simp [h]

theorem dropLast?_eq_none_iff {b : UInt8} {t : Text} : dropLast? b t = none ↔ ∀ r, t ≠ r ++ [b] := by
  rw [Option.eq_none_iff_forall_ne_some]
  exact forall_congr' fun r => not_congr dropLast?_eq_some_iff

/-- The parts of a text around the first `b`, if it holds one. -/
def cut? (b : UInt8) (t : Text) : Option (Text × Text) :=
  match t.dropWhile (· != b) with
  | [] => none
  | _ :: after => some (t.takeWhile (· != b), after)

theorem cut?_cons (b c : UInt8) (t : Text) :
    cut? b (c :: t) = if c = b then some ([], t) else (cut? b t).map fun p => (c :: p.1, p.2) := by
  by_cases h : c = b
  · simp [cut?, h]
  · simp only [cut?, h, bne_iff_ne, ne_eq, not_false_eq_true, List.dropWhile_cons_of_pos,
      List.takeWhile_cons_of_pos, if_false]
    split <;> rfl

/-- The first part does not hold `b`, and nothing but `b` is lost. -/
theorem cut?_eq_some_iff {b : UInt8} {t x y : Text} :
    cut? b t = some (x, y) ↔ t = x ++ b :: y ∧ b ∉ x := by
  induction t generalizing x with
  | nil => simp [cut?]
  | cons c t ih =>
    rw [cut?_cons]
    by_cases h : c = b
    · cases x <;> grind
    · cases x with
      | nil => simp [h]
      | cons d x =>
        simp only [h, if_false, Option.map_eq_some_iff, Prod.exists, Prod.mk.injEq, List.cons.injEq]
        grind

theorem cut?_eq_none_iff {b : UInt8} {t : Text} : cut? b t = none ↔ b ∉ t := by
  rw [Option.eq_none_iff_forall_ne_some]
  constructor
  · intro h hmem
    obtain ⟨x, y, rfl, hx⟩ := List.eq_append_cons_of_mem hmem
    exact h (x, y) (cut?_eq_some_iff.2 ⟨rfl, hx⟩)
  · rintro h ⟨x, y⟩ hcut
    obtain ⟨rfl, -⟩ := cut?_eq_some_iff.1 hcut
    exact h (by simp)

theorem cut?_append_of_not_mem {b : UInt8} {front : Text} (h : b ∉ front) (t : Text) :
    cut? b (front ++ t) = (cut? b t).map fun p => (front ++ p.1, p.2) := by
  induction front with
  | nil => simp
  | cons c front ih =>
    rw [List.mem_cons, not_or] at h
    rw [List.cons_append, cut?_cons, if_neg (Ne.symm h.1), ih h.2, Option.map_map]
    rfl

/-- The parts of a text around the last `b`, if it holds one. -/
def cutLast? (b : UInt8) (t : Text) : Option (Text × Text) :=
  (cut? b t.reverse).map fun (after, before) => (before.reverse, after.reverse)

/-- The second part does not hold `b`, and nothing but `b` is lost. -/
theorem cutLast?_eq_some_iff {b : UInt8} {t x y : Text} :
    cutLast? b t = some (x, y) ↔ t = x ++ b :: y ∧ b ∉ y := by
  have hreverse : t.reverse = y.reverse ++ b :: x.reverse ↔ t = x ++ b :: y := by
    rw [← List.reverse_inj]
    simp
  rw [cutLast?, Option.map_eq_some_iff]
  constructor
  · rintro ⟨⟨after, before⟩, hcut, hparts⟩
    obtain ⟨rfl, rfl⟩ := Prod.mk.inj hparts
    obtain ⟨ht, hafter⟩ := cut?_eq_some_iff.1 hcut
    rw [List.reverse_reverse, List.reverse_reverse] at hreverse
    exact ⟨hreverse.1 ht, by simpa using hafter⟩
  · rintro ⟨ht, hy⟩
    refine ⟨(y.reverse, x.reverse), cut?_eq_some_iff.2 ⟨hreverse.2 ht, by simpa using hy⟩, ?_⟩
    simp

theorem cutLast?_eq_none_iff {b : UInt8} {t : Text} : cutLast? b t = none ↔ b ∉ t := by
  rw [cutLast?, Option.map_eq_none_iff, cut?_eq_none_iff, List.mem_reverse]

/-- The maximal runs of bytes that do not satisfy `sep`, in order. -/
def wordsBy (sep : UInt8 → Bool) (t : Text) : List Text :=
  (t.splitOnP sep).filter (!·.isEmpty)

/-- What stands between separators holds bytes of the text and no separator. -/
theorem bytes_of_mem_splitOnP {p : UInt8 → Bool} {t piece : Text} (h : piece ∈ t.splitOnP p) :
    ∀ b ∈ piece, b ∈ t ∧ p b = false := by
  induction t generalizing piece with
  | nil =>
    obtain rfl : piece = [] := by simpa [List.splitOnP_nil] using h
    exact nofun
  | cons c t ih =>
    rw [List.splitOnP_cons_eq_if_modifyHead] at h
    split at h
    · rcases List.mem_cons.1 h with rfl | h
      · exact nofun
      · exact fun b hb => ⟨List.mem_cons_of_mem c (ih h b hb).1, (ih h b hb).2⟩
    · rename_i hc
      obtain ⟨first, rest, hsplit⟩ := List.exists_cons_of_ne_nil (List.splitOnP_ne_nil p t)
      rw [hsplit, List.modifyHead_cons] at h
      rw [hsplit] at ih
      rcases List.mem_cons.1 h with rfl | h
      · intro b hb
        rcases List.mem_cons.1 hb with rfl | hb
        · exact ⟨List.mem_cons_self, by simpa using hc⟩
        · have hfirst := ih List.mem_cons_self b hb
          exact ⟨List.mem_cons_of_mem c hfirst.1, hfirst.2⟩
      · have hrest := ih (List.mem_cons_of_mem first h)
        exact fun b hb => ⟨List.mem_cons_of_mem c (hrest b hb).1, (hrest b hb).2⟩

theorem subset_of_mem_splitOnP {p : UInt8 → Bool} {t piece : Text} (h : piece ∈ t.splitOnP p) :
    piece ⊆ t :=
  fun b hb => (bytes_of_mem_splitOnP h b hb).1

theorem not_mem_of_mem_splitOn {b : UInt8} {t piece : Text} (h : piece ∈ t.splitOn b) :
    b ∉ piece := by
  intro hb
  have hother := (bytes_of_mem_splitOnP h b hb).2
  rw [beq_self_eq_true] at hother
  cases hother

end Text
end Preassembler
