import Mathlib
import Preassembler.Config.Integer
import Preassembler.Text.Quoted

/-! Quoted texts are read back.

`unescape?` reads what stands between quotes, up to the second of them: an escape stands for the
bytes that its letter or its number names, and any other byte for itself. Nothing of a text is lost
in quotes, as the symbols of a text are well-formed (`Symbol.valid_of_mem`): the number of a code
point gives back its bytes.

Main statement: a quoted text is read as the text, whatever follows it (`unquote?_quote`). -/
namespace Preassembler.Text
open Config (digit? number?)

/-! ### Hexadecimal numbers -/

/-- The byte that is written for a digit. -/
def digitByte (d : Nat) : UInt8 := UInt8.ofNat d.digitChar.toNat

theorem digit?_digitByte : ∀ d < 16, digit? (digitByte d) = some d := by decide

theorem number?_append {t : Text} {n d : Nat} (h : number? 16 t = some n) (hd : d < 16) :
    number? 16 (t ++ [digitByte d]) = some (n * 16 + d) := by
  unfold number? at h ⊢
  split at h
  · cases h
  · rw [if_neg (by simp), List.foldl_append, h, List.foldl_cons, List.foldl_nil]
    simp only [digit?_digitByte d hd, if_pos hd]

theorem number?_zero_cons {t : Text} (ht : t ≠ []) :
    number? 16 (byte '0' :: t) = number? 16 t := by
  have hempty : t.isEmpty = false := List.isEmpty_eq_false_iff.2 ht
  have hzero : digit? (byte '0') = some 0 := by decide
  unfold number?
  rw [hempty, List.isEmpty_cons, List.foldl_cons, hzero]
  rfl

theorem number?_digits (n : Nat) :
    number? 16 ((Nat.toDigits 16 n).map fun c => UInt8.ofNat c.toNat) = some n := by
  induction n using Nat.base_induction 16 (by decide) with
  | single d hd =>
    rw [Nat.toDigits_of_lt_base hd]
    have hread : ∀ d < 16, number? 16 [digitByte d] = some d := by decide
    exact hread d hd
  | digit d n hd hn ih =>
    rw [← Nat.toDigits_append_toDigits (by decide) hn hd, List.map_append,
      Nat.toDigits_of_lt_base hd, List.map_singleton, ← digitByte, number?_append ih hd,
      Nat.mul_comm]

/-- Zeros in front of a hexadecimal number do not count. -/
theorem number?_hex (width n : Nat) : number? 16 (hex width n) = some n := by
  have hne : (Nat.toDigits 16 n).map (fun c => UInt8.ofNat c.toNat) ≠ [] := by simp
  rw [hex]
  induction width - ((Nat.toDigits 16 n).map fun c => UInt8.ofNat c.toNat).length with
  | zero => exact number?_digits n
  | succ k ih =>
    rw [List.replicate_succ, List.cons_append, number?_zero_cons (by simp), ih]

theorem length_hex {width n : Nat} (hwidth : 0 < width) (hn : n < 16 ^ width) :
    (hex width n).length = width := by
  have hle := (Nat.length_toDigits_le_iff (by decide) hwidth).2 hn
  rw [hex, List.length_append, List.length_replicate, List.length_map]
  omega

/-! ### Escapes -/

/-- The byte that a sign behind a backslash stands for. -/
def escapedByte? (sign : UInt8) : Option UInt8 :=
  [(byte 'a', 0x07), (byte 'b', 0x08), (byte 'f', 0x0C), (byte 'n', 0x0A), (byte 'r', 0x0D),
    (byte 't', 0x09), (byte 'v', 0x0B), (0x22, 0x22), (0x5C, 0x5C)].lookup sign

/-- The bytes that stand escaped at the front of a text behind a backslash, and what follows. -/
def escape? : Text → Option (Text × Text)
  | [] => none
  | sign :: t =>
    if sign = byte 'x' then (number? 16 (t.take 2)).map fun n => ([UInt8.ofNat n], t.drop 2)
    else if sign = byte 'u' then (number? 16 (t.take 4)).map fun n => (encode n, t.drop 4)
    else if sign = byte 'U' then (number? 16 (t.take 8)).map fun n => (encode n, t.drop 8)
    else (escapedByte? sign).map fun b => ([b], t)

theorem length_lt_of_escape? {t rest bytes : Text} (h : escape? t = some (bytes, rest)) :
    rest.length < t.length := by
  unfold escape? at h
  split at h
  · cases h
  · repeat' split at h
    all_goals
      obtain ⟨n, -, hrest⟩ := Option.map_eq_some_iff.1 h
      rw [← (Prod.mk.inj hrest).2]
      simp only [List.length_drop, List.length_cons]
      omega

/-- The text that stands at the front of a text up to the next quote, and what follows the quote. It
stands on one line. -/
def unescape? (t : Text) : Option (Text × Text) :=
  match t with
  | [] => none
  | b :: r =>
    if b = 0x22 then some ([], r)
    else if b = byte '\n' then none
    else if b = 0x5C then
      match _h : escape? r with
      | none => none
      | some (bytes, rest) => (unescape? rest).map fun (u, behind) => (bytes ++ u, behind)
    else (unescape? r).map fun (u, behind) => (b :: u, behind)
termination_by t.length
decreasing_by
  · exact Nat.lt_succ_of_lt (length_lt_of_escape? _h)
  · exact Nat.lt_succ_self _

/-- The text that stands in quotes at the front of a text, and what follows. -/
def unquote? (t : Text) : Option (Text × Text) := (after? [0x22] t).bind unescape?

theorem unescape?_quote (rest : Text) : unescape? (0x22 :: rest) = some ([], rest) := by
  rw [unescape?, if_pos rfl]

theorem unescape?_escape {t bytes rest : Text} (h : escape? t = some (bytes, rest)) :
    unescape? (0x5C :: t) = (unescape? rest).map fun (u, behind) => (bytes ++ u, behind) := by
  rw [unescape?, if_neg (by decide), if_neg (by decide), if_pos rfl]
  split
  · rename_i hnone
    rw [h] at hnone
    cases hnone
  · rename_i bytes' rest' hsome
    rw [h] at hsome
    cases hsome
    rfl

/-- Whether a byte in quotes stands for itself. -/
def StandsForItself (b : UInt8) : Prop := b ≠ 0x22 ∧ b ≠ byte '\n' ∧ b ≠ 0x5C

theorem unescape?_append {bytes : Text} (h : ∀ b ∈ bytes, StandsForItself b) (rest : Text) :
    unescape? (bytes ++ rest) = (unescape? rest).map fun (u, behind) => (bytes ++ u, behind) := by
  induction bytes with
  | nil => simp
  | cons b bytes ih =>
    rw [List.forall_mem_cons] at h
    obtain ⟨⟨hquote, hnewline, hslash⟩, hbytes⟩ := h
    rw [List.cons_append, unescape?, if_neg hquote, if_neg hnewline, if_neg hslash, ih hbytes,
      Option.map_map]
    rfl

/-- A number of the width that its letter asks for. -/
theorem escape?_hex (sign : UInt8) (width : Nat) {n : Nat}
    (hsign : (sign, width) ∈ [(byte 'x', 2), (byte 'u', 4), (byte 'U', 8)]) (hn : n < 16 ^ width)
    (rest : Text) :
    escape? (sign :: (hex width n ++ rest)) =
      some (if sign = byte 'x' then [UInt8.ofNat n] else encode n, rest) := by
  have hcases : sign = byte 'x' ∧ width = 2 ∨ sign = byte 'u' ∧ width = 4 ∨
      sign = byte 'U' ∧ width = 8 := by simpa using hsign
  have hwidth : 0 < width := by omega
  have htake : (hex width n ++ rest).take width = hex width n :=
    List.take_left' (length_hex hwidth hn)
  have hdrop : (hex width n ++ rest).drop width = rest := List.drop_left' (length_hex hwidth hn)
  rw [escape?]
  rcases hcases with ⟨rfl, rfl⟩ | ⟨rfl, rfl⟩ | ⟨rfl, rfl⟩
  · rw [htake, hdrop, number?_hex]
    rfl
  · rw [htake, hdrop, number?_hex]
    rfl
  · rw [htake, hdrop, number?_hex]
    rfl

/-! ### Well-formed symbols -/

/-- Whether a symbol can come from a text: a code point is in range, and its bytes encode it. -/
def Symbol.Valid : Symbol → Prop
  | .point c bytes => c < 0x110000 ∧ bytes = encode c
  | .stray _ => True

theorem Utf8.isTail_iff {b : UInt8} : isTail b = true ↔ 0x80 ≤ b.toNat ∧ b.toNat ≤ 0xBF := by
  rw [isTail, Bool.and_eq_true, decide_eq_true_eq, decide_eq_true_eq, UInt8.le_iff_toNat_le,
    UInt8.le_iff_toNat_le]
  rfl

theorem eq_ofNat {b : UInt8} {n : Nat} (h : n = b.toNat) : b = UInt8.ofNat n := by
  rw [h, UInt8.ofNat_toNat]

theorem Symbol.valid_one {a : UInt8} (h : a < 0x80) : (point a.toNat [a]).Valid := by
  have ha : a.toNat < 0x80 := UInt8.lt_iff_toNat_lt.1 h
  refine ⟨by omega, ?_⟩
  rw [encode, if_pos ha, UInt8.ofNat_toNat]

theorem Symbol.valid_two {a b : UInt8} (h : Utf8.opensTwo a b = true) :
    (point (a.toNat % 0x20 * 0x40 + Utf8.payload b) [a, b]).Valid := by
  simp only [Utf8.opensTwo, Bool.and_eq_true, decide_eq_true_eq, UInt8.le_iff_toNat_le,
    Utf8.isTail_iff, UInt8.toNat_ofNat] at h
  rw [Valid, Utf8.payload]
  refine ⟨by omega, ?_⟩
  rw [encode, if_neg (by omega), if_pos (by omega), List.cons.injEq, List.cons.injEq]
  exact ⟨eq_ofNat (by omega), eq_ofNat (by omega), rfl⟩

theorem Symbol.valid_three {a b c : UInt8} (h : Utf8.opensThree a b = true)
    (hc : Utf8.isTail c = true) :
    (point ((a.toNat % 0x10 * 0x40 + Utf8.payload b) * 0x40 + Utf8.payload c) [a, b, c]).Valid := by
  simp only [Utf8.opensThree, Bool.and_eq_true, Bool.or_eq_true, bne_iff_ne, decide_eq_true_eq,
    UInt8.le_iff_toNat_le, Utf8.isTail_iff, UInt8.toNat_ofNat, ne_eq, ← UInt8.toNat_inj] at h hc
  rw [Valid, Utf8.payload, Utf8.payload]
  refine ⟨by omega, ?_⟩
  rw [encode, if_neg (by omega), if_neg (by omega), if_pos (by omega), List.cons.injEq,
    List.cons.injEq, List.cons.injEq]
  exact ⟨eq_ofNat (by omega), eq_ofNat (by omega), eq_ofNat (by omega), rfl⟩

theorem Symbol.valid_four {a b c d : UInt8} (h : Utf8.opensFour a b = true)
    (hc : Utf8.isTail c = true) (hd : Utf8.isTail d = true) :
    (point (((a.toNat % 0x08 * 0x40 + Utf8.payload b) * 0x40 + Utf8.payload c) * 0x40 +
      Utf8.payload d) [a, b, c, d]).Valid := by
  simp only [Utf8.opensFour, Bool.and_eq_true, Bool.or_eq_true, bne_iff_ne, decide_eq_true_eq,
    UInt8.le_iff_toNat_le, Utf8.isTail_iff, UInt8.toNat_ofNat, ne_eq, ← UInt8.toNat_inj] at h hc hd
  rw [Valid, Utf8.payload, Utf8.payload, Utf8.payload]
  refine ⟨by omega, ?_⟩
  rw [encode, if_neg (by omega), if_neg (by omega), if_neg (by omega), List.cons.injEq,
    List.cons.injEq, List.cons.injEq, List.cons.injEq]
  exact ⟨eq_ofNat (by omega), eq_ofNat (by omega), eq_ofNat (by omega), eq_ofNat (by omega), rfl⟩

theorem Symbol.valid_next (a : UInt8) (r : Text) : (Utf8.next a r).1.Valid := by
  unfold Utf8.next
  split
  · exact valid_one ‹_›
  · split
    · split
      · exact valid_two ‹_›
      · split
        · split
          · rename_i h
            rw [Bool.and_eq_true] at h
            exact valid_three h.1 h.2
          · split
            · split
              · rename_i h
                rw [Bool.and_eq_true, Bool.and_eq_true] at h
                exact valid_four h.1.1 h.1.2 h.2
              · trivial
            · trivial
        · trivial
    · trivial

theorem Symbol.valid_symbolsFrom {seen : List Symbol} (hseen : ∀ s ∈ seen, s.Valid) (t : Text) :
    ∀ s ∈ Utf8.symbolsFrom seen t, s.Valid := by
  fun_induction Utf8.symbolsFrom seen t with
  | case1 seen => exact fun s hs => hseen s (List.mem_reverse.1 hs)
  | case2 seen a r ih =>
    refine ih ?_
    rw [List.forall_mem_cons]
    exact ⟨valid_next a r, hseen⟩

/-- The symbols of a text are well-formed. -/
theorem Symbol.valid_of_mem {t : Text} : ∀ s ∈ symbols t, s.Valid :=
  valid_symbolsFrom (fun _ hs => absurd hs List.not_mem_nil) t

/-! ### Quoted symbols -/

/-- The bytes of a code point above ASCII have their high bit set. -/
theorem high_of_mem_encode {c : Nat} (hc : 0x80 ≤ c) (hrange : c < 0x110000) :
    ∀ b ∈ encode c, 0x80 ≤ b.toNat := by
  have hbyte : ∀ n, 0x80 ≤ n → n < 0x100 → 0x80 ≤ (UInt8.ofNat n).toNat := by
    intro n hn hlt
    rwa [UInt8.toNat_ofNat', Nat.mod_eq_of_lt hlt]
  rw [encode, if_neg (by omega)]
  split
  · simp only [List.forall_mem_cons]
    exact ⟨hbyte _ (by omega) (by omega), hbyte _ (by omega) (by omega), nofun⟩
  · split
    · simp only [List.forall_mem_cons]
      exact ⟨hbyte _ (by omega) (by omega), hbyte _ (by omega) (by omega),
        hbyte _ (by omega) (by omega), nofun⟩
    · simp only [List.forall_mem_cons]
      exact ⟨hbyte _ (by omega) (by omega), hbyte _ (by omega) (by omega),
        hbyte _ (by omega) (by omega), hbyte _ (by omega) (by omega), nofun⟩

/-- A printable code point that is neither a quote nor a backslash stands for itself. -/
theorem standsForItself_of_printable {c : Nat} (hprint : isPrintable c = true)
    (hquote : c ≠ 0x22) (hslash : c ≠ 0x5C) (hrange : c < 0x110000) :
    ∀ b ∈ encode c, StandsForItself b := by
  intro b hb
  rcases Nat.lt_or_ge c 0x80 with hc | hc
  · rw [encode, if_pos hc, List.mem_singleton] at hb
    have hb : b.toNat = c := by rw [hb, UInt8.toNat_ofNat', Nat.mod_eq_of_lt (by omega)]
    rw [isPrintable, if_pos hc, Bool.and_eq_true, decide_eq_true_eq] at hprint
    refine ⟨?_, ?_, ?_⟩ <;> rintro rfl
    · exact hquote hb.symm
    · exact absurd (hb ▸ hprint.1) (by decide)
    · exact hslash hb.symm
  · have hhigh := high_of_mem_encode hc hrange b hb
    refine ⟨?_, ?_, ?_⟩ <;> rintro rfl <;> exact absurd hhigh (by decide)

theorem escape?_controlLetter {c : Nat} {l : UInt8} (h : controlLetter? c = some l) (rest : Text) :
    escape? (l :: rest) = some (encode c, rest) := by
  unfold controlLetter? at h
  repeat' split at h
  all_goals
    first
    | cases h
      subst c
      rfl
    | cases h

/-- A code point in quotes either is written as it is, in bytes that stand for themselves, or it is
written behind a backslash. -/
theorem quotePoint_cases {c : Nat} (hrange : c < 0x110000) :
    (quotePoint c (encode c) = encode c ∧ ∀ b ∈ encode c, StandsForItself b) ∨
      ∃ escaped, quotePoint c (encode c) = 0x5C :: escaped ∧
        ∀ rest, escape? (escaped ++ rest) = some (encode c, rest) := by
  unfold quotePoint
  split
  · subst c
    exact .inr ⟨_, rfl, fun rest => rfl⟩
  · rename_i hquote
    split
    · subst c
      exact .inr ⟨_, rfl, fun rest => rfl⟩
    · rename_i hslash
      split
      · exact .inl ⟨rfl, standsForItself_of_printable ‹_› hquote hslash hrange⟩
      · split
        · exact .inr ⟨_, rfl, escape?_controlLetter ‹_›⟩
        · split
          · rename_i hcontrol
            have hc : c < 0x80 := by
              rw [Bool.or_eq_true, decide_eq_true_eq, decide_eq_true_eq] at hcontrol
              omega
            refine .inr ⟨_, rfl, fun rest => ?_⟩
            rw [List.cons_append, escape?_hex _ 2 (by decide) (by omega), encode, if_pos hc]
            rfl
          · split
            · refine .inr ⟨_, rfl, fun rest => ?_⟩
              rw [List.cons_append, escape?_hex _ 4 (by decide) (by omega)]
              rfl
            · refine .inr ⟨_, rfl, fun rest => ?_⟩
              rw [List.cons_append, escape?_hex _ 8 (by decide) (by omega)]
              rfl

/-- A symbol in quotes is read as its bytes. -/
theorem unescape?_quoteSymbol {s : Symbol} (hs : s.Valid) (rest : Text) :
    unescape? (quoteSymbol s ++ rest) =
      (unescape? rest).map fun (u, behind) => (s.bytes ++ u, behind) := by
  cases s with
  | point c bytes =>
    obtain ⟨hrange, rfl⟩ := hs
    show unescape? (quotePoint c (encode c) ++ rest) =
      (unescape? rest).map fun (u, behind) => (encode c ++ u, behind)
    rcases quotePoint_cases hrange with ⟨hplain, hself⟩ | ⟨escaped, hquoted, hescape⟩
    · rw [hplain, unescape?_append hself]
    · rw [hquoted, List.cons_append, unescape?_escape (hescape rest)]
  | stray b =>
    have hescape := escape?_hex (byte 'x') 2 (by decide) (UInt8.toNat_lt b) rest
    rw [if_pos rfl, UInt8.ofNat_toNat] at hescape
    exact unescape?_escape hescape

theorem unescape?_symbols {l : List Symbol} (hl : ∀ s ∈ l, s.Valid) (rest : Text) :
    unescape? (l.flatMap quoteSymbol ++ 0x22 :: rest) = some (l.flatMap Symbol.bytes, rest) := by
  induction l with
  | nil => exact unescape?_quote rest
  | cons s l ih =>
    rw [List.forall_mem_cons] at hl
    rw [List.flatMap_cons, List.append_assoc, unescape?_quoteSymbol hl.1, ih hl.2]
    rfl

/-- **A quoted text is read as the text.** -/
theorem unquote?_quote (t rest : Text) : unquote? (t.quote ++ rest) = some (t, rest) := by
  have hopen : after? [0x22] (t.quote ++ rest) =
      some ((symbols t).flatMap quoteSymbol ++ 0x22 :: rest) := by
    rw [after?_eq_some_iff, quote]
    simp
  rw [unquote?, hopen, Option.bind_some, unescape?_symbols Symbol.valid_of_mem, bytes_symbols]

end Preassembler.Text
