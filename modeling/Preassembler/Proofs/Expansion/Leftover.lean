import Mathlib
import Preassembler.Proofs.Expansion.Returns
import Preassembler.Proofs.Expansion.Substitution

/-! What expansion leaves behind.

The scan meets the names of its text one by one, and a name never joins with what is around it: the
byte before the position and the byte at the position are never both name bytes. So what is behind
the position is final. Its names were passed, and none of them stands for a value (`Scan.Clean`).

Tables that say the same about the names a text leads to expand it alike (`Agree.expand`). A text
without bound names is therefore its own expansion, as it is under the empty table.

Main statement: no name of an expansion stands for a value, so under a table of values expanding
again changes nothing (`Table.expand_leaves_no_value`). -/
namespace Preassembler.Macro

/-! ### Names around a seam -/

theorem map_name_foldl_note (l : List Lexeme) (place : Nat) (found : List Token) :
    (l.foldl Token.note (place, found)).2.reverse.map Token.name =
      found.reverse.map Token.name ++ l.flatMap fun
        | .name n => [n]
        | .gap g => g.flatMap fun _ => [] := by
  induction l generalizing place found with
  | nil => simp
  | cons lexeme l ih => cases lexeme <;> simp [Token.note, ih]

/-- The tokens of a text are its names, in order. -/
theorem map_name_tokens (t : Text) : (tokens t).map Token.name = names t :=
  map_name_foldl_note (lexemes t) 0 []

theorem forall_tokens_iff {p : Text → Prop} {t : Text} :
    (∀ k ∈ tokens t, p k.name) ↔ ∀ n ∈ names t, p n := by
  rw [← map_name_tokens, List.forall_mem_map]

/-- Behind everything that is skipped on the way to a run, the run is not empty. -/
theorem dropWhile_not_eq_nil {α : Type} {p : α → Bool} {l : List α}
    (h : (l.dropWhile fun a => !p a).takeWhile p = []) : l.dropWhile (fun a => !p a) = [] := by
  cases hcons : l.dropWhile fun a => !p a with
  | nil => rfl
  | cons a r =>
    have hhead := List.head?_dropWhile_not (fun a => !p a) l
    rw [hcons] at hhead
    rw [hcons, List.takeWhile_cons_of_pos (by simpa using hhead)] at h
    cases h

theorem names_of_gap {t : Text} (h : ∀ b ∈ t, isNameByte b = false) : names t = [] := by
  induction t with
  | nil => exact names_nil
  | cons b t ih =>
    rw [names_byte (h b List.mem_cons_self)]
    exact ih fun c hc => h c (List.mem_cons_of_mem b hc)

/-- A text that ends with a byte of no name is read apart from what follows it. -/
theorem translate_append_of_end {β : Type} {onName : Text → List β} {onByte : UInt8 → List β}
    {x y : Text} (hx : Apart x.reverse) :
    translate onName onByte (x ++ y) = translate onName onByte x ++ translate onName onByte y := by
  rcases List.eq_nil_or_concat x with hnil | ⟨front, b, hlast⟩
  · simp [hnil, translate_nil]
  · have hb : isNameByte b = false := hx b (by simp [hlast])
    have hsplit : x ++ y = front ++ b :: y := by simp [hlast]
    have hend : x = front ++ b :: [] := by simp [hlast]
    rw [hsplit, hend, translate_append (apart_cons hb y), translate_append (apart_cons hb []),
      translate_byte hb, translate_byte hb, translate_nil, List.append_nil, List.append_assoc]

theorem names_append {x y : Text} (h : Apart x.reverse ∨ Apart y) :
    names (x ++ y) = names x ++ names y := by
  rcases h with hx | hy
  · exact translate_append_of_end hx
  · exact translate_append hy

/-! ### The names a scan meets -/

namespace Scan
variable {table : Table} {limit : Nat} {s s' : Scan}

theorem isName_name (h : s.name.isEmpty = false) : isName s.name = true := by
  have hall : s.name.all isNameByte = true := List.all_takeWhile
  rw [isName, h, hall]
  rfl

theorem not_name_of_mem_gap {b : UInt8} (h : b ∈ s.gap) : isNameByte b = false := by
  simpa using List.all_eq_true.1 (List.all_takeWhile (p := (!isNameByte ·)) (l := s.rest)) b h

theorem apart_tail (s : Scan) : Apart s.tail := apart_dropWhile _

theorem apart_gap (s : Scan) : Apart s.gap := by
  intro b hb
  exact not_name_of_mem_gap (List.mem_of_mem_head? hb)

theorem apart_gap_reverse (s : Scan) : Apart s.gap.reverse := by
  intro b hb
  exact not_name_of_mem_gap (List.mem_reverse.1 (List.mem_of_mem_head? hb))

theorem names_gap (s : Scan) : names s.gap = [] := names_of_gap fun _ => not_name_of_mem_gap

theorem names_rest_eq (s : Scan) : names s.rest = names (s.name ++ s.tail) := by
  rw [← s.rest_eq, names_append (.inl s.apart_gap_reverse), names_gap, List.nil_append]

/-- Ahead of the scan stand its next name and the names of what follows it. -/
theorem names_rest (h : s.name.isEmpty = false) : names s.rest = s.name :: names s.tail := by
  rw [names_rest_eq, names_name (isName_name h) s.apart_tail]

theorem names_rest_of_isEmpty (h : s.name.isEmpty = true) : names s.rest = [] := by
  have hfrom : s.fromName = [] := dropWhile_not_eq_nil (List.isEmpty_iff.1 h)
  have hsplit : s.gap ++ s.fromName = s.rest := List.takeWhile_append_dropWhile
  rw [← hsplit, hfrom, List.append_nil, names_gap]

end Scan

/-! ### Tables that agree -/

/-- Tables that say the same about the names of a set: a name is unbound in both, or stands in both
for one value whose names belong to the set. -/
def Agree (table table' : Table) (among : Text → Prop) : Prop :=
  ∀ n, among n → (table.find? n = none ∧ table'.find? n = none) ∨
    ∃ u, table.find? n = some (.value u) ∧ table'.find? n = some (.value u) ∧
      ∀ m ∈ names u, among m

namespace Agree
variable {table table' : Table} {among : Text → Prop} {limit : Nat}

theorem step (h : Agree table table' among) {s : Scan} (hs : ∀ n ∈ names s.rest, among n) :
    Matches (fun s s' => s = s' ∧ ∀ n ∈ names s.rest, among n) (s.step table limit)
      (s.step table' limit) := by
  cases hn : s.name.isEmpty with
  | true =>
    rw [Scan.step, Scan.step, if_pos hn, if_pos hn]
    exact .finished
  | false =>
    rw [Scan.names_rest hn] at hs
    have htail : ∀ n ∈ names s.tail, among n := fun n hn => hs n (List.mem_cons_of_mem _ hn)
    rcases h s.name (hs s.name List.mem_cons_self) with ⟨hfree, hfree'⟩ | ⟨u, hu, hu', hnames⟩
    · simp only [Scan.step, hn, Table.read, hfree, hfree', Bool.false_eq_true, if_false]
      exact .next ⟨rfl, htail⟩
    · simp only [Scan.step, hn, Table.read, hu, hu', Bool.false_eq_true, if_false]
      show Matches _ (if limit < depthIn (s.outer 0) then _ else .next (s.put 0 u s.tail))
        (if limit < depthIn (s.outer 0) then _ else .next (s.put 0 u s.tail))
      split
      · exact .failed
      · refine .next ⟨rfl, fun n hn => ?_⟩
        rw [Scan.put, names_append (.inr s.apart_tail)] at hn
        rcases List.mem_append.1 hn with hn | hn
        · exact hnames n hn
        · exact htail n hn

/-- Tables that agree about the names of a text expand it alike. -/
theorem expand (h : Agree table table' among) (limit : Nat) {t : Text}
    (ht : ∀ n ∈ names t, among n) : table.expand limit t = table'.expand limit t := by
  obtain ⟨n, hn⟩ := table.exists_returns_expand limit t
  obtain ⟨m, hm⟩ := table'.exists_returns_expand limit t
  have hsame := hn.transfer
    (R := fun _ s s' => s = s' ∧ ∀ n ∈ names s.rest, among n)
    (fun hR _ => by
      obtain ⟨rfl, hs⟩ := hR
      exact h.step hs)
    ⟨rfl, ht⟩
  exact (hsame.unique hm).2

end Agree

/-- Expansion changes nothing in a text whose names are unbound. -/
theorem Table.expand_of_unbound {table : Table} (limit : Nat) {t : Text}
    (h : ∀ n ∈ names t, table.find? n = none) : table.expand limit t = .ok t := by
  have hagree : Agree table .empty fun n => table.find? n = none := fun n hn => .inl ⟨hn, rfl⟩
  rw [hagree.expand limit h]
  rfl

/-! ### What is behind the scan -/

/-- A name that does not stand for a value. -/
def Table.NoValue (table : Table) (n : Text) : Prop := ∀ u, table.find? n ≠ some (.value u)

theorem Table.noValue_of_read {table : Table} {n tail : Text} (h : table.read n tail = .plain) :
    table.NoValue n := by
  intro u hu
  rw [Table.read, hu] at h
  cases h

namespace Scan
variable {table : Table} {limit : Nat} {s s' : Scan}

/-- No name reaches over the position, and no name behind it stands for a value. -/
structure Clean (table : Table) (s : Scan) : Prop where
  seam : Apart s.passed ∨ Apart s.rest
  passed : ∀ n ∈ names s.passed.reverse, table.NoValue n

theorem clean_start (table : Table) (t : Text) : (start t).Clean table where
  seam := .inl apart_nil
  passed := by
    intro n hn
    rw [show names (start t).passed.reverse = [] from names_nil] at hn
    cases hn

namespace Clean

/-- The next name begins behind a byte of no name. -/
theorem apart_before (h : s.Clean table) (hn : s.name.isEmpty = false) :
    Apart (s.gap.reverse ++ s.passed) := by
  rcases List.eq_nil_or_concat s.gap with hgap | ⟨front, b, hgap⟩
  · rw [hgap]
    rcases h.seam with hpassed | hrest
    · exact hpassed
    · -- Without a gap the text ahead begins with the name.
      obtain ⟨b, name, hname⟩ := List.exists_cons_of_ne_nil (ne_nil_of_isName (isName_name hn))
      have hb : isNameByte b = true := byte_of_isName (isName_name hn) (by simp [hname])
      have hhead : b ∈ s.rest.head? := by
        rw [← s.rest_eq, hgap, hname]
        rfl
      exact absurd (hrest b hhead) (by simp [hb])
  · have hb : isNameByte b = false := not_name_of_mem_gap (s := s) (by simp [hgap])
    rw [hgap, List.concat_eq_append, List.reverse_append]
    exact apart_cons hb _

theorem names_before (s : Scan) :
    names (s.gap.reverse ++ s.passed).reverse = names s.passed.reverse := by
  rw [List.reverse_append, List.reverse_reverse, names_append (.inr s.apart_gap), names_gap,
    List.append_nil]

theorem pass (h : s.Clean table) (hn : s.name.isEmpty = false) (hplain : table.NoValue s.name) :
    s.pass.Clean table where
  seam := .inr s.apart_tail
  passed := by
    intro n hmem
    have hbehind : s.pass.passed.reverse = (s.gap.reverse ++ s.passed).reverse ++ s.name := by
      simp [Scan.pass]
    rw [hbehind, names_append (.inl ?_), names_before, names_of_isName (isName_name hn)] at hmem
    · rcases List.mem_append.1 hmem with hmem | hmem
      · exact h.passed n hmem
      · rw [List.mem_singleton.1 hmem]
        exact hplain
    · rw [List.reverse_reverse]
      exact h.apart_before hn

theorem put (h : s.Clean table) (hn : s.name.isEmpty = false) (size : Nat) (text rest : Text) :
    (s.put size text rest).Clean table where
  seam := .inl (h.apart_before hn)
  passed := by
    intro n hmem
    rw [Scan.put, names_before] at hmem
    exact h.passed n hmem

theorem step (h : s.Clean table) (hs : s.step table limit = .next s') : s'.Clean table := by
  cases step_of_eq hs with
  | pass hn hr => exact h.pass hn (Table.noValue_of_read hr)
  | put hn hr => exact h.put hn _ _ _

theorem finish (h : s.Clean table) (hn : s.name.isEmpty = true) :
    ∀ n ∈ names s.text, table.NoValue n := by
  intro n hmem
  rw [text, names_append (by simpa using h.seam), names_rest_of_isEmpty hn, List.append_nil] at hmem
  exact h.passed n hmem

/-- A scan that is clean behind its position ends with a text without values. -/
theorem returns {k : Nat} {r : Text} (h : s.Clean table)
    (hr : Returns (Scan.step table limit) k s (.ok r)) : ∀ n ∈ names r, table.NoValue n := by
  generalize ho : Except.ok r = o at hr
  induction hr with
  | finished hs =>
    obtain rfl := Except.ok.inj ho
    cases step_of_eq hs with
    | finish hn => exact h.finish hn
  | failed => cases ho
  | next hs _ ih => exact ih (h.step hs) ho

end Clean

end Scan

/-! ### Expansions -/

def Definition.isValue : Definition → Bool
  | value _ => true
  | function _ => false

namespace Table

/-- No name of an expansion stands for a value. -/
theorem noValue_of_expand {table : Table} {limit : Nat} {t r : Text}
    (h : table.expand limit t = .ok r) : ∀ n ∈ names r, table.NoValue n := by
  obtain ⟨k, hk⟩ := table.exists_returns_expand limit t
  rw [h] at hk
  exact (Scan.clean_start table t).returns hk

/-- Every macro of the table is a value. -/
def HoldsValues (table : Table) : Prop := ∀ e ∈ table.entries, e.2.isValue = true

instance (table : Table) : Decidable table.HoldsValues :=
  inferInstanceAs (Decidable (∀ e ∈ table.entries, e.2.isValue = true))

theorem HoldsValues.find? {table : Table} (h : table.HoldsValues) {n : Text} {d : Definition}
    (hd : table.find? n = some d) : ∃ u, d = .value u := by
  have hvalue := h (n, d) (Dictionary.find?_eq_some_iff.1 hd)
  cases d with
  | value u => exact ⟨u, rfl⟩
  | function f => cases hvalue

theorem HoldsValues.unbound {table : Table} (h : table.HoldsValues) {n : Text}
    (hn : table.NoValue n) : table.find? n = none := by
  cases hfind : table.find? n with
  | none => rfl
  | some d =>
    obtain ⟨u, rfl⟩ := h.find? hfind
    exact absurd hfind (hn u)

/-- **After a successful expansion no value is left.** Whatever the macros, the text and the limit,
no token of the result stands for a value. Under a table of values the result is therefore its own
expansion. -/
theorem expand_leaves_no_value (table : Table) (limit : Nat) {t r : Text}
    (h : table.expand limit t = .ok r) :
    (∀ k ∈ tokens r, ∀ u, table.find? k.name ≠ some (.value u)) ∧
      (table.HoldsValues → table.expand limit r = .ok r) := by
  have hnames := noValue_of_expand h
  constructor
  · exact forall_tokens_iff.2 hnames
  · intro hvalues
    apply expand_of_unbound
    intro n hn
    exact hvalues.unbound (hnames n hn)

open Text (ascii) in
/-- A value that leads to another one, which is empty; no name grows together with what is beside
it. -/
theorem expand_leaves_no_value_two :
    let table : Table := .ofList [(ascii "A", .value (ascii "B-B")), (ascii "B", .value [])]
    table.expand 2 (ascii "A/AB") = .ok (ascii "-/AB") ∧
      (∀ k ∈ tokens (ascii "-/AB"), ∀ u, table.find? k.name ≠ some (.value u)) ∧
      table.expand 2 (ascii "-/AB") = .ok (ascii "-/AB") := by
  intro table
  have hexpand : table.expand 2 (ascii "A/AB") = .ok (ascii "-/AB") := by
    unfold table
    cbv
  obtain ⟨hnone, hagain⟩ := expand_leaves_no_value table 2 hexpand
  exact ⟨hexpand, hnone, hagain (by decide)⟩

end Table

end Preassembler.Macro
