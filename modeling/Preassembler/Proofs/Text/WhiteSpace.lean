import Preassembler.Text.Blank
import Preassembler.Text.Utf8

/-! White space.

Trimming drops encodings of white-space characters, marks, from the front of a text and of its
mirror image. No mark begins another one, so which mark goes is no choice, and marks are dropped
from a text alone as long as none lies across its end (`dropMarks_append`). No white-space character
begins in a text and ends in the white space behind it (`uncut_blank`).

Main statements: what is trimmed has no white space at its ends (`trimmed_trim`), and blank texts
around another one are trimmed away (`trim_append_of_isBlank`, `trim_of_isBlank_append`). -/
namespace Preassembler.Text

/-! ### Trimming -/

theorem afterMark?_eq_none_iff {marks : List Text} {t : Text} :
    afterMark? marks t = none ↔ ∀ m ∈ marks, m ≠ [] → ¬ m <+: t := by
  rw [afterMark?, List.findSome?_eq_none_iff]
  refine forall₂_congr fun m _ => ?_
  cases m with
  | nil => simp
  | cons a m =>
    rw [← after?_eq_none_iff]
    simp

theorem dropMarks_of_none {marks : List Text} {t : Text} (h : afterMark? marks t = none) :
    dropMarks marks t = t := by
  rw [dropMarks]
  split <;> simp_all

theorem afterMark?_dropMarks (marks : List Text) (t : Text) :
    afterMark? marks (dropMarks marks t) = none := by
  fun_induction dropMarks marks t with
  | case1 t r h ih => exact ih
  | case2 t h => exact h

theorem dropMarks_suffix (marks : List Text) (t : Text) : dropMarks marks t <:+ t := by
  fun_induction dropMarks marks t with
  | case1 t r h ih =>
    obtain ⟨m, -, hm⟩ := List.exists_of_findSome?_eq_some h
    split at hm
    · cases hm
    · exact ih.trans ⟨m, (after?_eq_some_iff.1 hm).symm⟩
  | case2 t h => exact List.suffix_rfl

/-- No white space at either end. -/
def Trimmed (t : Text) : Prop := ∀ m ∈ blanks, ¬ m <+: t ∧ ¬ m <:+ t

theorem blank_ne_nil : ∀ m ∈ blanks, m ≠ [] := by decide

theorem not_isWord_of_blank (m : Text) (hm : m ∈ blanks) (b : UInt8) (hb : b ∈ m) :
    isWord b = false := by
  have hall : (blanks.all fun m => m.all fun b => !isWord b) = true := by decide
  simpa using List.all_eq_true.1 (List.all_eq_true.1 hall m hm) b hb

theorem trim_front (t : Text) : t.trim <+: t.trimLeft := by
  rw [trim, trimRight, ← List.reverse_suffix, List.reverse_reverse]
  exact dropMarks_suffix _ _

theorem trim_sublist (t : Text) : t.trim.Sublist t :=
  (trim_front t).sublist.trans (dropMarks_suffix blanks t).sublist

theorem trim_infix (t : Text) : t.trim <:+: t :=
  (trim_front t).isInfix.trans (dropMarks_suffix blanks t).isInfix

theorem trimmed_trim (t : Text) : Trimmed t.trim := by
  intro m hm
  constructor
  · intro hfront
    exact afterMark?_eq_none_iff.1 (afterMark?_dropMarks blanks t) m hm (blank_ne_nil m hm)
      (hfront.trans (trim_front t))
  · intro hback
    rw [trim, trimRight, ← List.reverse_prefix, List.reverse_reverse] at hback
    exact afterMark?_eq_none_iff.1 (afterMark?_dropMarks (blanks.map List.reverse) _) m.reverse
      (List.mem_map_of_mem hm) (by simpa using blank_ne_nil m hm) hback

theorem trim_eq_self {t : Text} (h : Trimmed t) : t.trim = t := by
  have hleft : t.trimLeft = t :=
    dropMarks_of_none (afterMark?_eq_none_iff.2 fun m hm _ => (h m hm).1)
  have hright : t.trimRight = t := by
    rw [trimRight, dropMarks_of_none, List.reverse_reverse]
    rw [afterMark?_eq_none_iff]
    intro m hm _ hfront
    obtain ⟨blank, hblank, rfl⟩ := List.mem_map.1 hm
    exact (h blank hblank).2 (List.reverse_prefix.1 hfront)
  rw [trim, hleft, hright]

/-- A text is trimmed if its ends belong to no white space. -/
theorem trimmed_of_ends {a b : UInt8} {t r u : Text} (ha : ∀ m ∈ blanks, a ∉ m)
    (hb : ∀ m ∈ blanks, b ∉ m) (hfront : t = a :: r) (hback : t = u ++ [b]) : Trimmed t := by
  intro m hm
  constructor
  · rintro ⟨x, hx⟩
    obtain ⟨c, m, rfl⟩ := List.exists_cons_of_ne_nil (blank_ne_nil m hm)
    rw [hfront, List.cons_append] at hx
    exact ha _ hm ((List.cons.inj hx).1 ▸ List.mem_cons_self)
  · rintro ⟨x, hx⟩
    obtain ⟨m, c, rfl⟩ := (List.eq_nil_or_concat m).resolve_left (blank_ne_nil m hm)
    rw [hback, List.concat_eq_append, ← List.append_assoc] at hx
    exact hb _ hm (by simp [(List.append_inj' hx rfl).2])

/-! ### White space at a cut -/

/-- No mark is a proper front of another one, and no mark is empty. -/
def Distinct (marks : List Text) : Prop :=
  ∀ m ∈ marks, m ≠ [] ∧ ∀ m' ∈ marks, m <+: m' → m = m'

instance (marks : List Text) : Decidable (Distinct marks) :=
  inferInstanceAs (Decidable (∀ m ∈ marks, m ≠ [] ∧ ∀ m' ∈ marks, m <+: m' → m = m'))

theorem distinct_blanks : Distinct blanks := by decide

theorem distinct_blanks_reverse : Distinct (blanks.map List.reverse) := by decide

/-- No mark lies partly in `a` and partly in `b` when `b` follows `a`. -/
def Uncut (marks : List Text) (a b : Text) : Prop :=
  ∀ x y, x ++ y ∈ marks → x ≠ [] → y ≠ [] → x <:+ a → ¬ y <+: b

theorem Uncut.of_suffix {marks : List Text} {a a' b : Text} (h : Uncut marks a b) (ha : a' <:+ a) :
    Uncut marks a' b := fun x y hmem hx hy hback => h x y hmem hx hy (hback.trans ha)

theorem Uncut.reverse {marks : List Text} {a b : Text} (h : Uncut marks a b) :
    Uncut (marks.map List.reverse) b.reverse a.reverse := by
  intro x y hmem hx hy hback hfront
  obtain ⟨m, hm, hxy⟩ := List.mem_map.1 hmem
  have hm' : m = y.reverse ++ x.reverse := by
    rw [← List.reverse_append, ← hxy, List.reverse_reverse]
  refine h y.reverse x.reverse (hm' ▸ hm) (by simpa using hy) (by simpa using hx) ?_ ?_
  · rwa [← List.reverse_prefix, List.reverse_reverse]
  · rwa [← List.reverse_suffix, List.reverse_reverse]

theorem exists_mark {marks : List Text} {t r : Text} (h : afterMark? marks t = some r) :
    ∃ m ∈ marks, t = m ++ r := by
  obtain ⟨m, hm, hafter⟩ := List.exists_of_findSome?_eq_some h
  split at hafter
  · cases hafter
  · exact ⟨m, hm, after?_eq_some_iff.1 hafter⟩

theorem afterMark?_of_distinct {marks : List Text} (h : Distinct marks) {m : Text} (hm : m ∈ marks)
    (r : Text) : afterMark? marks (m ++ r) = some r := by
  cases hafter : afterMark? marks (m ++ r) with
  | none => exact absurd (List.prefix_append m r) (afterMark?_eq_none_iff.1 hafter m hm (h m hm).1)
  | some s =>
    obtain ⟨m', hm', heq⟩ := exists_mark hafter
    -- both marks stand at the front of one text, so one of them is a front of the other
    have hsame : m = m' := by
      rcases List.prefix_or_prefix_of_prefix (List.prefix_append m r) ⟨s, heq.symm⟩ with hle | hle
      · exact (h m hm).2 m' hm' hle
      · exact ((h m' hm').2 m hm hle).symm
    subst hsame
    rw [List.append_cancel_left heq]

theorem dropMarks_of_some {marks : List Text} {t r : Text} (h : afterMark? marks t = some r) :
    dropMarks marks t = dropMarks marks r := by
  rw [dropMarks]
  split <;> simp_all

/-- Marks are dropped from `a` alone if something of `a` is left, or `b` begins with none. -/
theorem dropMarks_append {marks : List Text} (hmarks : Distinct marks) {a b : Text}
    (hcut : Uncut marks a b) (hb : dropMarks marks a = [] → afterMark? marks b = none) :
    dropMarks marks (a ++ b) = dropMarks marks a ++ b := by
  fun_induction dropMarks marks a with
  | case1 a r h ih =>
    obtain ⟨m, hm, rfl⟩ := exists_mark h
    rw [List.append_assoc, dropMarks_of_some (afterMark?_of_distinct hmarks hm (r ++ b))]
    exact ih (hcut.of_suffix (List.suffix_append m r)) hb
  | case2 a h =>
    apply dropMarks_of_none
    rw [afterMark?_eq_none_iff] at h ⊢
    rintro m hm hne ⟨t, ht⟩
    rcases List.append_eq_append_iff.1 ht with ⟨r, rfl, -⟩ | ⟨y, rfl, rfl⟩
    · exact h m hm hne (List.prefix_append m r)
    · by_cases ha : a = []
      · subst ha
        exact afterMark?_eq_none_iff.1 (hb rfl) y hm hne (List.prefix_append y t)
      · by_cases hy : y = []
        · subst hy
          rw [List.append_nil] at hm hne
          exact h a hm hne List.prefix_rfl
        · exact hcut a y hm ha hy List.suffix_rfl (List.prefix_append y t)

/-- White space around a text lies in front of its first part and behind its last one. -/
theorem trim_append {a b : Text} (hcut : Uncut blanks a b) (hfront : ∀ m ∈ blanks, ¬ m <+: b)
    (hb : b.trim ≠ []) : (a ++ b).trim = a.trimLeft ++ b.trim := by
  have hnone : afterMark? blanks b = none := afterMark?_eq_none_iff.2 fun m hm _ => hfront m hm
  have hleft : (a ++ b).trimLeft = a.trimLeft ++ b :=
    dropMarks_append distinct_blanks hcut fun _ => hnone
  have hbleft : b.trimLeft = b := dropMarks_of_none hnone
  have hright : (a.trimLeft ++ b).trimRight = a.trimLeft ++ b.trimRight := by
    rw [trim, hbleft, trimRight, Ne, List.reverse_eq_nil_iff] at hb
    have hcut' : Uncut blanks a.trimLeft b := hcut.of_suffix (dropMarks_suffix blanks a)
    rw [trimRight, List.reverse_append, dropMarks_append distinct_blanks_reverse hcut'.reverse
      fun h => absurd h hb, List.reverse_append, List.reverse_reverse, trimRight]
  rw [trim, hleft, hright, trim, hbleft]

/-! ### White space behind a text -/

theorem dropMarks_mark {marks : List Text} (hmarks : Distinct marks) {m : Text} (hm : m ∈ marks)
    (t : Text) : dropMarks marks (m ++ t) = dropMarks marks t :=
  dropMarks_of_some (afterMark?_of_distinct hmarks hm t)

/-- A text of marks only does not keep the marks behind it. -/
theorem dropMarks_append_of_nil {marks : List Text} (hmarks : Distinct marks) {a : Text}
    (h : dropMarks marks a = []) (b : Text) : dropMarks marks (a ++ b) = dropMarks marks b := by
  fun_induction dropMarks marks a with
  | case1 a r hr ih =>
    obtain ⟨m, hm, rfl⟩ := exists_mark hr
    rw [List.append_assoc, dropMarks_mark hmarks hm]
    exact ih h
  | case2 a _ =>
    subst h
    rfl

/-- No white-space character begins in a text and ends in the white space behind it. -/
theorem uncut_blank {m : Text} (hm : m ∈ blanks) (t : Text) : Uncut blanks t m := by
  have hhead : ∀ m ∈ blanks, (!m.head?.any Utf8.isTail) = true :=
    List.all_eq_true.1 (by decide +kernel)
  have htail : ∀ m ∈ blanks, m.tail.all Utf8.isTail = true :=
    List.all_eq_true.1 (by decide +kernel)
  rintro x y hmem hx hy - ⟨r, hr⟩
  obtain ⟨a, x, rfl⟩ := List.exists_cons_of_ne_nil hx
  obtain ⟨b, y, rfl⟩ := List.exists_cons_of_ne_nil hy
  have hinside : Utf8.isTail b = true := List.all_eq_true.1 (htail _ hmem) b (by simp)
  have hfirst := hhead m hm
  simp [← hr, hinside] at hfirst

theorem trimRight_append_blank {m : Text} (hm : m ∈ blanks) (t : Text) :
    (t ++ m).trimRight = t.trimRight := by
  rw [trimRight, trimRight, List.reverse_append,
    dropMarks_mark distinct_blanks_reverse (List.mem_map_of_mem hm)]

theorem trimLeft_blank {m : Text} (hm : m ∈ blanks) : m.trimLeft = [] := by
  have hmark := dropMarks_mark distinct_blanks hm []
  rw [List.append_nil] at hmark
  exact hmark.trans (dropMarks_of_none rfl)

/-- White space behind a text is trimmed away, whatever the text ends with. -/
theorem trim_append_blank {m : Text} (hm : m ∈ blanks) (t : Text) : (t ++ m).trim = t.trim := by
  by_cases hblank : t.trimLeft = []
  · have hleft : (t ++ m).trimLeft = [] :=
      (dropMarks_append_of_nil distinct_blanks hblank m).trans (trimLeft_blank hm)
    rw [trim, hleft, trim, hblank]
  · have hleft : (t ++ m).trimLeft = t.trimLeft ++ m :=
      dropMarks_append distinct_blanks (uncut_blank hm t) fun h => absurd h hblank
    rw [trim, hleft, trimRight_append_blank hm, trim]

/-- A blank between two texts keeps what is at the outer ends. -/
theorem trimmed_append_space {x y : Text} (hx : Trimmed x) (hy : Trimmed y) (hxne : x ≠ [])
    (hyne : y ≠ []) : Trimmed (x ++ byte ' ' :: y) := by
  -- a white-space character that goes over the blank is the blank
  have halone : ∀ u v, u ++ byte ' ' :: v ∈ blanks → u = [] ∧ v = [] := by
    have hall : ∀ m ∈ blanks, byte ' ' ∈ m → m.length = 1 := by decide
    intro u v hm
    have hlength := hall _ hm (by simp)
    rw [List.length_append, List.length_cons] at hlength
    exact ⟨List.eq_nil_of_length_eq_zero (by omega), List.eq_nil_of_length_eq_zero (by omega)⟩
  intro m hm
  constructor
  · rintro ⟨t, ht⟩
    rcases List.append_eq_append_iff.1 ht with ⟨r, rfl, -⟩ | ⟨r, rfl, hr⟩
    · exact (hx m hm).1 (List.prefix_append m r)
    · cases r with
      | nil => exact (hx _ hm).1 (by simp)
      | cons b r =>
        obtain ⟨rfl, -⟩ := List.cons.inj hr
        exact hxne (halone x r hm).1
  · rintro ⟨t, ht⟩
    rcases List.append_eq_append_iff.1 ht with ⟨r, -, rfl⟩ | ⟨r, -, hr⟩
    · exact hyne (halone r y hm).2
    · cases r with
      | nil =>
        obtain rfl : byte ' ' :: y = m := hr
        exact hyne (halone [] y hm).2
      | cons b r =>
        obtain ⟨-, rfl⟩ := List.cons.inj hr
        exact (hy m hm).2 (List.suffix_append r m)

/-! ### Blank texts -/

/-- Nothing but white space. -/
def IsBlank (t : Text) : Prop := t.trim = []

instance (t : Text) : Decidable t.IsBlank := inferInstanceAs (Decidable (t.trim = []))

theorem isBlank_nil : IsBlank [] :=
  trim_eq_self (show ∀ m ∈ blanks, ¬ m <+: [] ∧ ¬ m <:+ [] by decide)

theorem exists_marks_of_dropMarks {marks : List Text} {t : Text} (h : dropMarks marks t = []) :
    ∃ l : List Text, (∀ m ∈ l, m ∈ marks) ∧ t = l.flatten := by
  fun_induction dropMarks marks t with
  | case1 t r hr ih =>
    obtain ⟨m, hm, rfl⟩ := exists_mark hr
    obtain ⟨l, hl, rfl⟩ := ih h
    exact ⟨m :: l, List.forall_mem_cons.2 ⟨hm, hl⟩, rfl⟩
  | case2 t _ => exact ⟨[], nofun, h⟩

/-- Of a blank text nothing is left once its front is trimmed. -/
theorem trimLeft_of_isBlank {t : Text} (h : t.IsBlank) : t.trimLeft = [] := by
  rw [IsBlank, trim, trimRight, List.reverse_eq_nil_iff] at h
  obtain ⟨l, hl, heq⟩ := exists_marks_of_dropMarks h
  rcases List.eq_nil_or_concat l with rfl | ⟨l, m, rfl⟩
  · simpa using heq
  · -- the last of the reversed marks would stand at the front, where none is left
    obtain ⟨blank, hblank, rfl⟩ := List.mem_map.1 (hl m (by simp))
    have hfront : t.trimLeft = blank ++ l.flatten.reverse := by
      rw [← List.reverse_inj, heq]
      simp
    have hnone := afterMark?_eq_none_iff.1 (afterMark?_dropMarks blanks t) blank hblank
      (blank_ne_nil blank hblank)
    exact absurd ⟨l.flatten.reverse, hfront.symm⟩ hnone

/-- A blank text is a row of white-space characters. -/
theorem isBlank_iff {t : Text} :
    t.IsBlank ↔ ∃ l : List Text, (∀ m ∈ l, m ∈ blanks) ∧ t = l.flatten := by
  constructor
  · exact fun h => exists_marks_of_dropMarks (trimLeft_of_isBlank h)
  · rintro ⟨l, hl, rfl⟩
    induction l with
    | nil => exact isBlank_nil
    | cons m l ih =>
      obtain ⟨hm, hl⟩ := List.forall_mem_cons.1 hl
      rw [List.flatten_cons, IsBlank, trim, trimLeft, dropMarks_mark distinct_blanks hm]
      exact ih hl

theorem isBlank_replicate (n : Nat) : IsBlank (List.replicate n (byte ' ')) := by
  rw [isBlank_iff]
  refine ⟨List.replicate n [byte ' '], fun m hm => ?_, by simp⟩
  rw [List.eq_of_mem_replicate hm]
  decide

theorem trim_append_of_isBlank {x : Text} (hx : x.IsBlank) (t : Text) : (t ++ x).trim = t.trim := by
  rw [isBlank_iff] at hx
  obtain ⟨l, hl, rfl⟩ := hx
  induction l generalizing t with
  | nil => rw [List.flatten_nil, List.append_nil]
  | cons m l ih =>
    obtain ⟨hm, hl⟩ := List.forall_mem_cons.1 hl
    rw [List.flatten_cons, ← List.append_assoc, ih _ hl, trim_append_blank hm]

theorem trim_of_isBlank_append {x : Text} (hx : x.IsBlank) (t : Text) : (x ++ t).trim = t.trim := by
  have hdrop := dropMarks_append_of_nil distinct_blanks (trimLeft_of_isBlank hx) t
  rw [trim, trimLeft, hdrop, trim, trimLeft]

end Preassembler.Text
