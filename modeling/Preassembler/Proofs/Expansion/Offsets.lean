import Mathlib
import Preassembler.Proofs.Expansion.Calls

/-! Names and argument lists by offsets.

A text can be cut at offsets that it does not have. Here names, words and argument lists are found
by counting through a text, with a check of every cut: what fails a check has no answer (`slice?`).

Main statements: no check fails, and what is found is what the text from the offset on begins with
(`nameFrom?_eq_some`, `wordsFrom?_eq`, `callFrom?_eq`). -/
namespace Preassembler

/-! ### Slices -/

/-- The bytes of a text from one offset up to another; there are none unless the offsets are in
order and within the text. -/
def Text.slice? (t : Text) (start stop : Nat) : Option Text :=
  if start ≤ stop ∧ stop ≤ t.length then some ((t.take stop).drop start) else none

theorem Text.slice?_eq {t x y z : Text} {start stop : Nat} (ht : t = x ++ (y ++ z))
    (hstart : start = x.length) (hstop : stop = x.length + y.length) :
    t.slice? start stop = some y := by
  subst ht hstart hstop
  have hbounds : x.length ≤ x.length + y.length ∧
      x.length + y.length ≤ (x ++ (y ++ z)).length := by
    simp only [List.length_append]
    omega
  have htake : (x ++ (y ++ z)).take (x.length + y.length) = x ++ y := by
    rw [← List.append_assoc]
    exact List.take_left' List.length_append
  rw [slice?, if_pos hbounds, htake, List.drop_left]

theorem Text.getElem?_eq_head? {t x y : Text} {i : Nat} (ht : t = x ++ y) (hi : i = x.length) :
    t[i]? = y.head? := by
  rw [ht, hi, List.getElem?_append_right (Nat.le_refl _), Nat.sub_self, List.head?_eq_getElem?]

/-- The rest of a text from an offset on. -/
theorem Text.slice?_rest {t x y : Text} {start : Nat} (ht : t = x ++ y)
    (hstart : start = x.length) : t.slice? start t.length = some y := by
  refine slice?_eq (x := x) (z := []) (by rw [ht, List.append_nil]) hstart ?_
  rw [ht, List.length_append]

namespace Macro
open Text (byte)

/-! ### Runs of bytes -/

section Runs
variable {p : UInt8 → Bool}

/-- A text begins with a run of bytes that satisfy `p`, which goes as far as possible. -/
theorem exists_run (p : UInt8 → Bool) (r : Text) : ∃ run rest, r = run ++ rest ∧
    (∀ b ∈ run, p b = true) ∧ ∀ b ∈ rest.head?, p b = false := by
  refine ⟨r.takeWhile p, r.dropWhile p, List.takeWhile_append_dropWhile.symm,
    fun b hb => List.mem_takeWhile_imp hb, fun b hb => ?_⟩
  have hhead := List.head?_dropWhile_not p r
  rw [hb] at hhead
  simpa using hhead

/-- The first offset, from `i` on, of a byte that does not satisfy `p`, or the end of the text. -/
def skip (p : UInt8 → Bool) (t : Text) (i : Nat) : Nat :=
  if h : i < t.length then if p (t.get ⟨i, h⟩) then skip p t (i + 1) else i else i
termination_by t.length - i

theorem skip_run {t x run rest : Text} {i : Nat} (ht : t = x ++ (run ++ rest))
    (hi : i = x.length) (hrun : ∀ b ∈ run, p b = true) (hrest : ∀ b ∈ rest.head?, p b = false) :
    skip p t i = i + run.length := by
  subst ht hi
  induction run generalizing x with
  | nil =>
    rw [List.nil_append, List.length_nil, Nat.add_zero, skip]
    split
    · rename_i hlt
      cases rest with
      | nil => simp at hlt
      | cons b rest =>
        have hget : (x ++ b :: rest).get ⟨x.length, hlt⟩ = b := by simp
        rw [hget, hrest b rfl, if_neg nofun]
    · rfl
  | cons b run ih =>
    have hlt : x.length < (x ++ (b :: run ++ rest)).length := by
      rw [List.length_append, List.cons_append, List.length_cons]
      omega
    have hget : (x ++ (b :: run ++ rest)).get ⟨x.length, hlt⟩ = b := by simp
    have hmore : skip p (x ++ (b :: run ++ rest)) (x.length + 1) = x.length + 1 + run.length := by
      have hskip := ih (x := x ++ [b]) fun c hc => hrun c (List.mem_cons_of_mem b hc)
      rwa [List.append_assoc, List.singleton_append, List.length_append, List.length_singleton]
        at hskip
    rw [skip, dif_pos hlt, hget, hrun b List.mem_cons_self, if_pos rfl, hmore, List.length_cons]
    omega

theorem skip_front {run rest : Text} (hrun : ∀ b ∈ run, p b = true)
    (hrest : ∀ b ∈ rest.head?, p b = false) : skip p (run ++ rest) 0 = run.length := by
  have hskip : skip p ([] ++ (run ++ rest)) 0 = 0 + run.length := skip_run rfl rfl hrun hrest
  rwa [List.nil_append, Nat.zero_add] at hskip

/-- The rest of a text behind a run that is skipped. -/
theorem slice?_skip {t x r : Text} {i : Nat} (ht : t = x ++ r) (hi : i = x.length) :
    t.slice? (skip p t i) t.length = some (r.dropWhile p) := by
  obtain ⟨run, rest, rfl, hrun, hrest⟩ := exists_run p r
  rw [skip_run ht hi hrun hrest, dropWhile_front hrun hrest]
  refine Text.slice?_rest (x := x ++ run) ?_ ?_
  · rw [ht, List.append_assoc]
  · rw [hi, List.length_append]

theorem le_skip (p : UInt8 → Bool) (t : Text) (i : Nat) : i ≤ skip p t i := by
  fun_induction skip p t i with
  | case1 i h hp ih => omega
  | case2 i h hp => exact Nat.le_refl i
  | case3 i h => exact Nat.le_refl i

theorem lt_skip {t : Text} {i : Nat} (h : i < t.length) (hp : p (t.get ⟨i, h⟩) = true) :
    i < skip p t i := by
  rw [skip, dif_pos h, if_pos hp]
  exact le_skip p t (i + 1)

/-- Where a run ends within the text, it ends in front of a byte of another kind. -/
theorem not_of_skip {t : Text} {i : Nat} (h : skip p t i < t.length) :
    p (t.get ⟨skip p t i, h⟩) = false := by
  fun_induction skip p t i with
  | case1 i hi hp ih => exact ih h
  | case2 i hi hp => simpa using hp
  | case3 i hi => exact absurd h hi

end Runs

/-- A text is a run of bytes that satisfy `p`, or behind such a run stands a word of other bytes,
with a run or nothing behind it. -/
@[elab_as_elim]
theorem words_induction (p : UInt8 → Bool) {motive : Text → Prop}
    (gap : ∀ gap, (∀ b ∈ gap, p b = true) → motive gap)
    (word : ∀ gap word behind, (∀ b ∈ gap, p b = true) → word ≠ [] → (∀ b ∈ word, p b = false) →
      (∀ b ∈ behind.head?, p b = true) → motive behind → motive (gap ++ (word ++ behind)))
    (t : Text) : motive t := by
  induction hlength : t.length using Nat.strongRecOn generalizing t with
  | _ k ih =>
    obtain ⟨front, rest, rfl, hfront, hrest⟩ := exists_run p t
    cases rest with
    | nil => simpa using gap front hfront
    | cons b tail =>
      obtain ⟨run, behind, rfl, hrun, hbehind⟩ := exists_run (!p ·) tail
      rw [← List.cons_append]
      refine word front (b :: run) behind hfront nofun ?_ (by simpa using hbehind) ?_
      · intro c hc
        rcases List.mem_cons.1 hc with rfl | hc
        · exact hrest c rfl
        · simpa using hrun c hc
      · refine ih behind.length ?_ behind rfl
        simp only [← hlength, List.length_append, List.length_cons]
        omega

/-! ### Words -/

theorem arguments_blanks {gap : Text} (h : Blanks gap) : arguments gap = [] := by
  have hwords := wordsBy_append_of_sep h []
  rwa [List.append_nil, wordsBy_nil] at hwords

theorem arguments_word {gap word behind : Text} (hgap : Blanks gap) (hne : word ≠ [])
    (hword : ∀ b ∈ word, isGapByte b = false) (hbehind : ∀ b ∈ behind.head?, isGapByte b = true) :
    arguments (gap ++ (word ++ behind)) = word :: arguments behind := by
  rw [arguments, wordsBy_append_of_sep hgap]
  cases behind with
  | nil => rw [List.append_nil, wordsBy_last hne hword, arguments, wordsBy_nil]
  | cons b behind =>
    have hb : isGapByte b = true := hbehind b rfl
    rw [wordsBy_word hne hword hb, arguments, wordsBy_cons_of_sep hb]

/-- What is read between parentheses can be written there. -/
theorem isArgument_of_mem {inner a : Text} (hclose : byte ')' ∉ inner) (ha : a ∈ arguments inner) :
    IsArgument a := by
  induction inner using words_induction isGapByte with
  | gap gap hgap =>
    rw [arguments_blanks hgap] at ha
    cases ha
  | word gap word behind hgap hne hword hbehind ih =>
    simp only [List.mem_append, not_or] at hclose
    rw [arguments_word hgap hne hword hbehind] at ha
    rcases List.mem_cons.1 ha with rfl | ha
    · exact ⟨hne, hword, hclose.2.1⟩
    · exact ih hclose.2.2 ha

/-! ### Names and argument lists -/

/-- The offsets of the first name from an offset on: its start and its end. -/
def nameFrom? (t : Text) (pos : Nat) : Option (Nat × Nat) :=
  let start := skip (!isNameByte ·) t pos
  if t.length ≤ start then none else some (start, skip isNameByte t start)

theorem nameFrom?_bounds {t : Text} {pos start stop : Nat}
    (h : nameFrom? t pos = some (start, stop)) : pos ≤ start ∧ start < stop ∧ start < t.length := by
  unfold nameFrom? at h
  dsimp only at h
  split at h
  · cases h
  · rename_i hlt
    cases h
    have hname := not_of_skip (p := (!isNameByte ·)) (i := pos) (Nat.lt_of_not_le hlt)
    exact ⟨le_skip _ t pos, lt_skip (Nat.lt_of_not_le hlt) (by simpa using hname),
      Nat.lt_of_not_le hlt⟩

/-- The words of a text from an offset on. -/
def wordsFrom? (t : Text) (pos : Nat) : Option (List Text) :=
  let start := skip isGapByte t pos
  if _h : t.length ≤ start then some []
  else
    let stop := skip (!isGapByte ·) t start
    match t.slice? start stop with
    | none => none
    | some w => (wordsFrom? t stop).map (w :: ·)
termination_by t.length - pos
decreasing_by
  have hle := le_skip isGapByte t pos
  have hword := not_of_skip (p := isGapByte) (t := t) (i := pos) (by omega)
  have hlt := lt_skip (p := (!isGapByte ·)) (t := t) (i := skip isGapByte t pos) (by omega)
    (by simpa using hword)
  omega

/-- The argument list behind blanks from an offset on, if there is one. -/
def callFrom? (t : Text) (pos : Nat) : Option (Option Call) :=
  let i := skip isGapByte t pos
  if t[i]? = some (byte '(') then
    let j := skip (· != byte ')') t (i + 1)
    if t.length ≤ j ∨ j = i + 1 then some none
    else do
      let inner ← t.slice? (i + 1) j
      let args ← wordsFrom? inner 0
      let rest ← t.slice? (j + 1) t.length
      some (some ⟨args, j + 1 - pos, rest⟩)
  else some none

theorem nameFrom?_eq_some {t x gap name tail : Text} {pos : Nat}
    (ht : t = x ++ (gap ++ (name ++ tail))) (hpos : pos = x.length)
    (hgap : ∀ b ∈ gap, isNameByte b = false) (hname : isName name = true) (htail : Apart tail) :
    nameFrom? t pos = some (pos + gap.length, pos + gap.length + name.length) := by
  have hbytes : ∀ b ∈ name, isNameByte b = true := fun b hb => byte_of_isName hname hb
  obtain ⟨b, name, rfl⟩ := List.exists_cons_of_ne_nil (ne_nil_of_isName hname)
  have hstart : skip (!isNameByte ·) t pos = pos + gap.length := by
    refine skip_run ht hpos (fun c hc => by simp [hgap c hc]) fun c hc => ?_
    obtain rfl := Option.some.inj hc
    simp [hbytes b List.mem_cons_self]
  have hstop : skip isNameByte t (pos + gap.length) = pos + gap.length + (b :: name).length := by
    refine skip_run (x := x ++ gap) (by rw [ht, List.append_assoc]) ?_ hbytes htail
    rw [List.length_append, hpos]
  have hmore : ¬ t.length ≤ pos + gap.length := by
    rw [ht, hpos]
    simp only [List.length_append, List.length_cons]
    omega
  rw [nameFrom?, hstart, if_neg hmore, hstop]

theorem nameFrom?_eq_none {t x gap : Text} {pos : Nat} (ht : t = x ++ gap)
    (hpos : pos = x.length) (hgap : ∀ b ∈ gap, isNameByte b = false) :
    nameFrom? t pos = none := by
  have ht' : t = x ++ (gap ++ []) := by rw [ht, List.append_nil]
  have hstart : skip (!isNameByte ·) t pos = pos + gap.length :=
    skip_run ht' hpos (fun c hc => by simp [hgap c hc]) nofun
  have hend : t.length ≤ pos + gap.length := by rw [ht, hpos, List.length_append]
  rw [nameFrom?, hstart, if_pos hend]

/-- A text that does not begin with a name has none at its front. -/
theorem nameFrom?_ne_of_apart {t : Text} (h : Apart t) (stop : Nat) :
    nameFrom? t 0 ≠ some (0, stop) := by
  intro hname
  have hlt : 0 < t.length := (nameFrom?_bounds hname).2.2
  obtain ⟨b, r, rfl⟩ := List.exists_cons_of_length_pos hlt
  have hb : isNameByte b = false := h b rfl
  have hskip := lt_skip (p := (!isNameByte ·)) hlt (by simp [hb])
  unfold nameFrom? at hname
  dsimp only at hname
  split at hname
  · cases hname
  · simp only [Option.some.injEq, Prod.mk.injEq] at hname
    omega

/-- Words are found by offsets as they are found by splitting. -/
theorem wordsFrom?_eq {t x r : Text} {pos : Nat} (ht : t = x ++ r) (hpos : pos = x.length) :
    wordsFrom? t pos = some (arguments r) := by
  induction r using words_induction isGapByte generalizing x pos with
  | gap gap hgap =>
    have ht' : t = x ++ (gap ++ []) := by rw [ht, List.append_nil]
    have hstart : skip isGapByte t pos = pos + gap.length := skip_run ht' hpos hgap nofun
    have hend : t.length ≤ pos + gap.length := by rw [ht, hpos, List.length_append]
    rw [wordsFrom?, hstart, dif_pos hend, arguments_blanks hgap]
  | word gap word behind hgap hne hword hbehind ih =>
    obtain ⟨b, word, rfl⟩ := List.exists_cons_of_ne_nil hne
    have ht' : t = (x ++ gap) ++ ((b :: word) ++ behind) := by rw [ht, List.append_assoc]
    have hpos' : pos + gap.length = (x ++ gap).length := by rw [List.length_append, hpos]
    have hstart : skip isGapByte t pos = pos + gap.length := by
      refine skip_run ht hpos hgap fun c hc => ?_
      obtain rfl := Option.some.inj hc
      exact hword b List.mem_cons_self
    have hstop : skip (!isGapByte ·) t (pos + gap.length) =
        pos + gap.length + (b :: word).length :=
      skip_run ht' hpos' (fun c hc => by simp [hword c hc]) fun c hc => by simp [hbehind c hc]
    have hmore : ¬ t.length ≤ pos + gap.length := by
      rw [hpos', ht']
      simp only [List.length_append, List.length_cons]
      omega
    have hslice : t.slice? (pos + gap.length) (pos + gap.length + (b :: word).length) =
        some (b :: word) := Text.slice?_eq ht' hpos' (by rw [hpos'])
    have hlater : wordsFrom? t (pos + gap.length + (b :: word).length) =
        some (arguments behind) := by
      refine ih (x := x ++ gap ++ (b :: word)) ?_ ?_
      · rw [ht', List.append_assoc _ (b :: word)]
      · rw [hpos']
        simp only [List.length_append]
    rw [wordsFrom?, hstart, dif_neg hmore, hstop]
    dsimp only
    rw [hslice, hlater, arguments_word hgap hne hword hbehind]
    rfl

theorem wordsFrom?_zero (t : Text) : wordsFrom? t 0 = some (arguments t) :=
  wordsFrom?_eq (List.nil_append t).symm rfl

/-- An argument list is found by offsets where it is found in the text from there on. -/
theorem callFrom?_eq {t x r : Text} {pos : Nat} (ht : t = x ++ r) (hpos : pos = x.length) :
    callFrom? t pos = some (callAt? r) := by
  obtain ⟨gap, rest, rfl, hgap, hrest⟩ := exists_run isGapByte r
  have hi : skip isGapByte t pos = pos + gap.length := skip_run ht hpos hgap hrest
  have hget : t[pos + gap.length]? = rest.head? := by
    refine Text.getElem?_eq_head? (x := x ++ gap) ?_ ?_
    · rw [ht, List.append_assoc]
    · rw [hpos, List.length_append]
  rw [callFrom?, callAt?, hi, dropWhile_front hgap hrest, takeWhile_front hgap hrest]
  dsimp only
  cases rest with
  | nil => rw [if_neg (by simp [hget])]
  | cons b rest =>
    rw [List.head?_cons] at hget
    dsimp only
    by_cases hb : b = byte '('
    · subst hb
      obtain ⟨inner, behind, rfl, hinner, hbehind⟩ := exists_run (· != byte ')') rest
      have ht' : t = (x ++ gap ++ [byte '(']) ++ (inner ++ behind) := by
        rw [ht, List.append_assoc _ [byte '('], List.singleton_append, List.append_assoc]
      have hpos' : pos + gap.length + 1 = (x ++ gap ++ [byte '(']).length := by
        rw [List.length_append, List.length_append, List.length_singleton, hpos]
      have hj : skip (· != byte ')') t (pos + gap.length + 1) =
          pos + gap.length + 1 + inner.length := skip_run ht' hpos' hinner hbehind
      have hlength : t.length = pos + gap.length + 1 + inner.length + behind.length := by
        rw [ht', List.length_append, ← hpos', List.length_append, Nat.add_assoc _ inner.length]
      rw [if_pos hget, if_pos (beq_self_eq_true _), takeWhile_front hinner hbehind,
        dropWhile_front hinner hbehind, hj]
      cases behind with
      | nil =>
        rw [if_pos (.inl hlength.le)]
      | cons c behind =>
        cases inner with
        | nil => simp
        | cons a inner =>
          have hmore : ¬(t.length ≤ pos + gap.length + 1 + (a :: inner).length ∨
              pos + gap.length + 1 + (a :: inner).length = pos + gap.length + 1) := by
            rw [hlength]
            simp only [List.length_cons]
            omega
          have hslice : t.slice? (pos + gap.length + 1)
              (pos + gap.length + 1 + (a :: inner).length) = some (a :: inner) :=
            Text.slice?_eq ht' hpos' (by rw [hpos'])
          have hbehind : t.slice? (pos + gap.length + 1 + (a :: inner).length + 1) t.length =
              some behind := by
            refine Text.slice?_rest (x := x ++ gap ++ [byte '('] ++ (a :: inner) ++ [c]) ?_ ?_
            · rw [ht']
              simp
            · rw [hpos']
              simp only [List.length_append, List.length_singleton]
          have hsize : pos + gap.length + 1 + (a :: inner).length + 1 - pos =
              gap.length + (a :: inner).length + 2 := by omega
          rw [if_neg hmore, hslice, Option.bind_eq_bind, Option.bind_some, wordsFrom?_zero,
            Option.bind_eq_bind, Option.bind_some, hbehind, hsize]
          rfl
    · have hother : ¬ t[pos + gap.length]? = some (byte '(') := fun h =>
        hb (Option.some.inj (hget.symm.trans h))
      rw [if_neg hother, if_neg (by simpa using hb)]

end Macro

end Preassembler
