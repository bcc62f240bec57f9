import Preassembler.Proofs.Expansion.Calls
import Preassembler.Proofs.Expansion.Returns

/-! What nesting depth means.

The scan measures depth with a stack of regions that it shifts, closes and opens as it edits the
text. Here every byte carries its own nesting level instead: a byte of the input has level zero, and
the bytes put in for an invocation have one more than the lowest level among the bytes they replace.
A `Draft` is a text of such bytes, and its steps use levels only.

`Shades`: the level of a byte ahead of the scan is the number of open regions it lies in. Steps keep
this (`Shades.matches_step`), so both fail and finish alike. -/
namespace Preassembler.Macro

/-! ### Bytes with levels -/

/-- A byte and its nesting level. -/
structure Leveled where
  byte : UInt8
  level : Nat
  deriving DecidableEq, Repr

namespace Leveled

def bytes (l : List Leveled) : Text := l.map byte

/-- A text whose bytes all have one level. -/
def flat (level : Nat) (t : Text) : List Leveled := t.map fun b => ⟨b, level⟩

/-- The lowest level among some bytes. -/
def lowest (l : List Leveled) : Nat := (l.map level).min?.getD 0

@[simp]
theorem bytes_append (a b : List Leveled) : bytes (a ++ b) = bytes a ++ bytes b := List.map_append

@[simp]
theorem bytes_reverse (l : List Leveled) : bytes l.reverse = (bytes l).reverse := List.map_reverse

theorem bytes_takeWhile (p : UInt8 → Bool) (l : List Leveled) :
    bytes (l.takeWhile fun b => p b.byte) = (bytes l).takeWhile p := List.takeWhile_map.symm

theorem isEmpty_bytes (l : List Leveled) : (bytes l).isEmpty = l.isEmpty := List.isEmpty_map

theorem lowest_eq {l : List Leveled} {k : Nat} (hmem : ∃ b ∈ l, b.level = k)
    (hle : ∀ b ∈ l, k ≤ b.level) : lowest l = k := by
  have hmin : (l.map level).min? = some k := by
    rw [List.min?_eq_some_iff]
    refine ⟨List.mem_map.2 hmem, fun n hn => ?_⟩
    obtain ⟨b, hb, rfl⟩ := List.mem_map.1 hn
    exact hle b hb
  rw [lowest, hmin]
  rfl

end Leveled

open Leveled (bytes flat lowest)

@[simp]
theorem bytes_flat (level : Nat) (t : Text) : bytes (flat level t) = t := by
  rw [bytes, flat, List.map_map]
  exact List.map_id t

theorem bytes_dropWhile (p : UInt8 → Bool) (l : List Leveled) :
    bytes (l.dropWhile fun b => p b.byte) = (bytes l).dropWhile p := List.dropWhile_map.symm

theorem lowest_flat (level : Nat) {t : Text} (h : t ≠ []) : lowest (flat level t) = level := by
  refine Leveled.lowest_eq ?_ fun b hb => ?_
  · obtain ⟨b, t, rfl⟩ := List.exists_cons_of_ne_nil h
    exact ⟨_, List.mem_cons_self, rfl⟩
  · obtain ⟨c, -, rfl⟩ := List.mem_map.1 hb
    exact Nat.le_refl level

theorem byte_of_mem_flat {level : Nat} {n : Text} (hn : isName n = true) {b : Leveled}
    (hb : b ∈ flat level n) : isNameByte b.byte = true := by
  obtain ⟨c, hc, rfl⟩ := List.mem_map.1 hb
  exact byte_of_isName hn hc

theorem Apart.head_level {l : List Leveled} (h : Apart (bytes l)) :
    ∀ b ∈ l.head?, isNameByte b.byte = false := by
  intro b hb
  apply h b.byte
  rw [bytes, List.head?_map, hb]
  rfl

/-- A position in a text of leveled bytes. -/
structure Draft where
  /-- The bytes before the position, last one first. -/
  passed : List Leveled
  /-- The bytes from the position on. -/
  rest : List Leveled
  deriving DecidableEq, Repr

namespace Draft

/-- The start of a text, all of whose bytes have level zero. -/
def start (t : Text) : Draft := ⟨[], flat 0 t⟩

def gap (d : Draft) : List Leveled := d.rest.takeWhile fun b => !isNameByte b.byte

def fromName (d : Draft) : List Leveled := d.rest.dropWhile fun b => !isNameByte b.byte

/-- The next name; empty when there is none. -/
def name (d : Draft) : List Leveled := d.fromName.takeWhile fun b => isNameByte b.byte

/-- What follows the next name. -/
def tail (d : Draft) : List Leveled := d.fromName.dropWhile fun b => isNameByte b.byte

/-- The level of what is put in for an invocation of the next name and `size` more bytes. -/
def levelAbove (d : Draft) (size : Nat) : Nat := lowest (d.name ++ d.tail.take size) + 1

/-- One step: to the end of the text, past the next name, or to the replacement for it. -/
def step (table : Table) (limit : Nat) (d : Draft) : Progress Draft :=
  if d.name.isEmpty then .finished (bytes (d.passed.reverse ++ d.rest))
  else match table.read (bytes d.name) (bytes d.tail) with
    | .plain => .next ⟨d.name.reverse ++ (d.gap.reverse ++ d.passed), d.tail⟩
    | .mismatch expected given => .failed (.arity (bytes d.name) expected given)
    | .invocation size text _ =>
      if limit < d.levelAbove size then .failed (.tooDeep (bytes d.name) limit)
      else .next ⟨d.gap.reverse ++ d.passed, flat (d.levelAbove size) text ++ d.tail.drop size⟩

theorem rest_eq (d : Draft) : d.gap ++ (d.name ++ d.tail) = d.rest := by
  rw [name, tail, List.takeWhile_append_dropWhile]
  exact List.takeWhile_append_dropWhile

theorem not_name_of_mem_gap {d : Draft} {b : Leveled} (h : b ∈ d.gap) :
    isNameByte b.byte = false := by
  simpa using List.all_eq_true.1 List.all_takeWhile b h

theorem apart_tail (d : Draft) : Apart (bytes d.tail) := by
  rw [tail, bytes_dropWhile]
  exact apart_dropWhile _

/-- A draft is cut at the first name ahead, and there only. -/
theorem cut_eq {d : Draft} {gap name tail : List Leveled} (hrest : d.rest = gap ++ (name ++ tail))
    (hgap : ∀ b ∈ gap, isNameByte b.byte = false) (hne : name ≠ [])
    (hname : ∀ b ∈ name, isNameByte b.byte = true) (htail : Apart (bytes tail)) :
    d.gap = gap ∧ d.name = name ∧ d.tail = tail := by
  have hskipped : ∀ b ∈ gap, (!isNameByte b.byte) = true := fun b hb => by simp [hgap b hb]
  have hstart : ∀ b ∈ (name ++ tail).head?, (!isNameByte b.byte) = false := by
    intro b hb
    obtain ⟨c, name, rfl⟩ := List.exists_cons_of_ne_nil hne
    obtain rfl : c = b := Option.some.inj hb
    simp [hname c List.mem_cons_self]
  have hfrom : d.fromName = name ++ tail := by
    rw [fromName, hrest, dropWhile_front hskipped hstart]
  refine ⟨?_, ?_, ?_⟩
  · rw [Draft.gap, hrest, takeWhile_front hskipped hstart]
  · rw [Draft.name, hfrom, takeWhile_front hname htail.head_level]
  · rw [Draft.tail, hfrom, dropWhile_front hname htail.head_level]

end Draft

/-! ### Levels from regions -/

/-- The number of regions around a byte that has `n` bytes behind it. -/
def levelIn (opened : List Region) (n : Nat) : Nat := opened.countP fun r => r.after ≤ n

theorem levelIn_mono (opened : List Region) {n m : Nat} (h : n ≤ m) :
    levelIn opened n ≤ levelIn opened m := by
  refine List.countP_mono_left fun r _ hr => ?_
  simp only [decide_eq_true_eq] at hr ⊢
  omega

/-- Closing regions that end before a byte does not change its level. -/
theorem levelIn_dropWhile {p : Region → Bool} {n : Nat} (h : ∀ r, p r = true → n < r.after)
    (opened : List Region) : levelIn (opened.dropWhile p) n = levelIn opened n := by
  induction opened with
  | nil => rfl
  | cons r outer ih =>
    rw [List.dropWhile_cons]
    split
    · rename_i hp
      have hn : ¬ r.after ≤ n := Nat.not_le.2 (h r hp)
      rw [ih, levelIn, levelIn, List.countP_cons_of_neg (by simpa using hn)]
    · rfl

/-- A byte that lies in all regions has their number as its level. -/
theorem levelIn_eq_length {opened : List Region} {n : Nat} (h : ∀ r ∈ opened, r.after ≤ n) :
    levelIn opened n = opened.length :=
  List.countP_eq_length.2 fun r hr => by simpa using h r hr

/-- The bytes of a text with the levels that regions give them. -/
def shade (opened : List Region) : Text → List Leveled
  | [] => []
  | b :: r => ⟨b, levelIn opened r.length⟩ :: shade opened r

@[simp]
theorem bytes_shade (opened : List Region) (t : Text) : bytes (shade opened t) = t := by
  induction t with
  | nil => rfl
  | cons b r ih => exact congrArg (b :: ·) ih

theorem shade_nil (t : Text) : shade [] t = flat 0 t := by
  induction t with
  | nil => rfl
  | cons b r ih => exact congrArg (_ :: ·) ih

theorem shade_congr {opened opened' : List Region} {t : Text}
    (h : ∀ n, n < t.length → levelIn opened n = levelIn opened' n) :
    shade opened t = shade opened' t := by
  induction t with
  | nil => rfl
  | cons b r ih =>
    rw [shade, shade, h r.length (Nat.lt_succ_self _), ih fun n hn => h n (Nat.lt_succ_of_lt hn)]

theorem dropWhile_shade (opened : List Region) (p : UInt8 → Bool) (t : Text) :
    (shade opened t).dropWhile (fun b => p b.byte) = shade opened (t.dropWhile p) := by
  induction t with
  | nil => rfl
  | cons b r ih =>
    rw [shade, List.dropWhile_cons, List.dropWhile_cons]
    split
    · exact ih
    · rfl

theorem drop_shade (opened : List Region) (n : Nat) (t : Text) :
    (shade opened t).drop n = shade opened (t.drop n) := by
  induction t generalizing n with
  | nil => simp [shade]
  | cons b r ih =>
    cases n with
    | zero => rfl
    | succ n => exact ih n

/-- Text on which all levels agree, in front of shaded text. -/
theorem shade_append {opened : List Region} {level : Nat} {x y : Text}
    (h : ∀ n, y.length ≤ n → levelIn opened n = level) :
    shade opened (x ++ y) = flat level x ++ shade opened y := by
  induction x with
  | nil => rfl
  | cons b x ih =>
    rw [List.cons_append, shade, ih, h _ (by simp)]
    rfl

theorem level_of_mem_take_shade {opened : List Region} {t : Text} {m : Nat} {b : Leveled}
    (hb : b ∈ (shade opened t).take m) : levelIn opened (t.length - m) ≤ b.level := by
  induction t generalizing m with
  | nil => simp [shade] at hb
  | cons c r ih =>
    cases m with
    | zero => simp at hb
    | succ m =>
      rw [List.length_cons, Nat.add_sub_add_right]
      rcases List.mem_cons.1 hb with rfl | hb
      · exact levelIn_mono opened (Nat.sub_le _ _)
      · exact ih hb

theorem exists_mem_take_shade (opened : List Region) {t : Text} {m : Nat} (hm : 0 < m)
    (hle : m ≤ t.length) :
    ∃ b ∈ (shade opened t).take m, b.level = levelIn opened (t.length - m) := by
  induction t generalizing m with
  | nil => exact absurd hle (by simp; omega)
  | cons c r ih =>
    obtain ⟨m, rfl⟩ : ∃ k, m = k + 1 := ⟨m - 1, by omega⟩
    rw [shade, List.take_succ_cons, List.length_cons, Nat.add_sub_add_right]
    by_cases h : m = 0
    · subst h
      exact ⟨_, List.mem_cons_self, rfl⟩
    · obtain ⟨b, hb, hlevel⟩ := ih (by omega) (Nat.le_of_succ_le_succ hle)
      exact ⟨b, List.mem_cons_of_mem _ hb, hlevel⟩

/-- The lowest level at the front of a text is that of the front's last byte: a region that holds it
holds all of the front. -/
theorem lowest_take_shade (opened : List Region) {t : Text} {m : Nat} (hm : 0 < m)
    (hle : m ≤ t.length) :
    lowest ((shade opened t).take m) = levelIn opened (t.length - m) :=
  Leveled.lowest_eq (exists_mem_take_shade opened hm hle) fun _ hb => level_of_mem_take_shade hb

/-- Bytes behind an invocation lie in the same regions before and after the others are closed. -/
theorem Scan.levelIn_outer {s : Scan} {size n : Nat} (hn : n ≤ s.ahead - s.name.length - size)
    (hlt : s.ahead - s.name.length - size < s.ahead) :
    levelIn (s.outer size) n = levelIn s.opened n := by
  rw [outer, outer_eq hlt]
  refine levelIn_dropWhile (fun r hr => ?_) s.opened
  simp only [decide_eq_true_eq] at hr
  omega

/-! ### What follows an invocation -/

theorem rest_suffix_of_callAt? {t : Text} {c : Call} (h : callAt? t = some c) : c.rest <:+ t := by
  obtain ⟨gap, inner, hlist, -⟩ := encloses_of_callAt? h
  exact ⟨callList gap inner, hlist.eq_callList.symm⟩

/-- What follows an invocation is the text without the bytes it takes. -/
theorem Table.eq_drop_of_read {table : Table} {name tail text rest : Text} {size : Nat}
    (h : table.read name tail = .invocation size text rest) : rest = tail.drop size := by
  have hsuffix : rest <:+ tail := by
    unfold Table.read at h
    split at h
    · cases h
    · cases h
      exact List.suffix_rfl
    · split at h
      · cases h
      · rename_i hc
        split at h
        · cases h
          exact rest_suffix_of_callAt? hc
        · cases h
  rw [List.suffix_iff_eq_drop.1 hsuffix]
  congr 1
  have := Table.size_add_length_of_read h
  omega

/-! ### The draft a scan stands for -/

/-- A draft with the bytes of a scan and, ahead of it, the levels of its open regions. -/
structure Shades (limit : Nat) (s : Scan) (d : Draft) : Prop where
  valid : s.Valid limit
  passed : bytes d.passed = s.passed
  rest : d.rest = shade s.opened s.rest

namespace Shades
variable {table : Table} {limit : Nat} {s : Scan} {d : Draft}

theorem start (limit : Nat) (t : Text) : Shades limit (.start t) (.start t) :=
  ⟨Scan.valid_start limit t, rfl, (shade_nil t).symm⟩

theorem gap (h : Shades limit s d) : bytes d.gap = s.gap := by
  rw [Draft.gap, Leveled.bytes_takeWhile (fun b => !isNameByte b), h.rest, bytes_shade]
  rfl

theorem fromName (h : Shades limit s d) : d.fromName = shade s.opened s.fromName := by
  rw [Draft.fromName, h.rest, dropWhile_shade s.opened (fun b => !isNameByte b)]
  rfl

theorem name (h : Shades limit s d) : bytes d.name = s.name := by
  rw [Draft.name, Leveled.bytes_takeWhile, h.fromName, bytes_shade]
  rfl

theorem tail (h : Shades limit s d) : d.tail = shade s.opened s.tail := by
  rw [Draft.tail, h.fromName, dropWhile_shade]
  rfl

theorem bytes_tail (h : Shades limit s d) : bytes d.tail = s.tail := by
  rw [h.tail, bytes_shade]

theorem text (h : Shades limit s d) : bytes (d.passed.reverse ++ d.rest) = s.text := by
  rw [Leveled.bytes_append, Leveled.bytes_reverse, h.passed, h.rest, bytes_shade]
  rfl

/-- The level above the bytes of an invocation is the depth the regions around it give. -/
theorem levelAbove (h : Shades limit s d) (hn : s.name.isEmpty = false) {size : Nat} {rest : Text}
    (hsize : size + rest.length = s.tail.length) :
    d.levelAbove size = depthIn (s.outer size) := by
  have hahead := h.valid.ahead_eq
  have hsplit := s.name_add_tail
  have hpos := Scan.name_pos hn
  have hlength : d.name.length = s.name.length := by
    rw [← h.name]
    exact (List.length_map _).symm
  have htake : d.name ++ d.tail.take size = d.fromName.take (s.name.length + size) := by
    rw [← hlength, ← List.take_length_add_append]
    exact congrArg _ List.takeWhile_append_dropWhile
  have hafter : s.fromName.length - (s.name.length + size) = s.ahead - s.name.length - size := by
    omega
  rw [Draft.levelAbove, htake, h.fromName,
    lowest_take_shade s.opened (by omega) (by omega), hafter,
    ← Scan.levelIn_outer (Nat.le_refl _) (by omega),
    levelIn_eq_length h.valid.after_le_of_mem_outer, h.valid.depthIn_outer]

/-- Behind a passed name no level changes: the regions that are closed end before it. -/
theorem pass (h : Shades limit s d) :
    Shades limit s.pass ⟨d.name.reverse ++ (d.gap.reverse ++ d.passed), d.tail⟩ where
  valid := h.valid.pass
  passed := by simp [h.name, h.gap, h.passed, Scan.pass]
  rest := by
    have hahead := h.valid.ahead_eq
    have hsplit := s.name_add_tail
    rw [h.tail]
    refine shade_congr fun n hn => (levelIn_dropWhile (fun r hr => ?_) s.opened).symm
    simp only [decide_eq_true_eq] at hr
    omega

/-- The bytes put in lie in the new region and all around it, and behind them no level changes. -/
theorem put (h : Shades limit s d) (hn : s.name.isEmpty = false) {size : Nat} {text rest : Text}
    (hread : table.read s.name s.tail = .invocation size text rest)
    (hvalid : (s.put size text rest).Valid limit) :
    Shades limit (s.put size text rest)
      ⟨d.gap.reverse ++ d.passed, flat (d.levelAbove size) text ++ d.tail.drop size⟩ where
  valid := hvalid
  passed := by simp [h.gap, h.passed, Scan.put]
  rest := by
    have hsize := Table.size_add_length_of_read hread
    have hahead := h.valid.ahead_eq
    have hsplit := s.name_add_tail
    have hpos := Scan.name_pos hn
    have hafter : s.ahead - s.name.length - size = rest.length := by omega
    have hinside : ∀ n, rest.length ≤ n →
        levelIn (s.put size text rest).opened n = depthIn (s.outer size) := by
      intro n hle
      have hall : ∀ r ∈ (s.put size text rest).opened, r.after ≤ n := by
        intro r hr
        rcases List.mem_cons.1 hr with rfl | hr
        · simp only [hafter, hle]
        · have := h.valid.after_le_of_mem_outer r hr
          omega
      rw [levelIn_eq_length hall, h.valid.depthIn_outer]
      rfl
    have hbehind : ∀ n, n < rest.length →
        levelIn s.opened n = levelIn (s.put size text rest).opened n := by
      intro n hlt
      have houter : levelIn (s.put size text rest).opened n = levelIn (s.outer size) n :=
        List.countP_cons_of_neg (by simp only [decide_eq_true_eq]; omega)
      rw [houter, Scan.levelIn_outer (by omega) (by omega)]
    show _ = shade (s.put size text rest).opened (text ++ rest)
    rw [shade_append hinside, h.levelAbove hn hsize, h.tail, drop_shade,
      ← Table.eq_drop_of_read hread, shade_congr hbehind]

/-- A scan and its draft take matching steps. -/
theorem matches_step (h : Shades limit s d) :
    Matches (Shades limit) (s.step table limit) (d.step table limit) := by
  have hname : d.name.isEmpty = s.name.isEmpty := by rw [← Leveled.isEmpty_bytes, h.name]
  unfold Draft.step
  rw [hname, h.name, h.bytes_tail, h.text]
  generalize hp : s.step table limit = p
  cases Scan.step_of_eq hp with
  | finish hn =>
    rw [if_pos hn]
    exact .finished
  | pass hn hr =>
    rw [hn, hr]
    exact .next h.pass
  | mismatch hn hr =>
    rw [hn, hr]
    exact .failed
  | tooDeep hn hr hd =>
    have hlevel := h.levelAbove hn (Table.size_add_length_of_read hr)
    simp only [hn, hr, Bool.false_eq_true, if_false]
    rw [if_pos (by omega)]
    exact .failed
  | put hn hr hd =>
    have hlevel := h.levelAbove hn (Table.size_add_length_of_read hr)
    simp only [hn, hr, Bool.false_eq_true, if_false]
    rw [if_neg (by omega)]
    exact .next (h.put hn hr (Scan.valid_step h.valid hp))

end Shades

/-- The draft of a text returns what `expand` answers. -/
theorem Table.exists_draft_returns (table : Table) (limit : Nat) (t : Text) :
    ∃ n, Returns (Draft.step table limit) n (.start t) (table.expand limit t) := by
  obtain ⟨n, hn⟩ := table.exists_returns_expand limit t
  exact ⟨n, hn.transfer (R := fun _ => Shades limit) (fun h _ => h.matches_step)
    (Shades.start limit t)⟩

/-- **The region stack computes true nesting depth.** Expansion answers exactly what the draft of
the text returns: the same text, or the same error about the same macro. -/
theorem Table.expand_eq_iff_draft_returns (table : Table) (limit : Nat) (t : Text)
    (o : Except Error Text) :
    table.expand limit t = o ↔ ∃ n, Returns (Draft.step table limit) n (.start t) o := by
  obtain ⟨n, hn⟩ := table.exists_returns_expand limit t
  have hdraft := hn.transfer (R := fun _ => Shades limit) (fun h _ => h.matches_step)
    (Shades.start limit t)
  constructor
  · rintro rfl
    exact ⟨n, hdraft⟩
  · rintro ⟨m, hm⟩
    exact (hdraft.unique hm).2

end Preassembler.Macro
