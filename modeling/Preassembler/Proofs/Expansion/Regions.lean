import Preassembler.Proofs.Expansion.Nesting
import Preassembler.Proofs.Expansion.Sweep

/-! The regions of an expansion, by offsets.

Each replacement changes the length of the text, and with it the ends of all regions around it, also
to the left; and regions are closed in two places, by different comparisons. `Sweep.Sound` says what
is true whenever a step begins: the offset is in the text and inside no name, and the open regions
lie inside each other, counted from one, with their ends in the text. It is read off from the scan,
which counts the bytes that follow a region and has no ends to move.

Main statement: every sweep that steps by offsets come to is sound, and so is what they do there: an
invocation lies ahead in the text, and all ends that its replacement moves or makes are in the new
text and behind the replacement (`Sweep.sound_of_reached`). -/
namespace Preassembler.Macro
open Relation (ReflTransGen)

/-! ### Nested regions -/

section Nested
variable {regions : List Region}

theorem Nested.depths (h : Nested regions) :
    regions.reverse.map Region.depth = List.range' 1 regions.length := by
  induction regions with
  | nil => rfl
  | cons r outer ih =>
    rw [List.reverse_cons, List.map_append, ih h.2.2, List.length_cons, List.range'_1_concat,
      List.map_singleton, h.2.1, Nat.add_comm]

theorem Nested.pairwise (h : Nested regions) : regions.Pairwise fun r o => o.after ≤ r.after := by
  induction regions with
  | nil => exact .nil
  | cons r outer ih => exact .cons h.1 (ih h.2.2)

end Nested

/-! ### Scans on the way -/

namespace Scan
variable {table : Table} {limit : Nat} {t : Text} {s s' : Scan}

/-- The scans at which the steps of an expansion begin. -/
def Reached (table : Table) (limit : Nat) (t : Text) : Scan → Prop :=
  ReflTransGen (fun s s' => s.step table limit = .next s') (.start t)

theorem Reached.valid (h : Reached table limit t s) : s.Valid limit := by
  induction h with
  | refl => exact valid_start limit t
  | tail _ hs ih => exact valid_step ih hs

theorem Reached.clean (h : Reached table limit t s) : s.Clean table := by
  induction h with
  | refl => exact clean_start table t
  | tail _ hs ih => exact ih.step hs

/-- No region begins in front of the text. -/
def Inside (s : Scan) : Prop := ∀ r ∈ s.opened, r.after ≤ s.text.length

theorem Inside.pass (h : s.Inside) : s.pass.Inside := by
  intro r hr
  rw [text_pass]
  exact h r ((List.dropWhile_sublist _).subset hr)

theorem length_text_put (s : Scan) (size : Nat) (text rest : Text) :
    (s.put size text rest).text.length = s.nameStart + text.length + rest.length := by
  simp only [put, Scan.text, nameStart, List.length_append, List.length_reverse]
  omega

/-- What follows the region of a replacement or one around it also follows the invocation. -/
theorem Valid.after_le_of_mem_put (h : s.Valid limit) {size : Nat} {text rest : Text}
    (hsize : size + rest.length = s.tail.length) :
    ∀ r ∈ (s.put size text rest).opened, r.after ≤ rest.length := by
  have hahead := h.ahead_eq
  have htail := s.name_add_tail
  have hrest : s.ahead - s.name.length - size = rest.length := by omega
  intro r hr
  rw [← hrest]
  rcases List.mem_cons.1 hr with rfl | hr
  · exact Nat.le_refl _
  · exact h.after_le_of_mem_outer r hr

theorem Valid.inside_put (h : s.Valid limit) {size : Nat} {text rest : Text}
    (hsize : size + rest.length = s.tail.length) : (s.put size text rest).Inside := by
  intro r hr
  have hafter := h.after_le_of_mem_put hsize r hr
  have hlength := s.length_text_put size text rest
  omega

theorem Inside.step (h : s.Inside) (hvalid : s.Valid limit) (hs : s.step table limit = .next s') :
    s'.Inside := by
  cases step_of_eq hs with
  | pass => exact h.pass
  | put _ hread => exact hvalid.inside_put (Table.size_add_length_of_read hread)

theorem Reached.inside (h : Reached table limit t s) : s.Inside := by
  induction h with
  | refl => exact nofun
  | tail hreached hs ih => exact ih.step (Reached.valid hreached) hs

end Scan

/-! ### Sweeps on the way -/

theorem Progress.exists_of_map_eq_next {σ τ : Type} {f : σ → τ} {p : Progress σ} {t : τ}
    (h : p.map f = .next t) : ∃ s, p = .next s ∧ f s = t := by
  cases p with
  | finished => cases h
  | failed => cases h
  | next s => exact ⟨s, rfl, Progress.next.inj h⟩

namespace Sweep
variable {table : Table} {limit : Nat} {t : Text} {w : Sweep}

/-- The sweeps at which the steps of an expansion by offsets begin. -/
def Reached (table : Table) (limit : Nat) (t : Text) : Sweep → Prop :=
  ReflTransGen (fun w w' => w.step? table limit = some (.next w')) (.start t)

end Sweep

theorem Scan.Valid.next_of_step? {table : Table} {limit : Nat} {s : Scan} (h : s.Valid limit)
    {w : Sweep} (hw : s.sweep.step? table limit = some (.next w)) :
    ∃ s', s.step table limit = .next s' ∧ s'.sweep = w := by
  rw [step?_sweep h] at hw
  exact Progress.exists_of_map_eq_next (Option.some.inj hw)

/-- Expansion by offsets comes to the scans of an expansion, and to nothing else. -/
theorem Sweep.reached_iff {table : Table} {limit : Nat} {t : Text} {w : Sweep} :
    Reached table limit t w ↔ ∃ s, Scan.Reached table limit t s ∧ s.sweep = w := by
  constructor
  · intro h
    induction h with
    | refl => exact ⟨.start t, .refl, rfl⟩
    | tail _ hw ih =>
      obtain ⟨s, hs, rfl⟩ := ih
      obtain ⟨s', hstep, rfl⟩ := hs.valid.next_of_step? hw
      exact ⟨s', hs.tail hstep, rfl⟩
  · rintro ⟨s, h, rfl⟩
    induction h with
    | refl => exact .refl
    | @tail s s' h hs ih =>
      refine ih.tail ?_
      rw [Scan.step?_sweep (Scan.Reached.valid h), hs]
      rfl

/-! ### Sound sweeps -/

namespace Sweep

/-- What is true of a sweep whenever a step begins. -/
structure Sound (limit : Nat) (w : Sweep) : Prop where
  pos_le : w.pos ≤ w.text.length
  /-- The byte before the offset and the byte at the offset do not belong to one name. -/
  seam : ∀ i, i + 1 = w.pos → ∀ a ∈ w.text[i]?, ∀ b ∈ w.text[w.pos]?,
    isNameByte a = false ∨ isNameByte b = false
  /-- From the outermost extent inwards, the depths count up from one. -/
  depths : w.opened.reverse.map Extent.depth = List.range' 1 w.opened.length
  within : w.opened.length ≤ limit
  /-- No extent ends behind one that lies around it. -/
  nested : w.opened.reverse.Pairwise fun outer inner => inner.stop ≤ outer.stop
  stop_mem : ∀ x ∈ w.opened, 0 ≤ x.stop ∧ x.stop ≤ w.text.length

/-- From `start` up to `stop` stands the next invocation, and `text` is what it stands for. -/
def Meets (table : Table) (w : Sweep) (start stop : Nat) (text : Text) : Prop :=
  ∃ mid name size rest, nameFrom? w.text w.pos = some (start, mid) ∧
    w.text.slice? start mid = some name ∧
    table.readFrom? w.text name mid = some (.invocation size text rest) ∧ stop = mid + size

/-- A step that leaves the text as it is goes on, and may leave extents behind. -/
structure Passed (w w' : Sweep) : Prop where
  text_eq : w'.text = w.text
  pos_lt : w.pos < w'.pos
  opened : w'.opened <:+ w.opened

/-- The bytes from `start` up to `stop` are replaced by `text`, and the next step begins at `start`.
The extents that do not end before `stop` stay open, and their ends move by what the text grows. -/
structure Replaced (w : Sweep) (start stop : Nat) (text : Text) (w' : Sweep) : Prop where
  text_eq : w'.text = w.text.take start ++ (text ++ w.text.drop stop)
  pos_eq : w'.pos = start
  opened : ∃ outer, outer <:+ w.opened ∧ (∀ x ∈ outer, (stop : Int) ≤ x.stop) ∧
    w'.opened = ⟨start + text.length, outer.length + 1⟩ ::
      outer.map (Extent.shift (text.length - ((stop : Int) - start)))
  stop_mem : ∀ x ∈ w'.opened, start + text.length ≤ x.stop ∧ x.stop ≤ w'.text.length

end Sweep

namespace Scan
variable {table : Table} {limit : Nat} {t : Text} {s : Scan}

theorem Reached.sound (h : Reached table limit t s) : s.sweep.Sound limit where
  pos_le := by
    show s.passed.length ≤ (s.passed.reverse ++ s.rest).length
    rw [List.length_append, List.length_reverse]
    exact Nat.le_add_right ..
  seam := by
    intro i hi a ha b hb
    have htext : s.sweep.text = s.passed.reverse ++ s.rest := rfl
    have hpos : s.sweep.pos = s.passed.reverse.length := s.passed.length_reverse.symm
    have hbefore : s.sweep.text[i]? = s.passed.head? := by
      rw [htext, List.getElem?_append_left (by omega), List.head?_eq_getElem?]
      exact List.getElem?_reverse' (j := 0) hi
    rw [hbefore] at ha
    rw [Text.getElem?_eq_head? htext hpos] at hb
    rcases h.clean.seam with hpassed | hrest
    · exact .inl (hpassed a ha)
    · exact .inr (hrest b hb)
  depths := by
    have hdepth : Extent.depth ∘ Region.extent s.text.length = Region.depth := rfl
    rw [sweep, ← List.map_reverse, List.map_map, hdepth, h.valid.nested.depths, List.length_map]
  within := by
    rw [sweep, List.length_map]
    exact h.valid.within
  nested := by
    rw [sweep, List.pairwise_reverse, List.pairwise_map]
    refine h.valid.nested.pairwise.imp fun hle => ?_
    simp only [Region.extent]
    omega
  stop_mem := by
    intro x hx
    obtain ⟨r, hr, rfl⟩ := List.mem_map.1 hx
    have hinside := h.inside r hr
    show 0 ≤ (s.text.length : Int) - r.after ∧ (s.text.length : Int) - r.after ≤ s.text.length
    omega

/-- By offsets a scan meets the invocation that it reads. -/
theorem read_of_meets {start stop : Nat} {text : Text} (h : s.sweep.Meets table start stop text) :
    s.name.isEmpty = false ∧ ∃ size rest, table.read s.name s.tail = .invocation size text rest ∧
      start = s.nameStart ∧ stop = s.nameStart + s.name.length + size := by
  obtain ⟨mid, name, size, rest, hname, hslice, hread, rfl⟩ := h
  cases hempty : s.name.isEmpty with
  | true =>
    have hnone : nameFrom? s.sweep.text s.sweep.pos = none := nameFrom?_sweep_of_isEmpty hempty
    rw [hnone] at hname
    cases hname
  | false =>
    have hsome : nameFrom? s.sweep.text s.sweep.pos =
        some (s.nameStart, s.nameStart + s.name.length) := nameFrom?_sweep hempty
    rw [hsome] at hname
    cases hname
    obtain rfl : s.name = name := Option.some.inj (s.slice?_name.symm.trans hslice)
    exact ⟨rfl, size, rest, Option.some.inj (s.readFrom?_name.symm.trans hread), rfl, rfl⟩

theorem meets_of_read {size : Nat} {text rest : Text} (hname : s.name.isEmpty = false)
    (hread : table.read s.name s.tail = .invocation size text rest) :
    s.sweep.Meets table s.nameStart (s.nameStart + s.name.length + size) text :=
  ⟨_, s.name, size, rest, nameFrom?_sweep hname, s.slice?_name, hread ▸ s.readFrom?_name, rfl⟩

/-- An invocation lies ahead of the scan and in the text. -/
theorem Valid.bounds_of_meets (h : s.Valid limit) {start stop : Nat} {text : Text}
    (hmeets : s.sweep.Meets table start stop text) :
    s.sweep.pos ≤ start ∧ start < stop ∧ stop ≤ s.sweep.text.length := by
  obtain ⟨hname, size, rest, hread, rfl, rfl⟩ := read_of_meets hmeets
  have hsize := Table.size_add_length_of_read hread
  have hlength := h.length_text
  have hahead := h.ahead_eq
  have htail := s.name_add_tail
  have hpos := name_pos hname
  show s.passed.length ≤ s.passed.length + s.gap.length ∧ _ ∧ _ ≤ s.text.length
  omega

theorem passed_sweep (hname : s.name.isEmpty = false) : s.sweep.Passed s.pass.sweep where
  text_eq := s.text_pass
  pos_lt := by
    have hpos := name_pos hname
    rw [sweep_pass]
    show s.passed.length < s.passed.length + s.gap.length + s.name.length
    omega
  opened := by
    rw [sweep_pass]
    exact (List.dropWhile_suffix _).map _

theorem Valid.replaced_sweep (h : s.Valid limit) {size : Nat} {text rest : Text}
    (hread : table.read s.name s.tail = .invocation size text rest) :
    s.sweep.Replaced s.nameStart (s.nameStart + s.name.length + size) text
      (s.put size text rest).sweep where
  text_eq := by
    have htext : s.sweep.text = (s.passed.reverse ++ s.gap) ++ (s.name ++ s.tail) := by
      rw [List.append_assoc]
      exact s.text_eq
    rw [htext, s.nameStart_eq, List.take_left, Nat.add_assoc, List.drop_length_add_append,
      List.drop_length_add_append, ← Table.eq_drop_of_read hread]
    show (s.gap.reverse ++ s.passed).reverse ++ (text ++ rest) = _
    rw [List.reverse_append, List.reverse_reverse]
  pos_eq := by rw [h.sweep_put (Table.size_add_length_of_read hread)]
  opened := by
    have hsize := Table.size_add_length_of_read hread
    refine ⟨(s.outer size).map (Region.extent s.text.length), ?_, ?_, ?_⟩
    · exact ((List.dropWhile_suffix _).trans (List.dropWhile_suffix _)).map _
    · intro x hx
      obtain ⟨r, hr, rfl⟩ := List.mem_map.1 hx
      have hafter := h.after_le_of_mem_outer r hr
      have hlength := h.length_text
      have hahead := h.ahead_eq
      have htail := s.name_add_tail
      simp only [Region.extent]
      omega
    · rw [h.sweep_put hsize, h.depthIn_outer, List.length_map]
  stop_mem := by
    intro x hx
    obtain ⟨r, hr, rfl⟩ := List.mem_map.1 hx
    have hafter := h.after_le_of_mem_put (Table.size_add_length_of_read hread) r hr
    have hlength := s.length_text_put size text rest
    show s.nameStart + text.length ≤ ((s.put size text rest).text.length : Int) - r.after ∧
      ((s.put size text rest).text.length : Int) - r.after ≤ (s.put size text rest).text.length
    omega

end Scan

/-- **Regions stay in the text.** The sweeps that an expansion comes to are the scans that it comes
to, by offsets, and each of them is sound. An invocation that is met there lies ahead of the offset
and in the text. The step passes every check. If it goes on, either it leaves the text as it is, or
it replaces an invocation, and then no end that it makes or moves lies before the end of the
replacement or behind the new text. -/
theorem Sweep.sound_of_reached (table : Table) (limit : Nat) (t : Text) (w : Sweep) :
    (Reached table limit t w ↔ ∃ s, Scan.Reached table limit t s ∧ s.sweep = w) ∧
      (Reached table limit t w → w.Sound limit ∧
        (∀ start stop text, w.Meets table start stop text →
          w.pos ≤ start ∧ start < stop ∧ stop ≤ w.text.length) ∧
        w.step? table limit ≠ none ∧
        ∀ w', w.step? table limit = some (.next w') → w.Passed w' ∨
          ∃ start stop text, w.Meets table start stop text ∧ w.Replaced start stop text w') := by
  refine ⟨reached_iff, fun h => ?_⟩
  obtain ⟨s, hs, rfl⟩ := reached_iff.1 h
  refine ⟨hs.sound, fun start stop text => hs.valid.bounds_of_meets, ?_, ?_⟩
  · rw [Scan.step?_sweep hs.valid]
    exact nofun
  · intro w' hw'
    obtain ⟨s', hstep, rfl⟩ := hs.valid.next_of_step? hw'
    cases Scan.step_of_eq hstep with
    | pass hname => exact .inl (Scan.passed_sweep hname)
    | put hname hread =>
      exact .inr ⟨_, _, _, Scan.meets_of_read hname hread, hs.valid.replaced_sweep hread⟩

open Text (ascii) in
/-- Inside the replacement of one value another value is replaced by nothing: a second region is
opened, and the end of the outer one moves to the left. -/
theorem Sweep.sound_of_reached_shrunk :
    let table : Table := .ofList [(ascii "A", .value (ascii "B C")), (ascii "B", .value [])]
    let w : Sweep := ⟨ascii "(B C)", 1, [⟨4, 1⟩]⟩
    let w' : Sweep := ⟨ascii "( C)", 1, [⟨1, 2⟩, ⟨3, 1⟩]⟩
    Reached table 2 (ascii "(A)") w ∧ w.step? table 2 = some (.next w') ∧ w.Sound 2 ∧
      ∃ start stop text, w.Meets table start stop text ∧ w.Replaced start stop text w' := by
  intro table w w'
  have houter : (Scan.start (ascii "(A)")).step table 2 =
      .next ⟨ascii "(", ascii "B C)", 4, [⟨1, 1⟩]⟩ := by decide
  have hinner : Scan.step table 2 ⟨ascii "(", ascii "B C)", 4, [⟨1, 1⟩]⟩ =
      .next ⟨ascii "(", ascii " C)", 3, [⟨3, 2⟩, ⟨1, 1⟩]⟩ := by decide
  have hscan : Scan.Reached table 2 (ascii "(A)") ⟨ascii "(", ascii "B C)", 4, [⟨1, 1⟩]⟩ :=
    .tail .refl houter
  have hreached : Reached table 2 (ascii "(A)") w := reached_iff.2 ⟨_, hscan, by decide⟩
  have hstep : w.step? table 2 = some (.next w') := by
    have hsweep : w.step? table 2 = _ := Scan.step?_sweep hscan.valid
    rwa [hinner] at hsweep
  obtain ⟨hsound, -, -, hnext⟩ := (sound_of_reached table 2 (ascii "(A)") w).2 hreached
  refine ⟨hreached, hstep, hsound, (hnext w' hstep).resolve_left fun hpassed => ?_⟩
  exact absurd hpassed.text_eq (by decide)

end Preassembler.Macro
