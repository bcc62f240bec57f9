import Preassembler.Proofs.Expansion.Leftover
import Preassembler.Proofs.Expansion.Offsets

/-! Expansion by offsets.

A sweep is a text under expansion with the offset that is reached in it. The region of a replacement
is kept by the offset of its end, which moves whenever something in front of it changes its length.
Every cut of the text and every argument that a template asks for is checked: where a check fails
there is no next step.

Main statement: the sweep and the scan go in step (`Scan.step?_sweep`), so a text is expanded by
offsets without a failing check, and to what `expand` answers (`Table.exists_expand?_eq`). -/
namespace Preassembler.Macro

/-! ### Invocations -/

theorem Fragment.fill?_eq {n : Nat} {args : List Text} (h : args.length = n) (f : Fragment n) :
    f.fill? args = .ok (f.fill args h) := by
  cases f with
  | literal t => rfl
  | param i =>
    have hi : i.val < args.length := h ▸ i.isLt
    rw [fill?, List.getElem?_eq_getElem hi]
    rfl

/-- A template finds every argument it asks for when there is one for each parameter. -/
theorem Function.render?_eq {f : Function} {args : List Text}
    (h : args.length = f.params.length) : f.render? args = .ok (f.render args h) := by
  have hfill : (Fragment.fill? args : Fragment f.params.length → _) =
      fun p => pure (p.fill args h) := funext (Fragment.fill?_eq h)
  rw [render?, hfill, List.mapM_pure]
  rfl

/-- Reads a name that ends at an offset of the text. -/
def Table.readFrom? (table : Table) (t name : Text) (stop : Nat) : Option Reading :=
  match table.find? name with
  | none => some .plain
  | some (.value text) => (t.slice? stop t.length).map (.invocation 0 text)
  | some (.function f) => (callFrom? t stop).bind fun
    | none => some .plain
    | some call =>
      if call.args.length = f.params.length then
        (f.render? call.args).toOption.map (.invocation call.size · call.rest)
      else some (.mismatch f.params.length call.args.length)

theorem Table.readFrom?_eq {table : Table} {t x tail name : Text} {stop : Nat}
    (ht : t = x ++ tail) (hstop : stop = x.length) :
    table.readFrom? t name stop = some (table.read name tail) := by
  rw [readFrom?, read]
  rcases table.find? name with _ | text | f
  · rfl
  · dsimp only
    rw [Text.slice?_rest ht hstop, Option.map_some]
  · dsimp only
    rw [callFrom?_eq ht hstop, Option.bind_some]
    cases callAt? tail with
    | none => rfl
    | some call =>
      dsimp only
      split
      · rename_i hargs
        rw [Function.render?_eq hargs]
        rfl
      · rfl

/-! ### Extents -/

/-- Replaced text that is not yet behind the position, by the offset of its end. -/
structure Extent where
  stop : Int
  depth : Nat
  deriving DecidableEq, Repr

/-- The extent after the text in front of its end has grown by `delta` bytes. -/
def Extent.shift (delta : Int) (x : Extent) : Extent := { x with stop := x.stop + delta }

/-- The depth of a replacement made inside the given extents. -/
def Extent.depthIn : List Extent → Nat
  | [] => 1
  | x :: _ => x.depth + 1

/-- The extent of a region in a text of so many bytes. -/
def Region.extent (total : Nat) (r : Region) : Extent := ⟨total - r.after, r.depth⟩

section Extents
variable {total place : Nat} {regions : List Region}

theorem depthIn_extent : Extent.depthIn (regions.map (Region.extent total)) = depthIn regions := by
  cases regions <;> rfl

/-- Extents that end at or before a place are those with all bytes from there on after them. -/
theorem dropWhile_extent_le (h : place ≤ total) :
    (regions.map (Region.extent total)).dropWhile (·.stop ≤ (place : Int)) =
      (regions.dropWhile fun r => total - place ≤ r.after).map (Region.extent total) := by
  have hsame : (fun x : Extent => decide (x.stop ≤ (place : Int))) ∘ Region.extent total =
      fun r => decide (total - place ≤ r.after) := by
    funext r
    exact decide_eq_decide.2 (show (total : Int) - r.after ≤ place ↔ _ by omega)
  rw [List.dropWhile_map, hsame]

theorem dropWhile_extent_lt (h : place ≤ total) :
    (regions.map (Region.extent total)).dropWhile (·.stop < (place : Int)) =
      (regions.dropWhile fun r => total - place < r.after).map (Region.extent total) := by
  have hsame : (fun x : Extent => decide (x.stop < (place : Int))) ∘ Region.extent total =
      fun r => decide (total - place < r.after) := by
    funext r
    exact decide_eq_decide.2 (show (total : Int) - r.after < place ↔ _ by omega)
  rw [List.dropWhile_map, hsame]

theorem map_shift_extent {total' : Nat} {delta : Int} (h : (total' : Int) = total + delta) :
    (regions.map (Region.extent total)).map (Extent.shift delta) =
      regions.map (Region.extent total') := by
  rw [List.map_map]
  refine List.map_congr_left fun r _ => ?_
  simp only [Function.comp, Region.extent, Extent.shift, Extent.mk.injEq, and_true]
  omega

end Extents

/-! ### Steps -/

/-- A text under expansion, the offset reached in it, and the open extents, innermost first. -/
structure Sweep where
  text : Text
  pos : Nat
  opened : List Extent
  deriving DecidableEq, Repr

namespace Sweep

/-- The start of a text. -/
def start (t : Text) : Sweep := ⟨t, 0, []⟩

/-- Replaces the bytes from one offset up to another, which `rest` follows, by `text`. -/
def replace? (s : Sweep) (limit : Nat) (name : Text) (start stop : Nat) (text rest : Text) :
    Option (Progress Sweep) :=
  let outer := s.opened.dropWhile (·.stop < (stop : Int))
  let depth := Extent.depthIn outer
  if limit < depth then some (.failed (.tooDeep name limit))
  else
    -- Below zero when the text shrinks: ends then move to the left.
    let delta : Int := text.length - (stop - start)
    (s.text.slice? 0 start).map fun before => .next
      { text := before ++ text ++ rest
        pos := start
        opened := ⟨start + text.length, depth⟩ :: outer.map (Extent.shift delta) }

/-- One step: to the end of the text, past the next name, or to the replacement for it. -/
def step? (table : Table) (limit : Nat) (s : Sweep) : Option (Progress Sweep) :=
  match nameFrom? s.text s.pos with
  | none => some (.finished s.text)
  | some (start, stop) => do
    -- What ends before the name is closed for good, also when the name is passed.
    let s := { s with opened := s.opened.dropWhile (·.stop ≤ (start : Int)) }
    let name ← s.text.slice? start stop
    match ← table.readFrom? s.text name stop with
    | .plain => some (.next { s with pos := stop })
    | .mismatch expected given => some (.failed (.arity name expected given))
    | .invocation size text rest => s.replace? limit name start (stop + size) text rest

/-- Steps until there is an answer; so many steps at most. -/
def run? (table : Table) (limit : Nat) : Nat → Sweep → Option (Except Error Text)
  | 0, _ => none
  | n + 1, s => (s.step? table limit).bind fun
    | .finished t => some (.ok t)
    | .failed e => some (.error e)
    | .next s' => run? table limit n s'

end Sweep

/-! ### The scan by offsets -/

/-- What a step comes to, with the state seen in another way. -/
def Progress.map {σ τ : Type} (f : σ → τ) : Progress σ → Progress τ
  | finished t => .finished t
  | failed e => .failed e
  | next s => .next (f s)

namespace Scan
variable {table : Table} {limit : Nat} {s : Scan}

/-- A scan by offsets. -/
def sweep (s : Scan) : Sweep :=
  ⟨s.text, s.passed.length, s.opened.map (Region.extent s.text.length)⟩

/-- The offset of the next name. -/
def nameStart (s : Scan) : Nat := s.passed.length + s.gap.length

theorem nameStart_eq (s : Scan) : s.nameStart = (s.passed.reverse ++ s.gap).length := by
  rw [nameStart, List.length_append, List.length_reverse]

theorem text_eq (s : Scan) : s.text = s.passed.reverse ++ (s.gap ++ (s.name ++ s.tail)) := by
  rw [text, s.rest_eq]

theorem Valid.length_text (h : s.Valid limit) : s.text.length = s.nameStart + s.ahead := by
  have hfrom := s.gap_add_fromName
  rw [h.ahead_eq, text, List.length_append, List.length_reverse, nameStart]
  omega

theorem nameFrom?_sweep (h : s.name.isEmpty = false) :
    nameFrom? s.text s.passed.length = some (s.nameStart, s.nameStart + s.name.length) :=
  nameFrom?_eq_some s.text_eq s.passed.length_reverse.symm (fun _ => not_name_of_mem_gap)
    (isName_name h) s.apart_tail

theorem nameFrom?_sweep_of_isEmpty (h : s.name.isEmpty = true) :
    nameFrom? s.text s.passed.length = none := by
  have hfrom : s.fromName = [] := dropWhile_not_eq_nil (List.isEmpty_iff.1 h)
  have hgap : s.gap ++ s.fromName = s.rest := List.takeWhile_append_dropWhile
  have htext : s.text = s.passed.reverse ++ s.gap := by
    rw [text, ← hgap, hfrom, List.append_nil]
  exact nameFrom?_eq_none htext s.passed.length_reverse.symm fun _ => not_name_of_mem_gap

theorem slice?_name (s : Scan) :
    s.text.slice? s.nameStart (s.nameStart + s.name.length) = some s.name := by
  refine Text.slice?_eq (x := s.passed.reverse ++ s.gap) (z := s.tail) ?_ s.nameStart_eq
    (by rw [s.nameStart_eq])
  rw [s.text_eq, List.append_assoc]

theorem slice?_before (s : Scan) :
    s.text.slice? 0 s.nameStart = some (s.passed.reverse ++ s.gap) := by
  refine Text.slice?_eq (x := []) (z := s.name ++ s.tail) ?_ rfl (by simp [nameStart_eq])
  rw [s.text_eq, List.nil_append, List.append_assoc]

theorem readFrom?_name (s : Scan) :
    table.readFrom? s.text s.name (s.nameStart + s.name.length) =
      some (table.read s.name s.tail) := by
  refine Table.readFrom?_eq (x := s.passed.reverse ++ s.gap ++ s.name) ?_ ?_
  · rw [s.text_eq]
    simp only [List.append_assoc]
  · simp only [nameStart, List.length_append, List.length_reverse]

/-- The extents around the next name are those of the regions around it. -/
theorem Valid.dropWhile_extent (h : s.Valid limit) :
    s.sweep.opened.dropWhile (·.stop ≤ (s.nameStart : Int)) =
      s.around.map (Region.extent s.text.length) := by
  have hlength := h.length_text
  have hahead : s.text.length - s.nameStart = s.ahead := by omega
  rw [sweep, dropWhile_extent_le (by omega), hahead]
  rfl

theorem sweep_pass (s : Scan) : s.pass.sweep =
    ⟨s.text, s.nameStart + s.name.length, s.around.map (Region.extent s.text.length)⟩ := by
  have hpassed : s.pass.passed.length = s.nameStart + s.name.length := by
    simp only [pass, nameStart, List.length_append, List.length_reverse]
    omega
  rw [sweep, s.text_pass, hpassed]
  rfl

/-- A replacement by offsets: its extent begins at the name, and the ends of the extents around it
move by the bytes it adds. -/
theorem Valid.sweep_put (h : s.Valid limit) {size : Nat} {text rest : Text}
    (hsize : size + rest.length = s.tail.length) :
    (s.put size text rest).sweep =
      { text := s.passed.reverse ++ s.gap ++ text ++ rest
        pos := s.nameStart
        opened := ⟨s.nameStart + text.length, depthIn (s.outer size)⟩ ::
          ((s.outer size).map (Region.extent s.text.length)).map (Extent.shift
            (text.length - ((s.nameStart + s.name.length + size : Nat) - s.nameStart))) } := by
  have hold := h.length_text
  have hahead := h.ahead_eq
  have htail := s.name_add_tail
  have htext : (s.put size text rest).text = s.passed.reverse ++ s.gap ++ text ++ rest := by
    simp [put, Scan.text]
  have hnew : (s.put size text rest).text.length = s.nameStart + text.length + rest.length := by
    simp only [htext, nameStart, List.length_append, List.length_reverse]
  have hdelta : ((s.put size text rest).text.length : Int) = s.text.length +
      (text.length - ((s.nameStart + s.name.length + size : Nat) - s.nameStart)) := by omega
  rw [sweep, map_shift_extent hdelta]
  refine congr (congr (congrArg Sweep.mk htext) ?_) (congrArg₂ List.cons ?_ rfl)
  · simp only [put, nameStart, List.length_append, List.length_reverse]
    omega
  · simp only [Region.extent, Extent.mk.injEq, and_true]
    omega

/-- By offsets, too, an invocation is replaced inside the extents that end behind it. -/
theorem Valid.replace?_sweep (h : s.Valid limit) {size : Nat} {text rest : Text}
    (hsize : size + rest.length = s.tail.length) :
    ({ s.sweep with opened := s.around.map (Region.extent s.text.length) } : Sweep).replace?
        limit s.name s.nameStart (s.nameStart + s.name.length + size) text rest =
      some ((s.replace limit size text rest).map sweep) := by
  have hlength := h.length_text
  have hahead := h.ahead_eq
  have htail := s.name_add_tail
  have hafter : s.text.length - (s.nameStart + s.name.length + size) =
      s.ahead - s.name.length - size := by omega
  have houter : (s.around.map (Region.extent s.text.length)).dropWhile
      (·.stop < ((s.nameStart + s.name.length + size : Nat) : Int)) =
        (s.outer size).map (Region.extent s.text.length) := by
    rw [dropWhile_extent_lt (by omega), hafter]
    rfl
  have hreplace : s.replace limit size text rest =
      if limit < depthIn (s.outer size) then .failed (.tooDeep s.name limit)
      else .next (s.put size text rest) := rfl
  rw [Sweep.replace?, houter, depthIn_extent, hreplace]
  dsimp only
  split
  · rfl
  · rw [show s.sweep.text = s.text from rfl, s.slice?_before, Option.map_some, Progress.map,
      h.sweep_put hsize]

/-- **The scan by offsets.** A step by offsets passes every check and comes to what a step of the
scan comes to. -/
theorem step?_sweep (h : s.Valid limit) :
    s.sweep.step? table limit = some ((s.step table limit).map sweep) := by
  rw [Sweep.step?, step, show s.sweep.text = s.text from rfl,
    show s.sweep.pos = s.passed.length from rfl]
  cases hname : s.name.isEmpty with
  | true =>
    rw [nameFrom?_sweep_of_isEmpty hname]
    rfl
  | false =>
    rw [nameFrom?_sweep hname]
    dsimp only
    rw [slice?_name, Option.bind_eq_bind, Option.bind_some, readFrom?_name, Option.bind_eq_bind,
      Option.bind_some, h.dropWhile_extent, if_neg Bool.false_ne_true]
    cases hread : table.read s.name s.tail with
    | plain => rw [Progress.map, sweep_pass]
    | mismatch expected given => rfl
    | invocation size text rest => exact h.replace?_sweep (Table.size_add_length_of_read hread)

/-- What the scan returns is reached by offsets in as many steps. -/
theorem run?_sweep {n : Nat} {o : Except Error Text} (h : s.Valid limit)
    (hr : Returns (step table limit) n s o) : s.sweep.run? table limit (n + 1) = some o := by
  induction hr with
  | finished hs => rw [Sweep.run?, step?_sweep h, hs]; rfl
  | failed hs => rw [Sweep.run?, step?_sweep h, hs]; rfl
  | next hs _ ih =>
    rw [Sweep.run?, step?_sweep h, hs]
    exact ih (valid_step h hs)

end Scan

namespace Table

/-- A text with every invocation replaced, by offsets and in so many steps at most. -/
def expand? (table : Table) (limit fuel : Nat) (t : Text) : Option (Except Error Text) :=
  if table.isEmpty then some (.ok t) else (Sweep.start t).run? table limit fuel

/-- Expansion by offsets fails no check and comes to an end. -/
theorem exists_expand?_eq (table : Table) (limit : Nat) (t : Text) :
    ∃ fuel, table.expand? limit fuel t = some (table.expand limit t) := by
  obtain ⟨n, hn⟩ := table.exists_returns_expand limit t
  refine ⟨n + 1, ?_⟩
  unfold expand?
  split
  · rename_i hempty
    rw [expand, if_pos hempty]
  · exact Scan.run?_sweep (Scan.valid_start limit t) hn

end Table

end Preassembler.Macro
