import Preassembler.Proofs.Expansion.Returns

/-! The limit and expansions that never end.

A `Cursor` rewrites a text as the scan does, from left to right and again from the start of every
replacement, but it knows no regions, no depth and no limit, and so it may go on forever.

A scan that is not stopped by its limit takes the steps of its cursor (`Scan.matches_cursor`). Each
step opens at most one region, so a limit no smaller than the number of steps never stops the scan
(`returns_of_cursor`). Hence rewriting ends exactly if some limit is not exceeded
(`exists_rewrites_iff`). -/
namespace Preassembler.Macro

/-! ### Rewriting without a limit -/

/-- A position in a text under rewriting. -/
structure Cursor where
  /-- The bytes before the position, last one first. -/
  passed : Text
  /-- The bytes from the position on. -/
  rest : Text
  deriving DecidableEq, Repr

namespace Cursor

/-- The start of a text. -/
def start (t : Text) : Cursor := ⟨[], t⟩

/-- One step: to the end of the text, past the next name, or to the replacement for it. -/
def step (table : Table) (c : Cursor) : Progress Cursor :=
  let gap := c.rest.takeWhile (!isNameByte ·)
  let fromName := c.rest.dropWhile (!isNameByte ·)
  let name := fromName.takeWhile isNameByte
  let tail := fromName.dropWhile isNameByte
  if name.isEmpty then .finished (c.passed.reverse ++ c.rest)
  else match table.read name tail with
    | .plain => .next ⟨name.reverse ++ (gap.reverse ++ c.passed), tail⟩
    | .mismatch expected given => .failed (.arity name expected given)
    | .invocation _ text rest => .next ⟨gap.reverse ++ c.passed, text ++ rest⟩

theorem arity_of_step {table : Table} {c : Cursor} {e : Error} (h : c.step table = .failed e) :
    ∃ name expected given, e = .arity name expected given := by
  unfold step at h
  dsimp only at h
  split at h
  · cases h
  · split at h
    · cases h
    · cases h
      exact ⟨_, _, _, rfl⟩
    · cases h

/-- Rewriting fails at calls with the wrong number of arguments only. -/
theorem ok_or_arity_of_returns {table : Table} {n : Nat} {c : Cursor} {o : Except Error Text}
    (h : Returns (step table) n c o) :
    (∃ r, o = .ok r) ∨ ∃ name expected given, o = .error (.arity name expected given) := by
  induction h with
  | finished => exact .inl ⟨_, rfl⟩
  | failed hs =>
    obtain ⟨name, expected, given, rfl⟩ := arity_of_step hs
    exact .inr ⟨name, expected, given, rfl⟩
  | next _ _ ih => exact ih

end Cursor

/-- Rewriting a text without a limit ends with the answer. -/
def Rewrites (table : Table) (t : Text) (o : Except Error Text) : Prop :=
  ∃ n, Returns (Cursor.step table) n (.start t) o

/-- The answer that replacements are nested too deep. -/
def IsTooDeep (o : Except Error Text) : Prop := ∃ name limit, o = .error (.tooDeep name limit)

/-! ### The cursor of a scan -/

namespace Scan
variable {table : Table} {limit : Nat} {s : Scan}

/-- The scan without its regions. -/
def cursor (s : Scan) : Cursor := ⟨s.passed, s.rest⟩

theorem step_cursor (table : Table) (s : Scan) :
    s.cursor.step table =
      if s.name.isEmpty then .finished s.text
      else match table.read s.name s.tail with
        | .plain => .next s.pass.cursor
        | .mismatch expected given => .failed (.arity s.name expected given)
        | .invocation size text rest => .next (s.put size text rest).cursor := rfl

/-- A scan that its limit does not stop takes the steps of its cursor. -/
theorem matches_cursor (h : ∀ name, s.step table limit ≠ .failed (.tooDeep name limit)) :
    Matches (fun s c => s.cursor = c) (s.step table limit) (s.cursor.step table) := by
  rw [step_cursor]
  generalize hp : s.step table limit = p at h
  cases step_of_eq hp with
  | finish hn =>
    rw [if_pos hn]
    exact .finished
  | pass hn hr =>
    rw [hn, hr]
    exact .next rfl
  | mismatch hn hr =>
    rw [hn, hr]
    exact .failed
  | tooDeep => exact absurd rfl (h s.name)
  | put hn hr =>
    rw [hn, hr]
    exact .next rfl

/-- An answer of the scan other than an excess of nesting is the answer of its cursor. -/
theorem cursor_of_returns {n : Nat} {o : Except Error Text} (h : Returns (step table limit) n s o)
    (ho : ¬ IsTooDeep o) : Returns (Cursor.step table) n s.cursor o := by
  refine h.transfer (R := fun _ s c => s.cursor = c) ?_ rfl
  rintro n s _ rfl hs
  refine matches_cursor fun name hdeep => ho ?_
  exact ⟨name, limit, (hs.unique (.failed hdeep)).2⟩

/-! ### Depth and the number of steps -/

/-- A step opens at most one region. -/
theorem length_opened_of_step {s' : Scan} (h : s.step table limit = .next s') :
    s'.opened.length ≤ s.opened.length + 1 := by
  cases step_of_eq h with
  | pass => exact Nat.le_succ_of_le (List.dropWhile_sublist _).length_le
  | put => exact Nat.succ_le_succ (s.length_outer_le _)

/-- A scan with room for another region is not stopped by its limit. -/
theorem Valid.step_ne_tooDeep (h : s.Valid limit) (hroom : s.opened.length + 1 ≤ limit) (name : Text) :
    s.step table limit ≠ .failed (.tooDeep name limit) := by
  intro hs
  cases step_of_eq hs with
  | @tooDeep size _ _ _ _ hd =>
    have hlength := s.length_outer_le size
    rw [h.depthIn_outer] at hd
    omega

/-- With room for a region at every step that remains, the scan answers what its cursor does. -/
theorem returns_of_cursor {n : Nat} {o : Except Error Text} (hvalid : s.Valid limit)
    (hroom : s.opened.length + n < limit) (h : Returns (Cursor.step table) n s.cursor o) :
    Returns (step table limit) n s o := by
  refine h.transfer
    (R := fun n c s => s.cursor = c ∧ s.Valid limit ∧ s.opened.length + n < limit) ?_
    ⟨rfl, hvalid, hroom⟩
  rintro n _ s ⟨rfl, hvalid, hroom⟩ hc
  have hm : Matches _ (s.step table limit) (s.cursor.step table) :=
    matches_cursor (hvalid.step_ne_tooDeep (by omega))
  generalize hs : s.step table limit = p at hm
  generalize hc' : s.cursor.step table = q at hm
  cases hm with
  | finished => exact .finished
  | failed => exact .failed
  | next heq =>
    have hpos := hc.pos_of_next hc'
    have hlength := length_opened_of_step hs
    exact .next ⟨heq, valid_step hvalid hs, by omega⟩

end Scan

/-! ### What the limit tells -/

/-- An answer under some limit, other than an excess of nesting, is the answer without a limit. -/
theorem rewrites_expand {table : Table} {limit : Nat} {t : Text}
    (h : ¬ IsTooDeep (table.expand limit t)) : Rewrites table t (table.expand limit t) := by
  obtain ⟨n, hn⟩ := table.exists_returns_expand limit t
  exact ⟨n, Scan.cursor_of_returns hn h⟩

namespace Rewrites
variable {table : Table} {t : Text} {o o' : Except Error Text}

theorem unique (h : Rewrites table t o) (h' : Rewrites table t o') : o = o' := by
  obtain ⟨n, hn⟩ := h
  obtain ⟨m, hm⟩ := h'
  exact (hn.unique hm).2

theorem ok_or_arity (h : Rewrites table t o) :
    (∃ r, o = .ok r) ∨ ∃ name expected given, o = .error (.arity name expected given) := by
  obtain ⟨n, hn⟩ := h
  exact Cursor.ok_or_arity_of_returns hn

theorem not_isTooDeep (h : Rewrites table t o) : ¬ IsTooDeep o := by
  rintro ⟨name, limit, rfl⟩
  rcases h.ok_or_arity with ⟨r, hr⟩ | ⟨name', expected, given, ha⟩
  · cases hr
  · cases ha

/-- An answer without a limit is the answer under some limit. -/
theorem exists_expand_eq (h : Rewrites table t o) :
    ∃ limit, 1 ≤ limit ∧ table.expand limit t = o := by
  obtain ⟨n, hn⟩ := h
  refine ⟨n + 1, Nat.succ_pos n, ?_⟩
  obtain ⟨m, hm⟩ := table.exists_returns_expand (n + 1) t
  have hscan : Returns (Scan.step table (n + 1)) n (.start t) o :=
    Scan.returns_of_cursor (Scan.valid_start _ t) (by simp [Scan.start]) hn
  exact (hm.unique hscan).2

end Rewrites

/-- Rewriting ends exactly if some limit is not exceeded. -/
theorem exists_rewrites_iff (table : Table) (t : Text) :
    (∃ o, Rewrites table t o) ↔ ∃ limit, 1 ≤ limit ∧ ¬ IsTooDeep (table.expand limit t) := by
  constructor
  · rintro ⟨o, ho⟩
    obtain ⟨limit, hpos, rfl⟩ := ho.exists_expand_eq
    exact ⟨limit, hpos, ho.not_isTooDeep⟩
  · rintro ⟨limit, -, h⟩
    exact ⟨_, rewrites_expand h⟩

/-- **The depth limit diagnoses exactly divergence.** Rewriting without a limit ends, with a text or
at a call with the wrong number of arguments, exactly if some limit is not exceeded, and then every
limit that is not exceeded gives that answer. Every limit is exceeded exactly if rewriting goes on
forever. -/
theorem Table.limit_diagnoses_divergence (table : Table) (t : Text) :
    ((∃ o, Rewrites table t o) ↔ ∃ limit, 1 ≤ limit ∧ ¬ IsTooDeep (table.expand limit t)) ∧
    (∀ o, Rewrites table t o →
      ((∃ r, o = .ok r) ∨ ∃ name expected given, o = .error (.arity name expected given)) ∧
      ∀ limit, 1 ≤ limit → ¬ IsTooDeep (table.expand limit t) → table.expand limit t = o) ∧
    ((∀ limit, 1 ≤ limit → IsTooDeep (table.expand limit t)) ↔
      Endless (Cursor.step table) (.start t)) := by
  refine ⟨exists_rewrites_iff table t, fun o ho => ⟨ho.ok_or_arity, ?_⟩, ?_⟩
  · intro limit _ h
    exact (rewrites_expand h).unique ho
  · rw [endless_iff, exists_comm]
    show _ ↔ ¬ ∃ o, Rewrites table t o
    rw [exists_rewrites_iff]
    constructor
    · rintro h ⟨limit, hpos, hnot⟩
      exact hnot (h limit hpos)
    · intro h limit hpos
      exact Classical.byContradiction fun hnot => h ⟨limit, hpos, hnot⟩

end Preassembler.Macro
