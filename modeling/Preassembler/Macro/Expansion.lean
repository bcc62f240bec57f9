import Preassembler.Macro.Expansion.Termination

/-! Macro expansion: the steps of a scan from the start of a text to its end.

Main statement: a scan runs on exactly as its first step says (`run_finished`, `run_failed`,
`run_next`). -/
namespace Preassembler.Macro

/-- A scan that an expansion under the given limit can reach. -/
abbrev ValidScan (limit : Nat) := { s : Scan // s.Valid limit }

namespace Scan

/-- Scans come after those with smaller profiles. -/
instance orderByProfile (limit : Nat) : WellFoundedRelation (ValidScan limit) :=
  invImage (fun s => s.1.profile) ⟨Places.Less (limit + 1), Places.wellFounded (limit + 1)⟩

/-- Steps a scan until it ends. -/
def run (table : Table) (limit : Nat) (s : ValidScan limit) : Except Error Text :=
  match h : s.1.step table limit with
  | .finished t => .ok t
  | .failed e => .error e
  | .next s' => run table limit ⟨s', valid_step s.2 h⟩
termination_by s
decreasing_by exact less_step s.2 h

variable {table : Table} {limit : Nat} {s : ValidScan limit}

theorem run_finished {t : Text} (h : s.1.step table limit = .finished t) :
    run table limit s = .ok t := by
  rw [run]; split <;> simp_all

theorem run_failed {e : Error} (h : s.1.step table limit = .failed e) :
    run table limit s = .error e := by
  rw [run]; split <;> simp_all

theorem run_next {s' : Scan} (h : s.1.step table limit = .next s') :
    run table limit s = run table limit ⟨s', valid_step s.2 h⟩ := by
  rw [run]
  split
  · simp_all
  · simp_all
  · rename_i t ht
    obtain rfl : t = s' := by simpa [ht] using h
    rfl

end Scan

/-- A text with every invocation replaced. -/
def Table.expand (table : Table) (limit : Nat) (t : Text) : Except Error Text :=
  if table.isEmpty then .ok t else Scan.run table limit ⟨.start t, Scan.valid_start limit t⟩

end Preassembler.Macro
