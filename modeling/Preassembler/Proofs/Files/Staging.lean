import Preassembler.Files.Tree

/-! Files that are written beside others.

Output is collected in a new file and then takes the place of another one, or goes away. Nothing
else may change by this. That rests on two facts: an entry put where nothing stood can be taken away
again, and paths are followed through directories, of which none comes or goes.

Main statements: taking a staged file away gives back the tree (`Staged.remove`), and moving it
changes what stands at the new name and nothing else (`Staged.rename`). -/
namespace Preassembler.Files.Tree
open Pathname (Location)

variable {t t' : Tree} {place : Location} {home : Location} {path : Text}

/-! ### Entries -/

theorem not_mem_of_seek {entries : List (Location × Entry)} (h : seek place entries = none) :
    ∀ x ∈ entries, x.1 ≠ place := by
  induction entries with
  | nil => exact nofun
  | cons x rest ih =>
    obtain ⟨l, e⟩ := x
    rw [seek] at h
    split at h
    · cases h
    · rename_i hne
      intro y hy
      rcases List.mem_cons.1 hy with rfl | hy
      · exact Ne.symm hne
      · exact ih h y hy

theorem erase_of_absent (h : t.find? place = none) : t.erase place = t := by
  rw [find?] at h
  split at h
  · cases h
  · have hall := not_mem_of_seek h
    refine congrArg Tree.mk (List.filter_eq_self.2 fun x hx => ?_)
    simpa using hall x hx

theorem seek_filter_of_ne {q : Location} (h : q ≠ place) (entries : List (Location × Entry)) :
    seek q (entries.filter fun (l, _) => l ≠ place) = seek q entries := by
  induction entries with
  | nil => rfl
  | cons x rest ih =>
    obtain ⟨l, e⟩ := x
    by_cases hl : l = place
    · subst hl
      simpa [seek, h] using ih
    · by_cases hq : q = l
      · subst hq
        simp [seek, hl]
      · simpa [seek, hl, hq] using ih

theorem find?_erase_of_ne {q : Location} (h : q ≠ place) : (t.erase place).find? q = t.find? q := by
  rw [find?, find?, erase, seek_filter_of_ne h]

theorem find?_put_of_ne {q : Location} (h : q ≠ place) (e : Entry) :
    (t.put place e).find? q = t.find? q := by
  have herase := find?_erase_of_ne (t := t) h
  rw [find?, find?] at herase
  rw [find?, find?, put, seek, if_neg h, herase]

theorem find?_put {e : Entry} (h : place ≠ []) : (t.put place e).find? place = some e := by
  rw [find?, if_neg (by simpa using h), put, seek, if_pos rfl]

theorem put_put (e e' : Entry) : (t.put place e).put place e' = t.put place e' := by
  simp [put, erase]

theorem erase_put (e : Entry) : (t.put place e).erase place = t.erase place := by
  simp [put, erase]

/-- Nothing is absent at the root. -/
theorem ne_nil_of_find? (h : t.find? place ≠ some .directory) : place ≠ [] := by
  rintro rfl
  exact h rfl

/-! ### Paths -/

theorem descend_of_directories
    (h : ∀ q, t.find? q = some .directory → t'.find? q = some .directory) {name : Text}
    {q : Location} (hq : t.descend q name = .ok place) : t'.descend q name = .ok place := by
  unfold descend at hq ⊢
  split at hq
  · cases hq
  · cases hq
  · rename_i hdir
    rw [h q hdir]
    exact hq

/-- Paths are followed through directories only, so where one leads does not depend on files. -/
theorem locate_of_directories
    (h : ∀ q, t.find? q = some .directory → t'.find? q = some .directory)
    (hpath : t.locate home path = .ok place) : t'.locate home path = .ok place := by
  have hfold : ∀ (names : List Text) (q : Location), names.foldlM t.descend q = .ok place →
      names.foldlM t'.descend q = .ok place := by
    intro names
    induction names with
    | nil => exact fun q hq => hq
    | cons name names ih =>
      intro q hq
      rw [List.foldlM_cons] at hq ⊢
      cases hstep : t.descend q name with
      | error c =>
        rw [hstep] at hq
        cases hq
      | ok r =>
        rw [hstep] at hq
        rw [descend_of_directories h hstep]
        exact ih r hq
  unfold locate at hpath ⊢
  split at hpath
  · cases hpath
  · rename_i hzero
    rw [if_neg hzero]
    split at hpath
    · cases hpath
    · rename_i hempty
      rw [if_neg hempty]
      split at hpath
      · cases hpath
      · rename_i hlong
        rw [if_neg hlong]
        exact hfold _ _ hpath

/-- A file that is put where no directory stands does not stand in the way. -/
theorem locate_put {target : Location} (hdir : t.find? target ≠ some .directory) (e : Entry)
    (hpath : t.locate home path = .ok place) : (t.put target e).locate home path = .ok place := by
  refine locate_of_directories (fun q hq => ?_) hpath
  rw [find?_put_of_ne, hq]
  rintro rfl
  exact hdir hq

theorem follow_eq_ok_iff {e : Entry} :
    t.follow home path = .ok (place, e) ↔
      t.locate home path = .ok place ∧ t.find? place = some e := by
  unfold follow
  cases t.locate home path with
  | error c => simp
  | ok q =>
    dsimp only
    rw [Except.ok.injEq]
    constructor
    · intro h
      split at h
      · cases h
      · cases h
        exact ⟨rfl, ‹_›⟩
    · rintro ⟨rfl, h⟩
      rw [h]

/-! ### Staged files -/

/-- The tree `t'` is `t` with one more file, to which `path` leads. -/
def Staged (t : Tree) (home : Location) (path content : Text) (t' : Tree) : Prop :=
  ∃ place, t.find? place = none ∧ t.locate home path = .ok place ∧
    t' = t.put place (.file content)

/-- The tree `t'` is `t` with the file that `path` leads to; nothing else was changed. -/
def Replaced (t : Tree) (home : Location) (path content : Text) (t' : Tree) : Prop :=
  ∃ target, t'.follow home path = .ok (target, .file content) ∧
    ∀ q, q ≠ target → t'.find? q = t.find? q

namespace Staged
variable {content : Text}

theorem of_create (h : t.create home path = .ok t') : Staged t home path [] t' := by
  unfold create at h
  split at h
  · cases h
  · rename_i place hplace
    split at h
    · cases h
    · rename_i hnone
      rw [Bool.not_eq_true, Option.isSome_eq_false_iff, Option.isNone_iff_eq_none] at hnone
      exact ⟨place, hnone, hplace, (Except.ok.inj h).symm⟩

/-- The path of a staged file leads to it. -/
theorem follow (h : Staged t home path content t') :
    ∃ place, t.find? place = none ∧ t.locate home path = .ok place ∧
      t' = t.put place (.file content) ∧ t'.follow home path = .ok (place, .file content) := by
  obtain ⟨place, hnone, hpath, rfl⟩ := h
  have hdir : t.find? place ≠ some .directory := by
    rw [hnone]
    exact nofun
  refine ⟨place, hnone, hpath, rfl, follow_eq_ok_iff.2 ⟨locate_put hdir _ hpath, ?_⟩⟩
  exact find?_put (ne_nil_of_find? hdir)

theorem append (h : Staged t home path content t') (text : Text) :
    Staged t home path (content ++ text) (t'.append home path text) := by
  obtain ⟨place, hnone, hpath, heq, hfollow⟩ := h.follow
  refine ⟨place, hnone, hpath, ?_⟩
  rw [Tree.append, hfollow, heq]
  exact put_put _ _

/-- **A staged file can be taken away without a trace.** -/
theorem remove (h : Staged t home path content t') : t'.remove home path = .ok t := by
  obtain ⟨place, hnone, -, heq, hfollow⟩ := h.follow
  rw [Tree.remove, hfollow]
  show Except.ok (t'.erase place) = _
  rw [heq, erase_put, erase_of_absent hnone]

/-- Staging a file makes no directory and takes none away. -/
theorem directory_iff (h : Staged t home path content t') (q : Location) :
    t'.find? q = some .directory ↔ t.find? q = some .directory := by
  obtain ⟨place, hnone, -, rfl⟩ := h
  by_cases hq : q = place
  · have hne : place ≠ [] := ne_nil_of_find? (by rw [hnone]; exact nofun)
    rw [hq, hnone, find?_put hne]
    exact iff_of_false nofun nofun
  · rw [find?_put_of_ne hq]

theorem locate_iff (h : Staged t home path content t') {new : Text} :
    t'.locate home new = .ok place ↔ t.locate home new = .ok place :=
  ⟨locate_of_directories fun q => (h.directory_iff q).1,
    locate_of_directories fun q => (h.directory_iff q).2⟩

theorem rename_of_astray (h : Staged t home path content t') {new : Text} {c : Problem}
    (hnew : t'.locate home new = .error c) : t'.rename home path new = .error c := by
  obtain ⟨place, -, -, -, hfollow⟩ := h.follow
  rw [Tree.rename, hfollow]
  dsimp only
  rw [hnew]

/-- A staged file moves where no directory stands. -/
theorem rename_of_located (h : Staged t home path content t') {new : Text} {target : Location}
    (hnew : t.locate home new = .ok target) :
    t'.rename home path new =
      if t.find? target = some .directory then .error .alreadyExists
      else .ok (t.put target (.file content)) := by
  obtain ⟨place, hnone, -, heq, hfollow⟩ := h.follow
  have herase : t'.erase place = t := by rw [heq, erase_put, erase_of_absent hnone]
  rw [Tree.rename, hfollow]
  dsimp only
  rw [h.locate_iff.2 hnew, herase]
  dsimp only
  simp only [h.directory_iff]

/-- **A staged file moves to its name, and nothing else changes.** -/
theorem rename (h : Staged t home path content t') {new : Text} {t'' : Tree}
    (hrename : t'.rename home path new = .ok t'') : Replaced t home new content t'' := by
  cases hnew : t'.locate home new with
  | error c =>
    rw [h.rename_of_astray hnew] at hrename
    cases hrename
  | ok target =>
    have htarget := h.locate_iff.1 hnew
    rw [h.rename_of_located htarget] at hrename
    split at hrename
    · cases hrename
    · rename_i hdir
      obtain rfl := Except.ok.inj hrename
      refine ⟨target, follow_eq_ok_iff.2 ⟨locate_put hdir _ htarget, ?_⟩, fun q hq => ?_⟩
      · exact find?_put (ne_nil_of_find? hdir)
      · exact find?_put_of_ne hq _

end Staged

end Preassembler.Files.Tree
