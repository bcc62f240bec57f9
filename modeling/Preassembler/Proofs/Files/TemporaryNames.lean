import Preassembler.Files.Destination
import Preassembler.Proofs.Files.Staging
import Preassembler.Proofs.Text.Decimal

/-! Names of temporary files.

The temporary file of a destination is made in the directory of the destination, under a name that
holds the one of the destination and more. Where such a name can be followed, so can the path of the
destination, and the two lead to different places. Only the empty path, which leads nowhere, is
given a temporary file all the same.

Main statement: `Tree.locate_of_temporary`. -/
namespace Preassembler
open Text (ascii byte)
open Pathname (Location)

/-! ### Paths -/

namespace Text

theorem slash_not_mem_ofNat (n : Nat) : byte '/' ∉ ofNat n :=
  fun h => absurd (isDigit_ofNat n _ h) (by decide)

end Text

namespace Pathname

theorem parts_of_name {name : Text} (h : byte '/' ∉ name) : parts name = [name] :=
  List.splitOn_eq_singleton h

theorem parts_of_directory (dir : Text) {name : Text} (h : byte '/' ∉ name) :
    parts (dir ++ byte '/' :: name) = parts dir ++ [name] := by
  rw [parts, List.splitOn_append_cons_self, List.splitOn_eq_singleton h, parts]

theorem isAbsolute_of_name {name : Text} (h : byte '/' ∉ name) : isAbsolute name = false := by
  cases name with
  | nil => rfl
  | cons b name =>
    have hb : b ≠ byte '/' := fun heq => h (heq ▸ List.mem_cons_self)
    simpa [isAbsolute] using hb

theorem isAbsolute_of_directory (dir name : Text) :
    isAbsolute (dir ++ byte '/' :: name) = isAbsolute (dir ++ [byte '/']) := by
  cases dir <;> rfl

theorem split_of_name {path : Text} (h : byte '/' ∉ path) : split path = ([], path) := by
  rw [split, Text.cutLast?_eq_none_iff.2 h]

theorem split_of_directory (dir : Text) {name : Text} (h : byte '/' ∉ name) :
    split (dir ++ byte '/' :: name) = (dir ++ [byte '/'], name) := by
  rw [split, Text.cutLast?_eq_some_iff.2 ⟨rfl, h⟩]

/-- A path is a name, or a name behind a directory. -/
theorem name_or_directory (path : Text) :
    byte '/' ∉ path ∨ ∃ dir name, path = dir ++ byte '/' :: name ∧ byte '/' ∉ name := by
  cases hcut : Text.cutLast? (byte '/') path with
  | none => exact .inl (Text.cutLast?_eq_none_iff.1 hcut)
  | some p => exact .inr ⟨p.1, p.2, Text.cutLast?_eq_some_iff.1 hcut⟩

/-- A name of more than two bytes is no dot and no pair of dots. -/
theorem walk_of_long (place : Location) {name : Text} (h : 2 < name.length) :
    walk place name = place ++ [name] := by
  have hempty : name.isEmpty = false := by
    rw [List.isEmpty_eq_false_iff_exists_mem, ← List.length_pos_iff_exists_mem]
    omega
  have hdot : name ≠ [byte '.'] := fun heq => by simp [heq] at h
  have hdots : name ≠ [byte '.', byte '.'] := fun heq => by simp [heq] at h
  rw [walk, hempty, Bool.false_or, if_neg (by simpa using hdot), if_neg hdots]

theorem walk_ne {place : Location} {name label : Text} (h : name ≠ label) :
    walk place name ≠ place ++ [label] := by
  unfold walk
  split
  · simp
  · split
    · intro heq
      have := congrArg List.length heq
      simp at this
    · simpa using h

end Pathname

/-! ### Temporary names -/

namespace Files
open Pathname (parts isAbsolute)

/-- The name of a temporary file for a name. -/
def temporaryName (n : Nat) (name : Text) : Text :=
  byte '.' :: name ++ byte '.' :: Text.ofNat n ++ ascii ".tmp"

/-- The path of a temporary file for a path. -/
def temporaryPath (n : Nat) (path : Text) : Text :=
  Destination.temporaryFront path ++ Text.ofNat n ++ ascii ".tmp"

theorem length_temporaryName (n : Nat) (name : Text) :
    name.length + 6 ≤ (temporaryName n name).length := by
  have hback : (ascii ".tmp").length = 4 := by decide
  simp only [temporaryName, List.cons_append, List.length_cons, List.length_append, hback]
  omega

theorem slash_not_mem_temporaryName (n : Nat) {name : Text} (h : byte '/' ∉ name) :
    byte '/' ∉ temporaryName n name := by
  have hdot : byte '/' ≠ byte '.' := by decide
  have hback : byte '/' ∉ ascii ".tmp" := by decide
  simp only [temporaryName, List.cons_append, List.mem_cons, List.mem_append, not_or]
  exact ⟨hdot, ⟨h, hdot, Text.slash_not_mem_ofNat n⟩, hback⟩

theorem subset_temporaryName (n : Nat) (name : Text) : name ⊆ temporaryName n name := by
  intro b hb
  simp [temporaryName, hb]

/-- The temporary file of a name is in the working directory. -/
theorem temporaryPath_of_name (n : Nat) {path : Text} (h : byte '/' ∉ path) :
    temporaryPath n path = [byte '.'] ++ byte '/' :: temporaryName n path := by
  have hfront : Destination.temporaryFront path =
      byte '.' :: byte '/' :: byte '.' :: path ++ [byte '.'] := by
    rw [Destination.temporaryFront, Pathname.split_of_name h]
    rfl
  simp [temporaryPath, hfront, temporaryName]

theorem temporaryPath_of_directory (n : Nat) (dir : Text) {name : Text} (h : byte '/' ∉ name) :
    temporaryPath n (dir ++ byte '/' :: name) = dir ++ byte '/' :: temporaryName n name := by
  have hfront : Destination.temporaryFront (dir ++ byte '/' :: name) =
      dir ++ byte '/' :: byte '.' :: name ++ [byte '.'] := by
    rw [Destination.temporaryFront, Pathname.split_of_directory dir h]
    simp [Pathname.join]
  rw [temporaryPath, hfront]
  simp [temporaryName]

/-! ### Following them -/

namespace Tree
variable {t : Tree} {home place q : Location} {path : Text}

theorem locate_eq_ok_iff :
    t.locate home path = .ok place ↔ 0x00 ∉ path ∧ path ≠ [] ∧ path.length ≤ maxPath ∧
      (parts path).foldlM t.descend (if isAbsolute path then [] else home) = .ok place := by
  unfold locate
  split
  · rename_i hzero
    exact iff_of_false nofun fun h => h.1 (by simpa using hzero)
  · rename_i hzero
    split
    · rename_i hempty
      exact iff_of_false nofun fun h => h.2.1 (by simpa using hempty)
    · rename_i hempty
      split
      · rename_i hlong
        exact iff_of_false nofun fun h => Nat.not_lt.2 h.2.2.1 hlong
      · rename_i hlong
        have hmem : 0x00 ∉ path := by simpa using hzero
        have hne : path ≠ [] := by simpa using hempty
        exact ⟨fun h => ⟨hmem, hne, Nat.not_lt.1 hlong, h⟩, fun h => h.2.2.2⟩

theorem descend_eq_ok_iff {name : Text} :
    t.descend q name = .ok place ↔
      t.find? q = some .directory ∧ name.length ≤ maxName ∧ Pathname.walk q name = place := by
  unfold descend
  split
  · rename_i hnone
    rw [hnone]
    exact iff_of_false nofun fun h => nomatch h.1
  · rename_i hfile
    rw [hfile]
    exact iff_of_false nofun fun h => nomatch h.1
  · rename_i hdir
    split
    · rename_i hlong
      exact iff_of_false nofun fun h => Nat.not_lt.2 h.2.1 hlong
    · rename_i hshort
      rw [Except.ok.injEq]
      exact ⟨fun h => ⟨hdir, Nat.not_lt.1 hshort, h⟩, fun h => h.2.2⟩

theorem foldlM_descend_singleton (name : Text) :
    [name].foldlM t.descend q = t.descend q name := by
  rw [List.foldlM_cons]
  exact bind_pure _

theorem foldlM_descend_concat {names : List Text} {name : Text} :
    (names ++ [name]).foldlM t.descend q = .ok place ↔
      ∃ r, names.foldlM t.descend q = .ok r ∧ t.descend r name = .ok place := by
  rw [List.foldlM_append]
  cases names.foldlM t.descend q with
  | error c => exact iff_of_false nofun (by simp)
  | ok r =>
    show [name].foldlM t.descend r = _ ↔ _
    rw [foldlM_descend_singleton]
    simp

/-- A name is followed where its temporary name is, to another place. -/
theorem descend_of_temporaryName {n : Nat} {name : Text}
    (h : t.descend q (temporaryName n name) = .ok place) :
    ∃ target, t.descend q name = .ok target ∧ target ≠ place := by
  have hlonger := length_temporaryName n name
  obtain ⟨hdir, hlength, rfl⟩ := descend_eq_ok_iff.1 h
  have hlong : 2 < (temporaryName n name).length := by omega
  refine ⟨_, descend_eq_ok_iff.2 ⟨hdir, by omega, rfl⟩, ?_⟩
  rw [Pathname.walk_of_long q hlong]
  refine Pathname.walk_ne fun heq => ?_
  rw [← heq] at hlonger
  omega

/-- **Where a temporary name leads, the path leads to another place.** -/
theorem locate_of_temporary {n : Nat} (hpath : path ≠ [])
    (h : t.locate home (temporaryPath n path) = .ok place) :
    ∃ target, t.locate home path = .ok target ∧ target ≠ place := by
  rcases Pathname.name_or_directory path with hname | ⟨dir, name, rfl, hname⟩
  · have hlonger := length_temporaryName n path
    have hlabel := slash_not_mem_temporaryName n hname
    rw [temporaryPath_of_name n hname] at h
    obtain ⟨hzero, -, hlong, hfold⟩ := locate_eq_ok_iff.1 h
    rw [Pathname.parts_of_directory _ hlabel] at hfold
    obtain ⟨here, hdot, hlast⟩ := foldlM_descend_concat.1 hfold
    -- the dot in front leads back to the working directory
    have hhere : t.descend home [byte '.'] = .ok here :=
      (foldlM_descend_singleton [byte '.']).symm.trans hdot
    obtain ⟨-, -, rfl⟩ := descend_eq_ok_iff.1 hhere
    obtain ⟨target, htarget, hne⟩ := descend_of_temporaryName hlast
    refine ⟨target, locate_eq_ok_iff.2 ⟨fun hmem => hzero ?_, hpath, ?_, ?_⟩, hne⟩
    · simp [subset_temporaryName n path hmem]
    · simp only [List.length_append, List.length_cons] at hlong
      omega
    · rw [Pathname.parts_of_name hname, Pathname.isAbsolute_of_name hname]
      exact (foldlM_descend_singleton path).trans htarget
  · have hlonger := length_temporaryName n name
    have hlabel := slash_not_mem_temporaryName n hname
    rw [temporaryPath_of_directory n dir hname] at h
    obtain ⟨hzero, -, hlong, hfold⟩ := locate_eq_ok_iff.1 h
    rw [Pathname.parts_of_directory _ hlabel, Pathname.isAbsolute_of_directory] at hfold
    obtain ⟨q, hdir, hlast⟩ := foldlM_descend_concat.1 hfold
    obtain ⟨target, htarget, hne⟩ := descend_of_temporaryName hlast
    refine ⟨target, locate_eq_ok_iff.2 ⟨fun hmem => hzero ?_, hpath, ?_, ?_⟩, hne⟩
    · rcases List.mem_append.1 hmem with hdir | hlast
      · exact List.mem_append_left _ hdir
      · refine List.mem_append_right dir ?_
        exact List.cons_subset_cons (byte '/') (subset_temporaryName n name) hlast
    · rw [List.length_append, List.length_cons] at hlong ⊢
      omega
    · rw [Pathname.parts_of_directory dir hname, Pathname.isAbsolute_of_directory]
      exact foldlM_descend_concat.2 ⟨q, hdir, htarget⟩

end Tree

end Files

end Preassembler
