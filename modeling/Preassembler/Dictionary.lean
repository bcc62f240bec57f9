import Preassembler.Text.Basic

/-! Dictionaries: values under texts, in the byte order of the keys.

Main statements: after an insertion the key has its new value and every other key the one it had
(`find?_insert`), and what can be found are the entries (`find?_eq_some_iff`). -/
namespace Preassembler

/-- Values under texts, sorted by key; every key occurs once. -/
structure Dictionary (β : Type) where
  entries : List (Text × β)
  sorted : entries.Pairwise fun a b => a.1 < b.1
  deriving DecidableEq, Repr

namespace Dictionary
variable {β : Type}

/-! ### Sorted entries -/

/-- The value under a key in a list of entries. -/
def seek (key : Text) : List (Text × β) → Option β
  | [] => none
  | (k, v) :: r => if key = k then some v else seek key r

/-- Puts a value into a sorted list of entries. -/
def place (key : Text) (v : β) : List (Text × β) → List (Text × β)
  | [] => [(key, v)]
  | (k, w) :: r =>
    if key = k then (k, v) :: r
    else if key < k then (key, v) :: (k, w) :: r
    else (k, w) :: place key v r

theorem key_of_mem_place {key : Text} {v : β} {l : List (Text × β)} {e : Text × β}
    (h : e ∈ place key v l) : e.1 = key ∨ e ∈ l := by
  fun_induction place key v l with
  | case1 => simp_all
  | case2 w r => grind
  | case3 k w r hk hlt => grind
  | case4 k w r hk hlt ih => grind

theorem sorted_place (key : Text) (v : β) {l : List (Text × β)}
    (h : l.Pairwise fun a b => a.1 < b.1) : (place key v l).Pairwise fun a b => a.1 < b.1 := by
  fun_induction place key v l with
  | case1 => exact List.pairwise_singleton _ _
  | case2 w r =>
    rw [List.pairwise_cons] at h ⊢
    exact h
  | case3 k w r hk hlt =>
    refine List.pairwise_cons.2 ⟨fun e he => ?_, h⟩
    rcases List.mem_cons.1 he with rfl | he
    · exact hlt
    · exact List.lt_trans hlt ((List.pairwise_cons.1 h).1 e he)
  | case4 k w r hk hlt ih =>
    rw [List.pairwise_cons] at h ⊢
    refine ⟨fun e he => ?_, ih h.2⟩
    rcases key_of_mem_place he with heq | he
    · exact heq ▸ Std.lt_of_le_of_ne (List.not_lt.1 hlt) (Ne.symm hk)
    · exact h.1 e he

/-! ### Operations -/

def empty : Dictionary β := ⟨[], List.Pairwise.nil⟩

def isEmpty (d : Dictionary β) : Bool := d.entries.isEmpty

/-- The value under a key. -/
def find? (d : Dictionary β) (key : Text) : Option β := seek key d.entries

/-- Puts a value under a key; the value it had is replaced. -/
def insert (d : Dictionary β) (key : Text) (v : β) : Dictionary β :=
  ⟨place key v d.entries, sorted_place key v d.sorted⟩

/-- The keys, in byte order. -/
def keys (d : Dictionary β) : List Text := d.entries.map (·.1)

/-- The dictionary of a list of pairs; the last value under a key counts. -/
def ofList (l : List (Text × β)) : Dictionary β := l.foldl (fun d (k, v) => d.insert k v) empty

/-! ### What can be found -/

theorem seek_place (key k : Text) (v : β) (l : List (Text × β)) :
    seek k (place key v l) = if k = key then some v else seek k l := by
  fun_induction place key v l with
  | case1 => simp [seek]
  | case2 w r => by_cases h : k = key <;> simp [seek, h]
  | case3 j w r hk hlt => by_cases h : k = key <;> simp [seek, h]
  | case4 j w r hk hlt ih =>
    by_cases h : k = key
    · subst h
      simp [seek, ih, hk]
    · simp [seek, ih, h]

@[simp]
theorem find?_empty (k : Text) : (empty : Dictionary β).find? k = none := rfl

/-- After an insertion the key has its new value and every other key the one it had. -/
theorem find?_insert (d : Dictionary β) (key k : Text) (v : β) :
    (d.insert key v).find? k = if k = key then some v else d.find? k :=
  seek_place key k v d.entries

theorem seek_eq_some_iff {l : List (Text × β)} (h : l.Pairwise fun a b => a.1 < b.1) {k : Text}
    {v : β} : seek k l = some v ↔ (k, v) ∈ l := by
  induction l with
  | nil => simp [seek]
  | cons e l ih =>
    obtain ⟨j, w⟩ := e
    rw [List.pairwise_cons] at h
    by_cases hk : k = j
    · subst hk
      have : (k, v) ∉ l := fun hm => List.lt_irrefl k (h.1 _ hm)
      simp [seek, this, eq_comm]
    · simp [seek, hk, ih h.2]

/-- A value is found under a key exactly if they are an entry. -/
theorem find?_eq_some_iff {d : Dictionary β} {k : Text} {v : β} :
    d.find? k = some v ↔ (k, v) ∈ d.entries := seek_eq_some_iff d.sorted

end Dictionary

end Preassembler
