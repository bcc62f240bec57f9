import Preassembler.Macro.Expansion.Order
import Preassembler.Macro.Expansion.Scan

/-! Expansion ends.

The text under expansion may grow with every step, and regions close early when a call runs past
their end, so neither length nor position nor depth goes down. What goes down is the profile of the
scan: for each `m`, the number of bytes ahead that lie in at most `m` open regions. Passing a name
lowers every place of the profile or keeps it, and the last one goes down. A replacement inside
exactly `m` regions keeps the places below `m`, because those regions end behind it, and lowers
place `m`: the replaced bytes are gone and the new ones lie in `m + 1` regions.

Main statement: a step takes a valid scan to a valid scan (`valid_step`) with a lexicographically
smaller profile (`less_step`). -/
namespace Preassembler.Macro

/-- Regions, innermost first, that lie inside each other with depths counting down to one. -/
def Nested : List Region → Prop
  | [] => True
  | r :: outer => (∀ o ∈ outer, o.after ≤ r.after) ∧ r.depth = outer.length + 1 ∧ Nested outer

theorem Nested.dropWhile {l : List Region} (h : Nested l) (p : Region → Bool) :
    Nested (l.dropWhile p) := by
  induction l with
  | nil => exact h
  | cons r outer ih =>
    rw [List.dropWhile_cons]
    split
    · exact ih h.2.2
    · exact h

theorem Nested.depthIn {l : List Region} (h : Nested l) : depthIn l = l.length + 1 := by
  cases l with
  | nil => rfl
  | cons r outer => simp [Macro.depthIn, h.2.1]

/-- Regions left after those that end before a place are closed reach beyond it. -/
theorem Nested.after_le {l : List Region} (h : Nested l) (n : Nat) :
    ∀ r ∈ l.dropWhile fun r => decide (n < r.after), r.after ≤ n := by
  induction l with
  | nil => simp
  | cons r outer ih =>
    rw [List.dropWhile_cons]
    split
    · exact ih h.2.2
    · rename_i hn
      intro o ho
      have hr : r.after ≤ n := by simpa using hn
      rcases List.mem_cons.1 ho with rfl | ho
      · exact hr
      · exact Nat.le_trans (h.1 o ho) hr

theorem lt_after_of_mem_takeWhile {l : List Region} {n : Nat} {r : Region}
    (h : r ∈ l.takeWhile fun r => decide (n < r.after)) : n < r.after := by
  induction l with
  | nil => simp at h
  | cons o outer ih =>
    rw [List.takeWhile_cons] at h
    split at h
    · rename_i ho
      rcases List.mem_cons.1 h with rfl | h
      · simpa using ho
      · exact ih h
    · simp at h

theorem dropWhile_dropWhile {α : Type} {p q : α → Bool} (h : ∀ a, p a = true → q a = true)
    (l : List α) : (l.dropWhile p).dropWhile q = l.dropWhile q := by
  induction l with
  | nil => rfl
  | cons a l ih =>
    by_cases hp : p a = true
    · simp [hp, h a hp, ih]
    · simp [List.dropWhile_cons, hp]

namespace Scan

/-- What holds of every scan of an expansion: the count of bytes ahead is right, and the open
regions are nested and within the limit. -/
structure Valid (limit : Nat) (s : Scan) : Prop where
  left_eq : s.left = s.rest.length
  nested : Nested s.opened
  within : s.opened.length ≤ limit

theorem valid_start (limit : Nat) (t : Text) : (start t).Valid limit := ⟨rfl, trivial, Nat.zero_le _⟩

/-- The number of bytes ahead that lie in at most `m` open regions. -/
def profile (s : Scan) (m : Nat) : Nat :=
  match s.opened.reverse[m]? with
  | some r => min s.left r.after
  | none => s.left

theorem gap_add_fromName (s : Scan) : s.gap.length + s.fromName.length = s.rest.length := by
  rw [← List.length_append]
  exact congrArg List.length (List.takeWhile_append_dropWhile)

theorem name_add_tail (s : Scan) : s.name.length + s.tail.length = s.fromName.length := by
  rw [← List.length_append]
  exact congrArg List.length (List.takeWhile_append_dropWhile)

theorem name_pos {s : Scan} (h : s.name.isEmpty = false) : 0 < s.name.length := by
  cases hn : s.name <;> simp_all

variable {limit : Nat} {s : Scan}

theorem Valid.ahead_eq (h : s.Valid limit) : s.ahead = s.fromName.length := by
  have := s.gap_add_fromName
  have := h.left_eq
  simp only [ahead]
  omega

/-! ### Passing a name -/

theorem Valid.pass (h : s.Valid limit) : s.pass.Valid limit where
  left_eq := by
    have := h.ahead_eq
    have := s.name_add_tail
    simp only [Scan.pass]
    omega
  nested := h.nested.dropWhile _
  within := Nat.le_trans (List.dropWhile_sublist _).length_le h.within

theorem profile_pass_le (h : s.Valid limit) (hn : 0 < s.name.length) (m : Nat) :
    s.pass.profile m ≤ s.profile m := by
  have ha := h.ahead_eq
  have hg := s.gap_add_fromName
  have hl := h.left_eq
  have ht := s.name_add_tail
  have hsplit := congrArg List.reverse
    (List.takeWhile_append_dropWhile (p := fun r : Region => decide (s.ahead ≤ r.after)) (l := s.opened))
  rw [List.reverse_append] at hsplit
  simp only [profile, Scan.pass, around]
  rw [← hsplit, List.getElem?_append]
  by_cases hm : m < (s.opened.dropWhile fun r => decide (s.ahead ≤ r.after)).reverse.length
  · rw [if_pos hm, List.getElem?_eq_getElem hm]
    simp only
    omega
  · rw [if_neg hm, List.getElem?_eq_none (by omega)]
    simp only
    split
    · rename_i r hr
      have hr := List.mem_reverse.1 (List.mem_of_getElem? hr)
      have : s.ahead ≤ r.after := by
        have := List.all_takeWhile (l := s.opened) (p := fun r : Region => decide (s.ahead ≤ r.after))
        simpa using List.all_eq_true.1 this r hr
      omega
    · omega

theorem less_pass (h : s.Valid limit) (hn : s.name.isEmpty = false) :
    Places.Less (limit + 1) s.pass.profile s.profile := by
  have hpos := name_pos hn
  refine Places.Less.of_le (profile_pass_le h hpos) limit (Nat.lt_succ_self _) ?_
  have ha := h.ahead_eq
  have hg := s.gap_add_fromName
  have hl := h.left_eq
  have ht := s.name_add_tail
  have h₁ : s.opened.reverse[limit]? = none :=
    List.getElem?_eq_none (by simpa using h.within)
  have h₂ : s.around.reverse[limit]? = none :=
    List.getElem?_eq_none (by simpa [Scan.pass] using h.pass.within)
  simp only [profile, h₁, h₂, Scan.pass]
  omega

/-! ### Replacing an invocation -/

/-- The regions around an invocation are those that end behind it. -/
theorem outer_eq {after : Nat} (h : after < s.ahead) :
    (s.around.dropWhile fun r => decide (after < r.after)) =
      s.opened.dropWhile fun r => decide (after < r.after) :=
  dropWhile_dropWhile (fun r hr => by simp at hr ⊢; omega) _

theorem Valid.replace (h : s.Valid limit) {size : Nat} {text rest : Text} {s' : Scan}
    (hsize : size + rest.length = s.tail.length) (hs : s.replace limit size text rest = .next s') :
    s'.Valid limit := by
  have ha := h.ahead_eq
  have ht := s.name_add_tail
  have hn : Nested (s.around.dropWhile fun r => decide (s.ahead - s.name.length - size < r.after)) :=
    (h.nested.dropWhile _).dropWhile _
  have hle := (h.nested.dropWhile fun r => decide (s.ahead ≤ r.after)).after_le
    (s.ahead - s.name.length - size)
  unfold Scan.replace at hs
  dsimp only at hs
  split at hs
  · cases hs
  · rename_i hd
    rw [hn.depthIn] at hd
    cases hs
    refine ⟨?_, ⟨hle, hn.depthIn, hn⟩, ?_⟩
    · simp only [List.length_append]
      omega
    · simp only [List.length_cons]
      omega

theorem less_replace (h : s.Valid limit) {size : Nat} {text rest : Text} {s' : Scan}
    (hn : s.name.isEmpty = false) (hsize : size + rest.length = s.tail.length)
    (hs : s.replace limit size text rest = .next s') :
    Places.Less (limit + 1) s'.profile s.profile := by
  have hpos := name_pos hn
  have ha := h.ahead_eq
  have hg := s.gap_add_fromName
  have hl := h.left_eq
  have ht := s.name_add_tail
  have hvalid := h.replace hsize hs
  unfold Scan.replace at hs
  dsimp only at hs
  split at hs
  · cases hs
  · cases hs
    generalize hafter : s.ahead - s.name.length - size = after at hvalid ⊢
    have hlt : after < s.ahead := by omega
    rw [outer_eq hlt] at hvalid ⊢
    have hle := h.nested.after_le after
    generalize hd : depthIn _ = depth at hvalid ⊢
    have hsplit := congrArg List.reverse
      (List.takeWhile_append_dropWhile (p := fun r : Region => decide (after < r.after)) (l := s.opened))
    rw [List.reverse_append] at hsplit
    have hwithin := hvalid.within
    generalize hout : (s.opened.dropWhile fun r => decide (after < r.after)) = outer at *
    simp only [List.length_cons] at hwithin
    refine ⟨outer.length, by omega, ?_, fun i hi => ?_⟩
    · have hleft : after < s.left := by omega
      have hnew : (⟨after, depth⟩ :: outer).reverse[outer.length]? = some ⟨after, depth⟩ := by
        simp
      simp only [profile, hnew]
      rw [← hsplit, List.getElem?_append_right (by simp)]
      simp only [List.length_reverse, Nat.sub_self]
      split
      · rename_i r hr
        have := lt_after_of_mem_takeWhile (List.mem_reverse.1 (List.mem_of_getElem? hr))
        omega
      · omega
    · have hi' : i < outer.reverse.length := by simpa using hi
      have hold : s.opened.reverse[i]? = outer.reverse[i]? := by
        rw [← hsplit, List.getElem?_append_left hi']
      have hnew : (⟨after, depth⟩ :: outer).reverse[i]? = outer.reverse[i]? := by
        rw [List.reverse_cons, List.getElem?_append_left hi']
      simp only [profile, hold, hnew]
      rw [List.getElem?_eq_getElem hi']
      have := hle _ (List.mem_reverse.1 (List.getElem_mem hi'))
      simp only
      omega

/-! ### Steps -/

theorem valid_step {table : Table} {s' : Scan} (h : s.Valid limit)
    (hs : s.step table limit = .next s') : s'.Valid limit := by
  unfold step at hs
  split at hs
  · cases hs
  · split at hs
    · cases hs
      exact h.pass
    · cases hs
    · rename_i hr
      exact h.replace (Table.size_add_length_of_read hr) hs

theorem less_step {table : Table} {s' : Scan} (h : s.Valid limit)
    (hs : s.step table limit = .next s') : Places.Less (limit + 1) s'.profile s.profile := by
  unfold step at hs
  split at hs
  · cases hs
  · rename_i hn
    have hn : s.name.isEmpty = false := by simpa using hn
    split at hs
    · cases hs
      exact less_pass h hn
    · cases hs
    · rename_i hr
      exact less_replace h hn (Table.size_add_length_of_read hr) hs

end Scan

end Preassembler.Macro
