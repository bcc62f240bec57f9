/-! The lexicographic order on the first places of two sequences of numbers.

Main statement: the order is well founded (`wellFounded`), however many places it compares. -/
namespace Preassembler.Macro.Places

/-- At the first of the places `0 … n - 1` where the sequences differ, `f` is the smaller one. -/
def Less (n : Nat) (f g : Nat → Nat) : Prop := ∃ m, m < n ∧ f m < g m ∧ ∀ i, i < m → f i = g i

/-- A sequence without its first place. -/
def tail (f : Nat → Nat) : Nat → Nat := fun i => f (i + 1)

theorem Less.head_or_tail {n : Nat} {f g : Nat → Nat} (h : Less (n + 1) f g) :
    f 0 < g 0 ∨ (f 0 = g 0 ∧ Less n (tail f) (tail g)) := by
  obtain ⟨m, hm, hlt, heq⟩ := h
  cases m with
  | zero => exact .inl hlt
  | succ m =>
    exact .inr ⟨heq 0 (by omega), m, by omega, hlt, fun i hi => heq (i + 1) (by omega)⟩

theorem wellFounded : (n : Nat) → WellFounded (Less n)
  | 0 => ⟨fun _ => ⟨_, fun _ ⟨_, hm, _⟩ => absurd hm (Nat.not_lt_zero _)⟩⟩
  | n + 1 => by
    let pairs := Prod.lex ⟨(· < ·), Nat.lt_wfRel.wf⟩ ⟨Less n, wellFounded n⟩
    refine Subrelation.wf (r := InvImage pairs.rel fun f => (f 0, tail f)) ?_ (InvImage.wf _ pairs.wf)
    intro f g h
    rcases h.head_or_tail with h | ⟨h₀, h⟩
    · exact Prod.Lex.left _ _ h
    · show Prod.Lex _ _ (f 0, tail f) (g 0, tail g)
      rw [h₀]
      exact Prod.Lex.right _ h

/-- A sequence that is nowhere larger and somewhere smaller comes before. -/
theorem Less.of_le {n : Nat} {f g : Nat → Nat} (hle : ∀ i, f i ≤ g i) :
    (m : Nat) → m < n → f m < g m → Less n f g := by
  intro m
  induction m using Nat.strongRecOn with
  | _ m ih =>
    intro hm hlt
    by_cases h : ∀ i, i < m → f i = g i
    · exact ⟨m, hm, hlt, h⟩
    · obtain ⟨i, hi, hne⟩ : ∃ i, i < m ∧ f i ≠ g i := by
        false_or_by_contra
        rename_i hno
        exact h fun i hi => Decidable.byContradiction fun hne => hno ⟨i, hi, hne⟩
      exact ih i hi (by omega) (Nat.lt_of_le_of_ne (hle i) hne)

end Preassembler.Macro.Places
