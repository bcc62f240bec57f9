import Preassembler.Proofs.Listing.LogicalLine
import Preassembler.Proofs.Pipeline.Invariants

/-! Where statements come from.

Between logical lines and the listing stand stages that make any number of lines of one, or none,
but never look ahead: whatever comes of a line has its number (`Chain.stays_giveAll`), and only an open
comment is remembered for longer. So it can be said of each statement which logical line it comes
from (`Chain.shape`).

Main statement: these stages give out the statements under the numbers of their logical lines, in
order, and blame a logical line that no statement is behind (`Chain.giveAll_joined`). -/
namespace Preassembler
open Continuation (Group groups goesOn attach)

/-! ### Numbers of logical lines -/

namespace Continuation

theorem firsts_sublist (r : List Group) : (r.map Group.first).Sublist (r.flatMap Group.lines) := by
  induction r with
  | nil => exact .slnil
  | cons g r ih =>
    exact List.Sublist.cons_cons g.first (ih.trans (List.sublist_append_right g.rest _))

end Continuation

namespace Stage

theorem numbers_present (lines : List Line) :
    ((lines.flatMap present).map Line.no).Sublist (lines.map Line.no) := by
  induction lines with
  | nil => exact .slnil
  | cons l rest ih =>
    rw [List.flatMap_cons, List.map_append, List.map_cons, present]
    split
    · exact ih.cons l.no
    · exact ih.cons_cons l.no

end Stage

namespace Flow

theorem bounds_of_mem_numberedFrom {count : Nat} {texts : List Text} {l : Line}
    (h : l ∈ numberedFrom count texts) : count < l.no ∧ l.no ≤ count + texts.length := by
  induction texts generalizing count with
  | nil => cases h
  | cons t rest ih =>
    rw [List.length_cons]
    rcases List.mem_cons.1 h with rfl | h
    · dsimp only
      omega
    · have := ih h
      omega

theorem sorted_numberedFrom (count : Nat) (texts : List Text) :
    (numberedFrom count texts).Pairwise fun l l' => l.no < l'.no := by
  induction texts generalizing count with
  | nil => exact .nil
  | cons t rest ih =>
    refine .cons (fun l hl => ?_) (ih (count + 1))
    have := bounds_of_mem_numberedFrom hl
    dsimp only
    omega

end Flow

namespace Pipeline

theorem numbers_logicalLines (texts : List Text) :
    ((logicalLines texts).map fun g => g.first.no).Sublist ((numbered texts).map Line.no) := by
  have hfirsts := Continuation.firsts_sublist (logicalLines texts)
  rw [logicalLines, Continuation.flatMap_groups] at hfirsts
  have hnumbers := (hfirsts.map Line.no).trans (Stage.numbers_present (numbered texts))
  rwa [List.map_map] at hnumbers

/-- Logical lines have increasing numbers. -/
theorem sorted_logicalLines (texts : List Text) :
    (logicalLines texts).Pairwise fun g g' => g.first.no < g'.first.no := by
  rw [← List.pairwise_map (R := (· < ·)) (f := fun g : Group => g.first.no)]
  refine List.Pairwise.sublist (numbers_logicalLines texts) ?_
  rw [List.pairwise_map, ← Flow.numberedFrom_zero]
  exact Flow.sorted_numberedFrom 0 texts

theorem bounds_logicalLines {texts : List Text} {g : Group} (h : g ∈ logicalLines texts) :
    1 ≤ g.first.no ∧ g.first.no ≤ texts.length := by
  have hmem := (numbers_logicalLines texts).subset (List.mem_map_of_mem h)
  obtain ⟨l, hl, hno⟩ := List.mem_map.1 hmem
  rw [← Flow.numberedFrom_zero] at hl
  have := Flow.bounds_of_mem_numberedFrom hl
  omega

end Pipeline

/-! ### Stages that keep numbers -/

/-- All that is given out, and the error, has the number `no`; a result satisfies `Q`. -/
structure Emission.Stays {α : Type} (no : Int) (Q : α → Prop) (x : Emission α) : Prop where
  lines : ∀ l ∈ x.lines, l.no = no
  ok : ∀ a, x.result = .ok a → Q a
  error : ∀ e, x.result = .error e → e.line.no = no

/-- A stage that gives out nothing but what comes of the line it takes; a comment may be open from a
line with a number that satisfies `P`. -/
def Stage.Carries (P : Int → Prop) : Stage → Prop
  | continuations _ => False
  | comments _ opened => ∀ l ∈ opened, P l.no
  | resolve _ _ => False
  | _ => True

namespace Stage
variable {P : Int → Prop} {s : Stage} {l : Line}

/-- A comment stays open from the line that opened it. -/
theorem eq_of_mem_step {opened : Option Line} {l' : Line} (h : l' ∈ (Comment.step opened l).1) :
    l' = opened.getD l := by
  have hstep : (Comment.step opened l).1 =
      if (Comment.strip opened.isSome l.text).2 then some (opened.getD l) else none := rfl
  rw [hstep, Option.mem_ite_none_right] at h
  exact (Option.mem_some.1 h.2).symm

theorem no_of_mem_split {l' : Line} (h : l' ∈ Label.split l) : l'.no = l.no := by
  unfold Label.split at h
  split at h
  · rw [List.mem_singleton.1 h]
  · rw [List.mem_singleton.1 h]
  · rcases List.mem_cons.1 h with rfl | h
    · rfl
    · rw [List.mem_singleton.1 h]

theorem Carries.step {r : Reply} (h : s.Carries P) (hl : P l.no) (hs : s.step l = .ok r) :
    r.stage.Carries P ∧ ∀ l' ∈ r.lines, l'.no = l.no := by
  cases s with
  | continuations => exact h.elim
  | resolve => exact h.elim
  | trim =>
    cases hs
    refine ⟨trivial, fun l' hl' => ?_⟩
    split at hl'
    · cases hl'
    · rw [List.mem_singleton.1 hl']
  | comments strict opened =>
    cases hs
    refine ⟨fun l' hl' => ?_, fun l' hl' => List.mem_singleton.1 hl' ▸ rfl⟩
    obtain rfl := eq_of_mem_step hl'
    cases opened with
    | none => exact hl
    | some first => exact h first rfl
  | labels =>
    cases hs
    exact ⟨trivial, fun l' hl' => no_of_mem_split hl'⟩
  | macros engine =>
    simp only [Stage.step] at hs
    split at hs <;> cases hs
    · exact ⟨trivial, fun l' hl' => absurd hl' List.not_mem_nil⟩
    · exact ⟨trivial, fun l' hl' => List.mem_singleton.1 hl' ▸ rfl⟩
  | statements =>
    cases hs
    refine ⟨trivial, fun l' hl' => ?_⟩
    obtain ⟨t, -, rfl⟩ := List.mem_map.1 hl'
    rfl
  | fill =>
    cases hs
    exact ⟨trivial, fun l' hl' => List.mem_singleton.1 hl' ▸ rfl⟩
  | registers =>
    cases hs
    exact ⟨trivial, fun l' hl' => List.mem_singleton.1 hl' ▸ rfl⟩

/-- Such a stage blames the line it takes. -/
theorem Carries.step_error {e : LineError} (h : s.Carries P) (hs : s.step l = .error e) :
    e.line.no = l.no := by
  cases s with
  | continuations => exact h.elim
  | resolve => exact h.elim
  | macros engine =>
    simp only [Stage.step] at hs
    split at hs <;> cases hs
    rfl
  | _ => cases hs

theorem Carries.flush {r : Reply} (h : s.Carries P) (hs : s.flush = .ok r) : r.lines = [] := by
  cases s with
  | continuations => exact h.elim
  | resolve => exact h.elim
  | comments strict opened =>
    simp only [Stage.flush] at hs
    cases hflush : Comment.flush strict opened <;> rw [hflush] at hs <;> cases hs
    rfl
  | _ => cases hs; rfl

/-- Whatever comes of lines with one number has this number. -/
theorem Carries.stepInvariant {no : Int} (hno : P no) :
    StepInvariant (Carries P) (fun l => l.no = no) fun e => e.line.no = no where
  step h hl hs := by
    obtain ⟨hstage, hlines⟩ := h.step (hl ▸ hno) hs
    exact ⟨hstage, fun l' hl' => (hlines l' hl').trans hl⟩
  step_error h hl hs := (h.step_error hs).trans hl

/-- At the end only an open comment can be an error, and it blames the line that opened it. -/
theorem Carries.flush_error {e : LineError} (h : s.Carries P) (hs : s.flush = .error e) :
    P e.line.no ∧ e.cause = .openComment := by
  cases s with
  | continuations => exact h.elim
  | resolve => exact h.elim
  | comments strict opened =>
    cases opened with
    | none => cases hs
    | some first =>
      cases strict <;> cases hs
      exact ⟨h first rfl, rfl⟩
  | _ => cases hs

end Stage

namespace Chain
variable {P : Int → Prop}

/-- A chain of such stages. -/
def Carries (P : Int → Prop) : {n : Nat} → Chain n → Prop
  | 0, _ => True
  | _ + 1, (s, c) => s.Carries P ∧ Carries P c

theorem carries_iff {n : Nat} {c : Chain n} : c.Carries P ↔ c.All (Stage.Carries P) := by
  induction n with
  | zero => exact Iff.rfl
  | succ n ih =>
    obtain ⟨s, c⟩ := c
    exact and_congr_right' ih

theorem carries_ofList {stages : List Stage} (h : ∀ s ∈ stages, s.Carries P) :
    (ofList stages).Carries P :=
  carries_iff.2 (all_ofList h)

theorem stays_giveAll {n : Nat} {c : Chain n} (h : c.Carries P) {no : Int} (hno : P no)
    {lines : List Line} (hlines : ∀ l ∈ lines, l.no = no) :
    (c.giveAll lines).Stays no (Carries P) := by
  have hgiven := (carries_iff.1 h).giveAll (Stage.Carries.stepInvariant hno) hlines
  exact ⟨hgiven.lines, fun c' hc' => carries_iff.2 (hgiven.ok c' hc'), hgiven.error⟩

/-- At the end of the input such a chain gives out nothing. -/
theorem lines_empty {n : Nat} {c : Chain n} (h : c.Carries P) : (c.empty n).lines = [] := by
  induction n with
  | zero => rfl
  | succ n ih =>
    obtain ⟨s, c⟩ := c
    cases hs : s.flush with
    | error e => exact congrArg Emission.lines (empty_of_refused (c := c) hs)
    | ok r =>
      have hempty : empty (n + 1) (s, c) = (c.giveAll r.lines).bind (empty n) := empty_of_flush hs
      have hnil : c.giveAll [] = ⟨[], .ok c⟩ := rfl
      rw [hempty, h.1.flush hs, hnil, Emission.bind_of_ok rfl]
      exact ih h.2

theorem error_empty {n : Nat} {c : Chain n} (h : c.Carries P) {e : LineError}
    (he : (c.empty n).result = .error e) : P e.line.no ∧ e.cause = .openComment := by
  induction n with
  | zero => cases he
  | succ n ih =>
    obtain ⟨s, c⟩ := c
    cases hs : s.flush with
    | error e' =>
      have hempty : empty (n + 1) (s, c) = ⟨[], .error e'⟩ := empty_of_refused hs
      rw [hempty] at he
      obtain rfl := Except.error.inj he
      exact h.1.flush_error hs
    | ok r =>
      have hempty : empty (n + 1) (s, c) = (c.giveAll r.lines).bind (empty n) := empty_of_flush hs
      have hnil : c.giveAll [] = ⟨[], .ok c⟩ := rfl
      rw [hempty, h.1.flush hs, hnil, Emission.bind_of_ok rfl] at he
      exact ih h.2 he

end Chain

/-! ### Statements and where they come from -/

/-- A statement, and the logical line it comes from. -/
structure Shaped where
  group : Group
  text : Text

/-- The statement as a line, with the number of the first part of its logical line. -/
def Shaped.line (s : Shaped) : Line := ⟨s.group.first.no, s.text⟩

/-- The statements a chain makes of logical lines, up to the first line that is refused. -/
def Chain.shape {n : Nat} (c : Chain n) : List Group → List Shaped
  | [] => []
  | g :: rest =>
    (c.giveAll g.joined).lines.map (fun l => ⟨g, l.text⟩) ++
      match (c.giveAll g.joined).result with
      | .ok c' => c'.shape rest
      | .error _ => []

/-- The error of a chain blames one of the logical lines, and no later one has statements. -/
def Blames (r : List Group) (shaped : List Shaped) (e : LineError) : Prop :=
  (∃ g ∈ r, e.line.no = g.first.no) ∧ ∀ s ∈ shaped, s.group.first.no ≤ e.line.no

namespace Chain
variable {P : Int → Prop} {n : Nat}

theorem group_of_mem_shape {c : Chain n} {r : List Group} {s : Shaped} (h : s ∈ c.shape r) :
    s.group ∈ r := by
  induction r generalizing c with
  | nil => cases h
  | cons g rest ih =>
    rw [shape] at h
    rcases List.mem_append.1 h with h | h
    · obtain ⟨l, -, rfl⟩ := List.mem_map.1 h
      exact List.mem_cons_self
    · split at h
      · exact List.mem_cons_of_mem g (ih h)
      · cases h

/-- Statements stand in the order of their logical lines. -/
theorem sorted_shape (c : Chain n) {r : List Group}
    (hr : r.Pairwise fun g g' => g.first.no < g'.first.no) :
    (c.shape r).Pairwise fun s s' => s.group.first.no ≤ s'.group.first.no := by
  induction r generalizing c with
  | nil => exact .nil
  | cons g rest ih =>
    rw [List.pairwise_cons] at hr
    rw [shape, List.pairwise_append, List.pairwise_map]
    refine ⟨List.pairwise_of_forall fun _ _ => le_refl _, ?_, fun s hs s' hs' => ?_⟩
    · split
      · exact ih _ hr.2
      · exact .nil
    · obtain ⟨l, -, rfl⟩ := List.mem_map.1 hs
      split at hs'
      · exact (hr.1 _ (group_of_mem_shape hs')).le
      · cases hs'

theorem no_of_mem_joined {g : Group} {l : Line} (h : l ∈ g.joined) : l.no = g.first.no := by
  unfold Group.joined at h
  split at h
  · cases h
  · rw [List.mem_singleton.1 h]
    rfl

/-- **A chain that keeps numbers gives out the statements under the numbers of their logical
lines.** -/
theorem giveAll_joined {c : Chain n} (hc : c.Carries P) {r : List Group}
    (hP : ∀ g ∈ r, P g.first.no) (hr : r.Pairwise fun g g' => g.first.no < g'.first.no) :
    (c.giveAll (r.flatMap Group.joined)).lines = (c.shape r).map Shaped.line ∧
      (∀ c', (c.giveAll (r.flatMap Group.joined)).result = .ok c' → c'.Carries P) ∧
      ∀ e, (c.giveAll (r.flatMap Group.joined)).result = .error e → Blames r (c.shape r) e := by
  induction r generalizing c with
  | nil => exact ⟨rfl, fun c' hc' => Except.ok.inj hc' ▸ hc, nofun⟩
  | cons g rest ih =>
    rw [List.pairwise_cons] at hr
    have hstays := stays_giveAll hc (hP g List.mem_cons_self) fun l hl => no_of_mem_joined hl
    have hfront : (c.giveAll g.joined).lines =
        ((c.giveAll g.joined).lines.map fun l => (⟨g, l.text⟩ : Shaped)).map Shaped.line := by
      rw [List.map_map]
      refine (List.map_id' _).symm.trans (List.map_congr_left fun l hl => ?_)
      exact congrArg (Line.mk · l.text) (hstays.lines l hl)
    rw [List.flatMap_cons, giveAll_append, shape]
    cases hresult : (c.giveAll g.joined).result with
    | error e =>
      rw [Emission.bind_of_error hresult]
      have hno : e.line.no = g.first.no := hstays.error e hresult
      refine ⟨by rw [List.append_nil, ← hfront], nofun, fun e' he' => ?_⟩
      obtain rfl := Except.error.inj he'
      refine ⟨⟨g, List.mem_cons_self, hno⟩, fun s hs => ?_⟩
      rw [List.append_nil] at hs
      obtain ⟨l, -, rfl⟩ := List.mem_map.1 hs
      exact hno.ge
    | ok c' =>
      rw [Emission.bind_of_ok hresult]
      obtain ⟨hlines, hcarries, hblames⟩ := ih (hstays.ok c' hresult)
        (fun g' hg' => hP g' (List.mem_cons_of_mem g hg')) hr.2
      refine ⟨by rw [List.map_append, ← hfront, hlines], hcarries, fun e he => ?_⟩
      obtain ⟨⟨g', hg', hno⟩, hle⟩ := hblames e he
      refine ⟨⟨g', List.mem_cons_of_mem g hg', hno⟩, fun s hs => ?_⟩
      rcases List.mem_append.1 hs with hs | hs
      · obtain ⟨l, -, rfl⟩ := List.mem_map.1 hs
        exact hno ▸ (hr.1 g' hg').le
      · exact hle s hs

end Chain

end Preassembler
