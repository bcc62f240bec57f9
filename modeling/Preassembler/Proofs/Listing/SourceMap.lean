import Preassembler.Proofs.Listing.Provenance

/-! Numbers in listings.

The last stage turns statements into lines of the listing, one for each instruction. `Listed` says
which: it depends on the statements and the logical lines they come from, and on nothing else
(`Stage.resolved_giveAll`). With the order of the statements this says all there is to say about
numbers, also for a run that fails on the way.

Main statement: numbers of the listing and of errors are those of the logical lines they come from
(`Pipeline.runAll_sourceMap`). -/
namespace Preassembler
open Text (ascii)
open Continuation (Group)

/-! ### The lines of the listing -/

/-- The label a statement declares, with its number, while it waits for an instruction. -/
def Shaped.pending (s : Shaped) : Label.Pending :=
  ⟨(Label.declared? s.text).getD [], s.group.first.no⟩

/-- The lines that statements come to, and the declaration that still waits behind them. Each
instruction makes one line, with the number of its own logical line, whether or not a label was
declared in front of it. -/
inductive Listed (width : Nat) : List Shaped → List Line → Option Shaped → Prop
  | nil : Listed width [] [] none
  | waiting {d : Shaped} {label : Text} (hd : Label.declared? d.text = some label) :
    Listed width [d] [] (some d)
  | plain {s : Shaped} {rest : List Shaped} {lines : List Line} {left : Option Shaped}
    (hs : Label.declared? s.text = none) (h : Listed width rest lines left) :
    Listed width (s :: rest) (⟨s.group.first.no, Label.render width [] s.text⟩ :: lines) left
  | labelled {d s : Shaped} {label : Text} {rest : List Shaped} {lines : List Line}
    {left : Option Shaped} (hd : Label.declared? d.text = some label)
    (hs : Label.declared? s.text = none) (h : Listed width rest lines left) :
    Listed width (d :: s :: rest)
      (⟨s.group.first.no, Label.render width label s.text⟩ :: lines) left

/-- The line of a declaration that no instruction follows. -/
def Shaped.dangling (width : Nat) (left : Option Shaped) : List Line :=
  left.toList.map fun d => Label.dangling width d.pending

theorem Listed.numbers {width : Nat} {shaped : List Shaped} {lines : List Line}
    {left : Option Shaped} (h : Listed width shaped lines left) :
    ((lines ++ Shaped.dangling width left).map Line.no).Sublist
      (shaped.map fun s => s.group.first.no) := by
  induction h with
  | nil => exact .slnil
  | waiting => exact .refl _
  | plain _ _ ih => exact ih.cons_cons _
  | labelled _ _ _ ih => exact (ih.cons_cons _).cons _

theorem Listed.numbers_lines {width : Nat} {shaped : List Shaped} {lines : List Line}
    {left : Option Shaped} (h : Listed width shaped lines left) :
    (lines.map Line.no).Sublist (shaped.map fun s => s.group.first.no) :=
  ((List.sublist_append_left lines _).map Line.no).trans h.numbers

/-- What resolving labels makes of statements: their lines, as far as it gets. -/
def Resolved (width : Nat) (shaped : List Shaped) (x : Emission (Chain 1)) : Prop :=
  match x.result with
  | .ok c => ∃ left, c = .single (.resolve width (left.map Shaped.pending)) ∧
      Listed width shaped x.lines left
  | .error e => ∃ front s back left, shaped = front ++ s :: back ∧ e.line = s.line ∧
      Listed width front x.lines left

theorem Resolved.cons {width : Nat} (more : List Shaped) {shaped : List Shaped}
    {x : Emission (Chain 1)} {l : Line}
    (hl : ∀ {shaped lines left}, Listed width shaped lines left →
      Listed width (more ++ shaped) (l :: lines) left)
    (h : Resolved width shaped x) : Resolved width (more ++ shaped) ⟨l :: x.lines, x.result⟩ := by
  unfold Resolved at *
  dsimp only
  split at h
  · obtain ⟨left, hc, hlisted⟩ := h
    exact ⟨left, hc, hl hlisted⟩
  · obtain ⟨front, s, back, left, rfl, he, hlisted⟩ := h
    exact ⟨more ++ front, s, back, left, (List.append_assoc ..).symm, he, hl hlisted⟩

namespace Stage
open Chain (single)

section
variable {width : Nat} {s d : Shaped} {label : Text}

theorem give_second (hs : Label.declared? s.text = some label) :
    (single (resolve width (some d.pending))).give 1 s.line =
      ⟨[], .error ⟨s.line, .labelTwice s.text d.pending.label⟩⟩ := by
  have htext : s.line.text = s.text := rfl
  refine Chain.give_of_refused ?_
  simp only [step, Label.resolve, htext, hs]

theorem give_long (hs : Label.declared? s.text = some label) (hwidth : width < label.length) :
    (single (resolve width none)).give 1 s.line =
      ⟨[], .error ⟨s.line, .labelTooLong label width⟩⟩ := by
  have htext : s.line.text = s.text := rfl
  refine Chain.give_of_refused ?_
  simp only [step, Label.resolve, htext, hs, hwidth, if_true]

theorem give_declaration (hs : Label.declared? s.text = some label)
    (hwidth : ¬ width < label.length) :
    (single (resolve width none)).give 1 s.line =
      ⟨[], .ok (single (resolve width (some s.pending)))⟩ := by
  have htext : s.line.text = s.text := rfl
  have hpending : (⟨label, s.line.no⟩ : Label.Pending) = s.pending := by
    rw [Shaped.pending, hs]
    rfl
  refine Chain.give_single (r := ⟨_, [], []⟩) ?_
  simp only [step, Label.resolve, htext, hs, hwidth, if_false, hpending]

theorem give_plain (hs : Label.declared? s.text = none) :
    (single (resolve width none)).give 1 s.line =
      ⟨[⟨s.group.first.no, Label.render width [] s.text⟩], .ok (single (resolve width none))⟩ := by
  have htext : s.line.text = s.text := rfl
  refine Chain.give_single (r := ⟨_, [], _⟩) ?_
  simp only [step, Label.resolve, htext, hs]
  rfl

theorem give_labelled (hd : Label.declared? d.text = some label)
    (hs : Label.declared? s.text = none) :
    (single (resolve width (some d.pending))).give 1 s.line =
      ⟨[⟨s.group.first.no, Label.render width label s.text⟩],
        .ok (single (resolve width none))⟩ := by
  have htext : s.line.text = s.text := rfl
  have hlabel : d.pending.label = label := by
    rw [Shaped.pending, hd]
    rfl
  refine Chain.give_single (r := ⟨_, [.labelResolved label s.line.no], _⟩) ?_
  simp only [step, Label.resolve, htext, hs, hlabel]
  rfl

end

/-- **Resolving labels lists statements.** -/
theorem resolved_giveAll (width : Nat) (left : Option Shaped)
    (hleft : ∀ d ∈ left, ∃ label, Label.declared? d.text = some label) (shaped : List Shaped) :
    Resolved width (left.toList ++ shaped)
      ((single (resolve width (left.map Shaped.pending))).giveAll (shaped.map Shaped.line)) := by
  induction shaped generalizing left with
  | nil =>
    refine ⟨left, rfl, ?_⟩
    cases left with
    | none => exact .nil
    | some d =>
      obtain ⟨label, hd⟩ := hleft d rfl
      exact .waiting hd
  | cons s rest ih =>
    rw [List.map_cons, Chain.giveAll_cons]
    cases left with
    | none =>
      rw [Option.map_none]
      cases hs : Label.declared? s.text with
      | none =>
        rw [give_plain hs, Emission.bind_of_ok rfl]
        exact Resolved.cons [s] (.plain hs) (ih none nofun)
      | some label =>
        by_cases hwidth : width < label.length
        · rw [give_long hs hwidth]
          exact ⟨[], s, rest, none, rfl, rfl, .nil⟩
        · rw [give_declaration hs hwidth, Emission.bind_of_ok rfl]
          exact ih (some s) fun d hd => ⟨label, Option.mem_some.1 hd ▸ hs⟩
    | some d =>
      obtain ⟨label, hd⟩ := hleft d rfl
      rw [Option.map_some]
      cases hs : Label.declared? s.text with
      | none =>
        rw [give_labelled hd hs, Emission.bind_of_ok rfl]
        exact Resolved.cons [d, s] (.labelled hd hs) (ih none nofun)
      | some label' =>
        rw [give_second hs]
        exact ⟨[d], s, rest, some d, rfl, rfl, .waiting hd⟩

end Stage

/-! ### Kinds of errors -/

/-- The words that messages of a kind begin with. -/
def Kind.wording : Kind → Text
  | invalidDirective => ascii "invalid directive"
  | invalidDefinition => ascii "invalid macro definition"
  | wrongArity => ascii "wrong number of macro arguments"
  | expansionTooDeep => ascii "macro expansion too deep"
  | labelTooLong => ascii "label too long"
  | duplicateLabel => ascii "multiple labels for the same line"
  | unterminatedComment => ascii "unterminated block comment"

theorem Kind.eq_of_wording_prefix (k k' : Kind) (h : k.wording <+: k'.wording) : k = k' := by
  revert h
  cases k <;> cases k' <;> decide

theorem Macro.Error.wording_kind (e : Error) : e.kind.wording <+: e.message := by
  cases e <;> simp only [kind, Kind.wording, message, List.append_assoc]
  all_goals exact List.IsPrefix.trans (by decide) (List.prefix_append _ _)

theorem Cause.wording_kind (c : Cause) : c.kind.wording <+: c.message := by
  cases c with
  | expansion e => exact e.wording_kind
  | openComment => exact List.prefix_rfl
  | _ =>
    simp only [kind, Kind.wording, message, List.append_assoc]
    exact List.IsPrefix.trans (by decide) (List.prefix_append _ _)

/-- A message tells the kind of its error. -/
theorem Cause.wording_prefix_iff (c : Cause) (k : Kind) :
    k.wording <+: c.message ↔ k = c.kind := by
  constructor
  · intro h
    rcases List.prefix_or_prefix_of_prefix h c.wording_kind with hle | hle
    · exact Kind.eq_of_wording_prefix _ _ hle
    · exact (Kind.eq_of_wording_prefix _ _ hle).symm
  · rintro rfl
    exact c.wording_kind

/-! ### Runs -/

namespace Pipeline
open Chain (single)
open Stage (resolve)

/-- The stages that turn logical lines into statements. -/
def shapingStages (p : Pipeline) : List Stage :=
  [.comments p.options.strictComments none, .labels, .trim, .macros p.engine, .statements, .trim,
    .fill] ++ (if p.options.numberRegisters then [.registers] else [])

/-- The statements of a source, and where they come from. -/
def shaped (p : Pipeline) (texts : List Text) : List Shaped :=
  (Chain.ofList p.shapingStages).shape (logicalLines texts)

/-- The width of the label field. -/
def width (p : Pipeline) : Nat := Label.effectiveWidth p.options.labelWidth

theorem whole_laterStages (p : Pipeline) (lines : List Line) :
    (Chain.ofList p.laterStages).whole lines =
      ((Chain.ofList p.shapingStages).append (single (resolve p.width none))).whole lines := by
  unfold laterStages shapingStages width
  cases p.options.numberRegisters <;> rfl

theorem carries_shapingStages (p : Pipeline) (P : Int → Prop) :
    (Chain.ofList p.shapingStages).Carries P := by
  refine Chain.carries_ofList fun s hs => ?_
  simp only [shapingStages, List.mem_append, List.mem_cons, List.mem_ite_nil_right,
    List.not_mem_nil, or_false] at hs
  obtain (rfl | rfl | rfl | rfl | rfl | rfl | rfl) | ⟨-, rfl⟩ := hs
  all_goals first | trivial | exact nofun

/-- An error that blames a logical line: the last one that any of the numbers belongs to, unless a
comment was left open. -/
structure Located (texts : List Text) (numbers : List Int) (e : LineError) : Prop where
  logical : ∃ g ∈ logicalLines texts, e.line.no = g.first.no
  latest : e.cause ≠ .openComment → ∀ no ∈ numbers, no ≤ e.line.no

theorem whole_shapingStages (p : Pipeline) (texts : List Text) :
    ∃ result, (Chain.ofList p.shapingStages).whole ((logicalLines texts).flatMap Group.joined) =
        ⟨(p.shaped texts).map Shaped.line, result⟩ ∧
      ∀ e, result = .error e →
        Located texts ((p.shaped texts).map fun s => s.group.first.no) e := by
  have hcarries := p.carries_shapingStages fun no => ∃ g ∈ logicalLines texts, no = g.first.no
  obtain ⟨hlines, hrest, hblames⟩ := Chain.giveAll_joined hcarries
    (fun g hg => ⟨g, hg, rfl⟩) (sorted_logicalLines texts)
  rw [Chain.whole]
  cases hresult : ((Chain.ofList p.shapingStages).giveAll
      ((logicalLines texts).flatMap Group.joined)).result with
  | error e =>
    refine ⟨.error e, ?_, fun e' he' => ?_⟩
    · rw [Emission.bind_of_error hresult, hlines]
      rfl
    · obtain rfl := Except.error.inj he'
      obtain ⟨hg, hle⟩ := hblames e hresult
      refine ⟨hg, fun _ no hno => ?_⟩
      obtain ⟨s, hs, rfl⟩ := List.mem_map.1 hno
      exact hle s hs
  | ok c =>
    have hc := hrest c hresult
    refine ⟨(c.empty _).result, ?_, fun e he => ?_⟩
    · rw [Emission.bind_of_ok hresult, hlines, Chain.lines_empty hc, List.append_nil]
      rfl
    · obtain ⟨hg, hcause⟩ := Chain.error_empty hc he
      exact ⟨hg, fun hne => absurd hcause hne⟩

theorem sorted_shaped (p : Pipeline) (texts : List Text) :
    (p.shaped texts).Pairwise fun s s' => s.group.first.no ≤ s'.group.first.no :=
  Chain.sorted_shape _ (sorted_logicalLines texts)

theorem empty_resolve (width : Nat) (left : Option Shaped) :
    (single (resolve width (left.map Shaped.pending))).empty 1 =
      ⟨Shaped.dangling width left, .ok ()⟩ := by
  cases left with
  | none => exact Chain.empty_single (r := ⟨_, [], []⟩) rfl
  | some d => exact Chain.empty_single (r := ⟨_, _, [Label.dangling width d.pending]⟩) rfl

/-- What a run lists, by its end. -/
theorem emission_shaped (p : Pipeline) (texts : List Text) :
    match (p.emission texts).result with
    | .ok () => ∃ lines left, Listed p.width (p.shaped texts) lines left ∧
        (p.emission texts).lines = lines ++ Shaped.dangling p.width left
    | .error e => Located texts ((p.emission texts).lines.map Line.no) e ∧
        ∃ front left, front <+: p.shaped texts ∧
          Listed p.width front (p.emission texts).lines left := by
  obtain ⟨result, hwhole, hlocated⟩ := p.whole_shapingStages texts
  have hresolved := Stage.resolved_giveAll p.width none nofun (p.shaped texts)
  rw [Option.toList_none, List.nil_append, Option.map_none, Resolved] at hresolved
  rw [emission_eq, whole_laterStages, Chain.whole_append, hwhole]
  cases hgive : ((single (resolve p.width none)).giveAll
      ((p.shaped texts).map Shaped.line)).result with
  | error e =>
    rw [hgive] at hresolved
    obtain ⟨front, s, back, left, hshaped, he, hlisted⟩ := hresolved
    rw [Emission.pipe, Emission.bind_of_error hgive, Emission.bind_of_error rfl]
    have hno : e.line.no = s.group.first.no := by rw [he]; rfl
    refine ⟨⟨⟨s.group, ?_, hno⟩, fun _ no hno' => ?_⟩, front, left, ?_, hlisted⟩
    · exact Chain.group_of_mem_shape (hshaped ▸ List.mem_append_right front List.mem_cons_self)
    · have hsorted := p.sorted_shaped texts
      rw [hshaped] at hsorted
      obtain ⟨s', hs', rfl⟩ := List.mem_map.1 (hlisted.numbers_lines.subset hno')
      rw [hno]
      exact (List.pairwise_append.1 hsorted).2.2 s' hs' s List.mem_cons_self
    · exact hshaped ▸ List.prefix_append front (s :: back)
  | ok d =>
    rw [hgive] at hresolved
    obtain ⟨left, rfl, hlisted⟩ := hresolved
    cases result with
    | error e =>
      rw [Emission.pipe_of_error rfl, Emission.bind_of_ok hgive, Emission.bind_of_error rfl,
        List.append_nil]
      obtain ⟨hlogical, hlatest⟩ := hlocated e rfl
      refine ⟨⟨hlogical, fun hcause no hno => ?_⟩, _, left, List.prefix_rfl, hlisted⟩
      exact hlatest hcause no (hlisted.numbers_lines.subset hno)
    | ok _ =>
      rw [Emission.pipe_of_ok rfl, Emission.bind_map, Emission.bind_of_ok hgive, empty_resolve]
      exact ⟨_, left, hlisted, rfl⟩

/-- What the numbers of a run say, of its lines and of the error it ends with. -/
structure SourceMap (p : Pipeline) (texts : List Text) (o : Outcome Unit) : Prop where
  /-- Numbers never decrease. -/
  sorted : (o.lines.map Line.no).Pairwise (· ≤ ·)
  /-- They are numbers of source lines. -/
  within : ∀ l ∈ o.lines, 1 ≤ l.no ∧ l.no ≤ texts.length
  /-- Every failure is about a source line and is of one kind, which its message tells. Unless a
  comment was left open, nothing listed before it comes from a later line. -/
  fault : ∀ f, o.result = .error f → ∃ e, f = .line e ∧ (1 ≤ e.line.no ∧ e.line.no ≤ texts.length) ∧
    (∀ k : Kind, k.wording <+: e.cause.message ↔ k = e.cause.kind) ∧
    (∃ g ∈ logicalLines texts, e.line.no = g.first.no) ∧
    (e.cause.kind ≠ .unterminatedComment → ∀ l ∈ o.lines, l.no ≤ e.line.no)
  /-- Without a failure the lines are those of all statements, under the number of the first part of
  the logical line that each instruction comes from; a label left over has the number of the logical
  line that declares it. -/
  origin : o.fault? = none → ∃ lines left, Listed p.width (p.shaped texts) lines left ∧
    o.lines = lines ++ Shaped.dangling p.width left
  /-- Before a failure they are those of the first statements. -/
  origin_of_fault : o.fault? ≠ none →
    ∃ front left, front <+: p.shaped texts ∧ Listed p.width front o.lines left

/-- Numbers of the listing are numbers of the statements' logical lines, in order. -/
theorem numbers_emission (p : Pipeline) (texts : List Text) :
    ((p.emission texts).lines.map Line.no).Sublist
      ((p.shaped texts).map fun s => s.group.first.no) := by
  have hshaped := p.emission_shaped texts
  cases hresult : (p.emission texts).result with
  | error e =>
    rw [hresult] at hshaped
    obtain ⟨-, front, left, hfront, hlisted⟩ := hshaped
    exact hlisted.numbers_lines.trans (hfront.sublist.map _)
  | ok _ =>
    rw [hresult] at hshaped
    obtain ⟨lines, left, hlisted, hlines⟩ := hshaped
    exact hlines ▸ hlisted.numbers

/-- **Numbers in a run are those of the source lines that its lines and its error come from.** -/
theorem runAll_sourceMap (p : Pipeline) (texts : List Text) :
    SourceMap p texts (p.runAll ⟨texts, none⟩) := by
  obtain ⟨hlines, hfault⟩ := p.result_runAll texts
  have hnumbers := p.numbers_emission texts
  have hshaped := p.emission_shaped texts
  rw [← hlines] at hnumbers hshaped
  refine ⟨?_, fun l hl => ?_, fun f hf => ?_, fun hnone => ?_, fun hsome => ?_⟩
  · refine List.Pairwise.sublist hnumbers ?_
    rw [List.pairwise_map]
    exact p.sorted_shaped texts
  · obtain ⟨s, hs, hno⟩ := List.mem_map.1 (hnumbers.subset (List.mem_map_of_mem hl))
    exact hno ▸ bounds_logicalLines (Chain.group_of_mem_shape hs)
  all_goals cases hresult : (p.emission texts).result <;> rw [hresult] at hfault hshaped
  · rw [Outcome.result, hfault] at hf
    obtain ⟨hlocated, -⟩ := hshaped
    obtain ⟨g, hg, hno⟩ := hlocated.logical
    refine ⟨_, (Except.error.inj hf).symm, hno ▸ bounds_logicalLines hg,
      fun k => Cause.wording_prefix_iff _ k, ⟨g, hg, hno⟩, fun hkind l hl => ?_⟩
    refine hlocated.latest ?_ l.no (List.mem_map_of_mem hl)
    rintro hopen
    exact hkind (hopen ▸ rfl)
  · rw [Outcome.result, hfault] at hf
    cases hf
  · cases hnone.symm.trans hfault
  · exact hshaped
  · exact hshaped.2
  · exact absurd hfault hsome

end Pipeline

end Preassembler
