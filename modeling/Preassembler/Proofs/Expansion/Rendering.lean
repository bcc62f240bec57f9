import Preassembler.Proofs.Expansion.Functions
import Preassembler.Proofs.Expansion.Sweep

/-! What a template is filled to.

`Instance params args body u` says that `u` is the body with arguments in place of its parameters,
by the names that stand in the body and without looking at what was put in. The template of a body
is made of literals that may span several names, and of places found by index; filling it gives what
the relation says, piece by piece (`Function.instance_of_template`), and the relation allows nothing
else (`Instance.unique`).

Main statement: a function is rendered by putting all arguments in at once
(`Function.render_ofBody`). -/
namespace Preassembler.Macro

/-! ### Bodies with arguments put in -/

/-- A body with an argument in place of every name that is a parameter: the argument at the first
place where the parameter stands. A name has no further name bytes on either side. -/
inductive Instance (params args : List Text) : Text → Text → Prop where
  | nil : Instance params args [] []
  | byte {b t u} : isNameByte b = false → Instance params args t u →
      Instance params args (b :: t) (b :: u)
  | param {n t u a i} : isName n = true → Apart t → params.idxOf? n = some i → args[i]? = some a →
      Instance params args t u → Instance params args (n ++ t) (a ++ u)
  | name {n t u} : isName n = true → Apart t → n ∉ params → Instance params args t u →
      Instance params args (n ++ t) (n ++ u)

namespace Instance
variable {params args : List Text} {body t u v : Text}

theorem gap {gap : Text} (hgap : ∀ b ∈ gap, isNameByte b = false) (h : Instance params args t u) :
    Instance params args (gap ++ t) (gap ++ u) := by
  induction gap with
  | nil => exact h
  | cons b gap ih =>
    obtain ⟨hb, hrest⟩ := List.forall_mem_cons.1 hgap
    exact .byte hb (ih hrest)

/-- What is put in for a name. -/
def replacement (params args : List Text) (n : Text) : Text :=
  match params.idxOf? n with
  | some i => args.getD i []
  | none => n

theorem eq_substitute (h : Instance params args body u) :
    u = substitute (replacement params args) body := by
  induction h with
  | nil => exact (substitute_nil _).symm
  | byte hb _ ih => rw [substitute_byte _ hb, ih]
  | param hn ht hi ha _ ih =>
    rw [substitute_name _ hn ht, replacement, hi, ← ih]
    dsimp only
    rw [List.getD_eq_getElem?_getD, ha, Option.getD_some]
  | name hn ht hnone _ ih =>
    rw [substitute_name _ hn ht, replacement, List.idxOf?_eq_none_iff.2 hnone, ← ih]

/-- A body comes to one text only. -/
theorem unique (h : Instance params args body u) (h' : Instance params args body v) : u = v :=
  h.eq_substitute.trans h'.eq_substitute.symm

/-- A body is made of its own parameters. -/
theorem self (params : List Text) (body : Text) : Instance params params body body := by
  induction body using names_induction with
  | nil => exact .nil
  | gap b t hb ih => exact .byte hb ih
  | name n t hn ht ih =>
    cases hi : params.idxOf? n with
    | none => exact .name hn ht (List.idxOf?_eq_none_iff.1 hi) ih
    | some i =>
      obtain ⟨hlt, hget, -⟩ := List.idxOf?_eq_some_iff.1 hi
      have hself : params[i]? = some n := by rw [List.getElem?_eq_getElem hlt, hget]
      exact .param hn ht hi hself ih

end Instance

/-! ### Filling templates -/

namespace Fragment
variable {n : Nat} {args : List Text}

/-- The text of a fragment when there are enough arguments. -/
def put (args : List Text) : Fragment n → Text
  | literal t => t
  | param i => args.getD i.val []

theorem fill?_of_le (h : n ≤ args.length) (f : Fragment n) : f.fill? args = .ok (f.put args) := by
  cases f with
  | literal t => rfl
  | param i =>
    have hi : i.val < args.length := i.isLt.trans_le h
    rw [fill?, put, List.getD_eq_getElem?_getD, List.getElem?_eq_getElem hi]
    rfl

theorem flatMap_put_glue (f : Fragment n) (l : List (Fragment n)) :
    (glue f l).flatMap (put args) = f.put args ++ l.flatMap (put args) := by
  rcases f with a | i
  · rcases l with _ | ⟨b | j, r⟩ <;> simp [glue, put]
  · rw [glue_param, List.flatMap_cons]

theorem flatMap_put_lead (t : Text) (l : List (Fragment n)) :
    (lead t l).flatMap (put args) = t ++ l.flatMap (put args) := by
  by_cases ht : t = []
  · rw [ht, lead_nil, List.nil_append]
  · rw [lead_of_ne_nil ht, flatMap_put_glue, put]

end Fragment

namespace Function
variable {params args : List Text}

/-- A template finds every argument it asks for when there are enough. -/
theorem render?_of_le {f : Function} (h : f.params.length ≤ args.length) :
    f.render? args = .ok (f.template.flatMap (Fragment.put args)) := by
  have hfill : (Fragment.fill? args : Fragment f.params.length → _) =
      fun p => pure (p.put args) := funext (Fragment.fill?_of_le h)
  rw [render?, hfill, List.mapM_pure, List.flatMap_def]
  rfl

/-- The template of a body is filled to the body with the arguments put in. -/
theorem instance_of_template (h : params.length ≤ args.length) (body : Text) :
    Instance params args body ((templateOf params body).flatMap (Fragment.put args)) := by
  induction body using lexemes_induction with
  | gap gap hgap =>
    rw [templateOf_of_gap hgap, Fragment.flatMap_put_lead, List.flatMap_nil, List.append_nil]
    have hend : Instance params args (gap ++ []) (gap ++ []) := .gap hgap .nil
    rwa [List.append_nil] at hend
  | name gap name tail hgap hname htail ih =>
    rw [templateOf_next hgap hname htail, Fragment.flatMap_put_lead, Fragment.flatMap_put_glue]
    refine Instance.gap hgap ?_
    have hfirst : params.idxOf? name = (params.finIdxOf? name).map (·.val) :=
      List.idxOf?_eq_map_finIdxOf?_val
    cases hfind : params.finIdxOf? name with
    | none =>
      rw [hfind] at hfirst
      rw [Fragment.ofLexeme_of_not_find hfind]
      exact .name hname htail (List.idxOf?_eq_none_iff.1 hfirst) ih
    | some i =>
      rw [hfind] at hfirst
      rw [Fragment.ofLexeme_of_find hfind]
      have hi : i.val < args.length := i.isLt.trans_le h
      refine .param hname htail hfirst ?_ ih
      rw [Fragment.put, List.getD_eq_getElem?_getD, List.getElem?_eq_getElem hi, Option.getD_some]

/-- **Arguments are put in all at once.** With at least as many arguments as parameters a function
is rendered to its body with every name that is a parameter replaced by the argument at the first
place of the parameter; nothing is looked for in the arguments, and every other byte stays. The
parameters themselves give back the body. -/
theorem render_ofBody (params : List Text) (body : Text) {args : List Text}
    (h : params.length ≤ args.length) :
    (∃ u, (ofBody params body).render? args = .ok u) ∧
      (∀ u, (ofBody params body).render? args = .ok u ↔ Instance params args body u) ∧
      (∀ hlength : args.length = params.length,
        Instance params args body ((ofBody params body).render args hlength)) ∧
      (ofBody params body).render? params = .ok body := by
  have hrender : ∀ {args : List Text}, params.length ≤ args.length → ∀ u,
      (ofBody params body).render? args = .ok u ↔ Instance params args body u := by
    intro args h u
    have hinstance := instance_of_template h body
    have hput : (ofBody params body).render? args =
        .ok ((templateOf params body).flatMap (Fragment.put args)) := render?_of_le h
    rw [hput, Except.ok.injEq]
    exact ⟨fun heq => heq ▸ hinstance, hinstance.unique⟩
  refine ⟨⟨_, render?_of_le h⟩, hrender h, fun hlength => ?_, ?_⟩
  · exact (hrender h _).1 (render?_eq hlength)
  · exact (hrender le_rfl body).2 (.self params body)

open Text (ascii) in
/-- A parameter given twice, one that is no name, an argument that is a parameter itself, and one
argument too many. -/
theorem render_ofBody_twice :
    let params := [ascii "a", ascii "b", ascii "a", ascii "x-y"]
    let args := [ascii "b", ascii "(a)", ascii "Z", ascii "W", ascii "V"]
    params.length ≤ args.length ∧
      (ofBody params (ascii "a.b a,b;x-y_a a")).render? args = .ok (ascii "a.b b,(a);x-y_a b") ∧
      Instance params args (ascii "a.b a,b;x-y_a a") (ascii "a.b b,(a);x-y_a b") := by
  intro params args
  have h : params.length ≤ args.length := by decide
  have hrender : (ofBody params (ascii "a.b a,b;x-y_a a")).render? args =
      .ok (ascii "a.b b,(a);x-y_a b") := by
    cbv
  obtain ⟨-, hiff, -⟩ := render_ofBody params (ascii "a.b a,b;x-y_a a") h
  exact ⟨h, hrender, (hiff _).1 hrender⟩

end Function

end Preassembler.Macro
