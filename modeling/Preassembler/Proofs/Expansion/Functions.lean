import Preassembler.Proofs.Expansion.Definitions
import Preassembler.Proofs.Expansion.Offsets

/-! Functions as definitions make them.

The text after `#define` is read by offsets, with a check of every cut, and so is the body that
becomes the template of a function. Text between two places of a template is taken over when the
second place is found, so it may span names that are no parameters; the template that is put
together name by name has the same literals, because neighbouring literals are glued.

Main statements: no check fails, and the definition and its template are those that `parse` and
`ofBody` give (`Written.parse?_eq`, `Function.ofBody?_eq`). A function that is defined takes at
least one parameter, and its template is neat (`Written.name_and_sound_of_parse`). -/
namespace Preassembler.Macro
open Text (byte)

/-! ### Neat templates -/

namespace Fragment
variable {n : Nat} {l : List (Fragment n)}

def isLiteral : Fragment n → Bool
  | literal _ => true
  | param _ => false

/-- A template without empty literals, in which no two literals are next to each other. -/
structure Neat (l : List (Fragment n)) : Prop where
  ne_nil : ∀ t, literal t ∈ l → t ≠ []
  apart : l.IsChain fun a b => ¬ (a.isLiteral = true ∧ b.isLiteral = true)

theorem neat_nil : Neat ([] : List (Fragment n)) := ⟨nofun, .nil⟩

theorem glue_param (i : Fin n) (l : List (Fragment n)) : glue (param i) l = param i :: l := by
  simp [glue]

/-- A fragment goes in front of a template that does not begin with one of its kind. -/
theorem Neat.cons (h : Neat l) {f : Fragment n} (hf : f ≠ literal [])
    (hhead : ∀ g ∈ l.head?, ¬ (f.isLiteral = true ∧ g.isLiteral = true)) : Neat (f :: l) where
  ne_nil := by
    rintro t ht rfl
    rcases List.mem_cons.1 ht with rfl | ht
    · exact hf rfl
    · exact h.ne_nil [] ht rfl
  apart := List.isChain_cons.2 ⟨hhead, h.apart⟩

theorem Neat.glue (h : Neat l) {f : Fragment n} (hf : f ≠ literal []) : Neat (f.glue l) := by
  rcases f with a | i
  · rcases l with _ | ⟨b | j, r⟩
    · exact h.cons hf nofun
    · have hchain := List.isChain_cons.1 h.apart
      have hr : Neat r := ⟨fun t ht => h.ne_nil t (List.mem_cons_of_mem _ ht), hchain.2⟩
      refine hr.cons (fun hnil => hf ?_) hchain.1
      rw [(List.append_eq_nil_iff.1 (literal.inj hnil)).1]
    · exact h.cons hf (by simp [isLiteral])
  · rw [glue_param]
    exact h.cons nofun (by simp [isLiteral])

/-- The place for the argument of a given index; there is none for an index out of range. -/
def place? (n i : Nat) : Option (Fragment n) := if h : i < n then some (param ⟨i, h⟩) else none

theorem place?_eq (i : Fin n) : place? n i = some (param i) := dif_pos i.isLt

theorem ofLexeme_of_find {params : List Text} {name : Text} {i : Fin params.length}
    (h : params.finIdxOf? name = some i) : ofLexeme params (.name name) = param i := by
  rw [ofLexeme, h]

theorem ofLexeme_of_not_find {params : List Text} {name : Text}
    (h : params.finIdxOf? name = none) : ofLexeme params (.name name) = literal name := by
  rw [ofLexeme, h]

theorem ofLexeme_ne_nil {params : List Text} {name : Text} (h : isName name = true) :
    ofLexeme params (.name name) ≠ literal [] := by
  cases hfind : params.finIdxOf? name with
  | some i =>
    rw [ofLexeme_of_find hfind]
    exact nofun
  | none =>
    rw [ofLexeme_of_not_find hfind]
    simpa using ne_nil_of_isName h

/-- Puts a text in front of a template, if it is not empty. -/
def lead (t : Text) (l : List (Fragment n)) : List (Fragment n) :=
  if t.isEmpty then l else glue (literal t) l

theorem lead_nil : lead [] l = l := rfl

theorem lead_of_ne_nil {t : Text} (h : t ≠ []) : lead t l = glue (literal t) l := by
  rw [lead, if_neg (by simpa using h)]

theorem Neat.lead (h : Neat l) (t : Text) : Neat (lead t l) := by
  cases t with
  | nil => exact h
  | cons b t => exact h.glue (by simp)

theorem lead_lead (a b : Text) : lead a (lead b l) = lead (a ++ b) l := by
  rcases a with _ | ⟨c, a⟩
  · rfl
  rcases b with _ | ⟨d, b⟩
  · rw [lead_nil, List.append_nil]
  · rcases l with _ | ⟨e | i, r⟩ <;> simp [lead, glue]

theorem lead_param (t : Text) (i : Fin n) :
    lead t (param i :: l) = (if t.isEmpty then [] else [literal t]) ++ param i :: l := by
  cases t <;> rfl

end Fragment

/-! ### Lexemes -/

/-- A text is a gap, or a name stands behind its first gap and apart from the rest. -/
@[elab_as_elim]
theorem lexemes_induction {motive : Text → Prop}
    (gap : ∀ gap, (∀ b ∈ gap, isNameByte b = false) → motive gap)
    (name : ∀ gap name tail, (∀ b ∈ gap, isNameByte b = false) → isName name = true → Apart tail →
      motive tail → motive (gap ++ (name ++ tail))) (t : Text) : motive t := by
  induction t using words_induction (!isNameByte ·) with
  | gap front hfront => exact gap front (by simpa using hfront)
  | word front word tail hfront hne hword htail ih =>
    have hname : isName word = true := by
      simpa [isName, hne] using hword
    exact name front word tail (by simpa using hfront) hname (by simpa [Apart] using htail) ih

theorem head_of_name {n : Text} (hn : isName n = true) (t : Text) :
    ∀ b ∈ (n ++ t).head?, isNameByte b = true := by
  intro b hb
  obtain ⟨c, n, rfl⟩ := List.exists_cons_of_ne_nil (ne_nil_of_isName hn)
  obtain rfl := Option.some.inj hb
  exact byte_of_isName hn List.mem_cons_self

theorem lexemes_name {n t : Text} (hn : isName n = true) (ht : Apart t) :
    lexemes (n ++ t) = .name n :: lexemes t := by
  obtain ⟨b, n, rfl⟩ := List.exists_cons_of_ne_nil (ne_nil_of_isName hn)
  have hrest : ∀ c ∈ n, isNameByte c = true := fun c hc =>
    byte_of_isName hn (List.mem_cons_of_mem b hc)
  rw [lexemes, List.cons_append, lexemesFrom, if_pos (byte_of_isName hn List.mem_cons_self),
    takeWhile_front hrest ht, dropWhile_front hrest ht, lexemesFrom_eq]
  rfl

theorem lexemes_gap {gap t : Text} (hne : gap ≠ []) (hgap : ∀ b ∈ gap, isNameByte b = false)
    (ht : ∀ b ∈ t.head?, isNameByte b = true) : lexemes (gap ++ t) = .gap gap :: lexemes t := by
  obtain ⟨b, gap, rfl⟩ := List.exists_cons_of_ne_nil hne
  have hrest : ∀ c ∈ gap, (!isNameByte c) = true := fun c hc => by
    simp [hgap c (List.mem_cons_of_mem b hc)]
  have hend : ∀ c ∈ t.head?, (!isNameByte c) = false := fun c hc => by simp [ht c hc]
  rw [lexemes, List.cons_append, lexemesFrom, if_neg (by simp [hgap b List.mem_cons_self]),
    takeWhile_front hrest hend, dropWhile_front hrest hend, lexemesFrom_eq]
  rfl

/-! ### Templates by offsets -/

namespace Function
variable {params : List Text}

/-- The template of a body. -/
def templateOf (params : List Text) (body : Text) : List (Fragment params.length) :=
  (ofBody params body).template

theorem templateOf_eq (params : List Text) (body : Text) : templateOf params body =
    (lexemes body).foldr (fun l => Fragment.glue (.ofLexeme params l)) [] := rfl

theorem templateOf_name {n t : Text} (hn : isName n = true) (ht : Apart t) :
    templateOf params (n ++ t) =
      (Fragment.ofLexeme params (.name n)).glue (templateOf params t) := by
  rw [templateOf_eq, lexemes_name hn ht, List.foldr_cons, ← templateOf_eq]

theorem templateOf_gap {gap t : Text} (hgap : ∀ b ∈ gap, isNameByte b = false)
    (ht : ∀ b ∈ t.head?, isNameByte b = true) :
    templateOf params (gap ++ t) = Fragment.lead gap (templateOf params t) := by
  by_cases hne : gap = []
  · rw [hne, List.nil_append, Fragment.lead_nil]
  · rw [Fragment.lead_of_ne_nil hne, templateOf_eq, lexemes_gap hne hgap ht, List.foldr_cons,
      ← templateOf_eq]
    rfl

theorem templateOf_of_gap {gap : Text} (hgap : ∀ b ∈ gap, isNameByte b = false) :
    templateOf params gap = Fragment.lead gap [] := by
  have hnil : templateOf params [] = [] := by
    rw [templateOf_eq, lexemes, lexemesFrom]
    rfl
  have hlead : templateOf params (gap ++ []) = Fragment.lead gap (templateOf params []) :=
    templateOf_gap hgap (by simp)
  rwa [List.append_nil, hnil] at hlead

/-- The template of a body with a name behind its first gap. -/
theorem templateOf_next {gap name tail : Text} (hgap : ∀ b ∈ gap, isNameByte b = false)
    (hname : isName name = true) (htail : Apart tail) :
    templateOf params (gap ++ (name ++ tail)) = Fragment.lead gap
      ((Fragment.ofLexeme params (.name name)).glue (templateOf params tail)) := by
  rw [templateOf_gap hgap (head_of_name hname tail), templateOf_name hname htail]

theorem neat_templateOf (params : List Text) (body : Text) :
    Fragment.Neat (templateOf params body) := by
  induction body using lexemes_induction with
  | gap gap hgap =>
    rw [templateOf_of_gap hgap]
    exact Fragment.neat_nil.lead gap
  | name gap name tail hgap hname htail ih =>
    rw [templateOf_next hgap hname htail]
    exact (ih.glue (Fragment.ofLexeme_ne_nil hname)).lead gap

/-- The bytes from one offset up to another as a literal, if there are any. -/
def literalFrom? {n : Nat} (t : Text) (start stop : Nat) : Option (List (Fragment n)) :=
  if start < stop then (t.slice? start stop).map ([.literal ·]) else some []

/-- The template of a body from an offset on. Names are looked for from `pos` on, and the text from
`last` on is not yet taken over. -/
def templateFrom? (params : List Text) (body : Text) (last pos : Nat) :
    Option (List (Fragment params.length)) :=
  match _h : nameFrom? body pos with
  | none => literalFrom? body last body.length
  | some (start, stop) => do
    let name ← body.slice? start stop
    match params.idxOf? name with
    | none => templateFrom? params body last stop
    | some i =>
      let literal ← literalFrom? body last start
      let place ← Fragment.place? params.length i
      let rest ← templateFrom? params body stop stop
      some (literal ++ place :: rest)
termination_by body.length - pos
decreasing_by
  all_goals
    have := nameFrom?_bounds _h
    omega

/-- The function with the given parameters whose body is `body`. -/
def ofBody? (params : List Text) (body : Text) : Option Function :=
  (templateFrom? params body 0 0).map (⟨params, ·⟩)

theorem literalFrom?_eq {n : Nat} {t x y z : Text} {start stop : Nat} (ht : t = x ++ (y ++ z))
    (hstart : start = x.length) (hstop : stop = x.length + y.length) :
    (literalFrom? t start stop : Option (List (Fragment n))) =
      some (if y.isEmpty then [] else [.literal y]) := by
  cases y with
  | nil => rw [literalFrom?, if_neg (by simp [hstart, hstop])]; rfl
  | cons b y =>
    have hlt : start < stop := by
      rw [hstart, hstop, List.length_cons]
      omega
    rw [literalFrom?, if_pos hlt, Text.slice?_eq ht hstart hstop]
    rfl

/-- The template is built by offsets as it is put together name by name. -/
theorem templateFrom?_eq {body x pending r : Text} {last pos : Nat}
    (hbody : body = x ++ pending ++ r) (hlast : last = x.length)
    (hpos : pos = (x ++ pending).length) :
    templateFrom? params body last pos = some (Fragment.lead pending (templateOf params r)) := by
  induction r using lexemes_induction generalizing x pending last pos with
  | gap gap hgap =>
    have hnone : nameFrom? body pos = none := nameFrom?_eq_none hbody hpos hgap
    have hbody' : body = x ++ ((pending ++ gap) ++ []) := by simp [hbody]
    have hend : body.length = x.length + (pending ++ gap).length := by simp [hbody']
    rw [templateFrom?]
    split
    · rw [literalFrom?_eq hbody' hlast hend, templateOf_of_gap hgap, Fragment.lead_lead]
      rfl
    · rename_i h
      cases hnone.symm.trans h
  | name gap name tail hgap hname htail ih =>
    have hsome : nameFrom? body pos = some (pos + gap.length, pos + gap.length + name.length) :=
      nameFrom?_eq_some hbody hpos hgap hname htail
    have hstart : pos + gap.length = (x ++ pending ++ gap).length := by
      rw [hpos, ← List.length_append]
    have hslice : body.slice? (pos + gap.length) (pos + gap.length + name.length) = some name :=
      Text.slice?_eq (by rw [hbody, List.append_assoc _ gap]) hstart (by rw [hstart])
    have hstop : pos + gap.length + name.length = (x ++ pending ++ gap ++ name).length := by
      rw [hstart, ← List.length_append]
    rw [templateFrom?]
    split
    · rename_i h
      cases hsome.symm.trans h
    · rename_i start stop h
      cases hsome.symm.trans h
      rw [hslice, Option.bind_eq_bind, Option.bind_some, templateOf_next hgap hname htail,
        List.idxOf?_eq_map_finIdxOf?_val]
      cases hfind : params.finIdxOf? name with
      | none =>
        -- The name is no parameter and stays with the text that is pending.
        rw [Fragment.ofLexeme_of_not_find hfind,
          ← Fragment.lead_of_ne_nil (ne_nil_of_isName hname), Fragment.lead_lead,
          Fragment.lead_lead]
        refine ih ?_ hlast ?_
        · simp [hbody]
        · simp [hstop]
      | some i =>
        have hliteral : literalFrom? body last (pos + gap.length) =
            some (if (pending ++ gap).isEmpty then [] else
              [(.literal (pending ++ gap) : Fragment params.length)]) := by
          refine literalFrom?_eq (z := name ++ tail) ?_ hlast ?_
          · simp [hbody]
          · simp [hstart]
        have hrest : templateFrom? params body (pos + gap.length + name.length)
            (pos + gap.length + name.length) =
              some (Fragment.lead [] (templateOf params tail)) := by
          refine ih ?_ hstop ?_
          · simp [hbody]
          · simp [hstop]
        rw [Option.map_some]
        dsimp only
        rw [hliteral, Fragment.place?_eq, hrest, Fragment.ofLexeme_of_find hfind,
          Fragment.lead_lead, Fragment.glue_param, Fragment.lead_param]
        rfl

theorem ofBody?_eq (params : List Text) (body : Text) :
    ofBody? params body = some (ofBody params body) := by
  have hbody : body = [] ++ [] ++ body := rfl
  have htemplate : templateFrom? params body 0 0 =
      some (Fragment.lead [] (templateOf params body)) := templateFrom?_eq hbody rfl rfl
  rw [ofBody?, htemplate]
  rfl

/-- What definitions make: at least one parameter, parameters as they can be written, and a neat
template with places for parameters only. -/
structure Sound (f : Function) : Prop where
  params_ne_nil : f.params ≠ []
  params : ∀ p ∈ f.params, IsArgument p
  places : ∀ i : Fin f.params.length, .param i ∈ f.template → i.val < f.params.length
  neat : Fragment.Neat f.template

theorem sound_ofBody {params : List Text} (hne : params ≠ []) (hparams : ∀ p ∈ params, IsArgument p)
    (body : Text) : (ofBody params body).Sound where
  params_ne_nil := hne
  params := hparams
  places i _ := i.isLt
  neat := neat_templateOf params body

end Function

/-! ### Written definitions -/

/-- The name at the front of the text after `#define`. -/
def definedName (t : Text) : Text := t.trim.takeWhile isNameByte

namespace Engine.Written

/-- What is read of a definition behind its name. -/
def ofName (name rest : Text) : Except Error Written :=
  match rest.dropWhile isGapByte with
  | [] => .ok (.value name [])
  | b :: r =>
    if b == byte '(' then
      match Text.cut? (byte ')') r with
      | none => .error (.openParameters name)
      | some (inner, after) =>
        let params := arguments inner
        if params.isEmpty then .error (.noParameters name)
        else .ok (.function name params (after.dropWhile isGapByte))
    else .ok (.value name (b :: r))

theorem parse_eq (t : Text) : parse t =
    if (definedName t).isEmpty then .error (.missingName t.trim)
    else ofName (definedName t) (t.trim.dropWhile isNameByte) := rfl

/-- A function that is described is sound. -/
def Sound : Written → Prop
  | function _ params body => (Function.ofBody params body).Sound
  | value _ _ => True

theorem name_and_sound_of_ofName {name rest : Text} {w : Written} (h : ofName name rest = .ok w) :
    w.name = name ∧ w.Sound := by
  unfold ofName at h
  split at h
  · cases h
    exact ⟨rfl, trivial⟩
  · split at h
    · split at h
      · cases h
      · rename_i inner after hcut
        dsimp only at h
        split at h
        · cases h
        · rename_i hne
          cases h
          have hclose : byte ')' ∉ inner := (Text.cut?_eq_some_iff.1 hcut).2
          exact ⟨rfl, Function.sound_ofBody (by simpa using hne)
            (fun p hp => isArgument_of_mem hclose hp) _⟩
    · cases h
      exact ⟨rfl, trivial⟩

/-- A definition binds the name at its front, and a function that it describes is sound. -/
theorem name_and_sound_of_parse {t : Text} {w : Written} (h : parse t = .ok w) :
    w.name = definedName t ∧ w.Sound := by
  rw [parse_eq] at h
  split at h
  · cases h
  · exact name_and_sound_of_ofName h

/-! ### Written definitions by offsets -/

/-- Reads what follows the name of a definition. -/
def ofName? (name rest : Text) : Option (Except Error Written) :=
  let i := skip isGapByte rest 0
  if rest[i]? = some (byte '(') then do
    let list ← rest.slice? i rest.length
    let closing := skip (· != byte ')') list 0
    if list.length ≤ closing then some (.error (.openParameters name))
    else
      let inner ← rest.slice? (i + 1) (i + closing)
      let params ← wordsFrom? inner 0
      if params.isEmpty then some (.error (.noParameters name))
      else
        let body ← rest.slice? (skip isGapByte rest (i + closing + 1)) rest.length
        some (.ok (.function name params body))
  else (rest.slice? i rest.length).map fun text => .ok (.value name text)

/-- Reads the text after `#define`. -/
def parse? (t : Text) : Option (Except Error Written) :=
  match nameFrom? t.trim 0 with
  | none => some (.error (.missingName t.trim))
  | some (start, stop) =>
    if start = 0 then do
      let name ← t.trim.slice? 0 stop
      let rest ← t.trim.slice? stop t.trim.length
      ofName? name rest
    else some (.error (.missingName t.trim))

theorem ofName?_eq (name rest : Text) : ofName? name rest = some (ofName name rest) := by
  obtain ⟨gap, tail, rfl, hgap, htail⟩ := exists_run isGapByte rest
  have hi : skip isGapByte (gap ++ tail) 0 = gap.length := skip_front hgap htail
  have htext : (gap ++ tail).slice? gap.length (gap ++ tail).length = some tail :=
    Text.slice?_rest rfl rfl
  have hget : (gap ++ tail)[gap.length]? = tail.head? := Text.getElem?_eq_head? rfl rfl
  rw [ofName?, ofName, hi, dropWhile_front hgap htail]
  dsimp only
  rw [htext]
  cases tail with
  | nil =>
    rw [if_neg (by simp)]
    rfl
  | cons b tail =>
    rw [List.head?_cons] at hget
    dsimp only
    by_cases hb : b = byte '('
    · subst hb
      obtain ⟨inner, behind, rfl, hinner, hbehind⟩ := exists_run (· != byte ')') tail
      have hclosing : skip (· != byte ')') (byte '(' :: (inner ++ behind)) 0 =
          inner.length + 1 := by
        have hlist : ∀ c ∈ byte '(' :: inner, (c != byte ')') = true :=
          List.forall_mem_cons.2 ⟨by decide, hinner⟩
        exact skip_front hlist hbehind
      rw [if_pos hget, if_pos (beq_self_eq_true _), Option.bind_eq_bind, Option.bind_some, hclosing,
        Text.cut?, dropWhile_front hinner hbehind, takeWhile_front hinner hbehind]
      cases behind with
      | nil => rw [if_pos (by simp)]
      | cons c after =>
        have hinside : gap ++ byte '(' :: (inner ++ c :: after) =
            gap ++ [byte '('] ++ (inner ++ c :: after) := by simp
        have hafter : gap ++ byte '(' :: (inner ++ c :: after) =
            gap ++ [byte '('] ++ inner ++ [c] ++ after := by simp
        have hplace : gap.length + (inner.length + 1) + 1 =
            (gap ++ [byte '('] ++ inner ++ [c]).length := by
          simp only [List.length_append, List.length_singleton]
          omega
        rw [if_neg (by simp), Text.slice?_eq hinside (by simp) (by simp; omega),
          slice?_skip hafter hplace]
        dsimp only [Option.bind_eq_bind, Option.bind_some]
        rw [wordsFrom?_zero, Option.bind_some]
        split <;> rfl
    · have hother : ¬ (gap ++ b :: tail)[gap.length]? = some (byte '(') := fun h =>
        hb (Option.some.inj (hget.symm.trans h))
      rw [if_neg hother, if_neg (by simpa using hb)]
      rfl

/-- The text after `#define` is read by offsets without a failing check. -/
theorem parse?_eq (t : Text) : parse? t = some (parse t) := by
  obtain ⟨name, rest, ht, hname, hrest⟩ := exists_run isNameByte t.trim
  rw [parse?, parse_eq, definedName, ht, takeWhile_front hname hrest, dropWhile_front hname hrest]
  by_cases hne : name = []
  · subst hne
    rw [List.nil_append]
    split
    · rfl
    · rename_i start stop h
      have hstart : start ≠ 0 := by
        rintro rfl
        exact nameFrom?_ne_of_apart hrest stop h
      rw [if_neg hstart]
      rfl
  · have hisName : isName name = true := by simpa [isName, hne] using hname
    have ht' : name ++ rest = [] ++ ([] ++ (name ++ rest)) := rfl
    have hfirst : nameFrom? (name ++ rest) 0 = some (0, 0 + name.length) :=
      nameFrom?_eq_some ht' rfl (by simp) hisName hrest
    have hslice : (name ++ rest).slice? 0 (0 + name.length) = some name :=
      Text.slice?_eq ht' rfl rfl
    have hlater : (name ++ rest).slice? (0 + name.length) (name ++ rest).length = some rest :=
      Text.slice?_rest rfl (Nat.zero_add _)
    rw [hfirst]
    dsimp only
    rw [if_pos rfl, hslice, hlater, if_neg (by simpa using hne)]
    exact ofName?_eq name rest

end Engine.Written

end Preassembler.Macro
