import Preassembler.Pipeline.Options
import Preassembler.Proofs.Expansion.Calls
import Preassembler.Proofs.Expansion.Definitions
import Preassembler.Proofs.Expansion.Returns
import Preassembler.Proofs.Text.WhiteSpace

/-! Bytes that macros bring in.

Expansion puts together what it finds: bytes of the text, and bytes of the macros. So a byte that is
neither in the text nor in any macro is not in the expansion (`Table.Lacks.expand`), and a
definition that is written without the byte leads to macros that lack it, too
(`Engine.Lacks.define`).

Main statement: of a line without a byte, an engine whose macros lack it makes code without the
byte, or an engine whose macros lack it (`Engine.Lacks.process`). -/
namespace Preassembler

/-! ### Parts of a text -/

namespace Macro
open Text (byte)
variable {b : UInt8}

theorem subset_of_mem_arguments {t a : Text} (h : a ∈ arguments t) : a ⊆ t :=
  Text.subset_of_mem_splitOnP (List.mem_filter.1 h).1

/-- The arguments of a call and what follows it are parts of the text. -/
theorem subset_of_callAt? {t : Text} {c : Call} (h : callAt? t = some c) :
    (∀ a ∈ c.args, a ⊆ t) ∧ c.rest ⊆ t := by
  obtain ⟨gap, inner, hlist, hargs, -⟩ := encloses_of_callAt? h
  have hinner : inner ⊆ t := by
    rw [hlist.text_eq]
    exact fun x hx => by simp [hx]
  refine ⟨fun a ha => ?_, ?_⟩
  · rw [hargs] at ha
    exact List.Subset.trans (subset_of_mem_arguments ha) hinner
  · rw [hlist.eq_callList]
    exact List.subset_append_right _ _

/-! ### Macros -/

/-- Whether a fragment holds no such byte of its own. -/
def Fragment.Lacks (b : UInt8) {n : Nat} : Fragment n → Prop
  | literal t => b ∉ t
  | param _ => True

/-- Whether what a name stands for holds no such byte of its own. -/
def Definition.Lacks (b : UInt8) : Definition → Prop
  | value t => b ∉ t
  | function f => ∀ fragment ∈ f.template, fragment.Lacks b

/-- Whether no macro holds such a byte. -/
def Table.Lacks (b : UInt8) (table : Table) : Prop :=
  ∀ n d, table.find? n = some d → d.Lacks b

theorem lacks_glue {n : Nat} {fragment : Fragment n} {template : List (Fragment n)}
    (hfragment : fragment.Lacks b) (htemplate : ∀ g ∈ template, g.Lacks b) :
    ∀ g ∈ fragment.glue template, g.Lacks b := by
  unfold Fragment.glue
  split
  · rw [List.forall_mem_cons] at htemplate ⊢
    refine ⟨fun hmem => ?_, htemplate.2⟩
    rcases List.mem_append.1 hmem with hmem | hmem
    · exact hfragment hmem
    · exact htemplate.1 hmem
  · exact List.forall_mem_cons.2 ⟨hfragment, htemplate⟩

/-- The template of a body holds the bytes of the body only. -/
theorem lacks_ofBody {body : Text} (h : b ∉ body) (params : List Text) :
    (Definition.function (.ofBody params body)).Lacks b := by
  have hlexemes : ∀ l ∈ lexemes body, b ∉ l.text := by
    intro l hl hmem
    refine h ?_
    rw [← text_lexemes body]
    exact List.mem_flatMap.2 ⟨l, hl, hmem⟩
  show ∀ g ∈ (lexemes body).foldr (fun l => Fragment.glue (.ofLexeme params l)) [], g.Lacks b
  generalize lexemes body = list at hlexemes
  induction list with
  | nil => exact nofun
  | cons l rest ih =>
    rw [List.forall_mem_cons] at hlexemes
    refine lacks_glue ?_ (ih hlexemes.2)
    cases l with
    | gap t => exact hlexemes.1
    | name t =>
      rw [Fragment.ofLexeme]
      split
      · trivial
      · exact hlexemes.1

theorem not_mem_render {f : Function} (hf : (Definition.function f).Lacks b) {args : List Text}
    (hargs : ∀ a ∈ args, b ∉ a) (hlength : args.length = f.params.length) :
    b ∉ f.render args hlength := by
  intro hmem
  obtain ⟨t, ht, hmem⟩ := List.mem_flatten.1 hmem
  obtain ⟨fragment, hfragment, rfl⟩ := List.mem_map.1 ht
  cases fragment with
  | literal t => exact hf _ hfragment hmem
  | param i => exact hargs _ (List.get_mem _ _) hmem

/-! ### Expansion -/

namespace Table.Lacks
variable {table : Table}

/-- An invocation stands for a text without the byte. -/
theorem read (h : table.Lacks b) {name tail text rest : Text} {size : Nat} (htail : b ∉ tail)
    (hread : table.read name tail = .invocation size text rest) : b ∉ text ∧ b ∉ rest := by
  unfold Table.read at hread
  split at hread
  · cases hread
  · rename_i hfind
    cases hread
    exact ⟨h _ _ hfind, htail⟩
  · rename_i f hfind
    split at hread
    · cases hread
    · rename_i call hcall
      obtain ⟨hargs, hrest⟩ := subset_of_callAt? hcall
      split at hread
      · cases hread
        exact ⟨not_mem_render (h _ _ hfind) (fun a ha hmem => htail (hargs a ha hmem)) _,
          fun hmem => htail (hrest hmem)⟩
      · cases hread

/-- No step of the scan brings the byte in. -/
theorem step (h : table.Lacks b) {limit : Nat} {s s' : Scan} (hs : b ∉ s.text)
    (hstep : s.step table limit = .next s') : b ∉ s'.text := by
  cases Scan.step_of_eq hstep with
  | pass => rwa [Scan.text_pass]
  | put _ hread =>
    rw [Scan.text, ← s.rest_eq] at hs
    simp only [List.mem_append, not_or] at hs
    obtain ⟨hpassed, hgap, -, htail⟩ := hs
    obtain ⟨htext, hrest⟩ := h.read htail hread
    simpa [Scan.text, Scan.put, htext, hrest, hgap] using hpassed

theorem returns (h : table.Lacks b) {limit n : Nat} {s : Scan} {t : Text} (hs : b ∉ s.text)
    (hr : Returns (Scan.step table limit) n s (.ok t)) : b ∉ t := by
  generalize ho : Except.ok t = o at hr
  induction hr with
  | finished hstep =>
    obtain rfl := Except.ok.inj ho
    cases Scan.step_of_eq hstep
    exact hs
  | failed => cases ho
  | next hstep _ ih => exact ih (h.step hs hstep) ho

/-- **Expansion brings in no byte that is neither in the text nor in a macro.** -/
theorem expand (h : table.Lacks b) {limit : Nat} {t u : Text} (ht : b ∉ t)
    (hexpand : table.expand limit t = .ok u) : b ∉ u := by
  obtain ⟨n, hn⟩ := table.exists_returns_expand limit t
  rw [hexpand] at hn
  exact h.returns (s := .start t) ht hn

end Table.Lacks

/-! ### Definitions -/

namespace Engine

/-- Whether no macro of an engine holds such a byte. -/
def Lacks (b : UInt8) (e : Engine) : Prop := e.table.Lacks b

theorem lacks_new (b : UInt8) (limit : Int) : (new limit).Lacks b := nofun

/-- Whether a written definition holds no such byte in its body or text. -/
def Written.Lacks (b : UInt8) : Written → Prop
  | function _ _ body => b ∉ body
  | value _ text => b ∉ text

theorem Written.lacks_of_parse {t : Text} {w : Written} (ht : b ∉ t) (h : parse t = .ok w) :
    w.Lacks b := by
  have hrest : (t.trim.dropWhile isNameByte).dropWhile isGapByte ⊆ t :=
    ((List.dropWhile_sublist _).trans
      ((List.dropWhile_sublist _).trans (Text.trim_sublist t))).subset
  unfold parse at h
  dsimp only at h
  split at h
  · cases h
  · split at h
    · cases h
      exact List.not_mem_nil
    · rename_i c r hr
      rw [hr] at hrest
      split at h
      · split at h
        · cases h
        · rename_i inner after hcut
          obtain ⟨rfl, -⟩ := Text.cut?_eq_some_iff.1 hcut
          split at h
          · cases h
          · cases h
            intro hmem
            exact ht (hrest (by simp [(List.dropWhile_sublist _).subset hmem]))
      · cases h
        exact fun hmem => ht (hrest hmem)

/-- Whether a line came to code without such a byte, or to an engine whose macros lack it. -/
def Outcome.Lacks (b : UInt8) : Outcome → Prop
  | defined e => e.Lacks b
  | code t => b ∉ t

/-- Code is an expansion. -/
theorem expand_of_process {e : Engine} {line t : Text} (h : e.process line = .ok (.code t)) :
    e.expand line = .ok t := by
  unfold Engine.process at h
  split at h
  · cases hexpand : e.expand [] <;> rw [hexpand] at h <;> cases h
    rfl
  · split at h
    · split at h
      · rename_i r _ _ u _
        cases hdefine : e.define u <;> rw [hdefine] at h <;> cases h
      · cases h
    · rename_i c r _
      cases hexpand : e.expand (c :: r) <;> rw [hexpand] at h <;> cases h
      rfl

namespace Lacks
variable {e e' : Engine}

theorem bind (h : e.Lacks b) {d : Definition} (hd : d.Lacks b) (n : Text) :
    (e.bind n d).Lacks b := by
  intro m d' hfind
  rw [Engine.bind, Dictionary.find?_insert] at hfind
  split at hfind
  · exact Option.some.inj hfind ▸ hd
  · exact h m d' hfind

theorem defineValue (h : e.Lacks b) {n text : Text} (htext : b ∉ text)
    (hdefine : e.defineValue n text = .ok e') : e'.Lacks b := by
  obtain ⟨-, u, hexpand, rfl⟩ := defineValue_eq_ok_iff.1 hdefine
  have hu : b ∉ u := Table.Lacks.expand h htext hexpand
  exact h.bind (d := .value u) hu n

theorem define (h : e.Lacks b) {t n : Text} (ht : b ∉ t) (hdefine : e.define t = .ok (n, e')) :
    e'.Lacks b := by
  unfold Engine.define at hdefine
  split at hdefine
  · cases hdefine
  · rename_i hparse
    cases hdefine
    exact h.bind (lacks_ofBody (Written.lacks_of_parse ht hparse) _) _
  · rename_i n' text hparse
    cases hvalue : e.defineValue n' text with
    | error c =>
      rw [hvalue] at hdefine
      cases hdefine
    | ok e₁ =>
      rw [hvalue] at hdefine
      cases hdefine
      exact h.defineValue (Written.lacks_of_parse ht hparse) hvalue

/-- **Of a line without the byte comes code without it, or an engine whose macros lack it.** -/
theorem process (h : e.Lacks b) {line : Text} (hline : b ∉ line) {o : Outcome}
    (ho : e.process line = .ok o) : o.Lacks b := by
  cases o with
  | defined e' =>
    obtain ⟨t, n, rfl, hdefine⟩ := process_eq_defined_iff.1 ho
    exact h.define (fun hmem => hline (List.mem_append_right _ hmem)) hdefine
  | code t => exact Table.Lacks.expand h hline (expand_of_process ho)

end Lacks

end Engine

end Macro

/-! ### Predefined macros -/

namespace Options
open Macro (Engine)

theorem lacks_predefine {b : UInt8} {e e' : Engine} (h : e.Lacks b) {defs : List (Text × Text)}
    (hdefs : ∀ d ∈ defs, b ∉ d.2) (hpredefine : predefine e defs = .ok e') : e'.Lacks b := by
  induction defs generalizing e with
  | nil => exact Except.ok.inj hpredefine ▸ h
  | cons d defs ih =>
    rw [List.forall_mem_cons] at hdefs
    rw [predefine] at hpredefine
    split at hpredefine
    · rename_i e₁ hvalue
      exact ih (h.defineValue hdefs.1 hvalue) hdefs.2 hpredefine
    · cases hpredefine

end Options

end Preassembler
