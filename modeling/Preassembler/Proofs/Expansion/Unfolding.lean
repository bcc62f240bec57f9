import Mathlib
import Preassembler.Line
import Preassembler.Proofs.Expansion.Calls
import Preassembler.Proofs.Expansion.Definitions
import Preassembler.Proofs.Expansion.Nesting

/-! What an invocation comes to.

An invocation that makes up a whole text is replaced in the first step, and from then on every byte
lies one level deeper than it would if its replacement had been the text. A draft whose levels are
all raised by one takes the same steps under a limit that is higher by one (`Draft.mirrors_raise`),
since the lowest level of some bytes goes up with them.

Main statement: an invocation under the next limit comes to the same as what it stands for under a
limit, and a call with the wrong number of arguments fails (`Engine.expand_unfolds`). -/
namespace Preassembler.Macro
open Leveled (bytes flat lowest)
open Text (byte)

/-! ### One level deeper -/

namespace Leveled

/-- Every byte one level deeper. -/
def raise (l : List Leveled) : List Leveled := l.map fun b => ⟨b.byte, b.level + 1⟩

theorem bytes_raise (l : List Leveled) : bytes (raise l) = bytes l := by
  rw [bytes, raise, List.map_map]
  rfl

theorem raise_flat (level : Nat) (t : Text) : raise (flat level t) = flat (level + 1) t := by
  rw [raise, flat, List.map_map]
  rfl

theorem lowest_mem {l : List Leveled} (h : l ≠ []) : ∃ b ∈ l, b.level = lowest l := by
  cases hmin : (l.map level).min? with
  | none => exact absurd (List.map_eq_nil_iff.1 (List.min?_eq_none_iff.1 hmin)) h
  | some k =>
    rw [lowest, hmin]
    exact List.mem_map.1 (List.min?_eq_some_iff.1 hmin).1

theorem lowest_le {l : List Leveled} {b : Leveled} (h : b ∈ l) : lowest l ≤ b.level := by
  have hmem : b.level ∈ l.map level := List.mem_map_of_mem h
  cases hmin : (l.map level).min? with
  | none =>
    rw [List.min?_eq_none_iff.1 hmin] at hmem
    cases hmem
  | some k =>
    rw [lowest, hmin]
    exact (List.min?_eq_some_iff.1 hmin).2 _ hmem

theorem lowest_raise {l : List Leveled} (h : l ≠ []) : lowest (raise l) = lowest l + 1 := by
  apply lowest_eq
  · obtain ⟨b, hb, hlevel⟩ := lowest_mem h
    exact ⟨_, List.mem_map_of_mem hb, congrArg (· + 1) hlevel⟩
  · intro b hb
    obtain ⟨c, hc, rfl⟩ := List.mem_map.1 hb
    exact Nat.succ_le_succ (lowest_le hc)

end Leveled

/-- Answers that are the same text, or errors of the same kind. -/
def SameOutcome (o p : Except Error Text) : Prop := o.mapError Error.kind = p.mapError Error.kind

namespace Draft
variable {table : Table} {limit : Nat}

/-- A draft with every byte one level deeper. -/
def raise (d : Draft) : Draft := ⟨Leveled.raise d.passed, Leveled.raise d.rest⟩

theorem gap_raise (d : Draft) : d.raise.gap = Leveled.raise d.gap := List.takeWhile_map

theorem fromName_raise (d : Draft) : d.raise.fromName = Leveled.raise d.fromName :=
  List.dropWhile_map

theorem name_raise (d : Draft) : d.raise.name = Leveled.raise d.name := by
  rw [name, fromName_raise]
  exact List.takeWhile_map

theorem tail_raise (d : Draft) : d.raise.tail = Leveled.raise d.tail := by
  rw [tail, fromName_raise]
  exact List.dropWhile_map

theorem levelAbove_raise {d : Draft} (h : d.name ≠ []) (size : Nat) :
    d.raise.levelAbove size = d.levelAbove size + 1 := by
  have hraise : d.raise.name ++ d.raise.tail.take size =
      Leveled.raise (d.name ++ d.tail.take size) := by
    rw [name_raise, tail_raise, Leveled.raise, Leveled.raise, Leveled.raise, ← List.map_take,
      ← List.map_append]
  rw [levelAbove, levelAbove, hraise, Leveled.lowest_raise (by simp [h])]

/-- One level deeper, under a limit that is higher by one, a draft takes the same steps. -/
theorem mirrors_raise (d : Draft) :
    Mirrors (fun d d' => d.raise = d') SameOutcome (d.step table limit)
      (d.raise.step table (limit + 1)) := by
  have hempty : d.raise.name.isEmpty = d.name.isEmpty := by
    rw [name_raise, Leveled.raise, List.isEmpty_map]
  unfold step
  rw [hempty, name_raise, Leveled.bytes_raise, tail_raise, Leveled.bytes_raise]
  by_cases hn : d.name.isEmpty = true
  · rw [if_pos hn, if_pos hn]
    have htext : bytes (d.raise.passed.reverse ++ d.raise.rest) =
        bytes (d.passed.reverse ++ d.rest) := by
      rw [← Leveled.bytes_raise (d.passed.reverse ++ d.rest)]
      simp [raise, Leveled.raise]
    rw [htext]
    exact .finished rfl
  · rw [if_neg hn, if_neg hn]
    have hne : d.name ≠ [] := by simpa using hn
    cases table.read (bytes d.name) (bytes d.tail) with
    | plain =>
      refine .next ?_
      rw [gap_raise]
      simp [raise, Leveled.raise]
    | mismatch expected given => exact .failed rfl
    | invocation size text rest =>
      simp only [levelAbove_raise hne, Nat.add_lt_add_iff_right]
      split
      · exact .failed rfl
      · refine .next ?_
        rw [gap_raise, ← Leveled.raise_flat]
        simp [raise, Leveled.raise]

/-! ### The first step -/

section First
variable {name tail : Text}

theorem cut_start (hname : isName name = true) (htail : Apart tail) :
    (start (name ++ tail)).gap = [] ∧ (start (name ++ tail)).name = flat 0 name ∧
      (start (name ++ tail)).tail = flat 0 tail := by
  apply cut_eq
  · simp [start, flat]
  · simp
  · simpa [flat] using ne_nil_of_isName hname
  · intro b hb
    exact byte_of_mem_flat hname hb
  · rwa [bytes_flat]

theorem step_of_mismatch (limit : Nat) (hname : isName name = true) (htail : Apart tail)
    {expected given : Nat} (hread : table.read name tail = .mismatch expected given) :
    (start (name ++ tail)).step table limit = .failed (.arity name expected given) := by
  obtain ⟨-, hfirst, hbehind⟩ := cut_start hname htail
  have hempty : (flat 0 name).isEmpty = false := by simpa [flat] using ne_nil_of_isName hname
  unfold step
  rw [hfirst, hbehind, bytes_flat, bytes_flat, hread, hempty]
  rfl

/-- An invocation that makes up the whole text is replaced. -/
theorem step_of_invocation (hname : isName name = true) (htail : Apart tail) {u : Text} {size : Nat}
    (hread : table.read name tail = .invocation size u []) :
    (start (name ++ tail)).step table (limit + 1) = .next (start u).raise := by
  obtain ⟨hgap, hfirst, hbehind⟩ := cut_start hname htail
  have hempty : (flat 0 name).isEmpty = false := by simpa [flat] using ne_nil_of_isName hname
  have hsize : size = tail.length := by simpa using Table.size_add_length_of_read hread
  have hlevel : (start (name ++ tail)).levelAbove size = 1 := by
    have htake : flat 0 name ++ (flat 0 tail).take size = flat 0 (name ++ tail.take size) := by
      simp [flat]
    rw [levelAbove, hfirst, hbehind, htake, lowest_flat 0 (by simp [ne_nil_of_isName hname])]
  have hnone : (flat 0 tail).drop size = [] := by simp [flat, hsize]
  unfold step
  rw [hfirst, hbehind, bytes_flat, bytes_flat, hread, hempty]
  simp only [Bool.false_eq_true, if_false, hlevel]
  rw [if_neg (by omega), hgap, hnone]
  simp [start, raise, Leveled.raise, flat]

end First

end Draft

/-- An invocation that makes up a text comes to what it stands for, one limit further. -/
theorem Table.expand_of_invocation {table : Table} {name tail u : Text} {size : Nat}
    (hname : isName name = true) (htail : Apart tail)
    (hread : table.read name tail = .invocation size u []) (limit : Nat) :
    SameOutcome (table.expand (limit + 1) (name ++ tail)) (table.expand limit u) := by
  obtain ⟨n, hn⟩ := table.exists_draft_returns (limit + 1) (name ++ tail)
  obtain ⟨m, hm⟩ := table.exists_draft_returns limit u
  obtain ⟨o, hsame, ho⟩ := hm.mirror (R := fun _ d d' => d.raise = d')
    (fun hd _ => hd ▸ Draft.mirrors_raise _) rfl
  have hcall := Returns.next (Draft.step_of_invocation hname htail hread) ho
  rw [(hn.unique hcall).2]
  exact hsame.symm

/-! ### Values and calls -/

namespace Table
variable {table : Table} {name : Text}

theorem expand_value (hname : isName name = true) {u : Text}
    (hvalue : table.find? name = some (.value u)) (limit : Nat) :
    SameOutcome (table.expand (limit + 1) name) (table.expand limit u) := by
  have hread : table.read name [] = .invocation 0 u [] := by rw [Table.read, hvalue]
  have hinvocation := expand_of_invocation hname apart_nil hread limit
  rwa [List.append_nil] at hinvocation

section Call
variable {f : Function} {before inner : Text} {args : List Text}

theorem expand_call (hname : isName name = true) (hfunction : table.find? name = some (.function f))
    (hbefore : Blanks before) (hinner : Spaced args inner)
    (hlength : args.length = f.params.length) (limit : Nat) :
    SameOutcome (table.expand (limit + 1) (name ++ callList before inner))
      (table.expand limit (f.render args hlength)) := by
  obtain rfl := hinner.arguments_eq
  have hcall := callAt?_callList hbefore hinner.ne_nil hinner.close_not_mem
  have hread : table.read name (callList before inner) =
      .invocation (before.length + inner.length + 2) (f.render (arguments inner) hlength) [] := by
    simp only [Table.read, hfunction, hcall, hlength, dif_pos]
  exact expand_of_invocation hname (apart_callList hbefore inner) hread limit

/-- A call with the wrong number of arguments fails at once. -/
theorem expand_mismatch (hname : isName name = true)
    (hfunction : table.find? name = some (.function f)) (hbefore : Blanks before)
    (hinner : Spaced args inner) (hlength : args.length ≠ f.params.length) (limit : Nat) :
    table.expand limit (name ++ callList before inner) =
      .error (.arity name f.params.length args.length) := by
  obtain rfl := hinner.arguments_eq
  have hcall := callAt?_callList hbefore hinner.ne_nil hinner.close_not_mem
  have hread : table.read name (callList before inner) =
      .mismatch f.params.length (arguments inner).length := by
    simp only [Table.read, hfunction, hcall]
    rw [dif_neg hlength]
  obtain ⟨n, hn⟩ := table.exists_draft_returns limit (name ++ callList before inner)
  have hstep := Draft.step_of_mismatch limit hname (apart_callList hbefore inner) hread
  exact (hn.unique (.failed hstep)).2

end Call

end Table

/-- **An invocation comes to what it stands for.** Under a limit that is higher by one, the name of
a value comes to the same as the value, and a call to the same as the body with the arguments put in
place, however the call is written. A call with any other number of arguments fails. -/
theorem Engine.expand_unfolds {e : Engine} (h : e.Reachable) (limit : Nat) (name : Text) :
    (∀ u, e.lookup name = some (.value u) →
      SameOutcome (e.table.expand (limit + 1) name) (e.table.expand limit u)) ∧
    ∀ f, e.lookup name = some (.function f) → ∀ before inner args, Blanks before →
      Spaced args inner →
        (∀ hlength : args.length = f.params.length,
          SameOutcome (e.table.expand (limit + 1) (name ++ callList before inner))
            (e.table.expand limit (f.render args hlength))) ∧
        (args.length ≠ f.params.length →
          e.table.expand (limit + 1) (name ++ callList before inner) =
            .error (.arity name f.params.length args.length)) := by
  constructor
  · intro u hvalue
    exact Table.expand_value (h.isName hvalue) hvalue limit
  · intro f hfunction before inner args hbefore hinner
    have hname := h.isName hfunction
    constructor
    · intro hlength
      exact Table.expand_call hname hfunction hbefore hinner hlength limit
    · intro hlength
      exact Table.expand_mismatch hname hfunction hbefore hinner hlength (limit + 1)

open Text (ascii) in
/-- A function whose body leads to a value, and whose second argument is a parenthesis. -/
theorem Engine.expand_unfolds_two :
    let e := ((Engine.new 0).bind (ascii "V") (.value (ascii "x"))).bind (ascii "F")
      (.function (.ofBody [ascii "a", ascii "b"] (ascii "b V a")))
    e.Reachable ∧
      SameOutcome (e.table.expand 2 (ascii "V")) (e.table.expand 1 (ascii "x")) ∧
      SameOutcome (e.table.expand 2 (ascii "F\t( V  ()")) (e.table.expand 1 (ascii "( V V")) ∧
      e.table.expand 2 (ascii "F\t(V)") = .error (.arity (ascii "F") 2 1) := by
  intro e
  have hvalue : (Engine.new 0).define (ascii " V x") =
      .ok (ascii "V", (Engine.new 0).bind (ascii "V") (.value (ascii "x"))) := by cbv
  have hparse : Engine.Written.parse (ascii " F (a b) b V a") =
      .ok (.function (ascii "F") [ascii "a", ascii "b"] (ascii "b V a")) := by cbv
  have hfunction : ((Engine.new 0).bind (ascii "V") (.value (ascii "x"))).define
      (ascii " F (a b) b V a") = .ok (ascii "F", e) := by rw [Engine.define, hparse]
  have hreach : e.Reachable :=
    ((Engine.Reachable.new 0).define (.written hvalue)).define (.written hfunction)
  have hone : Spaced [ascii "V"] ([] ++ (ascii "V" ++ [])) :=
    .last (by decide) (by decide) (by decide)
  have htwo : Spaced [ascii "V", ascii "("]
      (ascii " " ++ (ascii "V" ++ (ascii "  " ++ ([] ++ (ascii "(" ++ []))))) :=
    .more (by decide) (by decide) (by decide) (by decide)
      (.last (by decide) (by decide) (by decide))
  have hrender : (Function.ofBody [ascii "a", ascii "b"] (ascii "b V a")).render
      [ascii "V", ascii "("] rfl = ascii "( V V" := by cbv
  have hlookup : e.lookup (ascii "F") =
      some (.function (.ofBody [ascii "a", ascii "b"] (ascii "b V a"))) :=
    (Dictionary.find?_insert _ _ _ _).trans (if_pos rfl)
  obtain ⟨hvalues, -⟩ := Engine.expand_unfolds hreach 1 (ascii "V")
  obtain ⟨-, hcalls⟩ := Engine.expand_unfolds hreach 1 (ascii "F")
  have hname := hvalues (ascii "x") (by cbv)
  have hcall := (hcalls _ hlookup (ascii "\t") _ _ (by decide) htwo).1 rfl
  have hshort := (hcalls _ hlookup (ascii "\t") _ _ (by decide) hone).2 (by decide)
  rw [hrender] at hcall
  exact ⟨hreach, hname, hcall, hshort⟩

end Preassembler.Macro
