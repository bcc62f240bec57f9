import Mathlib
import Preassembler.Pipeline.Options
import Preassembler.Proofs.Expansion.Nesting
import Preassembler.Proofs.Expansion.Substitution

/-! Value macros in any order.

A text is expanded under the macros defined before it, so what is stored for a name depends on the
order of the definitions. What texts expand to does not, as long as the definitions have no circles:
a name means the text of its definition with the meanings of the names in it.

A table of values is `Settled` when what it stores agrees with a meaning of the names, and stored
texts only mention names of lower rank. Then expansion is substitution of meanings
(`Settled.expand`): a name of nesting level `l` has a rank of at most `limit - l`, so no replacement
nests too deep. A definition keeps what is stored in agreement (`Installed.defineValue`), and the
number of definitions a name leads to serves as its rank.

Main statement: in every order the definitions are accepted and come to the same expansions
(`expand_of_any_order`). -/
namespace Preassembler.Macro
open Leveled (bytes flat lowest)

/-! ### Levels of names -/

/-- Leveled text in which every name has one level, with room above it for its rank. -/
inductive Tame (limit : Nat) (rank : Text → Nat) : List Leveled → Prop where
  | nil : Tame limit rank []
  | gap {b l} : isNameByte b.byte = false → Tame limit rank l → Tame limit rank (b :: l)
  | name {n level l} : isName n = true → level + rank n ≤ limit → Apart (bytes l) →
      Tame limit rank l → Tame limit rank (flat level n ++ l)

namespace Tame
variable {limit : Nat} {rank : Text → Nat}

theorem flat_append {level : Nat} {t : Text} (ht : ∀ n ∈ names t, level + rank n ≤ limit)
    {l : List Leveled} (happart : Apart (bytes l)) (hl : Tame limit rank l) :
    Tame limit rank (flat level t ++ l) := by
  induction t using names_induction with
  | nil => exact hl
  | gap b t hb ih =>
    rw [names, translate_byte hb] at ht
    exact .gap hb (ih ht)
  | name n t hn hapart ih =>
    rw [names, translate_name hn hapart] at ht
    have hmore : Apart (bytes (flat level t ++ l)) := by
      rw [Leveled.bytes_append, bytes_flat]
      exact apart_append hapart happart
    have hflat : flat level (n ++ t) ++ l = flat level n ++ (flat level t ++ l) := by
      simp [flat]
    rw [hflat]
    exact .name hn (ht n List.mem_cons_self) hmore
      (ih fun m hm => ht m (List.mem_cons_of_mem n hm))

/-- The next name of a draft that is tame ahead, if there is one. -/
theorem next_name {d : Draft} (h : Tame limit rank d.rest) :
    d.fromName = [] ∨ ∃ n level, isName n = true ∧ level + rank n ≤ limit ∧
      d.name = flat level n ∧ Apart (bytes d.tail) ∧ Tame limit rank d.tail := by
  obtain ⟨passed, rest⟩ := d
  simp only [Draft.name, Draft.tail, Draft.fromName] at h ⊢
  induction h with
  | nil => exact .inl rfl
  | @gap b l hb _ ih =>
    rw [List.dropWhile_cons_of_pos (by simp [hb])]
    exact ih
  | @name n level l hn hlevel hapart hl _ =>
    have hbytes : ∀ b ∈ flat level n, isNameByte b.byte = true := fun _ => byte_of_mem_flat hn
    have hnone : (flat level n ++ l).dropWhile (fun b => !isNameByte b.byte) =
        flat level n ++ l := by
      obtain ⟨b, n, rfl⟩ := List.exists_cons_of_ne_nil (ne_nil_of_isName hn)
      exact List.dropWhile_cons_of_neg (by simp [byte_of_isName hn])
    rw [hnone, takeWhile_front hbytes hapart.head_level,
      dropWhile_front hbytes hapart.head_level]
    exact .inr ⟨n, level, hn, hlevel, rfl, hapart, hl⟩

end Tame

/-! ### Settled tables -/

/-- A table of values that agrees with a meaning of names and fits into the limit. -/
structure Settled (table : Table) (limit : Nat) (rank : Text → Nat) (σ : Text → Text) : Prop where
  bound : ∀ {n d}, table.find? n = some d → ∃ u, d = .value u ∧ σ n = substitute σ u ∧
    0 < rank n ∧ ∀ m ∈ names u, rank m < rank n
  unbound : ∀ {n}, table.find? n = none → σ n = n
  rank_le : ∀ n, rank n ≤ limit

namespace Settled
variable {table : Table} {limit : Nat} {rank : Text → Nat} {σ : Text → Text}

/-- What a draft is to become: what is passed stays, and the rest gets its meaning. -/
def goal (σ : Text → Text) (d : Draft) : Text :=
  bytes d.passed.reverse ++ substitute σ (bytes d.rest)

theorem goal_eq (σ : Text → Text) (d : Draft) :
    goal σ d = bytes (d.gap.reverse ++ d.passed).reverse ++ substitute σ (bytes d.fromName) := by
  rw [goal, substitute_gap, ← Leveled.bytes_takeWhile (fun b => !isNameByte b),
    ← bytes_dropWhile (fun b => !isNameByte b)]
  simp [Draft.gap, Draft.fromName]

/-- A step from a tame draft finishes with the goal, or leads to a tame draft with the same goal. -/
theorem step (h : Settled table limit rank σ) {d : Draft} (hd : Tame limit rank d.rest) :
    d.step table limit = .finished (goal σ d) ∨
      ∃ d', d.step table limit = .next d' ∧ Tame limit rank d'.rest ∧ goal σ d' = goal σ d := by
  rw [goal_eq σ d]
  rcases hd.next_name with hnone | ⟨n, level, hn, hlevel, hname, hapart, htail⟩
  · have hrest : d.gap = d.rest := by
      have hsplit : d.gap ++ d.fromName = d.rest := List.takeWhile_append_dropWhile
      rwa [hnone, List.append_nil] at hsplit
    refine .inl ?_
    rw [Draft.step, Draft.name, hnone, hrest]
    simp [substitute, translate_nil, bytes]
  · have hsplit : d.name ++ d.tail = d.fromName := List.takeWhile_append_dropWhile
    have hempty : d.name.isEmpty = false := by
      rw [hname, ← Leveled.isEmpty_bytes, bytes_flat]
      simpa using ne_nil_of_isName hn
    refine .inr ?_
    rw [← hsplit, hname, Leveled.bytes_append, bytes_flat, substitute_name σ hn hapart, Draft.step,
      hempty, hname, bytes_flat]
    cases hfind : table.find? n with
    | none =>
      refine ⟨⟨(flat level n).reverse ++ (d.gap.reverse ++ d.passed), d.tail⟩, ?_, htail, ?_⟩
      · rw [Table.read, hfind]
        simp
      · simp [goal, h.unbound hfind]
    | some definition =>
      obtain ⟨u, rfl, hmeaning, hpos, hlower⟩ := h.bound hfind
      have habove : d.levelAbove 0 = level + 1 := by
        rw [Draft.levelAbove, List.take_zero, List.append_nil, hname,
          lowest_flat level (ne_nil_of_isName hn)]
      refine ⟨⟨d.gap.reverse ++ d.passed, flat (level + 1) u ++ d.tail⟩, ?_, ?_, ?_⟩
      · rw [Table.read, hfind]
        simp only [Bool.false_eq_true, if_false, habove, List.drop_zero]
        rw [if_neg (by omega)]
      · refine .flat_append (fun m hm => ?_) hapart htail
        have hlt := hlower m hm
        omega
      · rw [goal, Leveled.bytes_append, bytes_flat, substitute_append σ hapart, ← hmeaning]

theorem returns (h : Settled table limit rank σ) {k : Nat} {d : Draft} {o : Except Error Text}
    (hd : Tame limit rank d.rest) (hr : Returns (Draft.step table limit) k d o) :
    o = .ok (goal σ d) := by
  induction hr with
  | finished hs =>
    rcases h.step hd with hfinished | ⟨d', hnext, -⟩
    · rw [Progress.finished.inj (hs.symm.trans hfinished)]
    · cases hs.symm.trans hnext
  | failed hs =>
    rcases h.step hd with hfinished | ⟨d', hnext, -⟩
    · cases hs.symm.trans hfinished
    · cases hs.symm.trans hnext
  | next hs _ ih =>
    rcases h.step hd with hfinished | ⟨d', hnext, htame, hgoal⟩
    · cases hs.symm.trans hfinished
    · obtain rfl := Progress.next.inj (hs.symm.trans hnext)
      rw [ih htame, hgoal]

/-- Under a settled table a text expands to its meaning. -/
theorem expand (h : Settled table limit rank σ) (t : Text) :
    table.expand limit t = .ok (substitute σ t) := by
  obtain ⟨k, hk⟩ := table.exists_draft_returns limit t
  have htame : Tame limit rank (flat 0 t ++ []) :=
    .flat_append (fun n _ => by simpa using h.rank_le n) apart_nil .nil
  rw [List.append_nil] at htame
  rw [h.returns htame hk, goal, Draft.start, bytes_flat]
  rfl

end Settled

/-! ### Definitions without circles -/

/-- The definition of `n` mentions `m`. -/
def Refers (defs : List (Text × Text)) (n m : Text) : Prop :=
  ∃ t, (n, t) ∈ defs ∧ .name m ∈ lexemes t

section Definitions
open Relation (TransGen ReflTransGen)
variable {defs : List (Text × Text)}

/-- Definitions of distinct names, none of which leads back to itself. -/
structure Grounded (defs : List (Text × Text)) : Prop where
  names : ∀ d ∈ defs, isName d.1 = true
  distinct : (defs.map Prod.fst).Nodup
  acyclic : ∀ n, ¬ TransGen (Refers defs) n n

open Classical in
/-- The defined names that a name leads to, itself included. -/
noncomputable def reached (defs : List (Text × Text)) (n : Text) : Finset Text :=
  (defs.map Prod.fst).toFinset.filter fun m => ReflTransGen (Refers defs) n m

theorem mem_reached {n m : Text} :
    m ∈ reached defs n ↔ (∃ t, (m, t) ∈ defs) ∧ ReflTransGen (Refers defs) n m := by
  simp [reached]

/-- The number of definitions a name leads to. -/
noncomputable def rank (defs : List (Text × Text)) (n : Text) : Nat := (reached defs n).card

open Classical in
theorem rank_le (defs : List (Text × Text)) (n : Text) : rank defs n ≤ defs.length := by
  refine (Finset.card_filter_le _ _).trans ((List.toFinset_card_le _).trans ?_)
  rw [List.length_map]

theorem rank_pos {n t : Text} (h : (n, t) ∈ defs) : 0 < rank defs n :=
  Finset.card_pos.2 ⟨n, mem_reached.2 ⟨⟨t, h⟩, .refl⟩⟩

/-- Without circles a name leads to more definitions than those it mentions. -/
theorem Grounded.rank_lt (hdefs : Grounded defs) {n m : Text} (h : TransGen (Refers defs) n m) :
    rank defs m < rank defs n := by
  obtain ⟨k, ⟨t, ht, -⟩, -⟩ := Relation.TransGen.head'_iff.1 h
  have hsub : reached defs m ⊆ reached defs n := by
    intro k hk
    rw [mem_reached] at hk ⊢
    exact ⟨hk.1, h.to_reflTransGen.trans hk.2⟩
  have hout : n ∉ reached defs m := by
    intro hn
    exact hdefs.acyclic n (h.trans_left (mem_reached.1 hn).2)
  exact Finset.card_lt_card (Finset.ssubset_iff_of_subset hsub |>.2
    ⟨n, mem_reached.2 ⟨⟨t, ht⟩, .refl⟩, hout⟩)

/-- What names mean by their definitions. -/
def denote (defs : List (Text × Text)) : Text → Text :=
  meaning (fun n => Dictionary.seek n defs) defs.length

theorem mem_of_seek {n t : Text} (h : Dictionary.seek n defs = some t) : (n, t) ∈ defs := by
  induction defs with
  | nil => cases h
  | cons d defs ih =>
    obtain ⟨k, u⟩ := d
    rw [Dictionary.seek] at h
    split at h
    · rename_i hk
      rw [hk, Option.some.inj h]
      exact List.mem_cons_self
    · exact List.mem_cons_of_mem _ (ih h)

theorem seek_of_mem (hnodup : (defs.map Prod.fst).Nodup) {n t : Text} (h : (n, t) ∈ defs) :
    Dictionary.seek n defs = some t := by
  induction defs with
  | nil => cases h
  | cons d defs ih =>
    obtain ⟨k, u⟩ := d
    rw [List.map_cons, List.nodup_cons] at hnodup
    rw [Dictionary.seek]
    rcases List.mem_cons.1 h with heq | hrest
    · obtain ⟨rfl, rfl⟩ := Prod.mk.inj heq
      exact if_pos rfl
    · rw [if_neg, ih hnodup.2 hrest]
      rintro rfl
      exact hnodup.1 (List.mem_map.2 ⟨(n, t), hrest, rfl⟩)

theorem Grounded.ranked (hdefs : Grounded defs) : Ranked (fun n => Dictionary.seek n defs) (rank defs) where
  pos := fun h => rank_pos (mem_of_seek h)
  lt := fun h hm => hdefs.rank_lt (.single ⟨_, mem_of_seek h, mem_names.1 hm⟩)

theorem Grounded.denote_of_mem (hdefs : Grounded defs) {n t : Text} (h : (n, t) ∈ defs) :
    denote defs n = substitute (denote defs) t :=
  hdefs.ranked.meaning_eq (rank_le defs n) (seek_of_mem hdefs.distinct h)

theorem denote_of_not_mem {n : Text} (h : ∀ t, (n, t) ∉ defs) : denote defs n = n := by
  refine meaning_none ?_
  rw [Option.eq_none_iff_forall_ne_some]
  exact fun t ht => h t (mem_of_seek ht)

/-! ### Defining one macro after the other -/

/-- A table in which the names among `done` were defined: every stored text means what its name
means, and mentions only what its definition leads to. -/
structure Installed (defs : List (Text × Text)) (done : Text → Prop) (table : Table) : Prop where
  stored : ∀ {n d}, table.find? n = some d → ∃ u, d = .value u ∧ (∃ t, (n, t) ∈ defs) ∧
    denote defs n = substitute (denote defs) u ∧
    ∀ m ∈ names u, TransGen (Refers defs) n m
  missing : ∀ {n}, table.find? n = none → ¬ done n

namespace Installed
variable {done : Text → Prop} {table : Table}

/-- The texts stored for names. -/
def body (table : Table) (n : Text) : Option Text :=
  match table.find? n with
  | some (.value u) => some u
  | _ => none

theorem body_eq_some_iff {n u : Text} :
    body table n = some u ↔ table.find? n = some (.value u) := by
  unfold body
  split <;> simp_all

theorem ranked (h : Installed defs done table) (hdefs : Grounded defs) :
    Ranked (body table) (rank defs) where
  pos := by
    intro n u hn
    obtain ⟨_, -, ⟨t, ht⟩, -⟩ := h.stored (body_eq_some_iff.1 hn)
    exact rank_pos ht
  lt := by
    intro n u m hn hm
    obtain ⟨u', hu, -, -, hlead⟩ := h.stored (body_eq_some_iff.1 hn)
    obtain rfl := Definition.value.inj hu
    exact hdefs.rank_lt (hlead m hm)

/-- A table agrees with the meanings that follow from what it stores. -/
theorem settled (h : Installed defs done table) (hdefs : Grounded defs) {limit : Nat}
    (hlimit : defs.length ≤ limit) :
    Settled table limit (rank defs) (meaning (body table) limit) where
  bound := by
    intro n d hfind
    obtain ⟨u, rfl, ⟨t, ht⟩, -, hlead⟩ := h.stored hfind
    refine ⟨u, rfl, ?_, rank_pos ht, fun m hm => hdefs.rank_lt (hlead m hm)⟩
    exact (h.ranked hdefs).meaning_eq ((rank_le defs n).trans hlimit) (body_eq_some_iff.2 hfind)
  unbound := by
    intro n hfind
    exact meaning_none (by rw [body, hfind])
  rank_le := fun n => (rank_le defs n).trans hlimit

/-- When all names are defined the table agrees with the meanings that follow from definitions. -/
theorem settled_all (h : Installed defs done table) (hall : ∀ n t, (n, t) ∈ defs → done n)
    (hdefs : Grounded defs) {limit : Nat} (hlimit : defs.length ≤ limit) :
    Settled table limit (rank defs) (denote defs) where
  bound := by
    intro n d hfind
    obtain ⟨u, rfl, ⟨t, ht⟩, hmeaning, hlead⟩ := h.stored hfind
    exact ⟨u, rfl, hmeaning, rank_pos ht, fun m hm => hdefs.rank_lt (hlead m hm)⟩
  unbound := by
    intro n hfind
    exact denote_of_not_mem fun t ht => h.missing hfind (hall n t ht)
  rank_le := fun n => (rank_le defs n).trans hlimit

/-- Following stored texts leads where definitions lead. -/
theorem leads (h : Installed defs done table) (k : Nat) {n m : Text} (hn : isName n = true)
    (hm : m ∈ names (meaning (body table) k n)) : ReflTransGen (Refers defs) n m := by
  induction k generalizing n with
  | zero =>
    rw [meaning, names_of_isName hn, List.mem_singleton] at hm
    rw [hm]
  | succ k ih =>
    cases hbody : body table n with
    | none =>
      rw [meaning_none hbody, names_of_isName hn, List.mem_singleton] at hm
      rw [hm]
    | some u =>
      rw [meaning_some hbody] at hm
      obtain ⟨j, hj, hm⟩ := mem_names_substitute hm
      obtain ⟨u', hu, -, -, hlead⟩ := h.stored (body_eq_some_iff.1 hbody)
      obtain rfl := Definition.value.inj hu
      exact (hlead j hj).to_reflTransGen.trans (ih (isName_of_mem_names hj) hm)

/-- A definition is accepted, and what is stored for it agrees with what it means. -/
theorem defineValue {e : Engine} (h : Installed defs done e.table) (hdefs : Grounded defs)
    (hlimit : defs.length ≤ e.limit) {n t : Text} (ht : (n, t) ∈ defs) :
    ∃ e', e.defineValue n t = .ok e' ∧ e'.limit = e.limit ∧
      Installed defs (fun m => m = n ∨ done m) e'.table := by
  have hexpand := (h.settled hdefs hlimit).expand t
  generalize hτ : meaning (body e.table) e.limit = τ at hexpand
  have hagree : ∀ m ∈ names t, denote defs m = substitute (denote defs) (τ m) := by
    intro m hm
    rw [← hτ, substitute_meaning (fun k u hk => ?_) e.limit (isName_of_mem_names hm)]
    obtain ⟨u', hu, -, hmeaning, -⟩ := h.stored (body_eq_some_iff.1 hk)
    obtain rfl := Definition.value.inj hu
    exact hmeaning
  refine ⟨e.bind n (.value (substitute τ t)), ?_, rfl, ?_, ?_⟩
  · rw [Engine.defineValue, if_pos (hdefs.names _ ht), Engine.expand, hexpand]
    rfl
  · intro k d hfind
    rw [Engine.bind, Dictionary.find?_insert] at hfind
    split at hfind
    · rename_i hk
      subst hk
      obtain rfl := Option.some.inj hfind
      refine ⟨substitute τ t, rfl, ⟨t, ht⟩, ?_, fun m hm => ?_⟩
      · rw [hdefs.denote_of_mem ht, substitute_substitute]
        exact substitute_congr hagree
      · obtain ⟨j, hj, hm⟩ := mem_names_substitute hm
        rw [← hτ] at hm
        exact .head' ⟨t, ht, mem_names.1 hj⟩ (h.leads e.limit (isName_of_mem_names hj) hm)
    · exact h.stored hfind
  · intro k hfind
    rw [Engine.bind, Dictionary.find?_insert] at hfind
    split at hfind
    · cases hfind
    · rename_i hk
      rintro (rfl | hdone)
      · exact hk rfl
      · exact h.missing hfind hdone

/-- Definitions in any order are accepted one after the other. -/
theorem predefine {e : Engine} (h : Installed defs done e.table) (hdefs : Grounded defs)
    (hlimit : defs.length ≤ e.limit) {order : List (Text × Text)} (horder : order ⊆ defs) :
    ∃ e', Options.predefine e order = .ok e' ∧ e'.limit = e.limit ∧
      Installed defs (fun m => (∃ t, (m, t) ∈ order) ∨ done m) e'.table := by
  induction order generalizing e done with
  | nil => exact ⟨e, rfl, rfl, h.stored, fun hfind => by simpa using h.missing hfind⟩
  | cons d order ih =>
    obtain ⟨n, t⟩ := d
    obtain ⟨ht, hrest⟩ := List.cons_subset.1 horder
    obtain ⟨e₁, hdefine, hlimit₁, h₁⟩ := h.defineValue hdefs hlimit ht
    obtain ⟨e', hpredefine, hlimit', h'⟩ := ih h₁ (hlimit₁ ▸ hlimit) hrest
    refine ⟨e', ?_, hlimit'.trans hlimit₁, h'.stored, fun {k} hfind => ?_⟩
    · rw [Options.predefine, hdefine]
      exact hpredefine
    · have hmissing := h'.missing hfind
      simp only [List.mem_cons, Prod.mk.injEq]
      grind

end Installed

theorem installed_empty (defs : List (Text × Text)) :
    Installed defs (fun _ => False) (.empty : Table) where
  stored := fun h => nomatch h
  missing := fun _ => id

end Definitions

end Preassembler.Macro

/-! ### Every order -/

namespace Preassembler

namespace Dictionary
variable {β : Type}

theorem place_perm {key : Text} {l : List (Text × β)} (h : key ∉ l.map Prod.fst) (v : β) :
    (place key v l).Perm ((key, v) :: l) := by
  fun_induction place key v l with
  | case1 => exact .refl _
  | case2 w r => simp at h
  | case3 k w r hk hlt => exact .refl _
  | case4 k w r hk hlt ih =>
    rw [List.map_cons, List.mem_cons, not_or] at h
    exact ((ih h.2).cons (k, w)).trans (.swap _ _ r)

theorem foldl_insert_perm {l : List (Text × β)} {d : Dictionary β}
    (h : ((l ++ d.entries).map Prod.fst).Nodup) :
    (l.foldl (fun d (k, v) => d.insert k v) d).entries.Perm (l ++ d.entries) := by
  induction l generalizing d with
  | nil => exact .refl _
  | cons e l ih =>
    obtain ⟨k, v⟩ := e
    have hk : k ∉ d.entries.map Prod.fst := by
      intro hk
      rw [List.cons_append, List.map_cons, List.nodup_cons, List.map_append] at h
      exact h.1 (List.mem_append_right _ hk)
    have hmiddle : (l ++ (d.insert k v).entries).Perm ((k, v) :: (l ++ d.entries)) :=
      ((place_perm hk v).append_left l).trans List.perm_middle
    exact (ih ((hmiddle.map Prod.fst).nodup_iff.2 h)).trans hmiddle

/-- A dictionary holds the pairs it is made of, in the order of their keys. -/
theorem entries_ofList_perm {l : List (Text × β)} (h : (l.map Prod.fst).Nodup) :
    (ofList l).entries.Perm l := by
  have hperm := foldl_insert_perm (l := l) (d := (empty : Dictionary β)) (by simpa [empty] using h)
  simpa [ofList, empty] using hperm

end Dictionary

namespace Options
open Macro (Engine Grounded Refers Installed denote effectiveLimit lexemes substitute
  installed_empty)

theorem expand_of_predefine {defs order : List (Text × Text)} {limit : Int}
    (hdefs : Grounded defs) (hlimit : defs.length ≤ effectiveLimit limit)
    (hperm : order.Perm defs) :
    ∃ e, predefine (.new limit) order = .ok e ∧
      ∀ t, e.expand t = .ok (substitute (denote defs) t) := by
  obtain ⟨e, hpredefine, he, hinstalled⟩ := Installed.predefine (e := Engine.new limit)
    (installed_empty defs) hdefs hlimit hperm.subset
  refine ⟨e, hpredefine, fun t => ?_⟩
  have hall : ∀ n t, (n, t) ∈ defs → (∃ t, (n, t) ∈ order) ∨ False := fun n t ht =>
    .inl ⟨t, hperm.mem_iff.2 ht⟩
  exact (hinstalled.settled_all hall hdefs (he ▸ hlimit)).expand t

/-- **The order of value definitions does not matter.** Grounded definitions, no more of them than
the limit, are accepted in every order, and in every order a text expands to the same: every name in
it is replaced by what its definition denotes. The order of names in which a pipeline defines its
macros is one of them. -/
theorem expand_of_any_order {defs : List (Text × Text)} {limit : Int} (hdefs : Grounded defs)
    (hlimit : defs.length ≤ effectiveLimit limit) :
    (∀ order, order.Perm defs → ∃ e, predefine (.new limit) order = .ok e ∧
      ∀ t, e.expand t = .ok (substitute (denote defs) t)) ∧
    ∀ o : Options, o.expansionLimit = limit → o.defines = .ofList defs →
      ∃ p, Pipeline.new o = .ok p ∧
        ∀ t, p.engine.expand t = .ok (substitute (denote defs) t) := by
  refine ⟨fun order hperm => expand_of_predefine hdefs hlimit hperm, ?_⟩
  rintro o rfl hdefines
  have hperm : o.defines.entries.Perm defs :=
    hdefines ▸ Dictionary.entries_ofList_perm hdefs.distinct
  obtain ⟨e, hpredefine, hexpand⟩ := expand_of_predefine hdefs hlimit hperm
  exact ⟨⟨o, e⟩, by rw [Pipeline.new, engine, hpredefine]; rfl, hexpand⟩

open Text (ascii) in
/-- Two definitions, one of which mentions the other: different texts are stored for it in the two
orders, and both come to the same expansions. -/
theorem expand_of_any_order_two :
    ∃ e e', predefine (.new 2) [(ascii "A", ascii "B+B"), (ascii "B", ascii "C")] = .ok e ∧
      predefine (.new 2) [(ascii "B", ascii "C"), (ascii "A", ascii "B+B")] = .ok e' ∧
      e.lookup (ascii "A") = some (.value (ascii "B+B")) ∧
      e'.lookup (ascii "A") = some (.value (ascii "C+C")) ∧ ∀ t, e.expand t = e'.expand t := by
  -- Each of the two mentions only what comes behind it in the alphabet.
  have hbehind : ∀ {n m},
      Refers [(ascii "A", ascii "B+B"), (ascii "B", ascii "C")] n m → n < m := by
    have hA : lexemes (ascii "B+B") = [.name (ascii "B"), .gap (ascii "+"), .name (ascii "B")] := by
      cbv
    have hB : lexemes (ascii "C") = [.name (ascii "C")] := by cbv
    rintro n m ⟨t, ht, hm⟩
    rcases List.mem_cons.1 ht with heq | ht
    · obtain ⟨rfl, rfl⟩ := Prod.mk.inj heq
      obtain rfl : m = ascii "B" := by simpa [hA] using hm
      decide
    · obtain ⟨rfl, rfl⟩ := Prod.mk.inj (List.mem_singleton.1 ht)
      obtain rfl : m = ascii "C" := by simpa [hB] using hm
      decide
  have hlt : ∀ {n m}, Relation.TransGen (Refers [(ascii "A", ascii "B+B"), (ascii "B", ascii "C")]) n m →
      n < m := by
    intro n m h
    induction h with
    | single h => exact hbehind h
    | tail _ h ih => exact List.lt_trans ih (hbehind h)
  obtain ⟨hany, -⟩ := expand_of_any_order
    ⟨by decide, by decide, fun n h => List.lt_irrefl n (hlt h)⟩
    (show 2 ≤ effectiveLimit 2 by decide)
  obtain ⟨e, he, hexpand⟩ := hany _ (.refl _)
  obtain ⟨e', he', hexpand'⟩ := hany _ (.swap _ _ _)
  have hstored : (predefine (.new 2) [(ascii "A", ascii "B+B"), (ascii "B", ascii "C")]).map
      (·.lookup (ascii "A")) = .ok (some (.value (ascii "B+B"))) := by cbv
  have hstored' : (predefine (.new 2) [(ascii "B", ascii "C"), (ascii "A", ascii "B+B")]).map
      (·.lookup (ascii "A")) = .ok (some (.value (ascii "C+C"))) := by cbv
  rw [he] at hstored
  rw [he'] at hstored'
  exact ⟨e, e', he, he', Except.ok.inj hstored, Except.ok.inj hstored',
    fun t => (hexpand t).trans (hexpand' t).symm⟩

end Options

end Preassembler
