import Preassembler.Proofs.Expansion.Leftover
import Preassembler.Proofs.Expansion.Nesting

/-! Values are expanded token by token.

Under a table of values an invocation is a single name, and what is put in for it stands between the
same neighbours. So a scan takes the same steps whatever is behind it (`Draft.returns_behind`) and
whatever follows from the next byte of no name on (`Draft.returns_append`); the levels of the bytes
tell that the depth reached in one part does not count in another. Expansion therefore goes on piece
by piece (`Table.HoldsValues.expand_append`).

Main statement: a text expands exactly if every token of it does, and then to the text with the
expansions in place of the tokens (`Table.expand_tokenwise`). -/
namespace Preassembler.Macro
open Leveled (bytes flat lowest)
open Text (byte)

/-! ### Drafts in a context -/

namespace Draft
variable {table : Table} {limit : Nat}

/-- What follows a name does not change how a draft is cut at it. -/
theorem cut_append {d d' : Draft} {m : List Leveled} (hm : Apart (bytes m))
    (hn : d.name.isEmpty = false) (hd : d'.rest = d.rest ++ m) :
    d'.gap = d.gap ∧ d'.name = d.name ∧ d'.tail = d.tail ++ m := by
  apply cut_eq
  · rw [hd, ← d.rest_eq, List.append_assoc, List.append_assoc]
  · intro b hb
    exact not_name_of_mem_gap hb
  · simpa using hn
  · exact List.all_eq_true.1 List.all_takeWhile
  · rw [Leveled.bytes_append]
    exact apart_append d.apart_tail hm

/-- A draft with more text behind its position. -/
def behind (front : List Leveled) (d : Draft) : Draft := ⟨d.passed ++ front, d.rest⟩

/-- What is behind a draft appears in front of its answer and changes nothing else. -/
theorem mirrors_behind (front : List Leveled) (d : Draft) :
    Mirrors (fun d d' => d.behind front = d')
      (fun o o' => o.map (bytes front.reverse ++ ·) = o') (d.step table limit)
      ((d.behind front).step table limit) := by
  have hname : (d.behind front).name = d.name := rfl
  have htail : (d.behind front).tail = d.tail := rfl
  have hgap : (d.behind front).gap = d.gap := rfl
  unfold step
  rw [hname, htail]
  split
  · exact .finished (by simp [behind, Except.map])
  · split
    · refine .next ?_
      rw [hgap]
      simp [behind]
    · exact .failed rfl
    · rename_i size text _ _
      have hlevel : (d.behind front).levelAbove size = d.levelAbove size := rfl
      rw [hlevel]
      split
      · exact .failed rfl
      · refine .next ?_
        rw [hgap]
        simp [behind]

theorem returns_behind (front : List Leveled) {k : Nat} {d : Draft} {o : Except Error Text}
    (h : Returns (step table limit) k d o) :
    Returns (step table limit) k (d.behind front) (o.map (bytes front.reverse ++ ·)) := by
  obtain ⟨o', rfl, hr⟩ := h.mirror (R := fun _ d d' => d.behind front = d')
    (fun hd _ => hd ▸ mirrors_behind front _) rfl
  exact hr

/-- Bytes of no name may be passed before a step. -/
theorem step_skip (table : Table) (limit : Nat) {gap : List Leveled}
    (hgap : ∀ b ∈ gap, isNameByte b.byte = false) (passed rest : List Leveled) :
    step table limit ⟨passed, gap ++ rest⟩ = step table limit ⟨gap.reverse ++ passed, rest⟩ := by
  have hpos : ∀ b ∈ gap, (!isNameByte b.byte) = true := fun b hb => by simp [hgap b hb]
  have hfrom : fromName ⟨passed, gap ++ rest⟩ = fromName ⟨gap.reverse ++ passed, rest⟩ :=
    List.dropWhile_append_of_pos hpos
  have hskip : Draft.gap ⟨passed, gap ++ rest⟩ = gap ++ Draft.gap ⟨gap.reverse ++ passed, rest⟩ :=
    List.takeWhile_append_of_pos hpos
  simp only [step, levelAbove, name, tail, hfrom, hskip, List.reverse_append, List.append_assoc,
    List.reverse_reverse]
  rfl

theorem step_of_isEmpty {d : Draft} (h : d.name.isEmpty = true) :
    d.step table limit = .finished (bytes (d.passed.reverse ++ d.rest)) := by
  rw [step, if_pos h]

/-- A draft only finishes when no name is ahead. -/
theorem isEmpty_name_of_finished {d : Draft} {t : Text} (h : d.step table limit = .finished t) :
    d.name.isEmpty = true := by
  unfold step at h
  split at h
  · assumption
  · split at h
    · cases h
    · cases h
    · split at h <;> cases h

theorem not_name_of_isEmpty {d : Draft} (h : d.name.isEmpty = true) :
    ∀ b ∈ d.rest, isNameByte b.byte = false := by
  have hfrom : d.fromName = [] :=
    dropWhile_not_eq_nil (p := fun b : Leveled => isNameByte b.byte) (List.isEmpty_iff.1 h)
  have hsplit : d.gap ++ d.fromName = d.rest := List.takeWhile_append_dropWhile
  rw [hfrom, List.append_nil] at hsplit
  rw [← hsplit]
  intro b hb
  exact not_name_of_mem_gap hb

end Draft

/-! ### Tables of values -/

namespace Table.HoldsValues
variable {table : Table} {limit : Nat}

/-- A name is plain text or an invocation of its own, whatever follows it. -/
theorem read (h : table.HoldsValues) (n : Text) :
    (∀ tail, table.read n tail = .plain) ∨
      ∃ u, ∀ tail, table.read n tail = .invocation 0 u tail := by
  cases hfind : table.find? n with
  | none =>
    refine .inl fun tail => ?_
    rw [Table.read, hfind]
  | some d =>
    obtain ⟨u, rfl⟩ := h.find? hfind
    refine .inr ⟨u, fun tail => ?_⟩
    rw [Table.read, hfind]

/-- What follows from a byte of no name on does not change the step at a name before it. -/
theorem matches_append (h : table.HoldsValues) (limit : Nat) {d d' : Draft} {m : List Leveled}
    (hm : Apart (bytes m)) (hgoes : ∀ t, d.step table limit ≠ .finished t)
    (hd : d' = ⟨d.passed, d.rest ++ m⟩) :
    Matches (fun d d' : Draft => d' = ⟨d.passed, d.rest ++ m⟩) (d.step table limit)
      (d'.step table limit) := by
  have hn : d.name.isEmpty = false := by
    cases hn : d.name.isEmpty with
    | false => rfl
    | true => exact absurd (Draft.step_of_isEmpty hn) (hgoes _)
  obtain ⟨hgap, hname, htail⟩ := Draft.cut_append hm hn (congrArg Draft.rest hd)
  have hpassed : d'.passed = d.passed := hd ▸ rfl
  have hlevel : d'.levelAbove 0 = d.levelAbove 0 := by
    rw [Draft.levelAbove, Draft.levelAbove, hname, List.take_zero, List.take_zero]
  unfold Draft.step
  rw [hname, hn, hgap, htail, hpassed]
  rcases h.read (bytes d.name) with hplain | ⟨u, hu⟩
  · rw [hplain, hplain]
    exact .next rfl
  · rw [hu, hu]
    simp only [Bool.false_eq_true, if_false, hlevel]
    split
    · exact .failed
    · exact .next (by simp)

/-- A draft is worked on up to a byte of no name, and then from there on. -/
theorem returns_append (h : table.HoldsValues) {k j : Nat} {d : Draft} {m : List Leveled}
    {o p : Except Error Text} (hm : Apart (bytes m))
    (hfirst : Returns (Draft.step table limit) k d o)
    (hsecond : Returns (Draft.step table limit) j ⟨[], m⟩ p) :
    ∃ i, Returns (Draft.step table limit) i ⟨d.passed, d.rest ++ m⟩
      (o.bind fun r => p.map (r ++ ·)) := by
  induction hfirst with
  | @finished d t hs =>
    have hn := Draft.isEmpty_name_of_finished hs
    obtain rfl := Progress.finished.inj (hs.symm.trans (Draft.step_of_isEmpty hn))
    have hskip := Draft.step_skip table limit (Draft.not_name_of_isEmpty hn) d.passed m
    have hbehind := Draft.returns_behind (d.rest.reverse ++ d.passed) hsecond
    rw [List.reverse_append, List.reverse_reverse] at hbehind
    exact ⟨j, hbehind.of_step_eq hskip⟩
  | @failed d e hs =>
    have hmatch := h.matches_append limit hm (fun t ht => by cases hs.symm.trans ht) rfl
    generalize hstep : Draft.step table limit ⟨d.passed, d.rest ++ m⟩ = q at hmatch
    rw [hs] at hmatch
    cases hmatch
    exact ⟨0, .failed hstep⟩
  | @next d d' n o hs _ ih =>
    have hmatch := h.matches_append limit hm (fun t ht => by cases hs.symm.trans ht) rfl
    generalize hstep : Draft.step table limit ⟨d.passed, d.rest ++ m⟩ = q at hmatch
    rw [hs] at hmatch
    cases hmatch with
    | next hd =>
      subst hd
      obtain ⟨i, hi⟩ := ih
      exact ⟨i + 1, .next hstep hi⟩

/-- A text is expanded up to a byte of no name, and then from there on. -/
theorem expand_append (h : table.HoldsValues) (limit : Nat) (x : Text) {y : Text} (hy : Apart y) :
    table.expand limit (x ++ y) =
      (table.expand limit x).bind fun a => (table.expand limit y).map (a ++ ·) := by
  obtain ⟨k, hk⟩ := table.exists_draft_returns limit x
  obtain ⟨j, hj⟩ := table.exists_draft_returns limit y
  obtain ⟨n, hn⟩ := table.exists_draft_returns limit (x ++ y)
  have happart : Apart (bytes (flat 0 y)) := by
    rw [bytes_flat]
    exact hy
  obtain ⟨i, hi⟩ := h.returns_append happart hk hj
  have hstart : Draft.start (x ++ y) =
      ⟨(Draft.start x).passed, (Draft.start x).rest ++ flat 0 y⟩ := by
    simp [Draft.start, flat]
  rw [hstart] at hn
  exact (hn.unique hi).2

theorem expand_nil (table : Table) (limit : Nat) : table.expand limit [] = .ok [] := by
  apply expand_of_unbound
  intro n hn
  rw [names_nil] at hn
  cases hn

/-- A byte of no name stays in its place. -/
theorem expand_byte (table : Table) (limit : Nat) {b : UInt8} (hb : isNameByte b = false)
    (t : Text) : table.expand limit (b :: t) = (table.expand limit t).map (b :: ·) := by
  obtain ⟨k, hk⟩ := table.exists_draft_returns limit t
  obtain ⟨n, hn⟩ := table.exists_draft_returns limit (b :: t)
  have hgap : ∀ c ∈ flat 0 [b], isNameByte c.byte = false := by simpa [flat] using hb
  have hskip := Draft.step_skip table limit hgap [] (flat 0 t)
  have hbehind := (Draft.returns_behind (flat 0 [b]) hk).of_step_eq hskip
  exact (hn.unique hbehind).2

/-- Values make no call, so nothing but the nesting can fail. -/
theorem tooDeep_of_expand (h : table.HoldsValues) {t : Text} {e : Error}
    (he : table.expand limit t = .error e) : ∃ name, e = .tooDeep name limit := by
  obtain ⟨k, hk⟩ := table.exists_returns_expand limit t
  rw [he] at hk
  generalize ho : Except.error e = o at hk
  generalize Scan.start t = s at hk
  induction hk with
  | finished => cases ho
  | failed hs =>
    obtain rfl := Except.error.inj ho
    cases Scan.step_of_eq hs with
    | mismatch _ hr =>
      rcases h.read _ with hplain | ⟨u, hu⟩
      · cases hr.symm.trans (hplain _)
      · cases hr.symm.trans (hu _)
    | tooDeep => exact ⟨_, rfl⟩
  | next _ _ ih => exact ih ho

/-! ### Token by token -/

/-- A text whose names expand is expanded name by name. -/
theorem expand_of_names (h : table.HoldsValues) {σ : Text → Text} {t : Text}
    (ht : ∀ n ∈ names t, table.expand limit n = .ok (σ n)) :
    table.expand limit t = .ok (substitute σ t) := by
  induction t using names_induction with
  | nil => rw [expand_nil, substitute_nil]
  | gap b t hb ih =>
    rw [names_byte hb] at ht
    rw [expand_byte table limit hb, ih ht, substitute_byte σ hb]
    rfl
  | name n t hn hapart ih =>
    rw [names_name hn hapart] at ht
    rw [h.expand_append limit n hapart, ht n List.mem_cons_self,
      ih fun m hm => ht m (List.mem_cons_of_mem n hm), substitute_name σ hn hapart]
    rfl

/-- The names of a text that expands do so themselves. -/
theorem names_of_expand (h : table.HoldsValues) {t r : Text} (ht : table.expand limit t = .ok r) :
    ∀ n ∈ names t, ∃ u, table.expand limit n = .ok u := by
  induction t using names_induction generalizing r with
  | nil =>
    intro n hn
    rw [names_nil] at hn
    cases hn
  | gap b t hb ih =>
    rw [expand_byte table limit hb] at ht
    rw [names_byte hb]
    cases hrest : table.expand limit t with
    | ok u => exact ih hrest
    | error e =>
      rw [hrest] at ht
      cases ht
  | name m t hm hapart ih =>
    rw [h.expand_append limit m hapart] at ht
    rw [names_name hm hapart]
    intro n hn
    cases hfirst : table.expand limit m with
    | error e =>
      rw [hfirst] at ht
      cases ht
    | ok u =>
      cases hrest : table.expand limit t with
      | error e =>
        rw [hfirst, hrest] at ht
        cases ht
      | ok v =>
        rcases List.mem_cons.1 hn with hhead | htail
        · exact ⟨u, hhead ▸ hfirst⟩
        · exact ih hrest n htail

theorem expand_separator (h : table.HoldsValues) (limit : Nat) (x : Text) {b : UInt8}
    (hb : isNameByte b = false) (y : Text) :
    table.expand limit (x ++ b :: y) =
      (table.expand limit x).bind fun u => (table.expand limit y).map fun v => u ++ b :: v := by
  rw [h.expand_append limit x (apart_cons hb y), expand_byte table limit hb]
  cases table.expand limit x with
  | error e => rfl
  | ok u =>
    cases table.expand limit y with
    | error e => rfl
    | ok v => rfl

end Table.HoldsValues

/-! ### Statements -/

theorem flatMap_splitOn_of_whole {b : UInt8} {parts : List Text} (h : ∀ part ∈ parts, b ∉ part) :
    parts.flatMap (·.splitOn b) = parts := by
  induction parts with
  | nil => rfl
  | cons part parts ih =>
    rw [List.flatMap_cons, List.splitOn_eq_singleton (h part List.mem_cons_self),
      ih fun p hp => h p (List.mem_cons_of_mem part hp)]
    rfl

namespace Table.HoldsValues
variable {table : Table}

/-- Splitting an expansion gives what splitting the expansions of the pieces gives. -/
theorem splitOn_expand (h : table.HoldsValues) (limit : Nat) {b : UInt8}
    (hb : isNameByte b = false) (t : Text) :
    (table.expand limit t).map (·.splitOn b) =
      ((t.splitOn b).mapM (table.expand limit)).map (·.flatMap (·.splitOn b)) := by
  induction hlength : t.length using Nat.strongRecOn generalizing t with
  | _ k ih =>
    by_cases hmem : b ∈ t
    · obtain ⟨x, y, rfl, hx⟩ := List.eq_append_cons_of_mem hmem
      have hrest := ih y.length (by simp [← hlength]; omega) y rfl
      have hleft : (table.expand limit (x ++ b :: y)).map (·.splitOn b) =
          (table.expand limit x).bind fun u =>
            ((table.expand limit y).map (·.splitOn b)).map (u.splitOn b ++ ·) := by
        rw [h.expand_separator limit x hb]
        cases table.expand limit x with
        | error e => rfl
        | ok u =>
          cases table.expand limit y with
          | error e => rfl
          | ok v => exact congrArg Except.ok (List.splitOn_append_cons_self u v)
      have hright : (((x ++ b :: y).splitOn b).mapM (table.expand limit)).map
            (·.flatMap (·.splitOn b)) =
          (table.expand limit x).bind fun u =>
            (((y.splitOn b).mapM (table.expand limit)).map (·.flatMap (·.splitOn b))).map
              (u.splitOn b ++ ·) := by
        rw [List.splitOn_append_cons_self_of_not_mem hx, List.mapM_cons]
        cases table.expand limit x with
        | error e => rfl
        | ok u =>
          cases (y.splitOn b).mapM (table.expand limit) with
          | error e => rfl
          | ok pieces => rfl
      rw [hleft, hrest, hright]
    · rw [List.splitOn_eq_singleton hmem, List.mapM_cons, List.mapM_nil]
      cases table.expand limit t with
      | error e => rfl
      | ok u => exact congrArg Except.ok (List.flatMap_singleton (·.splitOn b) u).symm

end Table.HoldsValues

/-! ### The law of tokens -/

/-- Expansion that works on every token of a text by itself. -/
structure Tokenwise (table : Table) (limit : Nat) : Prop where
  /-- A text expands exactly if every token of it does. -/
  expands_iff : ∀ t, (∃ r, table.expand limit t = .ok r) ↔
    ∀ k ∈ tokens t, ∃ u, table.expand limit k.name = .ok u
  /-- Then the expansions take the places of the tokens, and all other bytes stay. -/
  eq_substitute : ∀ (σ : Text → Text) t,
    (∀ k ∈ tokens t, table.expand limit k.name = .ok (σ k.name)) →
      table.expand limit t = .ok (substitute σ t)
  /-- Otherwise replacements are nested too deep. -/
  tooDeep : ∀ t, (¬ ∃ r, table.expand limit t = .ok r) →
    ∃ name, table.expand limit t = .error (.tooDeep name limit)
  /-- The parts on both sides of a byte of no name are expanded one after the other. -/
  separator : ∀ x b y, isNameByte b = false → table.expand limit (x ++ b :: y) =
    (table.expand limit x).bind fun u => (table.expand limit y).map fun v => u ++ b :: v
  /-- A text that is expanded and then split gives the statements of its expanded statements. -/
  statements : ∀ t, (table.expand limit t).map (·.splitOn (byte ';')) =
    ((t.splitOn (byte ';')).mapM (table.expand limit)).map (·.flatMap (·.splitOn (byte ';')))
  /-- They are the expanded statements themselves when no expansion holds a separator. -/
  statements_of_whole : ∀ t parts, (t.splitOn (byte ';')).mapM (table.expand limit) = .ok parts →
    (∀ part ∈ parts, byte ';' ∉ part) →
      (table.expand limit t).map (·.splitOn (byte ';')) = .ok parts

/-- **Values are expanded token by token.** Under a table of values, whatever the limit, what a
token comes to does not depend on the text around it. -/
theorem Table.expand_tokenwise {table : Table} (h : table.HoldsValues) (limit : Nat) :
    Tokenwise table limit := by
  have hseparator : isNameByte (byte ';') = false := by decide
  constructor
  case expands_iff =>
    intro t
    rw [forall_tokens_iff (p := fun n => ∃ u, table.expand limit n = .ok u)]
    constructor
    · intro hr
      obtain ⟨r, hr⟩ := hr
      exact h.names_of_expand hr
    · intro hall
      have hvalue : ∀ n ∈ names t,
          table.expand limit n = .ok ((table.expand limit n).toOption.getD []) := by
        intro n hn
        obtain ⟨u, hu⟩ := hall n hn
        rw [hu]
        rfl
      exact ⟨_, h.expand_of_names hvalue⟩
  case eq_substitute =>
    intro σ t ht
    exact h.expand_of_names (forall_tokens_iff.1 ht)
  case tooDeep =>
    intro t hnone
    cases he : table.expand limit t with
    | ok r => exact absurd ⟨r, he⟩ hnone
    | error e =>
      obtain ⟨name, rfl⟩ := h.tooDeep_of_expand he
      exact ⟨name, rfl⟩
  case separator =>
    intro x b y hb
    exact h.expand_separator limit x hb y
  case statements => exact h.splitOn_expand limit hseparator
  case statements_of_whole =>
    intro t parts hparts hwhole
    rw [h.splitOn_expand limit hseparator, hparts]
    exact congrArg Except.ok (flatMap_splitOn_of_whole hwhole)

open Text (ascii) in
/-- A value that is an empty statement and a name, and a value that is empty. -/
theorem expand_tokenwise_two :
    let table : Table := .ofList [(ascii "A", .value (ascii ";B")), (ascii "B", .value [])]
    table.HoldsValues ∧ Tokenwise table 2 := by
  intro table
  have hvalues : table.HoldsValues := by decide
  exact ⟨hvalues, Table.expand_tokenwise hvalues 2⟩

end Preassembler.Macro
