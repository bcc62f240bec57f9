import Preassembler.Macro.Expansion

/-! Runs counted in steps.

`Returns step n s o` says that a process that starts in `s` goes on `n` times and then gives the
answer `o`. It is a relation and not a function, so it can be said of steps that need not come to an
end. Processes whose states correspond, step by step, return the same (`Returns.transfer`).

Main statement: expansion returns, after a finite number of steps of the scan, what `expand` answers
(`exists_returns_expand`); this holds also of the empty table, which `expand` does not scan for. -/
namespace Preassembler.Macro

section Process
variable {σ τ : Type} {step : σ → Progress σ} {step' : τ → Progress τ}

/-- From a state, `n` steps lead on, and the next one gives the answer. -/
inductive Returns (step : σ → Progress σ) : Nat → σ → Except Error Text → Prop where
  | finished {s t} : step s = .finished t → Returns step 0 s (.ok t)
  | failed {s e} : step s = .failed e → Returns step 0 s (.error e)
  | next {s s' n o} : step s = .next s' → Returns step n s' o → Returns step (n + 1) s o

/-- A process returns once, and one answer. -/
theorem Returns.unique {n m : Nat} {s : σ} {o p : Except Error Text} (h : Returns step n s o)
    (h' : Returns step m s p) : n = m ∧ o = p := by
  induction h generalizing m with
  | finished hs =>
    cases h' with
    | finished hs' => exact ⟨rfl, by simp_all⟩
    | failed hs' => simp_all
    | next hs' => simp_all
  | failed hs =>
    cases h' with
    | finished hs' => simp_all
    | failed hs' => exact ⟨rfl, by simp_all⟩
    | next hs' => simp_all
  | next hs _ ih =>
    cases h' with
    | finished hs' => simp_all
    | failed hs' => simp_all
    | next hs' hr' =>
      obtain rfl := Progress.next.inj (hs.symm.trans hs')
      obtain ⟨rfl, rfl⟩ := ih hr'
      exact ⟨rfl, rfl⟩

theorem Returns.pos_of_next {n : Nat} {s s' : σ} {o : Except Error Text} (h : Returns step n s o)
    (hs : step s = .next s') : 0 < n := by
  cases h with
  | finished hs' => cases hs.symm.trans hs'
  | failed hs' => cases hs.symm.trans hs'
  | next => exact Nat.succ_pos _

/-- The same answer, or states in a relation. -/
inductive Matches (R : σ → τ → Prop) : Progress σ → Progress τ → Prop where
  | finished {t} : Matches R (.finished t) (.finished t)
  | failed {e} : Matches R (.failed e) (.failed e)
  | next {s t} : R s t → Matches R (.next s) (.next t)

/-- Answers in a relation, or states in a relation. -/
inductive Mirrors (R : σ → τ → Prop) (S : Except Error Text → Except Error Text → Prop) :
    Progress σ → Progress τ → Prop where
  | finished {t t'} : S (.ok t) (.ok t') → Mirrors R S (.finished t) (.finished t')
  | failed {e e'} : S (.error e) (.error e') → Mirrors R S (.failed e) (.failed e')
  | next {s t} : R s t → Mirrors R S (.next s) (.next t)

theorem Matches.mirrors {R : σ → τ → Prop} {p : Progress σ} {q : Progress τ} (h : Matches R p q) :
    Mirrors R Eq p q := by
  cases h with
  | finished => exact .finished rfl
  | failed => exact .failed rfl
  | next hR => exact .next hR

/-- Processes whose related states mirror each other return answers in the relation, after as many
steps. The relation of states may depend on the number of steps that remain, and only states that
return the answer need to mirror each other. -/
theorem Returns.mirror {R : Nat → σ → τ → Prop} {S : Except Error Text → Except Error Text → Prop}
    {o : Except Error Text}
    (hstep : ∀ {n s t}, R n s t → Returns step n s o → Mirrors (R (n - 1)) S (step s) (step' t))
    {n : Nat} {s : σ} {t : τ} (h : Returns step n s o) (hR : R n s t) :
    ∃ o', S o o' ∧ Returns step' n t o' := by
  induction h generalizing t with
  | finished hs =>
    have hm := hstep hR (.finished hs)
    generalize ht : step' t = p at hm
    rw [hs] at hm
    cases hm with
    | finished hS => exact ⟨_, hS, .finished ht⟩
  | failed hs =>
    have hm := hstep hR (.failed hs)
    generalize ht : step' t = p at hm
    rw [hs] at hm
    cases hm with
    | failed hS => exact ⟨_, hS, .failed ht⟩
  | next hs hr ih =>
    have hm := hstep hR (.next hs hr)
    generalize ht : step' t = p at hm
    rw [hs] at hm
    cases hm with
    | next hR' =>
      obtain ⟨o', hS, hr'⟩ := ih hstep hR'
      exact ⟨o', hS, .next ht hr'⟩

/-- Processes whose related states match return the same after as many steps. -/
theorem Returns.transfer {R : Nat → σ → τ → Prop} {o : Except Error Text}
    (hstep : ∀ {n s t}, R n s t → Returns step n s o → Matches (R (n - 1)) (step s) (step' t))
    {n : Nat} {s : σ} {t : τ} (h : Returns step n s o) (hR : R n s t) : Returns step' n t o := by
  obtain ⟨o', rfl, hr⟩ := h.mirror (R := R) (S := Eq) (fun hR hr => (hstep hR hr).mirrors) hR
  exact hr

/-- States with the same step return the same. -/
theorem Returns.of_step_eq {n : Nat} {s s' : σ} {o : Except Error Text} (h : Returns step n s o)
    (heq : step s' = step s) : Returns step n s' o := by
  cases h with
  | finished hs => exact .finished (heq.trans hs)
  | failed hs => exact .failed (heq.trans hs)
  | next hs hr => exact .next (heq.trans hs) hr

/-! ### Processes that never return -/

/-- At least so many steps lead on. -/
def Endures (step : σ → Progress σ) : Nat → σ → Prop
  | 0, _ => True
  | n + 1, s => ∃ s', step s = .next s' ∧ Endures step n s'

/-- Steps lead on forever. -/
def Endless (step : σ → Progress σ) (s : σ) : Prop := ∀ n, Endures step n s

theorem Returns.not_endures {n : Nat} {s : σ} {o : Except Error Text} (h : Returns step n s o) :
    ¬ Endures step (n + 1) s := by
  induction h with
  | finished hs =>
    rintro ⟨s', hs', -⟩
    cases hs.symm.trans hs'
  | failed hs =>
    rintro ⟨s', hs', -⟩
    cases hs.symm.trans hs'
  | next hs _ ih =>
    rintro ⟨s', hs', hrest⟩
    obtain rfl := Progress.next.inj (hs.symm.trans hs')
    exact ih hrest

theorem exists_returns_of_not_endures {n : Nat} {s : σ} (h : ¬ Endures step n s) :
    ∃ m o, Returns step m s o := by
  induction n generalizing s with
  | zero => exact absurd trivial h
  | succ n ih =>
    cases hs : step s with
    | finished t => exact ⟨0, _, .finished hs⟩
    | failed e => exact ⟨0, _, .failed hs⟩
    | next s' =>
      obtain ⟨m, o, hr⟩ := ih fun hrest => h ⟨s', hs, hrest⟩
      exact ⟨m + 1, o, .next hs hr⟩

/-- A process goes on forever exactly if it gives no answer. -/
theorem endless_iff {s : σ} : Endless step s ↔ ¬ ∃ n o, Returns step n s o := by
  constructor
  · rintro h ⟨n, o, hr⟩
    exact hr.not_endures (h (n + 1))
  · intro h n
    exact Classical.byContradiction fun hn => h (exists_returns_of_not_endures hn)

end Process

/-! ### What a step of the scan can do -/

namespace Scan
variable {table : Table} {limit : Nat}

/-- The regions around an invocation made of the next name and `size` more bytes. -/
def outer (s : Scan) (size : Nat) : List Region :=
  s.around.dropWhile fun r => s.ahead - s.name.length - size < r.after

/-- The scan after such an invocation is replaced by `text`, with `rest` behind it. -/
def put (s : Scan) (size : Nat) (text rest : Text) : Scan where
  passed := s.gap.reverse ++ s.passed
  rest := text ++ rest
  left := text.length + (s.ahead - s.name.length - size)
  opened := ⟨s.ahead - s.name.length - size, depthIn (s.outer size)⟩ :: s.outer size

theorem length_outer_le (s : Scan) (size : Nat) : (s.outer size).length ≤ s.opened.length :=
  ((List.dropWhile_sublist _).trans (List.dropWhile_sublist _)).length_le

theorem Valid.depthIn_outer {s : Scan} (h : s.Valid limit) {size : Nat} :
    depthIn (s.outer size) = (s.outer size).length + 1 :=
  Nested.depthIn ((h.nested.dropWhile _).dropWhile _)

theorem Valid.after_le_of_mem_outer {s : Scan} (h : s.Valid limit) {size : Nat} :
    ∀ r ∈ s.outer size, r.after ≤ s.ahead - s.name.length - size :=
  (h.nested.dropWhile _).after_le _

/-- All a step can come to. -/
inductive Step (table : Table) (limit : Nat) (s : Scan) : Progress Scan → Prop where
  | finish : s.name.isEmpty = true → Step table limit s (.finished s.text)
  | pass : s.name.isEmpty = false → table.read s.name s.tail = .plain →
      Step table limit s (.next s.pass)
  | mismatch {expected given} : s.name.isEmpty = false →
      table.read s.name s.tail = .mismatch expected given →
      Step table limit s (.failed (.arity s.name expected given))
  | tooDeep {size text rest} : s.name.isEmpty = false →
      table.read s.name s.tail = .invocation size text rest → limit < depthIn (s.outer size) →
      Step table limit s (.failed (.tooDeep s.name limit))
  | put {size text rest} : s.name.isEmpty = false →
      table.read s.name s.tail = .invocation size text rest → depthIn (s.outer size) ≤ limit →
      Step table limit s (.next (s.put size text rest))

theorem step_cases (table : Table) (limit : Nat) (s : Scan) :
    Step table limit s (s.step table limit) := by
  unfold step
  cases hn : s.name.isEmpty with
  | true => exact .finish hn
  | false =>
    cases hr : table.read s.name s.tail with
    | plain => exact .pass hn hr
    | mismatch expected given => exact .mismatch hn hr
    | invocation size text rest =>
      show Step table limit s (if limit < depthIn (s.outer size) then _ else _)
      split
      · exact .tooDeep hn hr (by assumption)
      · exact .put hn hr (by omega)

theorem step_of_eq {s : Scan} {p : Progress Scan} (h : s.step table limit = p) :
    Step table limit s p := h ▸ step_cases table limit s

theorem rest_eq (s : Scan) : s.gap ++ (s.name ++ s.tail) = s.rest := by
  rw [name, tail, List.takeWhile_append_dropWhile]
  exact List.takeWhile_append_dropWhile

/-- Passing a name moves the scan and keeps the text. -/
theorem text_pass (s : Scan) : s.pass.text = s.text := by
  simp [text, pass, ← s.rest_eq]

/-! ### The scan returns -/

/-- A scan returns what `run` computes, as each step makes the profile smaller. -/
theorem exists_returns_run (table : Table) (s : ValidScan limit) :
    ∃ n, Returns (step table limit) n s.1 (run table limit s) := by
  induction s using (orderByProfile limit).wf.induction with
  | _ s ih =>
    cases hs : s.1.step table limit with
    | finished t => exact ⟨0, run_finished hs ▸ .finished hs⟩
    | failed e => exact ⟨0, run_failed hs ▸ .failed hs⟩
    | next s' =>
      obtain ⟨n, hn⟩ := ih ⟨s', valid_step s.2 hs⟩ (less_step s.2 hs)
      exact ⟨n + 1, run_next hs ▸ .next hs hn⟩

theorem read_of_isEmpty (hempty : table.isEmpty) (name tail : Text) :
    table.read name tail = .plain := by
  have hfind : table.find? name = none := by
    rw [Dictionary.find?, List.isEmpty_iff.1 hempty]
    rfl
  rw [Table.read, hfind]

/-- Without macros every name is plain, and the text is returned as it was. -/
theorem eq_text_of_returns {n : Nat} {s : Scan} {o : Except Error Text} (hempty : table.isEmpty)
    (h : Returns (step table limit) n s o) : o = .ok s.text := by
  induction h with
  | finished hs =>
    cases step_of_eq hs
    rfl
  | failed hs =>
    have hstep := step_of_eq hs
    cases hstep <;> simp_all [read_of_isEmpty hempty]
  | next hs _ ih =>
    cases step_of_eq hs with
    | pass => rw [ih, text_pass]
    | put _ hr => cases hr.symm.trans (read_of_isEmpty hempty _ _)

/-- A scan that fails met a call with the wrong number of arguments, or nests too deep. -/
theorem error_of_returns {n : Nat} {s : Scan} {e : Error}
    (h : Returns (step table limit) n s (.error e)) :
    (∃ name expected given, e = .arity name expected given) ∨ ∃ name, e = .tooDeep name limit := by
  generalize ho : Except.error e = o at h
  induction h with
  | finished _ => cases ho
  | failed hs =>
    cases ho
    cases step_of_eq hs with
    | mismatch => exact .inl ⟨_, _, _, rfl⟩
    | tooDeep => exact .inr ⟨_, rfl⟩
  | next _ _ ih => exact ih ho

end Scan

namespace Table

/-- The scan of a text returns what `expand` answers, also for the empty table, for which `expand`
does not scan. -/
theorem exists_returns_expand (table : Table) (limit : Nat) (t : Text) :
    ∃ n, Returns (Scan.step table limit) n (.start t) (table.expand limit t) := by
  obtain ⟨n, hn⟩ := Scan.exists_returns_run table ⟨.start t, Scan.valid_start limit t⟩
  refine ⟨n, ?_⟩
  rw [expand]
  split
  · rename_i hempty
    rw [Scan.eq_text_of_returns hempty hn] at hn
    exact hn
  · exact hn

/-- **Expansion ends.** Whatever the macros, the text and the limit, the scan comes to its answer
after finitely many steps, and the answer is a text, a call with the wrong number of arguments or an
excess of nesting. -/
theorem expand_terminates (table : Table) (limit : Nat) (t : Text) :
    ∃ n, Returns (Scan.step table limit) n (.start t) (table.expand limit t) ∧
      ((∃ r, table.expand limit t = .ok r) ∨
        (∃ name expected given, table.expand limit t = .error (.arity name expected given)) ∨
        ∃ name, table.expand limit t = .error (.tooDeep name limit)) := by
  obtain ⟨n, hn⟩ := exists_returns_expand table limit t
  refine ⟨n, hn, ?_⟩
  cases ho : table.expand limit t with
  | ok r => exact .inl ⟨r, rfl⟩
  | error e =>
    rw [ho] at hn
    rcases Scan.error_of_returns hn with ⟨name, expected, given, rfl⟩ | ⟨name, rfl⟩
    · exact .inr (.inl ⟨name, expected, given, rfl⟩)
    · exact .inr (.inr ⟨name, rfl⟩)

end Table

end Preassembler.Macro
