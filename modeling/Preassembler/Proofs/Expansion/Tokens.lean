import Preassembler.Proofs.Expansion.Functions

/-! Names and argument lists, exactly.

A run is a piece of a text whose bytes are all of one kind, with no byte of that kind right before
or right behind it. Two runs that share a byte are the same (`MaximalRun.eq_of_shared`), so a list
of runs that covers every byte of the kind holds all of them (`RunsOf.mem_iff`). Such lists grow
with the text: a gap in front moves the runs, and a word in front is one more (`RunsOf.behind_gap`,
`RunsOf.behind_word`).

Main statement: the tokens of a text are the runs of its name bytes, and an argument list is found
at a place exactly if one stands there, and then read as the runs of bytes between the blanks
(`tokens_and_calls`). -/
namespace Preassembler.Macro

/-! ### Runs and their places -/

/-- A token that is moved by a number of bytes. -/
def Token.shift (n : Nat) (k : Token) : Token := { k with start := n + k.start }

/-- A piece of a text that consists of bytes that satisfy `p`, and could not be longer. -/
structure MaximalRun (p : UInt8 → Bool) (t : Text) (k : Token) : Prop where
  ne_nil : k.name ≠ []
  inside : ∀ b ∈ k.name, p b = true
  between : ∃ before behind, t = before ++ (k.name ++ behind) ∧ k.start = before.length ∧
    (∀ b ∈ before.getLast?, p b = false) ∧ ∀ b ∈ behind.head?, p b = false

namespace MaximalRun
variable {p : UInt8 → Bool} {t : Text} {k l : Token}

theorem start_lt_stop (h : MaximalRun p t k) : k.start < k.stop := by
  have hpos := List.length_pos_of_ne_nil h.ne_nil
  show k.start < k.start + k.name.length
  omega

theorem stop_le (h : MaximalRun p t k) : k.stop ≤ t.length := by
  obtain ⟨before, behind, rfl, hstart, -⟩ := h.between
  show k.start + k.name.length ≤ _
  simp only [List.length_append, hstart]
  omega

theorem byte_inside (h : MaximalRun p t k) {i : Nat} (hstart : k.start ≤ i) (hstop : i < k.stop) :
    ∃ b, t[i]? = some b ∧ p b = true := by
  obtain ⟨before, behind, rfl, hbefore, -⟩ := h.between
  have hi : i - before.length < k.name.length := by
    have hsum : i < k.start + k.name.length := hstop
    omega
  refine ⟨k.name[i - before.length], ?_, h.inside _ (List.getElem_mem hi)⟩
  rw [List.getElem?_append_right (by omega), List.getElem?_append_left hi,
    List.getElem?_eq_getElem hi]

theorem byte_before (h : MaximalRun p t k) {i : Nat} (hi : i + 1 = k.start) {b : UInt8}
    (hb : t[i]? = some b) : p b = false := by
  obtain ⟨before, behind, rfl, hstart, hend, -⟩ := h.between
  refine hend b ?_
  rw [List.getLast?_eq_getElem?, show before.length - 1 = i by omega]
  rwa [List.getElem?_append_left (by omega)] at hb

theorem byte_behind (h : MaximalRun p t k) {b : UInt8} (hb : t[k.stop]? = some b) :
    p b = false := by
  obtain ⟨before, behind, ht, hstart, -, hbehind⟩ := h.between
  have hfront : t = (before ++ k.name) ++ behind := by rw [ht, List.append_assoc]
  have hstop : k.stop = (before ++ k.name).length := by
    rw [List.length_append, ← hstart]
    rfl
  exact hbehind b (Text.getElem?_eq_head? hfront hstop ▸ hb)

/-- A run that shares a byte with another one does not begin behind it. -/
theorem start_le_of_shared (hk : MaximalRun p t k) (hl : MaximalRun p t l) {i : Nat}
    (hki : k.start ≤ i) (hli : i < l.stop) : k.start ≤ l.start := by
  false_or_by_contra
  obtain ⟨b, hb, hinside⟩ := hl.byte_inside (i := k.start - 1) (by omega) (by omega)
  have houtside := hk.byte_before (by omega) hb
  exact absurd (hinside.symm.trans houtside) (by decide)

theorem stop_le_of_shared (hk : MaximalRun p t k) (hl : MaximalRun p t l) {i : Nat}
    (hki : i < k.stop) (hli : l.start ≤ i) : l.stop ≤ k.stop := by
  false_or_by_contra
  obtain ⟨b, hb, hinside⟩ := hl.byte_inside (i := k.stop) (by omega) (by omega)
  have houtside := hk.byte_behind hb
  exact absurd (hinside.symm.trans houtside) (by decide)

theorem name_eq (h : MaximalRun p t k) : k.name = (t.drop k.start).take (k.stop - k.start) := by
  obtain ⟨before, behind, rfl, hstart, -⟩ := h.between
  have hlength : k.stop - k.start = k.name.length := Nat.add_sub_cancel_left ..
  rw [hlength, hstart, List.drop_left, List.take_left]

/-- **Two runs that share a byte are the same.** -/
theorem eq_of_shared (hk : MaximalRun p t k) (hl : MaximalRun p t l) {i : Nat}
    (hkstart : k.start ≤ i) (hkstop : i < k.stop) (hlstart : l.start ≤ i) (hlstop : i < l.stop) :
    k = l := by
  have hstart : k.start = l.start := Nat.le_antisymm (hk.start_le_of_shared hl hkstart hlstop)
    (hl.start_le_of_shared hk hlstart hkstop)
  have hstop : k.stop = l.stop := Nat.le_antisymm (hl.stop_le_of_shared hk hlstop hkstart)
    (hk.stop_le_of_shared hl hkstop hlstart)
  have hname : k.name = l.name := by rw [hk.name_eq, hl.name_eq, hstart, hstop]
  cases k
  cases l
  simp_all

/-- Behind a text that does not begin with such a byte, no run begins at the front. -/
theorem start_pos (h : MaximalRun p t k) (ht : ∀ b ∈ t.head?, p b = false) : 0 < k.start := by
  obtain ⟨before, behind, rfl, hstart, -⟩ := h.between
  rw [hstart]
  cases before with
  | cons b before => exact Nat.succ_pos _
  | nil =>
    obtain ⟨b, name, hname⟩ := List.exists_cons_of_ne_nil h.ne_nil
    have hinside : p b = true := h.inside b (by simp [hname])
    have houtside : p b = false := ht b (by simp [hname])
    exact absurd (hinside.symm.trans houtside) (by decide)

/-- Runs move with the text, unless the first one becomes longer. -/
theorem shift (h : MaximalRun p t k) {front : Text}
    (hseam : (∀ b ∈ front.getLast?, p b = false) ∨ ∀ b ∈ t.head?, p b = false) :
    MaximalRun p (front ++ t) (k.shift front.length) := by
  obtain ⟨before, behind, ht, hstart, hbefore, hbehind⟩ := h.between
  refine ⟨h.ne_nil, h.inside, front ++ before, behind, ?_, ?_, ?_, hbehind⟩
  · show front ++ t = front ++ before ++ (k.name ++ behind)
    rw [ht, List.append_assoc]
  · show front.length + k.start = _
    rw [hstart, List.length_append]
  · by_cases hempty : before = []
    · rcases hseam with hfront | hhead
      · rwa [hempty, List.append_nil]
      · have hpos := h.start_pos hhead
        rw [hstart, hempty] at hpos
        exact absurd hpos (Nat.lt_irrefl 0)
    · rwa [List.getLast?_append_of_ne_nil _ hempty]

end MaximalRun

/-! ### All runs of a text -/

/-- All runs of bytes that satisfy `p`, in order. -/
structure RunsOf (p : UInt8 → Bool) (t : Text) (runs : List Token) : Prop where
  maximal : ∀ k ∈ runs, MaximalRun p t k
  ordered : runs.Pairwise fun k l => k.stop < l.start
  covered : ∀ i b, t[i]? = some b → p b = true → ∃ k ∈ runs, k.start ≤ i ∧ i < k.stop

namespace RunsOf
variable {p : UInt8 → Bool} {t : Text} {runs : List Token}

theorem mem_iff (h : RunsOf p t runs) {k : Token} : k ∈ runs ↔ MaximalRun p t k := by
  refine ⟨h.maximal k, fun hk => ?_⟩
  obtain ⟨b, hb, hinside⟩ := hk.byte_inside (Nat.le_refl _) hk.start_lt_stop
  obtain ⟨l, hl, hstart, hstop⟩ := h.covered k.start b hb hinside
  rwa [hk.eq_of_shared (h.maximal l hl) (Nat.le_refl _) hk.start_lt_stop hstart hstop]

theorem existsUnique (h : RunsOf p t runs) {i : Nat} {b : UInt8} (hb : t[i]? = some b)
    (hp : p b = true) : ∃! k, k ∈ runs ∧ k.start ≤ i ∧ i < k.stop := by
  obtain ⟨k, hk, hstart, hstop⟩ := h.covered i b hb hp
  refine ⟨k, ⟨hk, hstart, hstop⟩, fun l ⟨hl, hlstart, hlstop⟩ => ?_⟩
  exact (h.maximal l hl).eq_of_shared (h.maximal k hk) hlstart hlstop hstart hstop

/-- Between two runs there is a byte of another kind. -/
theorem separated (h : RunsOf p t runs) : runs.Pairwise fun k l =>
    ∃ i b, k.stop ≤ i ∧ i < l.start ∧ t[i]? = some b ∧ p b = false := by
  refine h.ordered.imp_of_mem fun {k l} hk hl hlt => ?_
  have hstop := (h.maximal l hl).stop_le
  have hstart := (h.maximal l hl).start_lt_stop
  have hget : t[k.stop]? = some t[k.stop] := List.getElem?_eq_getElem (by omega)
  exact ⟨k.stop, _, Nat.le_refl _, hlt, hget, (h.maximal k hk).byte_behind hget⟩

theorem nil : RunsOf p [] [] := ⟨nofun, .nil, nofun⟩

theorem ordered_shift (h : RunsOf p t runs) (n : Nat) :
    (runs.map (Token.shift n)).Pairwise fun k l => k.stop < l.start := by
  rw [List.pairwise_map]
  refine h.ordered.imp fun {k l} hlt => ?_
  simp only [Token.shift, Token.stop] at hlt ⊢
  omega

theorem covered_shift (h : RunsOf p t runs) {front : Text} {i : Nat} {b : UInt8}
    (hi : front.length ≤ i) (hb : (front ++ t)[i]? = some b) (hp : p b = true) :
    ∃ k ∈ runs.map (Token.shift front.length), k.start ≤ i ∧ i < k.stop := by
  rw [List.getElem?_append_right hi] at hb
  obtain ⟨k, hk, hstart, hstop⟩ := h.covered _ b hb hp
  refine ⟨k.shift front.length, List.mem_map_of_mem hk, ?_⟩
  simp only [Token.shift, Token.stop] at hstop ⊢
  omega

theorem behind_gap (h : RunsOf p t runs) {gap : Text} (hgap : ∀ b ∈ gap, p b = false) :
    RunsOf p (gap ++ t) (runs.map (Token.shift gap.length)) where
  maximal := by
    rw [List.forall_mem_map]
    intro k hk
    exact (h.maximal k hk).shift (.inl fun b hb => hgap b (List.mem_of_getLast? hb))
  ordered := h.ordered_shift gap.length
  covered := by
    intro i b hb hp
    by_cases hi : i < gap.length
    · rw [List.getElem?_append_left hi] at hb
      exact absurd (hp.symm.trans (hgap b (List.mem_of_getElem? hb))) (by decide)
    · exact h.covered_shift (by omega) hb hp

theorem of_gap {gap : Text} (hgap : ∀ b ∈ gap, p b = false) : RunsOf p gap [] := by
  have hruns := nil.behind_gap hgap
  rwa [List.append_nil] at hruns

theorem behind_word (h : RunsOf p t runs) {word : Text} (hne : word ≠ [])
    (hword : ∀ b ∈ word, p b = true) (ht : ∀ b ∈ t.head?, p b = false) :
    RunsOf p (word ++ t) (⟨0, word⟩ :: runs.map (Token.shift word.length)) where
  maximal := by
    rw [List.forall_mem_cons, List.forall_mem_map]
    exact ⟨⟨hne, hword, [], t, rfl, rfl, nofun, ht⟩, fun k hk => (h.maximal k hk).shift (.inr ht)⟩
  ordered := by
    rw [List.pairwise_cons, List.forall_mem_map]
    refine ⟨fun k hk => ?_, h.ordered_shift word.length⟩
    have hpos := (h.maximal k hk).start_pos ht
    simp only [Token.shift, Token.stop]
    omega
  covered := by
    intro i b hb hp
    by_cases hi : i < word.length
    · refine ⟨⟨0, word⟩, List.mem_cons_self, Nat.zero_le i, ?_⟩
      simpa only [Token.stop, Nat.zero_add] using hi
    · obtain ⟨k, hk, hcovers⟩ := h.covered_shift (by omega) hb hp
      exact ⟨k, List.mem_cons_of_mem _ hk, hcovers⟩

end RunsOf

/-! ### Words and tokens -/

theorem shift_zero (runs : List Token) : runs.map (Token.shift 0) = runs := by
  have hsame : Token.shift 0 = id := funext fun k => by simp only [Token.shift, Nat.zero_add, id]
  rw [hsame, List.map_id]

theorem shift_shift (n m : Nat) (runs : List Token) :
    (runs.map (Token.shift n)).map (Token.shift m) = runs.map (Token.shift (m + n)) := by
  rw [List.map_map]
  refine List.map_congr_left fun k _ => ?_
  simp only [Function.comp, Token.shift, Nat.add_assoc]

theorem name_shift (n : Nat) (runs : List Token) :
    (runs.map (Token.shift n)).map Token.name = runs.map Token.name := List.map_map

/-- The arguments written in a text are the runs of bytes other than blanks. -/
theorem exists_runs_arguments (t : Text) :
    ∃ runs, RunsOf (!isGapByte ·) t runs ∧ arguments t = runs.map Token.name := by
  induction t using words_induction isGapByte with
  | gap gap hgap =>
    exact ⟨[], .of_gap fun b hb => by simp [hgap b hb], arguments_blanks hgap⟩
  | word gap word behind hgap hne hword hbehind ih =>
    obtain ⟨runs, hruns, hargs⟩ := ih
    have hdense : ∀ b ∈ word, (!isGapByte b) = true := fun b hb => by simp [hword b hb]
    have hhead : ∀ b ∈ behind.head?, (!isGapByte b) = false := fun b hb => by simp [hbehind b hb]
    refine ⟨_, (hruns.behind_word hne hdense hhead).behind_gap fun b hb => by simp [hgap b hb], ?_⟩
    rw [arguments_word hgap hne hword hbehind, name_shift, List.map_cons, name_shift, hargs]

/-- The place from which tokens are counted moves all of them. -/
theorem foldl_note (l : List Lexeme) (place : Nat) (found : List Token) :
    (l.foldl Token.note (place, found)).2.reverse =
      found.reverse ++ (l.foldl Token.note (0, [])).2.reverse.map (Token.shift place) := by
  induction l generalizing place found with
  | nil => exact (List.append_nil _).symm
  | cons lexeme l ih =>
    cases lexeme with
    | name n =>
      rw [List.foldl_cons, List.foldl_cons, Token.note, Token.note, ih, ih (0 + n.length),
        List.map_append, shift_shift, List.reverse_cons, List.append_assoc, Nat.zero_add]
      rfl
    | gap g =>
      rw [List.foldl_cons, List.foldl_cons, Token.note, Token.note, ih, ih (0 + g.length),
        List.map_append, shift_shift, Nat.zero_add]
      rfl

theorem tokens_nil : tokens [] = [] := by
  rw [tokens, lexemes, lexemesFrom]
  rfl

theorem tokens_name {n t : Text} (hn : isName n = true) (ht : Apart t) :
    tokens (n ++ t) = ⟨0, n⟩ :: (tokens t).map (Token.shift n.length) := by
  rw [tokens, lexemes_name hn ht, List.foldl_cons, Token.note, foldl_note, Nat.zero_add]
  rfl

theorem tokens_gap {gap t : Text} (hgap : ∀ b ∈ gap, isNameByte b = false)
    (ht : ∀ b ∈ t.head?, isNameByte b = true) :
    tokens (gap ++ t) = (tokens t).map (Token.shift gap.length) := by
  by_cases hne : gap = []
  · rw [hne, List.nil_append, List.length_nil, shift_zero]
  · rw [tokens, lexemes_gap hne hgap ht, List.foldl_cons, Token.note, foldl_note, Nat.zero_add]
    rfl

/-- **The tokens of a text are the runs of its name bytes.** -/
theorem runsOf_tokens (t : Text) : RunsOf isNameByte t (tokens t) := by
  induction t using lexemes_induction with
  | gap gap hgap =>
    have htokens : tokens (gap ++ []) = [] := by
      rw [tokens_gap (t := []) hgap nofun, tokens_nil]
      rfl
    rw [List.append_nil] at htokens
    rw [htokens]
    exact .of_gap hgap
  | name gap name tail hgap hname htail ih =>
    rw [tokens_gap hgap (head_of_name hname tail), tokens_name hname htail]
    have hword := ih.behind_word (ne_nil_of_isName hname) (fun b => byte_of_isName hname) htail
    exact hword.behind_gap hgap

/-! ### Names and argument lists -/

/-- **Names and argument lists are found exactly.** The tokens of a text are the runs of its name
bytes, in order: every name byte lies in one of them, and between two there is a byte of no name. At
a place of a text an argument list is found if one stands there, and only then. Its size leads to
what is behind the closing parenthesis, and its arguments are the runs between the blanks, in
order. -/
theorem tokens_and_calls (t : Text) :
    (∀ k, k ∈ tokens t ↔ MaximalRun isNameByte t k) ∧
      (tokens t).Pairwise (fun k l => k.stop < l.start) ∧
      (∀ i b, t[i]? = some b → isNameByte b = true →
        ∃! k, k ∈ tokens t ∧ k.start ≤ i ∧ i < k.stop) ∧
      (tokens t).Pairwise (fun k l =>
        ∃ i b, k.stop ≤ i ∧ i < l.start ∧ t[i]? = some b ∧ isNameByte b = false) ∧
      ∀ place,
        (callAt? (t.drop place) = none ↔
          ¬ ∃ gap inner rest, Encloses (t.drop place) gap inner rest) ∧
        ∀ gap inner rest, Encloses (t.drop place) gap inner rest → ∃ c runs,
          callAt? (t.drop place) = some c ∧ c.size = gap.length + inner.length + 2 ∧
            c.rest = rest ∧ t.drop (place + c.size) = rest ∧
            RunsOf (!isGapByte ·) inner runs ∧ c.args = runs.map Token.name := by
  have hruns := runsOf_tokens t
  refine ⟨fun k => hruns.mem_iff, hruns.ordered, fun i b => hruns.existsUnique, hruns.separated,
    fun place => ⟨callAt?_eq_none_iff, fun gap inner rest hlist => ?_⟩⟩
  obtain ⟨runs, hwords, hargs⟩ := exists_runs_arguments inner
  refine ⟨_, runs, hlist.callAt?_eq, rfl, rfl, ?_, hwords, hargs⟩
  show t.drop (place + (gap.length + inner.length + 2)) = rest
  rw [← List.drop_drop, hlist.eq_callList, ← length_callList, List.drop_left]

open Text (ascii) in
/-- Blanks before the parenthesis and around the arguments, which need not be names. -/
theorem tokens_and_calls_spaced :
    let t := ascii "F ( a,b\tc )d)"
    Encloses (t.drop 1) (ascii " ") (ascii " a,b\tc ") (ascii "d)") ∧
      ∃ c runs, callAt? (t.drop 1) = some c ∧ c.size = 10 ∧ t.drop (1 + c.size) = ascii "d)" ∧
        RunsOf (!isGapByte ·) (ascii " a,b\tc ") runs ∧ c.args = runs.map Token.name := by
  intro t
  have hlist : Encloses (t.drop 1) (ascii " ") (ascii " a,b\tc ") (ascii "d)") :=
    ⟨by decide, by decide, by decide, by decide⟩
  obtain ⟨-, -, -, -, hcalls⟩ := tokens_and_calls t
  obtain ⟨c, runs, hcall, hsize, -, hbehind, hruns, hargs⟩ := (hcalls 1).2 _ _ _ hlist
  exact ⟨hlist, c, runs, hcall, hsize, hbehind, hruns, hargs⟩

end Preassembler.Macro
