import Preassembler.Macro.Name

/-! Texts put in for the names of a text.

`substitute` replaces every name of a text by a text of its own, all at once. A name lies between
bytes that belong to no name, so what is put in for it never joins with what is around it:
substitution goes on piece by piece (`substitute_append`), and two of them after each other are one
(`substitute_substitute`).

Bodies that may mention each other give a name a meaning when there are no circles among them.
`meaning` follows bodies to a given depth, and from the rank of a name on it does not change any
more (`meaning_eq`). -/
namespace Preassembler.Macro

/-! ### Names and gaps -/

theorem ne_nil_of_isName {n : Text} (h : isName n = true) : n ≠ [] := by
  rintro rfl
  cases h

theorem byte_of_isName {n : Text} (h : isName n = true) {b : UInt8} (hb : b ∈ n) :
    isNameByte b = true := by
  simp only [isName, Bool.and_eq_true, List.all_eq_true] at h
  exact h.2 b hb

/-- A text that does not begin with a name. -/
def Apart (t : Text) : Prop := ∀ b ∈ t.head?, isNameByte b = false

theorem apart_nil : Apart [] := nofun

theorem apart_cons {b : UInt8} (h : isNameByte b = false) (t : Text) : Apart (b :: t) := by
  intro c hc
  obtain rfl := Option.some.inj hc
  exact h

theorem apart_append {x y : Text} (hx : Apart x) (hy : Apart y) : Apart (x ++ y) := by
  cases x with
  | nil => exact hy
  | cons b x => exact hx

theorem apart_dropWhile (t : Text) : Apart (t.dropWhile isNameByte) := by
  intro b hb
  have hhead := List.head?_dropWhile_not isNameByte t
  rw [hb] at hhead
  simpa using hhead

theorem takeWhile_front {α : Type} {p : α → Bool} {x y : List α} (hx : ∀ b ∈ x, p b = true)
    (hy : ∀ b ∈ y.head?, p b = false) : (x ++ y).takeWhile p = x := by
  rw [List.takeWhile_append_of_pos hx]
  cases y with
  | nil => simp
  | cons b y => simp [hy b rfl]

theorem dropWhile_front {α : Type} {p : α → Bool} {x y : List α} (hx : ∀ b ∈ x, p b = true)
    (hy : ∀ b ∈ y.head?, p b = false) : (x ++ y).dropWhile p = y := by
  rw [List.dropWhile_append_of_pos hx]
  cases y with
  | nil => rfl
  | cons b y => simp [hy b rfl]

/-- Texts are made of bytes that belong to no name, and of names with such a byte or nothing behind
them. -/
@[elab_as_elim]
theorem names_induction {motive : Text → Prop} (nil : motive [])
    (gap : ∀ b t, isNameByte b = false → motive t → motive (b :: t))
    (name : ∀ n t, isName n = true → Apart t → motive t → motive (n ++ t)) (t : Text) :
    motive t := by
  induction hlength : t.length using Nat.strongRecOn generalizing t with
  | _ k ih =>
    cases t with
    | nil => exact nil
    | cons b r =>
      cases hb : isNameByte b with
      | false => exact gap b r hb (ih r.length (by simp [← hlength]) r rfl)
      | true =>
        have hrest := name (b :: r.takeWhile isNameByte) (r.dropWhile isNameByte)
          (by simp [isName, hb]) (apart_dropWhile r)
          (ih _ (by
            have := length_dropWhile_le isNameByte r
            simp only [← hlength, List.length_cons]
            omega) _ rfl)
        rwa [List.cons_append, List.takeWhile_append_dropWhile] at hrest

/-! ### Reading a text by names -/

theorem lexemesFrom_eq (seen : List Lexeme) (t : Text) :
    lexemesFrom seen t = seen.reverse ++ lexemes t := by
  induction hlength : t.length using Nat.strongRecOn generalizing seen t with
  | _ k ih =>
    cases t with
    | nil => simp [lexemes, lexemesFrom]
    | cons b r =>
      have hshort : ∀ p : UInt8 → Bool, (r.dropWhile p).length < k := fun p => by
        have := length_dropWhile_le p r
        simp only [← hlength, List.length_cons]
        omega
      rw [lexemes, lexemesFrom, lexemesFrom]
      split
      · rw [ih _ (hshort _) _ _ rfl, ih _ (hshort _) [_] _ rfl]
        simp
      · rw [ih _ (hshort _) _ _ rfl, ih _ (hshort _) [_] _ rfl]
        simp

section Translate
variable {β : Type} {onName onName' : Text → List β} {onByte : UInt8 → List β}

/-- Puts something in for every name of a text and for every byte that belongs to none. -/
def translate (onName : Text → List β) (onByte : UInt8 → List β) (t : Text) : List β :=
  (lexemes t).flatMap fun
    | .name n => onName n
    | .gap g => g.flatMap onByte

theorem translate_nil : translate onName onByte [] = [] := by
  simp [translate, lexemes, lexemesFrom]

theorem translate_name {n t : Text} (hn : isName n = true) (ht : Apart t) :
    translate onName onByte (n ++ t) = onName n ++ translate onName onByte t := by
  cases n with
  | nil => cases hn
  | cons b n =>
    have hb : isNameByte b = true := byte_of_isName hn List.mem_cons_self
    have hrest : ∀ c ∈ n, isNameByte c = true := fun c hc =>
      byte_of_isName hn (List.mem_cons_of_mem b hc)
    rw [translate, List.cons_append, lexemes, lexemesFrom, if_pos hb, takeWhile_front hrest ht,
      dropWhile_front hrest ht, lexemesFrom_eq]
    rfl

theorem translate_of_isName {n : Text} (h : isName n = true) :
    translate onName onByte n = onName n := by
  have hname := @translate_name _ onName onByte _ _ h apart_nil
  rwa [List.append_nil, translate_nil, List.append_nil] at hname

/-- Bytes between names go over one by one. -/
theorem translate_gap (t : Text) : translate onName onByte t =
    (t.takeWhile (!isNameByte ·)).flatMap onByte ++
      translate onName onByte (t.dropWhile (!isNameByte ·)) := by
  cases t with
  | nil => simp [translate_nil]
  | cons b r =>
    cases hb : isNameByte b with
    | true => simp [hb]
    | false =>
      rw [translate, lexemes, lexemesFrom, if_neg (by simp [hb]), lexemesFrom_eq]
      simp [hb, translate]

theorem translate_byte {b : UInt8} (hb : isNameByte b = false) (t : Text) :
    translate onName onByte (b :: t) = onByte b ++ translate onName onByte t := by
  rw [translate_gap (b :: t), translate_gap t]
  simp [hb]

theorem translate_append {x y : Text} (hy : Apart y) :
    translate onName onByte (x ++ y) = translate onName onByte x ++ translate onName onByte y := by
  induction x using names_induction with
  | nil => simp [translate_nil]
  | gap b x hb ih =>
    rw [List.cons_append, translate_byte hb, translate_byte hb, ih, List.append_assoc]
  | name n x hn hx ih =>
    rw [List.append_assoc, translate_name hn (apart_append hx hy), translate_name hn hx, ih,
      List.append_assoc]

end Translate

/-! ### Substitution -/

/-- The names of a text, in order. -/
def names (t : Text) : List Text := translate (fun n => [n]) (fun _ => []) t

/-- A text with another text in place of every name. -/
def substitute (σ : Text → Text) (t : Text) : Text := translate σ (fun b => [b]) t

section Substitute
variable {β : Type} {onName onName' : Text → List β} {onByte : UInt8 → List β} {σ τ : Text → Text}

theorem mem_names {n t : Text} : n ∈ names t ↔ .name n ∈ lexemes t := by
  rw [names, translate, List.mem_flatMap]
  constructor
  · rintro ⟨l, hl, hn⟩
    cases l with
    | name m => exact List.mem_singleton.1 hn ▸ hl
    | gap g => simp at hn
  · intro hn
    exact ⟨.name n, hn, List.mem_singleton.2 rfl⟩

theorem isName_of_mem_names {n t : Text} (h : n ∈ names t) : isName n = true := by
  induction t using names_induction with
  | nil => simp [names, translate_nil] at h
  | gap b t hb ih =>
    rw [names, translate_byte hb] at h
    exact ih h
  | name m t hm ht ih =>
    rw [names, translate_name hm ht] at h
    rcases List.mem_cons.1 h with rfl | h
    · exact hm
    · exact ih h

theorem names_nil : names [] = [] := translate_nil

theorem names_byte {b : UInt8} (hb : isNameByte b = false) (t : Text) :
    names (b :: t) = names t := translate_byte hb t

theorem names_name {n t : Text} (hn : isName n = true) (ht : Apart t) :
    names (n ++ t) = n :: names t := translate_name hn ht

theorem names_of_isName {n : Text} (h : isName n = true) : names n = [n] := translate_of_isName h

theorem substitute_nil (σ : Text → Text) : substitute σ [] = [] := translate_nil

theorem substitute_byte (σ : Text → Text) {b : UInt8} (hb : isNameByte b = false) (t : Text) :
    substitute σ (b :: t) = b :: substitute σ t := translate_byte hb t

theorem substitute_name (σ : Text → Text) {n t : Text} (hn : isName n = true) (ht : Apart t) :
    substitute σ (n ++ t) = σ n ++ substitute σ t := translate_name hn ht

theorem substitute_append (σ : Text → Text) {x y : Text} (hy : Apart y) :
    substitute σ (x ++ y) = substitute σ x ++ substitute σ y := translate_append hy

theorem substitute_gap (σ : Text → Text) (t : Text) : substitute σ t =
    t.takeWhile (!isNameByte ·) ++ substitute σ (t.dropWhile (!isNameByte ·)) := by
  rw [substitute, translate_gap, List.flatMap_singleton']
  rfl

theorem substitute_of_isName (σ : Text → Text) {n : Text} (h : isName n = true) :
    substitute σ n = σ n := translate_of_isName h

theorem translate_congr {t : Text} (h : ∀ n ∈ names t, onName n = onName' n) :
    translate onName onByte t = translate onName' onByte t := by
  induction t using names_induction with
  | nil => rw [translate_nil, translate_nil]
  | gap b t hb ih =>
    rw [names, translate_byte hb] at h
    rw [translate_byte hb, translate_byte hb, ih h]
  | name m t hm ht ih =>
    rw [names, translate_name hm ht] at h
    rw [translate_name hm ht, translate_name hm ht, h m List.mem_cons_self,
      ih fun n hn => h n (List.mem_cons_of_mem m hn)]

theorem substitute_congr {t : Text} (h : ∀ n ∈ names t, σ n = τ n) :
    substitute σ t = substitute τ t := translate_congr h

theorem apart_substitute (σ : Text → Text) {t : Text} (h : Apart t) : Apart (substitute σ t) := by
  cases t with
  | nil =>
    rw [substitute, translate_nil]
    exact h
  | cons b t =>
    have hb : isNameByte b = false := h b rfl
    rw [substitute, translate_byte hb]
    exact apart_cons hb _

/-- What is put in for a name is read as if it stood alone. -/
theorem translate_substitute (onName : Text → List β) (onByte : UInt8 → List β) (σ : Text → Text)
    (t : Text) : translate onName onByte (substitute σ t) =
      translate (fun n => translate onName onByte (σ n)) onByte t := by
  induction t using names_induction with
  | nil => rw [substitute, translate_nil, translate_nil, translate_nil]
  | gap b t hb ih =>
    rw [translate_byte hb, ← ih, substitute, translate_byte hb, List.singleton_append,
      translate_byte hb]
    rfl
  | name m t hm ht ih =>
    rw [translate_name hm ht, ← ih, ← translate_append (apart_substitute σ ht), substitute,
      translate_name hm ht]
    rfl

/-- One substitution after another. -/
theorem substitute_substitute (σ τ : Text → Text) (t : Text) :
    substitute σ (substitute τ t) = substitute (fun n => substitute σ (τ n)) t :=
  translate_substitute σ (fun b => [b]) τ t

theorem mem_names_substitute {n t : Text} (h : n ∈ names (substitute σ t)) :
    ∃ m ∈ names t, n ∈ names (σ m) := by
  rw [names, translate_substitute] at h
  induction t using names_induction with
  | nil => simp [translate_nil] at h
  | gap b t hb ih =>
    rw [translate_byte hb] at h
    rw [names, translate_byte hb]
    exact ih h
  | name m t hm ht ih =>
    rw [translate_name hm ht] at h
    rw [names, translate_name hm ht]
    rcases List.mem_append.1 h with h | h
    · exact ⟨m, List.mem_cons_self, h⟩
    · obtain ⟨k, hk, hn⟩ := ih h
      exact ⟨k, List.mem_cons_of_mem m hk, hn⟩

end Substitute

/-! ### Meanings -/

/-- What a name stands for when bodies are followed `k` deep. -/
def meaning (body : Text → Option Text) : Nat → Text → Text
  | 0, n => n
  | k + 1, n =>
    match body n with
    | some u => substitute (meaning body k) u
    | none => n

/-- A body only mentions names of lower rank, and a name without rank has no body. -/
structure Ranked (body : Text → Option Text) (rank : Text → Nat) : Prop where
  pos : ∀ {n u}, body n = some u → 0 < rank n
  lt : ∀ {n u m}, body n = some u → m ∈ names u → rank m < rank n

section Meaning
variable {body : Text → Option Text} {rank : Text → Nat} {n u : Text} {k : Nat}

theorem meaning_none (h : body n = none) : meaning body k n = n := by
  cases k with
  | zero => rfl
  | succ k => rw [meaning, h]

theorem meaning_some (h : body n = some u) :
    meaning body (k + 1) n = substitute (meaning body k) u := by
  rw [meaning, h]

/-- Bodies need not be followed deeper than the rank of a name. -/
theorem Ranked.meaning_succ (h : Ranked body rank) (hk : rank n ≤ k) :
    meaning body (k + 1) n = meaning body k n := by
  induction k generalizing n with
  | zero =>
    cases hn : body n with
    | none => rw [meaning_none hn, meaning_none hn]
    | some u =>
      have hpos := h.pos hn
      omega
  | succ k ih =>
    cases hn : body n with
    | none => rw [meaning_none hn, meaning_none hn]
    | some u =>
      rw [meaning_some hn, meaning_some hn]
      refine substitute_congr fun m hm => ih ?_
      have hlt := h.lt hn hm
      omega

/-- The meaning of a name is its body with the meanings of the names in it. -/
theorem Ranked.meaning_eq (h : Ranked body rank) (hk : rank n ≤ k) (hn : body n = some u) :
    meaning body k n = substitute (meaning body k) u := by
  rw [← h.meaning_succ hk, meaning_some hn]

/-- Following bodies does not change what a text means to somebody who reads a name as its body. -/
theorem substitute_meaning {σ : Text → Text} (h : ∀ n u, body n = some u → σ n = substitute σ u)
    (k : Nat) (hn : isName n = true) : substitute σ (meaning body k n) = σ n := by
  induction k generalizing n with
  | zero => exact substitute_of_isName σ hn
  | succ k ih =>
    cases hbody : body n with
    | none => rw [meaning_none hbody, substitute_of_isName σ hn]
    | some u =>
      rw [meaning_some hbody, substitute_substitute, h n u hbody]
      exact substitute_congr fun m hm => ih (isName_of_mem_names hm)

end Meaning

end Preassembler.Macro
