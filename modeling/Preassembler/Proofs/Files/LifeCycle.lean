import Mathlib
import Preassembler.Proofs.Files.AllOrNothing
import Preassembler.Proofs.Files.TemporaryNames

/-! Life cycles of destinations.

A destination is used in any order: it is written to, committed and aborted. The first commit or
abort closes it, whether it succeeds or not. Until then the tree is the old one with a staged file,
which the path of the destination does not lead to; from then on nothing changes any more. Writes
are taken as far as there is room for them, and answer when that is not all.

Main statement: what every row of operations answers and leaves behind (`Destination.lifeCycle`). -/
namespace Preassembler.Files
open Text (ascii byte)
open Files.Tree (Staged Replaced)
open Pathname (Location)

/-! ### Staged files beside their targets -/

namespace Tree.Staged
variable {t t' : Tree} {home : Location} {path temporary content : Text} {n : Nat}

theorem fresh (h : Staged t home temporary content t') :
    t.follow home temporary = .error .notFound := by
  obtain ⟨place, hnone, hplace, -⟩ := h
  rw [Tree.follow, hplace]
  dsimp only
  rw [hnone]

/-- The path of a destination does not lead to its temporary file. -/
theorem follow_target (h : Staged t home (temporaryPath n path) content t') :
    t'.follow home path = t.follow home path := by
  by_cases hempty : path = []
  · rw [hempty]
    rfl
  · obtain ⟨place, -, hplace, heq, -⟩ := h.follow
    obtain ⟨target, htarget, hne⟩ := locate_of_temporary hempty hplace
    rw [Tree.follow, Tree.follow, h.locate_iff.2 htarget, htarget]
    dsimp only
    rw [heq, find?_put_of_ne hne]

/-- A temporary file moves to its destination, where it is the only change, or no file can go
there. -/
theorem rename_cases (h : Staged t home (temporaryPath n path) content t') :
    (∃ t'', t'.rename home (temporaryPath n path) path = .ok t'' ∧
        Replaced t home path content t'' ∧
        t''.follow home (temporaryPath n path) = .error .notFound) ∨
      ∃ c, t'.rename home (temporaryPath n path) path = .error c ∧
        (path = [] ∧ c = .notFound ∨
          (∃ target, t.follow home path = .ok (target, .directory)) ∧ c = .alreadyExists) := by
  by_cases hempty : path = []
  · subst hempty
    exact .inr ⟨.notFound, h.rename_of_astray rfl, .inl ⟨rfl, rfl⟩⟩
  · obtain ⟨place, hnone, hplace, -, -⟩ := h.follow
    obtain ⟨target, htarget, hne⟩ := locate_of_temporary hempty hplace
    have hrename := h.rename_of_located htarget
    by_cases hdir : t.find? target = some .directory
    · rw [if_pos hdir] at hrename
      exact .inr ⟨_, hrename, .inr ⟨⟨target, follow_eq_ok_iff.2 ⟨htarget, hdir⟩⟩, rfl⟩⟩
    · rw [if_neg hdir] at hrename
      refine .inl ⟨_, hrename, h.rename hrename, ?_⟩
      rw [Tree.follow, locate_put hdir _ hplace]
      dsimp only
      rw [find?_put_of_ne (Ne.symm hne), hnone]

end Tree.Staged

/-! ### Writes -/

namespace World
variable {w : World} {t : Tree} {temporary content : Text}

theorem fitting_append (room : Option Nat) (a b : Text) :
    fitting room (a ++ b) = fitting room a ++ fitting (room.map (· - a.length)) b := by
  cases room with
  | none => rfl
  | some n => exact List.take_append

/-- Adds texts to a file, one after the other. -/
def addAll (w : World) (path : Text) (texts : List Text) : World := texts.foldl (·.add path ·) w

theorem addAll_eq (w : World) (path : Text) (texts : List Text) :
    w.addAll path texts =
      { w with tree := (w.addAll path texts).tree, room := (w.addAll path texts).room } := by
  induction texts generalizing w with
  | nil => rfl
  | cons text texts ih => exact ih (w.add path text)

/-- What is added to a staged file is staged, as far as there is room for it. -/
theorem staged_addAll (h : Staged t w.home temporary content w.tree) (texts : List Text) :
    Staged t w.home temporary (content ++ fitting w.room texts.flatten)
      (w.addAll temporary texts).tree := by
  induction texts generalizing w content with
  | nil =>
    have hnothing : fitting w.room [] = [] := by cases w.room <;> simp [fitting]
    rwa [List.flatten_nil, hnothing, List.append_nil]
  | cons text texts ih =>
    rw [List.flatten_cons, fitting_append, ← List.append_assoc]
    exact ih (w := w.add temporary text) (h.append (fitting w.room text))

end World

/-! ### Operations -/

namespace Destination

/-- What can be done with a destination. -/
inductive Operation where
  | write (text : Text)
  | commit
  | abort
  deriving DecidableEq, Repr

namespace Operation

/-- The text that an operation writes. -/
def text : Operation → Text
  | write text => text
  | commit => []
  | abort => []

/-- Whether an operation closes the destination. -/
def settles : Operation → Bool
  | write _ => false
  | commit => true
  | abort => true

/-- What writes answer where there is room for so many bytes. -/
def answers (temporary : Text) : Option Nat → List Text → List (Option DestinationError)
  | _, [] => []
  | room, text :: texts =>
    (World.shortage room text).map (.write temporary) ::
      answers temporary (room.map (· - text.length)) texts

/-- Where there is no limit, writes are taken as they are. -/
theorem answers_none (temporary : Text) (texts : List Text) :
    answers temporary none texts = texts.map fun _ => none := by
  induction texts with
  | nil => rfl
  | cons text texts ih => exact congrArg (none :: ·) ih

/-- What a closed destination answers. -/
def refusal (temporary : Text) : Operation → Option DestinationError
  | write _ => some (.closed temporary)
  | commit => none
  | abort => none

end Operation

section Operate
variable {m : Type → Type} [Monad m]

/-- Does one thing with a destination. -/
def operate (h : Host m) (d : Destination) :
    Operation → m (Destination × Option DestinationError)
  | .write text => do return (d, ← d.write h text)
  | .commit => d.commit h
  | .abort => d.abort h

/-- Does one thing after the other with a destination. -/
def operateAll (h : Host m) (d : Destination) :
    List Operation → m (Destination × List (Option DestinationError))
  | [] => return (d, [])
  | operation :: rest => do
    let (d, answer) ← d.operate h operation
    let (d, answers) ← d.operateAll h rest
    return (d, answer :: answers)

end Operate

/-- Operations are writes up to the first commit or abort. -/
theorem writes_or_settled (operations : List Operation) :
    ∃ texts : List Text, operations = texts.map .write ∨
      ∃ settling later, settling.settles = true ∧
        operations = texts.map .write ++ settling :: later := by
  induction operations with
  | nil => exact ⟨[], .inl rfl⟩
  | cons operation operations ih =>
    cases operation with
    | write text =>
      obtain ⟨texts, rfl | ⟨settling, later, hsettling, rfl⟩⟩ := ih
      · exact ⟨text :: texts, .inl rfl⟩
      · exact ⟨text :: texts, .inr ⟨settling, later, hsettling, rfl⟩⟩
    | commit => exact ⟨[], .inr ⟨.commit, operations, rfl, rfl⟩⟩
    | abort => exact ⟨[], .inr ⟨.abort, operations, rfl, rfl⟩⟩

/-! ### In a world -/

section World
variable {w w' w'' : World} {d d' d'' : Destination} {answer : Option DestinationError}
  {answers rest : List (Option DestinationError)} {operation : Operation}
  {operations later : List Operation} {t tree : Tree} {path temporary : Text} {c : Problem}

theorem operateAll_cons (h : d.operate World.host operation w = ((d', answer), w'))
    (hlater : d'.operateAll World.host later w' = ((d'', answers), w'')) :
    d.operateAll World.host (operation :: later) w = ((d'', answer :: answers), w'') := by
  rw [operateAll, World.bind_of_eq h]
  dsimp only
  rw [World.bind_of_eq hlater]
  rfl

theorem operateAll_append (h : d.operateAll World.host operations w = ((d', answers), w'))
    (hlater : d'.operateAll World.host later w' = ((d'', rest), w'')) :
    d.operateAll World.host (operations ++ later) w = ((d'', answers ++ rest), w'') := by
  induction operations generalizing d answers w with
  | nil =>
    cases h
    exact hlater
  | cons operation operations ih =>
    rcases hstep : d.operate World.host operation w with ⟨⟨d₁, answer⟩, w₁⟩
    rcases hrun : d₁.operateAll World.host operations w₁ with ⟨⟨d₂, following⟩, w₂⟩
    rw [operateAll_cons hstep hrun] at h
    cases h
    exact operateAll_cons hstep (ih hrun)

theorem operate_standard (operation : Operation) (w : World) :
    standard.operate World.host operation w =
      ((standard, none), { w with stdout := w.stdout ++ operation.text }) := by
  have hnothing : w = { w with stdout := w.stdout ++ [] } := by rw [List.append_nil]
  cases operation with
  | write text => rfl
  | commit => exact congrArg ((standard, none), ·) hnothing
  | abort => exact congrArg ((standard, none), ·) hnothing

theorem operateAll_standard (operations : List Operation) (w : World) :
    standard.operateAll World.host operations w =
      ((standard, operations.map fun _ => none),
        { w with stdout := w.stdout ++ operations.flatMap (·.text) }) := by
  induction operations generalizing w with
  | nil =>
    show ((standard, []), w) = _
    rw [List.flatMap_nil, List.append_nil]
    rfl
  | cons operation later ih =>
    rw [operateAll_cons (operate_standard operation w) (ih _), List.flatMap_cons,
      List.append_assoc]
    rfl

theorem operate_closed (operation : Operation) (w : World) :
    (file path temporary true).operate World.host operation w =
      ((file path temporary true, operation.refusal temporary), w) := by
  cases operation <;> rfl

/-- A closed destination stays as it is, and so does everything else. -/
theorem operateAll_closed (operations : List Operation) (w : World) :
    (file path temporary true).operateAll World.host operations w =
      ((file path temporary true, operations.map (·.refusal temporary)), w) := by
  induction operations with
  | nil => rfl
  | cons operation later ih => exact operateAll_cons (operate_closed operation w) ih

/-- Writes add to the temporary file and change nothing else. -/
theorem operateAll_writes (texts : List Text) (w : World) :
    (file path temporary false).operateAll World.host (texts.map .write) w =
      ((file path temporary false, Operation.answers temporary w.room texts),
        w.addAll temporary texts) := by
  induction texts generalizing w with
  | nil => rfl
  | cons text texts ih =>
    have hstep : (file path temporary false).operate World.host (.write text) w =
        ((file path temporary false, (World.shortage w.room text).map (.write temporary)),
          w.add temporary text) := rfl
    exact operateAll_cons hstep (ih _)

theorem close_of_eq {closing : Option Problem} (h : w.closing = closing) (path : Text) :
    World.host.close path w = (closing, w) :=
  congrArg (·, w) h

theorem operate_abort (h : w.tree.remove w.home temporary = .ok t) :
    (file path temporary false).operate World.host .abort w =
      ((file path temporary true, none), { w with tree := t }) := by
  rw [operate, abort, World.bind_of_eq (close_of_eq rfl temporary),
    World.bind_of_eq (World.remove_of_ok h)]
  rfl

theorem operate_commit_unclosed (hclosing : w.closing = some c)
    (hremove : w.tree.remove w.home temporary = .ok t) :
    (file path temporary false).operate World.host .commit w =
      ((file path temporary true, some (.close temporary c)), { w with tree := t }) := by
  rw [operate, commit, World.bind_of_eq (close_of_eq hclosing temporary)]
  dsimp only
  rw [World.bind_of_eq (World.remove_of_ok hremove)]
  rfl

theorem operate_commit (hclosing : w.closing = none)
    (h : w.tree.rename w.home temporary path = .ok tree) :
    (file path temporary false).operate World.host .commit w =
      ((file path temporary true, none), { w with tree }) := by
  rw [operate, commit, World.bind_of_eq (close_of_eq hclosing temporary)]
  dsimp only
  rw [World.bind_of_eq (World.rename_of_ok h)]
  rfl

theorem operate_commit_refused (hclosing : w.closing = none)
    (h : w.tree.rename w.home temporary path = .error c)
    (hremove : w.tree.remove w.home temporary = .ok t) :
    (file path temporary false).operate World.host .commit w =
      ((file path temporary true, some (.rename path temporary c)), { w with tree := t }) := by
  rw [operate, commit, World.bind_of_eq (close_of_eq hclosing temporary)]
  dsimp only
  rw [World.bind_of_eq (World.rename_of_error h)]
  dsimp only
  rw [World.bind_of_eq (World.remove_of_ok hremove)]
  rfl

/-- A commit or an abort closes the destination, whatever comes of it. -/
theorem exists_operate_settling (h : operation.settles = true) (path temporary : Text)
    (w : World) :
    ∃ answer w', (file path temporary false).operate World.host operation w =
      ((file path temporary true, answer), w') := by
  cases operation with
  | write text => cases h
  | abort => exact ⟨_, _, rfl⟩
  | commit =>
    cases hclosing : w.closing with
    | some c =>
      rw [operate, commit, World.bind_of_eq (close_of_eq hclosing temporary)]
      exact ⟨_, _, rfl⟩
    | none =>
      rcases hrename : World.host.rename temporary path w with ⟨cause, w₁⟩
      rw [operate, commit, World.bind_of_eq (close_of_eq hclosing temporary)]
      dsimp only
      rw [World.bind_of_eq hrename]
      cases cause <;> exact ⟨_, _, rfl⟩

/-- Nothing happens behind the operation that closes the destination. -/
theorem operateAll_settled {texts : List Text} {settling : Operation}
    (h : (file path temporary false).operate World.host settling (w.addAll temporary texts) =
      ((file path temporary true, answer), w')) (later : List Operation) :
    (file path temporary false).operateAll World.host
        (texts.map .write ++ settling :: later) w =
      ((file path temporary true,
        Operation.answers temporary w.room texts ++ answer :: later.map (·.refusal temporary)),
          w') :=
  operateAll_append (operateAll_writes texts w) (operateAll_cons h (operateAll_closed later w'))

theorem world_of_settled (h : operations.any (·.settles) = true) (path temporary : Text)
    (w : World) (later : List Operation) :
    ((file path temporary false).operateAll World.host (operations ++ later) w).2 =
      ((file path temporary false).operateAll World.host operations w).2 := by
  obtain ⟨texts, rfl | ⟨settling, between, hsettling, rfl⟩⟩ := writes_or_settled operations
  · simp [Operation.settles] at h
  · obtain ⟨answer, w', hstep⟩ := exists_operate_settling hsettling path temporary _
    rw [List.append_assoc, List.cons_append, operateAll_settled hstep, operateAll_settled hstep]

/-- A destination for a file has a temporary file. -/
theorem staged_of_create (hpath : path ≠ Pathname.stdio)
    (h : create World.host path w = (.ok d, w')) :
    ∃ n, d = .file path (temporaryPath n path) false ∧
      Staged w.tree w.home (temporaryPath n path) [] w'.tree ∧
      w' = { w with tree := w'.tree, serial := w'.serial } := by
  rw [create, if_neg hpath] at h
  obtain ⟨n, ⟨tree, hstaged, hmake⟩ | ⟨c, hmake⟩⟩ :=
    World.createTemporary_cases w (temporaryFront path) (ascii ".tmp")
  · rw [World.bind_of_eq hmake] at h
    cases h
    exact ⟨n, rfl, hstaged, rfl⟩
  · rw [World.bind_of_eq hmake] at h
    cases h

end World

/-! ### Life cycles -/

/-- What a row of operations answers and leaves of the tree of a world, in which the output for `path`
is collected in a file `temporary` that is not there yet. -/
inductive LifeCycle (w : World) (path temporary : Text) :
    List Operation → List (Option DestinationError) → Tree → Prop where
  /-- While there are only writes, what they have written is staged. -/
  | writing (texts : List Text) {t : Tree}
      (staged : Staged w.tree w.home temporary (World.fitting w.room texts.flatten) t)
      (target : t.follow w.home path = w.tree.follow w.home path) :
      LifeCycle w path temporary (texts.map .write) (Operation.answers temporary w.room texts) t
  /-- The first abort takes it away, and whatever comes later changes nothing. -/
  | aborted (texts : List Text) (later : List Operation) :
      LifeCycle w path temporary (texts.map .write ++ .abort :: later)
        (Operation.answers temporary w.room texts ++ none :: later.map (·.refusal temporary)) w.tree
  /-- The first commit moves it to the path, and whatever comes later changes nothing. -/
  | committed (texts : List Text) (later : List Operation) {t : Tree} (closing : w.closing = none)
      (replaced : Replaced w.tree w.home path (World.fitting w.room texts.flatten) t)
      (gone : t.follow w.home temporary = .error .notFound) :
      LifeCycle w path temporary (texts.map .write ++ .commit :: later)
        (Operation.answers temporary w.room texts ++ none :: later.map (·.refusal temporary)) t
  /-- When it cannot be closed, the first commit takes it away. -/
  | unclosed (texts : List Text) (later : List Operation) {cause : Problem}
      (closing : w.closing = some cause) :
      LifeCycle w path temporary (texts.map .write ++ .commit :: later)
        (Operation.answers temporary w.room texts ++ some (.close temporary cause) ::
          later.map (·.refusal temporary)) w.tree
  /-- Where no file can go, the first commit takes it away. -/
  | refused (texts : List Text) (later : List Operation) {cause : Problem}
      (closing : w.closing = none)
      (refusal : path = [] ∧ cause = .notFound ∨
        (∃ target, w.tree.follow w.home path = .ok (target, .directory)) ∧
          cause = .alreadyExists) :
      LifeCycle w path temporary (texts.map .write ++ .commit :: later)
        (Operation.answers temporary w.room texts ++ some (.rename path temporary cause) ::
          later.map (·.refusal temporary)) w.tree

section Runs
variable {w w₁ : World} {path temporary : Text} {n : Nat}

/-- The operation that closes the destination leaves a tree, and the rest of the world is as it was
behind the writes. -/
theorem ends_settled {texts : List Text} {settling : Operation} {later : List Operation}
    {answer : Option DestinationError} {t : Tree}
    (h : (file path temporary false).operate World.host settling (w₁.addAll temporary texts) =
      ((file path temporary true, answer), { w₁.addAll temporary texts with tree := t }))
    (hlife : LifeCycle w path temporary (texts.map .write ++ settling :: later)
      (Operation.answers temporary w₁.room texts ++ answer :: later.map (·.refusal temporary)) t) :
    World.Ends ((file path temporary false).operateAll World.host
      (texts.map .write ++ settling :: later)) w₁ fun r w' =>
        w' = { w₁ with tree := w'.tree, room := w'.room } ∧
          LifeCycle w path temporary (texts.map .write ++ settling :: later) r.2 w'.tree := by
  rw [World.Ends, operateAll_settled h]
  exact ⟨congrArg (fun v : World => { v with tree := t }) (w₁.addAll_eq temporary texts), hlife⟩

theorem ends_operateAll (hworld : w₁ = { w with tree := w₁.tree, serial := w₁.serial })
    (h : Staged w.tree w.home (temporaryPath n path) [] w₁.tree) (operations : List Operation) :
    World.Ends ((file path (temporaryPath n path) false).operateAll World.host operations) w₁
      fun r w' => w' = { w₁ with tree := w'.tree, room := w'.room } ∧
        LifeCycle w path (temporaryPath n path) operations r.2 w'.tree := by
  have hhome : w₁.home = w.home := by rw [hworld]
  have hroom : w₁.room = w.room := by rw [hworld]
  obtain ⟨texts, hoperations⟩ := writes_or_settled operations
  have hsame := w₁.addAll_eq (temporaryPath n path) texts
  have hhome₂ : (w₁.addAll (temporaryPath n path) texts).home = w.home := by rw [hsame, hhome]
  have hclosing₂ : (w₁.addAll (temporaryPath n path) texts).closing = w.closing := by
    rw [hsame, hworld]
  have hstaged : Staged w.tree w.home (temporaryPath n path)
      (World.fitting w.room texts.flatten) (w₁.addAll (temporaryPath n path) texts).tree := by
    rw [← hhome] at h ⊢
    rw [← hroom]
    exact World.staged_addAll h texts
  rcases hoperations with rfl | ⟨settling, later, hsettling, rfl⟩
  · rw [World.Ends, operateAll_writes, hroom]
    exact ⟨hsame, .writing texts hstaged hstaged.follow_target⟩
  · have hremove := hstaged.remove
    rw [← hhome₂] at hremove
    cases settling with
    | write text => cases hsettling
    | abort => exact ends_settled (operate_abort hremove) (hroom ▸ .aborted texts later)
    | commit =>
      cases hclosing : w.closing with
      | some c =>
        rw [hclosing] at hclosing₂
        exact ends_settled (operate_commit_unclosed hclosing₂ hremove)
          (hroom ▸ .unclosed texts later hclosing)
      | none =>
        rw [hclosing] at hclosing₂
        rcases hstaged.rename_cases with ⟨tree, hrename, hreplaced, hgone⟩ | ⟨c, hrename, hc⟩
        · rw [← hhome₂] at hrename
          exact ends_settled (operate_commit hclosing₂ hrename)
            (hroom ▸ .committed texts later hclosing hreplaced hgone)
        · rw [← hhome₂] at hrename
          exact ends_settled (operate_commit_refused hclosing₂ hrename hremove)
            (hroom ▸ .refused texts later hclosing hc)

end Runs

variable {w w₁ : World} {path : Text} {d : Destination}

/-- **A destination lives until it is committed or aborted.** Standard output gets whatever is
written, and nothing else happens to it. Another destination has a temporary file, whose name was
free: every row of operations goes through a life cycle, in which only the tree changes and the room
that is left in it, and behind the first commit or abort nothing changes at all. Where there is no
limit, every write is taken as a whole. -/
theorem lifeCycle (h : create World.host path w = (.ok d, w₁)) :
    (path = Pathname.stdio → ∀ operations, d.operateAll World.host operations w₁ =
        ((d, operations.map fun _ => none),
          { w with stdout := w.stdout ++ operations.flatMap (·.text) })) ∧
      (path ≠ Pathname.stdio → ∃ n,
        w.tree.follow w.home (temporaryPath n path) = .error .notFound ∧
        w₁ = { w with tree := w₁.tree, serial := w₁.serial } ∧
        (∀ operations, World.Ends (d.operateAll World.host operations) w₁ fun r w' =>
          w' = { w₁ with tree := w'.tree, room := w'.room } ∧
            LifeCycle w path (temporaryPath n path) operations r.2 w'.tree) ∧
        (∀ operations later, operations.any (·.settles) = true →
          (d.operateAll World.host (operations ++ later) w₁).2 =
            (d.operateAll World.host operations w₁).2) ∧
        (w.room = none → ∀ texts : List Text,
          Operation.answers (temporaryPath n path) w.room texts = texts.map (fun _ => none) ∧
            World.fitting w.room texts.flatten = texts.flatten)) := by
  constructor
  · rintro rfl operations
    cases h
    exact operateAll_standard operations w
  · intro hpath
    obtain ⟨n, rfl, hstaged, hworld⟩ := staged_of_create hpath h
    refine ⟨n, hstaged.fresh, hworld, ends_operateAll hworld hstaged,
      fun operations later hsettled => world_of_settled hsettled _ _ w₁ later, fun hroom texts => ?_⟩
    rw [hroom]
    exact ⟨Operation.answers_none _ texts, rfl⟩

/-- A file that is replaced; after the commit, a write, an abort and a commit come too late. -/
theorem lifeCycle_replaced :
    let w : World := { tree := ⟨[([ascii "out"], .file (ascii "old"))]⟩ }
    let temporary := ascii "./.out.1000000000.tmp"
    let d := file (ascii "out") temporary false
    let operations : List Operation :=
      [.write (ascii "a"), .write (ascii "b"), .commit, .write (ascii "c"), .abort, .commit]
    (create World.host (ascii "out") w).1 = .ok d ∧
      ∃ n, LifeCycle w (ascii "out") (temporaryPath n (ascii "out")) operations
        [none, none, none, some (.closed temporary), none, none]
        ⟨[([ascii "out"], .file (ascii "ab"))]⟩ := by
  intro w temporary d operations
  have hcreate : create World.host (ascii "out") w =
      (.ok d, (create World.host (ascii "out") w).2) := by
    cbv
  have hoperate : d.operateAll World.host operations (create World.host (ascii "out") w).2 =
      ((file (ascii "out") temporary true,
        [none, none, none, some (.closed temporary), none, none]),
        { w with tree := ⟨[([ascii "out"], .file (ascii "ab"))]⟩, serial := 1000000001 }) := by
    cbv
  obtain ⟨-, hfile⟩ := lifeCycle hcreate
  obtain ⟨n, -, -, hall, -⟩ := hfile (by decide)
  have hlife := (hall operations).2
  rw [hoperate] at hlife
  exact ⟨congrArg Prod.fst hcreate, n, hlife⟩

end Destination

end Preassembler.Files
