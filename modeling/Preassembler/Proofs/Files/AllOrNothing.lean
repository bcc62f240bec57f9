import Preassembler.CommandLine
import Preassembler.Proofs.Files.Staging

/-! Runs of the command on a file tree.

A run only reads until its temporary file is made. From then on the tree is the old one with a
staged file, and each way out of a run takes it away again or moves it to the destination, also when
there is no room for what is written or the file cannot be closed. Whatever else a run does, such as
writing log records, leaves files alone (`Quiet`).

Main statement: a run that succeeds has put the listing at the destination and changed nothing else,
and a run that fails has changed nothing (`CommandLine.run_allOrNothing`). -/
namespace Preassembler
open Files
open Files.Tree (Staged)
open Pathname (Location)

/-! ### Actions on a world -/

namespace Files.World
variable {α β : Type}

/-- What can be read is still the same. -/
structure Untouched (w w' : World) : Prop where
  tree : w'.tree = w.tree
  home : w'.home = w.home
  stdin : w'.stdin = w.stdin

theorem Untouched.refl (w : World) : Untouched w w := ⟨rfl, rfl, rfl⟩

theorem Untouched.trans {w w' w'' : World} (h : Untouched w w') (h' : Untouched w' w'') :
    Untouched w w'' :=
  ⟨h'.tree.trans h.tree, h'.home.trans h.home, h'.stdin.trans h.stdin⟩

/-- What an action comes to in a world. -/
def Ends (x : StateM World α) (w : World) (Q : α → World → Prop) : Prop := Q (x w).1 (x w).2

theorem Ends.bind {x : StateM World α} {f : α → StateM World β} {w : World}
    {P : α → World → Prop} {Q : β → World → Prop} (hx : Ends x w P)
    (hf : ∀ a w', P a w' → Ends (f a) w' Q) : Ends (x >>= f) w Q :=
  hf _ _ hx

theorem bind_of_eq {x : StateM World α} {f : α → StateM World β} {a : α} {w w' : World}
    (h : x w = (a, w')) : (x >>= f) w = f a w' := by
  show f (x w).1 (x w).2 = _
  rw [h]

theorem Ends.mono {x : StateM World α} {w : World} {P Q : α → World → Prop} (hx : Ends x w P)
    (h : ∀ a w', P a w' → Q a w') : Ends x w Q :=
  h _ _ hx

/-- An action that leaves files alone. -/
def Quiet (x : StateM World α) : Prop := ∀ w, Ends x w fun _ w' => Untouched w w'

theorem quiet_pure (a : α) : Quiet (pure a) := fun w => .refl w

theorem Quiet.bind {x : StateM World α} {f : α → StateM World β} (hx : Quiet x)
    (hf : ∀ a, Quiet (f a)) : Quiet (x >>= f) := by
  intro w
  refine Ends.bind (hx w) fun a w' h => ?_
  exact Ends.mono (hf a w') fun _ _ h' => h.trans h'

theorem quiet_mapM {f : α → StateM World β} (hf : ∀ a, Quiet (f a)) (l : List α) :
    Quiet (l.mapM f) := by
  induction l with
  | nil => exact quiet_pure _
  | cons a l ih =>
    rw [List.mapM_cons]
    exact (hf a).bind fun _ => ih.bind fun _ => quiet_pure _

theorem quiet_setting (name : Text) : Quiet (host.setting name) := fun w => .refl w

theorem quiet_pathInfo (path : Text) : Quiet (host.pathInfo path) := fun w => .refl w

theorem quiet_read (path : Text) : Quiet (host.read path) := fun w => .refl w

theorem quiet_close (path : Text) : Quiet (host.close path) := fun w => .refl w

theorem quiet_runId : Quiet host.runId := fun w => .refl w

theorem quiet_report (t : Text) : Quiet (host.report t) := fun _ => ⟨rfl, rfl, rfl⟩

end Files.World

open Files.World (Untouched Ends Quiet quiet_pure)

/-! ### Reading -/

namespace Config

theorem quiet_expandPath (path : Text) : Quiet (expandPath World.host path) := by
  refine (World.quiet_mapM (fun piece => ?_) _).bind fun _ => quiet_pure _
  cases piece with
  | byte b => exact quiet_pure _
  | named name => exact World.quiet_setting name

theorem quiet_load (path : Text) : Quiet (load World.host path) := by
  refine (quiet_expandPath path).bind fun path => (World.quiet_read path).bind fun opened => ?_
  split
  · exact quiet_pure _
  · exact quiet_pure _
  · exact quiet_pure _
  · split <;> exact quiet_pure _

theorem quiet_loadFromEnvironment : Quiet (loadFromEnvironment World.host) := by
  refine (World.quiet_setting _).bind fun path => ?_
  split
  · exact quiet_pure _
  · exact quiet_load path

end Config

namespace CommandLine

theorem quiet_configure (g : Given) : Quiet (configure World.host g) := by
  unfold configure
  dsimp only
  split
  · refine Config.quiet_loadFromEnvironment.bind fun loaded => ?_
    cases loaded <;> exact quiet_pure _
  · refine (Config.quiet_load g.config).bind fun loaded => ?_
    cases loaded <;> exact quiet_pure _

theorem quiet_reportLines (lines : List Text) : Quiet (reportLines World.host lines) := by
  induction lines with
  | nil => exact quiet_pure _
  | cons l rest ih => exact (World.quiet_report _).bind fun _ => ih

theorem Journal.quiet_write (j : Journal) (level : Log.Level) (message : String)
    (attributes : List Log.Attribute) : Quiet (j.write World.host level message attributes) :=
  quiet_reportLines _

theorem Journal.quiet_writeEvents (j : Journal) (events : List Event) :
    Quiet (j.writeEvents World.host events) :=
  quiet_reportLines _

end CommandLine

/-! ### Sources -/

namespace Files

/-- What a source holds: the content of a file, or all of standard input. -/
def World.contentOf? (w : World) (source : Text) : Option Text :=
  if source = Pathname.stdio then some w.stdin
  else match w.tree.follow w.home source with
    | .ok (_, .file content) => some content
    | _ => none

theorem World.Untouched.contentOf? {w w' : World} (h : Untouched w w') (source : Text) :
    w'.contentOf? source = w.contentOf? source := by
  unfold World.contentOf?
  rw [h.tree, h.home, h.stdin]

/-- A source that is opened is read to its end, or is a directory. -/
theorem World.ends_openSource (w : World) (source : Text) :
    Ends (openSource host source) w fun r w' => Untouched w w' ∧
      ∀ opened, r = .ok opened →
        (opened.error = none ∧ w.contentOf? source = some opened.content) ∨
          ∃ c, opened = ⟨[], some c⟩ := by
  unfold openSource contentOf?
  split
  · refine ⟨.refl w, fun opened hopened => ?_⟩
    obtain rfl := Except.ok.inj hopened
    exact .inl ⟨rfl, rfl⟩
  · have hread : Ends (host.read source) w fun r w' => r = w.readFile source ∧ w' = w := ⟨rfl, rfl⟩
    refine Ends.bind hread ?_
    rintro r w' ⟨rfl, rfl⟩
    unfold readFile
    cases w'.tree.follow w'.home source with
    | error c => exact ⟨.refl w', nofun⟩
    | ok found =>
      obtain ⟨place, entry⟩ := found
      refine ⟨.refl w', fun opened hopened => ?_⟩
      obtain rfl := Except.ok.inj hopened
      cases entry with
      | directory => exact .inr ⟨_, rfl⟩
      | file content => exact .inl ⟨rfl, rfl⟩

/-! ### Destinations -/

namespace World
variable {t : Tree} {home : Location} {path new content : Text} {c : Problem} {w w' : World}

theorem remove_of_ok (h : w.tree.remove w.home path = .ok t) :
    host.remove path w = (none, { w with tree := t }) := by
  show edit (·.remove w.home path) w = _
  rw [edit, h]

theorem rename_of_ok (h : w.tree.rename w.home path new = .ok t) :
    host.rename path new w = (none, { w with tree := t }) := by
  show edit (·.rename w.home path new) w = _
  rw [edit, h]

theorem rename_of_error (h : w.tree.rename w.home path new = .error c) :
    host.rename path new w = (some c, w) := by
  show edit (·.rename w.home path new) w = _
  rw [edit, h]

/-- A temporary file is made where nothing stands, or nothing is made. -/
theorem createTemporary_cases (w : World) (front back : Text) :
    ∃ n, (∃ tree, Staged w.tree w.home (front ++ Text.ofNat n ++ back) [] tree ∧
        host.createTemporary front back w =
          ((front ++ Text.ofNat n ++ back, none), { w with tree, serial := n + 1 })) ∨
      ∃ c, host.createTemporary front back w =
        ((front ++ Text.ofNat n ++ back, some c), { w with serial := n + 1 }) := by
  generalize hn : w.unusedFrom front back w.serial w.tree.entries.length = n
  have hmake : host.createTemporary front back w =
      (fun r : Option Problem × World => ((front ++ Text.ofNat n ++ back, r.1), r.2))
        (edit (·.create w.home (front ++ Text.ofNat n ++ back)) { w with serial := n + 1 }) := by
    rw [← hn]
    rfl
  rw [hmake, edit]
  refine ⟨n, ?_⟩
  cases hcreate : w.tree.create w.home (front ++ Text.ofNat n ++ back) with
  | error c => exact .inr ⟨c, rfl⟩
  | ok tree => exact .inl ⟨tree, .of_create hcreate, rfl⟩

/-- A world whose tree is `t` with a staged file. -/
structure Staging (t : Tree) (home : Location) (path content : Text) (w : World) : Prop where
  home_eq : w.home = home
  staged : Staged t home path content w.tree

theorem Staging.of_untouched (h : Staging t home path content w) (hw : Untouched w w') :
    Staging t home path content w' :=
  ⟨hw.home.trans h.home_eq, hw.tree.symm ▸ h.staged⟩

theorem ends_createTemporary (w : World) (front back : Text) :
    Ends (host.createTemporary front back) w fun r w' =>
      match r.2 with
      | none => Staging w.tree w.home r.1 [] w'
      | some _ => w'.tree = w.tree := by
  obtain ⟨n, ⟨tree, hstaged, hmake⟩ | ⟨c, hmake⟩⟩ := createTemporary_cases w front back
  · rw [Ends, hmake]
    exact ⟨rfl, hstaged⟩
  · rw [Ends, hmake]

theorem fitting_of_shortage {room : Option Nat} {text : Text} (h : shortage room text = none) :
    fitting room text = text := by
  cases room with
  | none => rfl
  | some n =>
    rw [shortage] at h
    split at h
    · exact List.take_of_length_le ‹_›
    · cases h

theorem ends_append (h : Staging t home path content w) (text : Text) :
    Ends (host.append path text) w fun r w' =>
      ∃ added, Staging t home path (content ++ added) w' ∧ (r = none → added = text) := by
  refine ⟨fitting w.room text, ⟨h.home_eq, ?_⟩, fitting_of_shortage⟩
  have hstaged := h.staged.append (fitting w.room text)
  rw [← h.home_eq] at hstaged ⊢
  exact hstaged

theorem ends_remove (h : Staging t home path content w) :
    Ends (host.remove path) w fun r w' => r = none ∧ w'.tree = t := by
  have hremove := h.staged.remove
  rw [← h.home_eq] at hremove
  rw [Ends, remove_of_ok hremove]
  exact ⟨rfl, rfl⟩

theorem ends_rename (h : Staging t home path content w) (new : Text) :
    Ends (host.rename path new) w fun r w' =>
      match r with
      | none => Tree.Replaced t home new content w'.tree
      | some _ => Staging t home path content w' := by
  cases hrename : w.tree.rename w.home path new with
  | error c =>
    rw [Ends, rename_of_error hrename]
    exact h
  | ok tree =>
    rw [Ends, rename_of_ok hrename]
    rw [h.home_eq] at hrename
    exact h.staged.rename hrename

end World

namespace Destination
variable {t : Tree} {home : Location} {path content : Text} {w : World}

/-- A destination other than standard output has a temporary file, or nothing was changed. -/
theorem ends_create (w : World) {dest : Text} (hdest : dest ≠ Pathname.stdio) :
    Ends (create World.host dest) w fun r w' =>
      match r with
      | .ok d => ∃ path, d = .file dest path false ∧ World.Staging w.tree w.home path [] w'
      | .error _ => w'.tree = w.tree := by
  unfold create
  rw [if_neg hdest]
  refine Ends.bind (World.ends_createTemporary w _ _) ?_
  rintro ⟨path, cause⟩ w' h
  cases cause with
  | none => exact ⟨path, rfl, h⟩
  | some c => exact h

theorem ends_write (h : World.Staging t home path content w) (dest text : Text) :
    Ends (write World.host (.file dest path false) text) w fun r w' =>
      ∃ added, World.Staging t home path (content ++ added) w' ∧ (r = none → added = text) := by
  refine Ends.bind (World.ends_append h text) ?_
  rintro cause w' ⟨added, hstaging, hadded⟩
  exact ⟨added, hstaging, fun hnone => hadded (Option.map_eq_none_iff.1 hnone)⟩

/-- Whatever becomes of a row of writes, a file stays staged. -/
theorem ends_writeAll (h : World.Staging t home path content w) (dest : Text) (texts : List Text) :
    Ends (writeAll World.host (.file dest path false) texts) w fun r w' =>
      ∃ added, World.Staging t home path (content ++ added) w' ∧
        (r = none → added = texts.flatten) := by
  induction texts generalizing content w with
  | nil => exact ⟨[], (List.append_nil content).symm ▸ h, fun _ => rfl⟩
  | cons text texts ih =>
    refine Ends.bind (ends_write h dest text) ?_
    rintro error w₁ ⟨added, hstaging, hadded⟩
    cases error with
    | some e => exact ⟨added, hstaging, nofun⟩
    | none =>
      refine Ends.bind (ih hstaging) ?_
      rintro stopped w₂ ⟨later, hstaging', hlater⟩
      rw [List.append_assoc] at hstaging'
      refine ⟨added ++ later, hstaging', fun hnone => ?_⟩
      rw [hadded rfl, hlater (Option.map_eq_none_iff.1 hnone), List.flatten_cons]

theorem ends_commit (h : World.Staging t home path content w) (dest : Text) :
    Ends (commit World.host (.file dest path false)) w fun r w' =>
      match r.2 with
      | none => Tree.Replaced t home dest content w'.tree
      | some _ => w'.tree = t := by
  refine Ends.bind (World.quiet_close path w) fun closing w₁ h₁ => ?_
  have hclosed := h.of_untouched h₁
  cases closing with
  | some c => exact Ends.bind (World.ends_remove hclosed) fun _ _ hremoved => hremoved.2
  | none =>
    refine Ends.bind (World.ends_rename hclosed dest) ?_
    intro cause w' h'
    cases cause with
    | none => exact h'
    | some c => exact Ends.bind (World.ends_remove h') fun _ _ hremoved => hremoved.2

theorem ends_abort (h : World.Staging t home path content w) (dest : Text) :
    Ends (abort World.host (.file dest path false)) w fun r w' => r.2 = none ∧ w'.tree = t := by
  refine Ends.bind (World.quiet_close path w) fun _ w₁ h₁ => ?_
  refine Ends.bind (World.ends_remove (h.of_untouched h₁)) ?_
  rintro cause w' ⟨rfl, htree⟩
  exact ⟨rfl, htree⟩

end Destination

end Files

namespace Pipeline

/-- A source that cannot be read at all has no listing. -/
theorem fault_of_unreadable (p : Pipeline) (e : SourceError) (sink : Sink) :
    (p.write ⟨[], some e⟩ sink).fault = some (.source e) := rfl

end Pipeline

/-! ### Runs -/

namespace CommandLine
open World (Staging)
variable {t : Tree} {home : Location} {path content : Text} {w : World}

theorem ends_discard (h : Staging t home path content w) (j : Journal) (dest : Text) :
    Ends (discard World.host j dest (.file dest path false)) w fun _ w' => w'.tree = t := by
  refine Ends.bind (Destination.ends_abort h dest) ?_
  rintro ⟨d, error⟩ w' ⟨rfl, htree⟩
  exact htree

/-- What a job writes when everything is taken. -/
def Job.written (job : Job) : Pipeline.Written := job.writeTo (.new none)

/-- A job that wrote its listing without a fault has staged all of it. -/
theorem Job.ends_write {job : Job} (hdest : job.destination = .file job.dest path false)
    (h : Staging t home path [] w) :
    Ends (job.write World.host) w fun r w' => ∃ content, Staging t home path content w' ∧
      (r.fault = none → job.written.fault = none ∧ content = job.written.sink.contents) := by
  unfold Job.write
  rw [hdest]
  refine Ends.bind (Destination.ends_writeAll h job.dest _) ?_
  rintro stopped w' ⟨added, hstaging, hadded⟩
  rw [List.nil_append] at hstaging
  cases stopped with
  | none => exact ⟨added, hstaging, fun hfault => ⟨hfault, hadded rfl⟩⟩
  | some _ => exact ⟨added, hstaging, nofun⟩

theorem Job.ends_run {job : Job} (hdest : job.destination = .file job.dest path false)
    (h : Staging t home path [] w) :
    Ends (job.run World.host) w fun r w' =>
      match r with
      | .ok _ => job.written.fault = none ∧
          Tree.Replaced t home job.dest job.written.sink.contents w'.tree
      | .error _ => w'.tree = t := by
  unfold Job.run
  rw [hdest]
  refine Ends.bind (World.quiet_pathInfo _ w) ?_
  rintro ⟨full, parent⟩ w₁ h₁
  refine Ends.bind (Journal.quiet_write _ _ _ _ w₁) fun _ w₂ h₂ => ?_
  refine Ends.bind (Job.ends_write hdest ((h.of_untouched h₁).of_untouched h₂)) ?_
  rintro written w₃ ⟨content, h₃, hwritten⟩
  refine Ends.bind (Journal.quiet_writeEvents _ _ w₃) fun _ w₄ h₄ => ?_
  have hstaging := h₃.of_untouched h₄
  split
  · exact Ends.bind (ends_discard hstaging _ _) fun _ _ htree => htree
  · rename_i hfault
    obtain ⟨hfault, rfl⟩ := hwritten hfault
    refine Ends.bind (Destination.ends_commit hstaging job.dest) ?_
    rintro ⟨d, error⟩ w₅ h₅
    cases error with
    | some e => exact h₅
    | none =>
      refine Ends.bind (Journal.quiet_write _ _ _ _ w₅) fun _ w₆ h₆ => ?_
      exact ⟨hfault, h₆.tree.symm ▸ h₅⟩

/-- A run with a listing has read its source to the end. -/
theorem Job.listing_of_written {job : Job} {w : World}
    (hopened : (job.opened.error = none ∧ w.contentOf? job.source = some job.opened.content) ∨
      ∃ c, job.opened = ⟨[], some c⟩) (hfault : job.written.fault = none) :
    ∃ content, w.contentOf? job.source = some content ∧
      job.pipeline.listing content = .ok job.written.sink.contents := by
  rcases hopened with ⟨herror, hcontent⟩ | ⟨c, hopened⟩
  · refine ⟨job.opened.content, hcontent, ?_⟩
    have hwritten : job.written =
        job.pipeline.write (.read job.opened.content none) (.new none) := by
      rw [written, writeTo, sourceOf, herror]
      rfl
    rw [Pipeline.listing, ← hwritten, hfault]
  · have hwritten : job.written = job.pipeline.write
        ⟨[], some (.unreadable (readMessage job.source c))⟩ (.new none) := by
      rw [written, writeTo, sourceOf, hopened]
      rfl
    rw [hwritten, Pipeline.fault_of_unreadable] at hfault
    cases hfault

/-- What a run with the given pipeline comes to. -/
theorem ends_runWith (c : Config) (p : Pipeline) (source : Text) {dest : Text}
    (hdest : dest ≠ Pathname.stdio) (w : World) :
    Ends (runWith World.host c p source dest) w fun r w' =>
      match r with
      | .ok _ => ∃ content text, w.contentOf? source = some content ∧
          p.listing content = .ok text ∧ Tree.Replaced w.tree w.home dest text w'.tree
      | .error _ => w'.tree = w.tree := by
  refine Ends.bind (World.quiet_runId w) fun _ w₁ h₁ => ?_
  refine Ends.bind (World.ends_openSource w₁ source) ?_
  rintro r w₂ ⟨h₂, hopened⟩
  have htree := h₂.tree.trans h₁.tree
  cases r with
  | error e => exact htree
  | ok opened =>
    refine Ends.bind (Destination.ends_create w₂ hdest) ?_
    intro r w₃ h₃
    cases r with
    | error e => exact h₃.trans htree
    | ok d =>
      obtain ⟨path, rfl, hstaging⟩ := h₃
      rw [htree, h₂.home.trans h₁.home] at hstaging
      refine Ends.mono (Job.ends_run rfl hstaging) fun r w' h => ?_
      cases r with
      | error e => exact h
      | ok _ =>
        obtain ⟨hfault, hreplaced⟩ := h
        obtain ⟨content, hcontent, hlisting⟩ := Job.listing_of_written (hopened opened rfl) hfault
        refine ⟨content, _, ?_, hlisting, hreplaced⟩
        rw [← h₁.contentOf?, hcontent]

/-- What a run came to: the listing of what its source held is at the destination and nothing else
was changed, or it failed and nothing was. -/
structure AllOrNothing (w : World) (g : Given) (source dest : Text) (succeeded : Bool)
    (w' : World) : Prop where
  success : succeeded = true → ∃ c p content text target,
    (configure World.host g w).1 = .ok c ∧ Pipeline.new c.options = .ok p ∧
    w.contentOf? source = some content ∧ p.listing content = .ok text ∧
    w'.tree.follow w.home dest = .ok (target, .file text) ∧
    ∀ place, place ≠ target → w'.tree.find? place = w.tree.find? place
  failure : succeeded = false → w'.tree = w.tree

theorem ends_preprocess (g : Given) (source : Text) {dest : Text} (hdest : dest ≠ Pathname.stdio)
    (w : World) :
    Ends (preprocess World.host g source dest) w fun r w' =>
      AllOrNothing w g source dest r.toBool w' := by
  have hconfigure : Ends (configure World.host g) w fun r w' =>
      r = (configure World.host g w).1 ∧ Untouched w w' := ⟨rfl, quiet_configure g w⟩
  refine Ends.bind hconfigure ?_
  rintro r w₁ ⟨hr, h₁⟩
  cases r with
  | error f => exact ⟨nofun, fun _ => h₁.tree⟩
  | ok c =>
    dsimp only
    cases hp : Pipeline.new c.options with
    | error e => exact ⟨nofun, fun _ => h₁.tree⟩
    | ok p =>
      refine Ends.mono (ends_runWith c p source hdest w₁) fun r w' h => ?_
      cases r with
      | error f => exact ⟨nofun, fun _ => h.trans h₁.tree⟩
      | ok _ =>
        obtain ⟨content, text, hcontent, hlisting, target, hfollow, hrest⟩ := h
        rw [h₁.tree] at hrest
        rw [h₁.home] at hfollow
        rw [h₁.contentOf?] at hcontent
        refine ⟨fun _ => ?_, nofun⟩
        exact ⟨c, p, content, text, target, hr.symm, hp, hcontent, hlisting, hfollow, hrest⟩

/-- **A run is all or nothing.** -/
theorem run_allOrNothing (w : World) (toolchain : Text) (args : List Text) {g : Given}
    {source dest : Text} (hargs : Request.read args = .ok (.preprocess g source dest))
    (hdest : dest ≠ Pathname.stdio) :
    AllOrNothing w g source dest (run World.host toolchain args w).1
      (run World.host toolchain args w).2 := by
  have hobey : obey World.host toolchain args = preprocess World.host g source dest := by
    unfold obey
    rw [hargs]
  show Ends (run World.host toolchain args) w (AllOrNothing w g source dest)
  unfold run
  rw [hobey]
  refine Ends.bind (ends_preprocess g source hdest w) fun r w₁ h => ?_
  cases r with
  | ok _ => exact h
  | error f =>
    refine Ends.bind (World.quiet_report _ w₁) fun _ w₂ h₂ => ?_
    exact ⟨nofun, fun _ => h₂.tree.trans (h.failure rfl)⟩

open Text (ascii) in
/-- A source that is replaced by its own listing. -/
theorem run_allOrNothing_in_place :
    (run World.host [] [ascii "p.as", ascii "p.as"]
        { tree := ⟨[([ascii "p.as"], .file (ascii "one: 1"))]⟩ }).1 = true ∧
      AllOrNothing { tree := ⟨[([ascii "p.as"], .file (ascii "one: 1"))]⟩ }
        { positional := [ascii "p.as", ascii "p.as"] } (ascii "p.as") (ascii "p.as")
        (run World.host [] [ascii "p.as", ascii "p.as"]
          { tree := ⟨[([ascii "p.as"], .file (ascii "one: 1"))]⟩ }).1
        (run World.host [] [ascii "p.as", ascii "p.as"]
          { tree := ⟨[([ascii "p.as"], .file (ascii "one: 1"))]⟩ }).2 :=
  ⟨by decide +kernel, run_allOrNothing _ [] _ (by rfl) (by decide)⟩

end CommandLine

end Preassembler
