import CircuitFixtures.Proofs.CommandLine.Export
import CircuitFixtures.Proofs.Files.Changes
import CircuitFixtures.Proofs.Files.Parents

/-!
# Sessions

A session starts the program several times, each time on the tree that the start before has left.
A command that fails has shown nothing (`Run.silent_action`), except that the list shows what it
could find. One run changes the entry it exports to and adds directories around it
(`Invocation.run_changes`); that is carried to whole sessions by induction on the starts
(`Session.changes`).
-/

namespace CircuitFixtures

/-! ## What a run shows -/

/-- Nothing is shown unless all goes well. -/
def Outcome.Silent (o : Outcome) : Prop :=
  o.exitCode = 1 → o.shown = ""

theorem Outcome.silent_done (t : FileTree) (shown : String) : (done t shown).Silent :=
  fun h => by cases h

theorem Outcome.silent_failed (t : FileTree) (causes : List String) : (failed t causes).Silent :=
  fun _ => rfl

namespace Run

open Outcome

variable {p : Place} {c : Config} {s : FixtureSource} {f : Fixture} {t : FileTree} {out : Path}

theorem silent_check (t : FileTree) (f : Fixture) : (check t f).Silent := by
  rw [check]
  split
  · exact silent_failed _ _
  · exact silent_done _ _

theorem silent_inspect (t : FileTree) (f : Fixture) : (inspect t f).Silent := by
  rw [inspect]
  split
  · exact silent_failed _ _
  · exact silent_done _ _

theorem silent_publicWitness (t : FileTree) (f : Fixture) : (publicWitness t f).Silent := by
  rw [publicWitness]
  split
  · exact silent_failed _ _
  · split
    · exact silent_failed _ _
    · split
      · exact silent_failed _ _
      · exact silent_done _ _

theorem silent_writeArtifact (p : Place) (t : FileTree) (out : Path) (f : Fixture) :
    (writeArtifact p t out f).Silent := by
  rw [writeArtifact]
  split
  · exact silent_failed _ _
  · split
    · exact silent_failed _ _
    · exact silent_done _ _

theorem silent_withFixture {go : Fixture → Outcome} (h : ∀ f, (go f).Silent) :
    (withFixture p c t s go).Silent := by
  rw [withFixture]
  split
  · exact silent_failed _ _
  · exact h _

theorem silent_action : (a : Action) → a ≠ .list → (action p c t a).Silent
  | .list, h => absurd rfl h
  | .check _, _ => silent_withFixture (silent_check t)
  | .inspect _, _ => silent_withFixture (silent_inspect t)
  | .witness _ _ _, _ => silent_withFixture fun _ => silent_done _ _
  | .publicWitness _, _ => silent_withFixture (silent_publicWitness t)
  | .export _ out, _ => silent_withFixture (silent_writeArtifact p t out)

/-! ## What a run changes -/

theorem tree_list (p : Place) (c : Config) (t : FileTree) : (list p c t).tree = t := by
  simp only [list]
  split
  · rfl
  · rfl
  · split <;> rfl

theorem tree_withFixture {go : Fixture → Outcome} (h : ∀ f, (go f).tree = t) :
    (withFixture p c t s go).tree = t := by
  rw [withFixture]
  split
  · rfl
  · exact h _

theorem tree_check (t : FileTree) (f : Fixture) : (check t f).tree = t := by
  rw [check]
  split <;> rfl

theorem tree_inspect (t : FileTree) (f : Fixture) : (inspect t f).tree = t := by
  rw [inspect]
  split <;> rfl

theorem tree_publicWitness (t : FileTree) (f : Fixture) : (publicWitness t f).tree = t := by
  rw [publicWitness]
  split
  · rfl
  · split
    · rfl
    · split <;> rfl

/-- Only an export changes anything. -/
theorem tree_action : (a : Action) → (∀ s out, a ≠ .export s out) → (action p c t a).tree = t
  | .list, _ => tree_list p c t
  | .check _, _ => tree_withFixture (tree_check t)
  | .inspect _, _ => tree_withFixture (tree_inspect t)
  | .witness _ _ _, _ => tree_withFixture fun _ => rfl
  | .publicWitness _, _ => tree_withFixture (tree_publicWitness t)
  | .export s out, h => absurd rfl (h s out)

/-- Without a fixture nothing is done. -/
theorem action_export_of_error {e : SourceFault} (h : s.resolve t p.names c = .error e) :
    action p c t (.export s out) = .failed t e.causes := by
  rw [action, withFixture, h]

theorem grows_makeParent {t' : FileTree} {r : Except FileFault Unit}
    (h : makeParent p t out = (t', r)) : FileTree.Grows p.names out.parents t t' := by
  rw [makeParent] at h
  split at h
  · cases h
    exact .refl _ _ _
  · rename_i parent hparent
    split at h
    · cases h
      exact .refl _ _ _
    · rw [Path.parents_of_parent? hparent]
      exact FileTree.grows_makeDirectories h

/-- What an outcome of an export may have made of a tree under the names: nothing, a directory
around the path, or the file at the path if all went well. -/
def Exported (p : Place) (out : Path) (t : FileTree) (o : Outcome) (names : Names) : Prop :=
  o.tree.find? names = t.find? names ∨
    (t.find? names = none ∧ o.tree.find? names = some .directory ∧
      ∃ q ∈ out.parents, o.tree.locate p.names q = .ok names) ∨
    (o.exitCode = 0 ∧ o.tree.locate p.names out = .ok names)

theorem exported_of_grows {o : Outcome} (h : FileTree.Grows p.names out.parents t o.tree)
    (names : Names) : Exported p out t o names := by
  rcases h names with hsame | hmade
  · exact .inl hsame
  · exact .inr (.inl hmade)

theorem exported_writeArtifact (p : Place) (t : FileTree) (out : Path) (f : Fixture)
    (names : Names) : Exported p out t (writeArtifact p t out f) names := by
  rw [writeArtifact]
  split
  · rename_i t₁ e hparent
    exact exported_of_grows (grows_makeParent hparent) names
  · rename_i t₁ hparent
    have hgrows := grows_makeParent hparent
    split
    · exact exported_of_grows hgrows names
    · rename_i t' hwrite
      obtain ⟨d, hlocate, -, hothers⟩ := FileTree.find?_write hwrite
      by_cases hnames : names = d
      · subst hnames
        exact .inr (.inr ⟨rfl, hlocate⟩)
      · rcases hgrows names with hsame | ⟨hnone, hmade, q, hq, hreached⟩
        · exact .inl ((hothers names hnames).trans hsame)
        · have hstill := FileTree.locate_kept (FileTree.kept_write hwrite) hreached hmade
          exact .inr (.inl ⟨hnone, (hothers names hnames).trans hmade, q, hq, hstill⟩)

end Run

namespace Invocation

/-- The names lead to where an export writes, and it ends well. -/
def Writes (i : Invocation) (p : Place) (t : FileTree) (names : Names) : Prop :=
  ∃ s out, i.action = .export s out ∧ (i.run p t).exitCode = 0 ∧
    (i.run p t).tree.locate p.names out = .ok names

/-- The names lead to a directory around the path where an export is to write. -/
def Surrounds (i : Invocation) (p : Place) (t : FileTree) (names : Names) : Prop :=
  ∃ s out, i.action = .export s out ∧
    ∃ q ∈ out.parents, (i.run p t).tree.locate p.names q = .ok names

variable {i : Invocation} {p : Place} {t : FileTree}

theorem silent_run (h : i.action ≠ .list) : (i.run p t).Silent := by
  rw [run]
  split
  · exact Outcome.silent_failed _ _
  · exact Run.silent_action _ h

/-- An export without a configuration or without a fixture does nothing. -/
theorem run_export_of_not_loaded {s : FixtureSource} {out : Path} (haction : i.action = .export s out)
    (h : ∀ c f, i.load p t = .ok c → s.resolve t p.names c ≠ .ok f) :
    ∃ causes, i.run p t = .failed t causes := by
  rw [run]
  split
  · exact ⟨_, rfl⟩
  · rename_i c hload
    rw [haction]
    cases hresolve : s.resolve t p.names c with
    | error e => exact ⟨_, Run.action_export_of_error hresolve⟩
    | ok f => exact absurd hresolve (h c f hload)

theorem tree_run (h : ∀ s out, i.action ≠ .export s out) : (i.run p t).tree = t := by
  rw [run]
  split
  · rfl
  · exact Run.tree_action _ h

theorem exported_run {s : FixtureSource} {out : Path} (haction : i.action = .export s out)
    (names : Names) : Run.Exported p out t (i.run p t) names := by
  rw [run]
  split
  · exact .inl rfl
  · rw [haction, Run.action, Run.withFixture]
    split
    · exact .inl rfl
    · exact Run.exported_writeArtifact p t out _ names

/-- A run leaves an entry as it is, makes a directory around the path of an export, or writes
there. -/
theorem run_changes (i : Invocation) (p : Place) (t : FileTree) (names : Names) :
    (i.run p t).tree.find? names = t.find? names ∨
      (t.find? names = none ∧ (i.run p t).tree.find? names = some .directory ∧
        i.Surrounds p t names) ∨
      i.Writes p t names := by
  by_cases hexport : ∃ s out, i.action = .export s out
  · obtain ⟨s, out, haction⟩ := hexport
    rcases exported_run haction names with hsame | ⟨hnone, hmade, hq⟩ | hwritten
    · exact .inl hsame
    · exact .inr (.inl ⟨hnone, hmade, s, out, haction, hq⟩)
    · exact .inr (.inr ⟨s, out, haction, hwritten⟩)
  · left
    rw [tree_run fun s out haction => hexport ⟨s, out, haction⟩]

end Invocation

/-! ## One run after the other -/

/-- The program, started in a place with arguments. -/
structure Start where
  place : Place
  arguments : List CommandLine.Argument
  deriving Repr, DecidableEq

/-- The tree that a start leaves behind. Arguments that are no invocation change nothing. -/
def Start.after (s : Start) (t : FileTree) : FileTree :=
  match CommandLine.parse s.arguments with
  | .ok i => (i.run s.place t).tree
  | .error _ => t

namespace Session

/-- The tree behind all starts. -/
def after (t : FileTree) (starts : List Start) : FileTree :=
  starts.foldl (fun t s => s.after t) t

/-- Among the starts on a tree is one of the invocation in the place, which finds the tree
`found`. -/
def Runs (t : FileTree) (starts : List Start) (i : Invocation) (p : Place) (found : FileTree) :
    Prop :=
  ∃ before arguments behind, starts = before ++ ⟨p, arguments⟩ :: behind ∧
    CommandLine.parse arguments = .ok i ∧ found = after t before

variable {t : FileTree} {starts : List Start} {s : Start} {i : Invocation} {p : Place}
variable {found : FileTree}

theorem runs_first (h : CommandLine.parse s.arguments = .ok i) :
    Runs t (s :: starts) i s.place t :=
  ⟨[], s.arguments, starts, rfl, h, rfl⟩

theorem Runs.cons (h : Runs (s.after t) starts i p found) : Runs t (s :: starts) i p found := by
  obtain ⟨before, arguments, behind, rfl, hparse, rfl⟩ := h
  exact ⟨s :: before, arguments, behind, rfl, hparse, rfl⟩

theorem Runs.append (h : Runs t starts i p found) (more : List Start) :
    Runs t (starts ++ more) i p found := by
  obtain ⟨before, arguments, behind, rfl, hparse, rfl⟩ := h
  exact ⟨before, arguments, behind ++ more, by simp, hparse, rfl⟩

/-- What may have become of an entry behind all starts. -/
def Changed (t : FileTree) (starts : List Start) (names : Names) : Prop :=
  (after t starts).find? names = t.find? names ∨
    (t.find? names = none ∧ (after t starts).find? names = some .directory ∧
      ∃ i p found, Runs t starts i p found ∧ i.Surrounds p found names) ∨
    ∃ i p found, Runs t starts i p found ∧ i.Writes p found names

theorem changed_start (t : FileTree) (s : Start) (names : Names) : Changed t [s] names := by
  have hafter : after t [s] = s.after t := rfl
  rw [Changed, hafter, Start.after]
  cases hparse : CommandLine.parse s.arguments with
  | error e => exact .inl rfl
  | ok i =>
    have hruns : Runs t [s] i s.place t := runs_first hparse
    rcases i.run_changes s.place t names with hsame | ⟨hnone, hmade, hsurrounds⟩ | hwrites
    · exact .inl hsame
    · exact .inr (.inl ⟨hnone, hmade, i, s.place, t, hruns, hsurrounds⟩)
    · exact .inr (.inr ⟨i, s.place, t, hruns, hwrites⟩)

/-- What is changed by one start is not taken back by those behind it. -/
theorem changes (t : FileTree) (starts : List Start) (names : Names) : Changed t starts names := by
  induction starts generalizing t with
  | nil => exact .inl rfl
  | cons s starts ih =>
    have hafter : after t [s] = s.after t := rfl
    have hfirst := changed_start t s names
    rw [Changed, hafter] at hfirst
    rcases hfirst with hsame | ⟨hnone, hmade, i, p, found, hruns, h⟩ | ⟨i, p, found, hruns, h⟩
    · rcases ih (s.after t) with hsame' | ⟨hnone', hmade', i, p, found, hruns, h⟩ |
        ⟨i, p, found, hruns, h⟩
      · exact .inl (hsame'.trans hsame)
      · exact .inr (.inl ⟨hsame ▸ hnone', hmade', i, p, found, hruns.cons, h⟩)
      · exact .inr (.inr ⟨i, p, found, hruns.cons, h⟩)
    · have hruns' : Runs t (s :: starts) i p found := hruns.append starts
      rcases ih (s.after t) with hsame' | ⟨hnone', -, -⟩ | ⟨i', p', found', hruns'', h'⟩
      · exact .inr (.inl ⟨hnone, hsame'.trans hmade, i, p, found, hruns', h⟩)
      · rw [hmade] at hnone'
        cases hnone'
      · exact .inr (.inr ⟨i', p', found', hruns''.cons, h'⟩)
    · exact .inr (.inr ⟨i, p, found, hruns.append starts, h⟩)

/-- A command other than the list that fails has shown nothing. An export without configuration or
fixture changes nothing. Behind all starts of a session an entry is what it was, or a directory
that was made around the path of an export, or it is where an export wrote that ended well. -/
theorem all_or_nothing :
    (∀ (i : Invocation) (p : Place) (t : FileTree), i.action ≠ .list → (i.run p t).exitCode = 1 →
      (i.run p t).shown = "") ∧
    (∀ (i : Invocation) (p : Place) (t : FileTree) (s : FixtureSource) (out : Path),
      i.action = .export s out →
      (∀ c f, i.load p t = .ok c → s.resolve t p.names c ≠ .ok f) →
        (i.run p t).exitCode = 1 ∧ (i.run p t).tree = t) ∧
    ∀ (t : FileTree) (starts : List Start) (names : Names),
      (after t starts).find? names = t.find? names ∨
        (t.find? names = none ∧ (after t starts).find? names = some .directory ∧
          ∃ i p found, Runs t starts i p found ∧ i.Surrounds p found names) ∨
        ∃ i p found, Runs t starts i p found ∧ i.Writes p found names := by
  refine ⟨fun i p t haction => Invocation.silent_run haction, ?_, changes⟩
  intro i p t s out haction h
  obtain ⟨causes, hfailed⟩ := Invocation.run_export_of_not_loaded haction h
  rw [hfailed]
  exact ⟨rfl, rfl⟩

/-- The root of a tree, with no variable set. -/
def samplePlace : Place :=
  ⟨[], []⟩

/-- An export of a file that is not there, into a directory that is not there. -/
def sampleInvocation : Invocation :=
  ⟨none, none, .export (.ofFile (.ofString "gone.json")) (.ofString "out/copy.json"), 0, false⟩

theorem not_loaded_sample (c : Config) (f : Fixture) :
    (FixtureSource.ofFile (.ofString "gone.json")).resolve .empty samplePlace.names c ≠ .ok f := by
  have hresolve : (FixtureSource.ofFile (.ofString "gone.json")).resolve .empty samplePlace.names c =
      .error (.unreadable (.ofString "gone.json") .notFound) := rfl
  rw [hresolve]
  exact nofun

theorem sample_all_or_nothing :
    (sampleInvocation.run samplePlace .empty).exitCode = 1 ∧
      (sampleInvocation.run samplePlace .empty).shown = "" ∧
      (sampleInvocation.run samplePlace .empty).tree = .empty := by
  obtain ⟨hsilent, hunchanged, -⟩ := all_or_nothing
  obtain ⟨hcode, htree⟩ := hunchanged sampleInvocation samplePlace .empty _ _ rfl
    fun c f _ => not_loaded_sample c f
  exact ⟨hcode, hsilent sampleInvocation samplePlace .empty (by decide) hcode, htree⟩

end Session

end CircuitFixtures
