import CircuitFixtures.Proofs.CommandLine.Looking
import CircuitFixtures.Proofs.Files.Writing
import CircuitFixtures.Proofs.Fixture.Source

/-!
# Exported fixtures

An export that ends well leaves a file from which the very fixture is read again, so whatever
looks at the fixture shows the same of the file (`action_looks`). A second export, from the file,
finds directories and file as it would make them: to the same path it changes nothing at all
(`writeArtifact_again`), and to any other it writes the same bytes. Where the fixture came from
does not matter, so the file may be the one that was read.
-/

namespace CircuitFixtures.Run

variable {p : Place} {c : Config} {s : FixtureSource} {f : Fixture} {t t' : FileTree} {out : Path}

/-- The directory around a path stays once it is there. -/
theorem makeParent_again {t₁ : FileTree} (h : makeParent p t out = (t₁, .ok ()))
    (hkept : FileTree.Kept t₁ t') : makeParent p t' out = (t', .ok ()) := by
  rw [makeParent] at h ⊢
  split at h
  · rfl
  · rename_i parent hparent
    split at h
    · rename_i hempty
      simp [hempty]
    · rename_i hempty
      rw [Bool.not_eq_true] at hempty
      have hthere := FileTree.isDirectory_kept hkept (FileTree.isDirectory_makePath h hempty)
      simp [hempty, FileTree.makePath_of_isDirectory hthere]

/-- What is shown when a fixture has been written. -/
def writtenText (f : Fixture) (out : Path) : String :=
  linesText ["Wrote " ++ f.name ++ " to " ++ out.toString]

theorem writeArtifact_cases (h : (writeArtifact p t out f).exitCode = 0) :
    ∃ t₁ t', makeParent p t out = (t₁, .ok ()) ∧ t₁.write p.names out f.saved = .ok t' ∧
      writeArtifact p t out f = .done t' (writtenText f out) := by
  rw [writeArtifact] at h ⊢
  split at h
  · cases h
  · rename_i t₁ hparent
    split at h
    · cases h
    · rename_i t' hwrite
      exact ⟨t₁, t', hparent, hwrite, rfl⟩

/-- The file is there, so to write it once more changes nothing. -/
theorem writeArtifact_again {t₁ : FileTree} (hparent : makeParent p t out = (t₁, .ok ()))
    (hwrite : t₁.write p.names out f.saved = .ok t') :
    writeArtifact p t' out f = .done t' (writtenText f out) := by
  have hagain := FileTree.write_again hwrite
  rw [Fixture.saved] at hagain
  rw [writeArtifact, makeParent_again hparent (FileTree.kept_write hwrite)]
  simp only [hagain]
  rfl

/-- A fixture that is exported is read again from the file, which shows what its source shows, and
is exported from there as the same bytes, to the same path without any change. -/
theorem export_faithful (hs : s.resolve t p.names c = .ok f)
    (hdone : (action p c t (.export s out)).exitCode = 0) :
    ∃ t', action p c t (.export s out) = .done t' (writtenText f out) ∧
      t'.read p.names out = .ok f.saved ∧
      ∀ c' : Config,
        (FixtureSource.ofFile out).resolve t' p.names c' = .ok f ∧
        (∀ look, Looks look →
          SameReport (action p c' t' (look (.ofFile out))) (action p c t (look s))) ∧
        action p c' t' (.export (.ofFile out) out) = .done t' (writtenText f out) ∧
        ∀ out', (action p c' t' (.export (.ofFile out) out')).exitCode = 0 →
          (action p c' t' (.export (.ofFile out) out')).tree.read p.names out' =
            t'.read p.names out := by
  rw [action, withFixture_eq hs] at hdone ⊢
  obtain ⟨t₁, t', hparent, hwrite, hwritten⟩ := writeArtifact_cases hdone
  have hread := FileTree.read_write hwrite
  refine ⟨t', hwritten, hread, fun c' => ?_⟩
  have hfile : (FixtureSource.ofFile out).resolve t' p.names c' = .ok f :=
    FixtureSource.readArtifact_saved hread
  refine ⟨hfile, fun look hlook => action_looks hlook hs hfile, ?_, fun out' hdone' => ?_⟩
  · rw [action, withFixture_eq hfile]
    exact writeArtifact_again hparent hwrite
  · rw [action, withFixture_eq hfile] at hdone' ⊢
    obtain ⟨t₂, t'', -, hwrite', hwritten'⟩ := writeArtifact_cases hdone'
    rw [hwritten', hread]
    exact FileTree.read_write hwrite'

/-- The sample fixture, exported over the file that it is read from. -/
theorem sample_exported :
    ∃ t', action ⟨[], []⟩ Config.default FixtureSource.sampleTree
          (.export (.ofFile FixtureSource.sampleFile) FixtureSource.sampleFile) =
        .done t' (writtenText (Fixture.sample "sample" Field.zero) FixtureSource.sampleFile) ∧
      t'.read [] FixtureSource.sampleFile = .ok (Fixture.sample "sample" Field.zero).saved ∧
      (FixtureSource.ofFile FixtureSource.sampleFile).resolve t' [] Config.default =
        .ok (Fixture.sample "sample" Field.zero) := by
  have hdone : (action ⟨[], []⟩ Config.default FixtureSource.sampleTree
      (.export (.ofFile FixtureSource.sampleFile) FixtureSource.sampleFile)).exitCode = 0 := by
    rw [action, withFixture_eq (FixtureSource.resolve_sample _)]
    rfl
  obtain ⟨t', hwritten, hread, h⟩ := export_faithful (FixtureSource.resolve_sample _) hdone
  exact ⟨t', hwritten, hread, (h Config.default).1⟩

end CircuitFixtures.Run
