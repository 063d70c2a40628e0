import CircuitFixtures.Fixture.Source
import CircuitFixtures.Proofs.Fixture.ArtifactRoundTrip
import CircuitFixtures.Proofs.Fixture.Check

/-!
# Fixtures from files

A file that holds a saved fixture gives that fixture (`FixtureSource.readArtifact_saved`), whatever
blanks stand in front of it, and a source that names a file depends on that file alone.
-/

namespace CircuitFixtures

/-- The bytes of the file that a fixture is saved as. -/
def Fixture.saved (f : Fixture) : List UInt8 :=
  Utf8.encode (Artifact.ofFixture f).fileText.toList

/-- The source that is a file. -/
def FixtureSource.ofFile (path : Path) : FixtureSource :=
  ⟨none, some path⟩

namespace FixtureSource

variable {t : FileTree} {cwd : Names} {path : Path} {f : Fixture}

/-- A text that reads as the artifact of a fixture gives the fixture. -/
theorem ofContent_of_text {text : List Char}
    (h : Json.whole Artifact.reader text = .ok (Artifact.ofFixture f)) :
    ofContent path (Utf8.encode text) = .ok f := by
  simp only [ofContent, Utf8.decode_encode, h, Artifact.toFixture_ofFixture]
  rfl

theorem ofContent_saved (path : Path) (f : Fixture) : ofContent path f.saved = .ok f :=
  ofContent_of_text (Artifact.ofJson_fileText _)

theorem readArtifact_of_read {content : List UInt8} (h : t.read cwd path = .ok content) :
    readArtifact t cwd path = ofContent path content := by
  rw [readArtifact, h]

theorem readArtifact_saved (h : t.read cwd path = .ok f.saved) :
    readArtifact t cwd path = .ok f := by
  rw [readArtifact_of_read h, ofContent_saved]

theorem resolve_ofFile (t : FileTree) (cwd : Names) (c : Config) (path : Path) :
    (ofFile path).resolve t cwd c = readArtifact t cwd path :=
  rfl

/-- A file in the root. -/
def sampleFile : Path := .ofString "sample.json"

/-- The sample fixture in a file, with a blank in front of its text. -/
def sampleTree : FileTree :=
  FileTree.empty.put [sampleFile.chars] (.file (Utf8.encode
    (' ' :: (Artifact.ofFixture (Fixture.sample "sample" Field.zero)).fileText.toList)))

/-- A blank in front of an artifact is skipped. -/
theorem whole_reader_blank (cs : List Char) :
    Json.whole Artifact.reader (' ' :: cs) = Json.whole Artifact.reader cs :=
  rfl

theorem resolve_sample (c : Config) :
    (ofFile sampleFile).resolve sampleTree [] c = .ok (Fixture.sample "sample" Field.zero) := by
  have hread : sampleTree.read [] sampleFile = .ok (Utf8.encode
      (' ' :: (Artifact.ofFixture (Fixture.sample "sample" Field.zero)).fileText.toList)) := rfl
  rw [resolve_ofFile, readArtifact_of_read hread]
  refine ofContent_of_text ?_
  rw [whole_reader_blank]
  exact Artifact.ofJson_fileText _

end FixtureSource

end CircuitFixtures
