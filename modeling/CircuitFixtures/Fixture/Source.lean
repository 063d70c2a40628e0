import CircuitFixtures.CommandLine.Invocation
import CircuitFixtures.Config
import CircuitFixtures.Fixture.Artifact
import CircuitFixtures.Fixture.Builtin

/-!
# Finding fixtures

A fixture comes from a file that is named, else it is a builtin one, else it is read from
the fixtures directory.
-/

namespace CircuitFixtures

/-- Why a fixture cannot be had. -/
inductive SourceFault where
  | unreadable (path : Path) (fault : FileFault)
  | notJson (path : Path) (text : List Char) (fault : Json.Fault)
  | invalid (path : Path) (fault : ArtifactFault)
  /-- It cannot be told whether there is a file. -/
  | unknown (fault : FileFault)
  | notFound (name : List Char)
  deriving Repr, DecidableEq

/-- The message, and what it is caused by. -/
def SourceFault.causes : SourceFault → List String
  | .unreadable path fault =>
    ["Could not read fixture artifact " ++ path.toString, fault.message]
  | .notJson path text fault =>
    ["Invalid fixture artifact " ++ path.toString, "JSON error: " ++ fault.message text,
      fault.message text]
  | .invalid path fault => ("Invalid fixture artifact " ++ path.toString) :: fault.causes
  | .unknown fault => [fault.message]
  | .notFound name => ["Fixture '" ++ String.ofList name ++ "' not found"]

namespace FixtureSource

/-- The fixture in an artifact that is at a path. -/
def ofContent (path : Path) (content : List UInt8) : Except SourceFault Fixture :=
  match Utf8.decode content with
  | .error _ => .error (.unreadable path .notText)
  | .ok text =>
    match Json.whole Artifact.reader text with
    | .error e => .error (.notJson path text e)
    | .ok artifact => artifact.toFixture.mapError (.invalid path)

def readArtifact (t : FileTree) (cwd : Names) (path : Path) : Except SourceFault Fixture :=
  match t.read cwd path with
  | .error e => .error (.unreadable path e)
  | .ok content => ofContent path content

/-- The fixture of a name that is not builtin. -/
def readNamed (t : FileTree) (cwd : Names) (c : Config) (name : List Char) :
    Except SourceFault Fixture :=
  match t.pathExists cwd (c.fixturePath name) with
  | .error e => .error (.unknown e)
  | .ok true => readArtifact t cwd (c.fixturePath name)
  | .ok false => .error (.notFound name)

/-- The fixture that is meant. -/
def resolve (t : FileTree) (cwd : Names) (c : Config) (s : FixtureSource) :
    Except SourceFault Fixture :=
  match s.file with
  | some path => readArtifact t cwd path
  | none =>
    let name := s.name.getD c.defaultFixture
    match Fixture.builtin? (String.ofList name) with
    | some f => .ok f
    | none => readNamed t cwd c name

end FixtureSource

end CircuitFixtures
