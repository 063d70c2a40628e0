import CircuitFixtures.CommandLine.Arguments
import CircuitFixtures.CommandLine.Display
import CircuitFixtures.Fixture.Source

/-!
# Runs

A run takes a file tree and gives one back, with what it shows and what went wrong, if
anything. Only `export` changes the tree.
-/

namespace CircuitFixtures

/-- What a run leaves behind. -/
structure Outcome where
  tree : FileTree
  shown : String
  /-- What went wrong and what it is caused by. -/
  causes : Option (List String)
  deriving Repr, DecidableEq

namespace Outcome

def done (t : FileTree) (shown : String) : Outcome :=
  ⟨t, shown, none⟩

def failed (t : FileTree) (causes : List String) : Outcome :=
  ⟨t, "", some causes⟩

def exitCode (o : Outcome) : Nat :=
  if o.causes.isSome then 1 else 0

/-- What went wrong, on one line. -/
def complaint (causes : List String) : String :=
  ": ".intercalate causes

end Outcome

/-- The place of a run: its working directory, by its names and as a path, and the
environment. -/
structure Place where
  names : Names
  environment : Environment
  deriving Repr, DecidableEq

namespace Place

/-- The path of the working directory. -/
def cwd (p : Place) : Path :=
  ⟨'/' :: Path.unsplit p.names⟩

end Place

namespace Run

/-- Lists the fixtures. What can be shown is shown, even if the directory cannot be read. -/
def list (p : Place) (c : Config) (t : FileTree) : Outcome :=
  let front := builtinLines c.fixturesDir
  let stop (e : FileFault) : Outcome := ⟨t, linesText front, some [e.message]⟩
  match t.pathExists p.names c.fixturesDir with
  | .error e => stop e
  | .ok false => .done t (linesText (front ++ nameLines []))
  | .ok true =>
    match t.list p.names c.fixturesDir with
    | .error e => stop e
    | .ok files => .done t (linesText (front ++ nameLines (fixtureNames files)))

/-- Goes on with the fixture that is meant. -/
def withFixture (p : Place) (c : Config) (t : FileTree) (s : FixtureSource)
    (go : Fixture → Outcome) : Outcome :=
  match s.resolve t p.names c with
  | .error e => .failed t e.causes
  | .ok f => go f

def check (t : FileTree) (f : Fixture) : Outcome :=
  match f.check with
  | .error e =>
    .failed t (("Fixture '" ++ f.name ++ "' failed its integrity check") :: e.causes)
  | .ok r => .done t (linesText r.lines)

def inspect (t : FileTree) (f : Fixture) : Outcome :=
  match f.circuit with
  | .error e => .failed t e.causes
  | .ok c => .done t (linesText (c.lines f.name))

def witness (t : FileTree) (expected json : Bool) (f : Fixture) : Outcome :=
  let m := if expected then f.expected else f.initial
  .done t (linesText (if json then [m.fixedJson] else m.lines))

def publicWitness (t : FileTree) (f : Fixture) : Outcome :=
  match f.circuit with
  | .error e => .failed t e.causes
  | .ok c =>
    match c.parameterWitness f.expected with
    | .error i => .failed t [Assignment.missingMessage i]
    | .ok parameters =>
      match c.returnWitness f.expected with
      | .error i => .failed t [Assignment.missingMessage i]
      | .ok returns =>
        .done t (linesText (parameters.titled "Public parameters" ++
          returns.titled "Return values"))

/-- Makes the directories around a path, of which there may be none. -/
def makeParent (p : Place) (t : FileTree) (out : Path) : FileTree × Except FileFault Unit :=
  match out.parent? with
  | none => (t, .ok ())
  | some parent => if parent.chars.isEmpty then (t, .ok ()) else t.makePath p.names parent

def writeArtifact (p : Place) (t : FileTree) (out : Path) (f : Fixture) : Outcome :=
  match makeParent p t out with
  | (t, .error e) => .failed t [e.message]
  | (t, .ok ()) =>
    match t.write p.names out (Utf8.encode (Artifact.ofFixture f).fileText.toList) with
    | .error e => .failed t ["Could not write " ++ out.toString, e.message]
    | .ok t => .done t (linesText ["Wrote " ++ f.name ++ " to " ++ out.toString])

def action (p : Place) (c : Config) (t : FileTree) : Action → Outcome
  | .list => list p c t
  | .check s => withFixture p c t s (check t)
  | .inspect s => withFixture p c t s (inspect t)
  | .witness s expected json => withFixture p c t s (witness t expected json)
  | .publicWitness s => withFixture p c t s (publicWitness t)
  | .export s out => withFixture p c t s (writeArtifact p t out)

end Run

/-- The configuration of an invocation. -/
def Invocation.load (i : Invocation) (p : Place) (t : FileTree) : Except ConfigFault Config :=
  Config.load t p.names p.cwd p.environment.configDir p.environment
    ⟨i.config, i.fixturesDir, none⟩

/-- Runs an invocation. -/
def Invocation.run (i : Invocation) (p : Place) (t : FileTree) : Outcome :=
  match i.load p t with
  | .error e => .failed t [e.message]
  | .ok c => Run.action p c t i.action

end CircuitFixtures
