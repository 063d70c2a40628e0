import CircuitFixtures.Bytes.Base64
import CircuitFixtures.Fixture
import CircuitFixtures.Json.Printer
import CircuitFixtures.Json.Reader

/-!
# Artifacts

An artifact is the written form of a fixture: a JSON object with the name, the bytecode
in Base64, and the two assignments as objects from indices to values of fixed width.
`Artifact.ofFixture` and `Artifact.toFixture` go between the two, `fileText` writes an
artifact and `ofJson` reads one.
-/

namespace CircuitFixtures

structure Artifact where
  name : String
  /-- In Base64. -/
  bytecode : String
  initial : IndexMap String
  expected : IndexMap String
  deriving Repr, DecidableEq

/-- Why an artifact is no fixture. -/
inductive ArtifactFault where
  | bytecode (fault : Base64.Fault)
  | entry (fault : Assignment.EntryFault)
  deriving Repr, DecidableEq

def ArtifactFault.message : ArtifactFault → String
  | .bytecode fault => "Base64 decode: " ++ fault.message
  | .entry fault => fault.message

/-- The message, and what it is caused by. -/
def ArtifactFault.causes : ArtifactFault → List String
  | .bytecode fault => [(ArtifactFault.bytecode fault).message, fault.message]
  | .entry fault => [fault.message]

namespace Artifact

/-! ## Fixtures -/

/-- The entries of an assignment as texts. -/
def texts (m : Assignment) : IndexMap String :=
  m.map Field.toText

def ofFixture (f : Fixture) : Artifact where
  name := f.name
  bytecode := String.ofList ((Base64.encode f.bytecode).map (fun x => Char.ofNat x.toNat))
  initial := texts f.initial
  expected := texts f.expected

def toFixture (a : Artifact) : Except ArtifactFault Fixture :=
  match Base64.decode (Utf8.encode a.bytecode.toList) with
  | .error e => .error (.bytecode e)
  | .ok bytecode =>
    match Assignment.ofFixedEntries a.initial.entries with
    | .error e => .error (.entry e)
    | .ok initial =>
      match Assignment.ofFixedEntries a.expected.entries with
      | .error e => .error (.entry e)
      | .ok expected => .ok ⟨a.name, bytecode, initial, expected⟩

/-! ## Writing -/

/-- An object from indices to texts. -/
def textObject (level : Nat) (m : IndexMap String) : List Char :=
  Json.object level
    (m.entries.map (fun p => (Json.decimal p.1.toNat, Json.quote p.2.toList)))

def nameKey : List Char := "name".toList
def bytecodeKey : List Char := "bytecode".toList
def initialKey : List Char := "initial_witness".toList
def expectedKey : List Char := "expected_witness".toList

/-- The JSON text, over several lines. -/
def toChars (a : Artifact) : List Char :=
  Json.object 0
    [(nameKey, Json.quote a.name.toList),
      (bytecodeKey, Json.quote a.bytecode.toList),
      (initialKey, textObject 1 a.initial),
      (expectedKey, textObject 1 a.expected)]

def toJson (a : Artifact) : String :=
  String.ofList a.toChars

/-- The text of a file: JSON and a new line. -/
def fileText (a : Artifact) : String :=
  String.ofList (a.toChars ++ ['\n'])

/-! ## Reading -/

/-- The members of an artifact that are read so far. -/
structure Draft where
  name : Option (List Char)
  bytecode : Option (List Char)
  initial : Option (IndexMap String)
  expected : Option (IndexMap String)

def Draft.empty : Draft := ⟨none, none, none, none⟩

/-- A text as a value. -/
def textValue : Json.Reader String := fun cs =>
  match Json.text cs with
  | .ok (text, cs) => .ok (String.ofList text, cs)
  | .error e => .error e

/-- A member that may come once. -/
def once {α : Type} (name : String) (old : Option α) (value : Json.Reader α)
    (keep : α → Draft) : Json.Reader Draft := fun cs =>
  if old.isSome then Json.failUnplaced (.duplicate name) cs
  else
    match Json.memberValue value cs with
    | .ok (x, cs) => .ok (keep x, cs)
    | .error e => .error e

/-- The value of the member with the given key. Members with other keys are skipped. -/
def Draft.member (d : Draft) (key : List Char) : Json.Reader Draft :=
  if key = nameKey then once "name" d.name Json.text (fun x => { d with name := some x })
  else if key = bytecodeKey then
    once "bytecode" d.bytecode Json.text (fun x => { d with bytecode := some x })
  else if key = initialKey then
    once "initial_witness" d.initial (Json.indexObject textValue)
      (fun x => { d with initial := some x })
  else if key = expectedKey then
    once "expected_witness" d.expected (Json.indexObject textValue)
      (fun x => { d with expected := some x })
  else fun cs =>
    match Json.memberValue Json.skip cs with
    | .ok ((), cs) => .ok (d, cs)
    | .error e => .error e

/-- The members behind the brace of an object. Each takes at least one character. -/
def Draft.members (d : Draft) (first : Bool) (cs : List Char) : Json.Result Draft :=
  match Json.nextKey first cs with
  | .error e => .error e
  | .ok (false, cs) => .ok (d, cs)
  | .ok (true, cs1) =>
    match Json.textKey cs1 with
    | .error e => .error e
    | .ok (key, cs2) =>
      match d.member key cs2 with
      | .error e => .error e
      | .ok (d, cs3) =>
        if cs3.length < cs.length then d.members false cs3 else Json.failAt .endInObject cs3
termination_by cs.length

/-- The artifact of members that are all read; `cs` is the text behind them. -/
def Draft.finish (d : Draft) (cs : List Char) : Json.Result Artifact :=
  match d.name with
  | none => Json.failUnplaced (.missing "name") cs
  | some name =>
    match d.bytecode with
    | none => Json.failUnplaced (.missing "bytecode") cs
    | some bytecode =>
      match d.initial with
      | none => Json.failUnplaced (.missing "initial_witness") cs
      | some initial =>
        match d.expected with
        | none => Json.failUnplaced (.missing "expected_witness") cs
        | some expected =>
          .ok (⟨String.ofList name, String.ofList bytecode, initial, expected⟩, cs)

/-- How an artifact is called in messages. -/
def description : String := "struct FixtureArtifact"

/-- An item of an artifact written as a list. -/
def item {α : Type} (index : Nat) (value : Json.Reader α) : Json.Reader α := fun cs =>
  match Json.nextItem (index == 0) cs with
  | .error e => .error e
  | .ok (true, cs) => value cs
  | .ok (false, cs) =>
    Json.failUnplaced (.wrongLength index (description ++ " with 4 elements")) cs

/-- The four items behind the bracket of a list. -/
def items : Json.Reader Artifact := fun cs =>
  match item 0 textValue cs with
  | .error e => .error e
  | .ok (name, cs) =>
    match item 1 textValue cs with
    | .error e => .error e
    | .ok (bytecode, cs) =>
      match item 2 (Json.indexObject textValue) cs with
      | .error e => .error e
      | .ok (initial, cs) =>
        match item 3 (Json.indexObject textValue) cs with
        | .error e => .error e
        | .ok (expected, cs) => .ok (⟨name, bytecode, initial, expected⟩, cs)

/-- An artifact, written as an object or as the list of its members. -/
def reader : Json.Reader Artifact := fun cs =>
  match Json.skipBlanks cs with
  | [] => Json.failNext .endInValue []
  | '{' :: cs =>
    match Draft.empty.members true cs with
    | .error e => .error (Json.placeInObject e)
    | .ok (d, cs) =>
      match d.finish cs with
      | .error e => .error (Json.placeInObject e)
      | .ok (a, cs) => .ok (a, cs.tail)
  | '[' :: cs =>
    match items cs with
    | .error e => .error (Json.placeInList e)
    | .ok (a, cs) =>
      match Json.listEnd cs with
      | .error e => .error e
      | .ok ((), cs) => .ok (a, cs)
  | cs => Json.wrongType description cs

def ofJson (text : String) : Except Json.Fault Artifact :=
  Json.whole reader text.toList

end Artifact

end CircuitFixtures
