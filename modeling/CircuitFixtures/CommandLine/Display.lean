import CircuitFixtures.Files.Path
import CircuitFixtures.Fixture.Artifact
import CircuitFixtures.Fixture.Builtin
import CircuitFixtures.Index.Ranges

/-!
# What is shown

The lines that the commands write about fixtures, circuits and assignments.
-/

namespace CircuitFixtures

/-- Lines, each with its end. -/
def linesText (lines : List String) : String :=
  String.join (lines.map (· ++ "\n"))

/-- The result of a check. -/
def Report.lines (r : Report) : List String :=
  ["=== " ++ r.name ++ " ===", "",
    "Bytecode: " ++ toString r.compressedSize ++ " bytes (" ++ toString r.payloadSize ++
      " decompressed)",
    "Opcodes: " ++ toString r.opcodes] ++
  (if r.callNames.isEmpty then [] else ["Black box calls: " ++ ", ".intercalate r.callNames]) ++
  ["Current witness index: " ++ toString r.lastIndex.toNat,
    "Inputs: " ++ toString r.inputs,
    "Outputs: " ++ rangesText r.outputs.keys] ++
  r.outputs.toFixedEntries.map (fun p => "  " ++ toString p.1.toNat ++ " = " ++ p.2) ++
  ["", "Status: OK"]

def Opcode.line (index : Nat) : Opcode → String
  | .arithmetic e =>
    "  [" ++ toString index ++ "] arithmetic over " ++ rangesText e.witnesses.elems
  | .call c =>
    "  [" ++ toString index ++ "] " ++ c.name ++ "(" ++ rangesText (c.inputs.map (·.witness)) ++
      ") -> " ++ rangesText c.outputs

/-- The circuit of a fixture. -/
def Circuit.lines (name : String) (c : Circuit) : List String :=
  ["=== " ++ name ++ " ===", "",
    "Current witness index: " ++ toString c.lastIndex.toNat,
    "Private parameters: " ++ rangesText c.privateParameters.elems,
    "Public parameters: " ++ rangesText c.publicParameters.elems,
    "Return values: " ++ rangesText c.returnValues.elems,
    "", "Opcodes:"] ++
  c.opcodes.mapIdx Opcode.line ++
  c.messages.map (fun m => "  " ++ m.1.text ++ ": " ++ m.2)

namespace Assignment

/-- A number with blanks in front, for columns of four. -/
def column (n : Nat) : String :=
  let digits := toString n
  String.ofList (List.replicate (4 - digits.length) ' ') ++ digits

/-- One line for each entry. -/
def lines (m : Assignment) : List String :=
  m.toFixedEntries.map (fun p => column p.1.toNat ++ ": " ++ p.2)

/-- A JSON object from indices to values of fixed width. -/
def fixedJson (m : Assignment) : String :=
  String.ofList (Artifact.textObject 0 (Artifact.texts m))

/-- The entries under a title. -/
def titled (title : String) (m : Assignment) : List String :=
  (title ++ ":") ::
    (if m.isEmpty then ["  (none)"]
    else m.toFixedEntries.map (fun p => "  " ++ toString p.1.toNat ++ ": " ++ p.2))

end Assignment

/-! ## The fixtures directory -/

/-- The name of the fixture that a file is for, if it is for one. -/
def fixtureName? (file : Path.Segment) : Option (List Char) :=
  if Path.extension? file = some "json".toList then some (Path.stem file) else none

/-- The fixtures among the names in a directory, ascending. -/
def fixtureNames (files : List (List Char)) : List (List Char) :=
  (files.filterMap fixtureName?).mergeSort (fun a b => !decide (b < a))

/-- What is shown of the builtin fixtures, with the title of the others. -/
def builtinLines (dir : Path) : List String :=
  "Builtin:" :: Fixture.builtinNames.map ("  " ++ ·) ++ ["", "In " ++ dir.toString ++ ":"]

def nameLines (names : List (List Char)) : List String :=
  if names.isEmpty then ["  (none)"] else names.map (fun n => "  " ++ String.ofList n)

end CircuitFixtures
