import CircuitFixtures.Archive
import CircuitFixtures.PublicWitness

/-!
# Fixtures

A fixture is a compressed circuit with an initial assignment, from which it is solved, and
an expected one, to which it has to be solved. `check` decides whether the three belong
together and reports the first property that fails, in this order:

* the bytecode decompresses and holds a circuit;
* the circuit is written back to the same payload, and that to the same bytecode;
* the initial keys are 1, 2 and so on, and at least one;
* they are the circuit's arguments;
* the expected assignment adds one entry and changes none;
* that entry is the circuit's return value.
-/

namespace CircuitFixtures

structure Fixture where
  name : String
  bytecode : List UInt8
  initial : Assignment
  expected : Assignment
  deriving Repr, DecidableEq

/-- Why a fixture does not pass its check. -/
inductive CheckFault where
  | archive (fault : ArchiveFault)
  /-- The circuit is written to another payload. -/
  | payloadDiffers
  /-- The payload is compressed to another bytecode. -/
  | bytecodeDiffers
  | noInitial
  | gapInInitial
  | argumentsDiffer (arguments keys : List Index)
  /-- Entries added to the initial assignment, and those changed or removed. -/
  | wrongAdditions (added changed : Nat)
  | returnsDiffer (added returns : List Index)
  | noValue (index : Index)
  deriving Repr, DecidableEq

/-- Indices between brackets. -/
def listed (is : List Index) : String :=
  "[" ++ ", ".intercalate (is.map toString) ++ "]"

def CheckFault.message : CheckFault → String
  | .archive fault => fault.message
  | .payloadDiffers => "Re-serialized circuit differs from the decompressed payload"
  | .bytecodeDiffers => "Recompressed payload does not reproduce the bytecode"
  | .noInitial => "Initial witness is empty"
  | .gapInInitial => "Initial witness keys are not contiguous from 1"
  | .argumentsDiffer arguments keys =>
    "Circuit arguments " ++ listed arguments ++ " do not match initial witness keys " ++ listed keys
  | .wrongAdditions added changed =>
    "Expected witness must add exactly one entry to the initial witness: " ++ toString added ++
      " added, " ++ toString changed ++ " changed or removed"
  | .returnsDiffer added returns =>
    "Added witnesses " ++ listed added ++ " are not the circuit return values " ++ listed returns
  | .noValue index => Assignment.missingMessage index

/-- The message, and what it is caused by. -/
def CheckFault.causes : CheckFault → List String
  | .archive fault => fault.causes
  | fault => [fault.message]

/-- What a checked fixture holds. -/
structure Report where
  name : String
  compressedSize : Nat
  payloadSize : Nat
  lastIndex : Index
  opcodes : Nat
  callNames : List String
  inputs : Nat
  outputs : Assignment
  deriving Repr, DecidableEq

namespace Fixture

/-- The first index of a circuit's arguments. -/
def firstIndex : Index := 1

/-- The initial assignment with the one value that solving it adds, or the index if it has
a value already. -/
def deriveExpected (initial : Assignment) (index : Index) (value : Field) :
    Except Index Assignment :=
  if initial.contains index then .error index else .ok (initial.insert index value)

/-- The message for an index that has a value already. -/
def presentMessage (index : Index) : String :=
  "Witness " ++ toString index ++ " is already present"

/-- The circuit that the fixture carries. -/
def circuit (f : Fixture) : Except ArchiveFault Circuit :=
  Circuit.ofArchive f.bytecode

/-- The payload and the circuit of a bytecode that is written exactly as this library
writes it. -/
def checkBytecode (bytecode : List UInt8) : Except CheckFault (List UInt8 × Circuit) :=
  match Gzip.decompress bytecode with
  | .error e => .error (.archive (.gzip e))
  | .ok payload =>
    match Circuit.ofPayload payload with
    | .error e => .error (.archive (.payload e))
    | .ok c =>
      if c.toPayload ≠ payload then .error .payloadDiffers
      else if Gzip.compress payload ≠ bytecode then .error .bytecodeDiffers
      else .ok (payload, c)

/-- The initial assignment covers the circuit's arguments, which start at 1. -/
def checkInitial (c : Circuit) (initial : Assignment) : Except CheckFault Unit :=
  if initial.isEmpty then .error .noInitial
  else if !initial.isContiguousFrom firstIndex then .error .gapInInitial
  else if c.arguments.elems ≠ initial.keys then
    .error (.argumentsDiffer c.arguments.elems initial.keys)
  else .ok ()

/-- The expected assignment adds the circuit's return value to the initial one. -/
def checkExpected (c : Circuit) (initial expected : Assignment) : Except CheckFault Assignment :=
  let changed := initial.difference expected
  let added := expected.difference initial
  if added.size ≠ 1 ∨ !changed.isEmpty then .error (.wrongAdditions added.size changed.size)
  else if added.keys ≠ c.returnValues.elems then
    .error (.returnsDiffer added.keys c.returnValues.elems)
  else (c.returnWitness expected).mapError .noValue

def check (f : Fixture) : Except CheckFault Report :=
  match checkBytecode f.bytecode with
  | .error e => .error e
  | .ok (payload, c) =>
    match checkInitial c f.initial with
    | .error e => .error e
    | .ok () =>
      match checkExpected c f.initial f.expected with
      | .error e => .error e
      | .ok outputs =>
        .ok {
          name := f.name
          compressedSize := f.bytecode.length
          payloadSize := payload.length
          lastIndex := c.lastIndex
          opcodes := c.opcodes.length
          callNames := c.callNames
          inputs := f.initial.size
          outputs := outputs }

end Fixture

end CircuitFixtures
