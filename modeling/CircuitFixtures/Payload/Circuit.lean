import CircuitFixtures.Circuit
import CircuitFixtures.Payload.Decoder

/-!
# Circuits as payloads

`Circuit.toPayload` writes a circuit; `Circuit.ofPayload` reads one from the front of the
bytes and ignores what follows. Sets are written in ascending order and read in any
order.
-/

namespace CircuitFixtures

namespace Payload

/-! ## Expressions -/

def encodeMulTerm (t : Field × Index × Index) : List UInt8 :=
  encodeField t.1 ++ encodeIndex t.2.1 ++ encodeIndex t.2.2

def mulTerm : Decoder (Field × Index × Index) := do
  let x ← field
  let i ← index
  let j ← index
  return (x, i, j)

def encodeLinearTerm (t : Field × Index) : List UInt8 :=
  encodeField t.1 ++ encodeIndex t.2

def linearTerm : Decoder (Field × Index) := do
  let x ← field
  let i ← index
  return (x, i)

def encodeExpression (e : Expression) : List UInt8 :=
  encodeList encodeMulTerm e.mulTerms ++ encodeList encodeLinearTerm e.linearTerms ++
    encodeField e.constant

def expression : Decoder Expression := do
  let mulTerms ← list mulTerm
  let linearTerms ← list linearTerm
  let constant ← field
  return ⟨mulTerms, linearTerms, constant⟩

/-! ## Calls -/

def encodeInput (x : Input) : List UInt8 :=
  encodeIndex x.witness ++ encodeIndex x.numBits

def input : Decoder Input := do
  let witness ← index
  let numBits ← index
  return ⟨witness, numBits⟩

def encodePart : Part → List UInt8
  | .input x => encodeInput x
  | .inputs xs => encodeList encodeInput xs
  | .number n => encodeIndex n
  | .output i => encodeIndex i
  | .outputs is => encodeList encodeIndex is

def encodeBlackBox (c : BlackBox) : List UInt8 :=
  encodeTag c.tag ++ c.parts.flatMap encodePart

/-- The fields of a call of the given kind. -/
def blackBoxFields (kind : Nat) : Decoder BlackBox :=
  match kind with
  | 0 => return .and (← input) (← input) (← index)
  | 1 => return .xor (← input) (← input) (← index)
  | 2 => return .range (← input)
  | 3 => return .sha256 (← list input) (← list index)
  | 4 => return .blake2s (← list input) (← list index)
  | 5 => return .schnorrVerify (← input) (← input) (← list input) (← list input) (← index)
  | 6 => return .pedersen (← list input) (← index) (← index) (← index)
  | 7 => return .hashToField128Security (← list input) (← index)
  | 8 =>
    return .ecdsaSecp256k1 (← list input) (← list input) (← list input) (← list input) (← index)
  | 9 =>
    return .ecdsaSecp256r1 (← list input) (← list input) (← list input) (← list input) (← index)
  | 10 => return .fixedBaseScalarMul (← input) (← index) (← index)
  | 11 => return .keccak256 (← list input) (← list index)
  | _ => return .keccak256VariableLength (← list input) (← input) (← list index)

def blackBox : Decoder BlackBox := do
  blackBoxFields (← tag BlackBox.kinds)

/-! ## Opcodes and locations -/

def encodeOpcode : Opcode → List UInt8
  | .arithmetic e => encodeTag 0 ++ encodeExpression e
  | .call c => encodeTag 1 ++ encodeBlackBox c

def opcode : Decoder Opcode := do
  match ← tag 2 with
  | 0 => return .arithmetic (← expression)
  | _ => return .call (← blackBox)

def encodeLocation : Location → List UInt8
  | .circuit i => encodeTag 0 ++ encodePosition i
  | .procedure i j => encodeTag 1 ++ encodePosition i ++ encodePosition j

def location : Decoder Location := do
  match ← tag 2 with
  | 0 => return .circuit (← position)
  | _ => return .procedure (← position) (← position)

def encodeMessage (m : Location × String) : List UInt8 :=
  encodeLocation m.1 ++ encodeText m.2

def message : Decoder (Location × String) := do
  let l ← location
  let s ← text
  return (l, s)

/-! ## Circuits -/

def encodeSet (s : IndexSet) : List UInt8 :=
  encodeList encodeIndex s.elems

def set : Decoder IndexSet := do
  return IndexSet.ofList (← list index)

def encodeCircuit (c : Circuit) : List UInt8 :=
  encodeIndex c.lastIndex ++ encodeList encodeOpcode c.opcodes ++ encodeSet c.privateParameters ++
    encodeSet c.publicParameters ++ encodeSet c.returnValues ++ encodeList encodeMessage c.messages

def circuit : Decoder Circuit := do
  let lastIndex ← index
  let opcodes ← list opcode
  let privateParameters ← set
  let publicParameters ← set
  let returnValues ← set
  let messages ← list message
  return ⟨lastIndex, opcodes, privateParameters, publicParameters, returnValues, messages⟩

end Payload

/-- The bytes of a circuit. -/
def Circuit.toPayload (c : Circuit) : List UInt8 :=
  Payload.encodeCircuit c

/-- The circuit at the front of the bytes. -/
def Circuit.ofPayload (xs : List UInt8) : Except Payload.Fault Circuit :=
  (Payload.circuit xs).map (·.1)

end CircuitFixtures
