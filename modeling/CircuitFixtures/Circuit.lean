import CircuitFixtures.Field
import CircuitFixtures.Index.Set

/-!
# Circuits

A circuit is a list of opcodes over witness indices, the sets of indices it takes and
returns, and messages for assertions that fail. An opcode is an expression of degree two
that has to be zero, or a call of a function that the prover's back end knows.

The fields of a call are listed by `BlackBox.parts` in the order in which a circuit is
written; `inputs` and `outputs` are what a call reads and what it determines.
-/

namespace CircuitFixtures

/-! ## Expressions -/

/-- The sum of `mulTerms`, `linearTerms` and `constant`. -/
structure Expression where
  mulTerms : List (Field × Index × Index)
  linearTerms : List (Field × Index)
  constant : Field
  deriving Repr, DecidableEq

namespace Expression

def ofField (x : Field) : Expression :=
  ⟨[], [], x⟩

def ofIndex (i : Index) : Expression :=
  ⟨[], [(Field.one, i)], Field.zero⟩

def zero : Expression := ofField Field.zero

def one : Expression := ofField Field.one

instance : Inhabited Expression := ⟨zero⟩

def isConst (e : Expression) : Bool :=
  e.mulTerms.isEmpty && e.linearTerms.isEmpty

/-- Every index that the expression mentions. -/
def witnesses (e : Expression) : IndexSet :=
  IndexSet.ofList (e.mulTerms.flatMap (fun t => [t.2.1, t.2.2]) ++ e.linearTerms.map (·.2))

theorem mem_witnesses {e : Expression} {i : Index} :
    i ∈ e.witnesses.elems ↔
      (∃ t ∈ e.mulTerms, i = t.2.1 ∨ i = t.2.2) ∨ ∃ t ∈ e.linearTerms, i = t.2 := by
  simp [witnesses, IndexSet.mem_ofList, eq_comm]

end Expression

/-! ## Calls -/

/-- A witness that a call reads, with its size in bits. -/
structure Input where
  witness : Index
  numBits : UInt32
  deriving Repr, DecidableEq

/-- A call of a function that the back end knows. -/
inductive BlackBox where
  | and (lhs rhs : Input) (output : Index)
  | xor (lhs rhs : Input) (output : Index)
  | range (input : Input)
  | sha256 (inputs : List Input) (outputs : List Index)
  | blake2s (inputs : List Input) (outputs : List Index)
  | schnorrVerify (publicKeyX publicKeyY : Input) (signature message : List Input) (output : Index)
  | pedersen (inputs : List Input) (domainSeparator : UInt32) (outputX outputY : Index)
  | hashToField128Security (inputs : List Input) (output : Index)
  | ecdsaSecp256k1 (publicKeyX publicKeyY signature hashedMessage : List Input) (output : Index)
  | ecdsaSecp256r1 (publicKeyX publicKeyY signature hashedMessage : List Input) (output : Index)
  | fixedBaseScalarMul (input : Input) (outputX outputY : Index)
  | keccak256 (inputs : List Input) (outputs : List Index)
  | keccak256VariableLength (inputs : List Input) (messageSize : Input) (outputs : List Index)
  deriving Repr, DecidableEq

/-- A field of a call. -/
inductive Part where
  | input (x : Input)
  | inputs (xs : List Input)
  | number (n : UInt32)
  | output (i : Index)
  | outputs (is : List Index)
  deriving Repr, DecidableEq

/-- The indices that a field mentions. -/
def Part.witnesses : Part → List Index
  | .input x => [x.witness]
  | .inputs xs => xs.map (·.witness)
  | .number _ => []
  | .output i => [i]
  | .outputs is => is

namespace BlackBox

def name : BlackBox → String
  | .and .. => "and"
  | .xor .. => "xor"
  | .range .. => "range"
  | .sha256 .. => "sha256"
  | .blake2s .. => "blake2s"
  | .schnorrVerify .. => "schnorr_verify"
  | .pedersen .. => "pedersen"
  | .hashToField128Security .. => "hash_to_field_128_security"
  | .ecdsaSecp256k1 .. => "ecdsa_secp256k1"
  | .ecdsaSecp256r1 .. => "ecdsa_secp256r1"
  | .fixedBaseScalarMul .. => "fixed_base_scalar_mul"
  | .keccak256 .. => "keccak256"
  | .keccak256VariableLength .. => "keccak256"

/-- How many kinds of call there are. -/
def kinds : Nat := 13

/-- The number of a kind of call. -/
def tag : BlackBox → Nat
  | .and .. => 0
  | .xor .. => 1
  | .range .. => 2
  | .sha256 .. => 3
  | .blake2s .. => 4
  | .schnorrVerify .. => 5
  | .pedersen .. => 6
  | .hashToField128Security .. => 7
  | .ecdsaSecp256k1 .. => 8
  | .ecdsaSecp256r1 .. => 9
  | .fixedBaseScalarMul .. => 10
  | .keccak256 .. => 11
  | .keccak256VariableLength .. => 12

/-- The fields of a call in written order. -/
def parts : BlackBox → List Part
  | .and lhs rhs output => [.input lhs, .input rhs, .output output]
  | .xor lhs rhs output => [.input lhs, .input rhs, .output output]
  | .range input => [.input input]
  | .sha256 inputs outputs => [.inputs inputs, .outputs outputs]
  | .blake2s inputs outputs => [.inputs inputs, .outputs outputs]
  | .schnorrVerify x y signature message output =>
    [.input x, .input y, .inputs signature, .inputs message, .output output]
  | .pedersen inputs separator x y => [.inputs inputs, .number separator, .output x, .output y]
  | .hashToField128Security inputs output => [.inputs inputs, .output output]
  | .ecdsaSecp256k1 x y signature message output =>
    [.inputs x, .inputs y, .inputs signature, .inputs message, .output output]
  | .ecdsaSecp256r1 x y signature message output =>
    [.inputs x, .inputs y, .inputs signature, .inputs message, .output output]
  | .fixedBaseScalarMul input x y => [.input input, .output x, .output y]
  | .keccak256 inputs outputs => [.inputs inputs, .outputs outputs]
  | .keccak256VariableLength inputs size outputs =>
    [.inputs inputs, .input size, .outputs outputs]

/-- What a call reads. -/
def inputs : BlackBox → List Input
  | .and lhs rhs _ => [lhs, rhs]
  | .xor lhs rhs _ => [lhs, rhs]
  | .range input => [input]
  | .sha256 inputs _ => inputs
  | .blake2s inputs _ => inputs
  | .schnorrVerify x y signature message _ => x :: y :: (signature ++ message)
  | .pedersen inputs _ _ _ => inputs
  | .hashToField128Security inputs _ => inputs
  | .ecdsaSecp256k1 x y signature message _ => x ++ y ++ signature ++ message
  | .ecdsaSecp256r1 x y signature message _ => x ++ y ++ signature ++ message
  | .fixedBaseScalarMul input _ _ => [input]
  | .keccak256 inputs _ => inputs
  | .keccak256VariableLength inputs size _ => inputs ++ [size]

/-- What a call determines. -/
def outputs : BlackBox → List Index
  | .and _ _ output => [output]
  | .xor _ _ output => [output]
  | .range _ => []
  | .sha256 _ outputs => outputs
  | .blake2s _ outputs => outputs
  | .schnorrVerify _ _ _ _ output => [output]
  | .pedersen _ _ x y => [x, y]
  | .hashToField128Security _ output => [output]
  | .ecdsaSecp256k1 _ _ _ _ output => [output]
  | .ecdsaSecp256r1 _ _ _ _ output => [output]
  | .fixedBaseScalarMul _ x y => [x, y]
  | .keccak256 _ outputs => outputs
  | .keccak256VariableLength _ _ outputs => outputs

theorem tag_lt_kinds (c : BlackBox) : c.tag < kinds := by
  cases c <;> simp [tag, kinds]

end BlackBox

/-! ## Circuits -/

inductive Opcode where
  | arithmetic (e : Expression)
  | call (c : BlackBox)
  deriving Repr, DecidableEq

def Opcode.name : Opcode → String
  | .arithmetic _ => "arithmetic"
  | .call c => c.name

/-- The call that an opcode is, unless it is an expression. -/
def Opcode.call? : Opcode → Option BlackBox
  | .arithmetic _ => none
  | .call c => some c

/-- The position of an opcode, in the circuit or in a procedure that it runs. -/
inductive Location where
  | circuit (index : UInt64)
  | procedure (index inner : UInt64)
  deriving Repr, DecidableEq

/-- How a location is shown. -/
def Location.text : Location → String
  | .circuit index => "Acir(" ++ toString index ++ ")"
  | .procedure index inner =>
    "Brillig \x7b acir_index: " ++ toString index ++ ", brillig_index: " ++ toString inner ++
      " \x7d"

structure Circuit where
  /-- The highest index that the circuit uses. -/
  lastIndex : Index
  opcodes : List Opcode
  privateParameters : IndexSet
  publicParameters : IndexSet
  returnValues : IndexSet
  messages : List (Location × String)
  deriving Repr, DecidableEq

namespace Circuit

def empty : Circuit :=
  ⟨0, [], .empty, .empty, .empty, []⟩

instance : Inhabited Circuit := ⟨empty⟩

/-- The indices that the caller supplies. -/
def arguments (c : Circuit) : IndexSet :=
  c.privateParameters.union c.publicParameters

/-- The indices that a verifier sees. -/
def publicInputs (c : Circuit) : IndexSet :=
  c.publicParameters.union c.returnValues

/-- The names of the calls in order. -/
def callNames (c : Circuit) : List String :=
  c.opcodes.filterMap (fun o =>
    match o with
    | .call b => some b.name
    | .arithmetic _ => none)

theorem callNames_eq (c : Circuit) :
    c.callNames = (c.opcodes.filterMap Opcode.call?).map BlackBox.name := by
  rw [callNames, List.map_filterMap]
  congr 1
  funext o
  cases o <;> rfl

end Circuit

end CircuitFixtures
