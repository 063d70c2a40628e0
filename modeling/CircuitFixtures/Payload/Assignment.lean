import CircuitFixtures.Assignment
import CircuitFixtures.Payload.Decoder

/-!
# Assignments as payloads

An assignment is written as its count and its entries in index order. The entries read
are added in order, so the last of several entries with one index counts.
-/

namespace CircuitFixtures

namespace Payload

def encodeEntry (p : Index × Field) : List UInt8 :=
  encodeIndex p.1 ++ encodeField p.2

def entry : Decoder (Index × Field) := do
  let i ← index
  let x ← field
  return (i, x)

end Payload

namespace Assignment

/-- The bytes of an assignment. -/
def toPayload (m : Assignment) : List UInt8 :=
  Payload.encodeList Payload.encodeEntry m.entries

/-- The assignment at the front of the bytes. -/
def ofPayload (xs : List UInt8) : Except Payload.Fault Assignment :=
  (Payload.list Payload.entry xs).map (fun p => IndexMap.ofList p.1)

end Assignment

end CircuitFixtures
