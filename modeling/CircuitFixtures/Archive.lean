import CircuitFixtures.Gzip
import CircuitFixtures.Payload.Assignment
import CircuitFixtures.Payload.Circuit

/-!
# Compressed circuits and assignments

Payloads are kept as gzip members.
-/

namespace CircuitFixtures

/-- Why bytes are no compressed payload. -/
inductive ArchiveFault where
  | gzip (fault : Gzip.Fault)
  | payload (fault : Payload.Fault)
  deriving Repr, DecidableEq

def ArchiveFault.message : ArchiveFault → String
  | .gzip fault => "Failed to decompress gzip stream: " ++ fault.message
  | .payload fault => "Bincode error: " ++ fault.message

/-- The message, and what it is caused by. -/
def ArchiveFault.causes : ArchiveFault → List String
  | .gzip fault => [(ArchiveFault.gzip fault).message, fault.message]
  | .payload fault => [(ArchiveFault.payload fault).message]

/-- The payload that bytes hold, read with `decode`. -/
def openArchive {α : Type} (decode : List UInt8 → Except Payload.Fault α) (xs : List UInt8) :
    Except ArchiveFault α :=
  match Gzip.decompress xs with
  | .error e => .error (.gzip e)
  | .ok payload => (decode payload).mapError .payload

/-- The compressed form of a circuit. -/
def Circuit.toArchive (c : Circuit) : List UInt8 :=
  Gzip.compress c.toPayload

def Circuit.ofArchive (xs : List UInt8) : Except ArchiveFault Circuit :=
  openArchive Circuit.ofPayload xs

/-- The compressed form of an assignment. -/
def Assignment.toArchive (m : Assignment) : List UInt8 :=
  Gzip.compress m.toPayload

def Assignment.ofArchive (xs : List UInt8) : Except ArchiveFault Assignment :=
  openArchive Assignment.ofPayload xs

end CircuitFixtures
