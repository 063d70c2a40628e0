import CircuitFixtures.Assignment
import CircuitFixtures.Json.Printer
import CircuitFixtures.Json.Reader

/-!
# Assignments as JSON

An assignment is an object from indices to the digits of its values, without a leading
`0x`. `Assignment.ofJson` reads digits with or without it.
-/

namespace CircuitFixtures.Assignment

/-- The object on one line. -/
def toJson (m : Assignment) : String :=
  String.ofList
    (Json.compactObject
      (m.entries.map (fun p => (Json.decimal p.1.toNat, Json.quote p.2.toDigits))))

def ofJson (text : String) : Except Json.Fault Assignment :=
  Json.whole (Json.indexObject Json.field) text.toList

end CircuitFixtures.Assignment
