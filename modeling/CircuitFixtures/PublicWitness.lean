import CircuitFixtures.Assignment
import CircuitFixtures.Circuit

/-!
# Public witnesses

The part of a solved assignment that a verifier sees. Each function fails with the
smallest index of its set that has no value.
-/

namespace CircuitFixtures.Circuit

/-- The values of the circuit's return values. -/
def returnWitness (c : Circuit) (solved : Assignment) : Except Index Assignment :=
  solved.restrict c.returnValues

/-- The values of the circuit's public parameters. -/
def parameterWitness (c : Circuit) (solved : Assignment) : Except Index Assignment :=
  solved.restrict c.publicParameters

/-- The values of both. -/
def publicWitness (c : Circuit) (solved : Assignment) : Except Index Assignment :=
  solved.restrict c.publicInputs

end CircuitFixtures.Circuit
