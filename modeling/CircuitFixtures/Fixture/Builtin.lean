import CircuitFixtures.Fixture.SchnorrVerify

/-!
# Builtin fixtures

The fixtures that need no file. Each is found by the name it carries.
-/

namespace CircuitFixtures.Fixture

def builtins : List Fixture :=
  [SchnorrVerify.fixture]

/-- The names of the builtin fixtures. -/
def builtinNames : List String :=
  builtins.map (·.name)

def builtin? (name : String) : Option Fixture :=
  builtins.find? (fun f => f.name == name)

theorem name_of_builtin? {name : String} {f : Fixture} (h : builtin? name = some f) :
    f.name = name := by
  simpa using List.find?_some h

theorem builtin?_isSome_iff {name : String} :
    (builtin? name).isSome ↔ name ∈ builtinNames := by
  simp [builtin?, builtinNames]

end CircuitFixtures.Fixture
