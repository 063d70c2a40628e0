/-!
# Settings

A configuration is put together from layers. A layer says something or nothing about each
setting; what it says may be of the wrong kind, which matters only if no higher layer says
anything.
-/

namespace CircuitFixtures

/-- What a layer says about a setting. -/
inductive Setting where
  | text (cs : List Char)
  /-- A value of another kind, where a text is wanted. -/
  | other
  deriving Repr, DecidableEq

structure Layer where
  fixturesDir : Option Setting
  defaultFixture : Option Setting
  deriving Repr, DecidableEq

namespace Layer

def empty : Layer := ⟨none, none⟩

def fixturesDirKey : List Char := "fixtures_dir".toList
def defaultFixtureKey : List Char := "default_fixture".toList

/-- The layer in which the last value of each key counts. -/
def ofValues (values : List (List Char × Setting)) : Layer where
  fixturesDir := values.reverse.lookup fixturesDirKey
  defaultFixture := values.reverse.lookup defaultFixtureKey

end Layer

end CircuitFixtures
