import CircuitFixtures.Files.Path

/-!
# Invocations

What a command line asks for: one of six commands, the fixture it works on, and switches
that hold for every command.
-/

namespace CircuitFixtures

/-- The fixture a command works on: the one in a file, the one of a name, or the default. -/
structure FixtureSource where
  name : Option (List Char)
  file : Option Path
  deriving Repr, DecidableEq

inductive Action where
  /-- The builtin fixtures and those in the fixtures directory. -/
  | list
  | check (source : FixtureSource)
  /-- The circuit of a fixture. -/
  | inspect (source : FixtureSource)
  /-- The initial or the expected assignment. -/
  | witness (source : FixtureSource) (expected json : Bool)
  /-- What a verifier sees of the expected assignment. -/
  | publicWitness (source : FixtureSource)
  /-- Writes a fixture as an artifact. -/
  | export (source : FixtureSource) (out : Path)
  deriving Repr, DecidableEq

inductive LogLevel where
  | error
  | warn
  | info
  | debug
  | trace
  deriving Repr, DecidableEq

def LogLevel.name : LogLevel → String
  | .error => "ERROR"
  | .warn => "WARN"
  | .info => "INFO"
  | .debug => "DEBUG"
  | .trace => "TRACE"

structure Invocation where
  config : Option Path
  fixturesDir : Option Path
  action : Action
  /-- How often more messages are asked for. -/
  verbose : Nat
  quiet : Bool
  deriving Repr, DecidableEq

/-- How much is logged. -/
def Invocation.logLevel (i : Invocation) : LogLevel :=
  if i.quiet then .error
  else
    match i.verbose with
    | 0 => .warn
    | 1 => .info
    | 2 => .debug
    | _ => .trace

end CircuitFixtures
