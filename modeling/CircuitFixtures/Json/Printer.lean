import CircuitFixtures.Text.Hex

/-!
# Writing JSON

Texts in quotes and objects, over several lines with two blanks for each level or on one
line.
-/

namespace CircuitFixtures.Json

def escapeChar (c : Char) : List Char :=
  if c = '"' then ['\\', '"']
  else if c = '\\' then ['\\', '\\']
  else if c = '\x08' then ['\\', 'b']
  else if c = '\t' then ['\\', 't']
  else if c = '\n' then ['\\', 'n']
  else if c = '\x0c' then ['\\', 'f']
  else if c = '\r' then ['\\', 'r']
  else if c.toNat < 32 then
    ['\\', 'u', '0', '0', Hex.digitOf (c.toNat / 16), Hex.digitOf (c.toNat % 16)]
  else [c]

/-- A text in quotes. -/
def quote (cs : List Char) : List Char :=
  '"' :: cs.flatMap escapeChar ++ ['"']

/-- The decimal digits of a number. -/
def decimal (n : Nat) : List Char :=
  Nat.toDigits 10 n

/-- A new line at the given level. -/
def newLine (level : Nat) : List Char :=
  '\n' :: List.replicate (2 * level) ' '

/-- The members of an object, each on a line of its own; values are given as written. -/
def members (level : Nat) : List (List Char × List Char) → List Char
  | [] => []
  | [(key, value)] => newLine level ++ quote key ++ ':' :: ' ' :: value
  | (key, value) :: rest =>
    newLine level ++ quote key ++ ':' :: ' ' :: value ++ ',' :: members level rest

/-- An object at the given level. -/
def object (level : Nat) (ms : List (List Char × List Char)) : List Char :=
  match ms with
  | [] => ['{', '}']
  | _ => '{' :: members (level + 1) ms ++ newLine level ++ ['}']

/-- An object on one line. -/
def compactObject (ms : List (List Char × List Char)) : List Char :=
  '{' :: List.intercalate [','] (ms.map (fun m => quote m.1 ++ ':' :: m.2)) ++ ['}']

end CircuitFixtures.Json
