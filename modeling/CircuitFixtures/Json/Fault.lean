import CircuitFixtures.Decimal.Binary64
import CircuitFixtures.Field
import CircuitFixtures.Text.Quoted

/-!
# What is wrong with a JSON text

A fault has a cause and a place. Most faults are placed where they are found. A fault of
the value rather than of the text stays `unplaced` until the object or list around it is
closed, and is placed there.
-/

namespace CircuitFixtures.Json

/-- A value where another kind of value is expected. -/
inductive Found where
  | null
  | bool (b : Bool)
  | integer (n : Int)
  | float (negative : Bool) (x : Binary64)
  | text (cs : List Char)
  | list
  | object
  deriving Repr, DecidableEq

def Found.message : Found → String
  | .null => "null"
  | .bool b => "boolean `" ++ (if b then "true" else "false") ++ "`"
  | .integer n => "integer `" ++ toString n ++ "`"
  | .float negative x => "floating point `" ++ (if negative then "-" else "") ++ x.toText ++ "`"
  | .text cs => "string " ++ Text.quote (String.ofList cs)
  | .list => "sequence"
  | .object => "map"

inductive Cause where
  | endInList
  | endInObject
  | endInText
  | endInValue
  | expectedColon
  | expectedListEnd
  | expectedObjectEnd
  | expectedWord
  | expectedValue
  | expectedQuote
  | badEscape
  | badNumber
  | numberTooLarge
  | controlCharacter
  | keyNotText
  | keyNotNumber
  | loneSurrogate
  | endInSurrogate
  | trailingComma
  | trailing
  | wrongType (found : Found) (expected : String)
  | wrongValue (found : Found) (expected : String)
  | wrongLength (length : Nat) (expected : String)
  | missing (name : String)
  | duplicate (name : String)
  | field (fault : Field.Fault)
  deriving Repr, DecidableEq

def Cause.message : Cause → String
  | .endInList => "EOF while parsing a list"
  | .endInObject => "EOF while parsing an object"
  | .endInText => "EOF while parsing a string"
  | .endInValue => "EOF while parsing a value"
  | .expectedColon => "expected `:`"
  | .expectedListEnd => "expected `,` or `]`"
  | .expectedObjectEnd => "expected `,` or `\x7d`"
  | .expectedWord => "expected ident"
  | .expectedValue => "expected value"
  | .expectedQuote => "expected `\"`"
  | .badEscape => "invalid escape"
  | .badNumber => "invalid number"
  | .numberTooLarge => "number out of range"
  | .controlCharacter => "control character (\\u0000-\\u001F) found while parsing a string"
  | .keyNotText => "key must be a string"
  | .keyNotNumber => "invalid value: expected key to be a number in quotes"
  | .loneSurrogate => "lone leading surrogate in hex escape"
  | .endInSurrogate => "unexpected end of hex escape"
  | .trailingComma => "trailing comma"
  | .trailing => "trailing characters"
  | .wrongType found expected => "invalid type: " ++ found.message ++ ", expected " ++ expected
  | .wrongValue found expected => "invalid value: " ++ found.message ++ ", expected " ++ expected
  | .wrongLength length expected =>
    "invalid length " ++ toString length ++ ", expected " ++ expected
  | .missing name => "missing field `" ++ name ++ "`"
  | .duplicate name => "duplicate field `" ++ name ++ "`"
  | .field fault => fault.message

/-- Where a fault is: with so many bytes of the text left, or before the given rest while
the value around it is not closed. -/
inductive Place where
  | left (bytes : Nat)
  | unplaced (rest : List Char)
  deriving Repr, DecidableEq

structure Fault where
  cause : Cause
  place : Place
  deriving Repr, DecidableEq

/-- The result of reading something from the front of a text. -/
abbrev Result (α : Type) := Except Fault (α × List Char)

/-- A fault right here. -/
def failAt {α : Type} (cause : Cause) (cs : List Char) : Except Fault α :=
  .error ⟨cause, .left (Utf8.size cs)⟩

/-- A fault of the next byte. -/
def failNext {α : Type} (cause : Cause) (cs : List Char) : Except Fault α :=
  .error ⟨cause, .left (Utf8.size cs - 1)⟩

/-- A fault of a value that ends here. -/
def failUnplaced {α : Type} (cause : Cause) (cs : List Char) : Except Fault α :=
  .error ⟨cause, .unplaced cs⟩

/-- Line and column, in bytes, of the place `index` bytes into a text. -/
def lineColumn (line column : Nat) : (index : Nat) → List Char → Nat × Nat
  | _, [] => (line, column)
  | index, c :: cs =>
    let w := Utf8.width c
    if index < w then (line, column + index)
    else if c = '\n' then lineColumn (line + 1) 0 (index - w) cs
    else lineColumn line (column + w) (index - w) cs

/-- The cause, with line and column unless the fault is unplaced. -/
def Fault.message (e : Fault) (text : List Char) : String :=
  match e.place with
  | .unplaced _ => e.cause.message
  | .left bytes =>
    let p := lineColumn 1 0 (Utf8.size text - bytes) text
    e.cause.message ++ " at line " ++ toString p.1 ++ " column " ++ toString p.2

end CircuitFixtures.Json
