import CircuitFixtures.Decimal.Binary64
import CircuitFixtures.Yaml.Node

/-!
# What plain scalars stand for

A plain scalar may stand for nothing, a truth value or a number. All others are texts, as
are scalars in quotes and blocks.
-/

namespace CircuitFixtures.Yaml

def isNull (cs : List Char) : Bool :=
  ["null", "Null", "NULL", "~"].any (·.toList == cs)

def isTruth (cs : List Char) : Bool :=
  ["true", "True", "TRUE", "false", "False", "FALSE"].any (·.toList == cs)

def dropSign (cs : List Char) : List Char :=
  match cs with
  | '+' :: cs => cs
  | '-' :: cs => cs
  | cs => cs

/-- Digits that begin with a zero are a text. -/
def isZeroLed (cs : List Char) : Bool :=
  match dropSign cs with
  | '0' :: d :: ds => (d :: ds).all Char.isDigit
  | _ => false

def digitValue (c : Char) : Nat :=
  ((Hex.valueOf? c).getD 16)

/-- Digits of a base, of a number below `bound`. -/
def isNumeral (base bound : Nat) (cs : List Char) : Bool :=
  !cs.isEmpty && cs.all (fun c => digitValue c < base) &&
    cs.foldl (fun n c => base * n + digitValue c) 0 < bound

/-- An integer behind its sign, in base ten or with a letter for its base. -/
def isMagnitude (bound : Nat) (cs : List Char) : Bool :=
  match cs with
  | '0' :: 'x' :: ds => isNumeral 16 bound ds
  | '0' :: 'o' :: ds => isNumeral 8 bound ds
  | '0' :: 'b' :: ds => isNumeral 2 bound ds
  | ds => isNumeral 10 bound ds

/-- An integer of at most 128 bits. -/
def isInteger (cs : List Char) : Bool :=
  !isZeroLed cs &&
    match cs with
    | '-' :: ds => isMagnitude (Nat.pow 2 127 + 1) ds
    | '+' :: ds => isMagnitude (Nat.pow 2 128) ds
    | ds => isMagnitude (Nat.pow 2 128) ds

/-- The digits before and behind the point, and the exponent, of a decimal number. -/
structure Decimal where
  whole : List Char
  fraction : List Char
  exponent : Int
  deriving Repr, DecidableEq

def number (ds : List Char) : Nat :=
  ds.foldl (fun n c => 10 * n + (c.toNat - 48)) 0

/-- The exponent behind a number, which may be missing. -/
def exponent? (cs : List Char) : Option Int :=
  match cs with
  | [] => some 0
  | c :: cs =>
    let digits := dropSign cs
    if (c == 'e' || c == 'E') && !digits.isEmpty && digits.all Char.isDigit then
      some (if cs.head? == some '-' then -(number digits : Int) else number digits)
    else none

/-- A decimal number behind its sign. -/
def decimal? (cs : List Char) : Option Decimal :=
  let whole := cs.takeWhile Char.isDigit
  let rest := cs.dropWhile Char.isDigit
  let (fraction, rest) := match rest with
    | '.' :: rest => (rest.takeWhile Char.isDigit, rest.dropWhile Char.isDigit)
    | rest => ([], rest)
  if whole.isEmpty && fraction.isEmpty then none
  else (exponent? rest).map (fun e => ⟨whole, fraction, e⟩)

/-- The number is below the largest one with 64 bits. -/
def Decimal.isFinite (d : Decimal) : Bool :=
  let n := number (d.whole ++ d.fraction)
  let size : Int := (Nat.toDigits 10 n).length
  let exponent := d.exponent - d.fraction.length
  if n = 0 || exponent + size < 0 then true
  else if 400 < exponent + size then false
  else if exponent < 0 then (Binary64.round n (Nat.pow 10 (-exponent).toNat)).isSome
  else (Binary64.round (n * Nat.pow 10 exponent.toNat) 1).isSome

def isSpecialFloat (cs : List Char) : Bool :=
  [".inf", ".Inf", ".INF", "+.inf", "+.Inf", "+.INF", "-.inf", "-.Inf", "-.INF",
    ".nan", ".NaN", ".NAN"].any (·.toList == cs)

def isFloat (cs : List Char) : Bool :=
  isSpecialFloat cs ||
    (!isZeroLed cs && (decimal? (dropSign cs)).any Decimal.isFinite)

/-- A plain scalar that stands for a text. -/
def isText (cs : List Char) : Bool :=
  !(cs.isEmpty || isNull cs || isTruth cs || isInteger cs || isFloat cs)

end CircuitFixtures.Yaml
