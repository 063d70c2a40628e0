/-!
# Binary floating point

Non-negative numbers `mantissa * 2 ^ exponent` with a mantissa of at most 53 bits, in exact
arithmetic: a quotient is rounded to the nearest such number, to an even mantissa where
two are as near. `round` returns `none` beyond the largest number.

`toText` writes the fewest digits that are rounded to the number again, and of those the
nearest to it.
-/

namespace CircuitFixtures

structure Binary64 where
  mantissa : Nat
  exponent : Int
  deriving Repr, DecidableEq

namespace Binary64

def zero : Binary64 := ⟨0, 0⟩

/-- The smallest exponent. -/
def minExponent : Int := -1074

/-- The largest exponent. -/
def maxExponent : Int := 971

/-- `num / (den * 2 ^ exponent)` as numerator and denominator. -/
def scale (num den : Nat) (exponent : Int) : Nat × Nat :=
  if exponent < 0 then (num * Nat.pow 2 (-exponent).toNat, den)
  else (num, den * Nat.pow 2 exponent.toNat)

/-- A quotient to the nearest integer, to the even one of two. -/
def nearest (num den : Nat) : Nat :=
  let floor := num / den
  let twice := 2 * (num % den)
  if den < twice ∨ (den = twice ∧ floor % 2 = 1) then floor + 1 else floor

/-- The nearest number to `num / den`, or `none` if it is too large. -/
def round (num den : Nat) : Option Binary64 :=
  if num = 0 then some zero
  else
    let guess := max minExponent ((Nat.log2 num : Int) - Nat.log2 den - 53)
    let atGuess := scale num den guess
    let exponent := if Nat.pow 2 53 ≤ atGuess.1 / atGuess.2 then guess + 1 else guess
    let scaled := scale num den exponent
    let mantissa := nearest scaled.1 scaled.2
    let rounded : Binary64 :=
      if mantissa = Nat.pow 2 53 then ⟨Nat.pow 2 52, exponent + 1⟩ else ⟨mantissa, exponent⟩
    if maxExponent < rounded.exponent then none else some rounded

/-- The number as numerator and denominator. -/
def ratio (x : Binary64) : Nat × Nat :=
  if x.exponent < 0 then (x.mantissa, Nat.pow 2 (-x.exponent).toNat)
  else (x.mantissa * Nat.pow 2 x.exponent.toNat, 1)

def mul (x y : Binary64) : Option Binary64 :=
  round (x.ratio.1 * y.ratio.1) (x.ratio.2 * y.ratio.2)

def div (x y : Binary64) : Option Binary64 :=
  round (x.ratio.1 * y.ratio.2) (x.ratio.2 * y.ratio.1)

def ofNat (n : Nat) : Option Binary64 :=
  round n 1

/-- Digits and the power of ten of the last one. -/
structure Digits where
  number : Nat
  power : Int
  deriving Repr, DecidableEq

/-- `num / den / 10 ^ power` as numerator and denominator. -/
def shiftTen (num den : Nat) (power : Int) : Nat × Nat :=
  if power < 0 then (num * Nat.pow 10 (-power).toNat, den) else (num, den * Nat.pow 10 power.toNat)

/-- The digits are rounded to `x`. -/
def readsBack (x : Binary64) (d : Digits) : Bool :=
  let r := if d.power < 0 then round d.number (Nat.pow 10 (-d.power).toNat)
    else round (d.number * Nat.pow 10 d.power.toNat) 1
  r == some x

/-- Of the two neighbours of `x` whose last digit has the given power, the nearer one that
reads back. -/
def neighbour? (x : Binary64) (power : Int) : Option Digits :=
  let scaled := shiftTen x.ratio.1 x.ratio.2 power
  let floor := scaled.1 / scaled.2
  let low : Digits := ⟨floor, power⟩
  let high : Digits := ⟨floor + 1, power⟩
  let first := if nearest scaled.1 scaled.2 = floor then low else high
  let second := if nearest scaled.1 scaled.2 = floor then high else low
  if x.readsBack first then some first
  else if x.readsBack second then some second
  else none

/-- The power of ten of the first digit of `num / den`, searched from `guess` down. -/
def leadingPower (num den : Nat) : (fuel : Nat) → (guess : Int) → Int
  | 0, guess => guess
  | fuel + 1, guess =>
    let scaled := shiftTen num den guess
    if scaled.1 < scaled.2 then leadingPower num den fuel (guess - 1) else guess

/-- Tries one digit after the other up to 17. -/
def shortestFrom (x : Binary64) (lead : Int) : (count : Nat) → Digits
  | 0 => ⟨x.mantissa, 0⟩
  | count + 1 =>
    match x.neighbour? (lead - (16 - count : Nat)) with
    | some d => d
    | none => shortestFrom x lead count

/-- Drops zeros from the end of the digits. -/
def strip (d : Digits) : (fuel : Nat) → Digits
  | 0 => d
  | fuel + 1 =>
    if d.number ≠ 0 ∧ d.number % 10 = 0 then strip ⟨d.number / 10, d.power + 1⟩ fuel else d

/-- The shortest digits that read back. -/
def shortest (x : Binary64) : Digits :=
  let lead := leadingPower x.ratio.1 x.ratio.2 700 310
  strip (shortestFrom x lead 17) 20

/-- Where positional notation begins and ends: numbers from `10 ^ -5` on and below
`10 ^ 16`. -/
def toText (x : Binary64) : String :=
  if x.mantissa = 0 then "0.0"
  else
    let d := x.shortest
    let digits := Nat.toDigits 10 d.number
    let count := digits.length
    let point : Int := count + d.power
    let chars :=
      if 0 ≤ d.power ∧ point ≤ 16 then
        digits ++ List.replicate d.power.toNat '0' ++ ['.', '0']
      else if 0 < point ∧ point ≤ 16 then
        digits.take point.toNat ++ '.' :: digits.drop point.toNat
      else if -5 < point ∧ point ≤ 0 then
        '0' :: '.' :: List.replicate (-point).toNat '0' ++ digits
      else
        let exponent := (toString (point - 1)).toList
        match digits with
        | [c] => c :: 'e' :: exponent
        | c :: rest => c :: '.' :: rest ++ 'e' :: exponent
        | [] => []
    String.ofList chars

end Binary64

end CircuitFixtures
