import CircuitFixtures.Deflate.PrefixCode

/-!
# The codes of a block

A compressed block has one code for bytes, lengths and the end of the block and one for
distances. `Codes.fixed` are the codes that need no description; other codes are
described by their code lengths, which are themselves written with a code and with
symbols for repeated lengths.

`packLengths` shortens a list of code lengths to such symbols, and `LengthSymbol.meaning?`
says what a symbol stands for.
-/

namespace CircuitFixtures.Deflate

structure Codes where
  literals : CodeTree
  distances : CodeTree
  deriving Repr, DecidableEq

namespace Codes

def fixedLiteralLengths : List Nat :=
  List.replicate 144 8 ++ List.replicate 112 9 ++ List.replicate 24 7 ++ List.replicate 8 8

def fixedDistanceLengths : List Nat :=
  List.replicate 32 5

def ofLengths? (literals distances : List Nat) : Option Codes :=
  match CodeTree.ofLengths? literals, CodeTree.ofLengths? distances with
  | some l, some d => some ⟨l, d⟩
  | _, _ => none

def fixed : Codes :=
  (ofLengths? fixedLiteralLengths fixedDistanceLengths).getD ⟨.gap, .gap⟩

end Codes

/-- The order in which the lengths of the code of code lengths are written. -/
def lengthOrder : List Nat :=
  [16, 17, 18, 0, 8, 7, 9, 6, 10, 5, 11, 4, 12, 3, 13, 2, 14, 1, 15]

/-- A symbol for code lengths and the number in the extra bits that follow it. -/
structure LengthSymbol where
  symbol : Nat
  value : Nat
  deriving Repr, DecidableEq

namespace LengthSymbol

/-- The number of extra bits after a symbol. -/
def extra (symbol : Nat) : Nat :=
  if symbol = 16 then 2 else if symbol = 17 then 3 else if symbol = 18 then 7 else 0

/-- The length a symbol stands for and how often, given the length before it. -/
def meaning? (previous : Option Nat) (s : LengthSymbol) : Option (Nat × Nat) :=
  if s.symbol < 16 then some (s.symbol, 1)
  else if s.symbol = 16 then previous.map (fun n => (n, 3 + s.value))
  else if s.symbol = 17 then some (0, 3 + s.value)
  else some (0, 11 + s.value)

end LengthSymbol

/-- Runs of equal numbers with their lengths. -/
def runs : List Nat → List (Nat × Nat)
  | [] => []
  | n :: rest =>
    match runs rest with
    | (m, count) :: others =>
      if n = m then (m, count + 1) :: others else (n, 1) :: (m, count) :: others
    | [] => [(n, 1)]

/-- Symbols for `count` zeros. -/
def packZeros (count : Nat) : List LengthSymbol :=
  if count < 3 then List.replicate count ⟨0, 0⟩
  else if count ≤ 10 then [⟨17, count - 3⟩]
  else if count ≤ 138 then [⟨18, count - 11⟩]
  else ⟨18, 127⟩ :: packZeros (count - 138)

/-- Symbols for `count` more of the length `n`. -/
def packAgain (n count : Nat) : List LengthSymbol :=
  if count < 3 then List.replicate count ⟨n, 0⟩
  else if count ≤ 6 then [⟨16, count - 3⟩]
  else ⟨16, 3⟩ :: packAgain n (count - 6)

def packLengths (lengths : List Nat) : List LengthSymbol :=
  (runs lengths).flatMap (fun p =>
    if p.1 = 0 then packZeros p.2 else ⟨p.1, 0⟩ :: packAgain p.1 (p.2 - 1))

end CircuitFixtures.Deflate
