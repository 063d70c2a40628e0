import CircuitFixtures.Bits
import CircuitFixtures.Deflate.Alphabet
import CircuitFixtures.Deflate.CodeLengths
import CircuitFixtures.Deflate.Codes
import CircuitFixtures.Deflate.Token

/-!
# The words of a code

A writer computes the words of a code from its code lengths alone. The words of one length are
successive numbers in the order of their symbols, and the first word of a length is twice the
number behind the last word that is one bit shorter.

`Words` holds the words of the two codes of a block and writes tokens with them.
-/

namespace CircuitFixtures.Deflate

namespace CodeLengths

/-- The number of the first word of each length. -/
def firstWord (lengths : List Nat) : (length : Nat) → Nat
  | 0 => 0
  | 1 => 0
  | length + 2 => 2 * (firstWord lengths (length + 1) + lengths.count (length + 1))

/-- The word of a symbol, most significant bit first; a symbol of length 0 has no bits. -/
def word (lengths : List Nat) (symbol : Nat) : List Bool :=
  let length := lengths.getD symbol 0
  (Bits.ofNat length
    (firstWord lengths length + (lengths.take symbol).count length)).reverse

/-- The words indexed by symbol. -/
def wordTable (lengths : List Nat) : Array (List Bool) :=
  ((List.range lengths.length).map (word lengths)).toArray

theorem getD_wordTable (lengths : List Nat) (symbol : Nat) :
    (wordTable lengths).getD symbol [] = word lengths symbol := by
  rw [wordTable, Array.getD_eq_getD_getElem?, List.getElem?_toArray, List.getElem?_map]
  by_cases h : symbol < lengths.length
  · rw [List.getElem?_range h]
    rfl
  · have hnone : lengths[symbol]? = none := List.getElem?_eq_none (Nat.not_lt.1 h)
    have hlength : lengths.getD symbol 0 = 0 := by rw [List.getD_eq_getElem?_getD, hnone]; rfl
    rw [List.getElem?_eq_none (by rw [List.length_range]; exact Nat.not_lt.1 h), word, hlength]
    rfl

end CodeLengths

/-- The words of the code of bytes and lengths and of the code of distances. -/
structure Words where
  literals : Array (List Bool)
  distances : Array (List Bool)

namespace Words

def ofLengths (literals distances : List Nat) : Words :=
  ⟨CodeLengths.wordTable literals, CodeLengths.wordTable distances⟩

def tokenBits (words : Words) : Token → List Bool
  | .literal x => words.literals.getD x.toNat []
  | .copy length distance =>
    let l := locate lengthRanges length
    let d := locate distanceRanges distance
    words.literals.getD (firstLength + l.index) [] ++ Bits.ofNat l.extra l.offset ++
      words.distances.getD d.index [] ++ Bits.ofNat d.extra d.offset

/-- The tokens and the end of the block. -/
def tokensBits (words : Words) (ts : List Token) : List Bool :=
  ts.flatMap words.tokenBits ++ words.literals.getD endOfBlock []

/-- The words of the fixed codes. -/
def fixed : Words :=
  ofLengths Codes.fixedLiteralLengths Codes.fixedDistanceLengths

end Words

end CircuitFixtures.Deflate
