/-!
# Length and distance symbols

A copy is written as a length symbol and a distance symbol, each followed by a
fixed number of extra bits. A symbol stands for a range of values that starts at
its base; `locate` finds the symbol of a value as the last one whose base is not
above it. Of the lengths, 258 alone has two ways to be written; it is found at the last
symbol, which needs no extra bits.
-/

namespace CircuitFixtures.Deflate

/-- The values of one symbol: `base` and the `2 ^ extra - 1` after it. -/
structure Range where
  base : Nat
  extra : Nat
  deriving Repr, DecidableEq

/-- Length symbols, from symbol 257 on. -/
def lengthRanges : Array Range :=
  #[⟨3, 0⟩, ⟨4, 0⟩, ⟨5, 0⟩, ⟨6, 0⟩, ⟨7, 0⟩, ⟨8, 0⟩, ⟨9, 0⟩, ⟨10, 0⟩, ⟨11, 1⟩, ⟨13, 1⟩,
    ⟨15, 1⟩, ⟨17, 1⟩, ⟨19, 2⟩, ⟨23, 2⟩, ⟨27, 2⟩, ⟨31, 2⟩, ⟨35, 3⟩, ⟨43, 3⟩, ⟨51, 3⟩, ⟨59, 3⟩,
    ⟨67, 4⟩, ⟨83, 4⟩, ⟨99, 4⟩, ⟨115, 4⟩, ⟨131, 5⟩, ⟨163, 5⟩, ⟨195, 5⟩, ⟨227, 5⟩, ⟨258, 0⟩]

def distanceRanges : Array Range :=
  #[⟨1, 0⟩, ⟨2, 0⟩, ⟨3, 0⟩, ⟨4, 0⟩, ⟨5, 1⟩, ⟨7, 1⟩, ⟨9, 2⟩, ⟨13, 2⟩, ⟨17, 3⟩, ⟨25, 3⟩,
    ⟨33, 4⟩, ⟨49, 4⟩, ⟨65, 5⟩, ⟨97, 5⟩, ⟨129, 6⟩, ⟨193, 6⟩, ⟨257, 7⟩, ⟨385, 7⟩, ⟨513, 8⟩,
    ⟨769, 8⟩, ⟨1025, 9⟩, ⟨1537, 9⟩, ⟨2049, 10⟩, ⟨3073, 10⟩, ⟨4097, 11⟩, ⟨6145, 11⟩,
    ⟨8193, 12⟩, ⟨12289, 12⟩, ⟨16385, 13⟩, ⟨24577, 13⟩]

/-- A symbol's place in its table with the extra bits that follow it. -/
structure Located where
  index : Nat
  extra : Nat
  offset : Nat
  deriving Repr, DecidableEq

/-- Searches the first `count` ranges from the last one down. -/
def locateBelow (ranges : Array Range) (value : Nat) : (count : Nat) → Located
  | 0 => ⟨0, 0, 0⟩
  | count + 1 =>
    let range := ranges.getD count ⟨0, 0⟩
    if range.base ≤ value then ⟨count, range.extra, value - range.base⟩
    else locateBelow ranges value count

def locate (ranges : Array Range) (value : Nat) : Located :=
  locateBelow ranges value ranges.size

/-- The symbol that ends a block. -/
def endOfBlock : Nat := 256

/-- The first length symbol. -/
def firstLength : Nat := 257

end CircuitFixtures.Deflate
