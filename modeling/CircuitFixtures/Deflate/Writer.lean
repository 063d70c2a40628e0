import CircuitFixtures.Deflate.Matching
import CircuitFixtures.Deflate.Words

/-!
# Writing compressed data

Each group of tokens becomes one block: with the fixed codes when it stands for few
bytes, with codes of its own otherwise, and as the bytes themselves where compression
saves nothing. The codes of a block are made for the symbols that occur in it, and the
lengths of their words stand in front of the tokens, packed and written with a third code
that is made in the same way.
-/

namespace CircuitFixtures.Deflate

/-- The symbol of a token in the code of bytes and lengths. -/
def Token.symbol : Token → Nat
  | .literal x => x.toNat
  | .copy length _ => firstLength + (locate lengthRanges length).index

/-- The symbol of a token in the code of distances. -/
def Token.distanceSymbol? : Token → Option Nat
  | .literal _ => none
  | .copy _ distance => some (locate distanceRanges distance).index

/-- The lengths of a code of bytes and lengths for the tokens of a block and its end. -/
def literalLengths (ts : List Token) : List Nat :=
  CodeLengths.ofCounts CodeTree.maxLength
    (CodeLengths.tally 286 (endOfBlock :: ts.map Token.symbol))

/-- The lengths of a code of distances for the tokens of a block. -/
def distanceLengths (ts : List Token) : List Nat :=
  CodeLengths.ofCounts CodeTree.maxLength
    (CodeLengths.tally 30 (ts.filterMap Token.distanceSymbol?))

/-- Drops zeros from the end, but keeps `least` numbers. -/
def trimZeros (least : Nat) (lengths : List Nat) : List Nat :=
  lengths.take least ++ ((lengths.drop least).reverse.dropWhile (· == 0)).reverse

/-- The word of a symbol for code lengths and its value. -/
def LengthSymbol.bits (words : Array (List Bool)) (s : LengthSymbol) : List Bool :=
  words.getD s.symbol [] ++ Bits.ofNat (LengthSymbol.extra s.symbol) s.value

/-- The longest word of the code of code lengths. -/
def maxLengthOfLengths : Nat := 7

/-- The lengths of the code with which code lengths are written. -/
def lengthLengths (symbols : List LengthSymbol) : List Nat :=
  CodeLengths.ofCounts maxLengthOfLengths (CodeLengths.tally 19 (symbols.map (·.symbol)))

/-- The description of two codes by their code lengths. -/
def describe (literals distances : List Nat) : List Bool :=
  let symbols := packLengths (literals ++ distances)
  let lengths := lengthLengths symbols
  let ordered := trimZeros 4 (lengthOrder.map (fun s => lengths.getD s 0))
  let words := CodeLengths.wordTable lengths
  Bits.ofNat 5 (literals.length - 257) ++ Bits.ofNat 5 (distances.length - 1) ++
    Bits.ofNat 4 (ordered.length - 4) ++ ordered.flatMap (Bits.ofNat 3) ++
    symbols.flatMap (LengthSymbol.bits words)

/-- A block with the fixed codes, behind the bit that says whether it is the last. -/
def fixedBlock (ts : List Token) : List Bool :=
  [true, false] ++ Words.fixed.tokensBits ts

/-- A block with codes of its own. -/
def ownBlock (ts : List Token) : List Bool :=
  let literals := literalLengths ts
  let distances := distanceLengths ts
  [false, true] ++ describe (trimZeros 257 literals) (trimZeros 1 distances) ++
    (Words.ofLengths literals distances).tokensBits ts

/-- The bytes as they are, on a byte boundary behind `before` bits. -/
def storedBlock (before : Nat) (xs : List UInt8) : List Bool :=
  [false, false] ++ List.replicate ((8 - (before + 2) % 8) % 8) false ++
    Bits.ofNat 16 xs.length ++ Bits.ofNat 16 (65535 - xs.length) ++ Bits.ofBytes xs

/-- A block with codes of its own pays off from this many bytes on. -/
def ownCodesFrom : Nat := 48

/-- Bytes written as they are may pay off beyond this many. -/
def storedBeyond : Nat := 32

/-- The block of a group that stands for the bytes `xs`, behind `before` bits. -/
def blockBits (before : Nat) (group : Group) (xs : List UInt8) : List Bool :=
  let coded :=
    if xs.length < ownCodesFrom then fixedBlock group.tokens else ownBlock group.tokens
  if group.retained && storedBeyond < xs.length && xs.length < 65536 &&
      xs.length ≤ (before % 8 + coded.length) / 8 + 1 then
    storedBlock before xs
  else coded

/-- The blocks of the groups, which stand for `xs`, in parts, behind `before` bits. -/
def blocksBits (before : Nat) : List Group → List UInt8 → List (List Bool)
  | [], _ => []
  | [group], xs => [true :: blockBits (before + 1) group xs]
  | group :: groups, xs =>
    let n := Token.totalSize group.tokens
    let block := false :: blockBits (before + 1) group (xs.take n)
    block :: blocksBits (before + block.length) groups (xs.drop n)

/-- Compresses data. -/
def compress (data : List UInt8) : List UInt8 :=
  Bits.toBytes (blocksBits 0 (tokenize data) data).flatten

end CircuitFixtures.Deflate
