import CircuitFixtures.Bits

/-!
# Prefix codes

A prefix code is a binary tree with symbols at its leaves. The tree of a list of
code lengths is laid out from left to right: shorter words first, and words of one
length in the order of their symbols. `ofLengths?` accepts the lengths that fill the
tree exactly, and also a code of one symbol or none.

`CodeTree.read` walks a tree along the bits of a reader and `CodeTree.words` lists the
word of each symbol.
-/

namespace CircuitFixtures.Deflate

/-- Why compressed data cannot be read. -/
inductive Fault where
  /-- The data ends inside a block. -/
  | incomplete
  /-- The data breaks a rule of the format. -/
  | corrupt
  deriving Repr, DecidableEq

inductive CodeTree where
  /-- No word starts like this. -/
  | gap
  | leaf (symbol : Nat)
  | fork (zero one : CodeTree)
  deriving Repr, DecidableEq

namespace CodeTree

/-- The longest word of any code. -/
def maxLength : Nat := 15

/-- Lays out symbols, given with ascending lengths, below a node at `depth`, and
returns those that found no place. -/
def grow : (room depth : Nat) → List (Nat × Nat) → CodeTree × List (Nat × Nat)
  | _, _, [] => (.gap, [])
  | 0, _, rest => (.gap, rest)
  | room + 1, depth, (length, symbol) :: rest =>
    if length ≤ depth then (.leaf symbol, rest)
    else
      let zero := grow room (depth + 1) ((length, symbol) :: rest)
      let one := grow room (depth + 1) zero.2
      (.fork zero.1 one.1, one.2)

def isFull : CodeTree → Bool
  | .gap => false
  | .leaf _ => true
  | .fork zero one => zero.isFull && one.isFull

/-- The symbols in use, those with a number other than 0, with their numbers. -/
def used (numbers : List Nat) : List (Nat × Nat) :=
  numbers.zipIdx.filter (fun p => p.1 != 0)

/-- The symbols in use with their numbers, the least number first. -/
def ranked (numbers : List Nat) : List (Nat × Nat) :=
  (used numbers).mergeSort (fun p q => p.1 ≤ q.1)

/-- The tree of a code in which every sequence of bits starts with a word. -/
def ofFullLengths? (lengths : List Nat) : Option CodeTree :=
  let tree := grow (maxLength + 1) 0 (ranked lengths)
  if tree.2.isEmpty && tree.1.isFull then some tree.1 else none

/-- The tree of a list of code lengths, where a code of at most one symbol may leave
gaps. -/
def ofLengths? (lengths : List Nat) : Option CodeTree :=
  match ranked lengths with
  | [] => some (.fork .gap .gap)
  | [p] => some (grow (maxLength + 1) 0 [p]).1
  | _ => ofFullLengths? lengths

/-- Follows the bits down to a symbol. -/
def walk : CodeTree → BitReader → Except Fault (Nat × BitReader)
  | .gap, _ => .error .corrupt
  | .leaf symbol, r => .ok (symbol, r)
  | .fork zero one, r =>
    match r.next? with
    | none => .error .incomplete
    | some (false, r) => zero.walk r
    | some (true, r) => one.walk r

/-- Reads one symbol. A tree that is no fork has no words. -/
def read (tree : CodeTree) (r : BitReader) : Except Fault (Nat × BitReader) :=
  match tree with
  | .fork zero one => (fork zero one).walk r
  | _ => .error .corrupt

/-- Every symbol with its word. -/
def words : CodeTree → List (Nat × List Bool)
  | .gap => []
  | .leaf symbol => [(symbol, [])]
  | .fork zero one =>
    zero.words.map (fun p => (p.1, false :: p.2)) ++ one.words.map (fun p => (p.1, true :: p.2))

theorem size_walk {tree : CodeTree} {r r' : BitReader} {symbol : Nat}
    (h : tree.walk r = .ok (symbol, r')) : r'.size ≤ r.size := by
  induction tree generalizing r with
  | gap => simp [walk] at h
  | leaf s =>
    simp only [walk, Except.ok.injEq, Prod.mk.injEq] at h
    simp [h.2]
  | fork zero one ihz iho =>
    simp only [walk] at h
    split at h
    · cases h
    · rename_i r1 h1
      exact Nat.le_of_lt (Nat.lt_of_le_of_lt (ihz h) (BitReader.size_next? h1))
    · rename_i r1 h1
      exact Nat.le_of_lt (Nat.lt_of_le_of_lt (iho h) (BitReader.size_next? h1))

theorem size_read {tree : CodeTree} {r r' : BitReader} {symbol : Nat}
    (h : tree.read r = .ok (symbol, r')) : r'.size < r.size := by
  cases tree with
  | gap => simp [read] at h
  | leaf s => simp [read] at h
  | fork zero one =>
    simp only [read, walk] at h
    split at h
    · cases h
    · rename_i r1 h1
      exact Nat.lt_of_le_of_lt (size_walk h) (BitReader.size_next? h1)
    · rename_i r1 h1
      exact Nat.lt_of_le_of_lt (size_walk h) (BitReader.size_next? h1)

end CodeTree

end CircuitFixtures.Deflate
