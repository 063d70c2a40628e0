import CircuitFixtures.Deflate.PrefixCode

/-!
# Code lengths

The lengths of a code that spends few bits on frequent symbols. `ofCounts` merges the
two lightest groups of symbols again and again, a single symbol before a merged group
of the same weight, and keeps only how many symbols stand at each depth; `shorten` moves
the symbols below the depth limit up, and the longest lengths go to the rarest symbols.
-/

namespace CircuitFixtures.Deflate.CodeLengths

/-- How many symbols stand at depth 0, 1, 2 and so on. -/
abbrev Profile := List Nat

namespace Profile

def add : Profile → Profile → Profile
  | [], q => q
  | p, [] => p
  | m :: p, n :: q => (m + n) :: add p q

/-- Hangs two groups below a common node. -/
def join (p q : Profile) : Profile :=
  0 :: add p q

/-- The first `count` numbers, with zeros where there are no more. -/
def front : (count : Nat) → Profile → List Nat
  | 0, _ => []
  | count + 1, [] => 0 :: front count []
  | count + 1, n :: p => n :: front count p

end Profile

/-- A merged group of symbols and the sum of their counts. -/
structure Group where
  weight : Nat
  profile : Profile

/-- Merges the two lightest of the single counts and of the groups, both given in
ascending order, until one group is left. -/
def merge : (rounds : Nat) → (singles : List Nat) → (groups : List Group) → Profile
  | 0, _, groups => (groups.head?.map (·.profile)).getD []
  | rounds + 1, singles, groups =>
    let first := lightest singles groups
    let second := lightest first.2.1 first.2.2
    let joined : Group := ⟨first.1.weight + second.1.weight, first.1.profile.join second.1.profile⟩
    merge rounds second.2.1 (second.2.2 ++ [joined])
where
  /-- The lightest of all, a single symbol first, and what is left. -/
  lightest : List Nat → List Group → Group × List Nat × List Group
    | [], [] => (⟨0, []⟩, [], [])
    | [], g :: groups => (g, [], groups)
    | n :: singles, [] => (⟨n, [1]⟩, singles, [])
    | n :: singles, g :: groups =>
      if g.weight < n then (g, n :: singles, groups) else (⟨n, [1]⟩, singles, g :: groups)

/-- Takes a symbol from the deepest used depth but the first and hangs it, with another,
one below. The depths are given deepest first. -/
def deepen : List Nat → List Nat
  | a :: b :: rest => if b = 0 then a :: deepen (b :: rest) else (a + 2) :: (b - 1) :: rest
  | depths => depths

/-- The weight of the depths, deepest first, as leaves of the deepest depth. -/
def fill : (leaf : Nat) → List Nat → Nat
  | _, [] => 0
  | leaf, n :: rest => n * leaf + fill (2 * leaf) rest

/-- Gives up `rounds` leaves too many at the deepest depth. -/
def relieve : (rounds : Nat) → List Nat → List Nat
  | 0, depths => depths
  | rounds + 1, depths =>
    match deepen depths with
    | n :: rest => relieve rounds ((n - 1) :: rest)
    | [] => []

/-- How many symbols have length `limit`, `limit - 1`, down to 1, when those below the
limit are moved up to it. -/
def shorten (limit : Nat) (profile : Profile) : List Nat :=
  let below := (profile.tail.drop limit).foldl (· + ·) 0
  match (Profile.front limit profile.tail).reverse with
  | [] => []
  | n :: rest =>
    let depths := (n + below) :: rest
    relieve (fill 1 depths - Nat.pow 2 limit) depths

/-- How often each symbol below `size` occurs. -/
def tally (size : Nat) (symbols : List Nat) : Array Nat :=
  symbols.foldl (fun counts s => counts.modify s (· + 1)) (Array.replicate size 0)

/-- How many symbols have length `limit`, down to 1, when their counts are given in ascending
order. A single symbol has length 1. -/
def numbers (limit : Nat) : (counts : List Nat) → List Nat
  | [] => []
  | [_] => List.replicate (limit - 1) 0 ++ [1]
  | counts => shorten limit (merge (counts.length - 1) counts [])

/-- The lengths themselves, the longest first. -/
def spread (limit : Nat) (numbers : List Nat) : List Nat :=
  numbers.zipIdx.flatMap (fun p => List.replicate p.1 (limit - p.2))

/-- The lengths by symbol; a symbol that is given none has length 0. -/
def assign (size : Nat) (symbols lengths : List Nat) : List Nat :=
  ((lengths.zip symbols).foldl
    (fun (table : Array Nat) (p : Nat × Nat) => table.setIfInBounds p.2 p.1)
    (Array.replicate size 0)).toList

/-- The lengths of a code for symbols with the given counts; a symbol that does not
occur gets length 0. -/
def ofCounts (limit : Nat) (counts : Array Nat) : List Nat :=
  let ranked := CodeTree.ranked counts.toList
  assign counts.size (ranked.map (·.2)) (spread limit (numbers limit (ranked.map (·.1))))

end CircuitFixtures.Deflate.CodeLengths
