import CircuitFixtures.Deflate.Token

/-!
# Finding repeats

Cuts data into tokens, in groups that become the blocks of the compressed form.
Positions with the same three bytes are linked from the later to the earlier one; at
each position the links are followed for a bounded number of probes and the longest
repeat is kept. A repeat is held back for one position: if a longer one starts there,
its first byte is written out instead.

Positions are kept modulo 65536, and position 0 means that no link goes on.
-/

namespace CircuitFixtures.Deflate

/-- The bytes of one block as tokens. -/
structure Group where
  tokens : List Token
  /-- The bytes are still at hand when the block is written. -/
  retained : Bool
  deriving Repr, DecidableEq

namespace Matching

def windowSize : Nat := 32768
def maxCopy : Nat := 258
def minCopy : Nat := 3

/-- Probes for a repeat when none is held, or a short one, and when a long one is. -/
def probes (held : Nat) : Nat :=
  if held < 32 then 129 else 33

/-- A repeat of three bytes is not worth a reach this far. -/
def farForShort : Nat := 8192

/-- A repeat this long is taken at once. -/
def longEnough : Nat := 128

/-- The latest position of each three-byte key and the position before each position. -/
structure Links where
  latest : Array Nat
  earlier : Array Nat
  /-- How many positions are entered. -/
  entered : Nat

namespace Links

def empty : Links :=
  ⟨Array.replicate windowSize 0, Array.replicate windowSize 0, 0⟩

/-- A 15-bit key of three bytes. -/
def key (x y z : UInt8) : Nat :=
  (((x.toNat <<< 10) ^^^ (y.toNat <<< 5)) ^^^ z.toNat) % windowSize

/-- Enters the next `count` positions. -/
def enter (data : Array UInt8) : (count : Nat) → Links → Links
  | 0, links => links
  | count + 1, links =>
    let p := links.entered
    let k := key (data.getD p 0) (data.getD (p + 1) 0) (data.getD (p + 2) 0)
    let ⟨latest, earlier, _⟩ := links
    let before := latest.getD k 0
    enter data count
      ⟨latest.setIfInBounds k (p % 65536), earlier.setIfInBounds (p % windowSize) before, p + 1⟩

end Links

/-- A repeat found so far; distance 0 stands for none. -/
structure Repeat where
  length : Nat
  distance : Nat
  deriving Repr, DecidableEq

/-- The number of equal bytes at positions `p` and `q`, counted from `n` up to `limit`. -/
def common (data : Array UInt8) (p q limit : Nat) (n : Nat) : Nat :=
  if n < limit then
    if data.getD (p + n) 0 == data.getD (q + n) 0 then common data p q limit (n + 1) else n
  else n
termination_by limit - n

/-- Follows the links from position `at` for the longest repeat of the bytes at `p`.
Probes are spent in groups of three, and a probe that gets past the first test, the
last byte of the best repeat and the byte after it, ends its group. -/
def follow (data : Array UInt8) (links : Links) (p reach limit : Nat)
    (budget at_ : Nat) (best : Repeat) : Repeat :=
  if budget = 0 then best
  else
    let link := links.earlier.getD (at_ % windowSize) 0
    let distance := (p + 65536 - link) % 65536
    if link = 0 ∨ reach < distance then best
    else
      let q := p - distance
      let i := best.length
      if data.getD (q + i - 1) 0 == data.getD (p + i - 1) 0 &&
          data.getD (q + i) 0 == data.getD (p + i) 0 then
        if distance = 0 then best
        else
          let n := common data p q limit 0
          if i < n then
            if n = limit then ⟨n, distance⟩
            else follow data links p reach limit ((budget - 1) / 3 * 3) q ⟨n, distance⟩
          else follow data links p reach limit ((budget - 1) / 3 * 3) q best
      else follow data links p reach limit (budget - 1) q best
termination_by budget
decreasing_by all_goals omega

/-- The longest repeat of the bytes at `p` that beats one of length `held`. -/
def search (data : Array UInt8) (links : Links) (p held : Nat) : Repeat :=
  let limit := min maxCopy (data.size - p)
  let start : Repeat := ⟨if held = 0 then minCopy - 1 else held, 0⟩
  let found :=
    if limit ≤ start.length then start
    else
      follow data links p (min p (windowSize - limit)) limit (probes start.length) p start
  if (found.length = minCopy ∧ farForShort ≤ found.distance) ∨ p % windowSize = found.distance then
    ⟨0, 0⟩
  else found

/-- The state between two positions. -/
structure State where
  position : Nat
  /-- A repeat found at the position before, with the byte there. -/
  held : Option (UInt8 × Repeat)
  /-- The tokens of the block in progress, latest first. -/
  tokens : List Token
  literals : Nat
  copies : Nat
  /-- The bytes that these tokens stand for. -/
  covered : Nat
  /-- Where the block in progress starts. -/
  start : Nat
  /-- The finished blocks, latest first. -/
  groups : List Group

namespace State

def literal (s : State) (x : UInt8) : State :=
  { s with tokens := .literal x :: s.tokens, literals := s.literals + 1, covered := s.covered + 1 }

def copy (s : State) (r : Repeat) : State :=
  { s with
    tokens := .copy r.length r.distance :: s.tokens, copies := s.copies + 1,
    covered := s.covered + r.length }

/-- Decides about the repeat found at the position in progress, and how far to go on. -/
def decide (s : State) (x : UInt8) (found : Repeat) : State × Nat :=
  match s.held with
  | some (y, r) =>
    if r.length < found.length then
      let s := s.literal y
      if longEnough ≤ found.length then ({ s.copy found with held := none }, found.length)
      else ({ s with held := some (x, found) }, 1)
    else ({ s.copy r with held := none }, r.length - 1)
  | none =>
    if found.distance = 0 then (s.literal x, 1)
    else if longEnough ≤ found.length then (s.copy found, found.length)
    else ({ s with held := some (x, found) }, 1)

/-- The room that the tokens of the block take: a byte for a literal, three for a copy,
and a byte for every eight tokens. -/
def room (s : State) : Nat :=
  1 + s.literals + 3 * s.copies + (s.literals + s.copies) / 8

/-- A block ends when its tokens fill their room, or when they take almost as much room
as the bytes they stand for. -/
def isBlockFull (s : State) : Bool :=
  65528 < s.room || (31744 < s.covered && s.covered ≤ s.room * 115 / 128)

/-- Closes the block in progress. `kept` bytes before the position are at hand. -/
def close (s : State) (kept : Nat) : State :=
  { s with
    groups := ⟨s.tokens.reverse, s.position - s.start ≤ kept⟩ :: s.groups
    tokens := [], literals := 0, copies := 0, covered := 0, start := s.start + s.covered }

/-- Goes on from a position at which a repeat was looked for. -/
def next (data : Array UInt8) (s : State) (found : Repeat) : State :=
  let p := s.position
  let decided := s.decide (data.getD p 0) found
  let s := { decided.1 with position := p + decided.2 }
  if s.isBlockFull then
    s.close (min (min p (windowSize - min maxCopy (data.size - p)) + decided.2) windowSize)
  else s

/-- Goes through the data to its end. -/
def run (data : Array UInt8) (links : Links) (s : State) : State :=
  if s.position < data.size then
    let ahead := s.position + min maxCopy (data.size - s.position) - 2
    let links := links.enter data (ahead - links.entered)
    let s' := s.next data (search data links s.position ((s.held.map (·.2.length)).getD 0))
    if s.position < s'.position then run data links s' else s'
  else s
termination_by data.size - s.position
decreasing_by exact Nat.sub_lt_sub_left (by assumption) (by assumption)

end State

end Matching

/-- All tokens of the groups. -/
def Group.flatten (groups : List Group) : List Token :=
  groups.flatMap (·.tokens)

/-- The data as groups of tokens that stand for it. -/
def tokenize (data : List UInt8) : List Group :=
  let data := data.toArray
  let s := Matching.State.run data .empty ⟨0, none, [], 0, 0, 0, 0, []⟩
  (s.close (min data.size Matching.windowSize)).groups.reverse

end CircuitFixtures.Deflate
