import CircuitFixtures.Index.Set

/-!
# Ranges of indices

The text of a set of indices, as ascending ranges that do not touch: `1..=3, 7`. A list is
read as the set of its members.
-/

namespace CircuitFixtures

/-- The first and the last index of a range. -/
structure IndexRange where
  first : Index
  last : Index
  deriving Repr, DecidableEq

namespace IndexRange

/-- The indices of a range. -/
def Contains (r : IndexRange) (i : Index) : Prop :=
  r.first ≤ i ∧ i ≤ r.last

def text (r : IndexRange) : String :=
  if r.first = r.last then toString r.first.toNat
  else toString r.first.toNat ++ "..=" ++ toString r.last.toNat

/-- Puts an index in front of ranges that are all greater. -/
def prepend (i : Index) : List IndexRange → List IndexRange
  | [] => [⟨i, i⟩]
  | r :: rs => if i.toNat + 1 = r.first.toNat then ⟨i, r.last⟩ :: rs else ⟨i, i⟩ :: r :: rs

/-- The ranges of ascending indices. -/
def ofAscending : List Index → List IndexRange
  | [] => []
  | i :: is => prepend i (ofAscending is)

end IndexRange

/-- The ranges of a set. -/
def IndexSet.ranges (s : IndexSet) : List IndexRange :=
  IndexRange.ofAscending s.elems

/-- The ranges of a list as text, and a dash where there are none. -/
def rangesText (is : List Index) : String :=
  match (IndexSet.ofList is).ranges with
  | [] => "-"
  | rs => ", ".intercalate (rs.map IndexRange.text)

end CircuitFixtures
