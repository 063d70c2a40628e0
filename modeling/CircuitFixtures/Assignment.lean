import CircuitFixtures.Field
import CircuitFixtures.Index.Set

/-!
# Assignments

A finite assignment of field values to witness indices. `difference` keeps the entries
that another assignment lacks or holds with a different value; `ofFixedEntries` reads
entries in the fixed-width text form and refuses an index that comes twice.
-/

namespace CircuitFixtures

abbrev Assignment := IndexMap Field

namespace Assignment

/-- The keys are `start`, `start + 1` and so on, without a gap. The sums are of 64 bits, twice as
many as an index has. -/
def isContiguousFrom (m : Assignment) (start : Index) : Bool :=
  m.keys.zipIdx.all (fun p => p.1.toUInt64 == start.toUInt64 + UInt64.ofNat p.2)

/-- The entries of `m` that `n` lacks or holds with a different value. -/
def difference (m n : Assignment) : Assignment :=
  m.filter (fun i x => n.get? i != some x)

/-- Why entries are no assignment. -/
inductive EntryFault where
  | badValue (fault : Field.Fault)
  | duplicate (index : Index)
  deriving Repr, DecidableEq

def EntryFault.message : EntryFault → String
  | .badValue fault => fault.message
  | .duplicate index => "Witness " ++ toString index ++ " appears more than once"

/-- Adds entries in the fixed-width text form to `m`, up to the first that is wrong. -/
def addFixedEntries (m : Assignment) : List (Index × String) → Except EntryFault Assignment
  | [] => .ok m
  | (i, text) :: rest =>
    match Field.ofFixedText text with
    | .error e => .error (.badValue e)
    | .ok x =>
      match m.exchange i x with
      | (some _, _) => .error (.duplicate i)
      | (none, m) => addFixedEntries m rest

/-- The assignment that entries in the fixed-width text form make. -/
def ofFixedEntries (es : List (Index × String)) : Except EntryFault Assignment :=
  addFixedEntries IndexMap.empty es

/-- The entries in index order, each value as `0x` and 64 digits. -/
def toFixedEntries (m : Assignment) : List (Index × String) :=
  m.entries.map (fun p => (p.1, p.2.toText))

/-- The values of the indices in a set, or the smallest index that has none. -/
def restrictAfter (m out : Assignment) : List Index → Except Index Assignment
  | [] => .ok out
  | i :: rest =>
    match m.get? i with
    | some x => restrictAfter m (out.insert i x) rest
    | none => .error i

/-- The message for an index that has no value. -/
def missingMessage (index : Index) : String :=
  "Witness " ++ toString index ++ " is required but has no value"

def restrict (m : Assignment) (s : IndexSet) : Except Index Assignment :=
  restrictAfter m IndexMap.empty s.elems

theorem addFixedEntries_cons (m : Assignment) (i : Index) (text : String)
    (rest : List (Index × String)) :
    m.addFixedEntries ((i, text) :: rest) =
      match Field.ofFixedText text with
      | .error e => .error (.badValue e)
      | .ok x =>
        if m.contains i then .error (.duplicate i) else addFixedEntries (m.insert i x) rest := by
  rw [addFixedEntries]
  cases Field.ofFixedText text with
  | error e => rfl
  | ok x =>
    cases hi : m.get? i <;> simp [IndexMap.exchange_eq, IndexMap.contains, hi]

theorem get?_difference (m n : Assignment) (i : Index) :
    (m.difference n).get? i = if n.get? i = m.get? i then none else m.get? i := by
  rw [difference, IndexMap.get?_filter]
  cases m.get? i with
  | none => simp [Option.filter]
  | some x => by_cases h : n.get? i = some x <;> simp [Option.filter, h]

end Assignment

end CircuitFixtures
