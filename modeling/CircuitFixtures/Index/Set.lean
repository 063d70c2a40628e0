import CircuitFixtures.Index.Map

/-!
# Sets of witness indices

Finite sets of 32-bit indices, kept as strictly ascending lists. Membership in the list is
the view: `mem_insert`, `mem_ofList` and `mem_union` say what each operation does to it.
-/

namespace CircuitFixtures

structure IndexSet where
  elems : List Index
  ascending : elems.Pairwise (· < ·)
  deriving Repr, DecidableEq

namespace IndexSet

def empty : IndexSet :=
  ⟨[], List.Pairwise.nil⟩

instance : Inhabited IndexSet := ⟨empty⟩

def toList (s : IndexSet) : List Index :=
  s.elems

def contains (s : IndexSet) (i : Index) : Bool :=
  s.elems.contains i

/-- Puts an index in front of the greater ones. -/
def insertElem (i : Index) : List Index → List Index
  | [] => [i]
  | j :: rest =>
    if i < j then i :: j :: rest else if i = j then j :: rest else j :: insertElem i rest

theorem mem_insertElem {i k : Index} {js : List Index} :
    k ∈ insertElem i js ↔ k = i ∨ k ∈ js := by
  induction js with
  | nil => simp [insertElem]
  | cons j rest ih =>
    simp only [insertElem]
    split
    · simp
    · split
      · rename_i h
        subst h
        simp
      · simp only [List.mem_cons, ih]
        constructor
        · rintro (h | h | h)
          · exact .inr (.inl h)
          · exact .inl h
          · exact .inr (.inr h)
        · rintro (h | h | h)
          · exact .inr (.inl h)
          · exact .inl h
          · exact .inr (.inr h)

theorem ascending_insertElem (i : Index) {js : List Index} (h : js.Pairwise (· < ·)) :
    (insertElem i js).Pairwise (· < ·) := by
  induction js with
  | nil => simp [insertElem]
  | cons j rest ih =>
    obtain ⟨hj, hrest⟩ := List.pairwise_cons.1 h
    simp only [insertElem]
    split
    · rename_i hij
      refine List.pairwise_cons.2 ⟨fun k hk => ?_, h⟩
      rcases List.mem_cons.1 hk with rfl | hk
      · exact hij
      · exact UInt32.lt_trans hij (hj k hk)
    · rename_i hij
      split
      · exact h
      · rename_i hne
        refine List.pairwise_cons.2 ⟨fun k hk => ?_, ih hrest⟩
        rcases mem_insertElem.1 hk with rfl | hk
        · exact IndexMap.lt_of_not_lt_of_ne hij hne
        · exact hj k hk

def insert (s : IndexSet) (i : Index) : IndexSet :=
  ⟨insertElem i s.elems, ascending_insertElem i s.ascending⟩

def ofList (is : List Index) : IndexSet :=
  is.foldl insert empty

def union (s t : IndexSet) : IndexSet :=
  t.elems.foldl insert s

theorem mem_insert {s : IndexSet} {i k : Index} :
    k ∈ (s.insert i).elems ↔ k = i ∨ k ∈ s.elems :=
  mem_insertElem

theorem mem_foldl_insert {s : IndexSet} {is : List Index} {k : Index} :
    k ∈ (is.foldl insert s).elems ↔ k ∈ s.elems ∨ k ∈ is := by
  induction is generalizing s with
  | nil => simp
  | cons i is ih =>
    rw [List.foldl_cons, ih, mem_insert, List.mem_cons]
    constructor
    · rintro ((h | h) | h)
      · exact .inr (.inl h)
      · exact .inl h
      · exact .inr (.inr h)
    · rintro (h | h | h)
      · exact .inl (.inr h)
      · exact .inl (.inl h)
      · exact .inr h

theorem mem_ofList {is : List Index} {k : Index} : k ∈ (ofList is).elems ↔ k ∈ is := by
  simp [ofList, mem_foldl_insert, empty]

theorem mem_union {s t : IndexSet} {k : Index} :
    k ∈ (s.union t).elems ↔ k ∈ s.elems ∨ k ∈ t.elems :=
  mem_foldl_insert

end IndexSet

end CircuitFixtures
