import CircuitFixtures.Assignment
import CircuitFixtures.Proofs.Index.Ascending

/-!
# Assignments with one more entry

One assignment is another with one more entry exactly where its difference from the other has
one entry and the difference the other way has none (`Assignment.extends_iff`).
-/

namespace CircuitFixtures

namespace IndexMap

variable {α : Type}

theorem get?_eq_none_iff {m : IndexMap α} {i : Index} : m.get? i = none ↔ i ∉ m.keys := by
  constructor
  · intro h hi
    obtain ⟨p, hp, rfl⟩ := List.mem_map.1 hi
    have hsome : m.get? p.1 = some p.2 := get?_eq_some.2 hp
    rw [h] at hsome
    cases hsome
  · intro h
    cases hx : m.get? i with
    | none => rfl
    | some x => exact absurd (List.mem_map.2 ⟨(i, x), get?_eq_some.1 hx, rfl⟩) h

theorem contains_iff_mem_keys {m : IndexMap α} {i : Index} :
    m.contains i = true ↔ i ∈ m.keys := by
  rw [contains, Option.isSome_iff_ne_none, ne_eq, get?_eq_none_iff, Decidable.not_not]

theorem isEmpty_iff_eq_empty {m : IndexMap α} : m.isEmpty = true ↔ m = empty := by
  constructor
  · intro h
    exact ext_entries (List.isEmpty_iff.1 h)
  · rintro rfl
    rfl

theorem get?_single (i j : Index) (x : α) :
    (empty.insert i x).get? j = if j = i then some x else none := by
  rw [get?_insert, get?_empty]

theorem size_eq_one_iff {m : IndexMap α} : m.size = 1 ↔ ∃ i x, m = empty.insert i x := by
  constructor
  · intro h
    obtain ⟨p, hp⟩ := List.length_eq_one_iff.1 h
    exact ⟨p.1, p.2, ext_entries hp⟩
  · rintro ⟨i, x, rfl⟩
    rfl

end IndexMap

namespace Assignment

open IndexMap

theorem difference_insert {m : Assignment} {i : Index} (x : Field) (h : m.get? i = none) :
    difference (m.insert i x) m = empty.insert i x := by
  apply ext_get?
  intro j
  rw [get?_difference, get?_insert, get?_single]
  by_cases hj : j = i
  · subst hj
    simp [h]
  · simp [hj]

theorem difference_of_insert {m : Assignment} {i : Index} (x : Field) (h : m.get? i = none) :
    m.difference (m.insert i x) = empty := by
  apply ext_get?
  intro j
  rw [get?_difference, get?_insert, get?_empty]
  by_cases hj : j = i
  · subst hj
    simp [h]
  · simp [hj]

private theorem eq_insert_of_differences {m n : Assignment} {i : Index} {x : Field}
    (hadded : n.difference m = empty.insert i x) (hchanged : m.difference n = empty) :
    m.get? i = none ∧ n = m.insert i x := by
  have added (j : Index) :
      (if m.get? j = n.get? j then none else n.get? j) = if j = i then some x else none := by
    rw [← get?_difference, hadded, get?_single]
  have kept (j : Index) : n.get? j = m.get? j ∨ m.get? j = none := by
    have h := get?_difference m n j
    rw [hchanged, get?_empty] at h
    by_cases heq : n.get? j = m.get? j
    · exact .inl heq
    · rw [if_neg heq] at h
      exact .inr h.symm
  have hne : m.get? i ≠ n.get? i := by
    intro heq
    have h := added i
    rw [if_pos heq, if_pos rfl] at h
    cases h
  have hi : n.get? i = some x := by
    have h := added i
    rwa [if_neg hne, if_pos rfl] at h
  refine ⟨(kept i).resolve_left hne.symm, ext_get? fun j => ?_⟩
  rw [get?_insert]
  by_cases hj : j = i
  · rw [if_pos hj, hj, hi]
  · rw [if_neg hj]
    have h := added j
    rw [if_neg hj] at h
    by_cases heq : m.get? j = n.get? j
    · exact heq.symm
    · rw [if_neg heq] at h
      rcases kept j with hk | hk
      · exact hk
      · rw [h, hk]

theorem extends_iff {m n d : Assignment} :
    (n.difference m = d ∧ d.size = 1 ∧ (m.difference n).isEmpty = true) ↔
      ∃ i x, m.get? i = none ∧ n = m.insert i x ∧ d = empty.insert i x := by
  constructor
  · rintro ⟨hd, hone, hempty⟩
    obtain ⟨i, x, rfl⟩ := size_eq_one_iff.1 hone
    obtain ⟨hi, hn⟩ := eq_insert_of_differences hd (isEmpty_iff_eq_empty.1 hempty)
    exact ⟨i, x, hi, hn, rfl⟩
  · rintro ⟨i, x, hi, rfl, rfl⟩
    exact ⟨difference_insert x hi, rfl, isEmpty_iff_eq_empty.2 (difference_of_insert x hi)⟩

theorem restrict_single {m : Assignment} {i : Index} {x : Field} {s : IndexSet}
    (hs : s.elems = [i]) (h : m.get? i = some x) : m.restrict s = .ok (empty.insert i x) := by
  rw [restrict, hs, restrictAfter, h]
  rfl

end Assignment

end CircuitFixtures
