import CircuitFixtures.Proofs.Assignment.Extension
import CircuitFixtures.Proofs.Index.Interval

/-!
# Editing an entry

What it does to a map to insert or to erase one entry: to its keys (`IndexMap.mem_keys_insert`,
`IndexMap.mem_keys_erase`), which may have no gap before and one behind, to its size, and to the
difference on either side of which it stands (`Assignment.difference_insert_left`,
`Assignment.difference_insert_right` and so on). The entries of a difference are those that differ
(`Assignment.mem_entries_difference`).
-/

namespace CircuitFixtures

namespace IndexMap

variable {α : Type}

theorem mem_keys_iff {m : IndexMap α} {i : Index} : i ∈ m.keys ↔ ∃ x, m.get? i = some x := by
  rw [← Option.ne_none_iff_exists', ne_eq, get?_eq_none_iff, Decidable.not_not]

theorem mem_keys_of_get? {m : IndexMap α} {i : Index} {x : α} (h : m.get? i = some x) :
    i ∈ m.keys :=
  mem_keys_iff.2 ⟨x, h⟩

theorem mem_keys_insert {m : IndexMap α} {i j : Index} {x : α} :
    j ∈ (m.insert i x).keys ↔ j = i ∨ j ∈ m.keys := by
  rw [mem_keys_iff, mem_keys_iff, get?_insert]
  by_cases hj : j = i <;> simp [hj]

theorem mem_keys_erase {m : IndexMap α} {i j : Index} :
    j ∈ (m.erase i).keys ↔ j ≠ i ∧ j ∈ m.keys := by
  rw [mem_keys_iff, mem_keys_iff, get?_erase]
  by_cases hj : j = i <;> simp [hj]

/-! ## Several edits of one map -/

theorem insert_insert (m : IndexMap α) (i : Index) (x y : α) :
    (m.insert i x).insert i y = m.insert i y := by
  apply ext_get?
  intro j
  simp only [get?_insert]
  split <;> rfl

theorem erase_insert {m : IndexMap α} {i : Index} (x : α) (h : m.get? i = none) :
    (m.insert i x).erase i = m := by
  apply ext_get?
  intro j
  rw [get?_erase, get?_insert]
  by_cases hj : j = i
  · rw [if_pos hj, hj, h]
  · rw [if_neg hj, if_neg hj]

theorem erase_of_get?_eq_none {m : IndexMap α} {i : Index} (h : m.get? i = none) :
    m.erase i = m := by
  apply ext_get?
  intro j
  rw [get?_erase]
  by_cases hj : j = i
  · rw [if_pos hj, hj, h]
  · rw [if_neg hj]

/-! ## Sizes -/

private theorem length_insertEntry {i : Index} {x : α} {es : List (Index × α)}
    (h : lookup i es = none) : (insertEntry i x es).length = es.length + 1 := by
  induction es with
  | nil => rfl
  | cons p rest ih =>
    obtain ⟨j, y⟩ := p
    rw [lookup] at h
    split at h
    · cases h
    · rename_i hij
      rw [insertEntry]
      split
      · rfl
      · simp [ih h]

theorem size_insert {m : IndexMap α} {i : Index} (x : α) (h : m.get? i = none) :
    (m.insert i x).size = m.size + 1 :=
  length_insertEntry h

theorem isEmpty_iff_size_eq_zero {m : IndexMap α} : m.isEmpty = true ↔ m.size = 0 := by
  rw [isEmpty, size, List.isEmpty_iff, List.length_eq_zero_iff]

theorem exists_mem_keys_iff {m : IndexMap α} : (∃ i, i ∈ m.keys) ↔ ¬ m.isEmpty = true := by
  rw [isEmpty, List.isEmpty_iff]
  constructor
  · rintro ⟨i, hi⟩ hnil
    rw [keys, hnil] at hi
    cases hi
  · intro hne
    obtain ⟨e, he⟩ := List.exists_mem_of_ne_nil _ hne
    exact ⟨e.1, List.mem_map_of_mem he⟩

end IndexMap

namespace Assignment

open IndexMap

variable {m n : Assignment} {i : Index} {x y : Field}

/-! ## Differences -/

theorem difference_insert_left (h : n.get? i ≠ some x) :
    difference (m.insert i x) n = (m.difference n).insert i x := by
  apply ext_get?
  intro j
  rw [get?_difference, get?_insert, get?_insert, get?_difference]
  by_cases hj : j = i
  · subst hj
    rw [if_pos rfl, if_pos rfl, if_neg h]
  · rw [if_neg hj, if_neg hj]

theorem difference_erase_left (m n : Assignment) (i : Index) :
    difference (m.erase i) n = (m.difference n).erase i := by
  apply ext_get?
  intro j
  rw [get?_difference, get?_erase, get?_erase, get?_difference]
  by_cases hj : j = i <;> simp [hj]

theorem difference_insert_right (h : m.get? i = some y) (hne : x ≠ y) :
    m.difference (n.insert i x) = (m.difference n).insert i y := by
  apply ext_get?
  intro j
  rw [get?_difference, get?_insert, get?_insert, get?_difference]
  by_cases hj : j = i
  · subst hj
    simp [h, hne]
  · rw [if_neg hj, if_neg hj]

theorem difference_insert_right_of_none (h : m.get? i = none) :
    m.difference (n.insert i x) = m.difference n := by
  apply ext_get?
  intro j
  rw [get?_difference, get?_insert, get?_difference]
  by_cases hj : j = i
  · subst hj
    simp [h]
  · rw [if_neg hj]

theorem difference_erase_right (h : m.get? i = some y) :
    m.difference (n.erase i) = (m.difference n).insert i y := by
  apply ext_get?
  intro j
  rw [get?_difference, get?_erase, get?_insert, get?_difference]
  by_cases hj : j = i
  · subst hj
    simp [h]
  · rw [if_neg hj, if_neg hj]

theorem difference_self (m : Assignment) : m.difference m = empty := by
  apply ext_get?
  intro j
  rw [get?_difference, if_pos rfl, get?_empty]

/-! ## Entries that differ -/

/-- An entry of `m` that `n` lacks or holds with another value. -/
def Differs (m n : Assignment) (e : Index × Field) : Prop :=
  e ∈ m.entries ∧ e ∉ n.entries

/-- How many entries of `m` are absent from `n` or different in it. -/
def differing (m n : Assignment) : Nat :=
  m.entries.countP fun e => e ∉ n.entries

private theorem get?_ne_iff {e : Index × Field} :
    (n.get? e.1 != some e.2) = decide (e ∉ n.entries) := by
  have h : n.get? e.1 = some e.2 ↔ e ∈ n.entries := get?_eq_some
  by_cases he : e ∈ n.entries
  · simp [he, h.2 he]
  · simp [he, mt h.1 he]

theorem mem_entries_difference {e : Index × Field} :
    e ∈ (m.difference n).entries ↔ m.Differs n e := by
  simp [difference, IndexMap.filter, get?_ne_iff, Differs]

theorem size_difference : (m.difference n).size = m.differing n := by
  simp only [IndexMap.size, difference, IndexMap.filter, get?_ne_iff, differing,
    List.countP_eq_length_filter]

theorem lists_keys_difference :
    Index.Lists (m.difference n).keys fun i => ∃ x, m.Differs n (i, x) := by
  refine ⟨ascending_keys _, fun i => ?_⟩
  simp only [← mem_entries_difference, ← get?_eq_some, mem_keys_iff]

/-! ## Keys without a gap -/

section

open Index

variable {k : Nat}

theorem upTo_insert_next (h : UpTo k m.keys) (hi : i.toNat = k + 1) :
    UpTo (k + 1) (m.insert i x).keys := by
  have hlt := UInt32.toNat_lt i
  refine upTo_of_mem_iff (by omega) fun j => ?_
  rw [mem_keys_insert, h.mem_iff, ← UInt32.toNat_inj]
  omega

theorem not_upTo_insert (h : UpTo k m.keys) (hi : i ∉ m.keys) (hne : i.toNat ≠ k + 1) :
    ¬ ∃ n, UpTo n (m.insert i x).keys := by
  rintro ⟨n, hn⟩
  rw [h.mem_iff] at hi
  have hle := hn.mem_iff.1 (mem_keys_insert.2 (.inl rfl))
  -- The index in the gap below `i`.
  have hgap := (hn (k + 1)).2 (by omega)
  obtain ⟨j, hj, hval⟩ := List.mem_map.1 hgap
  rcases mem_keys_insert.1 hj with rfl | hj
  · exact hne hval
  · have hjk := h.mem_iff.1 hj
    omega

theorem upTo_erase_last (h : UpTo (k + 1) m.keys) (hi : i.toNat = k + 1) :
    UpTo k (m.erase i).keys := by
  have hlt := UInt32.toNat_lt i
  refine upTo_of_mem_iff (by omega) fun j => ?_
  rw [mem_keys_erase, h.mem_iff, ne_eq, ← UInt32.toNat_inj]
  omega

theorem not_upTo_erase (h : UpTo k m.keys) (hi : i ∈ m.keys) (hne : i.toNat ≠ k) :
    ¬ ∃ n, UpTo n (m.erase i).keys := by
  rintro ⟨n, hn⟩
  rw [h.mem_iff] at hi
  -- The last index is still there.
  obtain ⟨j, hj, hval⟩ := List.mem_map.1 ((h k).2 (by omega))
  have hkept : j ∈ (m.erase i).keys :=
    mem_keys_erase.2 ⟨fun hji => hne (by rw [← hji, hval]), hj⟩
  have hjn := hn.mem_iff.1 hkept
  exact (mem_keys_erase.1 (hn.mem_iff.2 (by omega : 1 ≤ i.toNat ∧ i.toNat ≤ n))).1 rfl

end

end Assignment

end CircuitFixtures
