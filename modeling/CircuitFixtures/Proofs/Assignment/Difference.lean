import CircuitFixtures.Proofs.Index.Repeats
import Mathlib.Data.List.Basic

/-!
# Differences as patches

`Assignment.difference` has the entries of one assignment that another lacks, and those that it
holds with another value; it does not tell them apart. The difference the other way does: an index
that is in both is one whose value has changed. So the two together are a patch
(`Assignment.patched_differences`). Each is its assignment less the entries that the two share
(`Assignment.size_shared_add_size_difference`), so the sizes differ as those of the assignments do.
-/

namespace CircuitFixtures

namespace IndexMap

variable {α : Type}

/-- The map without the keys in a list. -/
def eraseAll (m : IndexMap α) (is : List Index) : IndexMap α :=
  is.foldl erase m

/-- The map with the entries in a list, which are added in order. -/
def insertAll (m : IndexMap α) (es : List (Index × α)) : IndexMap α :=
  es.foldl (fun m p => m.insert p.1 p.2) m

theorem get?_eraseAll (m : IndexMap α) (is : List Index) (i : Index) :
    (m.eraseAll is).get? i = if i ∈ is then none else m.get? i := by
  induction is generalizing m with
  | nil => simp [eraseAll]
  | cons j is ih =>
    have hstep : m.eraseAll (j :: is) = (m.erase j).eraseAll is := rfl
    rw [hstep, ih, get?_erase]
    by_cases hi : i ∈ is
    · simp [hi]
    · simp [hi]

theorem last?_entries (m : IndexMap α) (i : Index) : last? i m.entries = m.get? i := by
  rw [← get?_ofList, ofList_entries]

theorem get?_insertAll_entries (m n : IndexMap α) (i : Index) :
    (m.insertAll n.entries).get? i = (n.get? i).or (m.get? i) := by
  rw [insertAll, get?_foldl_insert, last?_entries]

theorem size_filter_add_size_filter_not (m : IndexMap α) (keep : Index → α → Bool) :
    (m.filter keep).size + (m.filter fun i x => !keep i x).size = m.size :=
  (List.length_eq_length_filter_add _).symm

end IndexMap

namespace Assignment

open IndexMap

variable {m n : Assignment}

/-! ## Patches -/

/-- The assignment without the indices of `removed`, and then with the entries of `added`. -/
def patched (n removed added : Assignment) : Assignment :=
  (n.eraseAll removed.keys).insertAll added.entries

theorem get?_patched (n removed added : Assignment) (i : Index) :
    (n.patched removed added).get? i =
      (added.get? i).or (if i ∈ removed.keys then none else n.get? i) := by
  rw [patched, get?_insertAll_entries, get?_eraseAll]

theorem mem_keys_difference {i : Index} :
    i ∈ (m.difference n).keys ↔ m.get? i ≠ none ∧ n.get? i ≠ m.get? i := by
  rw [← Decidable.not_not (p := i ∈ _), ← get?_eq_none_iff, get?_difference]
  by_cases h : n.get? i = m.get? i
  · simp [h]
  · simp [h]

/-- What is in `n` alone goes, what is in `m` alone comes, and what has changed does both. -/
theorem patched_differences (m n : Assignment) :
    n.patched (n.difference m) (m.difference n) = m := by
  apply ext_get?
  intro i
  rw [get?_patched, get?_difference]
  simp only [mem_keys_difference]
  by_cases hsame : n.get? i = m.get? i
  · simp [hsame]
  · rw [if_neg hsame]
    cases hm : m.get? i with
    | some x => rfl
    | none =>
      -- There is a value in `n`, and it has to go.
      rw [hm] at hsame
      simp [hsame, Ne.symm hsame]

/-! ## Empty differences -/

theorem isEmpty_difference_iff :
    (m.difference n).isEmpty = true ↔ ∀ e ∈ m.entries, e ∈ n.entries := by
  rw [isEmpty, List.isEmpty_iff, List.eq_nil_iff_forall_not_mem]
  simp only [mem_entries_difference, Differs, not_and, Decidable.not_not]

theorem isEmpty_differences_iff :
    (m.difference n).isEmpty = true ∧ (n.difference m).isEmpty = true ↔ m = n := by
  rw [isEmpty_difference_iff, isEmpty_difference_iff]
  constructor
  · rintro ⟨hmn, hnm⟩
    exact ext_entries (eq_of_mem_iff m.ascending n.ascending fun e => ⟨hmn e, hnm e⟩)
  · rintro rfl
    exact ⟨fun _ he => he, fun _ he => he⟩

/-! ## Sizes -/

/-- The entries that both assignments have. -/
def shared (m n : Assignment) : Assignment :=
  m.filter fun i x => n.get? i == some x

theorem shared_comm (m n : Assignment) : m.shared n = n.shared m := by
  have hmem (m n : Assignment) (e : Index × Field) :
      e ∈ (m.shared n).entries ↔ e ∈ m.entries ∧ e ∈ n.entries := by
    have hvalue : n.get? e.1 = some e.2 ↔ e ∈ n.entries := get?_eq_some
    simp [shared, IndexMap.filter, hvalue]
  refine ext_entries (eq_of_mem_iff (m.shared n).ascending (n.shared m).ascending fun e => ?_)
  rw [hmem, hmem, and_comm]

theorem size_shared_add_size_difference (m n : Assignment) :
    (m.shared n).size + (m.difference n).size = m.size :=
  size_filter_add_size_filter_not m _

theorem size_difference_add (m n : Assignment) :
    (m.difference n).size + n.size = (n.difference m).size + m.size := by
  have hm := size_shared_add_size_difference m n
  have hn := size_shared_add_size_difference n m
  rw [shared_comm n m] at hn
  omega

/-- The differences between two assignments are a faithful patch: to take the indices of the one out
of `n` and to put the entries of the other in makes `m`. A difference is empty where all entries of
the first are entries of the second, both are where the assignments are the same, and they
are as much apart in size as the assignments. -/
theorem differences_faithful (m n : Assignment) :
    n.patched (n.difference m) (m.difference n) = m ∧
      ((m.difference n).isEmpty = true ↔ ∀ e ∈ m.entries, e ∈ n.entries) ∧
      ((m.difference n).isEmpty = true ∧ (n.difference m).isEmpty = true ↔ m = n) ∧
      (m.difference n).size + n.size = (n.difference m).size + m.size :=
  ⟨patched_differences m n, isEmpty_difference_iff, isEmpty_differences_iff,
    size_difference_add m n⟩

-- One index is left alone, one has another value, one goes and one comes.
example :
    patched (ofList [(1, Field.one), (2, Field.zero), (4, Field.one)])
        (ofList [(2, Field.zero), (4, Field.one)]) (ofList [(2, Field.one), (3, Field.one)]) =
      ofList [(1, Field.one), (2, Field.one), (3, Field.one)] := by
  decide

end Assignment

end CircuitFixtures
