import CircuitFixtures.Proofs.Assignment.Edits

/-!
# Restrictions

An assignment is restricted to a set exactly where it gives every index of the set a value, and
the restriction then has these entries and no others (`Assignment.restrict_eq_ok_iff`); elsewhere it
fails with the smallest index that has none (`Assignment.restrict_eq_error_iff`). So the
result is fixed by what the assignment says on the set (`Assignment.restrict_of_agree`), and its keys
are the set (`Assignment.keys_of_restrict`).
-/

namespace CircuitFixtures

namespace Assignment

open IndexMap

variable {m n out r : Assignment} {s : IndexSet}

-- Along the list of indices the values of `m` are put over those that stand in `out` so far.
theorem restrictAfter_eq_ok_iff {is : List Index} :
    restrictAfter m out is = .ok r ↔
      (∀ i ∈ is, i ∈ m.keys) ∧ ∀ i, r.get? i = if i ∈ is then m.get? i else out.get? i := by
  induction is generalizing out with
  | nil =>
    rw [restrictAfter]
    constructor
    · intro h
      cases h
      simp
    · rintro ⟨-, h⟩
      exact congrArg Except.ok (ext_get? fun i => by simp [h])
  | cons i is ih =>
    rw [restrictAfter]
    cases hi : m.get? i with
    | none =>
      constructor
      · intro h
        cases h
      · rintro ⟨h, -⟩
        exact absurd (h i List.mem_cons_self) (get?_eq_none_iff.1 hi)
    | some x =>
      simp only [ih, List.forall_mem_cons, mem_keys_of_get? hi, true_and]
      refine and_congr_right fun _ => forall_congr' fun j => ?_
      rw [get?_insert]
      by_cases hj : j = i
      · subst hj
        simp [hi]
      · simp [hj]

theorem restrict_eq_ok_iff :
    m.restrict s = .ok r ↔
      (∀ i ∈ s.elems, i ∈ m.keys) ∧
        ∀ i, r.get? i = if i ∈ s.elems then m.get? i else none := by
  rw [restrict, restrictAfter_eq_ok_iff]
  rfl

-- The indices ascend, so those that come first are below all that are left.
theorem restrictAfter_eq_error_iff {is : List Index} {i : Index} (his : is.Pairwise (· < ·)) :
    restrictAfter m out is = .error i ↔
      i ∈ is ∧ i ∉ m.keys ∧ ∀ j ∈ is, j ∉ m.keys → i ≤ j := by
  induction is generalizing out with
  | nil =>
    constructor
    · intro h
      cases h
    · rintro ⟨hi, -, -⟩
      cases hi
  | cons k is ih =>
    obtain ⟨hk, his⟩ := List.pairwise_cons.1 his
    rw [restrictAfter]
    cases hvalue : m.get? k with
    | none =>
      have hmissing := get?_eq_none_iff.1 hvalue
      constructor
      · intro h
        cases h
        refine ⟨List.mem_cons_self, hmissing, fun j hj _ => ?_⟩
        rcases List.mem_cons.1 hj with rfl | hj
        · exact UInt32.le_refl _
        · exact UInt32.le_of_lt (hk j hj)
      · rintro ⟨hi, -, hleast⟩
        rcases List.mem_cons.1 hi with rfl | hi
        · rfl
        · exact absurd (hk i hi) (UInt32.not_lt.2 (hleast k List.mem_cons_self hmissing))
    | some x =>
      have hheld := mem_keys_of_get? hvalue
      have hothers {j : Index} (hj : j ∉ m.keys) : j ∈ k :: is ↔ j ∈ is := by
        rw [List.mem_cons]
        exact or_iff_right fun heq => hj (heq ▸ hheld)
      simp only [ih his]
      constructor
      · rintro ⟨hi, hmissing, hleast⟩
        exact ⟨List.mem_cons_of_mem _ hi, hmissing, fun j hj hjm => hleast j ((hothers hjm).1 hj) hjm⟩
      · rintro ⟨hi, hmissing, hleast⟩
        exact ⟨(hothers hmissing).1 hi, hmissing, fun j hj => hleast j (List.mem_cons_of_mem _ hj)⟩

/-- A restriction that fails names the smallest index of the set that has no value. -/
theorem restrict_eq_error_iff {i : Index} :
    m.restrict s = .error i ↔
      i ∈ s.elems ∧ i ∉ m.keys ∧ ∀ j ∈ s.elems, j ∉ m.keys → i ≤ j :=
  restrictAfter_eq_error_iff s.ascending

/-- The restriction keeps the entries of the set. -/
theorem restrict_of_forall_mem (h : ∀ i ∈ s.elems, i ∈ m.keys) :
    m.restrict s = .ok (m.filter fun i _ => s.contains i) := by
  refine restrict_eq_ok_iff.2 ⟨h, fun i => ?_⟩
  rw [get?_filter, IndexSet.contains]
  by_cases hi : i ∈ s.elems
  · cases m.get? i <;> simp [hi, Option.filter]
  · cases m.get? i <;> simp [hi, Option.filter]

theorem restrict_of_agree (h : ∀ i ∈ s.elems, m.get? i = n.get? i) (hr : m.restrict s = .ok r) :
    n.restrict s = .ok r := by
  obtain ⟨hkeys, hget⟩ := restrict_eq_ok_iff.1 hr
  refine restrict_eq_ok_iff.2 ⟨fun i hi => ?_, fun i => ?_⟩
  · rw [mem_keys_iff, ← h i hi, ← mem_keys_iff]
    exact hkeys i hi
  · rw [hget]
    by_cases hi : i ∈ s.elems
    · rw [if_pos hi, if_pos hi, h i hi]
    · rw [if_neg hi, if_neg hi]

theorem keys_of_restrict (h : m.restrict s = .ok r) : r.keys = s.elems := by
  obtain ⟨hkeys, hget⟩ := restrict_eq_ok_iff.1 h
  have hset : (⟨r.keys, r.ascending_keys⟩ : IndexSet) = s := by
    refine IndexSet.ext_mem fun i => ?_
    change i ∈ r.keys ↔ _
    rw [mem_keys_iff, hget]
    by_cases hi : i ∈ s.elems
    · rw [if_pos hi, ← mem_keys_iff]
      exact iff_of_true (hkeys i hi) hi
    · simp [hi]
  exact congrArg IndexSet.elems hset

/-- Where an assignment is restricted to two sets, it is to both together, and that gives the
entries of either. -/
theorem restrict_union {s t : IndexSet} {p q : Assignment} (hp : m.restrict s = .ok p)
    (hq : m.restrict t = .ok q) :
    ∃ both, m.restrict (s.union t) = .ok both ∧
      ∀ i, both.get? i = (p.get? i).or (q.get? i) := by
  obtain ⟨hs, hpget⟩ := restrict_eq_ok_iff.1 hp
  obtain ⟨ht, hqget⟩ := restrict_eq_ok_iff.1 hq
  have hall : ∀ i ∈ (s.union t).elems, i ∈ m.keys := fun i hi =>
    (IndexSet.mem_union.1 hi).elim (hs i) (ht i)
  refine ⟨_, restrict_of_forall_mem hall, fun i => ?_⟩
  rw [(restrict_eq_ok_iff.1 (restrict_of_forall_mem hall)).2, hpget, hqget]
  simp only [IndexSet.mem_union]
  by_cases h1 : i ∈ s.elems
  · obtain ⟨x, hx⟩ := mem_keys_iff.1 (hs i h1)
    simp [h1, hx]
  · simp [h1]

end Assignment

end CircuitFixtures
