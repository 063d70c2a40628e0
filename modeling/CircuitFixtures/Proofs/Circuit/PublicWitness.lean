import CircuitFixtures.Proofs.Assignment.Restriction
import CircuitFixtures.PublicWitness

/-!
# Public witnesses of any circuit

Taking the values at a set of indices out of an assignment works exactly where all of them have one,
and else tells the smallest that has none (`Assignment.extracts_restrict`). Of two sets together the
result is that of both, put together (`Assignment.together_restrict`). So it is for what a verifier
sees of a circuit, whatever the circuit and the assignment are (`Circuit.publicWitness_together`).
-/

namespace CircuitFixtures

namespace Assignment

open IndexMap

variable {m : Assignment} {s t : IndexSet} {p q both : Assignment} {i j : Index}

/-- `result` is what comes of taking the values at the indices in `wanted` out of `m`. -/
structure Extracts (m : Assignment) (wanted : Index → Prop) (result : Except Index Assignment) :
    Prop where
  isOk_iff : (∃ out, result = .ok out) ↔ ∀ i, wanted i → i ∈ m.keys
  ok_iff : ∀ out, result = .ok out ↔
    (∀ i, wanted i → i ∈ m.keys) ∧ (∀ i, i ∈ out.keys ↔ wanted i) ∧
      ∀ i, wanted i → out.get? i = m.get? i
  error_iff : ∀ i, result = .error i ↔
    wanted i ∧ i ∉ m.keys ∧ ∀ j, wanted j → j ∉ m.keys → i ≤ j

/-- The third result is that of the other two together: the entries of both, or the smaller of the
indices that they tell. -/
inductive Together : Except Index Assignment → Except Index Assignment → Except Index Assignment → Prop
  | both {p q r : Assignment} (union : ∀ e, e ∈ r.entries ↔ e ∈ p.entries ∨ e ∈ q.entries) :
    Together (.ok p) (.ok q) (.ok r)
  | first (i : Index) (q : Assignment) : Together (.error i) (.ok q) (.error i)
  | second (p : Assignment) (i : Index) : Together (.ok p) (.error i) (.error i)
  | smaller (i j : Index) : Together (.error i) (.error j) (.error (min i j))

theorem extracts_restrict (m : Assignment) (s : IndexSet) :
    m.Extracts (· ∈ s.elems) (m.restrict s) where
  isOk_iff := by
    constructor
    · rintro ⟨out, h⟩
      exact (restrict_eq_ok_iff.1 h).1
    · exact fun h => ⟨_, restrict_of_forall_mem h⟩
  ok_iff out := by
    constructor
    · intro h
      obtain ⟨hall, hget⟩ := restrict_eq_ok_iff.1 h
      refine ⟨hall, fun i => ?_, fun i hi => ?_⟩
      · rw [keys_of_restrict h]
      · rw [hget, if_pos hi]
    · rintro ⟨hall, hkeys, hget⟩
      refine restrict_eq_ok_iff.2 ⟨hall, fun i => ?_⟩
      by_cases hi : i ∈ s.elems
      · rw [if_pos hi, hget i hi]
      · rw [if_neg hi, get?_eq_none_iff, hkeys]
        exact hi
  error_iff _ := restrict_eq_error_iff

/-- The entries of a restriction are those with an index in the set. -/
theorem mem_entries_of_restrict {e : Index × Field} (h : m.restrict s = .ok p) :
    e ∈ p.entries ↔ e.1 ∈ s.elems ∧ e ∈ m.entries := by
  obtain ⟨i, x⟩ := e
  rw [← get?_eq_some, ← get?_eq_some, (restrict_eq_ok_iff.1 h).2]
  by_cases hi : i ∈ s.elems <;> simp [hi]

theorem mem_entries_of_restrict_union {e : Index × Field} (hs : m.restrict s = .ok p)
    (ht : m.restrict t = .ok q) (hboth : m.restrict (s.union t) = .ok both) :
    e ∈ both.entries ↔ e ∈ p.entries ∨ e ∈ q.entries := by
  rw [mem_entries_of_restrict hs, mem_entries_of_restrict ht, mem_entries_of_restrict hboth,
    IndexSet.mem_union, or_and_right]

/-- Where all that is wanted of the second set is there, an index of both that is missing is one of
the first. -/
theorem restrict_union_eq_error (hs : m.restrict s = .error i) (ht : m.restrict t = .ok q) :
    m.restrict (s.union t) = .error i ∧ m.restrict (t.union s) = .error i := by
  obtain ⟨hi, hmissing, hleast⟩ := restrict_eq_error_iff.1 hs
  have hall := (restrict_eq_ok_iff.1 ht).1
  have hfirst {j : Index} (hj : j ∈ s.elems ∨ j ∈ t.elems) (hjm : j ∉ m.keys) : j ∈ s.elems :=
    hj.resolve_right fun hjt => hjm (hall j hjt)
  constructor
  · refine restrict_eq_error_iff.2 ⟨IndexSet.mem_union.2 (.inl hi), hmissing, fun j hj hjm => ?_⟩
    exact hleast j (hfirst (IndexSet.mem_union.1 hj) hjm) hjm
  · refine restrict_eq_error_iff.2 ⟨IndexSet.mem_union.2 (.inr hi), hmissing, fun j hj hjm => ?_⟩
    exact hleast j (hfirst (IndexSet.mem_union.1 hj).symm hjm) hjm

theorem restrict_union_eq_error_min (hs : m.restrict s = .error i) (ht : m.restrict t = .error j) :
    m.restrict (s.union t) = .error (min i j) := by
  obtain ⟨hi, hmissing, hleast⟩ := restrict_eq_error_iff.1 hs
  obtain ⟨hj, hmissing', hleast'⟩ := restrict_eq_error_iff.1 ht
  have hmin : min i j = i ∧ i ≤ j ∨ min i j = j ∧ j ≤ i := by
    by_cases hij : i ≤ j
    · exact .inl ⟨if_pos hij, hij⟩
    · exact .inr ⟨if_neg hij, (UInt32.le_total i j).resolve_left hij⟩
  refine restrict_eq_error_iff.2 ?_
  simp only [IndexSet.mem_union]
  rcases hmin with ⟨hmin, hij⟩ | ⟨hmin, hji⟩
  · rw [hmin]
    refine ⟨.inl hi, hmissing, fun k hk hkm => hk.elim (hleast k · hkm) fun hk => ?_⟩
    exact UInt32.le_trans hij (hleast' k hk hkm)
  · rw [hmin]
    refine ⟨.inr hj, hmissing', fun k hk hkm => hk.elim (fun hk => ?_) (hleast' k · hkm)⟩
    exact UInt32.le_trans hji (hleast k hk hkm)

theorem together_restrict (m : Assignment) (s t : IndexSet) :
    Together (m.restrict s) (m.restrict t) (m.restrict (s.union t)) := by
  cases hs : m.restrict s with
  | ok p =>
    cases ht : m.restrict t with
    | ok q =>
      obtain ⟨both, hboth⟩ : ∃ both, m.restrict (s.union t) = .ok both :=
        (restrict_union hs ht).imp fun _ h => h.1
      rw [hboth]
      exact .both fun e => mem_entries_of_restrict_union hs ht hboth
    | error j =>
      rw [(restrict_union_eq_error ht hs).2]
      exact .second p j
  | error i =>
    cases ht : m.restrict t with
    | ok q =>
      rw [(restrict_union_eq_error hs ht).1]
      exact .first i q
    | error j =>
      rw [restrict_union_eq_error_min hs ht]
      exact .smaller i j

end Assignment

namespace Circuit

/-- For every circuit and every assignment: each of the three extractions works exactly where all
indices of its set have values, and then has these values at these indices and no others; else it
tells the smallest index that has none. What a verifier sees is the parameters and the return values
together, and where it fails, it tells the smaller of the indices that these tell. -/
theorem publicWitness_together (c : Circuit) (m : Assignment) :
    m.Extracts (· ∈ c.publicParameters.elems) (c.parameterWitness m) ∧
    m.Extracts (· ∈ c.returnValues.elems) (c.returnWitness m) ∧
    m.Extracts (fun i => i ∈ c.publicParameters.elems ∨ i ∈ c.returnValues.elems)
      (c.publicWitness m) ∧
    Assignment.Together (c.parameterWitness m) (c.returnWitness m) (c.publicWitness m) := by
  have hseen : (fun i => i ∈ c.publicParameters.elems ∨ i ∈ c.returnValues.elems) =
      (· ∈ c.publicInputs.elems) :=
    funext fun i => propext IndexSet.mem_union.symm
  refine ⟨m.extracts_restrict _, m.extracts_restrict _, ?_, m.together_restrict _ _⟩
  rw [hseen]
  exact m.extracts_restrict _

-- A parameter and a return value are missing; the smaller index is that of the return value.
example : publicWitness ⟨9, [], .empty, .ofList [2, 9], .ofList [3], []⟩
    (.ofList [(2, Field.one)]) = .error 3 := rfl

end Circuit

end CircuitFixtures
